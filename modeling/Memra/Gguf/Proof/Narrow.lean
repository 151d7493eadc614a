import Memra.Gguf.Narrow

/-!
# The narrowing is correctly rounded

Both functions keep the sign and take the nearest magnitude (`f32ToF16Bits_rounds`, `f32ToFp8E4m3_rounds`).
To `f16` the cut is a shift: the part cut off is compared with half a unit by its first bit and whether
others are set (`roundUp_iff`). To e4m3 a binary search finds the two neighbours, and the rounded
subtractions order their distances as the exact ones do (`sub_order`).
-/

namespace Memra.Nvfp4

open Lib

/-! ## Bits -/

theorem or_eq_add {a b i : ℕ} (hb : b < 2 ^ i) : a * 2 ^ i ||| b = a * 2 ^ i + b := by
  rw [Nat.mul_comm, Nat.two_pow_add_eq_or_of_lt hb]

theorem and_pow_eq (n i : ℕ) : n &&& 2 ^ i = n / 2 ^ i % 2 * 2 ^ i := by
  rw [Nat.and_two_pow, Nat.testBit_eq_decide_div_mod_eq]
  rcases Nat.mod_two_eq_zero_or_one (n / 2 ^ i) with h | h <;> simp [h]

/-- The bit behind the cut, and whether one behind it is set, against half a unit. -/
theorem roundUp_iff {n s : ℕ} (hs : 1 ≤ s) :
    (n / 2 ^ (s - 1) % 2 = 1 ∧ (n % 2 ^ (s - 1) ≠ 0 ∨ n / 2 ^ s % 2 = 1)) ↔
      ¬(2 * (n % 2 ^ s) < 2 ^ s ∨ 2 * (n % 2 ^ s) = 2 ^ s ∧ Even (n / 2 ^ s)) := by
  obtain ⟨t, rfl⟩ := Nat.exists_eq_add_of_le' hs
  rw [Nat.add_sub_cancel]
  have hpos : 0 < 2 ^ t := by positivity
  have hb : n % 2 ^ t < 2 ^ t := Nat.mod_lt _ hpos
  have hdiv : n / 2 ^ (t + 1) = n / 2 ^ t / 2 := by rw [pow_succ, Nat.div_div_eq_div_mul]
  have hmod : n % 2 ^ (t + 1) = n / 2 ^ t % 2 * 2 ^ t + n % 2 ^ t := by
    rw [pow_succ, Nat.mod_mul]
    ring
  rw [hdiv, hmod, pow_succ, Nat.even_iff]
  rcases Nat.mod_two_eq_zero_or_one (n / 2 ^ t) with h | h
  · rw [h]
    omega
  · rw [h]
    omega

/-! ## The parts of a float -/

/-- Exponent and mantissa bits. -/
theorem exists_parts (x : UInt32) : ∃ s e m : ℕ, s < 2 ∧ e < 2 ^ 8 ∧ m < 2 ^ 23 ∧
    x.toNat = s * 2 ^ 31 + (e * 2 ^ 23 + m) := by
  have hx : x.toNat < 2 ^ 32 := x.toNat_lt
  refine ⟨x.toNat / 2 ^ 31, x.toNat / 2 ^ 23 % 2 ^ 8, x.toNat % 2 ^ 23, by omega, by omega, by omega, ?_⟩
  omega

section
variable {e m : ℕ}

theorem f32_mag (he : 1 ≤ e) (hm : m < 2 ^ 23) :
    f32.mag (e * 2 ^ 23 + m) = (2 ^ 23 + m : ℕ) * 2 ^ ((e : ℤ) - 150) := by
  rw [BinaryFormat.mag, show f32.sig (e * 2 ^ 23 + m) = _ from f32.sig_normal he hm,
    BinaryFormat.quantum, Nat.cast_mul, mul_assoc]
  congr 1
  rw [Nat.cast_pow, Nat.cast_ofNat, ← zpow_natCast, ← zpow_add₀ (by norm_num)]
  congr 1
  push_cast [f32, Nat.cast_sub he]
  ring

theorem f16_mag_subnormal {q : ℕ} (hq : q < 2 ^ 10) : f16.mag q = q * 2 ^ (-24 : ℤ) := by
  rw [BinaryFormat.mag, f16.sig_of_lt hq]
  rfl

theorem f16_mag {q : ℕ} (he : 1 ≤ e) (hq : q < 2 ^ 10) :
    f16.mag (e * 2 ^ 10 + q) = (2 ^ 10 + q : ℕ) * 2 ^ ((e : ℤ) - 25) := by
  rw [BinaryFormat.mag, show f16.sig (e * 2 ^ 10 + q) = _ from f16.sig_normal he hq,
    BinaryFormat.quantum, Nat.cast_mul, mul_assoc]
  congr 1
  rw [Nat.cast_pow, Nat.cast_ofNat, ← zpow_natCast, ← zpow_add₀ (by norm_num)]
  congr 1
  push_cast [f16, Nat.cast_sub he]
  ring

/-! ## To `f16` -/

theorem f16_overflow (hm : m < 2 ^ 23) (he : 143 ≤ e) :
    NearestEven f16.mag 0x7C00 (f32.mag (e * 2 ^ 23 + m)) 0x7C00 := by
  refine NearestEven.of_last f16.mag_strictMono ?_
  have hlast : f16.mag 0x7C00 = f32.mag (143 * 2 ^ 23 + 0) := by
    rw [f32_mag (by norm_num) (by norm_num),
      show (0x7C00 : ℕ) = 31 * 2 ^ 10 + 0 by norm_num, f16_mag (by norm_num) (by norm_num)]
    norm_num
  rw [hlast]
  exact f32.mag_strictMono.monotone (by omega)

theorem f16_underflow (hm : m < 2 ^ 23) (he : e < 102) :
    NearestEven f16.mag 0x7C00 (f32.mag (e * 2 ^ 23 + m)) 0 := by
  have hlt : f32.mag (e * 2 ^ 23 + m) < f32.mag (102 * 2 ^ 23 + 0) := f32.mag_strictMono (by omega)
  have htop : f32.mag (102 * 2 ^ 23 + 0) = (2 ^ 23 + 0 : ℕ) * 2 ^ (((102 : ℕ) : ℤ) - 150) :=
    f32_mag (by norm_num) (by norm_num)
  rw [htop, Nat.add_zero] at hlt
  have hone : f16.mag 1 = 1 * 2 ^ (-24 : ℤ) := by
    rw [f16_mag_subnormal (by norm_num), Nat.cast_one]
  refine NearestEven.of_between f16.mag_strictMono 0 (by norm_num) ?_ ?_ ?_
  · rw [BinaryFormat.mag_zero]
    exact f32.mag_nonneg _
  · rw [hone]
    refine hlt.le.trans ?_
    norm_num
  · rw [if_pos]
    left
    rw [BinaryFormat.mag_zero, hone]
    calc 2 * f32.mag (e * 2 ^ 23 + m) < 2 * ((2 ^ 23 : ℕ) * 2 ^ (((102 : ℕ) : ℤ) - 150)) := by
          linarith
      _ = 0 + 1 * 2 ^ (-24 : ℤ) := by norm_num

/-- The code that the cut leaves. -/
def upIf (lo : ℕ) (low : Prop) [Decidable low] : ℕ := if low then lo else lo + 1

theorem f16_subnormal (hm : m < 2 ^ 23) (h1 : 102 ≤ e) (h2 : e ≤ 112) :
    let n := 2 ^ 23 + m
    let s := 126 - e
    n / 2 ^ s < 2 ^ 10 ∧ NearestEven f16.mag 0x7C00 (f32.mag (e * 2 ^ 23 + m))
      (upIf (n / 2 ^ s) (2 * (n % 2 ^ s) < 2 ^ s ∨ 2 * (n % 2 ^ s) = 2 ^ s ∧ Even (n / 2 ^ s))) := by
  intro n s
  have hpos : 0 < 2 ^ s := by positivity
  have hq : n / 2 ^ s < 2 ^ 10 := by
    refine (Nat.div_lt_iff_lt_mul hpos).2 ?_
    calc n < 2 ^ 24 := by omega
      _ = 2 ^ 10 * 2 ^ 14 := by norm_num
      _ ≤ 2 ^ 10 * 2 ^ s := Nat.mul_le_mul_left _ (Nat.pow_le_pow_right (by norm_num) (by omega))
  refine ⟨hq, ?_⟩
  have hu : (0 : ℚ) < 2 ^ ((e : ℤ) - 150) := BinaryFormat.two_zpow_pos _
  -- one unit of the result is `2 ^ s` of the float's
  have hunit : (2 : ℚ) ^ (-24 : ℤ) = (2 ^ s : ℕ) * 2 ^ ((e : ℤ) - 150) := by
    rw [Nat.cast_pow, Nat.cast_ofNat, ← zpow_natCast, ← zpow_add₀ (by norm_num)]
    congr 1
    push_cast [s, Nat.cast_sub (show e ≤ 126 by omega)]
    ring
  refine NearestEven.of_gap f16.mag_strictMono (n / 2 ^ s) (r := n % 2 ^ s) (g := 2 ^ s) hu (by omega)
    (Nat.mod_lt _ hpos).le ?_ ?_ rfl
  · rw [f32_mag (by omega) hm, f16_mag_subnormal hq, hunit, ← mul_assoc, ← add_mul]
    congr 1
    exact_mod_cast (Nat.div_add_mod' n (2 ^ s)).symm
  · rw [f16.mag_succ, show n / 2 ^ s / 2 ^ f16.man = 0 from Nat.div_eq_of_lt hq, Nat.zero_sub, pow_zero,
      Nat.cast_one, one_mul, ← hunit]
    rfl

theorem f16_normal (hm : m < 2 ^ 23) (h1 : 113 ≤ e) (h2 : e ≤ 142) :
    NearestEven f16.mag 0x7C00 (f32.mag (e * 2 ^ 23 + m))
      (upIf ((e - 112) * 2 ^ 10 + m / 2 ^ 13)
        (2 * (m % 2 ^ 13) < 2 ^ 13 ∨ 2 * (m % 2 ^ 13) = 2 ^ 13 ∧ Even (m / 2 ^ 13))) := by
  have hq : m / 2 ^ 13 < 2 ^ 10 := by omega
  have hu : (0 : ℚ) < 2 ^ ((e : ℤ) - 150) := BinaryFormat.two_zpow_pos _
  have hunit : (2 : ℚ) ^ (((e - 112 : ℕ) : ℤ) - 25) = (2 ^ 13 : ℕ) * 2 ^ ((e : ℤ) - 150) := by
    rw [Nat.cast_pow, Nat.cast_ofNat, ← zpow_natCast, ← zpow_add₀ (by norm_num)]
    congr 1
    push_cast [Nat.cast_sub (show 112 ≤ e by omega)]
    ring
  have heven : Even ((e - 112) * 2 ^ 10 + m / 2 ^ 13) ↔ Even (m / 2 ^ 13) := by
    rw [Nat.even_add]
    exact iff_true_left (Nat.even_mul.2 (.inr (by decide)))
  refine NearestEven.of_gap f16.mag_strictMono ((e - 112) * 2 ^ 10 + m / 2 ^ 13) (r := m % 2 ^ 13)
    (g := 2 ^ 13) hu (by omega) (Nat.mod_lt _ (by norm_num)).le ?_ ?_ (by simp only [upIf, heven])
  · rw [f32_mag (by omega) hm, f16_mag (by omega) hq, hunit, ← mul_assoc, ← add_mul]
    congr 1
    have := (Nat.div_add_mod' m (2 ^ 13)).symm
    exact_mod_cast (by omega : 2 ^ 23 + m = (2 ^ 10 + m / 2 ^ 13) * 2 ^ 13 + m % 2 ^ 13)
  · have hdiv : ((e - 112) * 2 ^ 10 + m / 2 ^ 13) / 2 ^ f16.man = e - 112 := by
      show _ / 2 ^ 10 = _
      omega
    rw [f16.mag_succ, hdiv]
    congr 1
    rw [← hunit, BinaryFormat.quantum, Nat.cast_pow, Nat.cast_ofNat, ← zpow_natCast,
      ← zpow_add₀ (by norm_num)]
    congr 1
    push_cast [f16, Nat.cast_sub (show 1 ≤ e - 112 by omega)]
    ring

theorem sign_or {sign c : UInt16} {s : ℕ} (hs : sign.toNat = s * 2 ^ 15) (hc : c.toNat < 2 ^ 15) :
    (sign ||| c).toNat = s * 2 ^ 15 + c.toNat := by
  rw [UInt16.toNat_or, hs, or_eq_add hc]

/-- The bits that the narrowing reads. -/
structure Parts (x : UInt32) (s e m : ℕ) : Prop where
  sign : ((x >>> 16) &&& 0x8000).toUInt16.toNat = s * 2 ^ 15
  exp : ((x >>> 23) &&& 0xFF).toNat = e
  man : (x &&& 0x7FFFFF).toNat = m

theorem parts {x : UInt32} {s : ℕ} (hs : s < 2) (he : e < 2 ^ 8) (hm : m < 2 ^ 23)
    (hx : x.toNat = s * 2 ^ 31 + (e * 2 ^ 23 + m)) : Parts x s e m := by
  constructor
  · rw [UInt32.toNat_toUInt16, UInt32.toNat_and, UInt32.toNat_shiftRight,
      show (0x8000 : UInt32).toNat = 2 ^ 15 by rfl, show (16 : UInt32).toNat % 32 = 16 by rfl,
      Nat.shiftRight_eq_div_pow, and_pow_eq, hx]
    omega
  · rw [UInt32.toNat_and, UInt32.toNat_shiftRight, show (0xFF : UInt32).toNat = 2 ^ 8 - 1 by rfl,
      show (23 : UInt32).toNat % 32 = 23 by rfl, Nat.shiftRight_eq_div_pow,
      Nat.and_two_pow_sub_one_eq_mod, hx]
    omega
  · rw [UInt32.toNat_and, show (0x7FFFFF : UInt32).toNat = 2 ^ 23 - 1 by rfl,
      Nat.and_two_pow_sub_one_eq_mod, hx]
    omega

/-- The rounding of the source at a cut of `t` bits. -/
theorem round_iff {n : UInt32} {t : UInt32} {low : Prop} (ht1 : 1 ≤ t.toNat) (ht : t.toNat < 32)
    (hlow : low ↔ n.toNat / 2 ^ t.toNat % 2 = 1) :
    ((n >>> (t - 1)) &&& 1 = 1 ∧ (n &&& ((1 <<< (t - 1)) - 1) ≠ 0 ∨ low)) ↔
      ¬(2 * (n.toNat % 2 ^ t.toNat) < 2 ^ t.toNat ∨
        2 * (n.toNat % 2 ^ t.toNat) = 2 ^ t.toNat ∧ Even (n.toNat / 2 ^ t.toNat)) := by
  have hle : (1 : UInt32) ≤ t := UInt32.le_iff_toNat_le.2 (by simpa using ht1)
  have hsub : (t - 1).toNat = t.toNat - 1 := by
    rw [UInt32.toNat_sub_of_le _ _ hle]
    rfl
  have hmod : (t - 1).toNat % 32 = t.toNat - 1 := by
    rw [hsub]
    exact Nat.mod_eq_of_lt (by omega)
  have hpow : 2 ^ (t.toNat - 1) < 2 ^ 32 := Nat.pow_lt_pow_right (by norm_num) (by omega)
  have hone : (1 <<< (t - 1) : UInt32).toNat = 2 ^ (t.toNat - 1) := by
    rw [UInt32.toNat_shiftLeft, hmod, show (1 : UInt32).toNat = 1 by rfl, Nat.shiftLeft_eq, one_mul,
      Nat.mod_eq_of_lt hpow]
  have hmask : ((1 <<< (t - 1)) - 1 : UInt32).toNat = 2 ^ (t.toNat - 1) - 1 := by
    rw [UInt32.toNat_sub_of_le _ _ (UInt32.le_iff_toNat_le.2 ?_), hone]
    · rfl
    · rw [hone]
      exact Nat.one_le_two_pow
  have hround : (n >>> (t - 1)) &&& 1 = 1 ↔ n.toNat / 2 ^ (t.toNat - 1) % 2 = 1 := by
    rw [← UInt32.toNat_inj, UInt32.toNat_and, UInt32.toNat_shiftRight, hmod,
      Nat.shiftRight_eq_div_pow, show (1 : UInt32).toNat = 1 by rfl, Nat.and_one_is_mod]
  have hsticky : n &&& ((1 <<< (t - 1)) - 1) ≠ 0 ↔ n.toNat % 2 ^ (t.toNat - 1) ≠ 0 := by
    rw [ne_eq, ← UInt32.toNat_inj, UInt32.toNat_and, hmask, Nat.and_two_pow_sub_one_eq_mod]
    rfl
  rw [hround, hsticky, hlow, roundUp_iff ht1]

/-- The magnitude that the source makes of an exponent and a mantissa. -/
def f16Code (e m : ℕ) : ℕ :=
  if 143 ≤ e then 0x7C00
  else if e ≤ 112 then
    if e < 102 then 0
    else
      let n := 2 ^ 23 + m
      let s := 126 - e
      upIf (n / 2 ^ s) (2 * (n % 2 ^ s) < 2 ^ s ∨ 2 * (n % 2 ^ s) = 2 ^ s ∧ Even (n / 2 ^ s))
  else
    upIf ((e - 112) * 2 ^ 10 + m / 2 ^ 13)
      (2 * (m % 2 ^ 13) < 2 ^ 13 ∨ 2 * (m % 2 ^ 13) = 2 ^ 13 ∧ Even (m / 2 ^ 13))

theorem f16Code_nearest (hm : m < 2 ^ 23) :
    NearestEven f16.mag 0x7C00 (f32.mag (e * 2 ^ 23 + m)) (f16Code e m) := by
  unfold f16Code
  split_ifs with h1 h2 h3
  · exact f16_overflow hm h1
  · exact f16_underflow hm h3
  · exact (f16_subnormal hm (by omega) h2).2
  · exact f16_normal hm (by omega) (by omega)

theorem subnormal_bits {man : UInt32} (hman : man.toNat = m) (hm : m < 2 ^ 23) (h1 : 102 ≤ e)
    (h2 : e ≤ 112) :
    let man24 := man ||| 0x800000
    let shift := UInt32.ofNat (126 - e)
    let halfMan := man24 >>> shift
    (if (man24 >>> (shift - 1)) &&& 1 = 1 ∧
        (man24 &&& ((1 <<< (shift - 1)) - 1) ≠ 0 ∨ halfMan &&& 1 = 1) then halfMan + 1
      else halfMan).toUInt16.toNat = f16Code e m := by
  intro man24 shift halfMan
  have hshift : shift.toNat = 126 - e := by
    rw [UInt32.toNat_ofNat']
    exact Nat.mod_eq_of_lt (by omega)
  have hman24 : man24.toNat = 2 ^ 23 + m := by
    rw [UInt32.toNat_or, hman, Nat.lor_comm, show (0x800000 : UInt32).toNat = 1 * 2 ^ 23 by rfl,
      or_eq_add hm, one_mul]
  have hhalf : halfMan.toNat = (2 ^ 23 + m) / 2 ^ (126 - e) := by
    rw [UInt32.toNat_shiftRight, hman24, hshift, Nat.mod_eq_of_lt (by omega),
      Nat.shiftRight_eq_div_pow]
  obtain ⟨hlt, -⟩ := f16_subnormal hm h1 h2
  have hodd : halfMan &&& 1 = 1 ↔ man24.toNat / 2 ^ shift.toNat % 2 = 1 := by
    rw [← UInt32.toNat_inj, UInt32.toNat_and, hhalf, hman24, hshift,
      show (1 : UInt32).toNat = 1 by rfl, Nat.and_one_is_mod]
  have hup := round_iff (by omega) (by omega) hodd
  rw [hman24, hshift] at hup
  rw [f16Code, if_neg (show ¬143 ≤ e by omega), if_pos h2, if_neg (show ¬e < 102 by omega), upIf]
  by_cases hlow : 2 * ((2 ^ 23 + m) % 2 ^ (126 - e)) < 2 ^ (126 - e) ∨
      2 * ((2 ^ 23 + m) % 2 ^ (126 - e)) = 2 ^ (126 - e) ∧ Even ((2 ^ 23 + m) / 2 ^ (126 - e))
  · rw [if_neg fun h => hup.1 h hlow, if_pos hlow, UInt32.toNat_toUInt16, hhalf]
    exact Nat.mod_eq_of_lt (by omega)
  · rw [if_pos (hup.2 hlow), if_neg hlow, UInt32.toNat_toUInt16, UInt32.toNat_add, hhalf,
      show (1 : UInt32).toNat = 1 by rfl, Nat.mod_eq_of_lt (by omega), Nat.mod_eq_of_lt (by omega)]

theorem pack_bits {sign e' m' : UInt16} {s : ℕ} (hs : sign.toNat = s * 2 ^ 15) (he : e'.toNat < 2 ^ 5)
    (hm : m'.toNat < 2 ^ 10) :
    (sign ||| (e' <<< 10) ||| m').toNat = s * 2 ^ 15 + (e'.toNat * 2 ^ 10 + m'.toNat) := by
  have hshl : (e' <<< 10).toNat = e'.toNat * 2 ^ 10 := by
    rw [UInt16.toNat_shiftLeft, show (10 : UInt16).toNat % 16 = 10 by rfl, Nat.shiftLeft_eq]
    exact Nat.mod_eq_of_lt (by omega)
  rw [UInt16.toNat_or, sign_or hs (by omega), hshl,
    show s * 2 ^ 15 + e'.toNat * 2 ^ 10 = (s * 2 ^ 5 + e'.toNat) * 2 ^ 10 by ring, or_eq_add hm]
  ring

theorem normal_bits {man : UInt32} {sign : UInt16} {s : ℕ} (hs : sign.toNat = s * 2 ^ 15)
    (hman : man.toNat = m) (hm : m < 2 ^ 23) (h1 : 113 ≤ e) (h2 : e ≤ 142) :
    let m' : UInt16 := (man >>> 13).toUInt16
    let e' : UInt16 := UInt16.ofNat (e - 112)
    (if (man >>> 12) &&& 1 = 1 ∧ (man &&& 0xFFF ≠ 0 ∨ m' &&& 1 = 1) then
      if m' + 1 = 0x400 then
        if 0x1F ≤ e' + 1 then sign ||| 0x7C00 else sign ||| ((e' + 1) <<< 10) ||| 0
      else sign ||| (e' <<< 10) ||| (m' + 1)
    else sign ||| (e' <<< 10) ||| m').toNat = s * 2 ^ 15 + f16Code e m := by
  intro m' e'
  have he' : e'.toNat = e - 112 := by
    rw [UInt16.toNat_ofNat']
    exact Nat.mod_eq_of_lt (by omega)
  have hm' : m'.toNat = m / 2 ^ 13 := by
    rw [UInt32.toNat_toUInt16, UInt32.toNat_shiftRight, hman, show (13 : UInt32).toNat % 32 = 13 by rfl,
      Nat.shiftRight_eq_div_pow]
    exact Nat.mod_eq_of_lt (by omega)
  have hodd : m' &&& 1 = 1 ↔ man.toNat / 2 ^ (13 : UInt32).toNat % 2 = 1 := by
    rw [← UInt16.toNat_inj, UInt16.toNat_and, hm', hman, show (1 : UInt16).toNat = 1 by rfl,
      Nat.and_one_is_mod]
    rfl
  have hup := round_iff (t := 13) (by decide) (by decide) hodd
  rw [hman, show (13 : UInt32) - 1 = 12 by rfl, show (1 : UInt32) <<< 12 - 1 = 0xFFF by rfl,
    show (13 : UInt32).toNat = 13 by rfl] at hup
  rw [f16Code, if_neg (show ¬143 ≤ e by omega), if_neg (show ¬e ≤ 112 by omega), upIf]
  by_cases hlow : 2 * (m % 2 ^ 13) < 2 ^ 13 ∨ 2 * (m % 2 ^ 13) = 2 ^ 13 ∧ Even (m / 2 ^ 13)
  · rw [if_neg fun h => hup.1 h hlow, if_pos hlow, pack_bits hs (by omega) (by omega), he', hm']
  · have hsucc : (m' + 1).toNat = m / 2 ^ 13 + 1 := by
      rw [UInt16.toNat_add, hm', show (1 : UInt16).toNat = 1 by rfl]
      exact Nat.mod_eq_of_lt (by omega)
    rw [if_pos (hup.2 hlow), if_neg hlow]
    by_cases hcarry : m' + 1 = 0x400
    · -- the mantissa carries into the exponent
      have hm10 : m / 2 ^ 13 + 1 = 2 ^ 10 := by
        rw [← hsucc, hcarry]
        rfl
      have hesucc : (e' + 1).toNat = e - 112 + 1 := by
        rw [UInt16.toNat_add, he', show (1 : UInt16).toNat = 1 by rfl]
        exact Nat.mod_eq_of_lt (by omega)
      rw [if_pos hcarry]
      by_cases htop : (0x1F : UInt16) ≤ e' + 1
      · have : (0x1F : UInt16).toNat ≤ (e' + 1).toNat := UInt16.le_iff_toNat_le.1 htop
        rw [show (0x1F : UInt16).toNat = 31 by rfl] at this
        rw [if_pos htop, sign_or hs (by decide), show (0x7C00 : UInt16).toNat = 31 * 2 ^ 10 by rfl]
        omega
      · have : ¬(0x1F : UInt16).toNat ≤ (e' + 1).toNat := fun h => htop (UInt16.le_iff_toNat_le.2 h)
        rw [show (0x1F : UInt16).toNat = 31 by rfl] at this
        rw [if_neg htop, pack_bits hs (by omega) (by decide), hesucc, show (0 : UInt16).toNat = 0 by rfl]
        omega
    · have hne : m / 2 ^ 13 + 1 ≠ 2 ^ 10 := by
        rw [← hsucc]
        intro h
        exact hcarry (UInt16.toNat_inj.1 h)
      rw [if_neg hcarry, pack_bits hs (by omega) (by omega), he', hsucc]
      omega

/-- **The bits that come out.** -/
theorem f32ToF16Bits_toNat {x : UInt32} {s : ℕ} (hs : s < 2) (he : e < 2 ^ 8) (hm : m < 2 ^ 23)
    (hx : x.toNat = s * 2 ^ 31 + (e * 2 ^ 23 + m)) (hfin : e ≠ 255) :
    (f32ToF16Bits x).toNat = s * 2 ^ 15 + f16Code e m := by
  obtain ⟨hsign, hexp, hman⟩ := parts hs he hm hx
  simp only [f32ToF16Bits, hexp]
  rw [if_neg (show ¬(e : ℤ) = 0xFF by omega)]
  by_cases htop : 143 ≤ e
  · rw [if_pos (by omega), f16Code, if_pos htop, sign_or hsign (by decide)]
    rfl
  rw [if_neg (show ¬(0x1F : ℤ) ≤ (e : ℤ) - 127 + 15 by omega)]
  by_cases hlow : e ≤ 112
  · rw [if_pos (show (e : ℤ) - 127 + 15 ≤ 0 by omega)]
    by_cases htiny : e < 102
    · rw [if_pos (show (e : ℤ) - 127 + 15 < -10 by omega), f16Code, if_neg htop, if_pos hlow,
        if_pos htiny, hsign, Nat.add_zero]
    · have hshift : (14 - ((e : ℤ) - 127 + 15)).toNat = 126 - e := by omega
      have hbits := subnormal_bits hman hm (by omega) hlow
      rw [if_neg (show ¬(e : ℤ) - 127 + 15 < -10 by omega), hshift, sign_or hsign ?_, hbits]
      rw [hbits]
      exact lt_of_le_of_lt (f16Code_nearest hm).le_last (by norm_num)
  · have hexp16 : ((e : ℤ) - 127 + 15).toNat = e - 112 := by omega
    rw [if_neg (show ¬(e : ℤ) - 127 + 15 ≤ 0 by omega), hexp16]
    exact normal_bits hsign hman hm (by omega) (by omega)

end

/-! ## To e4m3 -/

theorem and_mask_toNat (x : UInt8) : (x &&& 0x7F).toNat = x.toNat % 2 ^ 7 := by
  rw [UInt8.toNat_and, show (0x7F : UInt8).toNat = 2 ^ 7 - 1 by rfl, Nat.and_two_pow_sub_one_eq_mod]

theorem e4m3_mag (c : ℕ) : e4m3.mag c =
    if c / 8 = 0 then ((c % 8 : ℕ) : ℚ) / 8 * 2 ^ (-6 : ℤ)
    else (1 + ((c % 8 : ℕ) : ℚ) / 8) * 2 ^ (((c / 8 : ℕ) : ℤ) - 7) := by
  rw [BinaryFormat.mag, BinaryFormat.sig, BinaryFormat.quantum]
  show ((if c / 8 = 0 then c % 8 else (8 + c % 8) * 2 ^ (c / 8 - 1) : ℕ) : ℚ) * 2 ^ (1 - 7 - 3 : ℤ) = _
  split_ifs with h
  · norm_num
    ring
  · obtain ⟨e, he⟩ := Nat.exists_eq_add_of_le' (Nat.pos_of_ne_zero h)
    have hexp : (2 : ℚ) ^ (((c / 8 : ℕ) : ℤ) - 7) = 2 ^ e * 2 ^ (-6 : ℤ) := by
      rw [he, ← zpow_natCast, ← zpow_add₀ (by norm_num)]
      congr 1
      push_cast
      ring
    rw [hexp, he, Nat.add_sub_cancel]
    push_cast
    norm_num
    ring

/-- The decoder, by the format. -/
theorem fp8E4m3ToF32_eq (x : UInt8) :
    fp8E4m3ToF32 x = if x.toNat % 2 ^ 7 = 127 then 0 else e4m3.value x.toNat := by
  have hx : x.toNat < 2 ^ 8 := x.toNat_lt
  have hmag : (x &&& 0x7F = 0x7F) ↔ x.toNat % 2 ^ 7 = 127 := by
    rw [← UInt8.toNat_inj, and_mask_toNat]
    rfl
  have hsign : (x &&& 0x80 ≠ 0) ↔ e4m3.Negative x.toNat := by
    rw [ne_eq, ← UInt8.toNat_inj, UInt8.toNat_and, show (0x80 : UInt8).toNat = 2 ^ 7 by rfl, and_pow_eq]
    show ¬x.toNat / 2 ^ 7 % 2 * 2 ^ 7 = 0 ↔ x.toNat / 2 ^ 7 % 2 = 1
    omega
  have hexp : ((x &&& 0x7F) >>> 3 &&& 0xF).toNat = x.toNat % 2 ^ 7 / 8 := by
    rw [UInt8.toNat_and, UInt8.toNat_shiftRight, and_mask_toNat, show (0xF : UInt8).toNat = 2 ^ 4 - 1 by rfl,
      Nat.and_two_pow_sub_one_eq_mod, show (3 : UInt8).toNat % 8 = 3 by rfl, Nat.shiftRight_eq_div_pow]
    omega
  have hman : ((x &&& 0x7F) &&& 0x7).toNat = x.toNat % 2 ^ 7 % 8 := by
    rw [UInt8.toNat_and, and_mask_toNat, show (0x7 : UInt8).toNat = 2 ^ 3 - 1 by rfl,
      Nat.and_two_pow_sub_one_eq_mod]
  have hraw := e4m3_mag (x.toNat % 2 ^ 7)
  simp only [fp8E4m3ToF32, hmag, hsign, hexp, hman, Nat.cast_eq_zero]
  rw [← hraw, BinaryFormat.value]
  split_ifs
  · rfl
  · rw [neg_one_mul]
    rfl
  · rw [one_mul]
    rfl

theorem e4m3Table_eq {c : ℕ} (hc : c ≤ 126) : e4m3Table c = e4m3.mag c := by
  have hnat : (UInt8.ofNat c).toNat = c := by
    rw [UInt8.toNat_ofNat']
    exact Nat.mod_eq_of_lt (by omega)
  have hneg : ¬e4m3.Negative c := by
    show ¬c / 2 ^ 7 % 2 = 1
    omega
  have hcode : e4m3.code c = c := Nat.mod_eq_of_lt (show c < 2 ^ 7 by omega)
  rw [e4m3Table, fp8E4m3ToF32_eq, hnat, if_neg (by omega), BinaryFormat.value, if_neg hneg, hcode]

/-- The search ends at two neighbours around `ax`. -/
theorem e4m3Search_spec {ax : ℚ} {lo hi : ℕ} (hlt : lo < hi) (hlo : e4m3Table lo ≤ ax)
    (hhi : ax < e4m3Table hi) :
    ∃ l, e4m3Search ax lo hi = (l, l + 1) ∧ l + 1 ≤ hi ∧ e4m3Table l ≤ ax ∧ ax < e4m3Table (l + 1) := by
  fun_induction e4m3Search ax lo hi with
  | case1 lo hi hgap mid hmid ih =>
    obtain ⟨l, h, hle, hl, hr⟩ := ih (by omega) hmid hhi
    exact ⟨l, h, hle, hl, hr⟩
  | case2 lo hi hgap mid hmid ih =>
    obtain ⟨l, h, hle, hl, hr⟩ := ih (by omega) hlo (not_le.1 hmid)
    exact ⟨l, h, by omega, hl, hr⟩
  | case3 lo hi hgap =>
    obtain rfl : hi = lo + 1 := by omega
    exact ⟨lo, rfl, le_rfl, hlo, hhi⟩

/-! ### The subtractions -/

theorem round_zero : f32.round 0 = 0 := by
  rw [BinaryFormat.round, zero_div, show rne 0 = 0 from rne_intCast 0, Int.cast_zero, zero_mul]

/-- Every float is a whole number of units in its last place, and at most `2 ^ 24` of them. -/
theorem f32_units {k : ℕ} (hk : k < 2 ^ 31) : ∃ (n : ℕ) (j : ℤ), -149 ≤ j ∧ f32.mag k = n * 2 ^ j ∧
    f32.mag k < 2 ^ (j + 24) := by
  obtain ⟨e, m, hm, rfl⟩ : ∃ e m, m < 2 ^ 23 ∧ k = e * 2 ^ 23 + m :=
    ⟨k / 2 ^ 23, k % 2 ^ 23, Nat.mod_lt _ (by norm_num), (Nat.div_add_mod' k _).symm⟩
  rcases Nat.eq_zero_or_pos e with rfl | he
  · refine ⟨m, -149, le_rfl, ?_, ?_⟩
    · rw [Nat.zero_mul, Nat.zero_add, BinaryFormat.mag, f32.sig_of_lt hm]
      rfl
    · rw [Nat.zero_mul, Nat.zero_add, BinaryFormat.mag, f32.sig_of_lt hm, zpow_add₀ (by norm_num), mul_comm]
      refine mul_lt_mul_of_pos_left ?_ (BinaryFormat.two_zpow_pos _)
      calc (m : ℚ) < (2 ^ 23 : ℕ) := Nat.cast_lt.2 hm
        _ < 2 ^ (24 : ℤ) := by norm_num
  · refine ⟨2 ^ 23 + m, (e : ℤ) - 150, by omega, f32_mag he hm, ?_⟩
    rw [f32_mag he hm, zpow_add₀ (by norm_num), mul_comm]
    refine mul_lt_mul_of_pos_left ?_ (BinaryFormat.two_zpow_pos _)
    calc ((2 ^ 23 + m : ℕ) : ℚ) < (2 ^ 24 : ℕ) := Nat.cast_lt.2 (by omega)
      _ = 2 ^ (24 : ℤ) := by norm_num

theorem round_f32 {k : ℕ} (hk : k < 2 ^ 31) : f32.round (f32.mag k) = f32.mag k := by
  obtain ⟨n, j, hj, heq, hlt⟩ := f32_units hk
  rcases (f32.mag_nonneg k).lt_or_eq with hpos | h0
  · refine BinaryFormat.round_exact (n := n) (k := j) (by simpa [f32] using hj) (by simpa using heq) hpos ?_
    show f32.mag k < 2 ^ (j + (23 : ℕ) + 1)
    rwa [show j + (23 : ℕ) + 1 = j + 24 by push_cast; ring]
  · rw [← h0, round_zero]

/-- A difference that is a whole number of small enough units is exact. -/
theorem round_units {q : ℚ} {j : ℤ} {n : ℤ} (hj : -9 ≤ j) (hq : q = n * 2 ^ (j - 23)) (h0 : 0 ≤ q)
    (hle : q ≤ 2 ^ j) : f32.round q = q := by
  rcases h0.lt_or_eq with hpos | rfl
  · refine BinaryFormat.round_exact (n := n) (k := j - 23) ?_ hq hpos ?_
    · show 1 - 127 - ((23 : ℕ) : ℤ) ≤ j - 23
      push_cast
      omega
    · refine hle.trans_lt ?_
      show (2 : ℚ) ^ j < 2 ^ (j - 23 + (23 : ℕ) + 1)
      refine zpow_lt_zpow_right₀ (by norm_num) ?_
      push_cast
      omega
  · exact round_zero

/-- The gap behind a code is a power of two, the code a whole number of gaps, and one at least but for
zero. -/
theorem e4m3_gap {c : ℕ} (hc : c < 126) : ∃ (j : ℤ) (n : ℕ), -9 ≤ j ∧ e4m3.mag c = n * 2 ^ j ∧
    e4m3.mag (c + 1) = (n + 1) * 2 ^ j ∧ (n = 0 ↔ c = 0) ∧ (n = 0 → j = -9) := by
  have hsucc : e4m3.mag (c + 1) = e4m3.mag c + (2 ^ (c / 8 - 1) : ℕ) * 2 ^ (-9 : ℤ) := e4m3.mag_succ c
  have hmag : e4m3.mag c = e4m3.sig c * 2 ^ (-9 : ℤ) := rfl
  rcases Nat.eq_zero_or_pos (c / 8) with h | h
  · have hsig : e4m3.sig c = c := e4m3.sig_of_lt (show c < 2 ^ 3 by omega)
    refine ⟨-9, c, le_rfl, by rw [hmag, hsig], ?_, by omega, fun _ => rfl⟩
    rw [hsucc, hmag, hsig, h]
    push_cast
    ring
  · have hpow : ((2 ^ (c / 8 - 1) : ℕ) : ℚ) * 2 ^ (-9 : ℤ) = 2 ^ (((c / 8 : ℕ) : ℤ) - 10) := by
      rw [Nat.cast_pow, Nat.cast_ofNat, ← zpow_natCast, ← zpow_add₀ (by norm_num)]
      congr 1
      push_cast [Nat.cast_sub (show 1 ≤ c / 8 from h)]
      ring
    have hsig : e4m3.sig c = (8 + c % 8) * 2 ^ (c / 8 - 1) := if_neg (show ¬c / 8 = 0 by omega)
    refine ⟨((c / 8 : ℕ) : ℤ) - 10, 8 + c % 8, by omega, ?_, ?_, by omega, by omega⟩
    · rw [hmag, hsig, Nat.cast_mul, mul_assoc, hpow]
    · rw [hsucc, hpow, hmag, hsig, Nat.cast_mul, mul_assoc, hpow]
      ring

/-- **The rounded distances to two neighbours compare as the exact ones.** -/
theorem sub_order {k c : ℕ} (hk : k < 2 ^ 31) (hc : c < 126) (hlo : e4m3.mag c ≤ f32.mag k)
    (hhi : f32.mag k < e4m3.mag (c + 1)) :
    let dl := f32.round (f32.mag k - e4m3.mag c)
    let dh := f32.round (e4m3.mag (c + 1) - f32.mag k)
    (dl < dh ↔ 2 * f32.mag k < e4m3.mag c + e4m3.mag (c + 1)) ∧
      (dh < dl ↔ e4m3.mag c + e4m3.mag (c + 1) < 2 * f32.mag k) := by
  obtain ⟨j, n, hj, hmag, hsucc, hn, hzero⟩ := e4m3_gap hc
  intro dl dh
  rcases Nat.eq_zero_or_pos n with hn0 | hn0
  · -- below the smallest magnitude the first distance is the float itself, and the middle decides
    obtain rfl := hzero hn0
    have hc0 : e4m3.mag c = 0 := by rw [hmag, hn0, Nat.cast_zero, zero_mul]
    have hc1 : e4m3.mag (c + 1) = 2 ^ (-10 : ℤ) + 2 ^ (-10 : ℤ) := by
      rw [hsucc, hn0]
      norm_num
    have hdl : dl = f32.mag k := by
      show f32.round _ = _
      rw [hc0, sub_zero, round_f32 hk]
    have hup : 2 * f32.mag k ≤ e4m3.mag c + e4m3.mag (c + 1) → 2 ^ (-10 : ℤ) ≤ dh := fun h =>
      BinaryFormat.le_round (by norm_num [f32]) (by rw [hc0, hc1] at *; linarith)
    have hdown : e4m3.mag c + e4m3.mag (c + 1) ≤ 2 * f32.mag k → dh ≤ 2 ^ (-10 : ℤ) := fun h =>
      BinaryFormat.round_le (by linarith) (by norm_num [f32]) (by rw [hc0, hc1] at *; linarith)
    rw [hdl, hc0, hc1] at *
    constructor <;> constructor <;> intro h
    · by_contra hcon
      have := hdown (by linarith)
      linarith
    · have := hup (by linarith)
      linarith
    · by_contra hcon
      have := hup (by linarith)
      linarith
    · have := hdown (by linarith)
      linarith
  · -- from there on the float is a whole number of units that both distances can hold
    obtain ⟨a, i, hi, heq, hlt⟩ := f32_units hk
    have hgap : (2 : ℚ) ^ j ≤ f32.mag k := by
      have h1 : (1 : ℚ) ≤ n := Nat.one_le_cast.2 hn0
      have := BinaryFormat.two_zpow_pos j
      calc (2 : ℚ) ^ j = 1 * 2 ^ j := (one_mul _).symm
        _ ≤ n * 2 ^ j := by gcongr
        _ ≤ f32.mag k := by rw [← hmag]; exact hlo
    have hji : j - 23 ≤ i := by
      have := (zpow_lt_zpow_iff_right₀ (by norm_num : (1 : ℚ) < 2)).1 (hgap.trans_lt hlt)
      omega
    obtain ⟨u, hu⟩ := BinaryFormat.two_zpow_div hji
    have hunit : (2 : ℚ) ^ i = u * 2 ^ (j - 23) := by
      rw [← hu, div_mul_cancel₀ _ (BinaryFormat.two_zpow_pos _).ne']
    have hfine : (2 : ℚ) ^ j = 2 ^ 23 * 2 ^ (j - 23) := by
      rw [← zpow_natCast, ← zpow_add₀ (by norm_num)]
      congr 1
      push_cast
      ring
    have hdl : dl = f32.mag k - e4m3.mag c :=
      round_units (n := a * u - n * 2 ^ 23) hj (by rw [heq, hmag, hunit, hfine]; push_cast; ring)
        (by linarith) (by rw [hsucc] at hhi; rw [hmag]; linarith)
    have hdh : dh = e4m3.mag (c + 1) - f32.mag k :=
      round_units (n := (n + 1) * 2 ^ 23 - a * u) hj (by rw [heq, hsucc, hunit, hfine]; push_cast; ring)
        (by linarith) (by rw [hmag] at hlo; rw [hsucc]; linarith)
    rw [hdl, hdh]
    constructor <;> constructor <;> intro h <;> linarith

/-! ## The results -/

theorem finite_exp {x : UInt32} {s e m : ℕ} (hm : m < 2 ^ 23)
    (hx : x.toNat = s * 2 ^ 31 + (e * 2 ^ 23 + m)) (h : Finite32 x) : e ≠ 255 := by
  rw [Finite32, hx] at h
  omega

theorem f32_code {x : UInt32} {s e m : ℕ} (he : e < 2 ^ 8) (hm : m < 2 ^ 23)
    (hx : x.toNat = s * 2 ^ 31 + (e * 2 ^ 23 + m)) : f32.code x.toNat = e * 2 ^ 23 + m := by
  show x.toNat % 2 ^ 31 = _
  omega

theorem f32_negative {x : UInt32} {s e m : ℕ} (hs : s < 2) (he : e < 2 ^ 8) (hm : m < 2 ^ 23)
    (hx : x.toNat = s * 2 ^ 31 + (e * 2 ^ 23 + m)) : f32.Negative x.toNat ↔ s = 1 := by
  show x.toNat / 2 ^ 31 % 2 = 1 ↔ _
  omega

theorem f32ToF16Bits_rounds {x : UInt32} (h : Finite32 x) :
    f16.RoundsTo 0x7C00 (f32.value x.toNat) (f32ToF16Bits x).toNat ∧
      (f32ToF16Bits x).toNat / 2 ^ 15 = x.toNat / 2 ^ 31 := by
  obtain ⟨s, e, m, hs, he, hm, hx⟩ := exists_parts x
  have hbits := f32ToF16Bits_toNat hs he hm hx (finite_exp hm hx h)
  have hnear := f16Code_nearest (e := e) hm
  have hlt : f16Code e m < 2 ^ 15 := lt_of_le_of_lt hnear.le_last (by norm_num)
  have hcode : f16.code (f32ToF16Bits x).toNat = f16Code e m := by
    show (f32ToF16Bits x).toNat % 2 ^ 15 = _
    omega
  have hneg : f16.Negative (f32ToF16Bits x).toNat ↔ f32.Negative x.toNat := by
    rw [f32_negative hs he hm hx]
    show (f32ToF16Bits x).toNat / 2 ^ 15 % 2 = 1 ↔ _
    omega
  refine ⟨⟨?_, fun hx0 _ => ?_, fun hx0 _ hcon => ?_⟩, by omega⟩
  · rw [f32.abs_value, f32_code he hm hx, hcode]
    exact hnear
  · by_contra hcon
    exact absurd (f32.value_nonneg fun h => hcon (hneg.2 h)) (not_le.2 hx0)
  · exact absurd (f32.value_nonpos (hneg.1 hcon)) (not_le.2 hx0)

theorem e4m3_rounds {k c : ℕ} (hk : k < 2 ^ 31) (hc : c < 126) (hlo : e4m3.mag c ≤ f32.mag k)
    (hhi : f32.mag k < e4m3.mag (c + 1)) :
    NearestEven e4m3.mag 126 (f32.mag k)
      (if f32.round (f32.mag k - e4m3Table c) < f32.round (e4m3Table (c + 1) - f32.mag k) then c
        else if f32.round (e4m3Table (c + 1) - f32.mag k) < f32.round (f32.mag k - e4m3Table c) then c + 1
        else if c % 2 = 0 then c else c + 1) := by
  rw [e4m3Table_eq (by omega), e4m3Table_eq (by omega)]
  obtain ⟨h1, h2⟩ := sub_order hk hc hlo hhi
  refine NearestEven.of_between e4m3.mag_strictMono c (by omega) hlo hhi.le ?_
  simp only [h1, h2, ← Nat.even_iff]
  split_ifs with h1' h2' h3' h4' h5' h6' h7'
  all_goals first | rfl | skip
  · exact absurd (Or.inl h1') h2'
  · rcases h4' with h | h
    · exact absurd h h1'
    · linarith [h.1]
  · exact absurd (Or.inr ⟨le_antisymm (not_lt.1 h3') (not_lt.1 h1'), h5'⟩) h6'
  · rcases h7' with h | h
    · exact absurd h h1'
    · exact absurd h.2 h5'

theorem e4m3_sign_or {sign : UInt8} {s c : ℕ} (hs : sign.toNat = s * 2 ^ 7) (hc : c < 2 ^ 7) :
    (sign ||| UInt8.ofNat c).toNat = s * 2 ^ 7 + c := by
  rw [UInt8.toNat_or, hs, UInt8.toNat_ofNat', Nat.mod_eq_of_lt (by omega), or_eq_add hc]

theorem e4m3_pick {sign : UInt8} {s c : ℕ} (hs : sign.toNat = s * 2 ^ 7) (hc : c ≤ 126) :
    (if c = 0 then 0 else sign ||| UInt8.ofNat c).toNat = if c = 0 then 0 else s * 2 ^ 7 + c := by
  split
  · rfl
  · exact e4m3_sign_or hs (by omega)

/-- A byte of the sign `s` and the nearest magnitude `c`. -/
theorem e4m3_rounds_of {x : UInt32} {r : UInt8} {s e m c : ℕ} (hs : s < 2) (he : e < 2 ^ 8)
    (hm : m < 2 ^ 23) (hx : x.toNat = s * 2 ^ 31 + (e * 2 ^ 23 + m))
    (hnear : NearestEven e4m3.mag 126 (f32.mag (e * 2 ^ 23 + m)) c)
    (hr : r.toNat = if c = 0 then 0 else s * 2 ^ 7 + c) : e4m3.RoundsTo 126 (f32.value x.toNat) r.toNat := by
  have hle := hnear.le_last
  have hcode : e4m3.code r.toNat = c := by
    show r.toNat % 2 ^ 7 = c
    rw [hr]
    split <;> omega
  have hneg : c ≠ 0 → (e4m3.Negative r.toNat ↔ f32.Negative x.toNat) := by
    intro h0
    rw [f32_negative hs he hm hx, hr, if_neg h0]
    show (s * 2 ^ 7 + c) / 2 ^ 7 % 2 = 1 ↔ _
    omega
  refine ⟨?_, fun hx0 h0 => ?_, fun hx0 h0 hcon => ?_⟩
  · rw [f32.abs_value, f32_code he hm hx, hcode]
    exact hnear
  · rw [hcode] at h0
    by_contra hcon
    exact absurd (f32.value_nonneg fun h => hcon ((hneg h0).2 h)) (not_le.2 hx0)
  · rw [hcode] at h0
    exact absurd (f32.value_nonpos ((hneg h0).1 hcon)) (not_le.2 hx0)

theorem f32ToFp8E4m3_rounds {x : UInt32} (h : Finite32 x) :
    e4m3.RoundsTo 126 (f32.value x.toNat) (f32ToFp8E4m3 x).toNat := by
  obtain ⟨s, e, m, hs, he, hm, hx⟩ := exists_parts x
  have hfin := finite_exp hm hx h
  have hmag : (x &&& 0x7FFFFFFF).toNat = e * 2 ^ 23 + m := by
    rw [UInt32.toNat_and, show (0x7FFFFFFF : UInt32).toNat = 2 ^ 31 - 1 by rfl,
      Nat.and_two_pow_sub_one_eq_mod, hx]
    omega
  have hsign : (if x >>> 31 ≠ 0 then 0x80 else 0 : UInt8).toNat = s * 2 ^ 7 := by
    have : x >>> 31 ≠ 0 ↔ s = 1 := by
      rw [ne_eq, ← UInt32.toNat_inj, UInt32.toNat_shiftRight, show (31 : UInt32).toNat % 32 = 31 by rfl,
        Nat.shiftRight_eq_div_pow, hx, show (0 : UInt32).toNat = 0 by rfl]
      omega
    by_cases h1 : s = 1
    · rw [if_pos (this.2 h1), h1]
      rfl
    · rw [if_neg fun h => h1 (this.1 h), show s = 0 by omega]
      rfl
  have hk : e * 2 ^ 23 + m < 2 ^ 31 := by omega
  unfold f32ToFp8E4m3
  simp only [hmag]
  generalize (if x >>> 31 ≠ 0 then 0x80 else 0 : UInt8) = sign at hsign ⊢
  rw [if_neg (show ¬0x7F800000 < e * 2 ^ 23 + m by omega)]
  by_cases hzero : f32.mag (e * 2 ^ 23 + m) = 0
  · rw [if_pos hzero]
    refine e4m3_rounds_of hs he hm hx (c := 0) ?_ rfl
    rw [hzero, ← e4m3.mag_zero]
    exact NearestEven.self e4m3.mag_strictMono (Nat.zero_le _)
  rw [if_neg hzero]
  by_cases htop : e4m3Table 126 ≤ f32.mag (e * 2 ^ 23 + m)
  · rw [if_pos htop]
    refine e4m3_rounds_of hs he hm hx (c := 126) ?_ ?_
    · rw [e4m3Table_eq le_rfl] at htop
      exact NearestEven.of_last e4m3.mag_strictMono htop
    · rw [if_neg (by norm_num)]
      exact e4m3_sign_or hsign (c := 126) (by norm_num)
  rw [if_neg htop]
  obtain ⟨l, hsearch, hle, hlo, hhi⟩ := e4m3Search_spec (show 0 < 126 by norm_num)
    (by rw [e4m3Table_eq (by norm_num), BinaryFormat.mag_zero]; exact f32.mag_nonneg _) (not_le.1 htop)
  rw [hsearch]
  have hnear := e4m3_rounds hk (c := l) (by omega) (by rwa [← e4m3Table_eq (by omega)])
    (by rwa [← e4m3Table_eq (by omega)])
  exact e4m3_rounds_of hs he hm hx hnear (e4m3_pick hsign hnear.le_last)

/-- A narrowing to the codes up to `last` of a format: the nearest of them with ties to the even code, rising
with the float, and exact on the values of these codes. -/
structure CorrectlyRounded (F : BinaryFormat) (last : ℕ) (f : UInt32 → ℕ) : Prop where
  le_last : ∀ x, Finite32 x → F.code (f x) ≤ last
  nearest : ∀ x, Finite32 x → ∀ d, F.code d ≤ last →
    |f32.value x.toNat - F.value (f x)| ≤ |f32.value x.toNat - F.value d|
  even : ∀ x, Finite32 x → ∀ d, F.code d ≤ last → F.value d ≠ F.value (f x) →
    |f32.value x.toNat - F.value d| = |f32.value x.toNat - F.value (f x)| → Even (F.code (f x))
  mono : ∀ x y, Finite32 x → Finite32 y → f32.value x.toNat ≤ f32.value y.toNat →
    F.value (f x) ≤ F.value (f y)
  exact : ∀ x, Finite32 x → ∀ d, F.code d ≤ last → f32.value x.toNat = F.value d →
    F.value (f x) = F.value d ∧ F.code (f x) = F.code d

theorem correctlyRounded_of {F : BinaryFormat} {last : ℕ} {f : UInt32 → ℕ}
    (h : ∀ x, Finite32 x → F.RoundsTo last (f32.value x.toNat) (f x)) : CorrectlyRounded F last f where
  le_last x hx := (h x hx).mag.le_last
  nearest x hx d hd := (h x hx).nearest hd
  even x hx d hd := (h x hx).even hd
  mono x y hx hy hxy := (h x hx).mono (h y hy) hxy
  exact x hx d hd heq := by
    have := h x hx
    rw [heq] at this
    exact this.exact hd

/-- The result is infinite from the middle behind the largest finite value on. -/
theorem f16_infinite_iff {x : ℚ} {c : ℕ} (h : f16.RoundsTo 0x7C00 x c) :
    f16.code c = 0x7C00 ↔ 65520 ≤ |x| := by
  have hmax : f16.mag 0x7BFF = 65504 := by
    rw [show (0x7BFF : ℕ) = 30 * 2 ^ 10 + 1023 by norm_num, f16_mag (by norm_num) (by norm_num)]
    norm_num
  have hinf : f16.mag 0x7C00 = 65536 := by
    rw [show (0x7C00 : ℕ) = 31 * 2 ^ 10 + 0 by norm_num, f16_mag (by norm_num) (by norm_num)]
    norm_num
  constructor
  · intro hc
    have hnear := h.mag.nearest 0x7BFF (by norm_num)
    rw [hc] at hnear
    have := (abs_sub_ge_iff_mid (by rw [hmax, hinf]; norm_num)).1 hnear
    rw [hmax, hinf] at this
    linarith
  · intro hx
    have : NearestEven f16.mag 0x7C00 (min |x| 65536) 0x7C00 := NearestEven.of_between
      f16.mag_strictMono 0x7BFF
      (by norm_num) (by rw [hmax]; exact le_min (by linarith) (by norm_num))
      (by rw [hinf]; exact min_le_right _ _)
      (by
        rw [if_neg]
        rw [hmax, hinf, not_or, not_lt, not_and]
        exact ⟨by have := le_min hx (show (65520 : ℚ) ≤ 65536 by norm_num); linarith,
          fun _ => by decide⟩)
    have hle := this.mono f16.mag_strictMono (min_le_left _ _) h.mag
    exact le_antisymm h.mag.le_last hle

/-- **The narrowing functions are correctly rounded**, with the sign bit kept and an infinite result from
`65520` on to `f16`, and the largest finite value from there on to e4m3. -/
theorem narrowing_rounds :
    CorrectlyRounded f16 0x7C00 (fun x => (f32ToF16Bits x).toNat) ∧
      (∀ x, Finite32 x → (f32ToF16Bits x).toNat / 2 ^ 15 = x.toNat / 2 ^ 31 ∧
        (f16.code (f32ToF16Bits x).toNat = 0x7C00 ↔ 65520 ≤ |f32.value x.toNat|)) ∧
      CorrectlyRounded e4m3 126 (fun x => (f32ToFp8E4m3 x).toNat) ∧
      ∀ x, Finite32 x → e4m3.mag 126 ≤ |f32.value x.toNat| → e4m3.code (f32ToFp8E4m3 x).toNat = 126 := by
  refine ⟨correctlyRounded_of fun x hx => (f32ToF16Bits_rounds hx).1, fun x hx => ?_,
    correctlyRounded_of fun x hx => f32ToFp8E4m3_rounds hx, fun x hx hle => ?_⟩
  · obtain ⟨hround, hsign⟩ := f32ToF16Bits_rounds hx
    exact ⟨hsign, f16_infinite_iff hround⟩
  · have hround := f32ToFp8E4m3_rounds hx
    have hlast := (NearestEven.of_last e4m3.mag_strictMono le_rfl).mono e4m3.mag_strictMono hle hround.mag
    exact le_antisymm hround.mag.le_last hlast

end Memra.Nvfp4
