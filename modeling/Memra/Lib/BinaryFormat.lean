import Memra.Lib.Nearest
import Mathlib

/-!
# Binary floating-point formats

A code of a format has a sign bit above `bits` bits of magnitude, the low `man` of them mantissa. The
magnitudes rise with their codes (`mag_strictMono`), so a value is narrowed to a format by the nearest
magnitude and the sign (`RoundsTo`); such a code is the nearest of the signed values too, with ties to the
even code, and it rises with the value. `round` is the rounding of an arithmetic operation whose result is in
the range of the format.
-/

namespace Lib

/-- Half to even. -/
def rne (q : ℚ) : ℤ :=
  if Int.fract q < 1 / 2 ∨ Int.fract q = 1 / 2 ∧ Even ⌊q⌋ then ⌊q⌋ else ⌊q⌋ + 1

theorem rne_intCast (n : ℤ) : rne n = n := by simp [rne]

theorem le_rne {n : ℤ} {q : ℚ} (h : (n : ℚ) ≤ q) : n ≤ rne q := by
  have := Int.le_floor.2 h
  unfold rne
  split <;> omega

theorem rne_le {n : ℤ} {q : ℚ} (h : q ≤ n) : rne q ≤ n := by
  rcases h.lt_or_eq with hlt | rfl
  · have := Int.floor_lt.2 hlt
    unfold rne
    split <;> omega
  · rw [rne_intCast]

structure BinaryFormat where
  bits : ℕ
  man : ℕ
  bias : ℤ

namespace BinaryFormat

variable (F : BinaryFormat)

/-- The magnitude of a code in units of the smallest one. -/
def sig (c : ℕ) : ℕ :=
  if c / 2 ^ F.man = 0 then c % 2 ^ F.man
  else (2 ^ F.man + c % 2 ^ F.man) * 2 ^ (c / 2 ^ F.man - 1)

def quantum : ℚ := 2 ^ (1 - F.bias - F.man)

def mag (c : ℕ) : ℚ := F.sig c * F.quantum

def Negative (c : ℕ) : Prop := c / 2 ^ F.bits % 2 = 1

instance (c : ℕ) : Decidable (F.Negative c) := inferInstanceAs (Decidable (_ = _))

/-- The magnitude part of a code. -/
def code (c : ℕ) : ℕ := c % 2 ^ F.bits

def value (c : ℕ) : ℚ := if F.Negative c then -F.mag (F.code c) else F.mag (F.code c)

theorem quantum_pos : 0 < F.quantum := zpow_pos (by norm_num) _

/-! ## Magnitudes -/

theorem sig_of_lt {c : ℕ} (h : c < 2 ^ F.man) : F.sig c = c := by
  rw [sig, if_pos (Nat.div_eq_of_lt h), Nat.mod_eq_of_lt h]

theorem sig_normal {e q : ℕ} (he : 1 ≤ e) (hq : q < 2 ^ F.man) :
    F.sig (e * 2 ^ F.man + q) = (2 ^ F.man + q) * 2 ^ (e - 1) := by
  have hpos : 0 < 2 ^ F.man := by positivity
  have hdiv : (e * 2 ^ F.man + q) / 2 ^ F.man = e := by
    rw [Nat.add_comm, Nat.add_mul_div_right _ _ hpos, Nat.div_eq_of_lt hq, Nat.zero_add]
  have hmod : (e * 2 ^ F.man + q) % 2 ^ F.man = q := by
    rw [Nat.add_comm, Nat.add_mul_mod_self_right, Nat.mod_eq_of_lt hq]
  rw [sig, hdiv, hmod, if_neg (by omega)]

/-- The gap behind a code. -/
theorem sig_succ (c : ℕ) : F.sig (c + 1) = F.sig c + 2 ^ (c / 2 ^ F.man - 1) := by
  have hpos : 0 < 2 ^ F.man := by positivity
  obtain ⟨e, q, hq, rfl⟩ : ∃ e q, q < 2 ^ F.man ∧ c = e * 2 ^ F.man + q :=
    ⟨c / 2 ^ F.man, c % 2 ^ F.man, Nat.mod_lt _ hpos, (Nat.div_add_mod' c _).symm⟩
  have hdiv : (e * 2 ^ F.man + q) / 2 ^ F.man = e := by
    rw [Nat.add_comm, Nat.add_mul_div_right _ _ hpos, Nat.div_eq_of_lt hq, Nat.zero_add]
  rw [hdiv]
  rcases Nat.lt_or_eq_of_le (Nat.succ_le_of_lt hq) with hq' | hq'
  · -- the next code has the same exponent
    rcases Nat.eq_zero_or_pos e with rfl | he
    · rw [Nat.zero_mul, Nat.zero_add, F.sig_of_lt hq, F.sig_of_lt (by omega)]
      rfl
    · rw [Nat.add_assoc, F.sig_normal he hq', F.sig_normal he hq, Nat.succ_eq_add_one, ← Nat.add_assoc,
        Nat.add_mul, Nat.one_mul]
  · -- the mantissa carries into the exponent
    have hnext : e * 2 ^ F.man + q + 1 = (e + 1) * 2 ^ F.man + 0 := by
      rw [Nat.succ_mul]
      omega
    rw [hnext, F.sig_normal (by omega) hpos, Nat.add_sub_cancel]
    rcases Nat.eq_zero_or_pos e with rfl | he
    · rw [Nat.zero_mul, Nat.zero_add, F.sig_of_lt hq, Nat.zero_sub, pow_zero, Nat.mul_one]
      omega
    · obtain ⟨e, rfl⟩ := Nat.exists_eq_add_of_le' he
      rw [F.sig_normal he hq, Nat.add_sub_cancel, pow_succ]
      have : 2 ^ F.man = q + 1 := hq'.symm
      rw [this]
      ring

theorem sig_strictMono : StrictMono F.sig := by
  refine strictMono_nat_of_lt_succ fun c => ?_
  rw [F.sig_succ]
  exact Nat.lt_add_of_pos_right (by positivity)

theorem mag_strictMono : StrictMono F.mag := by
  intro c d h
  exact mul_lt_mul_of_pos_right (Nat.cast_lt.2 (F.sig_strictMono h)) F.quantum_pos

theorem mag_nonneg (c : ℕ) : 0 ≤ F.mag c := mul_nonneg (Nat.cast_nonneg _) F.quantum_pos.le

@[simp] theorem mag_zero : F.mag 0 = 0 := by
  rw [mag, F.sig_of_lt (by positivity), Nat.cast_zero, zero_mul]

theorem mag_succ (c : ℕ) : F.mag (c + 1) = F.mag c + (2 ^ (c / 2 ^ F.man - 1) : ℕ) * F.quantum := by
  rw [mag, mag, F.sig_succ, Nat.cast_add, add_mul]

theorem abs_value (c : ℕ) : |F.value c| = F.mag (F.code c) := by
  rw [value]
  split
  · rw [abs_neg, abs_of_nonneg (F.mag_nonneg _)]
  · rw [abs_of_nonneg (F.mag_nonneg _)]

theorem value_nonneg {c : ℕ} (h : ¬F.Negative c) : 0 ≤ F.value c := by
  rw [value, if_neg h]
  exact F.mag_nonneg _

theorem value_nonpos {c : ℕ} (h : F.Negative c) : F.value c ≤ 0 := by
  rw [value, if_pos h, neg_nonpos]
  exact F.mag_nonneg _

/-! ## Narrowing -/

/-- The code `c` has the nearest magnitude to that of `x`, up to `last`, and the sign of `x` unless it is a
zero. -/
structure RoundsTo (last : ℕ) (x : ℚ) (c : ℕ) : Prop where
  mag : NearestEven F.mag last |x| (F.code c)
  negative : x < 0 → F.code c ≠ 0 → F.Negative c
  positive : 0 < x → F.code c ≠ 0 → ¬F.Negative c

variable {F} {last c d : ℕ} {x y : ℚ}

namespace RoundsTo

theorem value_of_nonneg (h : F.RoundsTo last x c) (hx : 0 ≤ x) : F.value c = F.mag (F.code c) := by
  rcases eq_or_ne (F.code c) 0 with hc | hc
  · rw [value, hc, mag_zero, neg_zero, ite_self]
  · rcases hx.lt_or_eq with hpos | rfl
    · rw [value, if_neg (h.positive hpos hc)]
    · -- the nearest to zero is zero
      have := h.mag.nearest 0 (Nat.zero_le _)
      rw [abs_zero, mag_zero, sub_zero, abs_zero, zero_sub, abs_neg,
        abs_of_nonneg (F.mag_nonneg _)] at this
      have hlt := F.mag_strictMono (Nat.pos_of_ne_zero hc)
      rw [mag_zero] at hlt
      exact absurd this (not_le.2 hlt)

theorem value_of_neg (h : F.RoundsTo last x c) (hx : x < 0) : F.value c = -F.mag (F.code c) := by
  rcases eq_or_ne (F.code c) 0 with hc | hc
  · rw [value, hc, mag_zero, neg_zero, ite_self]
  · rw [value, if_pos (h.negative hx hc)]

/-- The distance of the values is that of the magnitudes. -/
theorem abs_sub (h : F.RoundsTo last x c) : |x - F.value c| = |(|x| - F.mag (F.code c))| := by
  rcases le_or_gt 0 x with hx | hx
  · rw [h.value_of_nonneg hx, abs_of_nonneg hx]
  · rw [h.value_of_neg hx, abs_of_neg hx, ← abs_neg (x - _)]
    congr 1
    ring

theorem nearest (h : F.RoundsTo last x c) (hd : F.code d ≤ last) :
    |x - F.value c| ≤ |x - F.value d| := by
  rw [h.abs_sub]
  refine (h.mag.nearest _ hd).trans ?_
  rw [← F.abs_value d]
  exact abs_abs_sub_abs_le x (F.value d)

theorem even (h : F.RoundsTo last x c) (hd : F.code d ≤ last) (hne : F.value d ≠ F.value c)
    (htie : |x - F.value d| = |x - F.value c|) : Even (F.code c) := by
  have hmag : |(|x| - F.mag (F.code d))| = |(|x| - F.mag (F.code c))| := by
    refine le_antisymm ?_ (h.mag.nearest _ hd)
    rw [← h.abs_sub, ← htie, ← F.abs_value d]
    exact abs_abs_sub_abs_le x (F.value d)
  by_cases hcode : F.code d = F.code c
  · -- the other value is the opposite one, which is as near only around zero
    rcases eq_or_ne (F.code c) 0 with h0 | h0
    · rw [h0]
      exact Even.zero
    exfalso
    have hpos := F.mag_strictMono (Nat.pos_of_ne_zero h0)
    rw [mag_zero] at hpos
    have hvd : F.value d = -F.value c := by
      have hd' := F.abs_value d
      rw [hcode, ← F.abs_value c] at hd'
      exact ((abs_eq_abs).1 hd').resolve_left hne
    rcases le_or_gt 0 x with hx | hx
    · have hvc := h.value_of_nonneg hx
      rw [hvd, hvc, sub_neg_eq_add, abs_of_nonneg (by linarith)] at htie
      rcases hx.lt_or_eq with hx | rfl
      · rcases abs_cases (x - F.mag (F.code c)) with h' | h' <;> linarith [h'.1, h'.2]
      · have := h.mag.nearest 0 (Nat.zero_le _)
        rw [abs_zero, mag_zero, sub_zero, abs_zero, zero_sub, abs_neg, abs_of_pos hpos] at this
        linarith
    · have hvc := h.value_of_neg hx
      rw [hvd, hvc, neg_neg, sub_neg_eq_add, abs_of_neg (by linarith)] at htie
      rcases abs_cases (x + F.mag (F.code c)) with h' | h' <;> linarith [h'.1, h'.2]
  · exact h.mag.even _ hd hcode hmag

/-- A larger value has a larger code. -/
theorem mono (hc : F.RoundsTo last x c) (hd : F.RoundsTo last y d) (hxy : x ≤ y) :
    F.value c ≤ F.value d := by
  rcases le_or_gt 0 x with hx | hx
  · rw [hc.value_of_nonneg hx, hd.value_of_nonneg (hx.trans hxy)]
    refine F.mag_strictMono.monotone (hc.mag.mono F.mag_strictMono ?_ hd.mag)
    rwa [abs_of_nonneg hx, abs_of_nonneg (hx.trans hxy)]
  · rw [hc.value_of_neg hx]
    rcases le_or_gt 0 y with hy | hy
    · rw [hd.value_of_nonneg hy]
      linarith [F.mag_nonneg (F.code c), F.mag_nonneg (F.code d)]
    · rw [hd.value_of_neg hy, neg_le_neg_iff]
      refine F.mag_strictMono.monotone (hd.mag.mono F.mag_strictMono ?_ hc.mag)
      rw [abs_of_neg hx, abs_of_neg hy]
      linarith

/-- A value of the format stays. -/
theorem exact (h : F.RoundsTo last (F.value d) c) (hd : F.code d ≤ last) :
    F.value c = F.value d ∧ F.code c = F.code d := by
  have hle := h.nearest hd
  rw [sub_self, abs_zero] at hle
  have heq : F.value d = F.value c := sub_eq_zero.1 (abs_nonpos_iff.1 hle)
  refine ⟨heq.symm, F.mag_strictMono.injective ?_⟩
  rw [← F.abs_value, ← F.abs_value, heq]

end RoundsTo

/-! ## Rounding of an operation -/

/-- The exponent of the unit in the last place. -/
def ulpExp (F : BinaryFormat) (q : ℚ) : ℤ := max (Int.log 2 q) (1 - F.bias) - F.man

/-- The rounding of a result that is not negative, half to even. -/
def round (F : BinaryFormat) (q : ℚ) : ℚ := rne (q / 2 ^ F.ulpExp q) * 2 ^ F.ulpExp q

section
variable {q : ℚ} {k : ℤ}

theorem two_zpow_pos (k : ℤ) : (0 : ℚ) < 2 ^ k := zpow_pos (by norm_num) k

/-- A power of two over a smaller one is a whole number. -/
theorem two_zpow_div {e : ℤ} (h : e ≤ k) : ∃ n : ℤ, (2 : ℚ) ^ k / 2 ^ e = n := by
  obtain ⟨n, hn⟩ := Int.eq_ofNat_of_zero_le (show 0 ≤ k - e by omega)
  refine ⟨2 ^ n, ?_⟩
  rw [← zpow_sub₀ (by norm_num), hn]
  push_cast
  rw [zpow_natCast]

theorem log_le_of_le (hq : 0 < q) (h : q ≤ 2 ^ k) : Int.log 2 q ≤ k := by
  have hlt : q < ((2 : ℕ) : ℚ) ^ (k + 1) := by
    push_cast
    refine h.trans_lt ?_
    exact zpow_lt_zpow_right₀ (by norm_num) (by omega)
  have := (Int.lt_zpow_iff_log_lt (by norm_num) hq).1 hlt
  omega

theorem le_log_of_le (h : 2 ^ k ≤ q) : k ≤ Int.log 2 q := by
  have hq : 0 < q := (two_zpow_pos k).trans_le h
  exact (Int.zpow_le_iff_le_log (by norm_num) hq).1 (by push_cast; exact h)

theorem zpow_log_le (hq : 0 < q) : (2 : ℚ) ^ Int.log 2 q ≤ q := by
  have := Int.zpow_log_le_self (b := 2) (by norm_num) hq
  exact_mod_cast this

/-- Below a power of two. -/
theorem round_le (hq : 0 < q) (hk : 1 - F.bias ≤ k) (h : q ≤ 2 ^ k) : F.round q ≤ 2 ^ k := by
  have hlog := log_le_of_le hq h
  have he : F.ulpExp q ≤ k := by
    rw [ulpExp]
    have := le_max_left (Int.log 2 q) (1 - F.bias)
    have := max_le hlog hk
    omega
  obtain ⟨n, hn⟩ := two_zpow_div he
  have hle : q / 2 ^ F.ulpExp q ≤ n := by
    rw [← hn]
    exact div_le_div_of_nonneg_right h (two_zpow_pos _).le
  calc F.round q = rne (q / 2 ^ F.ulpExp q) * 2 ^ F.ulpExp q := rfl
    _ ≤ n * 2 ^ F.ulpExp q := by
      have := rne_le hle
      have := two_zpow_pos (F.ulpExp q)
      gcongr
    _ = 2 ^ k := by rw [← hn, div_mul_cancel₀ _ (two_zpow_pos _).ne']

/-- Above a power of two. -/
theorem le_round (hk : 1 - F.bias ≤ k) (h : 2 ^ k ≤ q) : 2 ^ k ≤ F.round q := by
  have hq : 0 < q := (two_zpow_pos k).trans_le h
  have hlog := le_log_of_le h
  have he : F.ulpExp q ≤ Int.log 2 q := by
    rw [ulpExp, max_eq_left (by omega)]
    omega
  obtain ⟨n, hn⟩ := two_zpow_div he
  have hle : (n : ℚ) ≤ q / 2 ^ F.ulpExp q := by
    rw [← hn]
    exact div_le_div_of_nonneg_right (zpow_log_le hq) (two_zpow_pos _).le
  calc (2 : ℚ) ^ k ≤ 2 ^ Int.log 2 q := zpow_le_zpow_right₀ (by norm_num) hlog
    _ = n * 2 ^ F.ulpExp q := by rw [← hn, div_mul_cancel₀ _ (two_zpow_pos _).ne']
    _ ≤ rne (q / 2 ^ F.ulpExp q) * 2 ^ F.ulpExp q := by
      have := le_rne hle
      have := two_zpow_pos (F.ulpExp q)
      gcongr

/-- A result of at most `man` bits is exact. -/
theorem round_exact {n : ℤ} (hk : 1 - F.bias - F.man ≤ k) (hq : q = n * 2 ^ k) (hpos : 0 < q)
    (hlt : q < 2 ^ (k + F.man + 1)) : F.round q = q := by
  have hlog : Int.log 2 q < k + F.man + 1 :=
    (Int.lt_zpow_iff_log_lt (by norm_num) hpos).1 (by push_cast; exact hlt)
  have he : F.ulpExp q ≤ k := by
    rw [ulpExp]
    have := max_le (show Int.log 2 q ≤ k + F.man by omega) (show 1 - F.bias ≤ k + F.man by omega)
    omega
  obtain ⟨m, hm⟩ := two_zpow_div he
  have hdiv : q / 2 ^ F.ulpExp q = ((n * m : ℤ) : ℚ) := by
    push_cast
    rw [← hm, ← mul_div_assoc, ← hq]
  rw [round, hdiv, rne_intCast, ← hdiv, div_mul_cancel₀ _ (two_zpow_pos _).ne']

end

end BinaryFormat

end Lib
