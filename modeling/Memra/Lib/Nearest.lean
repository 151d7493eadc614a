import Mathlib.Algebra.Order.AbsoluteValue.Basic
import Mathlib.Algebra.Order.Field.Basic
import Mathlib.Algebra.Ring.Parity
import Mathlib.Tactic.Linarith
import Mathlib.Tactic.Ring

/-!
# The nearest position of a rising sequence

`NearestEven v last x c`: among the positions up to `last`, the value at `c` is the nearest to `x`, and `c`
is even where another position is as near. In a strictly rising sequence there is at most one such
position, it rises with `x` (`NearestEven.mono`), and it is found from a position at or below `x` by one
comparison (`NearestEven.of_gap`) or at the end (`NearestEven.of_last`).
-/

namespace Lib

variable {S : Type} [Field S] [LinearOrder S] [IsStrictOrderedRing S]

structure NearestEven (v : ℕ → S) (last : ℕ) (x : S) (c : ℕ) : Prop where
  le_last : c ≤ last
  nearest : ∀ d, d ≤ last → |x - v c| ≤ |x - v d|
  even : ∀ d, d ≤ last → d ≠ c → |x - v d| = |x - v c| → Even c

variable {v : ℕ → S} {last : ℕ} {x y : S} {c d : ℕ}

/-- Between two positions the nearer one is decided by their middle. -/
theorem abs_sub_le_iff_mid {a b : S} (h : a < b) : |x - a| ≤ |x - b| ↔ 2 * x ≤ a + b := by
  rcases le_total x a with hxa | hxa
  · rw [abs_of_nonpos (by linarith), abs_of_nonpos (by linarith)]
    constructor <;> intro <;> linarith
  · rw [abs_of_nonneg (by linarith)]
    rcases le_total x b with hxb | hxb
    · rw [abs_of_nonpos (by linarith)]
      constructor <;> intro <;> linarith
    · rw [abs_of_nonneg (by linarith)]
      constructor <;> intro <;> linarith

theorem abs_sub_ge_iff_mid {a b : S} (h : a < b) : |x - b| ≤ |x - a| ↔ a + b ≤ 2 * x := by
  have := abs_sub_le_iff_mid (x := -x) (a := -b) (b := -a) (by linarith)
  rw [show -x - -b = -(x - b) by ring, show -x - -a = -(x - a) by ring, abs_neg, abs_neg] at this
  rw [this]
  constructor <;> intro <;> linarith

namespace NearestEven

/-- Of two nearest positions with nothing but the middle between them, both are even. -/
theorem mono (hv : StrictMono v) (hxy : x ≤ y) (hc : NearestEven v last x c)
    (hd : NearestEven v last y d) : c ≤ d := by
  by_contra hlt
  have hdc : v d < v c := hv (not_le.1 hlt)
  have h1 := (abs_sub_ge_iff_mid hdc).1 (hc.nearest d hd.le_last)
  have h2 := (abs_sub_le_iff_mid hdc).1 (hd.nearest c hc.le_last)
  obtain rfl : x = y := by linarith
  have htie : |x - v d| = |x - v c| :=
    le_antisymm (hd.nearest c hc.le_last) (hc.nearest d hd.le_last)
  have hce := hc.even d hd.le_last (by omega) htie
  have hde := hd.even c hc.le_last (by omega) htie.symm
  -- two even positions leave one between them, which is nearer to the middle
  have hne : d + 1 ≠ c := by
    rintro rfl
    exact Nat.not_even_iff_odd.2 hde.add_one hce
  have hnear := (abs_sub_ge_iff_mid (hv (show d + 1 < c by omega))).1
    (hc.nearest (d + 1) (by have := hc.le_last; omega))
  have hstep := hv (show d < d + 1 by omega)
  linarith

theorem unique (hv : StrictMono v) (hc : NearestEven v last x c) (hd : NearestEven v last x d) :
    c = d :=
  le_antisymm (hc.mono hv le_rfl hd) (hd.mono hv le_rfl hc)

/-- A value of the sequence is its own nearest. -/
theorem self (hv : StrictMono v) (hc : c ≤ last) : NearestEven v last (v c) c where
  le_last := hc
  nearest d _ := by rw [sub_self, abs_zero]; exact abs_nonneg _
  even d _ hne h := by
    rw [sub_self, abs_zero, abs_eq_zero, sub_eq_zero] at h
    exact absurd (hv.injective h).symm hne

/-- From the last position on. -/
theorem of_last (hv : StrictMono v) (h : v last ≤ x) : NearestEven v last x last where
  le_last := le_rfl
  nearest d hd := by
    rcases Nat.lt_or_eq_of_le hd with hlt | rfl
    · have := hv hlt
      exact (abs_sub_ge_iff_mid this).2 (by linarith)
    · exact le_rfl
  even d hd hne htie := by
    have := hv (lt_of_le_of_ne hd hne)
    have hle := (abs_sub_le_iff_mid this).1 htie.le
    linarith

/-- Between two neighbours, by the comparison with their middle. -/
theorem of_between (hv : StrictMono v) (lo : ℕ) (hlast : lo + 1 ≤ last) (hlo : v lo ≤ x)
    (hhi : x ≤ v (lo + 1))
    (hc : c = if 2 * x < v lo + v (lo + 1) ∨ 2 * x = v lo + v (lo + 1) ∧ Even lo then lo else lo + 1) :
    NearestEven v last x c := by
  have hgap := hv (show lo < lo + 1 by omega)
  split_ifs at hc with hcase
  · subst hc
    have hmid : 2 * x ≤ v c + v (c + 1) := by
      rcases hcase with h | h
      · exact h.le
      · exact h.1.le
    refine ⟨by omega, fun d _ => ?_, fun d _ hne htie => ?_⟩
    · rcases lt_trichotomy d c with hlt | rfl | hgt
      · have := hv hlt
        exact (abs_sub_ge_iff_mid this).2 (by linarith)
      · exact le_rfl
      · have := hv.monotone (show c + 1 ≤ d by omega)
        exact (abs_sub_le_iff_mid (hv hgt)).2 (by linarith)
    · rcases lt_or_gt_of_ne hne with hlt | hgt
      · have := hv hlt
        have := (abs_sub_le_iff_mid this).1 htie.le
        linarith
      · have := hv.monotone (show c + 1 ≤ d by omega)
        have := (abs_sub_ge_iff_mid (hv hgt)).1 htie.le
        rcases hcase with h | h
        · linarith
        · exact h.2
  · subst hc
    rw [not_or, not_lt, not_and] at hcase
    refine ⟨hlast, fun d _ => ?_, fun d _ hne htie => ?_⟩
    · rcases lt_trichotomy d (lo + 1) with hlt | rfl | hgt
      · have := hv.monotone (show d ≤ lo by omega)
        exact (abs_sub_ge_iff_mid (hv hlt)).2 (by linarith [hcase.1])
      · exact le_rfl
      · have := hv hgt
        exact (abs_sub_le_iff_mid this).2 (by linarith)
    · rcases lt_or_gt_of_ne hne with hlt | hgt
      · have hdl := hv.monotone (show d ≤ lo by omega)
        have := (abs_sub_le_iff_mid (hv hlt)).1 htie.le
        have hodd := hcase.2 (by linarith [hcase.1])
        exact (Nat.not_even_iff_odd.1 hodd).add_one
      · have := hv hgt
        have := (abs_sub_ge_iff_mid this).1 htie.le
        linarith

/-- `x` lies `r` of the `g` parts of a gap above the position `lo`. -/
theorem of_gap (hv : StrictMono v) (lo : ℕ) {r g : ℕ} {u : S} (hu : 0 < u) (hlast : lo + 1 ≤ last) (hr : r ≤ g)
    (hx : x = v lo + r * u) (hg : v (lo + 1) = v lo + g * u)
    (hc : c = if 2 * r < g ∨ 2 * r = g ∧ Even lo then lo else lo + 1) : NearestEven v last x c := by
  have hrg : (r : S) ≤ g := Nat.cast_le.2 hr
  have hpos : 0 ≤ (r : S) * u := mul_nonneg (Nat.cast_nonneg r) hu.le
  refine of_between hv lo hlast (by linarith) (by rw [hx, hg]; gcongr) ?_
  have hlt : 2 * x < v lo + v (lo + 1) ↔ 2 * r < g := by
    rw [hx, hg]
    constructor
    · intro h
      have h' : 2 * (r : S) * u < g * u := by linarith
      exact_mod_cast lt_of_mul_lt_mul_right h' hu.le
    · intro h
      have h' : 2 * (r : S) * u < g * u := mul_lt_mul_of_pos_right (by exact_mod_cast h) hu
      linarith
  have heq : 2 * x = v lo + v (lo + 1) ↔ 2 * r = g := by
    rw [hx, hg]
    constructor
    · intro h
      have h' : 2 * (r : S) * u = g * u := by linarith
      exact_mod_cast mul_right_cancel₀ hu.ne' h'
    · intro h
      have h' : 2 * (r : S) = g := by exact_mod_cast h
      rw [← h']
      ring
  rw [hc]
  simp only [hlt, heq]

end NearestEven

end Lib
