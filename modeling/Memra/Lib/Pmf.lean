import Mathlib.Algebra.BigOperators.Group.Finset.Basic
import Mathlib.Algebra.BigOperators.Field
import Mathlib.Algebra.BigOperators.Ring.Finset
import Mathlib.Algebra.Order.BigOperators.Group.Finset
import Mathlib.Algebra.Order.Ring.Rat
import Mathlib.Tactic.Linarith
import Mathlib.Tactic.FieldSimp
import Mathlib.Tactic.Ring

/-!
# Finite rational distributions

`Pmf` is a distribution on `ℕ` with finite support and rational masses, `Pmf.mean` its
expectation. `Pmf.point x` is the point mass; `posPart p q` the unnormalised positive part of
`p - q` and `Pmf.residual` its normalisation, the resampling distribution of speculative
rejection sampling (`default` is returned when there is nothing to normalise).
-/

namespace Lib

open Finset

/-- A distribution on `ℕ` whose support lies below `size`. -/
structure Pmf where
  size : ℕ
  prob : ℕ → ℚ
  nonneg : ∀ x, 0 ≤ prob x
  support : ∀ x, size ≤ x → prob x = 0
  total : ∑ x ∈ range size, prob x = 1

namespace Pmf

/-- The expectation of `f`. -/
def mean (d : Pmf) (f : ℕ → ℚ) : ℚ := ∑ x ∈ range d.size, d.prob x * f x

/-- All mass on `x`. -/
def point (x : ℕ) : Pmf where
  size := x + 1
  prob y := if y = x then 1 else 0
  nonneg y := by split <;> norm_num
  support y h := by rw [if_neg (by omega)]
  total := by simp

/-- A biased bit: `0` with mass `r`, else `1`. -/
def two (r : ℚ) (h₀ : 0 ≤ r) (h₁ : r ≤ 1) : Pmf where
  size := 2
  prob y := if y = 0 then r else if y = 1 then 1 - r else 0
  nonneg y := by
    split
    · exact h₀
    · split
      · linarith
      · exact le_rfl
  support y h := by rw [if_neg (by omega), if_neg (by omega)]
  total := by simp [sum_range_succ]

theorem mean_const (d : Pmf) (c : ℚ) : d.mean (fun _ => c) = c := by
  rw [mean, ← sum_mul, d.total, one_mul]

theorem mean_point (x : ℕ) (f : ℕ → ℚ) : (point x).mean f = f x := by
  simp [mean, point]

theorem mean_congr {d : Pmf} {f g : ℕ → ℚ} (h : ∀ x, d.prob x ≠ 0 → f x = g x) :
    d.mean f = d.mean g := by
  refine sum_congr rfl fun x _ => ?_
  by_cases hx : d.prob x = 0
  · rw [hx, zero_mul, zero_mul]
  · rw [h x hx]

theorem mean_add (d : Pmf) (f g : ℕ → ℚ) : d.mean (fun x => f x + g x) = d.mean f + d.mean g := by
  simp only [mean, mul_add, sum_add_distrib]

theorem prob_le_one (d : Pmf) (x : ℕ) : d.prob x ≤ 1 := by
  by_cases hx : x < d.size
  · rw [← d.total]
    exact single_le_sum (fun y _ => d.nonneg y) (mem_range.2 hx)
  · rw [d.support x (by omega)]
    norm_num

/-- A point of mass one carries everything. -/
theorem eq_of_prob_eq_one {d : Pmf} {a x : ℕ} (ha : d.prob a = 1) (hx : d.prob x ≠ 0) : x = a := by
  by_contra hne
  have hlt : ∀ y, d.prob y ≠ 0 → y ∈ range d.size := fun y hy =>
    mem_range.2 (not_le.1 fun h => hy (d.support y h))
  have hsub : ({a, x} : Finset ℕ) ⊆ range d.size := by
    intro y hy
    rcases mem_insert.1 hy with rfl | hy
    · exact hlt y (by rw [ha]; exact one_ne_zero)
    · rw [mem_singleton.1 hy]
      exact hlt x hx
  have hle := sum_le_sum_of_subset_of_nonneg hsub fun y _ _ => d.nonneg y
  rw [sum_pair (Ne.symm hne), d.total, ha] at hle
  exact hx (le_antisymm (by linarith) (d.nonneg x))

/-! ## Residuals -/

/-- The unnormalised positive part of `p - q`. -/
def posPart (p : Pmf) (q : ℕ → ℚ) (x : ℕ) : ℚ := max 0 (p.prob x - q x)

/-- The mass of the positive part. -/
def posMass (p : Pmf) (q : ℕ → ℚ) : ℚ := ∑ x ∈ range p.size, posPart p q x

theorem posPart_nonneg (p : Pmf) (q : ℕ → ℚ) (x : ℕ) : 0 ≤ posPart p q x := le_max_left _ _

theorem posPart_eq_zero {p : Pmf} {q : ℕ → ℚ} (hq : ∀ x, 0 ≤ q x) {x : ℕ} (hx : p.size ≤ x) :
    posPart p q x = 0 := by
  rw [posPart, p.support x hx]
  exact max_eq_left (by linarith [hq x])

/-- The normalised positive part of `p - q`, or all mass on `d` when it is empty. -/
def residual (p : Pmf) (q : ℕ → ℚ) (hq : ∀ x, 0 ≤ q x) (d : ℕ) : Pmf :=
  if h : posMass p q ≤ 0 then point d
  else
    { size := p.size
      prob := fun x => posPart p q x / posMass p q
      nonneg := fun x => div_nonneg (le_max_left _ _) (le_of_not_ge h)
      support := fun x hx => by
        rw [posPart_eq_zero hq hx, zero_div]
      total := by
        rw [← sum_div]
        exact div_self (ne_of_gt (not_le.1 h)) }

/-- The residual carries the positive part. -/
theorem posMass_mul_residual (p : Pmf) (q : ℕ → ℚ) (hq : ∀ x, 0 ≤ q x) (d x : ℕ) :
    posMass p q * (residual p q hq d).prob x = posPart p q x := by
  unfold residual
  split
  · rename_i h
    have hsum : posMass p q = 0 := le_antisymm h (sum_nonneg fun x _ => posPart_nonneg p q x)
    rw [hsum, zero_mul]
    by_cases hx : x < p.size
    · exact ((sum_eq_zero_iff_of_nonneg fun x _ => posPart_nonneg p q x).1 hsum x
        (mem_range.2 hx)).symm
    · exact (posPart_eq_zero hq (not_lt.1 hx)).symm
  · rename_i h
    exact mul_div_cancel₀ _ (ne_of_gt (not_le.1 h))

/-- The residual draws what `p` does, or its default. -/
theorem residual_support {p : Pmf} {q : ℕ → ℚ} {hq : ∀ x, 0 ≤ q x} {d x : ℕ}
    (hx : (residual p q hq d).prob x ≠ 0) : x = d ∨ p.prob x ≠ 0 := by
  unfold residual at hx
  split at hx
  · left
    by_contra hne
    exact hx (if_neg hne)
  · right
    intro h0
    refine hx ?_
    have : posPart p q x = 0 := by
      rw [posPart, h0]
      exact max_eq_left (by linarith [hq x])
    simp only [this, zero_div]

end Pmf

end Lib
