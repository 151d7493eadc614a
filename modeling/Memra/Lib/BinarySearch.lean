import Mathlib.Data.List.Basic
import Mathlib.Order.Lattice

/-!
# Binary search in a sorted list

`binarySearch xs x` halves a window until one position is left and compares there: `ok k` is a position of
`x`, `error k` the position where `x` could be put. In a list without repeats both say how many elements are
at most `x` (`upperBound_spec`).
-/

namespace Lib

variable {α : Type} [LinearOrder α]

/-- The window `[base, base + size)` halved until it has one position. -/
def searchLoop (xs : List α) (x : α) : ℕ → ℕ → ℕ → ℕ
  | 0, base, _ => base
  | fuel + 1, base, size =>
    if 1 < size then
      let half := size / 2
      let mid := base + half
      searchLoop xs x fuel (if xs[mid]?.any (x < ·) then base else mid) (size - half)
    else base

def binarySearch (xs : List α) (x : α) : Except ℕ ℕ :=
  let base := searchLoop xs x xs.length 0 xs.length
  match xs[base]? with
  | none => .error 0
  | some y => if y = x then .ok base else if y < x then .error (base + 1) else .error base

/-- The position after `x`, or where `x` could be put. -/
def upperBound (xs : List α) (x : α) : ℕ :=
  match binarySearch xs x with
  | .ok k => k + 1
  | .error k => k

variable {xs : List α} {x : α}

/-- The part before position `s` is at most `x`, the part from there on is above. -/
structure Splits (xs : List α) (x : α) (s : ℕ) : Prop where
  le_length : s ≤ xs.length
  below : ∀ (j : ℕ) y, j < s → xs[j]? = some y → y ≤ x
  above : ∀ (j : ℕ) y, s ≤ j → xs[j]? = some y → x < y

theorem getElem?_lt_of_lt (hs : xs.Pairwise (· < ·)) {i j : ℕ} {y z : α} (hij : i < j)
    (hi : xs[i]? = some y) (hj : xs[j]? = some z) : y < z := by
  obtain ⟨hi', rfl⟩ := List.getElem?_eq_some_iff.1 hi
  obtain ⟨hj', rfl⟩ := List.getElem?_eq_some_iff.1 hj
  exact List.pairwise_iff_getElem.1 hs i j hi' hj' hij

/-- The window keeps the last element that is at most `x`, if there is one. -/
theorem searchLoop_spec (hs : xs.Pairwise (· < ·)) : ∀ (fuel base size : ℕ), size ≤ fuel → 0 < size →
    base + size ≤ xs.length → (∀ (j : ℕ) y, j < base → xs[j]? = some y → y < x) →
    (base = 0 ∨ ∀ y, xs[base]? = some y → y ≤ x) →
    (∀ (j : ℕ) y, base + size ≤ j → xs[j]? = some y → x < y) →
    let b := searchLoop xs x fuel base size
    b < xs.length ∧ (∀ (j : ℕ) y, j < b → xs[j]? = some y → y < x) ∧
      ∀ (j : ℕ) y, b < j → xs[j]? = some y → x < y := by
  intro fuel
  induction fuel with
  | zero =>
    intro base size hfuel hpos
    omega
  | succ fuel ih =>
    intro base size hfuel hpos hlen hlow hbase hhigh
    rw [searchLoop]
    by_cases hsize : 1 < size
    · simp only [hsize, if_true]
      have hmid : base + size / 2 < xs.length := by omega
      by_cases hcmp : xs[base + size / 2]?.any (x < ·)
      · rw [if_pos hcmp]
        refine ih base _ (by omega) (by omega) (by omega) hlow hbase fun j y hj hy => ?_
        -- what lies behind an element above `x` is above `x`
        rw [List.getElem?_eq_getElem hmid, Option.any_some, decide_eq_true_iff] at hcmp
        rcases Nat.lt_or_eq_of_le (show base + size / 2 ≤ j by omega) with hlt | rfl
        · exact lt_trans hcmp (getElem?_lt_of_lt hs hlt (List.getElem?_eq_getElem hmid) hy)
        · rw [List.getElem?_eq_getElem hmid] at hy
          rwa [Option.some.inj hy] at hcmp
      · rw [if_neg hcmp]
        rw [List.getElem?_eq_getElem hmid, Option.any_some, decide_eq_true_iff, not_lt] at hcmp
        refine ih _ _ (by omega) (by omega) (by omega) (fun j y hj hy => ?_) (.inr fun y hy => ?_)
          fun j y hj hy => hhigh j y (by omega) hy
        · exact lt_of_lt_of_le (getElem?_lt_of_lt hs hj hy (List.getElem?_eq_getElem hmid)) hcmp
        · rw [List.getElem?_eq_getElem hmid] at hy
          rwa [← Option.some.inj hy]
    · rw [if_neg hsize]
      exact ⟨by omega, hlow, fun j y hj hy => hhigh j y (by omega) hy⟩

/-- **The search counts the elements that are at most `x`.** -/
theorem upperBound_spec (hs : xs.Pairwise (· < ·)) : Splits xs x (upperBound xs x) := by
  rcases Nat.eq_zero_or_pos xs.length with hnil | hpos
  · obtain rfl := List.length_eq_zero_iff.1 hnil
    exact ⟨Nat.le_refl _, by simp, by simp⟩
  obtain ⟨hb, hlow, hhigh⟩ := searchLoop_spec (x := x) hs xs.length 0 xs.length (Nat.le_refl _) hpos
    (by omega) (by simp) (.inl rfl) (fun j y hj hy => by
      rw [List.getElem?_eq_none (by omega)] at hy
      cases hy)
  generalize hbase : searchLoop xs x xs.length 0 xs.length = b at hb hlow hhigh
  have hget := List.getElem?_eq_getElem hb
  have heq : upperBound xs x = if xs[b] ≤ x then b + 1 else b := by
    simp only [upperBound, binarySearch, hbase, hget]
    rcases lt_trichotomy xs[b] x with hlt | heq | hgt
    · simp [hlt, hlt.ne, hlt.le]
    · simp [heq]
    · simp [hgt.ne', not_lt.2 hgt.le, not_le.2 hgt]
  rw [heq]
  by_cases hle : xs[b] ≤ x
  · rw [if_pos hle]
    refine ⟨hb, fun j z hj hz => ?_, fun j z hj hz => hhigh j z (by omega) hz⟩
    rcases Nat.lt_succ_iff_lt_or_eq.1 hj with hj | rfl
    · exact le_of_lt (hlow j z hj hz)
    · rwa [← Option.some.inj (hget.symm.trans hz)]
  · rw [if_neg hle]
    refine ⟨by omega, fun j z hj hz => le_of_lt (hlow j z hj hz), fun j z hj hz => ?_⟩
    rcases Nat.lt_or_eq_of_le hj with hj | rfl
    · exact hhigh j z hj hz
    · rw [← Option.some.inj (hget.symm.trans hz)]
      exact not_le.1 hle

end Lib
