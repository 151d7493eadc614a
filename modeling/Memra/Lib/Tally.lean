import Mathlib.Algebra.BigOperators.Group.List.Basic
import Mathlib.Data.List.Induction
import Mathlib.Order.Lattice
import Mathlib.Tactic.Ring

/-!
# Counting into a sorted map

`tally xs` counts the elements of `xs` into a list of pairs in increasing order of the keys, the entries of
an ordered map whose counters start at zero. `tally_spec`: the keys are sorted and the counter of an element
is how often it comes. `sum_tally` turns a weighted sum over the counters into a sum over the elements.
-/

namespace Lib

variable {α β : Type} [LinearOrder α]

/-- The keys are in strictly increasing order. -/
def KeySorted (m : List (α × β)) : Prop := m.Pairwise (·.1 < ·.1)

/-- One more for `x`. -/
def bump (x : α) : List (α × ℕ) → List (α × ℕ)
  | [] => [(x, 1)]
  | (k, c) :: m =>
    if x < k then (x, 1) :: (k, c) :: m
    else if x = k then (k, c + 1) :: m
    else (k, c) :: bump x m

def tally (xs : List α) : List (α × ℕ) := xs.foldl (fun m x => bump x m) []

/-! ## Lookup in a sorted map -/

section
variable {m : List (α × β)} {k : α} {v : β}

theorem lookup_cons_of_ne {p : α × β} (h : k ≠ p.1) : (p :: m).lookup k = m.lookup k := by
  have hk : (k == p.1) = false := by simpa using h
  rw [List.lookup_cons, hk]

theorem lookup_eq_none_of_forall (h : ∀ p ∈ m, p.1 ≠ k) : m.lookup k = none := by
  induction m with
  | nil => rfl
  | cons p m ih =>
    rw [lookup_cons_of_ne (h p (by simp)).symm]
    exact ih fun q hq => h q (by simp [hq])

theorem KeySorted.lookup_eq (h : KeySorted m) (hp : (k, v) ∈ m) : m.lookup k = some v := by
  induction m with
  | nil => cases hp
  | cons p m ih =>
    obtain ⟨hlt, hm⟩ := List.pairwise_cons.1 h
    rcases List.mem_cons.1 hp with rfl | hp
    · simp
    · rw [lookup_cons_of_ne (hlt _ hp).ne']
      exact ih hm hp

theorem mem_of_lookup (h : m.lookup k = some v) : (k, v) ∈ m := by
  induction m with
  | nil => cases h
  | cons p m ih =>
    by_cases hk : k = p.1
    · subst hk
      rw [List.lookup_cons_self] at h
      obtain rfl := Option.some.inj h
      simp
    · rw [lookup_cons_of_ne hk] at h
      exact List.mem_cons_of_mem _ (ih h)

end

/-! ## The counters -/

variable {m : List (α × ℕ)} {x k : α}

theorem mem_bump_key {p : α × ℕ} (h : p ∈ bump x m) : p.1 = x ∨ ∃ q ∈ m, q.1 = p.1 := by
  induction m with
  | nil =>
    simp only [bump, List.mem_singleton] at h
    exact .inl (by rw [h])
  | cons q m ih =>
    obtain ⟨k, c⟩ := q
    simp only [bump] at h
    split at h
    · rcases List.mem_cons.1 h with rfl | h
      · exact .inl rfl
      · exact .inr ⟨p, h, rfl⟩
    · split at h
      · next hxk =>
        rcases List.mem_cons.1 h with rfl | h
        · exact .inl hxk.symm
        · exact .inr ⟨p, by simp [h], rfl⟩
      · rcases List.mem_cons.1 h with rfl | h
        · exact .inr ⟨_, by simp, rfl⟩
        · rcases ih h with h | ⟨q, hq, hqp⟩
          · exact .inl h
          · exact .inr ⟨q, by simp [hq], hqp⟩

theorem KeySorted.bump (h : KeySorted m) (x : α) : KeySorted (bump x m) := by
  induction m with
  | nil => simp [Lib.bump, KeySorted]
  | cons q m ih =>
    obtain ⟨k, c⟩ := q
    obtain ⟨hlt, hm⟩ := List.pairwise_cons.1 h
    simp only [Lib.bump]
    split
    · next hx =>
      refine List.pairwise_cons.2 ⟨fun p hp => ?_, h⟩
      rcases List.mem_cons.1 hp with rfl | hp
      · exact hx
      · exact lt_trans hx (hlt p hp)
    · next hx =>
      split
      · exact List.pairwise_cons.2 ⟨hlt, hm⟩
      · next hne =>
        refine List.pairwise_cons.2 ⟨fun p hp => ?_, ih hm⟩
        rcases mem_bump_key hp with hp | ⟨q, hq, hqp⟩
        · rw [hp]
          exact lt_of_le_of_ne (not_lt.1 hx) (Ne.symm hne)
        · rw [← hqp]
          exact hlt q hq

theorem lookup_bump (h : KeySorted m) (x k : α) :
    (bump x m).lookup k = if k = x then some ((m.lookup x).getD 0 + 1) else m.lookup k := by
  induction m with
  | nil =>
    by_cases hk : k = x
    · simp [bump, hk]
    · rw [if_neg hk]
      exact lookup_cons_of_ne hk
  | cons q m ih =>
    obtain ⟨y, c⟩ := q
    obtain ⟨hlt, hm⟩ := List.pairwise_cons.1 h
    simp only [bump]
    split
    · next hx =>
      have hnone : ((y, c) :: m).lookup x = none := lookup_eq_none_of_forall fun p hp => by
        rcases List.mem_cons.1 hp with rfl | hp
        · exact hx.ne'
        · exact (lt_trans hx (hlt p hp)).ne'
      rw [hnone]
      by_cases hk : k = x
      · simp [hk]
      · rw [if_neg hk]
        exact lookup_cons_of_ne hk
    · split
      · next hxy =>
        subst hxy
        by_cases hk : k = x
        · simp [hk]
        · rw [if_neg hk, lookup_cons_of_ne hk, lookup_cons_of_ne hk]
      · next hne =>
        by_cases hk : k = y
        · subst hk
          simp [Ne.symm hne]
        · rw [lookup_cons_of_ne hk, ih hm, lookup_cons_of_ne hne, lookup_cons_of_ne hk]

/-- **The map of the counters.** -/
theorem tally_spec (xs : List α) : KeySorted (tally xs) ∧
    ∀ x, (tally xs).lookup x = if x ∈ xs then some (xs.count x) else none := by
  induction xs using List.reverseRecOn with
  | nil => exact ⟨.nil, fun x => by simp [tally]⟩
  | append_singleton xs y ih =>
    obtain ⟨hs, hl⟩ := ih
    have hstep : tally (xs ++ [y]) = bump y (tally xs) := by simp [tally]
    rw [hstep]
    refine ⟨hs.bump y, fun x => ?_⟩
    rw [lookup_bump hs, hl x, hl y]
    by_cases hx : x = y
    · subst hx
      by_cases hm : x ∈ xs
      · simp [hm]
      · simp [hm, List.count_eq_zero_of_not_mem hm]
    · have : List.count x [y] = 0 := by simp [Ne.symm hx]
      simp [hx, List.count_append, this]

theorem mem_tally {xs : List α} {x : α} {c : ℕ} : (x, c) ∈ tally xs ↔ x ∈ xs ∧ c = xs.count x := by
  obtain ⟨hs, hl⟩ := tally_spec xs
  constructor
  · intro h
    have := hl x ▸ hs.lookup_eq h
    split at this
    · next hm => exact ⟨hm, (Option.some.inj this).symm⟩
    · cases this
  · rintro ⟨hm, rfl⟩
    exact mem_of_lookup (by rw [hl x, if_pos hm])

theorem sum_bump (f : α → ℕ) (x : α) (m : List (α × ℕ)) :
    ((bump x m).map fun p => f p.1 * p.2).sum = (m.map fun p => f p.1 * p.2).sum + f x := by
  induction m with
  | nil => simp [bump]
  | cons q m ih =>
    simp only [bump]
    split
    · simp [Nat.add_comm]
    · split
      · next hx =>
        subst hx
        simp only [List.map_cons, List.sum_cons, Nat.mul_add, Nat.mul_one]
        omega
      · simp only [List.map_cons, List.sum_cons, ih]
        omega

theorem sum_tally (f : α → ℕ) (xs : List α) :
    ((tally xs).map fun p => f p.1 * p.2).sum = (xs.map f).sum := by
  induction xs using List.reverseRecOn with
  | nil => rfl
  | append_singleton xs y ih =>
    have hstep : tally (xs ++ [y]) = bump y (tally xs) := by simp [tally]
    rw [hstep, sum_bump, ih]
    simp

end Lib
