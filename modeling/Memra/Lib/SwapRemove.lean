import Mathlib.Data.List.Perm.Basic

/-!
# `Vec::swap_remove`

`swapRemove l i` drops position `i` and moves the last element into the hole. Only one position
of the result differs from the original (`getElem?_swapRemove`), and the elements are those of
`l` less the one removed (`perm_swapRemove`).
-/

namespace Lib

open List

variable {α : Type}

/-- Remove position `i` by overwriting it with the last element. -/
def swapRemove (l : List α) (i : ℕ) : List α :=
  match l.getLast? with
  | none => l
  | some last => (l.set i last).dropLast

@[simp] theorem swapRemove_concat (l : List α) (x : α) (i : ℕ) :
    swapRemove (l ++ [x]) i = if i < l.length then l.set i x else l := by
  rcases Nat.lt_trichotomy i l.length with h | h | h
  · rw [if_pos h]; simp [swapRemove, List.set_append_left _ _ h]
  · subst h; simp [swapRemove]
  · have : l.length ≤ i := Nat.le_of_lt h
    rw [if_neg (by omega), swapRemove, List.getLast?_concat]
    simp [List.set_append_right _ _ this, List.set_eq_of_length_le, show 1 ≤ i - l.length by omega]

@[simp] theorem length_swapRemove (l : List α) (i : ℕ) :
    (swapRemove l i).length = l.length - 1 := by
  rcases List.eq_nil_or_concat l with rfl | ⟨l, x, rfl⟩
  · rfl
  · rw [List.concat_eq_append, swapRemove_concat]
    split <;> simp

/-- The last element moved to `i`, every other position below it as before. -/
theorem getElem?_swapRemove {l : List α} {i : ℕ} (hi : i < l.length) (j : ℕ) :
    (swapRemove l i)[j]? =
      if j + 1 < l.length then (if j = i then l[l.length - 1]? else l[j]?) else none := by
  rcases List.eq_nil_or_concat l with rfl | ⟨l, x, rfl⟩
  · simp at hi
  · rw [List.concat_eq_append] at hi ⊢
    simp only [List.length_append, List.length_singleton] at hi ⊢
    rw [swapRemove_concat]
    by_cases hj : j + 1 < l.length + 1
    · have hjl : j < l.length := by omega
      rw [if_pos hj]
      by_cases hji : j = i
      · subst hji
        simp [hjl]
      · have hij : i ≠ j := Ne.symm hji
        rw [if_neg hji, List.getElem?_append_left hjl]
        split <;> simp [hij]
    · rw [if_neg hj]
      have : l.length ≤ j := by omega
      split <;> simp [this]

/-- What `swapRemove` keeps is what was there, less the element removed. -/
theorem perm_swapRemove {l : List α} {i : ℕ} {x : α} (h : l[i]? = some x) :
    (x :: swapRemove l i).Perm l := by
  rcases List.eq_nil_or_concat l with rfl | ⟨l, y, rfl⟩
  · simp at h
  · rw [List.concat_eq_append] at h ⊢
    rw [swapRemove_concat]
    by_cases hi : i < l.length
    · rw [if_pos hi]
      rw [List.getElem?_append_left hi] at h
      obtain ⟨_, rfl⟩ := List.getElem?_eq_some_iff.1 h
      calc l[i] :: l.set i y
          _ ~ l[i] :: y :: l.eraseIdx i := (set_perm_cons_eraseIdx hi y).cons _
          _ ~ y :: l[i] :: l.eraseIdx i := Perm.swap _ _ _
          _ ~ y :: l := (getElem_cons_eraseIdx_perm hi).cons _
          _ ~ l ++ [y] := (perm_append_singleton y l).symm
    · rw [if_neg hi]
      have hi' : i = l.length := by
        obtain ⟨h', -⟩ := List.getElem?_eq_some_iff.1 h
        simp at h'; omega
      subst hi'
      simp at h
      subst h
      exact (List.perm_append_singleton _ l).symm

end Lib
