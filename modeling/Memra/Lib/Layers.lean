import Mathlib.Data.List.TakeWhile

/-!
# Stacks of layers

A question put to a stack of layers, the outermost first: a layer answers it, or cuts it off, or passes it
on, and what no layer answers goes to the base (`ask`). `above` are the layers outside of the first that
has an answer of its own; the question is answered by that one unless a layer above it cuts it off
(`ask_eq`).
-/

namespace Lib.Layers

variable {L β γ : Type}

/-- Asks layer by layer. -/
def ask (answer : L → Option β) (cuts : L → Bool) (cut : γ) (found : L → β → γ) (base : γ) : List L → γ
  | [] => base
  | l :: ls =>
    match answer l with
    | some v => found l v
    | none => if cuts l then cut else ask answer cuts cut found base ls

/-- The first layer that answers, with its answer. -/
def first (answer : L → Option β) : List L → Option (L × β)
  | [] => none
  | l :: ls =>
    match answer l with
    | some v => some (l, v)
    | none => first answer ls

/-- The layers outside of the first that answers, or all of them. -/
def above (answer : L → Option β) (ls : List L) : List L := ls.takeWhile fun l => (answer l).isNone

section
variable {answer : L → Option β} {cuts : L → Bool} {cut base : γ} {found : L → β → γ} {l : L}
  {ls : List L} {v : β}

theorem above_cons_of_none (h : answer l = none) : above answer (l :: ls) = l :: above answer ls := by
  unfold above
  rw [List.takeWhile_cons_of_pos (by rw [h]; rfl)]

theorem above_cons_of_some (h : answer l = some v) : above answer (l :: ls) = [] := by
  unfold above
  rw [List.takeWhile_cons_of_neg (by rw [h]; exact Bool.false_ne_true)]

theorem first_cons_of_none (h : answer l = none) : first answer (l :: ls) = first answer ls := by
  rw [first, h]

theorem first_cons_of_some (h : answer l = some v) : first answer (l :: ls) = some (l, v) := by
  rw [first, h]

theorem mem_of_first (h : first answer ls = some (l, v)) : l ∈ ls ∧ answer l = some v := by
  induction ls with
  | nil => cases h
  | cons l' ls ih =>
    cases ha : answer l' with
    | none =>
      rw [first_cons_of_none ha] at h
      exact ⟨List.mem_cons_of_mem _ (ih h).1, (ih h).2⟩
    | some w =>
      rw [first_cons_of_some ha] at h
      obtain ⟨rfl, rfl⟩ := Prod.mk.inj (Option.some.inj h)
      exact ⟨List.mem_cons_self, ha⟩

theorem first_eq_none : first answer ls = none ↔ ∀ l ∈ ls, answer l = none := by
  induction ls with
  | nil => simp [first]
  | cons l ls ih =>
    cases ha : answer l with
    | none => rw [first_cons_of_none ha, ih, List.forall_mem_cons, ha, eq_self, true_and]
    | some w => simp [first_cons_of_some ha, ha]

/-- A layer that cuts the question off counts only above the one that answers. -/
theorem ask_eq (answer : L → Option β) (cuts : L → Bool) (cut base : γ) (found : L → β → γ)
    (ls : List L) :
    ask answer cuts cut found base ls =
      if ∃ l ∈ above answer ls, cuts l = true then cut
      else (first answer ls).elim base fun e => found e.1 e.2 := by
  induction ls with
  | nil => simp [ask, above, first]
  | cons l ls ih =>
    unfold ask
    cases ha : answer l with
    | some v => simp [above_cons_of_some ha, first_cons_of_some ha]
    | none =>
      rw [above_cons_of_none ha, first_cons_of_none ha, ih]
      cases hc : cuts l <;> simp [hc]

end

end Lib.Layers
