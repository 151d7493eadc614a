import Mathlib.Data.List.Basic

/-!
# Runs whose steps meet a condition

`Along step ok s as`: every step of the run `as` from `s` meets `ok` in the state it is taken in. An
invariant that such a step keeps holds at the end of the run (`Along.invariant`), and, since a run that
meets the condition does so at every point (`Along.of_append`), in every state on the way.
-/

namespace Lib

variable {σ α : Type}

def Along (step : σ → α → σ) (ok : σ → α → Prop) : σ → List α → Prop
  | _, [] => True
  | s, a :: as => ok s a ∧ Along step ok (step s a) as

namespace Along

variable {step : σ → α → σ} {ok : σ → α → Prop} {s : σ}

theorem of_forall (h : ∀ s a, ok s a) : ∀ (as : List α) (s : σ), Along step ok s as
  | [], _ => trivial
  | a :: as, s => ⟨h s a, of_forall h as (step s a)⟩

theorem of_append {as bs : List α} (h : Along step ok s (as ++ bs)) :
    Along step ok s as ∧ Along step ok (as.foldl step s) bs := by
  induction as generalizing s with
  | nil => exact ⟨trivial, h⟩
  | cons a as ih =>
    obtain ⟨hok, hrest⟩ := h
    exact ⟨⟨hok, (ih hrest).1⟩, (ih hrest).2⟩

/-- **The invariant rule.** -/
theorem invariant {Inv : σ → Prop} (hstep : ∀ s a, Inv s → ok s a → Inv (step s a)) {as : List α}
    (h : Along step ok s as) (h0 : Inv s) : Inv (as.foldl step s) := by
  induction as generalizing s with
  | nil => exact h0
  | cons a as ih => exact ih h.2 (hstep s a h0 h.1)

/-- Steps that meet the condition in a state of the invariant do what such steps do. -/
theorem imp_invariant {Inv : σ → Prop} {ok' : σ → α → Prop}
    (hstep : ∀ s a, Inv s → ok s a → Inv (step s a)) (hok : ∀ s a, Inv s → ok s a → ok' s a)
    {as : List α} (h : Along step ok s as) (h0 : Inv s) : Along step ok' s as := by
  induction as generalizing s with
  | nil => exact trivial
  | cons a as ih => exact ⟨hok s a h0 h.1, ih h.2 (hstep s a h0 h.1)⟩

end Along

end Lib
