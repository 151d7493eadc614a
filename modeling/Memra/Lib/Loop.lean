import Mathlib.Data.List.Basic

/-!
# Loops with an exit

A loop body is a function to `Flow`: go round again, or leave. `Loop.run` bounds the passes, and
`Loop.Reaches` are the states the loop comes to at its head: an invariant of these is proved pass by
pass (`Reaches.invariant`), and a bound that every pass lowers where it goes round again makes the loop
leave (`Loop.run_spec`).
-/

namespace Lib

/-- What a pass of a loop body leaves. -/
inductive Flow (σ : Type) where
  | again (s : σ)
  | leave (s : σ)
  deriving DecidableEq

/-- The state after the pass, either way. -/
def Flow.state {σ : Type} : Flow σ → σ
  | .again s => s
  | .leave s => s

namespace Loop

variable {σ : Type}

/-- At most `n` passes of `body`; `none` when the loop has not left by then. -/
def run (body : σ → Flow σ) : ℕ → σ → Option σ
  | 0, _ => none
  | n + 1, s =>
    match body s with
    | .again s => run body n s
    | .leave s => some s

/-- A loop started at `s` comes to its head in the last state. -/
inductive Reaches (body : σ → Flow σ) : σ → σ → Prop
  | refl (s : σ) : Reaches body s s
  | tail {s t u : σ} : Reaches body s t → body t = .again u → Reaches body s u

variable {body : σ → Flow σ}

theorem Reaches.head {s t u : σ} (h : body s = .again t) (hr : Reaches body t u) :
    Reaches body s u := by
  induction hr with
  | refl => exact .tail (.refl s) h
  | tail _ hb ih => exact .tail ih hb

/-- The invariant rule, at the heads. -/
theorem Reaches.invariant {s t : σ} (hr : Reaches body s t) (Inv : σ → Prop) (h0 : Inv s)
    (hstep : ∀ t u, Reaches body s t → Inv t → body t = .again u → Inv u) : Inv t := by
  induction hr with
  | refl => exact h0
  | tail hr hb ih => exact hstep _ _ hr ih hb

/-- A pass that leaves is the last. -/
theorem Reaches.run_eq {s t u r : σ} (hr : Reaches body s t) (hl : body t = .leave u) {n : ℕ}
    (h : run body n s = some r) : r = u := by
  have key : ∀ {s t : σ}, Reaches body s t → ∀ n, run body n s = some r →
      ∃ n, run body n t = some r := by
    intro s t hr
    induction hr with
    | refl => exact fun n h => ⟨n, h⟩
    | tail _ hb ih =>
      intro n h
      obtain ⟨m, hm⟩ := ih n h
      cases m with
      | zero => cases hm
      | succ m =>
        rw [run, hb] at hm
        exact ⟨m, hm⟩
  obtain ⟨m, hm⟩ := key hr n h
  cases m with
  | zero => cases hm
  | succ m =>
    rw [run, hl] at hm
    exact (Option.some.inj hm).symm

/-- **The loop rule.** -/
theorem run_spec {Post : σ → Prop} (bound : σ → ℕ) {s : σ}
    (hagain : ∀ t u, Reaches body s t → body t = .again u → bound u < bound t)
    (hleave : ∀ t u, Reaches body s t → body t = .leave u → Post u) {n : ℕ} (hn : bound s < n) :
    ∃ r, run body n s = some r ∧ Post r := by
  have key : ∀ (n : ℕ) (t : σ), Reaches body s t → bound t < n →
      ∃ r, run body n t = some r ∧ Post r := by
    intro n
    induction n with
    | zero =>
      intro t _ hlt
      omega
    | succ n ih =>
      intro t hr hlt
      rw [run]
      cases hb : body t with
      | again u =>
        have hlow := hagain t u hr hb
        exact ih u (hr.tail hb) (by omega)
      | leave u => exact ⟨u, rfl, hleave t u hr hb⟩
  exact key n s (.refl s) hn

end Loop

end Lib
