import Mathlib.Data.List.Basic

/-!
# Sweeps over a board of slots

A board is a list of slots next to a shared value. A slot is running (`exit = none`) or has ended
with a tag, and an ended slot is not touched again. `Board.sweep f pos order` comes to the slots that
`order` points at, one after another, and lets `f` change the shared value and the slot it is at, and end it.

`Board.Inv I J` is an invariant of the shared value and of each slot by its position; `Inv.visit`
carries it through one visit and `Inv.sweep` through a sweep. `Board.tags` collects what the tags of ended
slots stand for, and `tags_visit` says what a visit adds to it.
-/

namespace Lib

/-- A value and, once it has ended, the tag it ended with. -/
structure Berth (α ω : Type) where
  val : α
  exit : Option ω := none

/-- A shared value and the slots beside it. -/
structure Board (S α ω : Type) where
  shared : S
  slots : List (Berth α ω)

namespace Board

variable {S α ω ι β : Type}

/-- All slots running. -/
def start (shared : S) (vals : List α) : Board S α ω := { shared, slots := vals.map ({ val := · }) }

/-- The step at position `i`, unless there is no running slot. -/
def visit (f : S → α → S × α × Option ω) (b : Board S α ω) (i : ℕ) : Board S α ω :=
  match b.slots[i]? with
  | some ⟨a, none⟩ =>
    let (s, a, exit) := f b.shared a
    { shared := s, slots := b.slots.set i { val := a, exit } }
  | _ => b

/-- The steps that `order` asks for, one after another. -/
def sweep (f : ι → S → α → S × α × Option ω) (pos : ι → ℕ) (order : List ι) (b : Board S α ω) :
    Board S α ω :=
  order.foldl (fun b x => b.visit (f x) (pos x)) b

/-- The value of the running slot at a position. -/
def running? (b : Board S α ω) (i : ℕ) : Option α :=
  match b.slots[i]? with
  | some ⟨a, none⟩ => some a
  | _ => none

/-- The positions of running slots that satisfy `p`, in order. -/
def running (p : α → Bool) (b : Board S α ω) : List ℕ :=
  (List.range b.slots.length).filter fun i => (b.running? i).any p

/-- `I` of the shared value and `J` of every slot. -/
structure Inv (I : S → Prop) (J : ℕ → α → Option ω → Prop) (b : Board S α ω) : Prop where
  shared : I b.shared
  slots : ∀ i x, b.slots[i]? = some x → J i x.val x.exit

section

variable {f : S → α → S × α × Option ω} {b : Board S α ω}

theorem running?_eq_some {i : ℕ} {a : α} : b.running? i = some a ↔ b.slots[i]? = some ⟨a, none⟩ := by
  unfold running?
  split
  · next a' h => simp [h]
  · next h =>
    constructor
    · intro h'
      cases h'
    · intro h'
      exact absurd h' (h a)

theorem visit_running {i : ℕ} {a : α} (h : b.slots[i]? = some ⟨a, none⟩) :
    b.visit f i = { shared := (f b.shared a).1,
                    slots := b.slots.set i ⟨(f b.shared a).2.1, (f b.shared a).2.2⟩ } := by
  simp only [visit, h]

theorem visit_idle {i : ℕ} (h : ∀ a, b.slots[i]? ≠ some ⟨a, none⟩) : b.visit f i = b := by
  unfold visit
  split
  · next a ha => exact absurd ha (h a)
  · rfl

@[simp] theorem visit_length (i : ℕ) : (b.visit f i).slots.length = b.slots.length := by
  by_cases h : ∃ a, b.slots[i]? = some ⟨a, none⟩
  · obtain ⟨a, ha⟩ := h
    simp [visit_running ha]
  · rw [visit_idle (not_exists.1 h)]

/-- A visit changes no slot but the one it comes to. -/
theorem visit_other {i j : ℕ} (hij : i ≠ j) : (b.visit f i).slots[j]? = b.slots[j]? := by
  by_cases h : ∃ a, b.slots[i]? = some ⟨a, none⟩
  · obtain ⟨a, ha⟩ := h
    rw [visit_running ha, List.getElem?_set_ne hij]
  · rw [visit_idle (not_exists.1 h)]

/-- A visit reaches what is shared through the agent it comes to, if it runs. -/
theorem visit_shared {i : ℕ} {P : S → Prop} (h : P b.shared)
    (hrun : ∀ a, b.slots[i]? = some ⟨a, none⟩ → P (f b.shared a).1) : P (b.visit f i).shared := by
  by_cases hi : ∃ a, b.slots[i]? = some ⟨a, none⟩
  · obtain ⟨a, ha⟩ := hi
    rw [visit_running ha]
    exact hrun a ha
  · rwa [visit_idle (not_exists.1 hi)]

end

section

variable {f : ι → S → α → S × α × Option ω} {pos : ι → ℕ} {b : Board S α ω}

@[simp] theorem sweep_nil : b.sweep f pos [] = b := rfl

@[simp] theorem sweep_cons (x : ι) (xs : List ι) :
    b.sweep f pos (x :: xs) = (b.visit (f x) (pos x)).sweep f pos xs := rfl

theorem sweep_append (xs ys : List ι) :
    b.sweep f pos (xs ++ ys) = (b.sweep f pos xs).sweep f pos ys := List.foldl_append ..

/-- What every visit keeps, a sweep keeps. -/
theorem sweep_induction {P : Board S α ω → Prop} {order : List ι} (h : P b)
    (step : ∀ b, P b → ∀ x ∈ order, P (b.visit (f x) (pos x))) : P (b.sweep f pos order) := by
  induction order generalizing b with
  | nil => exact h
  | cons x xs ih =>
    exact ih (step b h x (List.mem_cons_self ..)) fun b hb y hy =>
      step b hb y (List.mem_cons_of_mem _ hy)

/-- The same where every position is visited once: a slot is then as it was before the sweep. -/
theorem sweep_induction_once {P : Board S α ω → Prop} {order : List ι} {G : ι → α → Prop}
    (hnodup : (order.map pos).Nodup) (h : P b)
    (hG : ∀ x ∈ order, ∀ a, b.slots[pos x]? = some ⟨a, none⟩ → G x a)
    (step : ∀ b, P b → ∀ x ∈ order, (∀ a, b.slots[pos x]? = some ⟨a, none⟩ → G x a) →
      P (b.visit (f x) (pos x))) : P (b.sweep f pos order) := by
  induction order generalizing b with
  | nil => exact h
  | cons x xs ih =>
    obtain ⟨hx, hxs⟩ := List.nodup_cons.1 hnodup
    refine ih hxs (step b h x (List.mem_cons_self ..) (hG x (List.mem_cons_self ..)))
      (fun y hy a ha => ?_) fun b hb y hy => step b hb y (List.mem_cons_of_mem _ hy)
    have hne : pos x ≠ pos y := fun hxy => hx (hxy ▸ List.mem_map_of_mem hy)
    rw [visit_other hne] at ha
    exact hG y (List.mem_cons_of_mem _ hy) a ha

/-- The same where an invariant speaks of the visits still to come. -/
theorem sweep_induction_rest {P : List ι → Board S α ω → Prop} {order : List ι} (h : P order b)
    (step : ∀ b x xs, P (x :: xs) b → P xs (b.visit (f x) (pos x))) : P [] (b.sweep f pos order) := by
  induction order generalizing b with
  | nil => exact h
  | cons x xs ih => exact ih (step b x xs h)

@[simp] theorem sweep_length (order : List ι) :
    (b.sweep f pos order).slots.length = b.slots.length :=
  sweep_induction (P := fun b' => b'.slots.length = b.slots.length) rfl fun b' hb x _ => by
    rw [visit_length, hb]

end

/-! ## Invariants -/

section

variable {I : S → Prop} {J : ℕ → α → Option ω → Prop} {b : Board S α ω}

theorem Inv.running {i : ℕ} {a : α} (h : b.Inv I J) (ha : b.slots[i]? = some ⟨a, none⟩) :
    J i a none := h.slots i _ ha

theorem Inv.visit {f : S → α → S × α × Option ω} (h : b.Inv I J) {i : ℕ}
    (hstep : ∀ a, b.slots[i]? = some ⟨a, none⟩ → I b.shared → J i a none →
      I (f b.shared a).1 ∧ J i (f b.shared a).2.1 (f b.shared a).2.2) :
    (b.visit f i).Inv I J := by
  by_cases hi : ∃ a, b.slots[i]? = some ⟨a, none⟩
  · obtain ⟨a, ha⟩ := hi
    obtain ⟨hs, hj⟩ := hstep a ha h.shared (h.running ha)
    rw [visit_running ha]
    refine ⟨hs, fun j x hx => ?_⟩
    by_cases hij : i = j
    · subst hij
      rw [List.getElem?_set_self (List.getElem?_eq_some_iff.1 ha).1] at hx
      obtain rfl := Option.some.inj hx
      exact hj
    · rw [List.getElem?_set_ne hij] at hx
      exact h.slots j x hx
  · rwa [visit_idle (not_exists.1 hi)]

/-- A sweep keeps what each of its steps keeps. -/
theorem Inv.sweep {f : ι → S → α → S × α × Option ω} {pos : ι → ℕ} {order : List ι} (h : b.Inv I J)
    (hstep : ∀ x ∈ order, ∀ s a, I s → J (pos x) a none →
      I (f x s a).1 ∧ J (pos x) (f x s a).2.1 (f x s a).2.2) :
    (b.sweep f pos order).Inv I J :=
  sweep_induction h fun b' hb x hx => hb.visit fun a _ => hstep x hx b'.shared a

theorem Inv.mono {I' : S → Prop} {J' : ℕ → α → Option ω → Prop} (h : b.Inv I J)
    (hI : ∀ s, I s → I' s) (hJ : ∀ i a e, J i a e → J' i a e) : b.Inv I' J' :=
  ⟨hI _ h.shared, fun i x hx => hJ _ _ _ (h.slots i x hx)⟩

theorem Inv.and {I' : S → Prop} {J' : ℕ → α → Option ω → Prop} (h : b.Inv I J) (h' : b.Inv I' J') :
    b.Inv (fun s => I s ∧ I' s) fun i a e => J i a e ∧ J' i a e :=
  ⟨⟨h.shared, h'.shared⟩, fun i x hx => ⟨h.slots i x hx, h'.slots i x hx⟩⟩

theorem start_inv {s : S} {vals : List α} (hs : I s)
    (hv : ∀ i a, vals[i]? = some a → J i a none) : (start (ω := ω) s vals).Inv I J := by
  refine ⟨hs, fun i x hx => ?_⟩
  rw [start, List.getElem?_map, Option.map_eq_some_iff] at hx
  obtain ⟨a, ha, rfl⟩ := hx
  exact hv i a ha

theorem mem_running {p : α → Bool} {i : ℕ} :
    i ∈ b.running p ↔ ∃ a, b.slots[i]? = some ⟨a, none⟩ ∧ p a := by
  simp only [Board.running, List.mem_filter, List.mem_range, Option.any_eq_true, running?_eq_some]
  constructor
  · intro h
    exact h.2
  · intro ⟨a, ha, hp⟩
    exact ⟨(List.getElem?_eq_some_iff.1 ha).1, a, ha, hp⟩

end

/-! ## Tags -/

/-- What `g` makes of the tags of the ended slots, in order. -/
def tags (g : ω → Option β) (b : Board S α ω) : List β := b.slots.filterMap fun x => x.exit.bind g

theorem filterMap_set_perm {γ : Type} (g : γ → Option β) {l : List γ} {i : ℕ} {x y : γ}
    (h : l[i]? = some x) (hx : g x = none) :
    ((l.set i y).filterMap g).Perm ((g y).toList ++ l.filterMap g) := by
  induction l generalizing i with
  | nil => simp at h
  | cons a l ih =>
    cases i with
    | zero =>
      obtain rfl : a = x := by simpa using h
      cases hy : g y <;> simp [hx, hy]
    | succ i =>
      have := ih (i := i) (by simpa using h)
      cases ha : g a with
      | none => simpa [ha] using this
      | some c =>
        rw [List.set_cons_succ, List.filterMap_cons_some ha, List.filterMap_cons_some ha]
        exact (this.cons c).trans List.perm_middle.symm

/-- A visit adds what the tag of its slot stands for. -/
theorem tags_visit {f : S → α → S × α × Option ω} (g : ω → Option β) {b : Board S α ω} {i : ℕ} {a : α}
    (h : b.slots[i]? = some ⟨a, none⟩) :
    ((b.visit f i).tags g).Perm (((f b.shared a).2.2.bind g).toList ++ b.tags g) := by
  rw [visit_running h]
  exact filterMap_set_perm (fun x => x.exit.bind g) h rfl

end Board

end Lib
