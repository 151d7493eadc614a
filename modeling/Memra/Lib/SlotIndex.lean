import Mathlib.Logic.Function.Basic

/-!
# An index over slots

`occ s` is what slot `s` holds. `IsIndex occ key idx` says that `idx` inverts `occ` through `key`:
every held element is found at its slot under its key, and every item of `idx` is one of these.
Clearing a slot, filling an empty one and moving an element keep an index when it gets the same
three edits (`IsIndex.clear`, `IsIndex.fill`, `IsIndex.move`); `SlotInj` is the part that needs no
index: no two occupied slots agree on `f`.
-/

namespace Lib

open Function

variable {S E K : Type}

/-- No two occupied slots agree on `f`. -/
def SlotInj (occ : S → Option E) (f : S → E → K) : Prop :=
  ∀ s s' e e', occ s = some e → occ s' = some e' → f s e = f s' e' → s = s'

/-- `idx` inverts `occ` through `key`. -/
structure IsIndex (occ : S → Option E) (key : E → K) (idx : K → Option S) : Prop where
  item : ∀ s e, occ s = some e → idx (key e) = some s
  entry : ∀ x s, idx x = some s → ∃ e, occ s = some e ∧ key e = x

variable {occ : S → Option E} {f : S → E → K} {key : E → K} {idx : K → Option S}

section SlotInj
variable [DecidableEq S]

theorem SlotInj.clear (h : SlotInj occ f) (s : S) : SlotInj (update occ s none) f := by
  have old : ∀ t e, update occ s none t = some e → occ t = some e := by
    intro t e ht
    by_cases hts : t = s
    · subst hts; simp at ht
    · rwa [update_of_ne hts] at ht
  intro t t' e e' ht ht' hf
  exact h t t' e e' (old t e ht) (old t' e' ht') hf

/-- Filling a slot, when no other occupied slot agrees with the new element. -/
theorem SlotInj.fill (h : SlotInj occ f) {s : S} {e : E}
    (hnew : ∀ t e', t ≠ s → occ t = some e' → f t e' ≠ f s e) :
    SlotInj (update occ s (some e)) f := by
  intro t t' a a' ht ht' hf
  by_cases hts : t = s <;> by_cases hts' : t' = s
  · rw [hts, hts']
  · subst hts
    rw [update_self] at ht
    rw [update_of_ne hts'] at ht'
    obtain rfl := Option.some.inj ht
    exact absurd hf.symm (hnew t' a' hts' ht')
  · subst hts'
    rw [update_self] at ht'
    rw [update_of_ne hts] at ht
    obtain rfl := Option.some.inj ht'
    exact absurd hf (hnew t a hts ht)
  · rw [update_of_ne hts] at ht
    rw [update_of_ne hts'] at ht'
    exact h t t' a a' ht ht' hf

/-- Moving an element to a free slot, when `f` sees it the same there. -/
theorem SlotInj.move (h : SlotInj occ f) {s t : S} {e : E} (hs : occ s = some e)
    (hf : f t e = f s e) : SlotInj (update (update occ s none) t (some e)) f := by
  refine (h.clear s).fill fun t' e' _ ht' heq => ?_
  have hne : t' ≠ s := by rintro rfl; simp at ht'
  rw [update_of_ne hne] at ht'
  exact hne (h t' s e' e ht' hs (heq.trans hf))

end SlotInj

namespace IsIndex

theorem inj (h : IsIndex occ key idx) : SlotInj occ fun _ e => key e := by
  intro s s' e e' hs hs' hk
  have hk : key e = key e' := hk
  have := h.item s e hs
  rw [hk, h.item s' e' hs'] at this
  exact (Option.some.inj this).symm

/-- The items are exactly the held elements, each under its key. -/
theorem iff_occ (h : IsIndex occ key idx) (x : K) (s : S) :
    idx x = some s ↔ ∃ e, occ s = some e ∧ key e = x :=
  ⟨h.entry x s, fun ⟨e, he, hk⟩ => hk ▸ h.item s e he⟩

variable [DecidableEq S] [DecidableEq K]

theorem clear (h : IsIndex occ key idx) {s : S} {e : E} (hs : occ s = some e) :
    IsIndex (update occ s none) key (update idx (key e) none) where
  item := by
    intro t a ht
    have hts : t ≠ s := by rintro rfl; simp at ht
    rw [update_of_ne hts] at ht
    have hk : key a ≠ key e := fun hk => hts (h.inj t s a e ht hs hk)
    rw [update_of_ne hk]
    exact h.item t a ht
  entry := by
    intro x t hx
    have hxe : x ≠ key e := by rintro rfl; simp at hx
    rw [update_of_ne hxe] at hx
    obtain ⟨a, ha, rfl⟩ := h.entry x t hx
    have hts : t ≠ s := by
      rintro rfl
      rw [hs] at ha
      exact hxe (by rw [Option.some.inj ha])
    exact ⟨a, by rwa [update_of_ne hts], rfl⟩

theorem fill (h : IsIndex occ key idx) {s : S} {e : E} (hs : occ s = none)
    (hk : idx (key e) = none) :
    IsIndex (update occ s (some e)) key (update idx (key e) (some s)) where
  item := by
    intro t a ht
    by_cases hts : t = s
    · subst hts
      rw [update_self] at ht
      rw [← Option.some.inj ht, update_self]
    · rw [update_of_ne hts] at ht
      have hne : key a ≠ key e := by
        intro hae
        have := h.item t a ht
        rw [hae, hk] at this
        exact Option.some_ne_none t this.symm
      rw [update_of_ne hne]
      exact h.item t a ht
  entry := by
    intro x t hx
    by_cases hxe : x = key e
    · subst hxe
      rw [update_self] at hx
      obtain rfl := Option.some.inj hx
      exact ⟨e, by simp, rfl⟩
    · rw [update_of_ne hxe] at hx
      obtain ⟨a, ha, rfl⟩ := h.entry x t hx
      have hts : t ≠ s := by
        rintro rfl
        rw [hs] at ha
        exact Option.some_ne_none a ha.symm
      exact ⟨a, by rwa [update_of_ne hts], rfl⟩

/-- Moving an element to a free slot re-points its one item. -/
theorem move (h : IsIndex occ key idx) {s t : S} {e : E} (hs : occ s = some e)
    (ht : occ t = none) :
    IsIndex (update (update occ s none) t (some e)) key (update idx (key e) (some t)) := by
  have hts : t ≠ s := by rintro rfl; rw [ht] at hs; exact Option.some_ne_none e hs.symm
  have hfree : update occ s none t = none := by rwa [update_of_ne hts]
  have := (h.clear hs).fill (e := e) hfree (by simp)
  rwa [update_idem] at this

/-- Replacing the element of a slot, when the new key is free or the old one. -/
theorem replace (h : IsIndex occ key idx) {s : S} {e e' : E} (hs : occ s = some e)
    (hk : update idx (key e) none (key e') = none) :
    IsIndex (update occ s (some e')) key
      (update (update idx (key e) none) (key e') (some s)) := by
  have := (h.clear hs).fill (e := e') (s := s) (by simp) hk
  rwa [update_idem] at this

end IsIndex

end Lib
