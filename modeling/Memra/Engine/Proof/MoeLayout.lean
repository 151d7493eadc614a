import Memra.Engine.MoeDispatch
import Mathlib.Algebra.BigOperators.Group.Multiset.Basic
import Mathlib.Data.Multiset.Range

/-!
# Where the slots are

`Layout hand c`: the free lists, the segments, the pending map and the quarantine of the cache, with the
slots `hand` an operation has in hand, hold every slot exactly once, each class only its own, and the
link tags name the segments. `Layout.set` is the one argument for every change to one class; the
operations on free lists and segments are instances of it.
-/

namespace Memra

open Lib

/-- The slots of a class. -/
def SlotClass.slots (cl : SlotClass) : Multiset ℕ :=
  (cl.free : Multiset ℕ) + ↑cl.probation + ↑cl.guarded

theorem SlotClass.mem_slots {cl : SlotClass} {s : ℕ} :
    s ∈ cl.slots ↔ s ∈ cl.free ∨ s ∈ cl.probation ∨ s ∈ cl.guarded := by
  simp [SlotClass.slots]

theorem sum_map_set {M ι : Type} [AddCommMonoid M] (f : ι → M) {l : List ι} {k : ℕ} {a : ι}
    (h : l[k]? = some a) (b : ι) :
    ((l.set k b).map f).sum + f a = (l.map f).sum + f b := by
  induction l generalizing k with
  | nil => simp at h
  | cons x l ih =>
    cases k with
    | zero =>
      obtain rfl : x = a := by simpa using h
      simp only [List.set_cons_zero, List.map_cons, List.sum_cons]
      ac_rfl
    | succ k =>
      simp only [List.set_cons_succ, List.map_cons, List.sum_cons, add_assoc]
      rw [ih (by simpa using h)]

namespace MoeSlotCache

/-- The slots on free lists and in segments. -/
def classSlots (c : MoeSlotCache) : Multiset ℕ := (c.classes.map SlotClass.slots).sum

/-- The slots of all structures, each as often as it is in one. -/
def slots (c : MoeSlotCache) : Multiset ℕ :=
  c.classSlots + values c.pending + ↑c.quarantined

structure Layout (hand : Multiset ℕ) (c : MoeSlotCache) : Prop where
  slots : c.slots + hand = Multiset.range c.n
  home : ∀ k cl, c.classes[k]? = some cl → ∀ s ∈ cl.slots, c.slotClass s = k
  homes : ∀ s < c.n, ∃ cl, c.classes[c.slotClass s]? = some cl
  tags : ∀ s cl, c.classes[c.slotClass s]? = some cl →
    (c.seg s = .probation ↔ s ∈ cl.probation) ∧ (c.seg s = .guarded ↔ s ∈ cl.guarded)
  untagged : ∀ s, c.classes[c.slotClass s]? = none → c.seg s = .none

theorem class_le {c : MoeSlotCache} {k : ℕ} {cl : SlotClass} (hk : c.classes[k]? = some cl) :
    cl.slots ≤ c.classSlots := by
  have h := sum_map_set SlotClass.slots hk { cl with free := [], probation := [], guarded := [] }
  have h0 : SlotClass.slots { cl with free := [], probation := [], guarded := [] } = 0 := rfl
  rw [h0, add_zero] at h
  rw [classSlots, ← h]
  exact Multiset.le_add_left _ _

namespace Layout

variable {hand : Multiset ℕ} {c : MoeSlotCache}

theorem nodup (h : Layout hand c) :
    (c.classSlots + (values c.pending + ↑c.quarantined + hand)).Nodup := by
  have hs : c.classSlots + (values c.pending + ↑c.quarantined + hand) = Multiset.range c.n := by
    rw [← h.slots, MoeSlotCache.slots]
    ac_rfl
  rw [hs]
  exact Multiset.nodup_range _

theorem class_nodup (h : Layout hand c) {k : ℕ} {cl : SlotClass} (hk : c.classes[k]? = some cl) :
    cl.slots.Nodup :=
  Multiset.nodup_of_le (class_le hk) (Multiset.nodup_add.1 h.nodup).1

theorem hand_lt (h : Layout hand c) {s : ℕ} (hs : s ∈ hand) : s < c.n := by
  have : s ∈ c.slots + hand := Multiset.mem_add.2 (.inr hs)
  rwa [h.slots, Multiset.mem_range] at this

/-- A tagged slot is in a segment of its class. -/
theorem tagged (h : Layout hand c) {s : ℕ} (hs : c.seg s ≠ .none) :
    ∃ cl, c.classes[c.slotClass s]? = some cl ∧ (s ∈ cl.probation ∨ s ∈ cl.guarded) := by
  rcases hcl : c.classes[c.slotClass s]? with _ | cl
  · exact absurd (h.untagged s hcl) hs
  · refine ⟨cl, rfl, ?_⟩
    rcases ht : c.seg s with _ | _ | _
    · exact absurd ht hs
    · exact .inl ((h.tags s cl hcl).1.1 ht)
    · exact .inr ((h.tags s cl hcl).2.1 ht)

/-- A slot outside the classes has no tag. -/
theorem seg_outside (h : Layout hand c) {s : ℕ}
    (hs : s ∈ values c.pending + ↑c.quarantined + hand) : c.seg s = .none := by
  by_contra hne
  obtain ⟨cl, hcl, hmem⟩ := h.tagged hne
  have hin : s ∈ cl.slots := SlotClass.mem_slots.2 (.inr hmem)
  exact Multiset.disjoint_left.1 (Multiset.nodup_add.1 h.nodup).2.2
    (Multiset.mem_of_le (class_le hcl) hin) hs

theorem seg_hand (h : Layout hand c) {s : ℕ} (hs : s ∈ hand) : c.seg s = .none :=
  h.seg_outside (Multiset.mem_add.2 (.inr hs))

theorem seg_pending (h : Layout hand c) {id : BlockId} {s : ℕ}
    (hs : c.pending.lookup id = some s) : c.seg s = .none :=
  h.seg_outside
    (Multiset.mem_add.2 (.inl (Multiset.mem_add.2 (.inl (mem_values.2 ⟨id, hs⟩)))))

theorem hand_not_pending {s : ℕ} (h : Layout (s ::ₘ hand) c) (id : BlockId) :
    c.pending.lookup id ≠ some s := by
  intro hp
  have hd := (Multiset.nodup_add.1 (Multiset.nodup_add.1 h.nodup).2.1).2.2
  exact Multiset.disjoint_left.1 hd
    (Multiset.mem_add.2 (.inl (mem_values.2 ⟨id, hp⟩))) (Multiset.mem_cons_self s hand)

/-- **A change to one class**: it gives to the hand what it takes, keeps its own slots, and the new tags
name its new segments. -/
theorem set (h : Layout hand c) {k : ℕ} {cl cl' : SlotClass} {seg' : ℕ → SlruSeg}
    {hand' : Multiset ℕ} (hk : c.classes[k]? = some cl)
    (hs : cl'.slots + hand' = cl.slots + hand) (hh : ∀ s ∈ cl'.slots, c.slotClass s = k)
    (ht : ∀ s, c.slotClass s = k →
      (seg' s = .probation ↔ s ∈ cl'.probation) ∧ (seg' s = .guarded ↔ s ∈ cl'.guarded))
    (ho : ∀ s, c.slotClass s ≠ k → seg' s = c.seg s) :
    Layout hand' { c.setClass k cl' with seg := seg' } := by
  have hlt : k < c.classes.length := (List.getElem?_eq_some_iff.1 hk).1
  have hget : ∀ j, (c.classes.set k cl')[j]? = if j = k then some cl' else c.classes[j]? := by
    intro j
    by_cases hj : j = k
    · subst hj
      simp [hlt]
    · rw [List.getElem?_set_ne (Ne.symm hj), if_neg hj]
  refine ⟨?_, ?_, ?_, ?_, ?_⟩
  · have hsum : ((c.classes.set k cl').map SlotClass.slots).sum + cl.slots =
        (c.classes.map SlotClass.slots).sum + cl'.slots := sum_map_set SlotClass.slots hk cl'
    have hslots := h.slots
    simp only [MoeSlotCache.slots, classSlots, setClass] at hslots ⊢
    rw [← hslots]
    apply add_right_cancel (b := cl.slots)
    calc _ = (((c.classes.set k cl').map SlotClass.slots).sum + cl.slots) +
              (values c.pending + ↑c.quarantined + hand') := by ac_rfl
      _ = ((c.classes.map SlotClass.slots).sum + (values c.pending + ↑c.quarantined)) +
              (cl'.slots + hand') := by rw [hsum]; ac_rfl
      _ = _ := by rw [hs]; ac_rfl
  · intro j cj hj s hmem
    rw [show (c.setClass k cl').classes = c.classes.set k cl' from rfl, hget] at hj
    by_cases hjk : j = k
    · rw [if_pos hjk] at hj
      obtain rfl : cl' = cj := Option.some.inj hj
      exact (hh s hmem).trans hjk.symm
    · rw [if_neg hjk] at hj
      exact h.home j cj hj s hmem
  · intro s hsn
    show ∃ cl₀, (c.classes.set k cl')[c.slotClass s]? = some cl₀
    rw [hget]
    split
    · exact ⟨cl', rfl⟩
    · exact h.homes s hsn
  · intro s cs hcs
    change (c.classes.set k cl')[c.slotClass s]? = some cs at hcs
    rw [hget] at hcs
    by_cases hsk : c.slotClass s = k
    · rw [if_pos hsk] at hcs
      obtain rfl : cl' = cs := Option.some.inj hcs
      exact ht s hsk
    · rw [if_neg hsk] at hcs
      simp only [ho s hsk]
      exact h.tags s cs hcs
  · intro s hcs
    change (c.classes.set k cl')[c.slotClass s]? = none at hcs
    rw [hget] at hcs
    by_cases hsk : c.slotClass s = k
    · rw [if_pos hsk] at hcs
      exact absurd hcs (by simp)
    · rw [if_neg hsk] at hcs
      simp only [ho s hsk]
      exact h.untagged s hcs

/-! ## Free lists -/

/-- The top of a free list goes to the hand. -/
theorem pop (h : Layout hand c) {k slot : ℕ} {cl : SlotClass} (hk : c.classes[k]? = some cl)
    (hf : cl.free.getLast? = some slot) :
    Layout (slot ::ₘ hand) (c.setClass k { cl with free := cl.free.dropLast }) := by
  have hfree : cl.free.dropLast ++ [slot] = cl.free := List.dropLast_append_getLast? _ hf
  refine h.set hk ?_ ?_ ?_ (fun _ _ => rfl)
  · simp only [SlotClass.slots]
    rw [← hfree, ← Multiset.coe_add, List.dropLast_concat, ← Multiset.singleton_add,
      Multiset.coe_singleton]
    ac_rfl
  · intro s hs
    apply h.home k cl hk s
    rw [SlotClass.mem_slots] at hs ⊢
    rcases hs with hs | hs
    · exact .inl (List.dropLast_subset _ hs)
    · exact .inr hs
  · rintro s rfl
    exact h.tags s cl hk

/-- A slot of the hand goes back to the free list of its class. -/
theorem release {slot : ℕ} (h : Layout (slot ::ₘ hand) c) :
    Layout hand (c.releaseReservedSlot slot) := by
  obtain ⟨cl, hk⟩ := h.homes slot (h.hand_lt (Multiset.mem_cons_self _ _))
  rw [releaseReservedSlot, hk]
  refine h.set hk ?_ ?_ ?_ (fun _ _ => rfl)
  · simp only [SlotClass.slots]
    rw [← Multiset.coe_add, Multiset.coe_singleton, ← Multiset.singleton_add]
    ac_rfl
  · intro s hs
    rw [SlotClass.mem_slots, List.mem_append, List.mem_singleton] at hs
    rcases hs with (hs | rfl) | hs
    · exact h.home _ cl hk s (SlotClass.mem_slots.2 (.inl hs))
    · rfl
    · exact h.home _ cl hk s (SlotClass.mem_slots.2 (.inr hs))
  · intro s hs
    exact h.tags s cl (hs ▸ hk)

/-! ## Segments -/

/-- A slot of a segment goes to the hand. -/
theorem unlink (h : Layout hand c) {k slot : ℕ} {cl : SlotClass} (hk : c.classes[k]? = some cl)
    (hs : slot ∈ cl.probation ∨ slot ∈ cl.guarded) :
    Layout (slot ::ₘ hand) (c.unlinkFromSegment k slot) ∧
      (c.unlinkFromSegment k slot).seg = Function.update c.seg slot .none := by
  have hslot : c.slotClass slot = k := h.home k cl hk slot (SlotClass.mem_slots.2 (.inr hs))
  have hnd := h.class_nodup hk
  rw [SlotClass.slots, Multiset.nodup_add, Multiset.nodup_add] at hnd
  obtain ⟨⟨-, hP, -⟩, hG, hFG⟩ := hnd
  have hPG : ∀ s, s ∈ cl.probation → s ∉ cl.guarded := fun s hp hg =>
    Multiset.disjoint_left.1 hFG (Multiset.mem_add.2 (.inr hp)) hg
  have htags := h.tags slot cl (hslot ▸ hk)
  rcases hs with hs | hs
  · have hseg : c.seg slot = .probation := htags.1.2 hs
    have heq : c.unlinkFromSegment k slot =
        (c.setClass k { cl with probation := cl.probation.erase slot }).setSeg slot .none := by
      simp [unlinkFromSegment, hk, hseg]
    rw [heq]
    refine ⟨h.set hk ?_ ?_ ?_ ?_, rfl⟩
    · simp only [SlotClass.slots]
      rw [← Multiset.coe_erase, ← Multiset.singleton_add]
      nth_rewrite 2 [← Multiset.cons_erase (Multiset.mem_coe.2 hs)]
      rw [← Multiset.singleton_add]
      ac_rfl
    · intro s hs'
      apply h.home k cl hk s
      rw [SlotClass.mem_slots] at hs' ⊢
      exact hs'.imp_right (Or.imp_left List.mem_of_mem_erase)
    · intro s hsk
      by_cases hss : s = slot
      · subst hss
        have hgone : s ∉ cl.probation.erase s := List.Nodup.not_mem_erase hP
        simp [setClass, hgone, hPG s hs]
      · simp only [setClass, Function.update_of_ne hss, List.mem_erase_of_ne hss]
        exact h.tags s cl (hsk ▸ hk)
    · intro s hsk
      exact Function.update_of_ne (by rintro rfl; exact hsk hslot) _ _
  · have hseg : c.seg slot = .guarded := htags.2.2 hs
    have heq : c.unlinkFromSegment k slot =
        (c.setClass k { cl with guarded := cl.guarded.erase slot }).setSeg slot .none := by
      simp [unlinkFromSegment, hk, hseg]
    rw [heq]
    refine ⟨h.set hk ?_ ?_ ?_ ?_, rfl⟩
    · simp only [SlotClass.slots]
      rw [← Multiset.coe_erase, ← Multiset.singleton_add]
      nth_rewrite 2 [← Multiset.cons_erase (Multiset.mem_coe.2 hs)]
      rw [← Multiset.singleton_add]
      ac_rfl
    · intro s hs'
      apply h.home k cl hk s
      rw [SlotClass.mem_slots] at hs' ⊢
      exact hs'.imp_right (Or.imp_right List.mem_of_mem_erase)
    · intro s hsk
      by_cases hss : s = slot
      · subst hss
        have hgone : s ∉ cl.guarded.erase s := List.Nodup.not_mem_erase hG
        have hnp : s ∉ cl.probation := fun hp => hPG s hp hs
        simp [setClass, hgone, hnp]
      · simp only [setClass, Function.update_of_ne hss, List.mem_erase_of_ne hss]
        exact h.tags s cl (hsk ▸ hk)
    · intro s hsk
      exact Function.update_of_ne (by rintro rfl; exact hsk hslot) _ _

/-- A slot of the hand goes to the probation segment of its class. -/
theorem pushProbation {slot : ℕ} (h : Layout (slot ::ₘ hand) c) :
    Layout hand (c.pushProbation (c.slotClass slot) slot) ∧
      (c.pushProbation (c.slotClass slot) slot).seg = Function.update c.seg slot .probation := by
  obtain ⟨cl, hk⟩ := h.homes slot (h.hand_lt (Multiset.mem_cons_self _ _))
  have hseg := h.seg_hand (Multiset.mem_cons_self slot hand)
  have htags := h.tags slot cl hk
  have hng : slot ∉ cl.guarded := fun hg => by simp [htags.2.2 hg] at hseg
  rw [MoeSlotCache.pushProbation, hk]
  refine ⟨h.set hk ?_ ?_ ?_ ?_, rfl⟩
  · simp only [SlotClass.slots]
    rw [← Multiset.coe_add, Multiset.coe_singleton, ← Multiset.singleton_add]
    ac_rfl
  · intro s hs
    rw [SlotClass.mem_slots, List.mem_append, List.mem_singleton] at hs
    rcases hs with hs | (hs | rfl) | hs
    · exact h.home _ cl hk s (SlotClass.mem_slots.2 (.inl hs))
    · exact h.home _ cl hk s (SlotClass.mem_slots.2 (.inr (.inl hs)))
    · rfl
    · exact h.home _ cl hk s (SlotClass.mem_slots.2 (.inr (.inr hs)))
  · intro s hsk
    by_cases hss : s = slot
    · subst hss
      simp [setClass, hng]
    · simp only [setClass, Function.update_of_ne hss, List.mem_append, List.mem_singleton, hss,
        or_false]
      exact h.tags s cl (hsk ▸ hk)
  · intro s hsk
    exact Function.update_of_ne (by rintro rfl; exact hsk rfl) _ _

/-- The tags name the segments, for the slots of a class. -/
def Tagged (mine : ℕ → Prop) (seg : ℕ → SlruSeg) (probation guarded : List ℕ) : Prop :=
  ∀ s, mine s → (seg s = .probation ↔ s ∈ probation) ∧ (seg s = .guarded ↔ s ∈ guarded)

/-- The demotion loop moves slots between the segments and keeps the tags right. -/
theorem demote_spec (cap : ℕ) (mine : ℕ → Prop) :
    ∀ (guarded probation : List ℕ) (seg : ℕ → SlruSeg), (probation ++ guarded).Nodup →
      (∀ s ∈ guarded, mine s) → Tagged mine seg probation guarded →
      List.Perm ((demote cap probation guarded seg).1 ++ (demote cap probation guarded seg).2.1)
          (probation ++ guarded) ∧
        Tagged mine (demote cap probation guarded seg).2.2 (demote cap probation guarded seg).1
          (demote cap probation guarded seg).2.1 ∧
        (∀ s, s ∉ guarded → (demote cap probation guarded seg).2.2 s = seg s) ∧
        ∀ s, (demote cap probation guarded seg).2.2 s = .none ↔ seg s = .none
  | [], probation, seg, _, _, ht => ⟨.refl _, ht, fun _ _ => rfl, fun _ => Iff.rfl⟩
  | g :: rest, probation, seg, hnd, hm, ht => by
    unfold demote
    by_cases hcap : cap < (g :: rest).length
    · rw [if_pos hcap]
      have hperm : List.Perm (probation ++ [g] ++ rest) (probation ++ g :: rest) := by
        rw [List.append_assoc]
        rfl
      have hnd' : (probation ++ [g] ++ rest).Nodup := hperm.nodup_iff.2 hnd
      have hgrest : g ∉ rest := (List.nodup_cons.1 (List.nodup_append.1 hnd).2.1).1
      have hgseg : seg g = .guarded := (ht g (hm g List.mem_cons_self)).2.2 List.mem_cons_self
      have ht' : Tagged mine (Function.update seg g .probation) (probation ++ [g]) rest := by
        intro s hs
        by_cases hsg : s = g
        · subst hsg
          simp [hgrest]
        · simp only [Function.update_of_ne hsg, List.mem_append, List.mem_singleton, hsg, or_false]
          refine ⟨(ht s hs).1, (ht s hs).2.trans ?_⟩
          simp [hsg]
      obtain ⟨hp, htg, hout, hnone⟩ := demote_spec cap mine rest (probation ++ [g]) _ hnd'
        (fun s hs => hm s (List.mem_cons_of_mem _ hs)) ht'
      refine ⟨hp.trans hperm, htg, fun s hs => ?_, fun s => (hnone s).trans ?_⟩
      · rw [hout s (fun h => hs (List.mem_cons_of_mem _ h)),
          Function.update_of_ne (by rintro rfl; exact hs List.mem_cons_self)]
      · by_cases hsg : s = g
        · subst hsg
          simp [hgseg]
        · rw [Function.update_of_ne hsg]
    · rw [if_neg hcap]
      exact ⟨.refl _, ht, fun _ _ => rfl, fun _ => Iff.rfl⟩

/-- A slot of the hand goes to the back of the protected segment of its class. -/
theorem appendGuarded {slot : ℕ} (h : Layout (slot ::ₘ hand) c) {cl : SlotClass}
    (hk : c.classes[c.slotClass slot]? = some cl) :
    Layout hand ((c.setClass (c.slotClass slot)
      { cl with guarded := cl.guarded ++ [slot] }).setSeg slot .guarded) := by
  have hseg := h.seg_hand (Multiset.mem_cons_self slot hand)
  have htags := h.tags slot cl hk
  have hnp : slot ∉ cl.probation := fun hp => by simp [htags.1.2 hp] at hseg
  refine h.set hk ?_ ?_ ?_ ?_
  · simp only [SlotClass.slots]
    rw [← Multiset.coe_add, Multiset.coe_singleton, ← Multiset.singleton_add]
    ac_rfl
  · intro s hs
    rw [SlotClass.mem_slots, List.mem_append, List.mem_singleton] at hs
    rcases hs with hs | hs | hs | rfl
    · exact h.home _ cl hk s (SlotClass.mem_slots.2 (.inl hs))
    · exact h.home _ cl hk s (SlotClass.mem_slots.2 (.inr (.inl hs)))
    · exact h.home _ cl hk s (SlotClass.mem_slots.2 (.inr (.inr hs)))
    · rfl
  · intro s hsk
    by_cases hss : s = slot
    · subst hss
      simp [setClass, hnp]
    · simp only [setClass, Function.update_of_ne hss, List.mem_append, List.mem_singleton, hss,
        or_false]
      exact h.tags s cl (hsk ▸ hk)
  · intro s hsk
    exact Function.update_of_ne (by rintro rfl; exact hsk rfl) _ _

/-- The protected segment of a class demotes what is over its cap. -/
theorem demoted (h : Layout hand c) {k : ℕ} {cl : SlotClass} (hk : c.classes[k]? = some cl) :
    let d := demote cl.guardedCap cl.probation cl.guarded c.seg
    Layout hand { c.setClass k { cl with probation := d.1, guarded := d.2.1 } with seg := d.2.2 } ∧
      ∀ s, d.2.2 s = .none ↔ c.seg s = .none := by
  have hmine : ∀ s ∈ cl.guarded, c.slotClass s = k := fun s hs =>
    h.home _ cl hk s (SlotClass.mem_slots.2 (.inr (.inr hs)))
  have hnd : (cl.probation ++ cl.guarded).Nodup := by
    have hcl := h.class_nodup hk
    rw [SlotClass.slots, add_assoc, Multiset.nodup_add] at hcl
    simpa using hcl.2.1
  obtain ⟨hperm, htg, hout, hnone⟩ := demote_spec cl.guardedCap
    (fun s => c.slotClass s = k) cl.guarded cl.probation c.seg hnd hmine
    (fun s hs => h.tags s cl (hs ▸ hk))
  refine ⟨h.set hk ?_ ?_ htg ?_, hnone⟩
  · have hsum := Multiset.coe_eq_coe.2 hperm
    simp only [← Multiset.coe_add] at hsum
    simp only [SlotClass.slots]
    rw [add_assoc (↑cl.free : Multiset ℕ), hsum]
    ac_rfl
  · intro s hs
    apply h.home k cl hk s
    rw [SlotClass.mem_slots] at hs ⊢
    exact hs.imp_right fun hs => List.mem_append.1 (hperm.subset (List.mem_append.2 hs))
  · intro s hsk
    exact hout s fun hg => hsk (hmine s hg)

/-- A slot of the hand goes to the protected segment of its class. -/
theorem pushGuarded {slot : ℕ} (h : Layout (slot ::ₘ hand) c) :
    Layout hand (c.pushGuarded (c.slotClass slot) slot) ∧
      ∀ s, (c.pushGuarded (c.slotClass slot) slot).seg s = .none ↔ s ≠ slot ∧ c.seg s = .none := by
  obtain ⟨cl, hk⟩ := h.homes slot (h.hand_lt (Multiset.mem_cons_self _ _))
  have hlt : c.slotClass slot < c.classes.length := (List.getElem?_eq_some_iff.1 hk).1
  have hset : ((c.setClass (c.slotClass slot) { cl with guarded := cl.guarded ++ [slot] }).setSeg slot
      .guarded).classes[c.slotClass slot]? = some { cl with guarded := cl.guarded ++ [slot] } := by
    simp [setClass, setSeg, hlt]
  obtain ⟨hD, hnone⟩ := (h.appendGuarded hk).demoted hset
  rw [MoeSlotCache.pushGuarded, hk]
  constructor
  · simpa only [setClass, setSeg, List.set_set] using hD
  · intro s
    refine (hnone s).trans ?_
    by_cases hss : s = slot
    · subst hss
      simp [setSeg]
    · simp [setSeg, setClass, hss]

end Layout

/-! ## Hits -/

/-- Only free lists and segments differ. -/
def SameMaps (c c' : MoeSlotCache) : Prop := c' = { c with classes := c'.classes, seg := c'.seg }

theorem SameMaps.trans {c c' c'' : MoeSlotCache} (h : SameMaps c c') (h' : SameMaps c' c'') :
    SameMaps c c'' := by
  unfold SameMaps at h h' ⊢
  rw [h'] at *
  rw [h]

theorem sameMaps_unlink (c : MoeSlotCache) (k slot : ℕ) :
    SameMaps c (c.unlinkFromSegment k slot) := by
  unfold unlinkFromSegment
  split <;> rfl

theorem sameMaps_pushProbation (c : MoeSlotCache) (k slot : ℕ) :
    SameMaps c (c.pushProbation k slot) := by
  unfold pushProbation
  split <;> rfl

theorem sameMaps_pushGuarded (c : MoeSlotCache) (k slot : ℕ) : SameMaps c (c.pushGuarded k slot) := by
  unfold pushGuarded
  split <;> rfl

theorem sameMaps_release (c : MoeSlotCache) (slot : ℕ) :
    SameMaps c (c.releaseReservedSlot slot) := by
  unfold releaseReservedSlot
  split <;> rfl

theorem sameMaps_onHit (c : MoeSlotCache) (slot : ℕ) : SameMaps c (c.onHit slot) := by
  have hu := c.sameMaps_unlink (c.slotClass slot) slot
  unfold onHit onHitFull
  rcases c.classes[c.slotClass slot]? with _ | cl
  · rfl
  · simp only
    split
    · rfl
    · rcases c.seg slot with _ | _ | _ <;> simp only
      · exact c.sameMaps_pushGuarded _ _
      · exact hu.trans (sameMaps_pushGuarded _ _ _)
      · refine hu.trans ?_
        split <;> rfl

/-- A hit keeps the slot in a segment of its class. -/
theorem Layout.onHit {hand : Multiset ℕ} {c : MoeSlotCache} (h : Layout hand c) {slot : ℕ}
    (hs : c.seg slot ≠ .none) :
    Layout hand (c.onHit slot) ∧ ∀ s, (c.onHit slot).seg s = .none ↔ c.seg s = .none := by
  obtain ⟨cl, hk, hmem⟩ := h.tagged hs
  obtain ⟨hU, hUseg⟩ := h.unlink hk hmem
  have hUclass : (c.unlinkFromSegment (c.slotClass slot) slot).slotClass = c.slotClass := by
    rw [c.sameMaps_unlink (c.slotClass slot) slot]
  have hback : ∀ s, s ≠ slot ∧ Function.update c.seg slot .none s = .none ↔ c.seg s = .none := by
    intro s
    by_cases hss : s = slot
    · subst hss
      simp [hs]
    · simp [hss]
  simp only [MoeSlotCache.onHit, hk, onHitFull]
  by_cases hfree : cl.free = []
  · rw [if_neg (by simpa using hfree)]
    rcases hseg : c.seg slot with _ | _ | _
    · exact absurd hseg hs
    · have hP := hU.pushGuarded
      rw [hUclass, hUseg] at hP
      exact ⟨hP.1, fun s => (hP.2 s).trans (hback s)⟩
    · obtain ⟨cl', hk'⟩ := hU.homes slot (hU.hand_lt (Multiset.mem_cons_self _ _))
      have hA := hU.appendGuarded hk'
      rw [hUclass] at hk' hA
      simp only [hk']
      refine ⟨hA, fun s => ?_⟩
      simp only [setSeg, setClass, hUseg]
      by_cases hss : s = slot
      · subst hss
        simp [hs]
      · simp [hss]
  · rw [if_pos hfree]
    exact ⟨h, fun _ => Iff.rfl⟩

end MoeSlotCache

end Memra
