import Memra.Engine.Proof.MoeLayout

/-!
# Slots and blocks agree

`Maps c`: what the table, the pending map, the occupants, the resident counts, the cached address rows
and the staged bytes say about each other. `Consistent hand c` is `Layout` and `Maps`. Each move of a
slot has one lemma: into the hand (`reserveSlot`, `reservePrefetchSlot`), back to its free list, into the
table (`publish`), into the pending map (`hold`), from there into the table, out of use (`quarantine`).
The operations of the cache are compositions of these.
-/

namespace Memra

open Lib

namespace MoeSlotCache

/-- Block `id` has slot `s`, resident or pending. -/
def Held (c : MoeSlotCache) (id : BlockId) (s : ℕ) : Prop :=
  c.table.lookup id = some s ∨ c.pending.lookup id = some s

/-- Block `id` has no slot. -/
def Absent (c : MoeSlotCache) (id : BlockId) : Prop :=
  c.table.lookup id = none ∧ c.pending.lookup id = none

structure Maps (c : MoeSlotCache) : Prop where
  resident : ∀ s, c.seg s ≠ .none ↔ ∃ id, c.table.lookup id = some s
  occupant : ∀ id s, c.Held id s → c.occupant s = some id
  apart : ∀ id, c.table.lookup id = none ∨ c.pending.lookup id = none
  perLayer : ∀ l, c.perLayer l = countKeys (fun id => id.layer = l) c.table
  rows : ∀ l row, c.devRows.lookup l = some row → ∃ n, c.addressRow l n = some row
  bytes : ∀ id s, c.Held id s → c.staged id = some (c.mem s)

structure Consistent (hand : Multiset ℕ) (c : MoeSlotCache) : Prop where
  layout : Layout hand c
  maps : Maps c

variable {hand : Multiset ℕ} {c c' : MoeSlotCache} {id : BlockId} {slot : ℕ}

/-- What the two structures do not read. -/
theorem Consistent.frame (h : Consistent hand c) (pread : Option PreadPool)
    (workerReads : AList (fun _ : BlockId => WorkerRead)) (prewarmTried : List ℕ) :
    Consistent hand { c with pread, workerReads, prewarmTried } :=
  ⟨⟨h.layout.slots, h.layout.home, h.layout.homes, h.layout.tags, h.layout.untagged⟩,
    ⟨h.maps.resident, h.maps.occupant, h.maps.apart, h.maps.perLayer, h.maps.rows, h.maps.bytes⟩⟩

/-- Free lists and segments may change under the maps. -/
theorem Maps.reshape (h : Maps c) (hm : SameMaps c c')
    (hseg : ∀ s, c'.seg s = .none ↔ c.seg s = .none) : Maps c' := by
  have hres : ∀ s, c'.seg s ≠ .none ↔ ∃ id, c.table.lookup id = some s := fun s =>
    (not_congr (hseg s)).trans (h.resident s)
  rw [hm]
  exact ⟨hres, h.occupant, h.apart, h.perLayer, h.rows, h.bytes⟩

/-- A hand slot is nobody's. -/
theorem Consistent.not_held (h : Consistent (slot ::ₘ hand) c) (id : BlockId) :
    ¬ c.Held id slot := by
  rintro (ht | hp)
  · exact (h.maps.resident slot).2 ⟨id, ht⟩ (h.layout.seg_hand (Multiset.mem_cons_self _ _))
  · exact h.layout.hand_not_pending id hp

/-- A hand slot may be given to any block. -/
theorem Consistent.occupant_other (h : Consistent (slot ::ₘ hand) c) (id id' : BlockId) (s : ℕ)
    (hs : c.Held id' s) : Function.update c.occupant slot (some id) s = some id' := by
  rw [Function.update_of_ne (by rintro rfl; exact h.not_held id' hs)]
  exact h.maps.occupant id' s hs

/-! ## Address rows -/

theorem allSome_eq_some {α : Type} {l : List (Option α)} {row : List α} :
    l.allSome = some row ↔ l = row.map some := by
  induction l generalizing row with
  | nil => cases row <;> simp [List.allSome]
  | cons x l ih =>
    have hcons : (x :: l).allSome = x.bind fun a => l.allSome.map (a :: ·) := by
      cases x <;> simp [List.allSome, List.mapM_cons, Option.map_eq_bind]
    rw [hcons]
    cases x with
    | none => cases row <;> simp
    | some a =>
      cases row with
      | nil => simp
      | cons b row =>
        simp only [Option.bind_some, Option.map_eq_some_iff, List.cons.injEq, List.map_cons,
          Option.some.injEq]
        constructor
        · rintro ⟨r, hr, rfl, rfl⟩
          exact ⟨rfl, ih.1 hr⟩
        · rintro ⟨rfl, hl⟩
          exact ⟨row, ih.2 hl, rfl, rfl⟩

/-- The blocks of a row, projection by projection. -/
def rowBlocks (layer n : ℕ) : List BlockId :=
  (List.range 3).flatMap fun proj => (List.range n).map fun ex => { layer, proj, ex }

theorem rowBlocks_layer {layer n : ℕ} (h : id ∈ rowBlocks layer n) : id.layer = layer := by
  obtain ⟨proj, -, h⟩ := List.mem_flatMap.1 h
  obtain ⟨ex, -, rfl⟩ := List.mem_map.1 h
  rfl

theorem addressRow_eq_some {layer n : ℕ} {row : List ℕ} :
    c.addressRow layer n = some row ↔
      (rowBlocks layer n).map (fun id => c.table.lookup id) = row.map some := by
  rw [addressRow, allSome_eq_some, rowBlocks, List.map_flatMap]
  simp only [List.map_map, Function.comp_def]

/-- A row stands while the slots of its resident blocks do. -/
theorem addressRow_mono {layer n : ℕ} {row : List ℕ} (h : c.addressRow layer n = some row)
    (hsub : ∀ id s, id.layer = layer → c.table.lookup id = some s → c'.table.lookup id = some s) :
    c'.addressRow layer n = some row := by
  rw [addressRow_eq_some] at h ⊢
  rw [← h]
  apply List.map_congr_left
  intro id hid
  have hsome : c.table.lookup id ∈ row.map some := h ▸ List.mem_map_of_mem hid
  obtain ⟨s, -, hs⟩ := List.mem_map.1 hsome
  rw [← hs]
  exact hsub id s (rowBlocks_layer hid) hs.symm

/-! ## Into the hand -/

/-- A slot of a segment is evicted. -/
theorem Consistent.evict (h : Consistent hand c) {k : ℕ} {cl : SlotClass}
    (hk : c.classes[k]? = some cl) (hs : slot ∈ cl.probation ∨ slot ∈ cl.guarded) :
    Consistent (slot ::ₘ hand) ((c.unlinkFromSegment k slot).removeOccupant slot) := by
  obtain ⟨hU, hUseg⟩ := h.layout.unlink hk hs
  have hsm := c.sameMaps_unlink k slot
  have hseg : c.seg slot ≠ .none := by
    have hslot := h.layout.home k cl hk slot (SlotClass.mem_slots.2 (.inr hs))
    have htags := h.layout.tags slot cl (hslot ▸ hk)
    rcases hs with hs | hs
    · rw [htags.1.2 hs]; decide
    · rw [htags.2.2 hs]; decide
  obtain ⟨old, hold⟩ := (h.maps.resident slot).1 hseg
  have hocc : c.occupant slot = some old := h.maps.occupant old slot (.inl hold)
  have holdp : c.pending.lookup old = none := (h.maps.apart old).resolve_left (by simp [hold])
  have hother : ∀ id s, c.table.lookup id = some s → (id ≠ old ↔ s ≠ slot) := by
    intro id s hid
    constructor
    · rintro hne rfl
      exact hne (Option.some.inj ((h.maps.occupant id s (.inl hid)).symm.trans hocc))
    · rintro hne rfl
      exact hne (Option.some.inj (hid.symm.trans hold))
  have heq : (c.unlinkFromSegment k slot).removeOccupant slot =
      { c.unlinkFromSegment k slot with
        occupant := Function.update c.occupant slot none
        table := c.table.erase old
        perLayer := Function.update c.perLayer old.layer (c.perLayer old.layer - 1)
        devRows := c.devRows.erase old.layer } := by
    rw [hsm] at *
    simp only [removeOccupant, hocc]
    rfl
  rw [heq]
  refine ⟨⟨hU.slots, hU.home, hU.homes, hU.tags, hU.untagged⟩, ?_⟩
  rw [hsm]
  refine ⟨fun s => ?_, ?_, fun id => ?_, fun l => ?_, fun l row hrow => ?_, ?_⟩
  · show (c.unlinkFromSegment k slot).seg s ≠ .none ↔ _
    simp only [hUseg, lookup_erase_eq_some]
    by_cases hss : s = slot
    · subst hss
      simp only [Function.update_self, ne_eq, not_true_eq_false, false_iff, not_exists, not_and]
      exact fun id hne hid => ((hother id s hid).1 hne) rfl
    · rw [Function.update_of_ne hss, h.maps.resident s]
      constructor
      · rintro ⟨id, hid⟩
        exact ⟨id, (hother id s hid).2 hss, hid⟩
      · rintro ⟨id, -, hid⟩
        exact ⟨id, hid⟩
  · rintro id s (ht | hp)
    · obtain ⟨hne, hid⟩ := (lookup_erase_eq_some _).1 ht
      show Function.update c.occupant slot none s = some id
      rw [Function.update_of_ne ((hother id s hid).1 hne)]
      exact h.maps.occupant id s (.inl hid)
    · have hss : s ≠ slot := by
        rintro rfl
        have := (h.maps.occupant id s (.inr hp)).symm.trans hocc
        rw [Option.some.inj this, holdp] at hp
        exact absurd hp (by simp)
      show Function.update c.occupant slot none s = some id
      rw [Function.update_of_ne hss]
      exact h.maps.occupant id s (.inr hp)
  · by_cases hid : id = old
    · subst hid
      exact .inr holdp
    · rcases h.maps.apart id with ht | hp
      · exact .inl ((AList.lookup_erase_ne hid).trans ht)
      · exact .inr hp
  · have hc := countKeys_erase (fun id : BlockId => decide (id.layer = l)) hold
    show Function.update c.perLayer old.layer (c.perLayer old.layer - 1) l =
      countKeys (fun id => decide (id.layer = l)) (c.table.erase old)
    by_cases hl : l = old.layer
    · subst hl
      rw [Function.update_self, h.maps.perLayer]
      simp only [decide_true, if_true] at hc
      omega
    · rw [Function.update_of_ne hl, h.maps.perLayer]
      simp only [decide_eq_true_eq, if_neg (Ne.symm hl)] at hc
      omega
  · obtain ⟨hne, hrow⟩ := (lookup_erase_eq_some _).1 hrow
    obtain ⟨n, hn⟩ := h.maps.rows l row hrow
    refine ⟨n, addressRow_mono hn fun id s hid ht => (lookup_erase_eq_some _).2 ⟨?_, ht⟩⟩
    rintro rfl
    exact hne hid.symm
  · rintro id s (ht | hp)
    · exact h.maps.bytes id s (.inl ((lookup_erase_eq_some _).1 ht).2)
    · exact h.maps.bytes id s (.inr hp)

/-- Slots taken into the hand, with what else may change. -/
structure Reserved (c c' : MoeSlotCache) : Prop where
  n : c'.n = c.n
  table : ∀ id, c.table.lookup id = none → c'.table.lookup id = none
  pending : c'.pending = c.pending
  pread : c'.pread = c.pread
  workerReads : c'.workerReads = c.workerReads
  copyH2d : c'.copyH2d = c.copyH2d

theorem reserved_evict (c : MoeSlotCache) (k slot : ℕ) :
    Reserved c ((c.unlinkFromSegment k slot).removeOccupant slot) := by
  have hsm := c.sameMaps_unlink k slot
  rw [hsm]
  unfold removeOccupant onBlockEvicted
  split
  · exact ⟨rfl, fun _ h => h, rfl, rfl, rfl, rfl⟩
  · refine ⟨rfl, fun id h => ?_, rfl, rfl, rfl, rfl⟩
    rename_i old _
    show (c.table.erase old).lookup id = none
    by_cases hid : id = old
    · subst hid
      exact AList.lookup_erase id c.table
    · exact (AList.lookup_erase_ne hid).trans h

theorem reserved_setClass (c : MoeSlotCache) (k : ℕ) (cl : SlotClass) : Reserved c (c.setClass k cl) :=
  ⟨rfl, fun _ h => h, rfl, rfl, rfl, rfl⟩

theorem frequencyVictim_mem {cl : SlotClass} {keep : List BlockId} {freq : Freq}
    (h : c.frequencyVictim cl keep freq = some slot) : slot ∈ cl.probation ∨ slot ∈ cl.guarded := by
  obtain ⟨⟨x, s⟩, hx, rfl⟩ := Option.map_eq_some_iff.1 h
  obtain ⟨⟨s', i⟩, hv, hbind⟩ := List.mem_filterMap.1 (List.argmin_mem hx)
  obtain ⟨old, -, hif⟩ := Option.bind_eq_some_iff.1 hbind
  split at hif
  · exact absurd hif (by simp)
  · obtain ⟨-, rfl⟩ := Prod.mk.inj (Option.some.inj hif)
    exact List.mem_append.1 (List.fst_mem_of_mem_zipIdx hv)

theorem victim_mem {cl : SlotClass} {freq : Freq} (h : c.victim cl freq = some slot) :
    slot ∈ cl.probation ∨ slot ∈ cl.guarded := by
  unfold victim at h
  split at h
  · exact frequencyVictim_mem h
  · exact List.mem_append.1 (List.mem_of_head? h)

theorem victimExcluding_mem {keep : List BlockId} {cl : SlotClass} {freq : Freq}
    (h : c.victimExcluding keep cl freq = some slot) : slot ∈ cl.probation ∨ slot ∈ cl.guarded := by
  unfold victimExcluding at h
  split at h
  · exact frequencyVictim_mem h
  · exact List.mem_append.1 (List.mem_of_find?_eq_some h)

theorem popFree_cases {required : ℕ} {classes : List SlotClass} {k : ℕ}
    (h : c.popFree required k classes = some (slot, c')) :
    ∃ j cl, classes[j]? = some cl ∧ cl.free.getLast? = some slot ∧
      c' = c.setClass (k + j) { cl with free := cl.free.dropLast } := by
  induction classes generalizing k with
  | nil => exact absurd h (by simp [popFree])
  | cons cl rest ih =>
    have hnext : c.popFree required (k + 1) rest = some (slot, c') →
        ∃ j cj, (cl :: rest)[j]? = some cj ∧ cj.free.getLast? = some slot ∧
          c' = c.setClass (k + j) { cj with free := cj.free.dropLast } := by
      intro hr
      obtain ⟨j, cj, hj, hf, rfl⟩ := ih hr
      exact ⟨j + 1, cj, by simpa using hj, hf, by rw [Nat.add_assoc, Nat.add_comm 1 j]⟩
    unfold popFree at h
    split at h
    · rcases hf : cl.free.getLast? with _ | s
      · rw [hf] at h
        exact hnext h
      · rw [hf] at h
        obtain ⟨rfl, rfl⟩ := Prod.mk.inj (Option.some.inj h)
        exact ⟨0, cl, rfl, hf, rfl⟩
    · exact hnext h

theorem evictFrom_cases {required : ℕ} {pick : SlotClass → Option ℕ} {classes : List SlotClass}
    {k : ℕ} (h : c.evictFrom required pick k classes = some (slot, c')) :
    ∃ j cl, classes[j]? = some cl ∧ pick cl = some slot ∧
      c' = (c.unlinkFromSegment (k + j) slot).removeOccupant slot := by
  induction classes generalizing k with
  | nil => exact absurd h (by simp [evictFrom])
  | cons cl rest ih =>
    have hnext : c.evictFrom required pick (k + 1) rest = some (slot, c') →
        ∃ j cj, (cl :: rest)[j]? = some cj ∧ pick cj = some slot ∧
          c' = (c.unlinkFromSegment (k + j) slot).removeOccupant slot := by
      intro hr
      obtain ⟨j, cj, hj, hf, rfl⟩ := ih hr
      exact ⟨j + 1, cj, by simpa using hj, hf, by rw [Nat.add_assoc, Nat.add_comm 1 j]⟩
    unfold evictFrom at h
    split at h
    · exact hnext h
    · rcases hf : pick cl with _ | s
      · rw [hf] at h
        exact hnext h
      · rw [hf] at h
        obtain ⟨rfl, rfl⟩ := Prod.mk.inj (Option.some.inj h)
        exact ⟨0, cl, rfl, hf, rfl⟩

theorem reserve_reserved {required : ℕ} {pick : SlotClass → Option ℕ}
    (hr : ((c.popFree required 0 c.classes).orElse fun _ =>
      c.evictFrom required pick 0 c.classes) = some (slot, c')) : Reserved c c' := by
  rcases hp : c.popFree required 0 c.classes with _ | ⟨s, d⟩
  · rw [hp] at hr
    obtain ⟨k, cl, -, -, rfl⟩ := evictFrom_cases hr
    exact c.reserved_evict _ slot
  · rw [hp] at hr
    obtain ⟨rfl, rfl⟩ := Prod.mk.inj (Option.some.inj hr)
    obtain ⟨k, cl, -, -, rfl⟩ := popFree_cases hp
    exact c.reserved_setClass _ _

/-- **Both reservations** take a free slot or evict one of a segment. -/
theorem Consistent.reserve (h : Consistent hand c) {required : ℕ} {pick : SlotClass → Option ℕ}
    (hpick : ∀ cl s, pick cl = some s → s ∈ cl.probation ∨ s ∈ cl.guarded)
    (hr : ((c.popFree required 0 c.classes).orElse fun _ =>
      c.evictFrom required pick 0 c.classes) = some (slot, c')) :
    Consistent (slot ::ₘ hand) c' := by
  rcases hp : c.popFree required 0 c.classes with _ | ⟨s, d⟩
  · rw [hp] at hr
    obtain ⟨k, cl, hk, hs, rfl⟩ := evictFrom_cases hr
    rw [Nat.zero_add]
    exact h.evict hk (hpick cl slot hs)
  · rw [hp] at hr
    obtain ⟨rfl, rfl⟩ := Prod.mk.inj (Option.some.inj hr)
    obtain ⟨k, cl, hk, hf, rfl⟩ := popFree_cases hp
    rw [Nat.zero_add]
    exact ⟨h.layout.pop hk hf, h.maps.reshape rfl fun _ => Iff.rfl⟩

theorem reserveSlot_reserved {required : ℕ} {freq : Freq}
    (hr : c.reserveSlot required freq = some (slot, c')) : Reserved c c' :=
  reserve_reserved hr

theorem reservePrefetchSlot_reserved {required : ℕ} {keep : List BlockId} {freq : Freq}
    (hr : c.reservePrefetchSlot required keep freq = some (slot, c')) : Reserved c c' :=
  reserve_reserved hr

theorem Consistent.reserveSlot (h : Consistent hand c) {required : ℕ} {freq : Freq}
    (hr : c.reserveSlot required freq = some (slot, c')) : Consistent (slot ::ₘ hand) c' :=
  h.reserve (fun _ _ => victim_mem) hr

theorem Consistent.reservePrefetchSlot (h : Consistent hand c) {required : ℕ}
    {keep : List BlockId} {freq : Freq}
    (hr : c.reservePrefetchSlot required keep freq = some (slot, c')) :
    Consistent (slot ::ₘ hand) c' :=
  h.reserve (fun _ _ => victimExcluding_mem) hr

/-! ## Out of the hand -/

theorem Consistent.release (h : Consistent (slot ::ₘ hand) c) :
    Consistent hand (c.releaseReservedSlot slot) := by
  refine ⟨h.layout.release, h.maps.reshape (c.sameMaps_release slot) fun s => ?_⟩
  unfold releaseReservedSlot
  split <;> exact Iff.rfl

theorem Consistent.spoil (h : Consistent (slot ::ₘ hand) c) (left : Bytes) :
    Consistent (slot ::ₘ hand) (c.spoil slot left) := by
  have hl := h.layout
  refine ⟨⟨hl.slots, hl.home, hl.homes, hl.tags, hl.untagged⟩,
    ⟨h.maps.resident, h.maps.occupant, h.maps.apart, h.maps.perLayer, h.maps.rows, ?_⟩⟩
  intro id s hs
  show c.staged id = some (Function.update c.mem slot left s)
  rw [Function.update_of_ne (by rintro rfl; exact h.not_held id hs)]
  exact h.maps.bytes id s hs

theorem Absent.not_held (h : c.Absent id) (s : ℕ) : ¬ c.Held id s := by
  rintro (ht | hp)
  · rw [h.1] at ht
    exact absurd ht (by simp)
  · rw [h.2] at hp
    exact absurd hp (by simp)

/-- Staging the bytes of a block without a slot into the hand. -/
theorem Consistent.stage (h : Consistent (slot ::ₘ hand) c) (ha : c.Absent id) (bytes : Bytes) :
    Consistent (slot ::ₘ hand) (c.stage id slot bytes) := by
  have hl := h.layout
  refine ⟨⟨hl.slots, hl.home, hl.homes, hl.tags, hl.untagged⟩,
    ⟨h.maps.resident, h.maps.occupant, h.maps.apart, h.maps.perLayer, h.maps.rows, ?_⟩⟩
  intro id' s hs
  have hs : c.Held id' s := hs
  have hslot : s ≠ slot := by rintro rfl; exact h.not_held id' hs
  have hid : id' ≠ id := by rintro rfl; exact ha.not_held s hs
  show Function.update c.staged id (some bytes) id' = some (Function.update c.mem slot bytes s)
  rw [Function.update_of_ne hid, Function.update_of_ne hslot]
  exact h.maps.bytes id' s hs

theorem Consistent.quarantine (h : Consistent (slot ::ₘ hand) c) :
    Consistent hand (c.quarantine slot) := by
  have hl := h.layout
  refine ⟨⟨?_, hl.home, hl.homes, hl.tags, hl.untagged⟩,
    ⟨h.maps.resident, h.maps.occupant, h.maps.apart, h.maps.perLayer, h.maps.rows, h.maps.bytes⟩⟩
  have hs := hl.slots
  simp only [slots, classSlots, MoeSlotCache.quarantine, ← Multiset.cons_coe,
    ← Multiset.singleton_add] at hs ⊢
  rw [← hs]
  ac_rfl

/-- A staged block goes to the pending map. -/
theorem Consistent.hold (h : Consistent (slot ::ₘ hand) c) (ha : c.Absent id)
    (hb : c.staged id = some (c.mem slot)) : Consistent hand (c.hold id slot) := by
  have hl := h.layout
  have hother := h.occupant_other id
  refine ⟨⟨?_, hl.home, hl.homes, hl.tags, hl.untagged⟩,
    ⟨h.maps.resident, ?_, ?_, h.maps.perLayer, h.maps.rows, ?_⟩⟩
  · have hs := hl.slots
    simp only [slots, classSlots, MoeSlotCache.hold, values_insert slot ha.2,
      ← Multiset.singleton_add] at hs ⊢
    rw [← hs]
    ac_rfl
  · intro id' s hs
    show Function.update c.occupant slot (some id) s = some id'
    rcases hs with ht | hp
    · exact hother id' s (.inl ht)
    · rcases (lookup_insert_eq_some _).1 hp with ⟨rfl, rfl⟩ | ⟨-, hp⟩
      · exact Function.update_self ..
      · exact hother id' s (.inr hp)
  · intro id'
    by_cases hid : id' = id
    · subst hid
      exact .inl ha.1
    · exact (h.maps.apart id').imp_right (AList.lookup_insert_ne hid).trans
  · rintro id' s (ht | hp)
    · exact h.maps.bytes id' s (.inl ht)
    · rcases (lookup_insert_eq_some _).1 hp with ⟨rfl, rfl⟩ | ⟨-, hp⟩
      · exact hb
      · exact h.maps.bytes id' s (.inr hp)

theorem publish_eq (c : MoeSlotCache) (id : BlockId) (slot : ℕ) :
    c.publish id slot =
      { c with
        occupant := Function.update c.occupant slot (some id)
        table := c.table.insert id slot
        perLayer := Function.update c.perLayer id.layer (c.perLayer id.layer + 1)
        classes := (c.pushProbation (c.slotClass slot) slot).classes
        seg := (c.pushProbation (c.slotClass slot) slot).seg } := by
  unfold publish MoeSlotCache.pushProbation
  dsimp only
  split <;> rfl

/-- A staged block goes to the table, at the back of the probation segment. -/
theorem Consistent.publish (h : Consistent (slot ::ₘ hand) c) (ha : c.Absent id)
    (hb : c.staged id = some (c.mem slot)) : Consistent hand (c.publish id slot) := by
  obtain ⟨hP, hPseg⟩ := h.layout.pushProbation
  rw [publish_eq]
  have hPn := c.sameMaps_pushProbation (c.slotClass slot) slot
  have hlay : Layout hand { c with
      classes := (c.pushProbation (c.slotClass slot) slot).classes
      seg := (c.pushProbation (c.slotClass slot) slot).seg } := by
    rw [← show _ = _ from hPn]
    exact hP
  refine ⟨⟨hlay.slots, hlay.home, hlay.homes, hlay.tags, hlay.untagged⟩, ?_⟩
  have hseg := h.layout.seg_hand (Multiset.mem_cons_self slot hand)
  refine ⟨fun s => ?_, fun id' s hs => ?_, fun id' => ?_, fun l => ?_, fun l row hrow => ?_,
    fun id' s hs => ?_⟩
  · simp only [hPseg, lookup_insert_eq_some]
    by_cases hss : s = slot
    · subst hss
      simp
    · rw [Function.update_of_ne hss, h.maps.resident s]
      constructor
      · rintro ⟨id', hid⟩
        refine ⟨id', .inr ⟨?_, hid⟩⟩
        rintro rfl
        exact ha.not_held s (.inl hid)
      · rintro ⟨id', ⟨-, rfl⟩ | ⟨-, hid⟩⟩
        · exact absurd rfl hss
        · exact ⟨id', hid⟩
  · show Function.update c.occupant slot (some id) s = some id'
    rcases hs with ht | hp
    · rcases (lookup_insert_eq_some _).1 ht with ⟨rfl, rfl⟩ | ⟨-, ht⟩
      · exact Function.update_self ..
      · exact h.occupant_other id id' s (.inl ht)
    · exact h.occupant_other id id' s (.inr hp)
  · by_cases hid : id' = id
    · subst hid
      exact .inr ha.2
    · exact (h.maps.apart id').imp_left (AList.lookup_insert_ne hid).trans
  · have hc := countKeys_insert (fun id : BlockId => decide (id.layer = l)) slot ha.1
    show Function.update c.perLayer id.layer (c.perLayer id.layer + 1) l =
      countKeys (fun id => decide (id.layer = l)) (c.table.insert id slot)
    by_cases hl : l = id.layer
    · subst hl
      rw [Function.update_self, h.maps.perLayer, hc]
      simp
    · rw [Function.update_of_ne hl, h.maps.perLayer, hc]
      simp [Ne.symm hl]
  · obtain ⟨n, hn⟩ := h.maps.rows l row hrow
    refine ⟨n, addressRow_mono hn fun id' s _ ht => (lookup_insert_eq_some _).2 (.inr ⟨?_, ht⟩)⟩
    rintro rfl
    exact ha.not_held s (.inl ht)
  · rcases hs with ht | hp
    · rcases (lookup_insert_eq_some _).1 ht with ⟨rfl, rfl⟩ | ⟨-, ht⟩
      · exact hb
      · exact h.maps.bytes id' s (.inl ht)
    · exact h.maps.bytes id' s (.inr hp)

/-- The copy of a pending block is waited for: it goes to the table. -/
theorem Consistent.settle (h : Consistent hand c) (hp : c.pending.lookup id = some slot) :
    Consistent hand ({ c with pending := c.pending.erase id }.publish id slot) := by
  have hl := h.layout
  have ht : c.table.lookup id = none := (h.maps.apart id).resolve_right (by simp [hp])
  have hsub : ∀ id' s, MoeSlotCache.Held { c with pending := c.pending.erase id } id' s →
      c.Held id' s := fun id' s hs => hs.imp_right fun hq => ((lookup_erase_eq_some _).1 hq).2
  have hc : Consistent (slot ::ₘ hand) { c with pending := c.pending.erase id } := by
    refine ⟨⟨?_, hl.home, hl.homes, hl.tags, hl.untagged⟩,
      ⟨h.maps.resident, fun id' s hs => h.maps.occupant id' s (hsub id' s hs), fun id' => ?_,
        h.maps.perLayer, h.maps.rows, fun id' s hs => h.maps.bytes id' s (hsub id' s hs)⟩⟩
    · have hs := hl.slots
      simp only [slots, classSlots, ← values_erase hp, ← Multiset.singleton_add] at hs ⊢
      rw [← hs]
      ac_rfl
    · by_cases hid : id' = id
      · subst hid
        exact .inl ht
      · exact (h.maps.apart id').imp_right (AList.lookup_erase_ne hid).trans
  exact hc.publish ⟨ht, AList.lookup_erase id c.pending⟩ (h.maps.bytes id slot (.inr hp))

theorem Consistent.onHit (h : Consistent hand c) (ht : c.table.lookup id = some slot) :
    Consistent hand (c.onHit slot) := by
  obtain ⟨hl, hseg⟩ := h.layout.onHit ((h.maps.resident slot).2 ⟨id, ht⟩)
  exact ⟨hl, h.maps.reshape (c.sameMaps_onHit slot) hseg⟩

end MoeSlotCache

end Memra
