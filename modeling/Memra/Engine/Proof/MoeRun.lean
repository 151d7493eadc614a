import Memra.Engine.Proof.MoeResidency
import Memra.Lib.Runs

/-!
# Residency over runs

Every operation of the cache keeps `Consistent`, where it admits a block that has no slot
(`admit_consistent`, `prefetchBytes_consistent`). `Sound` adds where the owner is: the slot a promotion
has reserved, the block its read is for. `step_sound` is one step, `residency` every run.
-/

namespace Memra

open Lib
open PreadPool (SubmitEnv ReadEnv WaitResult)
open MoeSlotCache

namespace MoeSlotCache

variable {hand : Multiset ℕ} {c : MoeSlotCache} {id : BlockId}

/-! ## Operations -/

theorem Reserved.absent {c' : MoeSlotCache} (h : Reserved c c') (ha : c.Absent id) : c'.Absent id :=
  ⟨h.table id ha.1, h.pending ▸ ha.2⟩

theorem releaseReservedSlot_frame (c : MoeSlotCache) (slot : ℕ) :
    (c.releaseReservedSlot slot).table = c.table ∧ (c.releaseReservedSlot slot).pending = c.pending ∧
      (c.releaseReservedSlot slot).pread = c.pread ∧
      (c.releaseReservedSlot slot).workerReads = c.workerReads := by
  rw [c.sameMaps_release slot]
  exact ⟨rfl, rfl, rfl, rfl⟩

/-- What an admission leaves alone. -/
theorem admit_frame (c : MoeSlotCache) (id : BlockId) (bytes : Bytes) (env : DeviceEnv) :
    (c.admitBlock id bytes env).2.pending = c.pending ∧ (c.admitBlock id bytes env).2.pread = c.pread ∧
      (c.admitBlock id bytes env).2.workerReads = c.workerReads := by
  unfold admitBlock
  rcases hr : c.reserveSlot bytes.length env.freq with _ | ⟨slot, c'⟩
  · exact ⟨rfl, rfl, rfl⟩
  · have hres := reserveSlot_reserved hr
    rcases env.admitStage with _ | ⟨left, message⟩ | ⟨left, message⟩
    · simp only [publish_eq]
      exact ⟨hres.pending, hres.pread, hres.workerReads⟩
    · obtain ⟨-, hp, hpr, hw⟩ := (c'.spoil slot left).releaseReservedSlot_frame slot
      exact ⟨hp.trans hres.pending, hpr.trans hres.pread, hw.trans hres.workerReads⟩
    · exact ⟨hres.pending, hres.pread, hres.workerReads⟩

/-- **Admission** of a block that has no slot. -/
theorem admit_consistent (h : Consistent hand c) (ha : c.Absent id) (bytes : Bytes)
    (env : DeviceEnv) :
    Consistent hand (c.admitBlock id bytes env).2 ∧
      ∀ slot, (c.admitBlock id bytes env).1 = .ok slot →
        (c.admitBlock id bytes env).2.table.lookup id = some slot := by
  unfold admitBlock
  rcases hr : c.reserveSlot bytes.length env.freq with _ | ⟨slot, c'⟩
  · exact ⟨h, fun _ he => nomatch he⟩
  · have hc' := h.reserveSlot hr
    have ha' : c'.Absent id := (reserveSlot_reserved hr).absent ha
    rcases env.admitStage with _ | ⟨left, message⟩ | ⟨left, message⟩
    · refine ⟨(hc'.stage ha' bytes).publish ha' ?_, fun s hs => ?_⟩
      · simp [stage]
      · obtain rfl : slot = s := Except.ok.inj hs
        simp [publish_eq]
    · exact ⟨(hc'.spoil left).release, fun _ he => nomatch he⟩
    · exact ⟨(hc'.spoil left).quarantine, fun _ he => nomatch he⟩

/-- A prefetch of a block that has no slot. -/
theorem prefetchBytes_consistent (h : Consistent hand c) (ha : c.Absent id) (bytes : Bytes)
    (keep : List BlockId) (env : DeviceEnv) :
    Consistent hand (c.prefetchBytes id bytes keep env).2 := by
  unfold prefetchBytes
  rcases hr : c.reservePrefetchSlot bytes.length keep env.freq with _ | ⟨slot, c'⟩
  · exact h
  · have hc' := h.reservePrefetchSlot hr
    have ha' : c'.Absent id := (reservePrefetchSlot_reserved hr).absent ha
    rcases env.stage with _ | ⟨left, message⟩ | ⟨left, message⟩
    · exact (hc'.stage ha' bytes).hold ha' (by simp [stage])
    · exact (hc'.spoil left).release
    · exact (hc'.spoil left).quarantine

theorem forceAdmit_consistent (h : Consistent hand c) (hp : c.pending.lookup id = none)
    (bytes : Bytes) (env : DeviceEnv) :
    Consistent hand (c.forceAdmit id bytes env).2 ∧
      ∀ slot, (c.forceAdmit id bytes env).1 = .ok slot →
        (c.forceAdmit id bytes env).2.table.lookup id = some slot := by
  unfold forceAdmit
  rcases ht : c.table.lookup id with _ | s
  · exact admit_consistent h ⟨ht, hp⟩ bytes env
  · refine ⟨h, fun slot hs => ?_⟩
    rw [← Except.ok.inj hs]
    exact ht

theorem restageBlock_consistent (h : Consistent hand c) {source : Option ExpertSource}
    (hp : source.isSome → c.pending.lookup id = none) (env : DeviceEnv) :
    Consistent hand (c.restageBlock id source env).2 := by
  unfold restageBlock
  split
  · exact h
  · rename_i ht
    have ht : c.table.lookup id = none := by simpa using ht
    cases source with
    | none => exact h
    | some source =>
      have hc := (admit_consistent h ⟨ht, hp rfl⟩ (sourceBytes source) env).1
      rcases ha : c.admitBlock id (sourceBytes source) env with ⟨_ | _, c'⟩ <;>
        · rw [ha] at hc
          simp only [ha]
          exact hc

/-- The loop of `prewarm_layer` over blocks that are not pending. -/
theorem prewarmBlocks_consistent (sources : LayerSources) (envs : BlockId → DeviceEnv) :
    ∀ (ids : List BlockId) (c : MoeSlotCache), Consistent hand c →
      (∀ id ∈ ids, c.pending.lookup id = none) →
      Consistent hand (prewarmBlocks sources envs c ids).2
  | [], _, h, _ => h
  | id :: ids, c, h, hp => by
    unfold prewarmBlocks
    split
    · exact prewarmBlocks_consistent sources envs ids c h fun i hi =>
        hp i (List.mem_cons_of_mem _ hi)
    · rename_i ht
      have ht : c.table.lookup id = none := by simpa using ht
      have hc := (admit_consistent h ⟨ht, hp id List.mem_cons_self⟩ (sourceBytes (sources id))
        (envs id)).1
      have hf := (c.admit_frame id (sourceBytes (sources id)) (envs id)).1
      rcases ha : c.admitBlock id (sourceBytes (sources id)) (envs id) with ⟨e | s, c'⟩
      · rw [ha] at hc
        exact hc
      · rw [ha] at hc hf
        refine prewarmBlocks_consistent sources envs ids c' hc fun i hi => ?_
        rw [show c'.pending = c.pending from hf]
        exact hp i (List.mem_cons_of_mem _ hi)

theorem prewarmLayer_consistent (h : Consistent hand c) {layer nExpert : ℕ}
    {sources : LayerSources}
    (hp : c.prewarms layer nExpert sources →
      ∀ id ∈ layerBlocks layer nExpert, c.pending.lookup id = none)
    (envs : BlockId → DeviceEnv) :
    Consistent hand (c.prewarmLayer layer nExpert sources envs).2 := by
  have hf := h.frame c.pread c.workerReads (layer :: c.prewarmTried)
  unfold prewarmLayer
  dsimp only
  split
  · rename_i hgo
    exact prewarmBlocks_consistent sources envs _ _ hf (hp hgo)
  · exact hf

theorem layerDevRow_consistent (h : Consistent hand c) (layer nExpert : ℕ)
    (upload : Option String) : Consistent hand (c.layerDevRow layer nExpert upload).2 := by
  have hl := h.layout
  unfold layerDevRow
  split
  · exact h
  · rcases c.devRows.lookup layer with _ | row
    · rcases hrow : c.addressRow layer nExpert with _ | row
      · exact h
      · rcases upload with _ | e
        · refine ⟨⟨hl.slots, hl.home, hl.homes, hl.tags, hl.untagged⟩,
            ⟨h.maps.resident, h.maps.occupant, h.maps.apart, h.maps.perLayer, fun l r hr => ?_,
              h.maps.bytes⟩⟩
          rcases (lookup_insert_eq_some _).1 hr with ⟨rfl, rfl⟩ | ⟨-, hr⟩
          · exact ⟨nExpert, hrow⟩
          · exact h.maps.rows l r hr
        · exact h
    · exact h

/-! ## The empty cache -/

theorem classesOf_slots (plan : List (ℕ × ℕ)) (start : ℕ) :
    ((classesOf start plan).map SlotClass.slots).sum =
      (List.range' start (plan.map Prod.snd).sum : List ℕ) := by
  induction plan generalizing start with
  | nil => rfl
  | cons x plan ih =>
    obtain ⟨capacity, count⟩ := x
    have h0 : SlotClass.slots
        { capacity, free := (List.range' start count).reverse, guardedCap := guardedCapOf count } =
          (List.range' start count : List ℕ) := by
      simp [SlotClass.slots]
    simp only [classesOf, List.map_cons, List.sum_cons, h0, ih]
    rw [Multiset.coe_add, ← List.range'_append_1]

theorem classesOf_home (plan : List (ℕ × ℕ)) (start k : ℕ) (cl : SlotClass)
    (hk : (classesOf start plan)[k]? = some cl) :
    cl.probation = [] ∧ cl.guarded = [] ∧
      ∀ s ∈ cl.free, start ≤ s ∧ slotClassOf plan (s - start) = k := by
  induction plan generalizing start k with
  | nil => simp [classesOf] at hk
  | cons x plan ih =>
    obtain ⟨capacity, count⟩ := x
    cases k with
    | zero =>
      obtain rfl := Option.some.inj hk
      refine ⟨rfl, rfl, fun s hs => ?_⟩
      obtain ⟨i, hi, rfl⟩ := List.mem_range'.1 (List.mem_reverse.1 hs)
      refine ⟨by omega, ?_⟩
      rw [slotClassOf, if_pos (by omega)]
    | succ k =>
      obtain ⟨hp, hg, hf⟩ := ih (start + count) k (by simpa [classesOf] using hk)
      refine ⟨hp, hg, fun s hs => ?_⟩
      obtain ⟨hle, hcl⟩ := hf s hs
      refine ⟨by omega, ?_⟩
      rw [slotClassOf, if_neg (by omega), show s - start - count = s - (start + count) by omega, hcl]

theorem classesOf_homes (plan : List (ℕ × ℕ)) (start s : ℕ) (hs : s < (plan.map Prod.snd).sum) :
    ∃ cl, (classesOf start plan)[slotClassOf plan s]? = some cl := by
  induction plan generalizing start s with
  | nil => simp at hs
  | cons x plan ih =>
    obtain ⟨capacity, count⟩ := x
    simp only [List.map_cons, List.sum_cons] at hs
    by_cases hlt : s < count
    · rw [slotClassOf, if_pos hlt]
      exact ⟨_, rfl⟩
    · rw [slotClassOf, if_neg hlt]
      exact ih (start + count) (s - count) (by omega)

theorem new_consistent (plan : List (ℕ × ℕ)) (sizeAware frequencyEvict copyH2d : Bool)
    (pread : Option PreadPool) :
    Consistent 0 (new plan sizeAware frequencyEvict copyH2d pread) := by
  refine ⟨⟨?_, ?_, ?_, ?_, fun _ _ => rfl⟩, ⟨?_, ?_, fun _ => .inl rfl, fun _ => rfl, ?_, ?_⟩⟩
  · show ((classesOf 0 plan).map SlotClass.slots).sum + 0 + 0 + 0 = _
    rw [classesOf_slots]
    simp only [add_zero, ← List.range_eq_range']
    rfl
  · intro k cl hk s hs
    obtain ⟨hp, hg, hf⟩ := classesOf_home plan 0 k cl hk
    rw [SlotClass.mem_slots, hp, hg] at hs
    show slotClassOf plan s = k
    simpa using (hf s (by simpa using hs)).2
  · exact fun s hs => classesOf_homes plan 0 s hs
  · intro s cl hcl
    obtain ⟨hp, hg, -⟩ := classesOf_home plan 0 _ cl hcl
    simp [new, hp, hg]
  · intro s
    simp [new]
  · rintro id s (h | h) <;> exact nomatch h
  · intro l row h
    exact nomatch h
  · rintro id s (h | h) <;> exact nomatch h

end MoeSlotCache

/-! ## The owner -/

/-- The slot a promotion has reserved. -/
def Cont.hand : Cont → Multiset ℕ
  | promote _ _ slot _ _ _ => {slot}
  | _ => 0

/-- The block a read is for. -/
def Cont.block : Cont → Option BlockId
  | caller => none
  | dispatch id _ _ _ => some id
  | promote id _ _ _ _ _ => some id

def Ctl.cont : Ctl → Option Cont
  | idle => none
  | waiting _ k => some k
  | resumed _ k => some k

def Ctl.hand (ctl : Ctl) : Multiset ℕ := (ctl.cont.map Cont.hand).getD 0

namespace MoeSystem

structure Sound (s : MoeSystem) : Prop where
  consistent : Consistent s.ctl.hand s.cache
  /-- an owner at a read has a pool, a block without a slot, and has not answered -/
  reading : ∀ k, s.ctl.cont = some k →
    s.cache.pread.isSome ∧ s.answer = none ∧ ∀ id, k.block = some id → s.cache.Absent id
  answer : ∀ id slot, s.answer = some (.ok (id, slot)) → s.cache.table.lookup id = some slot

variable {s : MoeSystem} {id : BlockId}

theorem sound_idle {s : MoeSystem} (hi : s.ctl = .idle) (hc : Consistent 0 s.cache)
    (ha : s.answer = none) : Sound s := by
  refine ⟨hi ▸ hc, fun k hk => ?_, fun _ _ h => ?_⟩
  · rw [hi] at hk
    exact nomatch hk
  · rw [ha] at h
    exact nomatch h

theorem sound_answered {r : Except String ℕ × MoeSlotCache} (hc : Consistent 0 r.2)
    (hr : ∀ slot, r.1 = .ok slot → r.2.table.lookup id = some slot) : Sound (s.answered id r) := by
  refine ⟨hc, fun k hk => absurd hk (by simp [answered, Ctl.cont]), fun i slot h => ?_⟩
  obtain ⟨e | slot', c⟩ := r
  · exact nomatch h
  · obtain ⟨rfl, rfl⟩ := Prod.mk.inj (Except.ok.inj (Option.some.inj h))
    exact hr slot' rfl

theorem sound_resumed {read : Except String ℕ} {k : Cont} {p : PreadPool}
    (hc : Consistent k.hand s.cache) (ha : s.answer = none)
    (hb : ∀ id, k.block = some id → s.cache.Absent id) :
    Sound { s.withPool p with ctl := .resumed read k } := by
  refine ⟨hc.frame (some p) s.cache.workerReads s.cache.prewarmTried, ?_, fun _ _ h => ?_⟩
  · intro k' hk'
    obtain rfl : k = k' := Option.some.inj hk'
    exact ⟨rfl, ha, hb⟩
  · rw [show ({ s.withPool p with ctl := Ctl.resumed read k } : MoeSystem).answer = s.answer from rfl,
      ha] at h
    exact nomatch h

theorem sound_waited {k : Cont} {ticket : ℕ} (hc : Consistent k.hand s.cache)
    (ha : s.answer = none) (hb : ∀ id, k.block = some id → s.cache.Absent id)
    (r : WaitResult × PreadPool) : Sound (s.waited ticket k r) := by
  obtain ⟨r, p⟩ := r
  cases r with
  | got index => exact sound_resumed hc ha hb
  | err message => exact sound_resumed hc ha hb
  | block =>
    refine ⟨hc.frame (some p) s.cache.workerReads s.cache.prewarmTried, ?_, fun _ _ h => ?_⟩
    · intro k' hk'
      obtain rfl : k = k' := Option.some.inj hk'
      exact ⟨rfl, ha, hb⟩
    · rw [show (s.waited ticket k (.block, p)).answer = s.answer from rfl, ha] at h
      exact nomatch h

/-! ## Dispatch -/

theorem sound_admit (hc : Consistent 0 s.cache) (ha : s.cache.Absent id) (bytes : Bytes)
    (env : DeviceEnv) : Sound (s.answered id (s.cache.admitBlock id bytes env)) :=
  sound_answered (admit_consistent hc ha bytes env).1 (admit_consistent hc ha bytes env).2

theorem sound_dispatchDisk {files : Files} (hc : Consistent 0 s.cache) (hans : s.answer = none)
    (ha : s.cache.Absent id) (x : Extent) (fallback : Bytes) (submit : SubmitEnv) (read : ReadEnv)
    (env : DeviceEnv) : Sound (s.dispatchDisk files id x fallback submit read env) := by
  have hb : ∀ i, (Cont.dispatch id x fallback env).block = some i → s.cache.Absent i := by
    intro i hi
    obtain rfl : id = i := Option.some.inj hi
    exact ha
  have hc' := hc.frame s.cache.pread (s.cache.workerReads.erase id) s.cache.prewarmTried
  unfold dispatchDisk
  split
  · exact sound_admit hc ha fallback env
  · dsimp only
    split
    · split
      · apply sound_waited
        · exact hc'
        · exact hans
        · exact hb
      · exact sound_resumed hc' hans hb
      · exact sound_resumed hc' hans hb
    · exact sound_resumed hc' hans hb

theorem sound_dispatchRead (hc : Consistent 0 s.cache) (hp : s.cache.pread.isSome)
    (ha : s.cache.Absent id) (x : Extent) (fallback : Bytes) (env : DeviceEnv)
    (read : Except String ℕ) : Sound (s.dispatchRead id x fallback env read) := by
  obtain ⟨p, hp⟩ := Option.isSome_iff_exists.1 hp
  cases read with
  | error e => exact sound_admit hc ha fallback env
  | ok index =>
    simp only [dispatchRead, hp]
    rcases hr : s.cache.reserveSlot x.len env.freq with _ | ⟨slot, c⟩
    · exact sound_answered hc fun _ he => nomatch he
    · have hres := hc.reserveSlot hr
      have ha' : c.Absent id := (reserveSlot_reserved hr).absent ha
      -- what becomes of the pool is nothing to the slots
      have hpool : ∀ {c : MoeSlotCache} (q : PreadPool), Consistent (slot ::ₘ 0) c →
          Consistent (slot ::ₘ 0) { c with pread := some q } := fun q h =>
        h.frame (some q) _ _
      have hback : ∀ c : MoeSlotCache, Consistent (slot ::ₘ 0) c → c.Absent id →
          Sound (s.answered id ((c.releaseReservedSlot slot).admitBlock id fallback env)) := by
        intro c hc ha
        obtain ⟨ht, hpd, -, -⟩ := c.releaseReservedSlot_frame slot
        have had : (c.releaseReservedSlot slot).Absent id := ⟨ht ▸ ha.1, hpd ▸ ha.2⟩
        have hadm := admit_consistent hc.release had fallback env
        exact sound_answered hadm.1 hadm.2
      simp only
      rcases p.bytes index x.len with e | bytes
      · exact hback _ (hpool _ hres) ha'
      · rcases env.stage with _ | ⟨left, message⟩ | ⟨left, message⟩
        · refine sound_answered (((hpool _ hres).stage ha' bytes).publish ha' (by simp [stage]))
            fun slot' hs => ?_
          obtain rfl : slot = slot' := Except.ok.inj hs
          simp [publish_eq]
        · exact hback _ (hpool _ (hres.spoil left)) ha'
        · exact sound_answered (hpool _ (hres.spoil left)).quarantine fun _ he => nomatch he

theorem sound_dispatchSource {files : Files} (hc : Consistent 0 s.cache) (hans : s.answer = none)
    (source : ExpertSource) (submit : SubmitEnv) (read : ReadEnv) (env : DeviceEnv) :
    Sound (s.dispatchSource files id source submit read env) := by
  unfold dispatchSource
  rcases ht : s.cache.table.lookup id with _ | slot
  · rcases hp : s.cache.pending.lookup id with _ | slot
    · cases source with
      | memory bytes => exact sound_admit hc ⟨ht, hp⟩ bytes env
      | disk x fallback => exact sound_dispatchDisk hc hans ⟨ht, hp⟩ x fallback submit read env
    · rcases env.computeWait with _ | e
      · refine sound_answered (hc.settle hp) fun slot' hs => ?_
        obtain rfl : slot = slot' := Except.ok.inj hs
        simp [publish_eq]
      · exact sound_answered hc fun _ he => nomatch he
  · refine sound_answered (hc.onHit ht) fun slot' hs => ?_
    obtain rfl : slot = slot' := Except.ok.inj hs
    rw [s.cache.sameMaps_onHit slot]
    exact ht

/-! ## Lookahead -/

theorem dropRead_consistent {c : MoeSlotCache} (hc : Consistent 0 c) (id : BlockId) :
    Consistent 0 (dropRead c id) := by
  unfold dropRead
  split
  · exact hc
  · exact hc.frame _ _ c.prewarmTried

theorem sound_promoteFrom (keep : List BlockId) :
    ∀ (order : List (BlockId × DeviceEnv)) (s : MoeSystem), Consistent 0 s.cache →
      s.answer = none → Sound (promoteFrom keep s order)
  | [], _, hc, ha => sound_idle rfl hc ha
  | (id, env) :: rest, s, hc, ha => by
    unfold promoteFrom
    dsimp only
    split
    · exact sound_promoteFrom keep rest _ (dropRead_consistent hc id) ha
    · rename_i hno
      rw [Bool.not_eq_true, Bool.or_eq_false_iff, Option.isSome_eq_false_iff,
        Option.isSome_eq_false_iff, Option.isNone_iff_eq_none, Option.isNone_iff_eq_none] at hno
      split
      · exact sound_promoteFrom keep rest s hc ha
      · split
        · exact sound_promoteFrom keep rest s hc ha
        · exact sound_idle rfl hc ha
        · rename_i r _ slot c p hr _
          have hres := hc.reservePrefetchSlot hr
          apply sound_waited
          · exact hres.frame c.pread (c.workerReads.erase id) c.prewarmTried
          · exact ha
          · intro i hi
            obtain rfl : id = i := Option.some.inj hi
            exact (reservePrefetchSlot_reserved hr).absent hno

theorem sound_promoteRead (len slot : ℕ) (env : DeviceEnv) (rest : List (BlockId × DeviceEnv))
    (keep : List BlockId) (hc : Consistent {slot} s.cache) (hp : s.cache.pread.isSome)
    (hans : s.answer = none) (ha : s.cache.Absent id) (read : Except String ℕ) :
    Sound (s.promoteRead id len slot env rest keep read) := by
  obtain ⟨p, hp⟩ := Option.isSome_iff_exists.1 hp
  have hc : Consistent (slot ::ₘ 0) s.cache := hc
  have hpool : ∀ {c : MoeSlotCache} (q : PreadPool), Consistent (slot ::ₘ 0) c →
      Consistent (slot ::ₘ 0) { c with pread := some q } := fun q h => h.frame (some q) _ _
  cases read with
  | error e => exact sound_promoteFrom keep rest _ hc.release hans
  | ok index =>
    simp only [promoteRead, hp]
    rcases p.bytes index len with e | bytes
    · exact sound_promoteFrom keep rest _ (hpool _ hc).release hans
    · rcases env.stage with _ | ⟨left, message⟩ | ⟨left, message⟩
      · exact sound_promoteFrom keep rest _
          (((hpool _ hc).stage ha bytes).hold ha (by simp [stage])) hans
      · exact sound_promoteFrom keep rest _ (hpool _ (hc.spoil left)).release hans
      · exact sound_idle rfl (hpool _ (hc.spoil left)).quarantine hans

theorem sound_prefetchSource (hi : s.ctl = .idle) (hc : Consistent 0 s.cache)
    (hans : s.answer = none) (source : ExpertSource) (keep : List BlockId) (submit : SubmitEnv)
    (env : DeviceEnv) : Sound (s.prefetchSource id source keep submit env) := by
  have hw : ∀ p, Sound (s.withPool p) := fun p => sound_idle hi (hc.frame (some p) _ _) hans
  unfold prefetchSource
  dsimp only
  split
  · exact sound_idle hi hc hans
  · rename_i hno
    rw [Bool.not_eq_true, Bool.or_eq_false_iff, Bool.or_eq_false_iff, Option.isSome_eq_false_iff,
      Option.isSome_eq_false_iff, Option.isNone_iff_eq_none, Option.isNone_iff_eq_none] at hno
    have hb := fun bytes => prefetchBytes_consistent hc hno.1 bytes keep env
    cases source with
    | memory bytes => exact sound_idle hi (hb bytes) hans
    | disk x fallback =>
      dsimp only
      split
      · exact sound_idle hi (hb fallback) hans
      · split
        · split
          · exact sound_idle hi (hc.frame _ _ s.cache.prewarmTried) hans
          · exact hw _
        · exact sound_idle hi hc hans

/-! ## The pool's own caller -/

theorem sound_poolStep {files : Files} (hi : s.ctl = .idle) (hc : Consistent 0 s.cache)
    (hans : s.answer = none) (p : PreadPool) (a : PoolAct) : Sound (s.poolStep files p a) := by
  have hw : ∀ p own held, Sound { s.withPool p with own, held } := fun p own held =>
    sound_idle hi (hc.frame (some p) _ _) hans
  have hs : Sound s := sound_idle hi hc hans
  cases a with
  | submit admission x env =>
    dsimp only [poolStep]
    split
    · exact hw _ _ _
    · exact hw _ _ _
  | read x env =>
    dsimp only [poolStep]
    split
    · exact hw _ _ _
    · exact hw _ _ _
  | wait ticket =>
    dsimp only [poolStep]
    split
    · exact sound_waited (k := .caller) hc hans (fun _ h => nomatch h) _
    · exact hs
  | cancel ticket =>
    dsimp only [poolStep]
    split
    · exact hw _ _ _
    · exact hs
  | release index =>
    dsimp only [poolStep]
    split
    · exact hw _ _ _
    · exact hs
  | h2d index event =>
    dsimp only [poolStep]
    split
    · exact hw _ _ _
    · exact hs

/-! ## Steps -/

/-- The condition: a block is admitted only where it has no pending copy, and by the two inner
operations only where it has no slot at all. -/
def Admissible (s : MoeSystem) : MoeAct → Prop
  | .owner (.admitBlock id _ _) => s.cache.Absent id
  | .owner (.prefetchBytes id _ _ _) => s.cache.Absent id
  | .owner (.forceAdmit id _ _) => s.cache.pending.lookup id = none
  | .owner (.restage id source _) => source.isSome → s.cache.pending.lookup id = none
  | .owner (.prewarm layer nExpert sources _) =>
    s.cache.prewarms layer nExpert sources →
      ∀ id ∈ layerBlocks layer nExpert, s.cache.pending.lookup id = none
  | _ => True

theorem sound_ownerStep {files : Files} (hi : s.ctl = .idle) (hc : Consistent 0 s.cache)
    (hans : s.answer = none) (a : OwnerAct) (hok : s.Admissible (.owner a)) :
    Sound (s.ownerStep files a) := by
  cases a with
  | dispatch id source submit read env => exact sound_dispatchSource hc hans source submit read env
  | prefetch id source keep submit env =>
    exact sound_prefetchSource hi hc hans source keep submit env
  | promote order keep =>
    dsimp only [ownerStep, promote]
    split
    · exact sound_promoteFrom keep order s hc hans
    · exact sound_idle hi hc hans
  | beginWorkerScope => exact sound_idle hi (hc.frame _ _ s.cache.prewarmTried) hans
  | admitBlock id bytes env => exact sound_admit hc hok bytes env
  | prefetchBytes id bytes keep env =>
    exact sound_idle hi (prefetchBytes_consistent hc hok bytes keep env) hans
  | forceAdmit id bytes env =>
    exact sound_answered (forceAdmit_consistent hc hok bytes env).1
      (forceAdmit_consistent hc hok bytes env).2
  | restage id source env => exact sound_idle hi (restageBlock_consistent hc hok env) hans
  | prewarm layer nExpert sources envs =>
    exact sound_idle hi (prewarmLayer_consistent hc hok envs) hans
  | layerDevRow layer nExpert upload =>
    exact sound_idle hi (layerDevRow_consistent hc layer nExpert upload) hans
  | pool a =>
    dsimp only [ownerStep]
    split
    · exact sound_idle hi hc hans
    · exact sound_poolStep hi hc hans _ a

theorem sound_resume (hs : Sound s) {read : Except String ℕ} {k : Cont}
    (hctl : s.ctl = .resumed read k) : Sound (s.resume read k) := by
  have hc : Consistent k.hand s.cache := by
    have := hs.consistent
    rwa [hctl] at this
  obtain ⟨hp, hans, hb⟩ := hs.reading k (by rw [hctl]; rfl)
  cases k with
  | caller => exact sound_idle rfl hc hans
  | dispatch id x fallback env => exact sound_dispatchRead hc hp (hb id rfl) x fallback env read
  | promote id len slot env rest keep =>
    exact sound_promoteRead len slot env rest keep hc hp hans (hb id rfl) read

theorem step_sound {files : Files} (s : MoeSystem) (a : MoeAct) (hs : Sound s)
    (hok : s.Admissible a) : Sound (step files s a) := by
  cases a with
  | worker a =>
    dsimp only [step]
    split
    · exact hs
    · refine ⟨hs.consistent.frame (some _) _ _, fun k hk => ?_, hs.answer⟩
      obtain ⟨-, hans, hb⟩ := hs.reading k hk
      exact ⟨rfl, hans, hb⟩
  | recv =>
    dsimp only [step]
    split
    · rename_i ticket k p hctl hp
      split
      · exact hs
      · obtain ⟨-, hans, hb⟩ := hs.reading k (by rw [hctl]; rfl)
        have hc := hs.consistent
        rw [hctl] at hc
        exact sound_waited hc hans hb _
    · exact hs
  | resume =>
    dsimp only [step]
    split
    · rename_i read k hctl
      exact sound_resume hs hctl
    · exact hs
  | owner a =>
    dsimp only [step]
    split
    · rename_i hctl
      have hc := hs.consistent
      rw [hctl] at hc
      refine sound_ownerStep (s := { s with answer := none }) hctl hc rfl a ?_
      cases a <;> exact hok
    · exact hs

end MoeSystem

/-! ## Residency -/

/-- What the structures of a cache say of its slots and blocks, `hand` being the slots in hand of an
operation under way. -/
structure Residency (hand : Multiset ℕ) (c : MoeSlotCache) : Prop where
  /-- every slot is once on a free list, in a segment, pending, quarantined or in hand -/
  once : ∀ s < c.n, (c.slots + hand).count s = 1
  /-- on a free list or in a segment of its own class -/
  home : ∀ k cl, c.classes[k]? = some cl → ∀ s ∈ cl.slots, c.slotClass s = k
  segment : ∀ cl ∈ c.classes, ∀ s, s ∈ cl.probation ∨ s ∈ cl.guarded →
    ∃ id, c.occupant s = some id ∧ c.table.lookup id = some s
  resident : ∀ id s, c.table.lookup id = some s →
    ∃ cl ∈ c.classes, s ∈ cl.probation ∨ s ∈ cl.guarded
  pending : ∀ id s, c.pending.lookup id = some s → c.occupant s = some id
  /-- no block has two slots -/
  single : ∀ id s s', c.Held id s → c.Held id s' → s = s'
  perLayer : ∀ l, c.perLayer l = countKeys (fun id => id.layer = l) c.table
  /-- a cached row is the row of the layer's current slots -/
  rows : ∀ l row, c.devRows.lookup l = some row → ∃ n, c.addressRow l n = some row
  bytes : ∀ id s, c.Held id s → c.staged id = some (c.mem s)

theorem MoeSlotCache.Consistent.resides {hand : Multiset ℕ} {c : MoeSlotCache}
    (h : Consistent hand c) : Residency hand c where
  once s hs := by
    rw [h.layout.slots]
    exact Multiset.count_eq_one_of_mem (Multiset.nodup_range _) (Multiset.mem_range.2 hs)
  home := h.layout.home
  segment cl hcl s hs := by
    obtain ⟨k, hk⟩ := List.mem_iff_getElem?.1 hcl
    have hslot := h.layout.home k cl hk s (SlotClass.mem_slots.2 (.inr hs))
    have htags := h.layout.tags s cl (hslot ▸ hk)
    have hseg : c.seg s ≠ .none := by
      rcases hs with hs | hs
      · rw [htags.1.2 hs]; decide
      · rw [htags.2.2 hs]; decide
    obtain ⟨id, hid⟩ := (h.maps.resident s).1 hseg
    exact ⟨id, h.maps.occupant id s (.inl hid), hid⟩
  resident id s hs := by
    obtain ⟨cl, hcl, hmem⟩ := h.layout.tagged ((h.maps.resident s).2 ⟨id, hs⟩)
    exact ⟨cl, List.mem_of_getElem? hcl, hmem⟩
  pending id s hs := h.maps.occupant id s (.inr hs)
  single id s s' hs hs' := by
    rcases h.maps.apart id with ht | hp
    · have hp : c.pending.lookup id = some s := hs.resolve_left (by simp [ht])
      have hp' : c.pending.lookup id = some s' := hs'.resolve_left (by simp [ht])
      exact Option.some.inj (hp.symm.trans hp')
    · have ht : c.table.lookup id = some s := hs.resolve_right (by simp [hp])
      have ht' : c.table.lookup id = some s' := hs'.resolve_right (by simp [hp])
      exact Option.some.inj (ht.symm.trans ht')
  perLayer := h.maps.perLayer
  rows := h.maps.rows
  bytes := h.maps.bytes

open MoeSystem in
/-- **Residency.** In every run from the empty cache in which no block with a pending copy is admitted
again, the structures agree, and a block handed out has the bytes last staged for it. -/
theorem residency (files : Files) (plan : List (ℕ × ℕ)) (sizeAware frequencyEvict copyH2d : Bool)
    (pread : Option PreadPool) (acts : List MoeAct)
    (h : Along (step files) Admissible
      { cache := MoeSlotCache.new plan sizeAware frequencyEvict copyH2d pread } acts) :
    let s := run files { cache := MoeSlotCache.new plan sizeAware frequencyEvict copyH2d pread } acts
    Residency s.ctl.hand s.cache ∧
      ∀ id slot, s.answer = some (.ok (id, slot)) →
        s.cache.table.lookup id = some slot ∧ s.cache.staged id = some (s.cache.mem slot) := by
  have h0 : Sound { cache := MoeSlotCache.new plan sizeAware frequencyEvict copyH2d pread } :=
    sound_idle rfl (new_consistent plan sizeAware frequencyEvict copyH2d pread) rfl
  have hs := h.invariant step_sound h0
  refine ⟨hs.consistent.resides, fun id slot ha => ?_⟩
  have ht := hs.answer id slot ha
  exact ⟨ht, hs.consistent.maps.bytes id slot (.inl ht)⟩

/-- One block of a layer. -/
def gateBlock : BlockId := { layer := 0, proj := 0, ex := 0 }

/-- A cache of two slots for blocks of eight bytes. -/
def twoSlots : MoeSystem := { cache := MoeSlotCache.new [(8, 2)] false false false none }

open MoeSystem in
/-- A prefetched block is dispatched, then admitted by force. -/
theorem residency_prefetched :
    Residency 0 (run (fun _ => []) twoSlots
      [.owner (.prefetch gateBlock (.memory [7]) [] {} {}),
        .owner (.dispatch gateBlock (.memory [7]) {} {} {}),
        .owner (.forceAdmit gateBlock [7] {})]).cache :=
  (residency (fun _ => []) [(8, 2)] false false false none
    [.owner (.prefetch gateBlock (.memory [7]) [] {} {}),
      .owner (.dispatch gateBlock (.memory [7]) {} {} {}),
      .owner (.forceAdmit gateBlock [7] {})] ⟨trivial, trivial, rfl, trivial⟩).1

open MoeSystem in
/-- `force_admit` of a block whose copy is pending puts it into a second slot. -/
theorem forceAdmit_pending :
    ¬ Residency 0 (run (fun _ => []) twoSlots
      [.owner (.prefetch gateBlock (.memory [7]) [] {} {}),
        .owner (.forceAdmit gateBlock [7] {})]).cache := by
  intro h
  have hres : (run (fun _ => []) twoSlots
      [.owner (.prefetch gateBlock (.memory [7]) [] {} {}),
        .owner (.forceAdmit gateBlock [7] {})]).cache.Held gateBlock 1 := .inl rfl
  have hpend : (run (fun _ => []) twoSlots
      [.owner (.prefetch gateBlock (.memory [7]) [] {} {}),
        .owner (.forceAdmit gateBlock [7] {})]).cache.Held gateBlock 0 := .inr rfl
  exact absurd (h.single gateBlock 1 0 hres hpend) (by decide)

end Memra
