import Memra.Engine.Proof.MoeRun
import Memra.Engine.Proof.SpillPread

/-!
# No pread buffer is lost

The operations of the cache use its pool by the rules of `Owned`: they wait for and cancel tickets that
are theirs, and give back every buffer they are handed, where a dispatch that reads from disk finds a
slot (`HasRoom`). `Accounted` is what holds between steps; `pool_accounted` is every run.
-/

namespace Memra

open Lib
open PreadPool (SubmitEnv ReadEnv WaitResult Owned Waited)
open MoeSlotCache

namespace MoeSlotCache

variable {c c' : MoeSlotCache}

/-! ## A slot for a read -/

/-- Some class with room for `len` bytes has a free slot or one to evict. -/
def HasRoom (c : MoeSlotCache) (len : ℕ) : Prop :=
  ∃ cl ∈ c.classes, len ≤ cl.capacity ∧
    (cl.free ≠ [] ∨ ∃ s ∈ SlotClass.order cl, c.frequencyEvict → (c.occupant s).isSome)

theorem popFree_none {required : ℕ} {classes : List SlotClass} {k : ℕ}
    (h : c.popFree required k classes = none) :
    ∀ cl ∈ classes, required ≤ cl.capacity → cl.free = [] := by
  induction classes generalizing k with
  | nil => exact fun _ hc => absurd hc List.not_mem_nil
  | cons cl rest ih =>
    unfold popFree at h
    intro cj hcj hle
    split at h
    · rcases hf : cl.free.getLast? with _ | s
      · rw [hf] at h
        rcases List.mem_cons.1 hcj with rfl | hcj
        · exact List.getLast?_eq_none_iff.1 hf
        · exact ih h cj hcj hle
      · rw [hf] at h
        exact absurd h (by simp)
    · rename_i hno
      rcases List.mem_cons.1 hcj with rfl | hcj
      · exact absurd hle hno
      · exact ih h cj hcj hle

theorem evictFrom_none {required : ℕ} {pick : SlotClass → Option ℕ} {classes : List SlotClass}
    {k : ℕ} (h : c.evictFrom required pick k classes = none) :
    ∀ cl ∈ classes, required ≤ cl.capacity → pick cl = none := by
  induction classes generalizing k with
  | nil => exact fun _ hc => absurd hc List.not_mem_nil
  | cons cl rest ih =>
    unfold evictFrom at h
    intro cj hcj hle
    split at h
    · rename_i hno
      rcases List.mem_cons.1 hcj with rfl | hcj
      · omega
      · exact ih h cj hcj hle
    · rcases hf : pick cl with _ | s
      · rw [hf] at h
        rcases List.mem_cons.1 hcj with rfl | hcj
        · exact hf
        · exact ih h cj hcj hle
      · rw [hf] at h
        exact absurd h (by simp)

/-- A class with a slot to evict has a victim. -/
theorem victim_isSome {cl : SlotClass} {freq : Freq}
    (h : ∃ s ∈ SlotClass.order cl, c.frequencyEvict → (c.occupant s).isSome) :
    c.victim cl freq ≠ none := by
  obtain ⟨s, hs, hocc⟩ := h
  unfold victim
  split
  · rename_i hf
    obtain ⟨id, hid⟩ := Option.isSome_iff_exists.1 (hocc hf)
    obtain ⟨i, hi⟩ := List.mem_iff_getElem?.1 hs
    rw [frequencyVictim, Ne, Option.map_eq_none_iff, List.argmin_eq_none]
    refine List.ne_nil_of_mem (a := (toLex (freq id, i), s)) (List.mem_filterMap.2 ⟨(s, i), ?_, ?_⟩)
    · exact List.mem_zipIdx_iff_getElem?.2 hi
    · simp [hid]
  · rw [Ne, List.head?_eq_none_iff]
    exact List.ne_nil_of_mem hs

/-- `reserve_slot` finds a slot where there is one. -/
theorem reserveSlot_isSome {len : ℕ} (h : c.HasRoom len) (freq : Freq) :
    ∃ slot c', c.reserveSlot len freq = some (slot, c') := by
  obtain ⟨cl, hcl, hle, hroom⟩ := h
  rcases hp : c.popFree len 0 c.classes with _ | ⟨slot, c'⟩
  · rcases he : c.evictFrom len (c.victim · freq) 0 c.classes with _ | ⟨slot, c'⟩
    · rcases hroom with hfree | hev
      · exact absurd (popFree_none hp cl hcl hle) hfree
      · exact absurd (evictFrom_none he cl hcl hle) (victim_isSome hev)
    · exact ⟨slot, c', by rw [reserveSlot, hp]; exact he⟩
  · exact ⟨slot, c', by rw [reserveSlot, hp]; rfl⟩

/-! ## What leaves the pool alone -/

/-- The pool and the submitted reads are the same. -/
structure SamePool (c c' : MoeSlotCache) : Prop where
  pread : c'.pread = c.pread
  workerReads : c'.workerReads = c.workerReads

theorem SamePool.refl (c : MoeSlotCache) : SamePool c c := ⟨rfl, rfl⟩

theorem SamePool.trans {c'' : MoeSlotCache} (h : SamePool c c') (h' : SamePool c' c'') :
    SamePool c c'' := ⟨h'.1.trans h.1, h'.2.trans h.2⟩

theorem samePool_admitBlock (c : MoeSlotCache) (id : BlockId) (bytes : Bytes) (env : DeviceEnv) :
    SamePool c (c.admitBlock id bytes env).2 :=
  ⟨(c.admit_frame id bytes env).2.1, (c.admit_frame id bytes env).2.2⟩

theorem samePool_release (c : MoeSlotCache) (slot : ℕ) :
    SamePool c (c.releaseReservedSlot slot) :=
  ⟨(c.releaseReservedSlot_frame slot).2.2.1, (c.releaseReservedSlot_frame slot).2.2.2⟩

theorem samePool_prefetchBytes (c : MoeSlotCache) (id : BlockId) (bytes : Bytes)
    (keep : List BlockId) (env : DeviceEnv) : SamePool c (c.prefetchBytes id bytes keep env).2 := by
  unfold prefetchBytes
  rcases hr : c.reservePrefetchSlot bytes.length keep env.freq with _ | ⟨slot, c'⟩
  · exact .refl c
  · have hres := reservePrefetchSlot_reserved hr
    have hc : SamePool c c' := ⟨hres.pread, hres.workerReads⟩
    rcases env.stage with _ | ⟨left, message⟩ | ⟨left, message⟩
    · exact ⟨hc.1, hc.2⟩
    · have hs : SamePool c (c'.spoil slot left) := ⟨hc.1, hc.2⟩
      exact hs.trans ((c'.spoil slot left).samePool_release slot)
    · exact ⟨hc.1, hc.2⟩

theorem samePool_forceAdmit (c : MoeSlotCache) (id : BlockId) (bytes : Bytes) (env : DeviceEnv) :
    SamePool c (c.forceAdmit id bytes env).2 := by
  unfold forceAdmit
  split
  · exact .refl c
  · exact c.samePool_admitBlock id bytes env

theorem samePool_restageBlock (c : MoeSlotCache) (id : BlockId) (source : Option ExpertSource)
    (env : DeviceEnv) : SamePool c (c.restageBlock id source env).2 := by
  unfold restageBlock
  split
  · exact .refl c
  · cases source with
    | none => exact .refl c
    | some source =>
      have ha := c.samePool_admitBlock id (sourceBytes source) env
      rcases hadm : c.admitBlock id (sourceBytes source) env with ⟨_ | _, c'⟩ <;>
        · rw [hadm] at ha
          simp only [hadm]
          exact ha

theorem samePool_prewarmBlocks (sources : LayerSources) (envs : BlockId → DeviceEnv) :
    ∀ (ids : List BlockId) (c : MoeSlotCache), SamePool c (prewarmBlocks sources envs c ids).2
  | [], c => .refl c
  | id :: ids, c => by
    unfold prewarmBlocks
    split
    · exact samePool_prewarmBlocks sources envs ids c
    · have ha := c.samePool_admitBlock id (sourceBytes (sources id)) (envs id)
      rcases hadm : c.admitBlock id (sourceBytes (sources id)) (envs id) with ⟨e | s, c'⟩
      · rw [hadm] at ha
        exact ha
      · rw [hadm] at ha
        exact SamePool.trans ha (samePool_prewarmBlocks sources envs ids c')

theorem samePool_prewarmLayer (c : MoeSlotCache) (layer nExpert : ℕ) (sources : LayerSources)
    (envs : BlockId → DeviceEnv) : SamePool c (c.prewarmLayer layer nExpert sources envs).2 := by
  unfold prewarmLayer
  dsimp only
  split
  · have hs : SamePool c { c with prewarmTried := layer :: c.prewarmTried } := ⟨rfl, rfl⟩
    exact hs.trans (samePool_prewarmBlocks sources envs _ _)
  · exact ⟨rfl, rfl⟩

theorem samePool_layerDevRow (c : MoeSlotCache) (layer nExpert : ℕ) (upload : Option String) :
    SamePool c (c.layerDevRow layer nExpert upload).2 := by
  unfold layerDevRow
  repeat' split
  all_goals exact ⟨rfl, rfl⟩

theorem samePool_publish (c : MoeSlotCache) (id : BlockId) (slot : ℕ) :
    SamePool c (c.publish id slot) := by
  rw [publish_eq]
  exact ⟨rfl, rfl⟩

theorem samePool_onHit (c : MoeSlotCache) (slot : ℕ) : SamePool c (c.onHit slot) := by
  rw [c.sameMaps_onHit slot]
  exact ⟨rfl, rfl⟩

end MoeSlotCache

/-! ## The owner's books -/

/-- The buffer a completed read has just handed to the owner. -/
def Ctl.index : Ctl → List ℕ
  | resumed (.ok index) _ => [index]
  | _ => []

/-- The ticket the owner is waiting for. -/
def Ctl.ticket : Ctl → Option ℕ
  | waiting ticket _ => some ticket
  | _ => none

namespace MoeSystem

/-- Whose a live ticket is: the caller's, a submitted block's, or the one waited for. -/
def HasTicket (s : MoeSystem) (t : ℕ) : Prop :=
  t ∈ s.own ∨ (∃ id r, s.cache.workerReads.lookup id = some r ∧ r.ticket = t) ∨ s.ctl.ticket = some t

/-- The buffers in the owner's hands. -/
def holding (s : MoeSystem) : List ℕ := s.ctl.index ++ s.held

/-- The books of a pool: who holds which buffer and which tickets are whose. -/
structure Accounted (files : Files) (s : MoeSystem) : Prop where
  owned : ∀ p, s.cache.pread = some p → Owned files s.holding p
  tickets : ∀ p, s.cache.pread = some p → ∀ t ∈ p.tickets, s.HasTicket t
  waiting : ∀ p, s.cache.pread = some p → ∀ t, s.ctl.ticket = some t → t ∈ p.tickets

variable {files : Files} {s : MoeSystem} {id : BlockId}

/-- The books between operations, the control aside. -/
structure Books (files : Files) (held own : List ℕ) (c : MoeSlotCache) : Prop where
  owned : ∀ p, c.pread = some p → Owned files held p
  tickets : ∀ p, c.pread = some p → ∀ t ∈ p.tickets,
    t ∈ own ∨ ∃ id r, c.workerReads.lookup id = some r ∧ r.ticket = t

variable {held own : List ℕ} {c c' : MoeSlotCache}

theorem Books.same (h : Books files held own c) (hs : SamePool c c') : Books files held own c' :=
  ⟨fun p hp => h.owned p (hs.pread ▸ hp), fun p hp t ht => by
    rw [hs.workerReads]
    exact h.tickets p (hs.pread ▸ hp) t ht⟩

theorem Books.publish (h : Books files held own c) {slot : ℕ} :
    Books files held own (c.publish id slot) :=
  h.same (c.samePool_publish id slot)

/-- Another pool, with the tickets of the old one or fewer. -/
theorem Books.pool {p q : PreadPool} {held' : List ℕ} (h : Books files held own c)
    (hp : c.pread = some p) (hq : Owned files held' q) (ht : ∀ t ∈ q.tickets, t ∈ p.tickets) :
    Books files held' own { c with pread := some q } := by
  refine ⟨fun p' hp' => ?_, fun p' hp' t htk => ?_⟩
  · obtain rfl : q = p' := Option.some.inj hp'
    exact hq
  · obtain rfl : q = p' := Option.some.inj hp'
    exact h.tickets p hp t (ht t htk)

theorem accounted_idle (hi : s.ctl = .idle) (h : Books files s.held s.own s.cache) :
    Accounted files s := by
  refine ⟨fun p hp => ?_, fun p hp t ht => ?_, fun p hp t ht => ?_⟩
  · rw [holding, hi]
    exact h.owned p hp
  · exact (h.tickets p hp t ht).imp_right .inl
  · rw [hi] at ht
    exact nomatch ht

theorem accounted_answered {r : Except String ℕ × MoeSlotCache}
    (h : Books files s.held s.own r.2) : Accounted files (s.answered id r) :=
  accounted_idle rfl h

/-- The books of an owner past its read. -/
theorem accounted_resumed {read : Except String ℕ} {k : Cont} {p : PreadPool}
    (ho : Owned files ((Ctl.resumed read k).index ++ s.held) p)
    (ht : ∀ t ∈ p.tickets,
      t ∈ s.own ∨ ∃ id r, s.cache.workerReads.lookup id = some r ∧ r.ticket = t) :
    Accounted files { s.withPool p with ctl := .resumed read k } := by
  refine ⟨fun q hq => ?_, fun q hq t htk => ?_, fun _ _ _ h => nomatch h⟩
  · obtain rfl : p = q := Option.some.inj hq
    exact ho
  · obtain rfl : p = q := Option.some.inj hq
    exact (ht t htk).imp_right .inl

/-- **Waiting** for a ticket, the books being right but for whose that ticket is. -/
theorem accounted_waited {k : Cont} {p : PreadPool} {t : ℕ} {r : WaitResult × PreadPool}
    (hown : ∀ t' ∈ p.tickets, t' = t ∨ t' ∈ s.own ∨
      ∃ id r, s.cache.workerReads.lookup id = some r ∧ r.ticket = t')
    (hnd : p.tickets.Nodup) (hw : Waited files s.held p t r) :
    Accounted files (s.waited t k r) := by
  have hrest : ∀ t' ∈ p.tickets.erase t, t' ∈ s.own ∨
      ∃ id r, s.cache.workerReads.lookup id = some r ∧ r.ticket = t' := by
    intro t' ht'
    obtain ⟨hne, hmem⟩ := (List.Nodup.mem_erase_iff hnd).1 ht'
    exact (hown t' hmem).resolve_left hne
  cases hw with
  | got ho ht _ _ _ => exact accounted_resumed ho (ht ▸ hrest)
  | failed ho ht =>
    cases k with
    | caller => exact accounted_resumed ho (ht ▸ hrest)
    | dispatch =>
      obtain ⟨hc, hct⟩ := ho.cancel t
      exact accounted_resumed hc fun t' ht' => hrest t' (ht ▸ List.mem_of_mem_erase (hct ▸ ht'))
    | promote =>
      obtain ⟨hc, hct⟩ := ho.cancel t
      exact accounted_resumed hc fun t' ht' => hrest t' (ht ▸ List.mem_of_mem_erase (hct ▸ ht'))
  | block ho ht hl =>
    rename_i q
    refine ⟨fun q' hq' => ?_, fun q' hq' t' ht' => ?_, fun q' hq' t' ht' => ?_⟩
    · obtain rfl : q = q' := Option.some.inj hq'
      exact ho
    · obtain rfl : q = q' := Option.some.inj hq'
      rcases hown t' (ht ▸ ht') with rfl | hown | hread
      · exact .inr (.inr rfl)
      · exact .inl hown
      · exact .inr (.inl hread)
    · obtain rfl : q = q' := Option.some.inj hq'
      obtain rfl : t = t' := Option.some.inj ht'
      exact hl

/-- The start of a wait, for a ticket that may be dead. -/
theorem accounted_wait {k : Cont} {p : PreadPool} {t : ℕ} (ho : Owned files s.held p)
    (hown : ∀ t' ∈ p.tickets, t' = t ∨ t' ∈ s.own ∨
      ∃ id r, s.cache.workerReads.lookup id = some r ∧ r.ticket = t') :
    Accounted files (s.waited t k (p.wait t)) := by
  by_cases ht : t ∈ p.tickets
  · exact accounted_waited hown ho.tickets (ho.wait ht)
  · rw [PreadPool.wait, if_neg ht]
    exact accounted_waited hown ho.tickets (.failed ho (List.erase_of_not_mem ht).symm)

/-! ## Dispatch -/

theorem accounted_dispatchDisk (h : Books files s.held s.own s.cache) (x : Extent)
    (fallback : Bytes) (submit : SubmitEnv) (read : ReadEnv) (env : DeviceEnv) :
    Accounted files (s.dispatchDisk files id x fallback submit read env) := by
  unfold dispatchDisk
  rcases hp : s.cache.pread with _ | p
  · exact accounted_answered (h.same (s.cache.samePool_admitBlock id fallback env))
  · have ho := h.owned p hp
    -- the entry of `worker_reads` that goes out is the only one with its ticket to be waited for
    have herase : ∀ t ∈ p.tickets, t ∈ s.own ∨ (∃ i r,
        (s.cache.workerReads.erase id).lookup i = some r ∧ r.ticket = t) ∨
        ∃ r, s.cache.workerReads.lookup id = some r ∧ r.ticket = t := by
      intro t ht
      rcases h.tickets p hp t ht with hown | ⟨i, r, hr, rfl⟩
      · exact .inl hown
      · by_cases hi : i = id
        · subst hi
          exact .inr (.inr ⟨r, hr, rfl⟩)
        · exact .inr (.inl ⟨i, r, (AList.lookup_erase_ne hi).trans hr, rfl⟩)
    dsimp only
    by_cases hmode : p.mode.isWorker = true
    · rw [if_pos hmode]
      rcases hread : s.cache.workerReads.lookup id with _ | r
      · have hnew : ∀ t ∈ p.tickets, t ∈ s.own ∨ ∃ i r,
            (s.cache.workerReads.erase id).lookup i = some r ∧ r.ticket = t := by
          intro t ht
          rcases herase t ht with hown | hrest | ⟨r, hr, -⟩
          · exact .inl hown
          · exact .inr hrest
          · rw [hread] at hr
            exact nomatch hr
        have hsub := ho.submit .demand x submit
        rcases hres : p.submit .demand x submit with ⟨e | t, q⟩
        · rw [hres] at hsub
          obtain _ | _ | ⟨hq, ht⟩ := hsub
          exact accounted_resumed hq (ht ▸ hnew)
        · rw [hres] at hsub
          rcases t with _ | t
          · obtain _ | ⟨hq, ht⟩ := hsub
            exact accounted_resumed hq (ht ▸ hnew)
          · obtain ⟨hq, ht, -, -⟩ := hsub
            apply accounted_wait
            · exact hq
            · intro t' ht'
              rw [ht] at ht'
              rcases List.mem_cons.1 ht' with rfl | ht'
              · exact .inl rfl
              · exact .inr (hnew t' ht')
      · apply accounted_wait
        · exact ho
        · intro t' ht'
          rcases herase t' ht' with hown | hrest | ⟨r', hr, rfl⟩
          · exact .inr (.inl hown)
          · exact .inr (.inr hrest)
          · rw [hread] at hr
            obtain rfl : r = r' := Option.some.inj hr
            exact .inl rfl
    · rw [if_neg hmode]
      have hnone : p.tickets = [] := ho.mode (by simpa using hmode)
      have hread := ho.read x read
      rcases hres : p.read files x read with ⟨e | i, q⟩
      · rw [hres] at hread
        obtain _ | ⟨hq, ht⟩ := hread
        exact accounted_resumed hq fun t htk => by
          rw [ht, hnone] at htk
          exact absurd htk List.not_mem_nil
      · rw [hres] at hread
        obtain ⟨hq, ht⟩ := hread
        exact accounted_resumed hq fun t htk => by
          rw [ht, hnone] at htk
          exact absurd htk List.not_mem_nil

theorem books_abort {p : PreadPool} {i : ℕ} (h : Books files (i :: held) own c)
    (hp : c.pread = some p) : Books files held own { c with pread := some (p.abortRead i) } := by
  obtain ⟨hq, ht⟩ := (h.owned p hp).abortRead List.mem_cons_self
  rw [List.erase_cons_head] at hq
  exact h.pool hp hq fun t htk => ht ▸ htk

theorem books_h2d {p : PreadPool} {i : ℕ} (h : Books files (i :: held) own c)
    (hp : c.pread = some p) (event : Bool) :
    Books files held own { c with pread := some (p.markH2d i event) } := by
  obtain ⟨hq, ht⟩ := (h.owned p hp).markH2d List.mem_cons_self event
  rw [List.erase_cons_head] at hq
  exact h.pool hp hq fun t htk => ht ▸ htk

theorem accounted_dispatchRead (x : Extent) (fallback : Bytes) (env : DeviceEnv)
    {read : Except String ℕ} {k : Cont} (hctl : s.ctl = .resumed read k)
    (h : Books files s.holding s.own s.cache)
    (hroom : ∀ i, read = .ok i → s.cache.HasRoom x.len) :
    Accounted files (s.dispatchRead id x fallback env read) := by
  have hhold : s.holding = (Ctl.resumed read k).index ++ s.held := by rw [holding, hctl]
  rw [hhold] at h
  cases read with
  | error e => exact accounted_answered (h.same (s.cache.samePool_admitBlock id fallback env))
  | ok i =>
    have h : Books files (i :: s.held) s.own s.cache := h
    rcases hp : s.cache.pread with _ | p
    · simp only [dispatchRead, hp]
      refine accounted_idle rfl ⟨fun p hp' => ?_, fun p hp' => ?_⟩
      · exact absurd (hp.symm.trans hp') (by simp)
      · exact absurd (hp.symm.trans hp') (by simp)
    · obtain ⟨slot, c, hr⟩ := reserveSlot_isSome (hroom i rfl) env.freq
      have hres := reserveSlot_reserved hr
      have hc : Books files (i :: s.held) s.own c := h.same ⟨hres.pread, hres.workerReads⟩
      have hcp : c.pread = some p := hres.pread.trans hp
      have hback : ∀ c : MoeSlotCache, Books files s.held s.own c →
          Accounted files (s.answered id ((c.releaseReservedSlot slot).admitBlock id fallback env)) :=
        fun c hc => accounted_answered
          (hc.same ((c.samePool_release slot).trans (samePool_admitBlock _ id fallback env)))
      simp only [dispatchRead, hp, hr]
      rcases p.bytes i x.len with e | bytes
      · exact hback _ (books_abort hc hcp)
      · rcases env.stage with _ | ⟨left, message⟩ | ⟨left, message⟩
        · have hb := books_h2d hc hcp true
          apply accounted_answered
          apply Books.publish
          exact ⟨hb.1, hb.2⟩
        · exact hback _ (books_abort (c := c.spoil slot left) ⟨hc.1, hc.2⟩ hcp)
        · exact accounted_answered
            ((books_h2d (c := c.spoil slot left) ⟨hc.1, hc.2⟩ hcp false).same ⟨rfl, rfl⟩)

theorem accounted_dispatchSource (h : Books files s.held s.own s.cache) (source : ExpertSource)
    (submit : SubmitEnv) (read : ReadEnv) (env : DeviceEnv) :
    Accounted files (s.dispatchSource files id source submit read env) := by
  unfold dispatchSource
  split
  · exact accounted_answered (h.same (samePool_onHit _ _))
  · split
    · split
      · exact accounted_answered h
      · apply accounted_answered
        apply Books.publish
        exact ⟨h.1, h.2⟩
    · split
      · exact accounted_answered (h.same (samePool_admitBlock _ _ _ _))
      · exact accounted_dispatchDisk h _ _ submit read env

/-! ## Lookahead -/

theorem accounted_prefetchSource (hi : s.ctl = .idle) (h : Books files s.held s.own s.cache)
    (source : ExpertSource) (keep : List BlockId) (submit : SubmitEnv) (env : DeviceEnv) :
    Accounted files (s.prefetchSource id source keep submit env) := by
  unfold prefetchSource
  dsimp only
  split
  · exact accounted_idle hi h
  · rename_i hno
    rw [Bool.not_eq_true, Bool.or_eq_false_iff, Option.isSome_eq_false_iff,
      Option.isNone_iff_eq_none] at hno
    have hnone : s.cache.workerReads.lookup id = none := by
      simpa using hno.2
    split
    · exact accounted_idle hi (h.same (samePool_prefetchBytes _ _ _ _ _))
    · rename_i x fallback
      split
      · exact accounted_idle hi (h.same (samePool_prefetchBytes _ _ _ _ _))
      · rename_i p hp
        split
        · have hsub := (h.owned p hp).submit .speculative x submit
          rcases hres : p.submit .speculative x submit with ⟨e | t, q⟩
          · rw [hres] at hsub
            obtain _ | _ | ⟨hq, ht⟩ := hsub
            exact accounted_idle hi (h.pool hp hq fun t htk => ht ▸ htk)
          · rw [hres] at hsub
            rcases t with _ | t
            · obtain _ | ⟨hq, ht⟩ := hsub
              exact accounted_idle hi (h.pool hp hq fun t htk => ht ▸ htk)
            · obtain ⟨hq, ht, -, -⟩ := hsub
              refine accounted_idle hi ⟨fun p' hp' => ?_, fun p' hp' t' ht' => ?_⟩
              · obtain rfl : q = p' := Option.some.inj hp'
                exact hq
              · obtain rfl : q = p' := Option.some.inj hp'
                rw [ht] at ht'
                rcases List.mem_cons.1 ht' with rfl | ht'
                · exact .inr ⟨id, _, AList.lookup_insert _, rfl⟩
                · refine (h.tickets p hp t' ht').imp_right fun ⟨i, r, hr, hrt⟩ => ?_
                  refine ⟨i, r, (AList.lookup_insert_ne ?_).trans hr, hrt⟩
                  rintro rfl
                  rw [hnone] at hr
                  exact nomatch hr
        · exact accounted_idle hi h

/-- A read dropped takes its ticket along. -/
theorem books_dropRead (h : Books files held own c) (id : BlockId) :
    Books files held own (dropRead c id) := by
  unfold dropRead
  rcases hr : c.workerReads.lookup id with _ | r
  · exact h
  · rcases hp : c.pread with _ | p
    · refine ⟨fun p' hp' => ?_, fun p' hp' => ?_⟩
      · simp at hp'
      · simp at hp'
    · obtain ⟨hq, ht⟩ := (h.owned p hp).cancel r.ticket
      have hnd := (h.owned p hp).tickets
      refine ⟨fun p' hp' => ?_, fun p' hp' t htk => ?_⟩
      · obtain rfl : (p.cancelWorker r.ticket).2 = p' := Option.some.inj hp'
        exact hq
      · obtain rfl : (p.cancelWorker r.ticket).2 = p' := Option.some.inj hp'
        rw [ht, List.Nodup.mem_erase_iff hnd] at htk
        refine (h.tickets p hp t htk.2).imp_right fun ⟨i, r', hr', hrt⟩ => ?_
        refine ⟨i, r', (AList.lookup_erase_ne ?_).trans hr', hrt⟩
        rintro rfl
        rw [hr] at hr'
        obtain rfl : r = r' := Option.some.inj hr'
        exact htk.1 hrt.symm

theorem cancel_all {p : PreadPool} (h : Owned files held p) (ts : List ℕ) :
    Owned files held (ts.foldl (fun p t => (p.cancelWorker t).2) p) ∧
      ∀ t ∈ (ts.foldl (fun p t => (p.cancelWorker t).2) p).tickets, t ∈ p.tickets ∧ t ∉ ts := by
  induction ts generalizing p with
  | nil => exact ⟨h, fun t ht => ⟨ht, List.not_mem_nil⟩⟩
  | cons t ts ih =>
    obtain ⟨hc, hct⟩ := h.cancel t
    obtain ⟨ho, hrest⟩ := ih hc
    refine ⟨ho, fun t' ht' => ?_⟩
    obtain ⟨hmem, hnot⟩ := hrest t' ht'
    rw [hct, List.Nodup.mem_erase_iff h.tickets] at hmem
    exact ⟨hmem.2, by simp [hmem.1, hnot]⟩

theorem books_beginWorkerScope (h : Books files held own c) :
    Books files held own (MoeSystem.beginWorkerScope c) := by
  rcases hp : c.pread with _ | p
  · refine ⟨fun p' hp' => ?_, fun p' hp' => ?_⟩
    · simp [MoeSystem.beginWorkerScope, hp] at hp'
    · simp [MoeSystem.beginWorkerScope, hp] at hp'
  · have ho := h.owned p hp
    have hin : ∀ i r, c.workerReads.lookup i = some r →
        r.ticket ∈ c.workerReads.entries.map fun e => e.2.ticket := fun i r hr =>
      List.mem_map.2 ⟨⟨i, r⟩, AList.mem_lookup_iff.1 hr, rfl⟩
    by_cases hmode : p.mode.isWorker = true
    · obtain ⟨hq, ht⟩ := cancel_all ho (c.workerReads.entries.map fun e => e.2.ticket)
      refine ⟨fun p' hp' => ?_, fun p' hp' t htk => ?_⟩
      · simp only [MoeSystem.beginWorkerScope, hp, Option.map_some, hmode, if_true,
          Option.some.injEq] at hp'
        exact hp' ▸ hq
      · simp only [MoeSystem.beginWorkerScope, hp, Option.map_some, hmode, if_true,
          Option.some.injEq] at hp'
        subst hp'
        obtain ⟨hmem, hnot⟩ := ht t htk
        rcases h.tickets p hp t hmem with hown | ⟨i, r, hr, rfl⟩
        · exact .inl hown
        · exact absurd (hin i r hr) hnot
    · have hnone : p.tickets = [] := ho.mode (by simpa using hmode)
      refine ⟨fun p' hp' => ?_, fun p' hp' t htk => ?_⟩
      · simp only [MoeSystem.beginWorkerScope, hp, Option.map_some, if_neg hmode,
          Option.some.injEq] at hp'
        exact hp' ▸ ho
      · simp only [MoeSystem.beginWorkerScope, hp, Option.map_some, if_neg hmode,
          Option.some.injEq] at hp'
        rw [← hp', hnone] at htk
        exact absurd htk List.not_mem_nil

theorem accounted_promoteFrom (keep : List BlockId) :
    ∀ (order : List (BlockId × DeviceEnv)) (s : MoeSystem), Books files s.held s.own s.cache →
      Accounted files (promoteFrom keep s order)
  | [], _, h => accounted_idle rfl h
  | (id, env) :: rest, s, h => by
    unfold promoteFrom
    dsimp only
    split
    · exact accounted_promoteFrom keep rest _ (books_dropRead h id)
    · split
      · exact accounted_promoteFrom keep rest s h
      · rename_i r hread
        split
        · exact accounted_promoteFrom keep rest s h
        · exact accounted_idle rfl h
        · rename_i slot c p hr hp
          have hres := reservePrefetchSlot_reserved hr
          apply accounted_wait
          · exact h.owned p hp
          · intro t' ht'
            rcases h.tickets p hp t' ht' with hown | ⟨i, r', hr', rfl⟩
            · exact .inr (.inl hown)
            · by_cases hi : i = id
              · subst hi
                rw [hread] at hr'
                obtain rfl : r = r' := Option.some.inj hr'
                exact .inl rfl
              · refine .inr (.inr ⟨i, r', ?_, rfl⟩)
                show (c.workerReads.erase id).lookup i = some r'
                rw [AList.lookup_erase_ne hi, hres.workerReads]
                exact hr'

theorem accounted_promoteRead (len slot : ℕ) (env : DeviceEnv) (rest : List (BlockId × DeviceEnv))
    (keep : List BlockId) {read : Except String ℕ} {k : Cont} (hctl : s.ctl = .resumed read k)
    (h : Books files s.holding s.own s.cache) :
    Accounted files (s.promoteRead id len slot env rest keep read) := by
  have hhold : s.holding = (Ctl.resumed read k).index ++ s.held := by rw [holding, hctl]
  rw [hhold] at h
  have hrelease : ∀ c : MoeSlotCache, Books files s.held s.own c →
      Accounted files (promoteFrom keep { s with cache := c.releaseReservedSlot slot } rest) :=
    fun c hc => accounted_promoteFrom keep rest _ (hc.same (c.samePool_release slot))
  cases read with
  | error e => exact hrelease s.cache h
  | ok i =>
    have h : Books files (i :: s.held) s.own s.cache := h
    rcases hp : s.cache.pread with _ | p
    · simp only [promoteRead, hp]
      refine accounted_idle rfl ⟨fun p hp' => ?_, fun p hp' => ?_⟩
      · exact absurd (hp.symm.trans hp') (by simp)
      · exact absurd (hp.symm.trans hp') (by simp)
    · simp only [promoteRead, hp]
      rcases p.bytes i len with e | bytes
      · exact hrelease _ (books_abort h hp)
      · rcases env.stage with _ | ⟨left, message⟩ | ⟨left, message⟩
        · exact accounted_promoteFrom keep rest _ ((books_h2d h hp true).same ⟨rfl, rfl⟩)
        · exact hrelease _ (books_abort (c := s.cache.spoil slot left) ⟨h.1, h.2⟩ hp)
        · exact accounted_idle rfl
            ((books_h2d (c := s.cache.spoil slot left) ⟨h.1, h.2⟩ hp false).same ⟨rfl, rfl⟩)

/-! ## Steps -/

theorem accounted_poolStep (hi : s.ctl = .idle) (h : Books files s.held s.own s.cache)
    {p : PreadPool} (hp : s.cache.pread = some p) (a : PoolAct) :
    Accounted files (s.poolStep files p a) := by
  have ho := h.owned p hp
  have hs : Accounted files s := accounted_idle hi h
  cases a with
  | submit admission x env =>
    have hsub := ho.submit admission x env
    rcases hres : p.submit admission x env with ⟨e | t, q⟩
    · rw [hres] at hsub
      simp only [poolStep, hres]
      obtain _ | _ | ⟨hq, ht⟩ := hsub
      exact accounted_idle hi (h.pool hp hq fun t htk => ht ▸ htk)
    · rw [hres] at hsub
      rcases t with _ | t <;> simp only [poolStep, hres]
      · obtain _ | ⟨hq, ht⟩ := hsub
        exact accounted_idle hi (h.pool hp hq fun t htk => ht ▸ htk)
      · obtain ⟨hq, ht, -, -⟩ := hsub
        refine accounted_idle hi ⟨fun p' hp' => ?_, fun p' hp' t' ht' => ?_⟩
        · obtain rfl : q = p' := Option.some.inj hp'
          exact hq
        · obtain rfl : q = p' := Option.some.inj hp'
          rw [ht] at ht'
          rcases List.mem_cons.1 ht' with rfl | ht'
          · exact .inl List.mem_cons_self
          · exact (h.tickets p hp t' ht').imp_left (List.mem_cons_of_mem _)
  | read x env =>
    have hread := ho.read x env
    rcases hres : p.read files x env with ⟨e | i, q⟩ <;>
      · rw [hres] at hread
        simp only [poolStep, hres]
        obtain ⟨hq, ht⟩ | ⟨hq, ht⟩ := hread
        exact accounted_idle hi (h.pool hp hq fun t htk => ht ▸ htk)
  | wait ticket =>
    dsimp only [poolStep]
    split
    · exact accounted_wait ho fun t ht => .inr (h.tickets p hp t ht)
    · exact hs
  | cancel ticket =>
    dsimp only [poolStep]
    split
    · obtain ⟨hq, ht⟩ := ho.cancel ticket
      exact accounted_idle hi (h.pool hp hq fun t htk => List.mem_of_mem_erase (ht ▸ htk))
    · exact hs
  | release index =>
    dsimp only [poolStep]
    split
    · rename_i hmem
      obtain ⟨hq, ht⟩ := ho.abortRead hmem
      exact accounted_idle hi (h.pool hp hq fun t htk => ht ▸ htk)
    · exact hs
  | h2d index event =>
    dsimp only [poolStep]
    split
    · rename_i hmem
      obtain ⟨hq, ht⟩ := ho.markH2d hmem event
      exact accounted_idle hi (h.pool hp hq fun t htk => ht ▸ htk)
    · exact hs

theorem accounted_ownerStep (hi : s.ctl = .idle) (h : Books files s.held s.own s.cache)
    (a : OwnerAct) : Accounted files (s.ownerStep files a) := by
  cases a with
  | dispatch id source submit read env => exact accounted_dispatchSource h source submit read env
  | prefetch id source keep submit env =>
    exact accounted_prefetchSource hi h source keep submit env
  | promote order keep =>
    dsimp only [ownerStep, promote]
    split
    · exact accounted_promoteFrom keep order s h
    · exact accounted_idle hi h
  | beginWorkerScope => exact accounted_idle hi (books_beginWorkerScope h)
  | admitBlock id bytes env => exact accounted_answered (h.same (samePool_admitBlock _ _ _ _))
  | prefetchBytes id bytes keep env =>
    exact accounted_idle hi (h.same (samePool_prefetchBytes _ _ _ _ _))
  | forceAdmit id bytes env => exact accounted_answered (h.same (samePool_forceAdmit _ _ _ _))
  | restage id source env => exact accounted_idle hi (h.same (samePool_restageBlock _ _ _ _))
  | prewarm layer nExpert sources envs =>
    exact accounted_idle hi (h.same (samePool_prewarmLayer _ _ _ _ _))
  | layerDevRow layer nExpert upload =>
    exact accounted_idle hi (h.same (samePool_layerDevRow _ _ _ _))
  | pool a =>
    dsimp only [ownerStep]
    split
    · exact accounted_idle hi h
    · rename_i p hp
      exact accounted_poolStep hi h hp a

/-- The condition: a dispatch whose read has completed finds a slot. -/
def Roomy (s : MoeSystem) (_ : MoeAct) : Prop :=
  ∀ i id x fallback env, s.ctl = .resumed (.ok i) (.dispatch id x fallback env) →
    s.cache.HasRoom x.len

theorem Accounted.books (h : Accounted files s) (hctl : s.ctl.ticket = none) :
    Books files s.holding s.own s.cache := by
  refine ⟨h.owned, fun p hp t ht => ?_⟩
  rcases h.tickets p hp t ht with hown | hread | hwait
  · exact .inl hown
  · exact .inr hread
  · rw [hctl] at hwait
    exact nomatch hwait

theorem step_accounted (s : MoeSystem) (a : MoeAct) (h : Accounted files s) (hok : s.Roomy a) :
    Accounted files (step files s a) := by
  cases a with
  | worker a =>
    dsimp only [step]
    split
    · exact h
    · rename_i p hp
      obtain ⟨hq, ht⟩ := (h.owned p hp).workerStep a
      refine ⟨fun p' hp' => ?_, fun p' hp' t htk => ?_, fun p' hp' t htk => ?_⟩
      · obtain rfl : p.workerStep files a = p' := Option.some.inj hp'
        exact hq
      · obtain rfl : p.workerStep files a = p' := Option.some.inj hp'
        exact h.tickets p hp t (ht ▸ htk)
      · obtain rfl : p.workerStep files a = p' := Option.some.inj hp'
        exact ht ▸ h.waiting p hp t htk
  | recv =>
    dsimp only [step]
    split
    · rename_i ticket k p hctl hp
      split
      · exact h
      · rename_i r hr
        have ho := h.owned p hp
        have hl : ticket ∈ p.tickets := h.waiting p hp ticket (by rw [hctl]; rfl)
        rw [holding, hctl] at ho
        refine accounted_waited (fun t ht => ?_) ho.tickets (ho.recv hl hr)
        rcases h.tickets p hp t ht with hown | hread | hwait
        · exact .inr (.inl hown)
        · exact .inr (.inr hread)
        · rw [hctl] at hwait
          exact .inl (Option.some.inj hwait).symm
    · exact h
  | resume =>
    dsimp only [step]
    split
    · rename_i read k hctl
      have hb := h.books (by rw [hctl]; rfl)
      cases k with
      | caller =>
        rw [holding, hctl] at hb
        cases read with
        | ok i => exact accounted_idle rfl hb
        | error e => exact accounted_idle rfl hb
      | dispatch id x fallback env =>
        refine accounted_dispatchRead x fallback env hctl hb fun i hi => ?_
        subst hi
        exact hok i id x fallback env hctl
      | promote id len slot env rest keep =>
        exact accounted_promoteRead len slot env rest keep hctl hb
    · exact h
  | owner a =>
    dsimp only [step]
    split
    · rename_i hctl
      have hb := h.books (by rw [hctl]; rfl)
      rw [holding, hctl] at hb
      exact accounted_ownerStep (s := { s with answer := none }) hctl hb a
    · exact h

end MoeSystem

/-! ## Buffer ownership -/

/-- What is promised of the pool of a system in a state. -/
structure PoolSafe (files : Files) (s : MoeSystem) (p : PreadPool) : Prop where
  /-- a buffer with a message about is the workers', has one message, and is not free or ready -/
  apart : ∀ t i, (t, i) ∈ p.inFlight → (p.buffers i).data = none ∧ p.mail i = {t} ∧
    ((p.buffers i).phase = .reading ∨ (p.buffers i).phase = .canceled)
  /-- `wait_worker`, before and after its receive, returns the bytes the ticket asked for -/
  exact_wait : ∀ t i p', p.wait t = (.got i, p') ∨
      s.ctl.ticket = some t ∧ p.recv t = some (.got i, p') →
    ∃ x, p.asked t = some x ∧ p'.bytes i x.len = .ok (files.extent x) ∧
      (files.extent x).length = x.len
  speculative : ∀ x env t p', p.submit .speculative x env = (.ok (some t), p') →
    ∃ i < p'.depth, (p'.buffers i).phase = .free
  /-- every buffer that is not free is accounted for -/
  accounted : ∀ i < p.depth, (p.buffers i).phase ≠ .free →
    (∃ t ∈ p.tickets, (p.buffers i).ticket = some t ∧ s.HasTicket t) ∨
    ((p.buffers i).phase = .canceled ∧ ∃ t, (t, i) ∈ p.inFlight) ∨
    ((p.buffers i).phase = .ready ∧ i ∈ s.holding) ∨ (p.buffers i).phase = .h2d
  fault : p.fault = false

open PinnedBuffer in
theorem MoeSystem.Accounted.poolSafe {files : Files} {s : MoeSystem} (h : Accounted files s)
    {p : PreadPool} (hp : s.cache.pread = some p) : PoolSafe files s p := by
  have ho := h.owned p hp
  refine ⟨fun t i hm => ?_, fun t i p' hw => ?_, fun x env t p' hsub => ?_, fun i hi hfree => ?_,
    ho.fault⟩
  · obtain ⟨-, -, hd, hph, hmail⟩ := ho.mail_ticket hm
    exact ⟨hd, hmail, hph⟩
  · have hwaited : Waited files s.holding p t (.got i, p') := by
      rcases hw with hw | ⟨hctl, hw⟩
      · have ht : t ∈ p.tickets := by
          by_contra hno
          rw [PreadPool.wait, if_neg hno] at hw
          cases (Prod.mk.inj hw).1
        exact hw ▸ ho.wait ht
      · exact ho.recv (h.waiting p hp t hctl) hw
    obtain ⟨-, -, hx, hb, hl⟩ := hwaited
    exact ⟨_, hx, hb, hl⟩
  · have hs := ho.submit .speculative x env
    rw [hsub] at hs
    obtain ⟨-, -, -, hfree⟩ := hs
    exact hfree rfl
  · have hok := ho.buffers i hi
    cases hph : (p.buffers i).phase with
    | free => exact absurd hph hfree
    | h2d => exact .inr (.inr (.inr rfl))
    | reading =>
      obtain ⟨-, -, t, ht, hl, -⟩ := (ok_reading hph).1 hok
      exact .inl ⟨t, hl, ht, h.tickets p hp t hl⟩
    | canceled =>
      obtain ⟨-, -, t, -, -, hmail⟩ := (ok_canceled hph).1 hok
      refine .inr (.inl ⟨rfl, t, PreadPool.mem_mail.1 ?_⟩)
      rw [hmail]
      exact Multiset.mem_singleton_self t
    | failed =>
      obtain ⟨-, -, -, t, ht, hl⟩ := (ok_failed hph).1 hok
      exact .inl ⟨t, hl, ht, h.tickets p hp t hl⟩
    | ready =>
      obtain ⟨-, d, -, ⟨hh, -⟩ | ⟨-, t, x, ht, hl, -, -⟩⟩ := (ok_ready hph).1 hok
      · exact .inr (.inr (.inl ⟨rfl, hh⟩))
      · exact .inl ⟨t, hl, ht, h.tickets p hp t hl⟩

open MoeSystem in
/-- **Buffer ownership.** In every run of the owner and the workers in which a dispatch whose read has
completed finds a slot, no buffer is lost, shared or handed out with other bytes. -/
theorem pool_accounted (files : Files) (plan : List (ℕ × ℕ))
    (sizeAware frequencyEvict copyH2d : Bool) (depth capacity : ℕ) (mode : SpillIoMode)
    (acts : List MoeAct)
    (h : Along (step files) Roomy
      (start plan sizeAware frequencyEvict copyH2d depth capacity mode) acts) :
    let s := run files (start plan sizeAware frequencyEvict copyH2d depth capacity mode) acts
    ∀ p, s.cache.pread = some p → PoolSafe files s p := by
  intro s p hp
  refine Accounted.poolSafe (h.invariant step_accounted ?_) hp
  refine accounted_idle rfl ⟨fun q hq => ?_, fun q hq t ht => ?_⟩
  · obtain rfl : PreadPool.new depth capacity mode = q := Option.some.inj hq
    exact PreadPool.new_owned files depth capacity mode
  · obtain rfl : PreadPool.new depth capacity mode = q := Option.some.inj hq
    exact absurd ht List.not_mem_nil

/-- A block on disk, of two bytes. -/
def onDisk : ExpertSource := .disk ⟨0, 1, 2⟩ [2, 3]

/-- A dispatch from disk, its read by a worker, and its end. -/
def diskDispatch : List MoeSystem.MoeAct :=
  [.owner (.dispatch gateBlock onDisk {} {} {}), .worker .take, .worker (.finish 0 .runs), .recv,
    .resume]

open MoeSystem in
/-- A dispatch from disk with a slot to go to. -/
theorem pool_accounted_dispatch :
    ∃ p, (run (fun _ => [1, 2, 3]) (start [(8, 8)] false false false 2 8 .worker)
      diskDispatch).cache.pread = some p ∧
      PoolSafe (fun _ => [1, 2, 3]) (run (fun _ => [1, 2, 3])
        (start [(8, 8)] false false false 2 8 .worker) diskDispatch) p := by
  refine ⟨_, rfl, pool_accounted (fun _ => [1, 2, 3]) [(8, 8)] false false false 2 8 .worker
    diskDispatch ⟨?_, ?_, ?_, ?_, ?_, trivial⟩ _ rfl⟩
  · rintro i id x fallback env ⟨⟩
  · rintro i id x fallback env ⟨⟩
  · rintro i id x fallback env ⟨⟩
  · rintro i id x fallback env ⟨⟩
  · rintro i id x fallback env ⟨⟩
    exact ⟨_, List.mem_cons_self, by decide, .inl (by decide)⟩

/-- Eight prefetches that fill eight slots with pending blocks. -/
def pendingSlots : List MoeSystem.MoeAct :=
  (List.range 8).map fun ex =>
    .owner (.prefetch { layer := 1, proj := 0, ex } (.memory [7]) [] {} {})

open MoeSystem in
/-- A completed read that finds every slot pending leaves its buffer ready for good. -/
theorem dispatch_loses_buffer :
    ¬ ∀ p, (run (fun _ => [1, 2, 3]) (start [(8, 8)] false false false 2 8 .worker)
      (pendingSlots ++ diskDispatch)).cache.pread = some p →
      PoolSafe (fun _ => [1, 2, 3]) (run (fun _ => [1, 2, 3])
        (start [(8, 8)] false false false 2 8 .worker) (pendingSlots ++ diskDispatch)) p := by
  intro h
  have hacc := (h _ rfl).accounted 0 (by decide) (by decide)
  rcases hacc with ⟨t, ht, -⟩ | ⟨hc, -⟩ | ⟨-, hh⟩ | hd
  · exact absurd (show t ∈ ([] : List ℕ) from ht) List.not_mem_nil
  · exact absurd hc (by decide)
  · exact absurd hh (by decide)
  · exact absurd hd (by decide)

end Memra
