import Memra.Engine.MoeCache

/-!
# Dispatch of expert blocks

The operations of `MoeSlotCache` that read from disk, and the owner thread they run on. An operation
runs up to the blocking receive of `wait_worker` and goes on when the read has come back: `Cont` is
what is left of it, `MoeSystem.ctl` where the owner is. The disk workers step at any time.

`own` and `held` are the tickets and the buffers of an owner that uses the pool by itself. `answer` is
what the last `dispatch_source` or `force_admit` returned.
-/

namespace Memra

open Lib
open PreadPool (SubmitEnv ReadEnv WaitResult)
open MoeSlotCache (DeviceEnv)

/-- What the owner goes on with when its read has come back. -/
inductive Cont where
  /-- the pool's own caller -/
  | caller
  /-- `dispatch_disk` -/
  | dispatch (id : BlockId) (x : Extent) (fallback : Bytes) (env : DeviceEnv)
  /-- `promote_worker_reads_at_safe_boundary`, at a block with its slot reserved -/
  | promote (id : BlockId) (len slot : ℕ) (env : DeviceEnv) (rest : List (BlockId × DeviceEnv))
      (keep : List BlockId)

inductive Ctl where
  | idle
  /-- in the receive of `wait_worker` -/
  | waiting (ticket : ℕ) (k : Cont)
  /-- past `wait_worker` or `read` -/
  | resumed (read : Except String ℕ) (k : Cont)

structure MoeSystem where
  cache : MoeSlotCache
  ctl : Ctl := .idle
  own : List ℕ := []
  held : List ℕ := []
  answer : Option (Except String (BlockId × ℕ)) := none

namespace MoeSystem

/-- The system of a new cache with a pool of its own. -/
def start (plan : List (ℕ × ℕ)) (sizeAware frequencyEvict copyH2d : Bool) (depth capacity : ℕ)
    (mode : SpillIoMode) : MoeSystem :=
  { cache := MoeSlotCache.new plan sizeAware frequencyEvict copyH2d
      (some (PreadPool.new depth capacity mode)) }

def withPool (s : MoeSystem) (p : PreadPool) : MoeSystem :=
  { s with cache := { s.cache with pread := some p } }

/-- The end of a dispatch or `force_admit` of block `id`. -/
def answered (s : MoeSystem) (id : BlockId) (r : Except String ℕ × MoeSlotCache) : MoeSystem :=
  { s with cache := r.2, ctl := .idle, answer := some (r.1.map fun slot => (id, slot)) }

/-- The owner after `wait_worker` has looked at the ticket's buffer. A failed wait of a dispatch or a
promotion is cancelled on the spot. -/
def waited (s : MoeSystem) (ticket : ℕ) (k : Cont) : WaitResult × PreadPool → MoeSystem
  | (.block, p) => { s.withPool p with ctl := .waiting ticket k }
  | (.got index, p) => { s.withPool p with ctl := .resumed (.ok index) k }
  | (.err message, p) =>
    { s.withPool (match k with | .caller => p | _ => (p.cancelWorker ticket).2) with
      ctl := .resumed (.error message) k }

/-! ## Dispatch -/

/-- `dispatch_disk` up to the end of its read. -/
def dispatchDisk (files : Files) (s : MoeSystem) (id : BlockId) (x : Extent) (fallback : Bytes)
    (submit : SubmitEnv) (read : ReadEnv) (env : DeviceEnv) : MoeSystem :=
  match s.cache.pread with
  | none => s.answered id (s.cache.admitBlock id fallback env)
  | some p =>
    let k := Cont.dispatch id x fallback env
    if p.mode.isWorker then
      let ticket : Except String (Option ℕ) × PreadPool :=
        match s.cache.workerReads.lookup id with
        | some r => (.ok (some r.ticket), p)
        | none => p.submit .demand x submit
      let s := { s with cache := { s.cache with workerReads := s.cache.workerReads.erase id } }
      match ticket with
      | (.ok (some ticket), p) => s.waited ticket k (p.wait ticket)
      | (.ok none, p) =>
        { s.withPool p with ctl := .resumed (.error "worker read ring is busy") k }
      | (.error e, p) => { s.withPool p with ctl := .resumed (.error e) k }
    else
      let s := { s with cache := { s.cache with workerReads := s.cache.workerReads.erase id } }
      let (index, p) := p.read files x read
      { s.withPool p with ctl := .resumed index k }

/-- `dispatch_disk` from the end of its read on. -/
def dispatchRead (s : MoeSystem) (id : BlockId) (x : Extent) (fallback : Bytes) (env : DeviceEnv) :
    Except String ℕ → MoeSystem
  | .error _ => s.answered id (s.cache.admitBlock id fallback env)
  | .ok index =>
    match s.cache.pread, s.cache.reserveSlot x.len env.freq with
    | none, _ => { s with ctl := .idle }
    -- the early return: the buffer of the completed read stays ready
    | some _, none => s.answered id (.error (s.cache.noSlotError x.len), s.cache)
    | some p, some (slot, c) =>
      match p.bytes index x.len with
      | .error _ =>
        let c := { c with pread := some (p.abortRead index) }.releaseReservedSlot slot
        s.answered id (c.admitBlock id fallback env)
      | .ok bytes =>
        match env.stage with
        | .ok =>
          let c := { c with pread := some (p.markH2d index true) }
          s.answered id (.ok slot, (c.stage id slot bytes).publish id slot)
        | .failed left _ =>
          let c := { c.spoil slot left with
            pread := some (p.abortRead index) }.releaseReservedSlot slot
          s.answered id (c.admitBlock id fallback env)
        | .unknown left message =>
          let c := { c.spoil slot left with pread := some (p.markH2d index false) }
          s.answered id (.error message, c.quarantine slot)

/-- `dispatch_source`. -/
def dispatchSource (files : Files) (s : MoeSystem) (id : BlockId) (source : ExpertSource)
    (submit : SubmitEnv) (read : ReadEnv) (env : DeviceEnv) : MoeSystem :=
  match s.cache.table.lookup id with
  | some slot => s.answered id (.ok slot, s.cache.onHit slot)
  | none =>
    match s.cache.pending.lookup id with
    | some slot =>
      match env.computeWait with
      | some e => s.answered id (.error e, s.cache)
      | none =>
        let c := { s.cache with pending := s.cache.pending.erase id }
        s.answered id (.ok slot, c.publish id slot)
    | none =>
      match source with
      | .memory bytes => s.answered id (s.cache.admitBlock id bytes env)
      | .disk x fallback => s.dispatchDisk files id x fallback submit read env

/-! ## Lookahead -/

/-- `prefetch_source`. -/
def prefetchSource (s : MoeSystem) (id : BlockId) (source : ExpertSource) (keep : List BlockId)
    (submit : SubmitEnv) (env : DeviceEnv) : MoeSystem :=
  let c := s.cache
  if (c.table.lookup id).isSome || (c.pending.lookup id).isSome ||
      (c.workerReads.lookup id).isSome then s
  else
    match source with
    | .memory bytes => { s with cache := (c.prefetchBytes id bytes keep env).2 }
    | .disk x fallback =>
      match c.pread with
      | none => { s with cache := (c.prefetchBytes id fallback keep env).2 }
      | some p =>
        if p.mode.isWorker then
          match p.submit .speculative x submit with
          | (.ok (some ticket), p) =>
            { s with cache := { c with
                pread := some p
                workerReads := c.workerReads.insert id { ticket, len := x.len } } }
          | (_, p) => s.withPool p
        else s

/-- A submitted read that is no longer wanted: out of `worker_reads` and cancelled. -/
def dropRead (c : MoeSlotCache) (id : BlockId) : MoeSlotCache :=
  match c.workerReads.lookup id with
  | none => c
  | some r =>
    { c with
      workerReads := c.workerReads.erase id
      pread := c.pread.map fun p => (p.cancelWorker r.ticket).2 }

/-- `begin_worker_scope`. -/
def beginWorkerScope (c : MoeSlotCache) : MoeSlotCache :=
  let tickets := c.workerReads.entries.map fun e => e.2.ticket
  { c with
    workerReads := ∅
    pread := c.pread.map fun p =>
      if p.mode.isWorker then tickets.foldl (fun p t => (p.cancelWorker t).2) p else p }

/-- The loop of `promote_worker_reads_at_safe_boundary` up to its next read that has to be waited
for. -/
def promoteFrom (keep : List BlockId) : MoeSystem → List (BlockId × DeviceEnv) → MoeSystem
  | s, [] => { s with ctl := .idle }
  | s, (id, env) :: rest =>
    let c := s.cache
    if (c.table.lookup id).isSome || (c.pending.lookup id).isSome then
      promoteFrom keep { s with cache := dropRead c id } rest
    else
      match c.workerReads.lookup id with
      | none => promoteFrom keep s rest
      | some r =>
        match c.reservePrefetchSlot r.len keep env.freq, c.pread with
        | none, _ => promoteFrom keep s rest
        | some _, none => { s with ctl := .idle }
        | some (slot, c), some p =>
          let s := { s with cache := { c with workerReads := c.workerReads.erase id } }
          s.waited r.ticket (.promote id r.len slot env rest keep) (p.wait r.ticket)

/-- `promote_worker_reads_at_safe_boundary`. -/
def promote (s : MoeSystem) (order : List (BlockId × DeviceEnv)) (keep : List BlockId) : MoeSystem :=
  if s.cache.copyH2d then promoteFrom keep s order else s

/-- The body of the loop from the end of the wait on, and the rest of the loop. -/
def promoteRead (s : MoeSystem) (id : BlockId) (len slot : ℕ) (env : DeviceEnv)
    (rest : List (BlockId × DeviceEnv)) (keep : List BlockId) : Except String ℕ → MoeSystem
  | .error _ => promoteFrom keep { s with cache := s.cache.releaseReservedSlot slot } rest
  | .ok index =>
    let c := s.cache
    match c.pread with
    | none => { s with ctl := .idle }
    | some p =>
      match p.bytes index len with
      | .error _ =>
        let c := { c with pread := some (p.abortRead index) }
        promoteFrom keep { s with cache := c.releaseReservedSlot slot } rest
      | .ok bytes =>
        match env.stage with
        | .ok =>
          let c := { c with pread := some (p.markH2d index true) }
          promoteFrom keep { s with cache := (c.stage id slot bytes).hold id slot } rest
        | .failed left _ =>
          let c := { c.spoil slot left with pread := some (p.abortRead index) }
          promoteFrom keep { s with cache := c.releaseReservedSlot slot } rest
        | .unknown left _ =>
          let c := { c.spoil slot left with pread := some (p.markH2d index false) }
          { s with cache := c.quarantine slot, ctl := .idle }

/-! ## The pool's own caller -/

/-- The caller's use of the pool. -/
inductive PoolAct where
  | submit (admission : WorkerAdmission) (x : Extent) (env : SubmitEnv)
  | read (x : Extent) (env : ReadEnv)
  | wait (ticket : ℕ)
  | cancel (ticket : ℕ)
  | release (index : ℕ)
  | h2d (index : ℕ) (event : Bool)

/-- The caller waits for and cancels its own tickets, and gives back the buffers it holds. -/
def poolStep (files : Files) (s : MoeSystem) (p : PreadPool) : PoolAct → MoeSystem
  | .submit admission x env =>
    match p.submit admission x env with
    | (.ok (some ticket), p) => { s.withPool p with own := ticket :: s.own }
    | (_, p) => s.withPool p
  | .read x env =>
    match p.read files x env with
    | (.ok index, p) => { s.withPool p with held := index :: s.held }
    | (.error _, p) => s.withPool p
  | .wait ticket => if ticket ∈ s.own then s.waited ticket .caller (p.wait ticket) else s
  | .cancel ticket => if ticket ∈ s.own then s.withPool (p.cancelWorker ticket).2 else s
  | .release index =>
    if index ∈ s.held then { s.withPool (p.abortRead index) with held := s.held.erase index } else s
  | .h2d index event =>
    if index ∈ s.held then
      { s.withPool (p.markH2d index event) with held := s.held.erase index }
    else s

/-! ## Steps -/

/-- What the owner thread starts when it is idle. -/
inductive OwnerAct where
  | dispatch (id : BlockId) (source : ExpertSource) (submit : SubmitEnv) (read : ReadEnv)
      (env : DeviceEnv)
  | prefetch (id : BlockId) (source : ExpertSource) (keep : List BlockId) (submit : SubmitEnv)
      (env : DeviceEnv)
  | promote (order : List (BlockId × DeviceEnv)) (keep : List BlockId)
  | beginWorkerScope
  | admitBlock (id : BlockId) (bytes : Bytes) (env : DeviceEnv)
  | prefetchBytes (id : BlockId) (bytes : Bytes) (keep : List BlockId) (env : DeviceEnv)
  | forceAdmit (id : BlockId) (bytes : Bytes) (env : DeviceEnv)
  | restage (id : BlockId) (source : Option ExpertSource) (env : DeviceEnv)
  | prewarm (layer nExpert : ℕ) (sources : MoeSlotCache.LayerSources) (envs : BlockId → DeviceEnv)
  | layerDevRow (layer nExpert : ℕ) (upload : Option String)
  | pool (a : PoolAct)

inductive MoeAct where
  | worker (a : WorkerAct)
  | recv
  | resume
  | owner (a : OwnerAct)

/-- One operation of an idle owner. -/
def ownerStep (files : Files) (s : MoeSystem) : OwnerAct → MoeSystem
  | .dispatch id source submit read env => s.dispatchSource files id source submit read env
  | .prefetch id source keep submit env => s.prefetchSource id source keep submit env
  | .promote order keep => s.promote order keep
  | .beginWorkerScope => { s with cache := MoeSystem.beginWorkerScope s.cache }
  | .admitBlock id bytes env => s.answered id (s.cache.admitBlock id bytes env)
  | .prefetchBytes id bytes keep env => { s with cache := (s.cache.prefetchBytes id bytes keep env).2 }
  | .forceAdmit id bytes env => s.answered id (s.cache.forceAdmit id bytes env)
  | .restage id source env => { s with cache := (s.cache.restageBlock id source env).2 }
  | .prewarm layer nExpert sources envs =>
    { s with cache := (s.cache.prewarmLayer layer nExpert sources envs).2 }
  | .layerDevRow layer nExpert upload =>
    { s with cache := (s.cache.layerDevRow layer nExpert upload).2 }
  | .pool a =>
    match s.cache.pread with
    | none => s
    | some p => s.poolStep files p a

/-- The owner past its read. -/
def resume (s : MoeSystem) (read : Except String ℕ) : Cont → MoeSystem
  | .caller =>
    { s with
      ctl := .idle
      held := match read with | .ok index => index :: s.held | .error _ => s.held }
  | .dispatch id x fallback env => s.dispatchRead id x fallback env read
  | .promote id len slot env rest keep => s.promoteRead id len slot env rest keep read

/-- One step of the owner or of a worker. -/
def step (files : Files) (s : MoeSystem) : MoeAct → MoeSystem
  | .worker a =>
    match s.cache.pread with
    | none => s
    | some p => s.withPool (p.workerStep files a)
  | .recv =>
    match s.ctl, s.cache.pread with
    | .waiting ticket k, some p =>
      match p.recv ticket with
      | none => s
      | some r => s.waited ticket k r
    | _, _ => s
  | .resume =>
    match s.ctl with
    | .resumed read k => s.resume read k
    | _ => s
  | .owner a =>
    match s.ctl with
    | .idle => { s with answer := none }.ownerStep files a
    | _ => s

/-- A run of steps. -/
def run (files : Files) (s : MoeSystem) (acts : List MoeAct) : MoeSystem :=
  acts.foldl (step files) s

end MoeSystem

end Memra
