import Memra.Engine.SpillPread
import Memra.Lib.FiniteMap
import Mathlib

/-!
# The expert slot cache

`MoeSlotCache` of `moe_cache.rs`: fixed device slots in size classes, each class with a free stack
and an SLRU of two segments; a table of resident blocks, the blocks whose copy is pending, the
occupant of each slot, resident counts and cached address rows by layer. A device copy is an
assignment of the staged bytes to the slot.

A segment is the list of its slots from LRU to MRU, the order of the source's `prev` and `next`
links; `seg` is the tag of a slot's link. An evicting operation takes the cumulative frequencies as
they are then (`freq`), and each staging how it goes (`StageOutcome`). `quarantined` and `staged` are
ghosts: the slots given up to an unprovable copy, and the bytes last staged for a block. Frequencies
are rationals; source owners, counters and log lines are left out.
-/

namespace Memra

open Lib

structure BlockId where
  layer : ℕ
  proj : ℕ
  ex : ℕ
  deriving DecidableEq

/-- The segment tag of a slot. -/
inductive SlruSeg where
  | none
  | probation
  | guarded
  deriving DecidableEq

/-- `SlotClass`; `guarded` is the protected segment. -/
structure SlotClass where
  capacity : ℕ
  probation : List ℕ := []
  guarded : List ℕ := []
  free : List ℕ
  guardedCap : ℕ

/-- `(count as f64 * 0.8) as usize`, at least one. -/
def guardedCapOf (count : ℕ) : ℕ := max (count * 4 / 5) 1

/-- A read submitted for a block (`WorkerRead`). -/
structure WorkerRead where
  ticket : ℕ
  len : ℕ
  deriving DecidableEq

/-- How a staging copy goes: done; an error, with the stream drained after it; an error that leaves the
copy's completion unproved. -/
inductive StageOutcome where
  | ok
  | failed (left : Bytes) (message : String)
  | unknown (left : Bytes) (message : String)

/-- `ExpertSource`. -/
inductive ExpertSource where
  | memory (bytes : Bytes)
  | disk (extent : Extent) (fallback : Bytes)

def ExpertSource.isDisk : ExpertSource → Bool
  | memory _ => false
  | disk .. => true

structure MoeSlotCache where
  n : ℕ
  slotClass : ℕ → ℕ
  classes : List SlotClass
  seg : ℕ → SlruSeg := fun _ => .none
  occupant : ℕ → Option BlockId := fun _ => none
  table : AList (fun _ : BlockId => ℕ) := ∅
  pending : AList (fun _ : BlockId => ℕ) := ∅
  perLayer : ℕ → ℕ := fun _ => 0
  devRows : AList (fun _ : ℕ => List ℕ) := ∅
  prewarmTried : List ℕ := []
  mem : ℕ → Bytes := fun _ => []
  workerReads : AList (fun _ : BlockId => WorkerRead) := ∅
  pread : Option PreadPool := none
  sizeAware : Bool := false
  frequencyEvict : Bool := false
  copyH2d : Bool := false
  quarantined : List ℕ := []
  staged : BlockId → Option Bytes := fun _ => none

/-- The cumulative frequencies an eviction reads. -/
abbrev Freq := BlockId → ℚ

namespace MoeSlotCache

/-- The classes of a plan of capacities and counts, with slots numbered from `start` on. -/
def classesOf : ℕ → List (ℕ × ℕ) → List SlotClass
  | _, [] => []
  | start, (capacity, count) :: plan =>
    { capacity, free := (List.range' start count).reverse, guardedCap := guardedCapOf count } ::
      classesOf (start + count) plan

/-- The class of a slot under a plan. -/
def slotClassOf : List (ℕ × ℕ) → ℕ → ℕ
  | [], _ => 0
  | (_, count) :: plan, slot => if slot < count then 0 else slotClassOf plan (slot - count) + 1

/-- `new` with a class plan; `pread` is the pool it could build. -/
def new (plan : List (ℕ × ℕ)) (sizeAware frequencyEvict copyH2d : Bool)
    (pread : Option PreadPool) : MoeSlotCache :=
  { n := (plan.map Prod.snd).sum
    slotClass := slotClassOf plan
    classes := classesOf 0 plan
    sizeAware, frequencyEvict, copyH2d, pread }

/-! ## Segments -/

def setClass (c : MoeSlotCache) (k : ℕ) (cl : SlotClass) : MoeSlotCache :=
  { c with classes := c.classes.set k cl }

def setSeg (c : MoeSlotCache) (slot : ℕ) (t : SlruSeg) : MoeSlotCache :=
  { c with seg := Function.update c.seg slot t }

/-- `push_back` on the probation segment of class `k`. -/
def pushProbation (c : MoeSlotCache) (k slot : ℕ) : MoeSlotCache :=
  match c.classes[k]? with
  | none => c
  | some cl => (c.setClass k { cl with probation := cl.probation ++ [slot] }).setSeg slot .probation

/-- `unlink_from_segment`. -/
def unlinkFromSegment (c : MoeSlotCache) (k slot : ℕ) : MoeSlotCache :=
  match c.classes[k]?, c.seg slot with
  | some cl, .probation =>
    (c.setClass k { cl with probation := cl.probation.erase slot }).setSeg slot .none
  | some cl, .guarded =>
    (c.setClass k { cl with guarded := cl.guarded.erase slot }).setSeg slot .none
  | _, _ => c

/-- The demotion loop of `push_protected`: the protected front goes to the probation back while the
protected segment is over its cap. -/
def demote (cap : ℕ) : List ℕ → List ℕ → (ℕ → SlruSeg) → List ℕ × List ℕ × (ℕ → SlruSeg)
  | probation, [], seg => (probation, [], seg)
  | probation, s :: rest, seg =>
    if cap < (s :: rest).length then
      demote cap (probation ++ [s]) rest (Function.update seg s .probation)
    else (probation, s :: rest, seg)

/-- `push_protected` of class `k`. -/
def pushGuarded (c : MoeSlotCache) (k slot : ℕ) : MoeSlotCache :=
  match c.classes[k]? with
  | none => c
  | some cl =>
    let (probation, guarded, seg) := demote cl.guardedCap cl.probation (cl.guarded ++ [slot])
      (Function.update c.seg slot .guarded)
    { c.setClass k { cl with probation, guarded } with seg }

/-- `on_hit_full`. -/
def onHitFull (c : MoeSlotCache) (k slot : ℕ) : MoeSlotCache :=
  match c.seg slot with
  | .probation => (c.unlinkFromSegment k slot).pushGuarded k slot
  | .guarded =>
    let c := c.unlinkFromSegment k slot
    match c.classes[k]? with
    | none => c
    | some cl => (c.setClass k { cl with guarded := cl.guarded ++ [slot] }).setSeg slot .guarded
  | .none => c.pushGuarded k slot

/-- `on_hit`: recency is dead state while the class has free slots. -/
def onHit (c : MoeSlotCache) (slot : ℕ) : MoeSlotCache :=
  match c.classes[c.slotClass slot]? with
  | none => c
  | some cl => if cl.free ≠ [] then c else c.onHitFull (c.slotClass slot) slot

/-! ## Eviction and reservation -/

/-- `on_block_evicted`. -/
def onBlockEvicted (c : MoeSlotCache) (layer : ℕ) : MoeSlotCache :=
  { c with
    perLayer := Function.update c.perLayer layer (c.perLayer layer - 1)
    devRows := c.devRows.erase layer }

/-- `remove_occupant`. -/
def removeOccupant (c : MoeSlotCache) (slot : ℕ) : MoeSlotCache :=
  match c.occupant slot with
  | none => c
  | some old =>
    { c with
      occupant := Function.update c.occupant slot none
      table := c.table.erase old }.onBlockEvicted old.layer

/-- The slots of a class from LRU to MRU, probation first. -/
def SlotClass.order (cl : SlotClass) : List ℕ := cl.probation ++ cl.guarded

/-- `frequency_victim_in_class`: the least frequent block not kept, the least recent of those. -/
def frequencyVictim (c : MoeSlotCache) (cl : SlotClass) (keep : List BlockId) (freq : Freq) :
    Option ℕ :=
  let candidates := (SlotClass.order cl).zipIdx.filterMap fun v =>
    (c.occupant v.1).bind fun id => if id ∈ keep then none else some (toLex (freq id, v.2), v.1)
  (candidates.argmin Prod.fst).map Prod.snd

/-- The victim `evict_one` takes from a class. -/
def victim (c : MoeSlotCache) (cl : SlotClass) (freq : Freq) : Option ℕ :=
  if c.frequencyEvict then c.frequencyVictim cl [] freq else (SlotClass.order cl).head?

/-- The victim `evict_one_excluding` takes from a class. -/
def victimExcluding (c : MoeSlotCache) (keep : List BlockId) (cl : SlotClass) (freq : Freq) :
    Option ℕ :=
  if c.frequencyEvict then c.frequencyVictim cl keep freq
  else (SlotClass.order cl).find? fun s => (c.occupant s).any (· ∉ keep)

/-- The loop of both: the first class from `k` on with room for `required` bytes and a victim. -/
def evictFrom (c : MoeSlotCache) (required : ℕ) (pick : SlotClass → Option ℕ) :
    ℕ → List SlotClass → Option (ℕ × MoeSlotCache)
  | _, [] => none
  | k, cl :: rest =>
    if cl.capacity < required then c.evictFrom required pick (k + 1) rest
    else
      match pick cl with
      | some slot => some (slot, (c.unlinkFromSegment k slot).removeOccupant slot)
      | none => c.evictFrom required pick (k + 1) rest

/-- The free slot both reservations try first: the top of the first class with room. -/
def popFree (c : MoeSlotCache) (required : ℕ) : ℕ → List SlotClass → Option (ℕ × MoeSlotCache)
  | _, [] => none
  | k, cl :: rest =>
    if required ≤ cl.capacity then
      match cl.free.getLast? with
      | some slot => some (slot, c.setClass k { cl with free := cl.free.dropLast })
      | none => c.popFree required (k + 1) rest
    else c.popFree required (k + 1) rest

/-- `reserve_slot`. -/
def reserveSlot (c : MoeSlotCache) (required : ℕ) (freq : Freq) : Option (ℕ × MoeSlotCache) :=
  (c.popFree required 0 c.classes).orElse fun _ =>
    c.evictFrom required (c.victim · freq) 0 c.classes

/-- `reserve_prefetch_slot`. -/
def reservePrefetchSlot (c : MoeSlotCache) (required : ℕ) (keep : List BlockId) (freq : Freq) :
    Option (ℕ × MoeSlotCache) :=
  (c.popFree required 0 c.classes).orElse fun _ =>
    c.evictFrom required (c.victimExcluding keep · freq) 0 c.classes

/-- `release_reserved_slot`. -/
def releaseReservedSlot (c : MoeSlotCache) (slot : ℕ) : MoeSlotCache :=
  match c.classes[c.slotClass slot]? with
  | none => c
  | some cl => c.setClass (c.slotClass slot) { cl with free := cl.free ++ [slot] }

/-- `publish`. -/
def publish (c : MoeSlotCache) (id : BlockId) (slot : ℕ) : MoeSlotCache :=
  let c := { c with
    occupant := Function.update c.occupant slot (some id)
    table := c.table.insert id slot }
  let c := c.pushProbation (c.slotClass slot) slot
  { c with perLayer := Function.update c.perLayer id.layer (c.perLayer id.layer + 1) }

/-- A reserved slot waits for its copy: `occupant` and `pending`. -/
def hold (c : MoeSlotCache) (id : BlockId) (slot : ℕ) : MoeSlotCache :=
  { c with
    occupant := Function.update c.occupant slot (some id)
    pending := c.pending.insert id slot }

/-- A copy of the bytes of block `id` into a slot. -/
def stage (c : MoeSlotCache) (id : BlockId) (slot : ℕ) (bytes : Bytes) : MoeSlotCache :=
  { c with
    mem := Function.update c.mem slot bytes
    staged := Function.update c.staged id (some bytes) }

/-- A copy into a slot that failed on the way. -/
def spoil (c : MoeSlotCache) (slot : ℕ) (left : Bytes) : MoeSlotCache :=
  { c with mem := Function.update c.mem slot left }

/-- A slot whose copy cannot be proved complete stays outside every structure. -/
def quarantine (c : MoeSlotCache) (slot : ℕ) : MoeSlotCache :=
  { c with quarantined := slot :: c.quarantined }

def noSlotError (c : MoeSlotCache) (len : ℕ) : String :=
  let cap := (c.classes.getLast?.map SlotClass.capacity).getD 0
  s!"no MoE cache slot can hold {len} bytes (max class {cap})"

/-! ## Operations that stage from memory -/

/-- What an operation meets on the device. -/
structure DeviceEnv where
  freq : Freq := fun _ => 0
  /-- the staging of `admit` -/
  admitStage : StageOutcome := .ok
  /-- the staging of a completed read, or of a prefetch -/
  stage : StageOutcome := .ok
  computeWait : Option String := none

/-- `admit`. -/
def admitBlock (c : MoeSlotCache) (id : BlockId) (bytes : Bytes) (env : DeviceEnv) :
    Except String ℕ × MoeSlotCache :=
  match c.reserveSlot bytes.length env.freq with
  | none => (.error (c.noSlotError bytes.length), c)
  | some (slot, c) =>
    match env.admitStage with
    | .ok => (.ok slot, (c.stage id slot bytes).publish id slot)
    | .failed left message => (.error message, (c.spoil slot left).releaseReservedSlot slot)
    | .unknown left message => (.error message, (c.spoil slot left).quarantine slot)

/-- `prefetch_bytes`. -/
def prefetchBytes (c : MoeSlotCache) (id : BlockId) (bytes : Bytes) (keep : List BlockId)
    (env : DeviceEnv) : Except String Bool × MoeSlotCache :=
  match c.reservePrefetchSlot bytes.length keep env.freq with
  | none => (.ok false, c)
  | some (slot, c) =>
    match env.stage with
    | .ok => (.ok true, (c.stage id slot bytes).hold id slot)
    | .failed left message => (.error message, (c.spoil slot left).releaseReservedSlot slot)
    | .unknown left message => (.error message, (c.spoil slot left).quarantine slot)

/-- `force_admit`. -/
def forceAdmit (c : MoeSlotCache) (id : BlockId) (bytes : Bytes) (env : DeviceEnv) :
    Except String ℕ × MoeSlotCache :=
  match c.table.lookup id with
  | some s => (.ok s, c)
  | none => c.admitBlock id bytes env

/-- The bytes `restage_block` and `prewarm_layer` stage: those in memory or the mapped fallback. -/
def sourceBytes : ExpertSource → Bytes
  | .memory bytes => bytes
  | .disk _ fallback => fallback

/-- `restage_block`; `source` is the block's source, `none` where the profile's block no longer
resolves. -/
def restageBlock (c : MoeSlotCache) (id : BlockId) (source : Option ExpertSource)
    (env : DeviceEnv) : Except String Bool × MoeSlotCache :=
  if (c.table.lookup id).isSome then (.ok true, c)
  else
    match source with
    | none => (.ok false, c)
    | some source =>
      match c.admitBlock id (sourceBytes source) env with
      | (.ok _, c) => (.ok true, c)
      | (.error e, c) => (.error e, c)

/-- The blocks of a layer in the order of `prewarm_layer`. -/
def layerBlocks (layer nExpert : ℕ) : List BlockId :=
  (List.range nExpert).flatMap fun ex => (List.range 3).map fun proj => { layer, proj, ex }

/-- The experts of a layer. -/
abbrev LayerSources := BlockId → ExpertSource

/-- The admission loop of `prewarm_layer`. -/
def prewarmBlocks (sources : LayerSources) (envs : BlockId → DeviceEnv) :
    MoeSlotCache → List BlockId → Except String Unit × MoeSlotCache
  | c, [] => (.ok (), c)
  | c, id :: rest =>
    if (c.table.lookup id).isSome then prewarmBlocks sources envs c rest
    else
      match c.admitBlock id (sourceBytes (sources id)) (envs id) with
      | (.ok _, c) => prewarmBlocks sources envs c rest
      | (.error e, c) => (.error e, c)

/-- Whether `prewarm_layer` goes on to admit. `3 * n_expert - resident` wraps below zero. -/
def prewarms (c : MoeSlotCache) (layer nExpert : ℕ) (sources : LayerSources) : Bool :=
  layer ∉ c.prewarmTried &&
    !(c.pread.isSome && (layerBlocks layer nExpert).any fun id => (sources id).isDisk) &&
    !c.sizeAware &&
    decide (c.perLayer layer ≤ 3 * nExpert ∧
      3 * nExpert - c.perLayer layer ≤ (c.classes.map fun cl => cl.free.length).sum)

/-- `prewarm_layer`. -/
def prewarmLayer (c : MoeSlotCache) (layer nExpert : ℕ) (sources : LayerSources)
    (envs : BlockId → DeviceEnv) : Except String Unit × MoeSlotCache :=
  let goes := c.prewarms layer nExpert sources
  let c := { c with prewarmTried := layer :: c.prewarmTried }
  if goes then prewarmBlocks sources envs c (layerBlocks layer nExpert) else (.ok (), c)

/-- The row of slot addresses of a layer, projection by projection. -/
def addressRow (c : MoeSlotCache) (layer nExpert : ℕ) : Option (List ℕ) :=
  ((List.range 3).flatMap fun proj => (List.range nExpert).map fun ex =>
    c.table.lookup { layer, proj, ex }).allSome

/-- `layer_dev_row`; `upload` is an error of the row's copy. -/
def layerDevRow (c : MoeSlotCache) (layer nExpert : ℕ) (upload : Option String) :
    Except String (Option (List ℕ)) × MoeSlotCache :=
  if c.perLayer layer ≠ 3 * nExpert then (.ok none, c)
  else
    match c.devRows.lookup layer with
    | some row => (.ok (some row), c)
    | none =>
      match c.addressRow layer nExpert with
      | none => (.ok none, c)
      | some row =>
        match upload with
        | some e => (.error e, c)
        | none => (.ok (some row), { c with devRows := c.devRows.insert layer row })

end MoeSlotCache

end Memra
