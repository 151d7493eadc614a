import Memra.Engine.MoeCache
import Memra.Lib.LinkSeg

/-!
# The intrusive SLRU lists

`SlruList` and `SlotClass` of `moe_cache.rs`, on the arena of links that all size classes share, next to
`OldSlru`, the two plain queues that the tests of the source take for reference. An absent index is the
source's `NIL`. An operation names its size class or a slot, whose class `slotClass` tells; an evicting one
answers with its victim. `none` is a list whose iteration does not end within its counted length.
-/

namespace Memra

namespace Slru

open Function

/-! ## The linked lists -/

/-- `SlotLink`; the default is `SlotLink::none()`. -/
structure SlotLink where
  prev : Option ℕ := none
  next : Option ℕ := none
  seg : SlruSeg := .none

abbrev Links := ℕ → SlotLink

/-- `links[o].next = v` if there is a slot. -/
def setNext (links : Links) (o v : Option ℕ) : Links :=
  match o with
  | some t => update links t { links t with next := v }
  | none => links

/-- `links[o].prev = v` if there is a slot. -/
def setPrev (links : Links) (o v : Option ℕ) : Links :=
  match o with
  | some t => update links t { links t with prev := v }
  | none => links

structure SlruList where
  head : Option ℕ := none
  tail : Option ℕ := none
  len : ℕ := 0

namespace SlruList

variable (q : SlruList) (slot : ℕ) (links : Links)

/-- `push_back`. -/
def pushBack (seg : SlruSeg) : SlruList × Links :=
  let links := update links slot { prev := q.tail, next := none, seg }
  let links := setNext links q.tail (some slot)
  let head := if q.tail.isSome then q.head else some slot
  ({ head, tail := some slot, len := q.len + 1 }, links)

/-- `unlink`. -/
def unlink : SlruList × Links :=
  let l := links slot
  let links := setNext links l.prev l.next
  let head := if l.prev.isSome then q.head else l.next
  let links := setPrev links l.next l.prev
  let tail := if l.next.isSome then q.tail else l.prev
  ({ head, tail, len := q.len - 1 }, update links slot {})

/-- `pop_front`. -/
def popFront : Option ℕ × SlruList × Links :=
  match q.head with
  | none => (none, q, links)
  | some s => (some s, q.unlink s links)

/-- `iter`, from LRU to MRU. -/
def iter : Option (List ℕ) := Lib.walk (fun s => (links s).next) q.len q.head

/-- `take` of `evict_one_excluding`: the first slot that is not banned. -/
def take (banned : ℕ → Bool) : Option (Option ℕ × SlruList × Links) := do
  match (← q.iter links).find? (!banned ·) with
  | none => some (none, q, links)
  | some s => some (some s, q.unlink s links)

end SlruList

/-- `SlotClass`: its two segments; `guarded` is the protected one. -/
structure SlotClass where
  probation : SlruList := {}
  guarded : SlruList := {}
  guardedCap : ℕ

/-- The least score in the order of the list, ties to the first; slots without a score are passed over. -/
def leastScore (score : ℕ → Option ℚ) (order : List ℕ) : Option ℕ :=
  let candidates := order.zipIdx.filterMap fun v => (score v.1).map fun q => (toLex (q, v.2), v.1)
  (candidates.argmin Prod.fst).map Prod.snd

namespace SlotClass

variable (cl : SlotClass) (slot : ℕ) (links : Links)

/-- At most `n` passes of the loop of `push_protected`. -/
def demote : ℕ → SlotClass → Links → SlotClass × Links
  | 0, cl, links => (cl, links)
  | n + 1, cl, links =>
    if cl.guardedCap < cl.guarded.len then
      match cl.guarded.popFront links with
      | (some demoted, guarded, links) =>
        let (probation, links) := cl.probation.pushBack demoted links .probation
        demote n { cl with probation, guarded } links
      | (none, guarded, links) => ({ cl with guarded }, links)
    else (cl, links)

/-- `push_protected`: a pass of the loop takes one slot away, so it ends within the length. -/
def pushProtected : SlotClass × Links :=
  let (guarded, links) := cl.guarded.pushBack slot links .guarded
  demote guarded.len { cl with guarded } links

/-- `on_hit_full`. -/
def onHitFull : SlotClass × Links :=
  match (links slot).seg with
  | .probation =>
    let (probation, links) := cl.probation.unlink slot links
    { cl with probation }.pushProtected slot links
  | .guarded =>
    let (guarded, links) := cl.guarded.unlink slot links
    let (guarded, links) := guarded.pushBack slot links .guarded
    ({ cl with guarded }, links)
  | .none => cl.pushProtected slot links

/-- `pop_lru`. -/
def popLru : Option ℕ × SlotClass × Links :=
  match cl.probation.popFront links with
  | (some s, probation, links) => (some s, { cl with probation }, links)
  | (none, probation, links) =>
    let (victim, guarded, links) := cl.guarded.popFront links
    (victim, { cl with probation, guarded }, links)

/-- `unlink_from_segment`. -/
def unlinkFromSegment : SlotClass × Links :=
  match (links slot).seg with
  | .probation =>
    let (probation, links) := cl.probation.unlink slot links
    ({ cl with probation }, links)
  | .guarded =>
    let (guarded, links) := cl.guarded.unlink slot links
    ({ cl with guarded }, links)
  | .none => (cl, links)

/-- The choice of `evict_one_excluding`. -/
def takeExcluding (banned : ℕ → Bool) : Option (Option ℕ × SlotClass × Links) := do
  match ← cl.probation.take links banned with
  | (some s, probation, links) => some (some s, { cl with probation }, links)
  | (none, probation, links) =>
    let (victim, guarded, links) ← cl.guarded.take links banned
    some (victim, { cl with probation, guarded }, links)

/-- `frequency_victim_in_class`. -/
def frequencyVictim (score : ℕ → Option ℚ) : Option (Option ℕ × SlotClass × Links) := do
  let probation ← cl.probation.iter links
  let guarded ← cl.guarded.iter links
  match leastScore score (probation ++ guarded) with
  | none => some (none, cl, links)
  | some s => some (some s, cl.unlinkFromSegment s links)

end SlotClass

/-! ## The reference queues -/

/-- `OldSlru` of the tests. -/
structure OldSlru where
  probation : List ℕ := []
  guarded : List ℕ := []
  guardedCap : ℕ

namespace OldSlru

variable (old : OldSlru) (slot : ℕ)

/-- The loop of `push_protected`. -/
def demote (cap : ℕ) : List ℕ → List ℕ → List ℕ × List ℕ
  | probation, [] => (probation, [])
  | probation, s :: rest =>
    if cap < (s :: rest).length then demote cap (probation ++ [s]) rest
    else (probation, s :: rest)

def pushProtected : OldSlru :=
  let (probation, guarded) := demote old.guardedCap old.probation (old.guarded ++ [slot])
  { old with probation, guarded }

def onHitFull : OldSlru :=
  if slot ∈ old.probation then { old with probation := old.probation.erase slot }.pushProtected slot
  else if slot ∈ old.guarded then { old with guarded := old.guarded.erase slot ++ [slot] }
  else old.pushProtected slot

def popLru : Option ℕ × OldSlru :=
  match old.probation, old.guarded with
  | s :: probation, _ => (some s, { old with probation })
  | [], s :: guarded => (some s, { old with guarded })
  | [], [] => (none, old)

def takeExcluding (banned : ℕ → Bool) : Option ℕ × OldSlru :=
  match old.probation.find? (!banned ·), old.guarded.find? (!banned ·) with
  | some s, _ => (some s, { old with probation := old.probation.erase s })
  | none, some s => (some s, { old with guarded := old.guarded.erase s })
  | none, none => (none, old)

/-- The slot taken out of the queue it is in. -/
def remove : OldSlru :=
  if slot ∈ old.probation then { old with probation := old.probation.erase slot }
  else if slot ∈ old.guarded then { old with guarded := old.guarded.erase slot }
  else old

def frequencyVictim (score : ℕ → Option ℚ) : Option ℕ × OldSlru :=
  match leastScore score (old.probation ++ old.guarded) with
  | none => (none, old)
  | some s => (some s, old.remove s)

end OldSlru

/-! ## Runs -/

/-- What the slot cache does to its segments. -/
inductive SlruOp where
  | publish (slot : ℕ)
  | hit (slot : ℕ)
  | unlink (slot : ℕ)
  | popLru (k : ℕ)
  | takeExcluding (k : ℕ) (banned : ℕ → Bool)
  | frequencyVictim (k : ℕ) (score : ℕ → Option ℚ)

/-- The size classes and the links they share. -/
structure Arena where
  classes : ℕ → SlotClass
  links : Links

section
variable (slotClass : ℕ → ℕ)

/-- The class of an operation. -/
def SlruOp.cls : SlruOp → ℕ
  | publish slot | hit slot | unlink slot => slotClass slot
  | popLru k | takeExcluding k _ | frequencyVictim k _ => k

def SlotClass.step (cl : SlotClass) (links : Links) : SlruOp → Option (Option ℕ × SlotClass × Links)
  | .publish slot =>
    let (probation, links) := cl.probation.pushBack slot links .probation
    some (none, { cl with probation }, links)
  | .hit slot => some (none, cl.onHitFull slot links)
  | .unlink slot => some (none, cl.unlinkFromSegment slot links)
  | .popLru _ => some (cl.popLru links)
  | .takeExcluding _ banned => cl.takeExcluding links banned
  | .frequencyVictim _ score => cl.frequencyVictim links score

def OldSlru.step (old : OldSlru) : SlruOp → Option ℕ × OldSlru
  | .publish slot => (none, { old with probation := old.probation ++ [slot] })
  | .hit slot => (none, old.onHitFull slot)
  | .unlink slot => (none, old.remove slot)
  | .popLru _ => old.popLru
  | .takeExcluding _ banned => old.takeExcluding banned
  | .frequencyVictim _ score => old.frequencyVictim score

def Arena.new (cap : ℕ → ℕ) : Arena :=
  { classes := fun k => { guardedCap := cap k }, links := fun _ => {} }

/-- The victims of a run and its last state. -/
def Arena.run : Arena → List SlruOp → Option (List (Option ℕ) × Arena)
  | a, [] => some ([], a)
  | a, op :: ops => do
    let k := op.cls slotClass
    let (victim, cl, links) ← (a.classes k).step a.links op
    let (victims, a) ← run { classes := update a.classes k cl, links } ops
    some (victim :: victims, a)

/-- The victims of the reference and its last state. -/
def oldRun : (ℕ → OldSlru) → List SlruOp → List (Option ℕ) × (ℕ → OldSlru)
  | olds, [] => ([], olds)
  | olds, op :: ops =>
    let k := op.cls slotClass
    let (victim, old) := (olds k).step op
    let (victims, olds) := oldRun (update olds k old) ops
    (victim :: victims, olds)

end

end Slru

end Memra
