import Memra.Lib.Streams

/-!
# Pipeline boundaries

`tx` and `rx` of `PpNRt` (`pp.rs`): stage `b` copies a payload into a slot of boundary `b` on its own
stream, stage `b + 1` copies it out on its stream, and two events a slot order the copies. A slot's
buffer is allocated on the RX stage's stream and grows on demand; the buffer it replaces is freed on
that stream, after it.

A copy is one operation for each element, so nothing but streams and events keeps two copies apart.
`SlotMem` is the device memory of one slot with what the copies of each crossing have done; a read
or write outside an allocated buffer is a fault.
-/

namespace Memra

open Lib

/-- `ev_tx` and `ev_rx` of a slot of boundary `b`. -/
inductive BoundaryEv where
  | tx (b slot : ℕ)
  | rx (b slot : ℕ)
  deriving DecidableEq

/-- A slot: its boundary and its index. -/
abbrev SlotId := ℕ × ℕ

variable {α : Type}

inductive SlotAct (α : Type) where
  | alloc (buf n : ℕ)
  | memset (buf : ℕ)
  | free (buf : ℕ)
  | write (buf k : ℕ) (v : α)
  | read (buf k : ℕ)

/-- An operation on a slot, for a numbered crossing of its boundary. -/
structure SlotOp (α : Type) where
  slot : SlotId
  crossing : ℕ
  act : SlotAct α

/-- The buffers of a slot (a cell is `none` before its first write), and for each crossing how many
elements its TX copy has written and what its RX copy has read. -/
structure SlotMem (α : Type) where
  bufs : ℕ → Option (List (Option α)) := fun _ => none
  wrote : ℕ → ℕ := fun _ => 0
  got : ℕ → List (Option α) := fun _ => []
  fault : Bool := false

/-- One operation of the device. -/
def SlotMem.exec [Zero α] (m : SlotMem α) (o : SlotOp α) : SlotMem α :=
  match o.act with
  | .alloc buf n => { m with bufs := Function.update m.bufs buf (some (List.replicate n none)) }
  | .memset buf =>
    match m.bufs buf with
    | none => { m with fault := true }
    | some cells =>
      { m with bufs := Function.update m.bufs buf (some (cells.map fun _ => some 0)) }
  | .free buf =>
    match m.bufs buf with
    | none => { m with fault := true }
    | some _ => { m with bufs := Function.update m.bufs buf none }
  | .write buf k v =>
    match m.bufs buf with
    | none => { m with fault := true }
    | some cells =>
      if k < cells.length then
        { m with
          bufs := Function.update m.bufs buf (some (cells.set k (some v)))
          wrote := Function.update m.wrote o.crossing (m.wrote o.crossing + 1) }
      else { m with fault := true }
  | .read buf k =>
    match m.bufs buf with
    | none => { m with fault := true }
    | some cells =>
      match cells[k]? with
      | none => { m with fault := true }
      | some v => { m with got := Function.update m.got o.crossing (m.got o.crossing ++ [v]) }

/-- `BoundarySlot` on the host: the current buffer with its length, and how many were allocated. -/
structure SlotHost where
  buf : Option (ℕ × ℕ) := none
  allocs : ℕ := 0

/-- `BoundaryRt`. -/
structure BoundaryHost where
  slots : ℕ → SlotHost := fun _ => {}
  step : ℕ := 0

/-- The boundaries of `PpNRt`. -/
abbrev PpHost := ℕ → BoundaryHost

abbrev PpInstr (α : Type) := Instr ℕ BoundaryEv (SlotOp α)

/-- The slot of the next step, `MEMRA_PP_OVERLAP` as it reads now. -/
def BoundaryHost.nextSlot (bd : BoundaryHost) (overlap : Bool) : ℕ × BoundaryHost :=
  if overlap then (bd.step % 2, { bd with step := bd.step + 1 }) else (0, bd)

/-- The slot's buffer for a payload of `n`, with what the RX stream does when it has to grow: the
new buffer is allocated and zeroed, then the old one is freed. -/
def SlotHost.grow (α : Type) (sl : SlotHost) (n : ℕ) : List (SlotAct α) × ℕ × SlotHost :=
  match sl.buf with
  | some (buf, len) =>
    if len < n then
      ([.alloc sl.allocs n, .memset sl.allocs, .free buf], sl.allocs,
        { buf := some (sl.allocs, n), allocs := sl.allocs + 1 })
    else ([], buf, sl)
  | none =>
    ([.alloc sl.allocs n, .memset sl.allocs], sl.allocs,
      { buf := some (sl.allocs, n), allocs := sl.allocs + 1 })

/-- `tx`: crossing `c` publishes `x` at boundary `b`. Returns what it enqueues, the slot and the
boundaries after it. -/
def tx (h : PpHost) (b : ℕ) (overlap : Bool) (c : ℕ) (x : List α) :
    List (PpInstr α) × ℕ × PpHost :=
  let (slot, bd) := (h b).nextSlot overlap
  let (acts, buf, sl) := (bd.slots slot).grow α x.length
  let sTx := b
  let sRx := b + 1
  let op (act : SlotAct α) : SlotOp α := { slot := (b, slot), crossing := c, act }
  ([.wait sTx (.rx b slot)] ++
    -- the host drains the RX stream after an allocation
    (if acts.isEmpty then [] else (acts.map fun a => .op sRx (op a)) ++ [.sync sRx]) ++
    (x.zipIdx.map fun v => .op sTx (op (.write buf v.2 v.1))) ++
    [.record sTx (.tx b slot)],
   slot, Function.update h b { bd with slots := Function.update bd.slots slot sl })

/-- `rx` of `n` elements from a slot; a slot without a buffer of that length is an assertion
failure. -/
def rx (h : PpHost) (b slot c n : ℕ) : List (PpInstr α) :=
  match ((h b).slots slot).buf with
  | none => []
  | some (buf, len) =>
    if n ≤ len then
      let sRx := b + 1
      [.wait sRx (.tx b slot)] ++
        ((List.range n).map fun k =>
          .op sRx { slot := (b, slot), crossing := c, act := .read buf k }) ++
        [.record sRx (.rx b slot)]
    else []

/-- A step's crossing of one boundary: `tx`, then `rx` of the slot it returned. A step crosses the
boundaries `0, 1, …` in order. -/
structure Crossing (α : Type) where
  b : ℕ
  overlap : Bool
  x : List α

/-- What the host issues for a sequence of crossings, numbered from `c`. -/
def issue : PpHost → ℕ → List (Crossing α) → List (PpInstr α)
  | _, _, [] => []
  | h, c, cr :: rest =>
    let (instrs, slot, h') := tx h cr.b cr.overlap c cr.x
    instrs ++ rx h' cr.b slot c cr.x.length ++ issue h' (c + 1) rest

/-- The slots the crossings use. -/
def slotsUsed : PpHost → List (Crossing α) → List SlotId
  | _, [] => []
  | h, cr :: rest =>
    let (_, slot, h') := tx h cr.b cr.overlap 0 cr.x
    (cr.b, slot) :: slotsUsed h' rest

def PpHost.new : PpHost := fun _ => {}

/-- The whole program of a sequence of crossings. -/
def ppProgram (cs : List (Crossing α)) : List (PpInstr α) := issue .new 0 cs

/-- The memory of slot `l` after an execution so far. -/
def slotMem [Zero α] (cs : List (Crossing α)) (l : SlotId) (done : List ℕ) : SlotMem α :=
  (opsAt SlotOp.slot (ppProgram cs) l done).foldl SlotMem.exec {}

end Memra
