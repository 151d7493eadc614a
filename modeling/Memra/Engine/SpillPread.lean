import Mathlib

/-!
# The pread pool

`spill_pread.rs`: a fixed set of pinned buffers, read into by disk workers or by the owner, handed to
the owner when ready and held until a copy from them is done. The owner and the workers exchange
messages: a request carries the buffer's allocation to a worker, a completion carries it back.
`WorkerAct` is one step of a worker; `PreadPool.wait` and `PreadPool.recv` are the two halves of
`wait_worker` around its blocking receive.

A failed assertion or panic of the source sets `fault`. Statistics and log lines are left out.
-/

namespace Memra

abbrev Bytes := List UInt8

/-- `DIRECT_IO_ALIGNMENT`. -/
def directIoAlignment : ℕ := 4096

/-- `SpillIoMode` of a pool (`Mmap` has none). -/
inductive SpillIoMode where
  | pread
  | worker
  | direct
  deriving DecidableEq

def SpillIoMode.isWorker : SpillIoMode → Bool
  | pread => false
  | worker => true
  | direct => true

/-- A part of a file. -/
structure Extent where
  file : ℕ
  offset : ℕ
  len : ℕ
  deriving DecidableEq

/-- `direct_extent_aligned`. -/
def Extent.directAligned (x : Extent) : Bool :=
  x.offset % directIoAlignment = 0 && x.len % directIoAlignment = 0

/-- The files on disk. -/
abbrev Files := ℕ → Bytes

/-- The bytes of an extent, as far as the file goes. -/
def Files.extent (files : Files) (x : Extent) : Bytes := ((files x.file).drop x.offset).take x.len

/-- How a positioned read goes: to the end of the extent or of the file, or an I/O error that leaves
some bytes behind. -/
inductive IoOutcome where
  | runs
  | fails (left : Bytes) (message : String)

/-- `pread_exact_at` into an allocation: the extent's bytes in front, or an error. -/
def preadExactAt (files : Files) (x : Extent) (data : Bytes) :
    IoOutcome → Except String Unit × Bytes
  | .runs =>
    let bytes := files.extent x
    if bytes.length = x.len then (.ok (), bytes ++ data.drop x.len)
    else
      let remain := x.len - bytes.length
      (.error s!"short positioned read at offset {x.offset + bytes.length}: {remain} bytes remain",
        bytes ++ data.drop bytes.length)
  | .fails left message => (.error message, left)

inductive BufferPhase where
  | free
  | reading
  | canceled
  | ready
  | failed
  | h2d
  deriving DecidableEq

/-- `PinnedBuffer`; `event` says that a completion event is stored (`ready`). -/
structure PinnedBuffer where
  data : Option Bytes
  phase : BufferPhase := .free
  event : Bool := false
  ticket : Option ℕ := none
  error : Option String := none
  deriving DecidableEq

inductive WorkerAdmission where
  | demand
  | speculative
  deriving DecidableEq

def WorkerAdmission.freeBufferFloor : WorkerAdmission → ℕ
  | demand => 0
  | speculative => 1

structure ReadRequest where
  ticket : ℕ
  index : ℕ
  extent : Extent
  data : Bytes

structure ReadCompletion where
  ticket : ℕ
  index : ℕ
  len : ℕ
  data : Bytes
  result : Except String Unit

/-- `PreadPool` with its worker pool: the bounded request queue, the requests the workers are at, and
the completion channel. `asked` is a ghost: the extent each ticket was submitted for. -/
structure PreadPool where
  depth : ℕ
  buffers : ℕ → PinnedBuffer
  capacity : ℕ
  mode : SpillIoMode
  nextTicket : ℕ := 1
  tickets : List ℕ := []
  requests : List ReadRequest := []
  busy : List ReadRequest := []
  completions : List ReadCompletion := []
  fault : Bool := false
  asked : ℕ → Option Extent := fun _ => none

namespace PreadPool

/-- A pool of `depth` buffers. -/
def new (depth capacity : ℕ) (mode : SpillIoMode) : PreadPool :=
  { depth, buffers := fun _ => { data := some (List.replicate capacity 0) }, capacity, mode }

def setBuffer (p : PreadPool) (i : ℕ) (b : PinnedBuffer) : PreadPool :=
  { p with buffers := Function.update p.buffers i b }

/-- The first buffer with a property. -/
def position (p : PreadPool) (f : PinnedBuffer → Bool) : Option ℕ :=
  (List.range p.depth).find? fun i => f (p.buffers i)

/-! ## Completions -/

/-- `finish_worker_completion`: `finish_read` of the buffer's phase, unless the completion is stale. -/
def finishWorkerCompletion (p : PreadPool) (c : ReadCompletion) : PreadPool :=
  if c.index < p.depth then
    let b := p.buffers c.index
    if b.ticket ≠ some c.ticket || b.data.isSome then p
    else
      match b.phase with
      | .reading =>
        match c.result with
        | .ok () => p.setBuffer c.index { b with data := some c.data, phase := .ready }
        | .error e =>
          p.setBuffer c.index { b with data := some c.data, phase := .failed, error := some e }
      | .canceled =>
        p.setBuffer c.index
          { b with data := some c.data, phase := .free, ticket := none, error := none }
      | _ => p
  else p

/-- `poll_worker_completions`. -/
def pollWorkerCompletions (p : PreadPool) : PreadPool :=
  p.completions.foldl finishWorkerCompletion { p with completions := [] }

/-- `finish_h2d` of a buffer whose event `complete` reports. -/
def reapBuffer (complete : Bool) (b : PinnedBuffer) : PinnedBuffer :=
  if b.phase = .h2d && b.event && complete then { b with phase := .free, event := false } else b

/-- `reap_completed`; `complete i` says that the event of buffer `i` has completed. -/
def reapCompleted (p : PreadPool) (complete : ℕ → Bool) : PreadPool :=
  let p := p.pollWorkerCompletions
  { p with buffers := fun i => reapBuffer (complete i) (p.buffers i) }

/-! ## Submission -/

/-- What a submission meets outside the pool: an error of `io_file`, and the copies completed. -/
structure SubmitEnv where
  ioFile : Option String := none
  complete : ℕ → Bool := fun _ => false

/-- `submit_worker_with_admission`. -/
def submit (p : PreadPool) (admission : WorkerAdmission) (x : Extent) (env : SubmitEnv) :
    Except String (Option ℕ) × PreadPool :=
  if !p.mode.isWorker then (.error "worker read submitted to blocking pread backend", p)
  else if p.capacity < x.len then
    (.error s!"expert extent {x.len} exceeds pread buffer capacity {p.capacity}", p)
  else if p.mode = .direct && !x.directAligned then
    (.error (s!"O_DIRECT expert extent requires {directIoAlignment}-byte aligned offset and " ++
      s!"length (offset={x.offset}, len={x.len})"), p)
  else
    match env.ioFile with
    | some e => (.error e, p)
    | none =>
      let p := p.reapCompleted env.complete
      let free := (List.range p.depth).countP fun i => (p.buffers i).phase = .free
      if free ≤ admission.freeBufferFloor then (.ok none, p)
      else
        match p.position fun b => b.phase = .free with
        | none => (.error "", { p with fault := true })
        | some index =>
          if 2 ^ 64 ≤ p.nextTicket + 1 then (.error "spill read ticket overflow", p)
          else
            let ticket := p.nextTicket
            let b := p.buffers index
            match b.data with
            | none => (.error "", { p with fault := true })
            | some data =>
              let p := { p with nextTicket := p.nextTicket + 1 }
              -- `try_send` on the bounded request channel
              if p.requests.length < p.depth then
                (.ok (some ticket),
                  { p.setBuffer index
                      { b with data := none, phase := .reading, ticket := some ticket } with
                    requests := p.requests ++ [{ ticket, index, extent := x, data }]
                    tickets := ticket :: p.tickets
                    asked := Function.update p.asked ticket (some x) })
              else (.ok none, p.setBuffer index { b with ticket := none })

/-! ## Waiting, cancelling, holding -/

inductive WaitResult where
  | got (index : ℕ)
  | err (message : String)
  | block

/-- One round of the loop of `wait_worker`. -/
def waitRound (p : PreadPool) (ticket : ℕ) : WaitResult × PreadPool :=
  match p.position fun b => b.ticket = some ticket with
  | none => (.err "spill worker ticket lost its buffer", p)
  | some index =>
    let b := p.buffers index
    match b.phase with
    | .ready => (.got index, { p with tickets := p.tickets.erase ticket })
    | .failed =>
      (.err (b.error.getD "spill worker read failed"),
        { p.setBuffer index { b with phase := .free, ticket := none, error := none } with
          tickets := p.tickets.erase ticket })
    | .reading => (.block, p)
    | _ => (.err "spill worker ticket has invalid state", p)

/-- `wait_worker` up to its first blocking receive. -/
def wait (p : PreadPool) (ticket : ℕ) : WaitResult × PreadPool :=
  if ticket ∈ p.tickets then p.pollWorkerCompletions.waitRound ticket
  else (.err "unknown spill worker ticket", p)

/-- `wait_worker` from a received completion on; `none` while there is none. -/
def recv (p : PreadPool) (ticket : ℕ) : Option (WaitResult × PreadPool) :=
  match p.completions with
  | [] => none
  | c :: rest => some (({ p with completions := rest }.finishWorkerCompletion c).waitRound ticket)

/-- `cancel_worker`. -/
def cancelWorker (p : PreadPool) (ticket : ℕ) : Bool × PreadPool :=
  let p := p.pollWorkerCompletions
  if ticket ∈ p.tickets then
    let p := { p with tickets := p.tickets.erase ticket }
    match p.position fun b => b.ticket = some ticket with
    | none => (false, p)
    | some index =>
      let b := p.buffers index
      match b.phase with
      | .reading => (true, p.setBuffer index { b with phase := .canceled })
      | .ready => (true, p.setBuffer index { b with phase := .free, ticket := none, error := none })
      | .failed => (true, p.setBuffer index { b with phase := .free, ticket := none, error := none })
      | _ => (true, { p with fault := true })
  else (false, p)

/-- `bytes`: the first `len` bytes of a ready buffer. -/
def bytes (p : PreadPool) (index len : ℕ) : Except String Bytes :=
  if (p.buffers index).phase = .ready then .ok (((p.buffers index).data.getD []).take len)
  else .error "pread buffer is not ready for H2D"

/-- `begin_h2d` with the event of the copy, or without one (`mark_h2d`, `mark_unknown_h2d`). -/
def markH2d (p : PreadPool) (index : ℕ) (event : Bool) : PreadPool :=
  let b := p.buffers index
  if b.phase = .ready then p.setBuffer index { b with phase := .h2d, ticket := none, event }
  else { p with fault := true }

/-- `abort_read`. -/
def abortRead (p : PreadPool) (index : ℕ) : PreadPool :=
  let b := p.buffers index
  if b.phase ∈ [.reading, .canceled, .ready, .failed] then
    p.setBuffer index { b with phase := .free, ticket := none, error := none }
  else { p with fault := true }

/-- What a blocking read meets: the copies completed, an error of the event wait, the read. -/
structure ReadEnv where
  complete : ℕ → Bool := fun _ => false
  synchronize : Option String := none
  io : IoOutcome := .runs

/-- `wait_for_one`. -/
def waitForOne (p : PreadPool) (env : ReadEnv) : Except String Unit × PreadPool :=
  match p.position fun b => b.phase = .h2d with
  | none => (.error "pread buffer pool has no reusable or in-flight buffer", p)
  | some index =>
    let b := p.buffers index
    if b.event then
      match env.synchronize with
      | some e => (.error e, p)
      | none => (.ok (), p.setBuffer index { b with phase := .free, event := false })
    else (.error "H2D buffer is missing its completion event", p)

/-- `read` from its free buffer on. -/
def readFree (p : PreadPool) (files : Files) (x : Extent) (io : IoOutcome) :
    Except String ℕ × PreadPool :=
  match p.position fun b => b.phase = .free with
  | none => (.error "", { p with fault := true })
  | some index =>
    let b := p.buffers index
    match b.data with
    | none => (.error "", { p with fault := true })
    | some data =>
      match preadExactAt files x data io with
      | (.ok (), data) =>
        (.ok index, p.setBuffer index { b with data := some data, phase := .ready })
      | (.error e, data) =>
        (.error e, p.setBuffer index { b with data := some data, phase := .free })

/-- `read`: one demand extent on the caller's thread. -/
def read (p : PreadPool) (files : Files) (x : Extent) (env : ReadEnv) :
    Except String ℕ × PreadPool :=
  if p.capacity < x.len then
    (.error s!"expert extent {x.len} exceeds pread buffer capacity {p.capacity}", p)
  else
    let p := p.reapCompleted env.complete
    if (p.position fun b => b.phase = .free).isSome then p.readFree files x env.io
    else
      match p.waitForOne env with
      | (.error e, p) => (.error e, p)
      | (.ok (), p) => p.readFree files x env.io

end PreadPool

/-! ## The workers -/

/-- A worker takes the next request, or finishes the one it is at. -/
inductive WorkerAct where
  | take
  | finish (i : ℕ) (io : IoOutcome)

/-- `read_worker`, one step. -/
def PreadPool.workerStep (files : Files) (p : PreadPool) : WorkerAct → PreadPool
  | .take =>
    match p.requests with
    | [] => p
    | r :: rest => { p with requests := rest, busy := p.busy ++ [r] }
  | .finish i io =>
    match p.busy[i]? with
    | none => p
    | some r =>
      let (result, data) := preadExactAt files r.extent r.data io
      { p with
        busy := p.busy.eraseIdx i
        completions := p.completions ++
          [{ ticket := r.ticket, index := r.index, len := r.extent.len, data, result }] }

end Memra
