import Mathlib.Logic.Function.Basic
import Mathlib.Data.List.Basic

/-!
# Inference liveness

`health.rs`: the worker stamps a phase, a beat and a fault latch, each an atomic of its own, and any
number of readers compute verdicts from them, one load at a time. `HealthSystem` puts the two side by
side: an action is one store of the worker, one turn of its control (`run` and the thread around it in
`worker.rs`), one load of a reader, a fault seen by the GPU watcher, or time passing. An action that is
not enabled does nothing.
-/

namespace Memra

/-- The worker phases. -/
inductive WorkerPhase
  | loading
  | idle
  | busy
  | dead
  deriving DecidableEq

/-- One atomic step of a stamp: `now_ms` into a register, or one store. -/
inductive StampOp
  | now
  | beat
  | phase (p : WorkerPhase)
  | faulted (b : Bool)
  | generation
  deriving DecidableEq

/-- `beat`. -/
def beatOps : List StampOp := [.now, .beat]

/-- `set_phase`: the beat before the phase. -/
def setPhase (p : WorkerPhase) : List StampOp := beatOps ++ [.phase p]

/-- `beat_busy`: the phase before the beat. -/
def beatBusy : List StampOp := .phase .busy :: beatOps

/-- `mark_ready`. -/
def markReady : List StampOp := .faulted false :: setPhase .idle

/-- `mark_dead`. -/
def markDead : List StampOp := [.faulted true, .phase .dead]

/-- `mark_respawning`. -/
def markRespawning : List StampOp := .generation :: setPhase .loading

/-- Where the worker thread stands: loading weights, at the top of the scheduler loop with or without
work, blocked in `recv`, with a command from it, inside an iteration, panicked, or over. -/
inductive WorkerAt
  | loading
  | loopTop (work : Bool)
  | blocked
  | received
  | tick
  | crashed
  | gone
  deriving DecidableEq

/-- The worker: its stamp under way and the register of `now_ms`. -/
structure Worker where
  loc : WorkerAt := .loading
  todo : List StampOp := []
  reg : ℕ := 0

/-- What the worker does next when no stamp is under way. -/
inductive WorkerTurn
  /-- the weights are resident -/
  | loaded
  /-- the load failed -/
  | loadFailed
  /-- the next step of the loop; at the end of an iteration, whether work is left -/
  | go (work : Bool)
  /-- the command channel closed -/
  | closed
  | panic
  | respawn
  /-- no respawn attempt is left -/
  | giveUp
  deriving DecidableEq

/-- The control of the worker thread. -/
def Worker.next (w : Worker) (a : WorkerTurn) : Worker :=
  if w.todo ≠ [] then w
  else
    match w.loc, a with
    | .loading, .loaded => { w with loc := .loopTop false, todo := markReady }
    | .loading, .loadFailed => { w with loc := .gone, todo := markDead }
    | .loopTop false, .go _ => { w with loc := .blocked, todo := setPhase .idle }
    | .loopTop true, .go _ => { w with loc := .tick, todo := beatBusy }
    | .blocked, .go _ => { w with loc := .received, todo := setPhase .busy }
    | .blocked, .closed => { w with loc := .gone, todo := setPhase .dead }
    | .received, .go _ => { w with loc := .tick, todo := beatBusy }
    | .tick, .go work => { w with loc := .loopTop work }
    | .tick, .closed => { w with loc := .gone, todo := setPhase .dead }
    | .loading, .panic | .loopTop _, .panic | .received, .panic | .tick, .panic =>
      { w with loc := .crashed, todo := markDead }
    | .crashed, .respawn => { w with loc := .loading, todo := markRespawning }
    | .crashed, .giveUp => { w with loc := .gone }
    | _, _ => w

/-- What `live` answers. -/
inductive Verdict
  | ok
  | gpuFault
  | workerFault
  | gone
  | loading
  | stalled
  deriving DecidableEq

/-- How far a reader is in `live`: between verdicts, behind each of its loads, or with a verdict that
is not reported yet. -/
inductive ReaderAt
  | rest
  | begun
  | gpuRead
  | faultRead
  | phaseRead
  | busyRead
  | clockRead (t : ℕ)
  | decided (v : Verdict)
  deriving DecidableEq

/-- A reader. -/
structure Reader where
  loc : ReaderAt := .rest
  /-- ghost: the GPU fault was latched when the verdict began -/
  gpuAtStart : Bool := false
  /-- ghost: since the verdict began, the worker was up at some moment -/
  upSeen : Bool := false
  /-- ghost: its second load of the phase gave `busy` -/
  sawBusy : Bool := false

/-- A verdict as it was reported. -/
structure Report where
  verdict : Verdict
  gpuAtStart : Bool
  upSeen : Bool
  /-- how long the worker had been busy, if it was -/
  busyFor : Option ℕ

/-- The atomics of `WorkerHealth`, the clock, the worker and the readers. -/
structure HealthSystem where
  beat : ℕ := 0
  phase : WorkerPhase := .loading
  faulted : Bool := false
  gpuFaulted : Bool := false
  generation : ℕ := 0
  clock : ℕ := 0
  worker : Worker := {}
  readers : ℕ → Reader := fun _ => {}
  /-- ghost: when the worker took work out of its idle phase, while it has work -/
  busySince : Option ℕ := none
  /-- ghost: the verdicts reported so far -/
  reports : List Report := []

inductive HealthAct
  /-- one atomic step of the stamp under way -/
  | stamp
  | control (a : WorkerTurn)
  | gpuFault
  | time (d : ℕ)
  /-- one load of reader `i`, or its report -/
  | read (i : ℕ)

namespace HealthSystem

variable (stallMs : ℕ)

/-- The worker serves: it is neither loading nor dead, and no fault is latched. -/
def Up (s : HealthSystem) : Bool := (s.phase = .idle || s.phase = .busy) && !s.faulted

/-- One atomic step of a stamp. -/
def stampOp (s : HealthSystem) : StampOp → HealthSystem
  | .now => { s with worker := { s.worker with reg := s.clock } }
  | .beat => { s with beat := s.worker.reg }
  | .phase p => { s with phase := p }
  | .faulted b => { s with faulted := b }
  | .generation => { s with generation := s.generation + 1 }

def stamp (s : HealthSystem) : HealthSystem :=
  match s.worker.todo with
  | [] => s
  | op :: todo => { s with worker := { s.worker with todo } }.stampOp op

/-- The worker has work: a command from `recv`, an iteration, or work left after one. -/
def HasWork : WorkerAt → Bool
  | .received | .tick | .loopTop true => true
  | _ => false

def control (s : HealthSystem) (a : WorkerTurn) : HealthSystem :=
  let worker := s.worker.next a
  { s with
    worker
    busySince :=
      if HasWork worker.loc then
        if HasWork s.worker.loc then s.busySince else some s.clock
      else none }

/-- One step of `live`. -/
def load (s : HealthSystem) : ReaderAt → ReaderAt
  | .rest => .begun
  | .begun => if s.gpuFaulted then .decided .gpuFault else .gpuRead
  | .gpuRead => if s.faulted then .decided .workerFault else .faultRead
  | .faultRead =>
    match s.phase with
    | .dead => .decided .gone
    | .loading => .decided .loading
    | _ => .phaseRead
  -- `stalled`: the phase again, the clock, then the beat
  | .phaseRead => if s.phase = .busy then .busyRead else .decided .ok
  | .busyRead => .clockRead s.clock
  | .clockRead t => .decided (if t - s.beat > stallMs then .stalled else .ok)
  | .decided _ => .rest

def read (s : HealthSystem) (i : ℕ) : HealthSystem :=
  let r := s.readers i
  let loc := s.load stallMs r.loc
  match r.loc with
  | .rest =>
    { s with
      readers := Function.update s.readers i
        { loc, gpuAtStart := s.gpuFaulted, upSeen := s.Up } }
  | .decided verdict =>
    { s with
      readers := Function.update s.readers i { r with loc }
      reports := s.reports ++ [{
        verdict
        gpuAtStart := r.gpuAtStart
        upSeen := r.upSeen
        busyFor := s.busySince.map (s.clock - ·) }] }
  | .phaseRead =>
    { s with readers := Function.update s.readers i { r with loc, sawBusy := s.phase = .busy } }
  | _ => { s with readers := Function.update s.readers i { r with loc } }

/-- Every reader sees whether the worker is up now. -/
def observe (s : HealthSystem) : HealthSystem :=
  { s with readers := fun i => { s.readers i with upSeen := (s.readers i).upSeen || s.Up } }

def act (s : HealthSystem) : HealthAct → HealthSystem
  | .stamp => s.stamp
  | .control a => s.control a
  | .gpuFault => { s with gpuFaulted := true }
  | .time d => { s with clock := s.clock + d }
  | .read i => s.read stallMs i

def step (s : HealthSystem) (a : HealthAct) : HealthSystem := (s.act stallMs a).observe

end HealthSystem

end Memra
