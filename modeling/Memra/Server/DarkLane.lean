import Mathlib

/-!
# The background job runner

`darklane.rs`: one turn of the loop of `runner_loop`, which launches a job in an idle valley, yields
it to traffic and classifies its exits. What a turn sees of the outside (`BgEnv`) is free: the valley
and the busy signal, the memory probe, whether the spawn works, and what the child does. `BgEvent`
records what it looked at and did. A child is held with its stop signal: `stopped` between a `SIGSTOP`
and the next `SIGCONT`. `none` is the panic of an `expect`.
-/

namespace Memra

/-- The states of the job. -/
inductive BgState
  | waiting
  | running
  | yielded
  | preempted
  | done
  | failed
  | refused
  deriving DecidableEq

inductive YieldMode
  | stop
  | checkpoint
  deriving DecidableEq

/-- What the runner reads of `BgConfig`. -/
structure BgConfig where
  yieldMode : YieldMode
  vramBudgetMb : ℕ
  headroomMb : ℕ

/-- The child, by its process id. -/
structure BgChild where
  pid : ℕ+
  stopped : Bool
  deriving DecidableEq

/-- `ExitStatus::code`: none for a child that a signal ended. -/
abbrev ExitCode := Option ℤ

/-- What `try_wait` returns. -/
inductive TryWait
  | alive
  | exited (code : ExitCode)
  | error
  deriving DecidableEq

/-- What a turn finds outside: `graceExit` is the exit seen inside the checkpoint grace, if any. -/
structure BgEnv where
  inValley : Bool
  busyNow : Bool
  vramProbe : Option ℕ
  spawn : Option ℕ+
  tryWait : TryWait
  graceExit : Option ExitCode

/-- What a turn looked at and did. -/
inductive BgEvent
  | sawValley (v : Bool)
  | sawBusy (b : Bool)
  | probed (free : Option ℕ)
  | launched (pid : ℕ+)
  | spawnFailed
  | reaped (code : ExitCode)
  | lost
  | sigstop
  | sigcont
  | sigusr1
  | sigkill
  deriving DecidableEq

/-- The loop's variables and `BgJobState`. -/
structure Runner where
  state : BgState := .waiting
  child : Option BgChild := none
  jobPid : ℕ := 0
  refusalLogged : Bool := false
  launches : ℕ := 0
  yields : ℕ := 0
  resumes : ℕ := 0
  preempts : ℕ := 0
  ckptKills : ℕ := 0

/-- `handle_exit`: the state for an exit code. -/
def handleExit (code : ExitCode) (preempting : Bool) : BgState :=
  if code = some 0 then .done
  else if code = some 75 then .preempted
  else if preempting then .preempted
  else .failed

namespace Runner

/-- The memory check before a launch: whether the job fits, and what was probed. The sum is a `u64`. -/
def vramFits (cfg : BgConfig) (e : BgEnv) : Bool × List BgEvent :=
  if cfg.vramBudgetMb > 0 then
    let need := (cfg.vramBudgetMb + cfg.headroomMb) % 2 ^ 64
    (e.vramProbe.any (need ≤ ·), [.probed e.vramProbe])
  else (true, [])

/-- A turn in which no child is held. -/
def tickPending (cfg : BgConfig) (r : Runner) (e : BgEnv) : Runner × List BgEvent :=
  if e.inValley then
    let (fits, probed) := vramFits cfg e
    if fits then
      let r := { r with refusalLogged := false }
      match e.spawn with
      | some pid =>
        ({ r with
            jobPid := pid
            launches := r.launches + 1
            state := .running
            child := some ⟨pid, false⟩ },
          .sawValley true :: probed ++ [.launched pid])
      | none => ({ r with state := .failed }, .sawValley true :: probed ++ [.spawnFailed])
    else ({ r with state := .refused, refusalLogged := true }, .sawValley true :: probed)
  else (r, [.sawValley false])

/-- `preempt_wait`: the exit inside the grace, or a kill. -/
def preemptWait (r : Runner) (e : BgEnv) : Runner × List BgEvent :=
  match e.graceExit with
  | some code => ({ r with state := handleExit code true }, [.reaped code])
  | none => ({ r with state := .preempted, ckptKills := r.ckptKills + 1 }, [.sigkill])

/-- A turn in which the child `c` runs. -/
def tickRunning (cfg : BgConfig) (r : Runner) (c : BgChild) (e : BgEnv) : Runner × List BgEvent :=
  match e.tryWait with
  | .exited code =>
    ({ r with state := handleExit code false, jobPid := 0, child := none }, [.reaped code])
  | .error => ({ r with state := .failed, jobPid := 0, child := none }, [.lost])
  | .alive =>
    if e.busyNow then
      match cfg.yieldMode with
      | .stop =>
        ({ r with
            yields := r.yields + 1
            state := .yielded
            child := some { c with stopped := true } },
          [.sawBusy true, .sigstop])
      | .checkpoint =>
        let (r, ended) := preemptWait { r with preempts := r.preempts + 1 } e
        ({ r with jobPid := 0, child := none }, .sawBusy true :: .sigusr1 :: ended)
    else (r, [.sawBusy false])

/-- One turn of the loop. -/
def tick (cfg : BgConfig) (r : Runner) (e : BgEnv) : Option (Runner × List BgEvent) :=
  match r.state with
  | .waiting | .preempted | .refused => some (tickPending cfg r e)
  | .running =>
    match r.child with
    | some c => some (tickRunning cfg r c e)
    | none => none
  | .yielded =>
    if e.inValley then
      match r.child with
      | some c =>
        some ({ r with
            resumes := r.resumes + 1
            state := .running
            child := some { c with stopped := false } },
          [.sawValley true, .sigcont])
      | none => none
    else some (r, [.sawValley false])
  -- the loop is left
  | .done | .failed => some (r, [])

/-- The turns of a run. -/
def ticks (cfg : BgConfig) (r : Runner) : List BgEnv → Option Runner
  | [] => some r
  | e :: es =>
    match r.tick cfg e with
    | some (r', _) => r'.ticks cfg es
    | none => none

end Runner

end Memra
