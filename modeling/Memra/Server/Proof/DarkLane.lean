import Memra.Server.DarkLane

/-!
# The job runner keeps its child, its state and its pid in step

`Held`: who holds a child, and that the published pid is its. `tick_held` is one turn; it also is why
no `expect` of the runner panics. `TickOk` is what a turn may do: leave a terminal state never, launch
in a valley with room only, leave no running child behind a busy observation, classify an exit. The run
theorem is `ticks_ok`; a preempted job's way back to a launch is `pending_relaunch`.
-/

namespace Memra

namespace Runner

variable {cfg : BgConfig}

/-- A child is held running in `RUNNING`, stopped in `YIELDED` and in no other state, and the
published pid is its. -/
structure Held (r : Runner) : Prop where
  running : r.state = .running → ∃ pid, r.child = some ⟨pid, false⟩
  yielded : r.state = .yielded → ∃ pid, r.child = some ⟨pid, true⟩
  other : r.state ≠ .running → r.state ≠ .yielded → r.child = none
  pid : r.jobPid = (r.child.map fun c => (c.pid : ℕ)).getD 0

/-- A job that waits for a launch. -/
def Pending (r : Runner) : Prop :=
  r.state = .waiting ∨ r.state = .preempted ∨ r.state = .refused

/-- A turn in which a pending job can be launched. -/
def Room (cfg : BgConfig) (e : BgEnv) : Prop :=
  e.inValley = true ∧ (vramFits cfg e).1 = true

/-- What one turn does. -/
structure TickOk (cfg : BgConfig) (r : Runner) (e : BgEnv) (r' : Runner) (ev : List BgEvent) :
    Prop where
  /-- a terminal state is never left -/
  terminal : r.state = .done ∨ r.state = .failed → r' = r ∧ ev = []
  /-- a child that was not held before was launched in this turn -/
  fresh : r.child = none → ∀ c, r'.child = some c → .launched c.pid ∈ ev
  /-- a launch saw an idle valley and, for a job with a memory budget, a reading with room -/
  launch : ∀ pid, .launched pid ∈ ev → .sawValley true ∈ ev ∧
    (0 < cfg.vramBudgetMb → cfg.vramBudgetMb + cfg.headroomMb < 2 ^ 64 →
      ∃ free, .probed (some free) ∈ ev ∧ cfg.vramBudgetMb + cfg.headroomMb ≤ free)
  /-- no child runs on behind an observation of traffic -/
  busy : .sawBusy true ∈ ev ∨ .sawValley false ∈ ev → ∀ c, r'.child = some c → c.stopped = true
  /-- an exit that was not asked for -/
  exit : ∀ code, .reaped code ∈ ev → .sigusr1 ∉ ev →
    r'.state = if code = some 0 then .done else if code = some 75 then .preempted else .failed
  /-- a preemption, which a job may still complete in -/
  preempt : .sigusr1 ∈ ev →
    r'.state = .preempted ∨ (.reaped (some 0) ∈ ev ∧ r'.state = .done)
  /-- a pending job waits on, is launched, or could not be spawned -/
  pending : r.Pending → r'.Pending ∨ (∃ pid, .launched pid ∈ ev ∧ r'.state = .running) ∨
    (.spawnFailed ∈ ev ∧ r'.state = .failed)

theorem held_start : Held {} where
  running h := by cases h
  yielded h := by cases h
  other _ _ := rfl
  pid := rfl

/-! ## The parts of a turn -/

theorem mem_vramFits {e : BgEnv} {x : BgEvent} (h : x ∈ (vramFits cfg e).2) :
    x = .probed e.vramProbe := by
  unfold vramFits at h
  split at h
  · exact List.mem_singleton.1 h
  · cases h

theorem vramFits_reading {e : BgEnv} (h : (vramFits cfg e).1 = true) (hb : 0 < cfg.vramBudgetMb)
    (hlt : cfg.vramBudgetMb + cfg.headroomMb < 2 ^ 64) :
    ∃ free, .probed (some free) ∈ (vramFits cfg e).2 ∧ cfg.vramBudgetMb + cfg.headroomMb ≤ free := by
  unfold vramFits at h ⊢
  rw [if_pos hb] at h ⊢
  simp only [Nat.mod_eq_of_lt hlt, Option.any_eq_true] at h
  obtain ⟨free, hfree, hle⟩ := h
  exact ⟨free, by rw [hfree]; exact List.mem_singleton_self _, by simpa using hle⟩

theorem Pending.not_terminal {r : Runner} (hp : r.Pending) :
    ¬ (r.state = .done ∨ r.state = .failed) := by
  rcases hp with hp | hp | hp <;> simp [hp]

theorem Pending.childless {r : Runner} (h : Held r) (hp : r.Pending) : r.child = none := by
  apply h.other <;> rcases hp with hp | hp | hp <;> simp [hp]

/-- A turn of a pending job, by what it finds. -/
theorem tickPending_cases (cfg : BgConfig) (r : Runner) (e : BgEnv) :
    (e.inValley = false ∧ tickPending cfg r e = (r, [.sawValley false])) ∨
      (e.inValley = true ∧ (vramFits cfg e).1 = false ∧ tickPending cfg r e =
        ({ r with state := .refused, refusalLogged := true },
          .sawValley true :: (vramFits cfg e).2)) ∨
      (Room cfg e ∧ e.spawn = none ∧ tickPending cfg r e =
        ({ r with refusalLogged := false, state := .failed },
          .sawValley true :: (vramFits cfg e).2 ++ [.spawnFailed])) ∨
      ∃ pid, Room cfg e ∧ e.spawn = some pid ∧ tickPending cfg r e =
        ({ r with
            refusalLogged := false
            jobPid := pid
            launches := r.launches + 1
            state := .running
            child := some ⟨pid, false⟩ },
          .sawValley true :: (vramFits cfg e).2 ++ [.launched pid]) := by
  unfold tickPending Room
  cases hv : e.inValley with
  | false => simp
  | true =>
    cases hf : (vramFits cfg e).1 with
    | false => simp [hf]
    | true => cases hsp : e.spawn <;> simp [hf]

theorem tickPending_ok {r : Runner} (h : Held r) (hp : r.Pending) (e : BgEnv) :
    Held (tickPending cfg r e).1 ∧
      TickOk cfg r e (tickPending cfg r e).1 (tickPending cfg r e).2 := by
  have hterm := hp.not_terminal
  have hnone := hp.childless h
  have hpid : r.jobPid = 0 := by rw [h.pid, hnone]; rfl
  have hvram : ∀ x, x ∈ (vramFits cfg e).2 → x = .probed e.vramProbe := fun x hx => mem_vramFits hx
  have hquiet : ∀ x, x ≠ .probed e.vramProbe → x ∉ (vramFits cfg e).2 :=
    fun x hne hx => hne (hvram x hx)
  obtain ⟨-, heq⟩ | ⟨-, -, heq⟩ | ⟨-, -, heq⟩ | ⟨pid, hroom, -, heq⟩ :=
    tickPending_cases cfg r e <;> rw [heq]
  · -- no valley
    refine ⟨h, ?_⟩
    constructor
    case terminal => exact fun ht => absurd ht hterm
    case fresh => exact fun _ c hc => by rw [hnone] at hc; cases hc
    case launch => simp
    case busy => exact fun _ c hc => by rw [hnone] at hc; cases hc
    case exit => simp
    case preempt => simp
    case pending => exact fun _ => .inl hp
  · -- refused
    refine ⟨⟨fun hs => (by cases hs), fun hs => (by cases hs), fun _ _ => hnone, h.pid⟩, ?_⟩
    constructor
    case terminal => exact fun ht => absurd ht hterm
    case fresh => exact fun _ c hc => by simp only [hnone] at hc; cases hc
    case launch => simp [hquiet]
    case busy => exact fun _ c hc => by simp only [hnone] at hc; cases hc
    case exit => simp [hquiet]
    case preempt => simp [hquiet]
    case pending => exact fun _ => .inl (.inr (.inr rfl))
  · -- not spawned
    refine ⟨⟨fun hs => (by cases hs), fun hs => (by cases hs), fun _ _ => hnone, h.pid⟩, ?_⟩
    constructor
    case terminal => exact fun ht => absurd ht hterm
    case fresh => exact fun _ c hc => by simp only [hnone] at hc; cases hc
    case launch => simp [hquiet]
    case busy => exact fun _ c hc => by simp only [hnone] at hc; cases hc
    case exit => simp [hquiet]
    case preempt => simp [hquiet]
    case pending => exact fun _ => .inr (.inr ⟨by simp, rfl⟩)
  · -- launched
    refine ⟨⟨fun _ => ⟨pid, rfl⟩, fun hs => (by cases hs), fun hs => absurd rfl hs, rfl⟩, ?_⟩
    constructor
    case terminal => exact fun ht => absurd ht hterm
    case fresh =>
      intro _ c hc
      cases hc
      simp
    case launch =>
      refine fun _ _ => ⟨by simp, fun hb hlt => ?_⟩
      obtain ⟨free, hmem, hle⟩ := vramFits_reading hroom.2 hb hlt
      exact ⟨free, by simp [hmem], hle⟩
    case busy => simp [hquiet]
    case exit => simp [hquiet]
    case preempt => simp [hquiet]
    case pending => exact fun _ => .inr (.inl ⟨pid, by simp, rfl⟩)

/-- `handle_exit` ends in a state without a child. -/
theorem handleExit_cases (code : ExitCode) (preempting : Bool) :
    handleExit code preempting = .done ∨ handleExit code preempting = .preempted ∨
      handleExit code preempting = .failed := by
  unfold handleExit
  split
  · exact .inl rfl
  · split
    · exact .inr (.inl rfl)
    · split
      · exact .inr (.inl rfl)
      · exact .inr (.inr rfl)

/-- A runner that gave its child up. -/
theorem held_of_childless {r : Runner}
    (hs : r.state = .done ∨ r.state = .preempted ∨ r.state = .failed) (hc : r.child = none)
    (hp : r.jobPid = 0) : Held r where
  running h := by rcases hs with hs | hs | hs <;> rw [hs] at h <;> cases h
  yielded h := by rcases hs with hs | hs | hs <;> rw [hs] at h <;> cases h
  other _ _ := hc
  pid := by rw [hc, hp]; rfl

theorem tickRunning_ok {r : Runner} (h : Held r) {pid : ℕ+} (hs : r.state = .running)
    (hc : r.child = some ⟨pid, false⟩) (e : BgEnv) :
    Held (tickRunning cfg r ⟨pid, false⟩ e).1 ∧
      TickOk cfg r e (tickRunning cfg r ⟨pid, false⟩ e).1 (tickRunning cfg r ⟨pid, false⟩ e).2 := by
  have hterm : ¬ (r.state = .done ∨ r.state = .failed) := by simp [hs]
  have hpend : ¬ r.Pending := by simp [Pending, hs]
  have hsome : r.child ≠ none := by simp [hc]
  unfold tickRunning
  cases e.tryWait with
  | exited code =>
    refine ⟨held_of_childless (handleExit_cases code false) rfl rfl, ?_⟩
    constructor
    case terminal => exact fun ht => absurd ht hterm
    case fresh => exact fun hn => absurd hn hsome
    case launch => simp
    case busy => simp
    case exit => simp [handleExit]
    case preempt => simp
    case pending => exact fun hp => absurd hp hpend
  | error =>
    refine ⟨held_of_childless (.inr (.inr rfl)) rfl rfl, ?_⟩
    constructor
    case terminal => exact fun ht => absurd ht hterm
    case fresh => exact fun hn => absurd hn hsome
    case launch => simp
    case busy => simp
    case exit => simp
    case preempt => simp
    case pending => exact fun hp => absurd hp hpend
  | alive =>
    cases e.busyNow with
    | false =>
      refine ⟨h, ?_⟩
      constructor
      case terminal => exact fun ht => absurd ht hterm
      case fresh => exact fun hn => absurd hn hsome
      case launch => simp
      case busy => simp
      case exit => simp
      case preempt => simp
      case pending => exact fun hp => absurd hp hpend
    | true =>
      cases cfg.yieldMode with
      | stop =>
        refine ⟨⟨fun hs => (by cases hs), fun _ => ⟨pid, rfl⟩, fun _ hy => absurd rfl hy, ?_⟩, ?_⟩
        · have hpid := h.pid
          rw [hc] at hpid
          exact hpid
        · constructor
          case terminal => exact fun ht => absurd ht hterm
          case fresh => exact fun hn => absurd hn hsome
          case launch => simp
          case busy => simp
          case exit => simp
          case preempt => simp
          case pending => exact fun hp => absurd hp hpend
      | checkpoint =>
        cases hg : e.graceExit with
        | none =>
          simp only [if_true, preemptWait, hg]
          refine ⟨held_of_childless (.inr (.inl rfl)) rfl rfl, ?_⟩
          constructor
          case terminal => exact fun ht => absurd ht hterm
          case fresh => exact fun hn => absurd hn hsome
          case launch => simp
          case busy => simp
          case exit => simp
          case preempt => exact fun _ => .inl rfl
          case pending => exact fun hp => absurd hp hpend
        | some code =>
          simp only [if_true, preemptWait, hg]
          refine ⟨held_of_childless (handleExit_cases code true) rfl rfl, ?_⟩
          constructor
          case terminal => exact fun ht => absurd ht hterm
          case fresh => exact fun hn => absurd hn hsome
          case launch => simp
          case busy => simp
          case exit => simp
          case preempt =>
            intro _
            by_cases h0 : code = some 0
            · exact .inr ⟨by simp [h0], by simp [handleExit, h0]⟩
            · exact .inl (by simp [handleExit, h0])
          case pending => exact fun hp => absurd hp hpend

theorem tickYielded_ok {r : Runner} (h : Held r) (hs : r.state = .yielded) (e : BgEnv) :
    ∃ r' ev, tick cfg r e = some (r', ev) ∧ Held r' ∧ TickOk cfg r e r' ev := by
  have hterm : ¬ (r.state = .done ∨ r.state = .failed) := by simp [hs]
  have hpend : ¬ r.Pending := by simp [Pending, hs]
  obtain ⟨pid, hc⟩ := h.yielded hs
  have hsome : r.child ≠ none := by simp [hc]
  have hpid := h.pid
  rw [hc] at hpid
  unfold tick
  rw [hs, hc]
  cases e.inValley with
  | false =>
    refine ⟨_, _, rfl, h, ?_⟩
    constructor
    case terminal => exact fun ht => absurd ht hterm
    case fresh => exact fun hn => absurd hn hsome
    case launch => simp
    case busy =>
      intro _ c hc'
      rw [hc] at hc'
      cases hc'
      rfl
    case exit => simp
    case preempt => simp
    case pending => exact fun hp => absurd hp hpend
  | true =>
    refine ⟨_, _, rfl, ⟨fun _ => ⟨pid, rfl⟩, fun hs => (by cases hs), fun hs => absurd rfl hs, hpid⟩, ?_⟩
    constructor
    case terminal => exact fun ht => absurd ht hterm
    case fresh => exact fun hn => absurd hn hsome
    case launch => simp
    case busy => simp
    case exit => simp
    case preempt => simp
    case pending => exact fun hp => absurd hp hpend

theorem tick_pending {r : Runner} (hp : r.Pending) (e : BgEnv) :
    tick cfg r e = some (tickPending cfg r e) := by
  unfold tick
  rcases hp with hp | hp | hp <;> rw [hp]

/-- One turn: no panic, and everything above. -/
theorem tick_ok (cfg : BgConfig) {r : Runner} (h : Held r) (e : BgEnv) :
    ∃ r' ev, tick cfg r e = some (r', ev) ∧ Held r' ∧ TickOk cfg r e r' ev := by
  have hdead : r.state = .done ∨ r.state = .failed → r.child = none → TickOk cfg r e r [] := by
    intro ht hc
    constructor
    case terminal => exact fun _ => ⟨rfl, rfl⟩
    case fresh => exact fun _ c hc' => by rw [hc] at hc'; cases hc'
    case launch => simp
    case busy => simp
    case exit => simp
    case preempt => simp
    case pending => exact fun hp => absurd ht hp.not_terminal
  cases hs : r.state with
  | waiting =>
    have hp : r.Pending := .inl hs
    exact ⟨_, _, tick_pending hp e, tickPending_ok h hp e⟩
  | preempted =>
    have hp : r.Pending := .inr (.inl hs)
    exact ⟨_, _, tick_pending hp e, tickPending_ok h hp e⟩
  | refused =>
    have hp : r.Pending := .inr (.inr hs)
    exact ⟨_, _, tick_pending hp e, tickPending_ok h hp e⟩
  | running =>
    obtain ⟨pid, hc⟩ := h.running hs
    have htick : tick cfg r e = some (tickRunning cfg r ⟨pid, false⟩ e) := by
      unfold tick
      rw [hs, hc]
    exact ⟨_, _, htick, tickRunning_ok h hs hc e⟩
  | yielded => exact tickYielded_ok h hs e
  | done =>
    have hc : r.child = none := h.other (by simp [hs]) (by simp [hs])
    have htick : tick cfg r e = some (r, []) := by unfold tick; rw [hs]
    exact ⟨_, _, htick, h, hdead (.inl hs) hc⟩
  | failed =>
    have hc : r.child = none := h.other (by simp [hs]) (by simp [hs])
    have htick : tick cfg r e = some (r, []) := by unfold tick; rw [hs]
    exact ⟨_, _, htick, h, hdead (.inr hs) hc⟩

/-! ## Runs -/

theorem ticks_held (cfg : BgConfig) {r : Runner} (h : Held r) (es : List BgEnv) :
    ∃ r', ticks cfg r es = some r' ∧ Held r' := by
  induction es generalizing r with
  | nil => exact ⟨r, rfl, h⟩
  | cons e es ih =>
    obtain ⟨r', ev, htick, hheld, -⟩ := tick_ok cfg h e
    unfold ticks
    rw [htick]
    exact ih hheld

/-- A pending job waits through turns without room and is launched in the first one with room, unless
it cannot be spawned. -/
theorem pending_relaunch {r : Runner} (hp : r.Pending) {es : List BgEnv}
    (hes : ∀ e ∈ es, ¬ Room cfg e) {e : BgEnv} (he : Room cfg e) {pid : ℕ+}
    (hsp : e.spawn = some pid) :
    ∃ r', ticks cfg r (es ++ [e]) = some r' ∧ r'.state = .running ∧
      r'.child = some ⟨pid, false⟩ := by
  induction es generalizing r with
  | nil =>
    rw [List.nil_append]
    unfold ticks
    rw [tick_pending hp]
    obtain ⟨hv, -⟩ | ⟨-, hf, -⟩ | ⟨-, hnone, -⟩ | ⟨pid', -, hsp', heq⟩ := tickPending_cases cfg r e
    · rw [he.1] at hv
      cases hv
    · rw [he.2] at hf
      cases hf
    · rw [hsp] at hnone
      cases hnone
    · rw [hsp] at hsp'
      cases hsp'
      rw [heq]
      exact ⟨_, rfl, rfl, rfl⟩
  | cons e' es ih =>
    obtain ⟨he', hes⟩ := List.forall_mem_cons.1 hes
    rw [List.cons_append]
    unfold ticks
    rw [tick_pending hp]
    obtain ⟨-, heq⟩ | ⟨-, -, heq⟩ | ⟨hroom, -, -⟩ | ⟨-, hroom, -, -⟩ := tickPending_cases cfg r e'
    · rw [heq]
      exact ih hp hes
    · rw [heq]
      exact ih (.inr (.inr rfl)) hes
    · exact absurd hroom he'
    · exact absurd hroom he'

/-- In every run of the runner the child, the state and the pid stay in step, every further turn is as
it should be, and a pending job finds its way back to a launch. -/
theorem ticks_ok (cfg : BgConfig) (es : List BgEnv) :
    ∃ r, ticks cfg {} es = some r ∧ Held r ∧
      (∀ e, ∃ r' ev, tick cfg r e = some (r', ev) ∧ TickOk cfg r e r' ev) ∧
      (r.Pending → ∀ (more : List BgEnv) (e : BgEnv) (pid : ℕ+), (∀ e' ∈ more, ¬ Room cfg e') →
        Room cfg e → e.spawn = some pid →
        ∃ r', ticks cfg r (more ++ [e]) = some r' ∧ r'.state = .running ∧
          r'.child = some ⟨pid, false⟩) := by
  obtain ⟨r, hrun, hheld⟩ := ticks_held cfg held_start es
  refine ⟨r, hrun, hheld, fun e => ?_, fun hp more e pid hmore he hsp =>
    pending_relaunch hp hmore he hsp⟩
  obtain ⟨r', ev, htick, -, hok⟩ := tick_ok cfg hheld e
  exact ⟨r', ev, htick, hok⟩

/-- A job without a memory budget is launched with the memory unread. -/
theorem launched_unread :
    ¬ ∀ (cfg : BgConfig) (r r' : Runner) (e : BgEnv) (ev : List BgEvent) (pid : ℕ+),
      tick cfg r e = some (r', ev) → .launched pid ∈ ev → ∃ free, .probed (some free) ∈ ev := by
  intro hall
  obtain ⟨free, hmem⟩ := hall ⟨.stop, 0, 2048⟩ {} _ ⟨true, false, none, some 7, .alive, none⟩
    [.sawValley true, .launched 7] 7 rfl (by simp)
  simp at hmem

end Runner

end Memra
