import Memra.Server.Health
import Memra.Lib.Runs

/-!
# What a verdict read in pieces is worth

The worker's own order of stores is `WorkerInv`: while it has work, a phase that reads busy stands
beside a beat no older than the work (`WorkerInv.busy_beat`), and a phase comes back from loading or
dead only with the fault latch cleared (`WorkerInv.phase_up`). `ReaderInv` says what a reader may
conclude at each of its loads. Nothing ties a reader's loads together but this: a reader that read
busy, then slept through a whole idle period, still takes the idle period's beat for that of work. A
run without that is `Awake`.
-/

namespace Memra

open Lib

namespace HealthSystem

variable {stallMs : ℕ}

/-! ## The worker -/

/-- The phases of a worker that serves. -/
def Live (p : WorkerPhase) : Prop := p = .idle ∨ p = .busy

/-- What the worker's position says about its stamp and the atomics. -/
def LocInv (s : HealthSystem) : Prop :=
  match s.worker.loc with
  | .loading => s.busySince = none ∧ s.worker.todo <:+ markRespawning
  | .loopTop false =>
    s.busySince = none ∧ s.worker.todo <:+ markReady ∧
      (s.faulted = false ∨ s.worker.todo = markReady)
  | .loopTop true =>
    s.worker.todo = [] ∧ s.faulted = false ∧ ∀ t, s.busySince = some t → t ≤ s.beat
  | .blocked =>
    s.busySince = none ∧ s.worker.todo <:+ setPhase .idle ∧ s.faulted = false ∧
      (s.worker.todo = [] → s.phase = .idle)
  | .received =>
    s.worker.todo <:+ setPhase .busy ∧ s.faulted = false ∧
      ∀ t, s.busySince = some t → t ≤ s.beat ∨ (s.phase ≠ .busy ∧ .beat ∈ s.worker.todo)
  | .tick =>
    s.worker.todo <:+ beatBusy ∧ s.faulted = false ∧ ∀ t, s.busySince = some t → t ≤ s.beat
  | .crashed => s.busySince = none ∧ s.worker.todo <:+ markDead
  | .gone =>
    s.busySince = none ∧ (s.worker.todo <:+ markDead ∨ s.worker.todo <:+ setPhase .dead)

/-- The worker's side of the system. -/
structure WorkerInv (s : HealthSystem) : Prop where
  /-- a beat is stored right after the clock was read for it -/
  paired : s.worker.todo.IsChain fun a b => b = .beat → a = .now
  since_le : ∀ t, s.busySince = some t → t ≤ s.clock
  reg : s.worker.todo.head? = some .beat → ∀ t, s.busySince = some t → t ≤ s.worker.reg
  loc : LocInv s

/-- A worker with work and the phase busy has a beat no older than the work. -/
theorem WorkerInv.busy_beat {s : HealthSystem} (h : WorkerInv s) (hp : s.phase = .busy) {t : ℕ}
    (ht : s.busySince = some t) : t ≤ s.beat := by
  have hloc := h.loc
  unfold LocInv at hloc
  split at hloc
  · rw [hloc.1] at ht
    cases ht
  · rw [hloc.1] at ht
    cases ht
  · exact hloc.2.2 t ht
  · rw [hloc.1] at ht
    cases ht
  · exact (hloc.2.2 t ht).resolve_right fun hn => hn.1 hp
  · exact hloc.2.2 t ht
  · rw [hloc.1] at ht
    cases ht
  · rw [hloc.1] at ht
    cases ht

/-- A serving phase is stored with the fault latch clear. -/
theorem WorkerInv.phase_up {s : HealthSystem} (h : WorkerInv s) {p : WorkerPhase} (hp : Live p)
    {todo : List StampOp} (ht : s.worker.todo = .phase p :: todo) : s.faulted = false := by
  have hloc := h.loc
  unfold LocInv at hloc
  rw [ht] at hloc
  split at hloc
  · have hmem := hloc.2.subset List.mem_cons_self
    rcases hp with rfl | rfl <;> simp [markRespawning, setPhase, beatOps] at hmem
  · rcases hloc.2.2 with hf | hm
    · exact hf
    · cases hm
  · cases hloc.1
  · exact hloc.2.2.1
  · exact hloc.2.1
  · exact hloc.2.1
  · have hmem := hloc.2.subset List.mem_cons_self
    rcases hp with rfl | rfl <;> simp [markDead] at hmem
  · rcases hloc.2 with hs | hs
    · have hmem := hs.subset List.mem_cons_self
      rcases hp with rfl | rfl <;> simp [markDead] at hmem
    · have hmem := hs.subset List.mem_cons_self
      rcases hp with rfl | rfl <;> simp [setPhase, beatOps] at hmem

section

variable (s : HealthSystem) (op : StampOp)

@[simp] theorem stampOp_loc : (s.stampOp op).worker.loc = s.worker.loc := by cases op <;> rfl

@[simp] theorem stampOp_todo : (s.stampOp op).worker.todo = s.worker.todo := by cases op <;> rfl

@[simp] theorem stampOp_busySince : (s.stampOp op).busySince = s.busySince := by cases op <;> rfl

@[simp] theorem stampOp_clock : (s.stampOp op).clock = s.clock := by cases op <;> rfl

@[simp] theorem stampOp_readers : (s.stampOp op).readers = s.readers := by cases op <;> rfl

@[simp] theorem stampOp_reports : (s.stampOp op).reports = s.reports := by cases op <;> rfl

@[simp] theorem stampOp_gpuFaulted : (s.stampOp op).gpuFaulted = s.gpuFaulted := by
  cases op <;> rfl

end

/-- A suffix of a stamp of three stores, by its first store. -/
theorem cons_suffix_three {op a b c : StampOp} {todo : List StampOp}
    (h : op :: todo <:+ [a, b, c]) :
    op = a ∧ todo = [b, c] ∨ op = b ∧ todo = [c] ∨ op = c ∧ todo = [] := by
  simpa [List.suffix_cons_iff] using h

theorem LocInv.stamp {s : HealthSystem} (h : LocInv s) {op : StampOp} {todo : List StampOp}
    (ht : s.worker.todo = op :: todo)
    (hreg : op = .beat → ∀ t, s.busySince = some t → t ≤ s.worker.reg) :
    LocInv ({ s with worker := { s.worker with todo } }.stampOp op) := by
  unfold LocInv at h ⊢
  rw [ht] at h
  simp only [stampOp_loc, stampOp_todo, stampOp_busySince]
  cases hl : s.worker.loc with
  | loading =>
    rw [hl] at h
    exact ⟨h.1, (List.suffix_cons op todo).trans h.2⟩
  | loopTop work =>
    rw [hl] at h
    cases work with
    | true => cases h.1
    | false =>
      obtain ⟨hsince, hsuf, hf⟩ := h
      refine ⟨hsince, (List.suffix_cons op todo).trans hsuf, Or.inl ?_⟩
      rcases hf with hf | hm
      · cases op with
        | faulted b =>
          have hmem := hsuf.subset List.mem_cons_self
          simp only [markReady, setPhase, beatOps, List.cons_append, List.nil_append,
            List.mem_cons, reduceCtorEq, List.not_mem_nil, or_false, StampOp.faulted.injEq] at hmem
          exact hmem
        | _ => exact hf
      · cases hm
        rfl
  | blocked =>
    rw [hl] at h
    obtain ⟨hsince, hsuf, hf, -⟩ := h
    rcases cons_suffix_three hsuf with ⟨rfl, rfl⟩ | ⟨rfl, rfl⟩ | ⟨rfl, rfl⟩
    · exact ⟨hsince, (List.suffix_cons _ _).trans hsuf, hf, fun hn => by cases hn⟩
    · exact ⟨hsince, (List.suffix_cons _ _).trans hsuf, hf, fun hn => by cases hn⟩
    · exact ⟨hsince, (List.suffix_cons _ _).trans hsuf, hf, fun _ => rfl⟩
  | received =>
    rw [hl] at h
    obtain ⟨hsuf, hf, hbeat⟩ := h
    rcases cons_suffix_three hsuf with ⟨rfl, rfl⟩ | ⟨rfl, rfl⟩ | ⟨rfl, rfl⟩
    · refine ⟨(List.suffix_cons _ _).trans hsuf, hf, fun t hsince => ?_⟩
      rcases hbeat t hsince with hle | hnot
      · exact .inl hle
      · exact .inr ⟨hnot.1, by simp⟩
    · exact ⟨(List.suffix_cons _ _).trans hsuf, hf, fun t hsince => .inl (hreg rfl t hsince)⟩
    · refine ⟨(List.suffix_cons _ _).trans hsuf, hf, fun t hsince => ?_⟩
      rcases hbeat t hsince with hle | hnot
      · exact .inl hle
      · cases hnot.2 with
        | tail _ hmem => cases hmem
  | tick =>
    rw [hl] at h
    obtain ⟨hsuf, hf, hbeat⟩ := h
    rcases cons_suffix_three hsuf with ⟨rfl, rfl⟩ | ⟨rfl, rfl⟩ | ⟨rfl, rfl⟩
    · exact ⟨(List.suffix_cons _ _).trans hsuf, hf, hbeat⟩
    · exact ⟨(List.suffix_cons _ _).trans hsuf, hf, hbeat⟩
    · exact ⟨(List.suffix_cons _ _).trans hsuf, hf, fun t hsince => hreg rfl t hsince⟩
  | crashed =>
    rw [hl] at h
    exact ⟨h.1, (List.suffix_cons op todo).trans h.2⟩
  | gone =>
    rw [hl] at h
    exact ⟨h.1, h.2.imp (List.suffix_cons op todo).trans (List.suffix_cons op todo).trans⟩

theorem WorkerInv.stamp {s : HealthSystem} (h : WorkerInv s) : WorkerInv s.stamp := by
  unfold HealthSystem.stamp
  cases ht : s.worker.todo with
  | nil => exact h
  | cons op todo =>
    have hpaired := h.paired
    rw [ht] at hpaired
    have hnow : todo.head? = some .beat → op = .now := by
      intro hhead
      cases todo with
      | nil => cases hhead
      | cons b rest =>
        cases hhead
        exact (List.isChain_cons_cons.1 hpaired).1 rfl
    constructor
    · simpa using hpaired.of_cons
    · simpa using h.since_le
    · intro hhead t hsince
      simp only [stampOp_todo] at hhead
      simp only [stampOp_busySince] at hsince
      rw [hnow hhead]
      exact h.since_le t hsince
    · apply h.loc.stamp ht
      intro hop
      apply h.reg
      rw [ht, hop]
      rfl

/-! ## The worker's control -/

/-- Work is recorded only while there is some. -/
theorem WorkerInv.busySince_none {s : HealthSystem} (h : WorkerInv s)
    (hw : HasWork s.worker.loc = false) : s.busySince = none := by
  have hloc := h.loc
  unfold LocInv at hloc
  cases hl : s.worker.loc with
  | loopTop work =>
    rw [hl] at hloc hw
    cases work with
    | true => cases hw
    | false => exact hloc.1
  | received => rw [hl] at hw; cases hw
  | tick => rw [hl] at hw; cases hw
  | _ => rw [hl] at hloc; exact hloc.1

/-- A turn of the control that moves nothing changes nothing. -/
theorem WorkerInv.control_stay {s : HealthSystem} (h : WorkerInv s) {a : WorkerTurn}
    (hn : s.worker.next a = s.worker) : WorkerInv (s.control a) := by
  have hsame : s.control a = s := by
    unfold HealthSystem.control
    rw [hn]
    cases hw : HasWork s.worker.loc with
    | true => simp [hw]
    | false => simp [hw, ← h.busySince_none hw]
  rw [hsame]
  exact h

/-- A move to `loc` with the stamp `todo`. -/
theorem WorkerInv.control_move {s : HealthSystem} (h : WorkerInv s) {a : WorkerTurn}
    {loc : WorkerAt} {todo : List StampOp} (hn : s.worker.next a = { s.worker with loc, todo })
    (hpaired : todo.IsChain fun a b => b = .beat → a = .now) (hhead : todo.head? ≠ some .beat)
    (hloc : LocInv (s.control a)) : WorkerInv (s.control a) where
  paired := by
    simp only [HealthSystem.control, hn]
    exact hpaired
  since_le := by
    intro t ht
    simp only [HealthSystem.control] at ht
    split at ht
    · split at ht
      · exact h.since_le t ht
      · cases ht
        exact Nat.le_refl _
    · cases ht
  reg := by
    intro hbeat
    simp only [HealthSystem.control, hn] at hbeat
    exact absurd hbeat hhead
  loc := hloc

theorem WorkerInv.control {s : HealthSystem} (h : WorkerInv s) (a : WorkerTurn) :
    WorkerInv (s.control a) := by
  have hloc := h.loc
  unfold LocInv at hloc
  by_cases ht : s.worker.todo = []
  · rw [ht] at hloc
    have hpanic : s.worker.next a = { s.worker with loc := .crashed, todo := markDead } →
        WorkerInv (s.control a) := by
      intro hn
      apply h.control_move hn (by simp [markDead]) (by simp [markDead])
      simp [LocInv, HealthSystem.control, hn, HasWork]
    cases hl : s.worker.loc with
    | loading =>
      rw [hl] at hloc
      cases a with
      | loaded =>
        have hn : s.worker.next .loaded = { s.worker with loc := .loopTop false, todo := markReady } := by
          simp [Worker.next, ht, hl]
        apply h.control_move hn (by simp [markReady, setPhase, beatOps]) (by simp [markReady])
        simp [LocInv, HealthSystem.control, hn, HasWork]
      | loadFailed =>
        have hn : s.worker.next .loadFailed = { s.worker with loc := .gone, todo := markDead } := by
          simp [Worker.next, ht, hl]
        apply h.control_move hn (by simp [markDead]) (by simp [markDead])
        simp [LocInv, HealthSystem.control, hn, HasWork]
      | panic => exact hpanic (by simp [Worker.next, ht, hl])
      | _ => exact h.control_stay (by simp [Worker.next, hl])
    | loopTop work =>
      rw [hl] at hloc
      cases work with
      | true =>
        obtain ⟨-, hf, hbeat⟩ := hloc
        cases a with
        | go _ =>
          have hn : s.worker.next (.go ‹_›) = { s.worker with loc := .tick, todo := beatBusy } := by
            simp [Worker.next, ht, hl]
          apply h.control_move hn (by simp [beatBusy, beatOps]) (by simp [beatBusy])
          simpa [LocInv, HealthSystem.control, hn, hl, HasWork] using ⟨hf, hbeat⟩
        | panic => exact hpanic (by simp [Worker.next, ht, hl])
        | _ => exact h.control_stay (by simp [Worker.next, hl])
      | false =>
        obtain ⟨-, -, hf⟩ := hloc
        replace hf : s.faulted = false := hf.resolve_right (by simp [markReady])
        cases a with
        | go _ =>
          have hn : s.worker.next (.go ‹_›) =
              { s.worker with loc := .blocked, todo := setPhase .idle } := by
            simp [Worker.next, ht, hl]
          apply h.control_move hn (by simp [setPhase, beatOps]) (by simp [setPhase, beatOps])
          simpa [LocInv, HealthSystem.control, hn, hl, HasWork, setPhase] using hf
        | panic => exact hpanic (by simp [Worker.next, ht, hl])
        | _ => exact h.control_stay (by simp [Worker.next, hl])
    | blocked =>
      rw [hl] at hloc
      obtain ⟨-, -, hf, hp⟩ := hloc
      replace hp : s.phase = .idle := hp rfl
      cases a with
      | go _ =>
        have hn : s.worker.next (.go ‹_›) =
            { s.worker with loc := .received, todo := setPhase .busy } := by
          simp [Worker.next, ht, hl]
        apply h.control_move hn (by simp [setPhase, beatOps]) (by simp [setPhase, beatOps])
        simp [LocInv, HealthSystem.control, hn, hl, HasWork, setPhase, beatOps, hf, hp]
      | closed =>
        have hn : s.worker.next .closed = { s.worker with loc := .gone, todo := setPhase .dead } := by
          simp [Worker.next, ht, hl]
        apply h.control_move hn (by simp [setPhase, beatOps]) (by simp [setPhase, beatOps])
        simp [LocInv, HealthSystem.control, hn, HasWork]
      | _ => exact h.control_stay (by simp [Worker.next, hl])
    | received =>
      rw [hl] at hloc
      obtain ⟨-, hf, hbeat⟩ := hloc
      cases a with
      | go _ =>
        have hn : s.worker.next (.go ‹_›) = { s.worker with loc := .tick, todo := beatBusy } := by
          simp [Worker.next, ht, hl]
        apply h.control_move hn (by simp [beatBusy, beatOps]) (by simp [beatBusy])
        have hle : ∀ t, s.busySince = some t → t ≤ s.beat := by
          intro t hsince
          exact (hbeat t hsince).resolve_right (by simp)
        simpa [LocInv, HealthSystem.control, hn, hl, HasWork] using ⟨hf, hle⟩
      | panic => exact hpanic (by simp [Worker.next, ht, hl])
      | _ => exact h.control_stay (by simp [Worker.next, hl])
    | tick =>
      rw [hl] at hloc
      obtain ⟨-, hf, hbeat⟩ := hloc
      cases a with
      | go work =>
        have hn : s.worker.next (.go work) = { s.worker with loc := .loopTop work, todo := [] } := by
          simp [Worker.next, ht, hl]
        apply h.control_move hn (by simp) (by simp)
        cases work with
        | true => simpa [LocInv, HealthSystem.control, hn, hl, HasWork] using ⟨hf, hbeat⟩
        | false => simp [LocInv, HealthSystem.control, hn, HasWork, hf]
      | closed =>
        have hn : s.worker.next .closed = { s.worker with loc := .gone, todo := setPhase .dead } := by
          simp [Worker.next, ht, hl]
        apply h.control_move hn (by simp [setPhase, beatOps]) (by simp [setPhase, beatOps])
        simp [LocInv, HealthSystem.control, hn, HasWork]
      | panic => exact hpanic (by simp [Worker.next, ht, hl])
      | _ => exact h.control_stay (by simp [Worker.next, hl])
    | crashed =>
      cases a with
      | respawn =>
        have hn : s.worker.next .respawn =
            { s.worker with loc := .loading, todo := markRespawning } := by
          simp [Worker.next, ht, hl]
        apply h.control_move hn (by simp [markRespawning, setPhase, beatOps])
          (by simp [markRespawning])
        simp [LocInv, HealthSystem.control, hn, HasWork]
      | giveUp =>
        have hn : s.worker.next .giveUp = { s.worker with loc := .gone, todo := [] } := by
          simp [Worker.next, ht, hl]
        apply h.control_move hn (by simp) (by simp)
        simp [LocInv, HealthSystem.control, hn, HasWork]
      | _ => exact h.control_stay (by simp [Worker.next, hl])
    | gone => exact h.control_stay (by simp [Worker.next, hl])
  · exact h.control_stay (if_pos ht)

/-- Neither a reader nor the watcher nor the clock touches the worker's side. -/
theorem WorkerInv.act {s : HealthSystem} (h : WorkerInv s) (a : HealthAct) :
    WorkerInv (s.act stallMs a) := by
  cases a with
  | stamp => exact h.stamp
  | control a => exact h.control a
  | gpuFault => exact ⟨h.paired, h.since_le, h.reg, h.loc⟩
  | time d => exact ⟨h.paired, fun t ht => Nat.le_add_right_of_le (h.since_le t ht), h.reg, h.loc⟩
  | read i =>
    simp only [HealthSystem.act, HealthSystem.read]
    split <;> exact ⟨h.paired, h.since_le, h.reg, h.loc⟩

theorem WorkerInv.step {s : HealthSystem} (h : WorkerInv s) (a : HealthAct) :
    WorkerInv (s.step stallMs a) := by
  have hact : WorkerInv (s.act stallMs a) := h.act a
  exact ⟨hact.paired, hact.since_le, hact.reg, hact.loc⟩

theorem WorkerInv.init : WorkerInv {} where
  paired := by simp
  since_le := by simp
  reg := by simp
  loc := by simp [LocInv]

/-! ## What one reader knows -/

/-- The reader's positions behind its loads of the fault latch and of the phase: a verdict that can
still come out as `ok`, or as `stalled`. -/
def PhaseSeen (loc : ReaderAt) : Prop :=
  match loc with
  | .phaseRead | .busyRead | .clockRead _ | .decided .ok | .decided .stalled => True
  | _ => False

/-- A GPU fault latched before a verdict decides it, and past the phase the worker has been up. -/
structure ReaderInv (s : HealthSystem) (r : Reader) : Prop where
  gpu : r.gpuAtStart = true →
    s.gpuFaulted = true ∧ (r.loc = .rest ∨ r.loc = .begun ∨ r.loc = .decided .gpuFault)
  fault : r.loc = .faultRead → r.upSeen = true ∨ ¬Live s.phase
  up : PhaseSeen r.loc → r.upSeen = true

/-- `r` as it stands after a step that does not move it. -/
theorem ReaderInv.idle {s s' : HealthSystem} {r : Reader} (h : ReaderInv s r)
    (hgpu : s.gpuFaulted = true → s'.gpuFaulted = true)
    (hphase : Live s'.phase → Live s.phase ∨ s'.Up = true) :
    ReaderInv s' { r with upSeen := r.upSeen || s'.Up } where
  gpu := fun hg => ⟨hgpu (h.gpu hg).1, (h.gpu hg).2⟩
  fault := by
    intro hloc
    by_cases hlive : Live s'.phase
    · left
      rcases hphase hlive with hl | hu
      · have hseen := (h.fault hloc).resolve_right (not_not.2 hl)
        simp [hseen]
      · simp [hu]
    · exact .inr hlive
  up := by
    intro hloc
    simp [h.up hloc]

/-- The reader after its own load or report. -/
def next (stallMs : ℕ) (s : HealthSystem) (r : Reader) : Reader :=
  match r.loc with
  | .rest => { loc := .begun, gpuAtStart := s.gpuFaulted, upSeen := s.Up }
  | .phaseRead => { r with loc := s.load stallMs .phaseRead, sawBusy := s.phase = .busy }
  | loc => { r with loc := s.load stallMs loc }

theorem read_readers (s : HealthSystem) (i : ℕ) :
    (s.read stallMs i).readers = Function.update s.readers i (next stallMs s (s.readers i)) := by
  cases hl : (s.readers i).loc <;> simp [HealthSystem.read, hl, next, load]

theorem up_of_live {s : HealthSystem} (hp : Live s.phase) (hf : s.faulted = false) :
    s.Up = true := by
  rcases hp with hp | hp <;> simp [Up, hp, hf]

theorem ReaderInv.next {s : HealthSystem} {r : Reader} (h : ReaderInv s r) :
    ReaderInv s { HealthSystem.next stallMs s r with
      upSeen := (HealthSystem.next stallMs s r).upSeen || s.Up } := by
  obtain ⟨hgpu, hfault, hup⟩ := h
  cases hl : r.loc with
  | rest =>
    refine ⟨fun hg => ?_, fun hn => ?_, fun hs => ?_⟩
    · simpa [HealthSystem.next, hl] using hg
    · simp [HealthSystem.next, hl] at hn
    · simp [HealthSystem.next, hl, PhaseSeen] at hs
  | begun =>
    refine ⟨fun hg => ?_, fun hn => ?_, fun hs => ?_⟩
    · simp only [HealthSystem.next, hl] at hg
      have hlatched := (hgpu hg).1
      simp [HealthSystem.next, hl, load, hlatched]
    · simp only [HealthSystem.next, hl, load] at hn
      split at hn <;> cases hn
    · simp only [HealthSystem.next, hl, load] at hs
      split at hs <;> exact hs.elim
  | gpuRead =>
    refine ⟨fun hg => ?_, fun hn => ?_, fun hs => ?_⟩
    · simp only [HealthSystem.next, hl] at hg
      simp [hl] at hgpu
      simp [hgpu] at hg
    · simp only [HealthSystem.next, hl, load] at hn
      split at hn
      · cases hn
      · rename_i hf
        by_cases hlive : Live s.phase
        · left
          simp [up_of_live hlive (by simpa using hf)]
        · exact .inr hlive
    · simp only [HealthSystem.next, hl, load] at hs
      split at hs <;> exact hs.elim
  | faultRead =>
    refine ⟨fun hg => ?_, fun hn => ?_, fun hs => ?_⟩
    · simp only [HealthSystem.next, hl] at hg
      simp [hl] at hgpu
      simp [hgpu] at hg
    · simp only [HealthSystem.next, hl, load] at hn
      split at hn <;> cases hn
    · have hlive : Live s.phase := by
        simp only [HealthSystem.next, hl, load] at hs
        cases hp : s.phase with
        | loading => rw [hp] at hs; exact hs.elim
        | dead => rw [hp] at hs; exact hs.elim
        | idle => exact .inl rfl
        | busy => exact .inr rfl
      have hseen := (hfault hl).resolve_right (not_not.2 hlive)
      simp [HealthSystem.next, hl, hseen]
  | phaseRead =>
    have hseen := hup (by rw [hl]; trivial)
    refine ⟨fun hg => ?_, fun hn => ?_, fun _ => ?_⟩
    · simp only [HealthSystem.next, hl] at hg
      simp [hl] at hgpu
      simp [hgpu] at hg
    · simp only [HealthSystem.next, hl, load] at hn
      split at hn <;> cases hn
    · simp [HealthSystem.next, hl, hseen]
  | busyRead =>
    have hseen := hup (by rw [hl]; trivial)
    refine ⟨fun hg => ?_, fun hn => ?_, fun _ => ?_⟩
    · simp only [HealthSystem.next, hl] at hg
      simp [hl] at hgpu
      simp [hgpu] at hg
    · simp [HealthSystem.next, hl, load] at hn
    · simp [HealthSystem.next, hl, hseen]
  | clockRead t =>
    have hseen := hup (by rw [hl]; trivial)
    refine ⟨fun hg => ?_, fun hn => ?_, fun _ => ?_⟩
    · simp only [HealthSystem.next, hl] at hg
      simp [hl] at hgpu
      simp [hgpu] at hg
    · simp [HealthSystem.next, hl, load] at hn
    · simp [HealthSystem.next, hl, hseen]
  | decided v =>
    refine ⟨fun hg => ?_, fun hn => ?_, fun hs => ?_⟩
    · simp only [HealthSystem.next, hl] at hg
      simp [HealthSystem.next, hl, load, (hgpu hg).1]
    · simp [HealthSystem.next, hl, load] at hn
    · simp [HealthSystem.next, hl, load, PhaseSeen] at hs

/-! ## The window of a reader that read busy -/

/-- Between a second load of the phase that gave `busy` and the report of that verdict. -/
def InWindow (r : Reader) : Prop := r.sawBusy = true ∧ r.loc ≠ .rest

/-- The worker is not about to take a command out of its idle phase past a reader in the window. -/
def Awake (s : HealthSystem) (a : HealthAct) : Prop :=
  match a with
  | .control a =>
    HasWork s.worker.loc = false → HasWork (s.worker.next a).loc = true →
      ∀ i, ¬InWindow (s.readers i)
  | _ => True

/-- What a reader in its window knows about the work the worker has now. -/
structure WindowInv (stallMs : ℕ) (s : HealthSystem) (r : Reader) : Prop where
  saw : r.loc = .busyRead ∨ (∃ t, r.loc = .clockRead t) ∨ r.loc = .decided .stalled →
    r.sawBusy = true
  clock : ∀ t, r.loc = .clockRead t → t ≤ s.clock
  beat : r.loc = .busyRead ∨ (∃ t, r.loc = .clockRead t) →
    ∀ t, s.busySince = some t → t ≤ s.beat
  stalled : r.loc = .decided .stalled → ∀ t, s.busySince = some t → t + stallMs < s.clock

/-- The reader's window over a step that does not move it: the work it knew of is the same, or there is
none, or it is not in its window. -/
theorem WindowInv.idle {s s' : HealthSystem} {r r' : Reader} (h : WindowInv stallMs s r)
    (hloc : r'.loc = r.loc) (hsaw : r'.sawBusy = r.sawBusy) (hclock : s.clock ≤ s'.clock)
    (hwork : ¬InWindow r ∨ ∀ t, s'.busySince = some t →
      s.busySince = some t ∧ (t ≤ s.beat → t ≤ s'.beat)) : WindowInv stallMs s' r' where
  saw := by
    rw [hloc, hsaw]
    exact h.saw
  clock := by
    rw [hloc]
    exact fun t ht => Nat.le_trans (h.clock t ht) hclock
  beat := by
    rw [hloc]
    intro hl t ht
    rcases hwork with hout | hwork
    · refine absurd ⟨h.saw (hl.imp_right .inl), ?_⟩ hout
      rcases hl with hl | ⟨t, hl⟩ <;> simp [hl]
    · exact (hwork t ht).2 (h.beat hl t (hwork t ht).1)
  stalled := by
    rw [hloc]
    intro hl t ht
    rcases hwork with hout | hwork
    · exact absurd ⟨h.saw (.inr (.inr hl)), by simp [hl]⟩ hout
    · exact Nat.lt_of_lt_of_le (h.stalled hl t (hwork t ht).1) hclock

/-- A stamp keeps the beat behind the work it is about. -/
theorem stamp_beat {s : HealthSystem} (h : WorkerInv s) {t : ℕ} (ht : s.busySince = some t)
    (hbeat : t ≤ s.beat) : t ≤ s.stamp.beat := by
  unfold HealthSystem.stamp
  cases htodo : s.worker.todo with
  | nil => exact hbeat
  | cons op todo =>
    cases op with
    | beat => exact h.reg (by rw [htodo]; rfl) t ht
    | _ => exact hbeat

/-- A reader that is not in the window. -/
theorem WindowInv.outside {s : HealthSystem} {r : Reader} (hb : r.loc ≠ .busyRead)
    (hc : ∀ t, r.loc ≠ .clockRead t) (hs : r.loc ≠ .decided .stalled) : WindowInv stallMs s r where
  saw := by
    rintro (hl | ⟨t, hl⟩ | hl)
    · exact absurd hl hb
    · exact absurd hl (hc t)
    · exact absurd hl hs
  clock := fun t hl => absurd hl (hc t)
  beat := by
    rintro (hl | ⟨t, hl⟩)
    · exact absurd hl hb
    · exact absurd hl (hc t)
  stalled := fun hl => absurd hl hs

theorem WindowInv.next {s : HealthSystem} (hw : WorkerInv s) {r : Reader}
    (h : WindowInv stallMs s r) : WindowInv stallMs s (HealthSystem.next stallMs s r) := by
  cases hl : r.loc with
  | phaseRead =>
    by_cases hp : s.phase = .busy
    · have hn : HealthSystem.next stallMs s r = { r with loc := .busyRead, sawBusy := true } := by
        simp [HealthSystem.next, hl, load, hp]
      rw [hn]
      refine ⟨fun _ => rfl, fun t ht => ?_, fun _ t ht => hw.busy_beat hp ht, fun ht => ?_⟩
      · cases ht
      · cases ht
    · apply WindowInv.outside <;> simp [HealthSystem.next, hl, load, hp]
  | busyRead =>
    have hn : HealthSystem.next stallMs s r = { r with loc := .clockRead s.clock } := by
      simp [HealthSystem.next, hl, load]
    rw [hn]
    refine ⟨fun _ => h.saw (.inl hl), fun t ht => ?_, fun _ => h.beat (.inl hl), fun ht => ?_⟩
    · cases ht
      exact Nat.le_refl _
    · cases ht
  | clockRead t =>
    by_cases hage : t - s.beat > stallMs
    · have hn : HealthSystem.next stallMs s r = { r with loc := .decided .stalled } := by
        simp [HealthSystem.next, hl, load, hage]
      rw [hn]
      have hsaw : r.sawBusy = true := h.saw (.inr (.inl ⟨t, hl⟩))
      refine ⟨fun _ => hsaw, fun t ht => ?_, fun hb => ?_, fun _ since hsince => ?_⟩
      · cases ht
      · rcases hb with hb | ⟨t, hb⟩ <;> cases hb
      · have hbeat : since ≤ s.beat := h.beat (.inr ⟨t, hl⟩) since hsince
        have hclock : t ≤ s.clock := h.clock t hl
        omega
    · apply WindowInv.outside <;> simp [HealthSystem.next, hl, load, hage]
  | rest => apply WindowInv.outside <;> simp [HealthSystem.next, hl]
  | begun => apply WindowInv.outside <;> simp only [HealthSystem.next, hl, load] <;> split <;> simp
  | gpuRead => apply WindowInv.outside <;> simp only [HealthSystem.next, hl, load] <;> split <;> simp
  | faultRead =>
    apply WindowInv.outside <;> simp only [HealthSystem.next, hl, load] <;> split <;> simp
  | decided v => apply WindowInv.outside <;> simp [HealthSystem.next, hl, load]

/-! ## The system -/

/-- A stamp brings back a serving phase only into a worker that is up. -/
theorem stamp_phase {s : HealthSystem} (h : WorkerInv s) (hp : Live s.stamp.phase) :
    Live s.phase ∨ s.stamp.Up = true := by
  unfold HealthSystem.stamp at hp ⊢
  cases ht : s.worker.todo with
  | nil =>
    rw [ht] at hp
    exact .inl hp
  | cons op todo =>
    rw [ht] at hp
    cases op with
    | phase p => exact .inr (up_of_live hp (h.phase_up hp ht))
    | _ => exact .inl hp

@[simp] theorem stamp_readers (s : HealthSystem) : s.stamp.readers = s.readers := by
  unfold HealthSystem.stamp
  cases s.worker.todo <;> simp

@[simp] theorem stamp_reports (s : HealthSystem) : s.stamp.reports = s.reports := by
  unfold HealthSystem.stamp
  cases s.worker.todo <;> simp

@[simp] theorem stamp_gpuFaulted (s : HealthSystem) : s.stamp.gpuFaulted = s.gpuFaulted := by
  unfold HealthSystem.stamp
  cases s.worker.todo <;> simp

@[simp] theorem stamp_clock (s : HealthSystem) : s.stamp.clock = s.clock := by
  unfold HealthSystem.stamp
  cases s.worker.todo <;> simp

@[simp] theorem stamp_busySince (s : HealthSystem) : s.stamp.busySince = s.busySince := by
  unfold HealthSystem.stamp
  cases s.worker.todo <;> simp

/-- The fault latch of the GPU is never cleared. -/
theorem step_gpuFaulted {s : HealthSystem} (a : HealthAct) (h : s.gpuFaulted = true) :
    (s.step stallMs a).gpuFaulted = true := by
  cases a with
  | stamp => simpa [HealthSystem.step, observe, HealthSystem.act] using h
  | read i =>
    simp only [HealthSystem.step, observe, HealthSystem.act, HealthSystem.read]
    split <;> exact h
  | control a => exact h
  | time d => exact h
  | gpuFault => rfl

/-- A report is what its reader knew. -/
theorem read_reports {s : HealthSystem} {i : ℕ} {rep : Report}
    (h : rep ∈ (s.read stallMs i).reports) :
    rep ∈ s.reports ∨ ∃ v, (s.readers i).loc = .decided v ∧
      rep = ⟨v, (s.readers i).gpuAtStart, (s.readers i).upSeen, s.busySince.map (s.clock - ·)⟩ := by
  cases hl : (s.readers i).loc with
  | decided v =>
    simp only [HealthSystem.read, hl, List.mem_append, List.mem_singleton] at h
    exact h.imp_right fun he => ⟨v, rfl, he⟩
  | _ =>
    simp only [HealthSystem.read, hl] at h
    exact .inl h

/-- The system's invariant, over every run. -/
structure HealthInv (s : HealthSystem) : Prop where
  worker : WorkerInv s
  reader : ∀ i, ReaderInv s (s.readers i)
  report : ∀ rep ∈ s.reports,
    (rep.gpuAtStart = true → rep.verdict ≠ .ok) ∧ (rep.verdict = .ok → rep.upSeen = true)

theorem HealthInv.reader_act {s : HealthSystem} (h : HealthInv s) (a : HealthAct) (i : ℕ) :
    ReaderInv (s.act stallMs a) { (s.act stallMs a).readers i with
      upSeen := ((s.act stallMs a).readers i).upSeen || (s.act stallMs a).Up } := by
  have hreader := h.reader i
  cases a with
  | stamp =>
    simp only [HealthSystem.act, stamp_readers]
    exact hreader.idle (by simp) (stamp_phase h.worker)
  | control a => exact hreader.idle id .inl
  | gpuFault => exact hreader.idle (fun _ => rfl) .inl
  | time d => exact hreader.idle id .inl
  | read j =>
    have hfield : ∀ r, ReaderInv s r → ReaderInv (s.read stallMs j) r := by
      intro r hr
      simp only [HealthSystem.read]
      split <;> exact ⟨hr.gpu, hr.fault, hr.up⟩
    have hup : (s.read stallMs j).Up = s.Up := by
      simp only [HealthSystem.read]
      split <;> rfl
    apply hfield
    simp only [HealthSystem.act, read_readers, hup]
    by_cases hij : i = j
    · subst hij
      simpa using hreader.next
    · rw [Function.update_of_ne hij]
      exact hreader.idle id .inl

theorem HealthInv.report_act {s : HealthSystem} (h : HealthInv s) (a : HealthAct) {rep : Report}
    (hrep : rep ∈ (s.act stallMs a).reports) :
    (rep.gpuAtStart = true → rep.verdict ≠ .ok) ∧ (rep.verdict = .ok → rep.upSeen = true) := by
  cases a with
  | stamp => exact h.report rep (by simpa [HealthSystem.act] using hrep)
  | control a => exact h.report rep hrep
  | gpuFault => exact h.report rep hrep
  | time d => exact h.report rep hrep
  | read i =>
    rcases read_reports hrep with hold | ⟨v, hl, rfl⟩
    · exact h.report rep hold
    · refine ⟨fun hg hv => ?_, fun hv => ?_⟩
      · have hgpu := ((h.reader i).gpu hg).2
        rw [hl] at hgpu
        simp only [reduceCtorEq, ReaderAt.decided.injEq, false_or] at hgpu
        rw [hgpu] at hv
        cases hv
      · apply (h.reader i).up
        rw [hl, show v = .ok from hv]
        trivial

theorem HealthInv.step {s : HealthSystem} (h : HealthInv s) (a : HealthAct) :
    HealthInv (s.step stallMs a) where
  worker := h.worker.step a
  reader := by
    intro i
    obtain ⟨hgpu, hfault, hup⟩ := h.reader_act a i
    exact ⟨hgpu, hfault, hup⟩
  report := fun _ hrep => h.report_act a hrep

theorem HealthInv.init : HealthInv {} where
  worker := .init
  reader := fun _ => ⟨by simp, by simp, by simp [PhaseSeen]⟩
  report := by simp

theorem HealthInv.run (as : List HealthAct) :
    HealthInv (as.foldl (HealthSystem.step stallMs) {}) := by
  have hrun : Along (HealthSystem.step stallMs) (fun _ _ => True) {} as :=
    Along.of_forall (fun _ _ => trivial) as _
  exact hrun.invariant (fun _ a h _ => h.step a) .init

/-! ## Stalled verdicts in an awake run -/

/-- What holds besides `HealthInv` while every step is `Awake`. -/
structure StallInv (stallMs : ℕ) (s : HealthSystem) : Prop where
  worker : WorkerInv s
  window : ∀ i, WindowInv stallMs s (s.readers i)
  report : ∀ rep ∈ s.reports, rep.verdict = .stalled → ∀ d, rep.busyFor = some d → stallMs < d

/-- The work behind a turn of the control is new only if the worker had none. -/
theorem control_busySince {s : HealthSystem} {a : WorkerTurn} {t : ℕ}
    (ht : (s.control a).busySince = some t) :
    s.busySince = some t ∨
      HasWork s.worker.loc = false ∧ HasWork (s.worker.next a).loc = true := by
  simp only [HealthSystem.control] at ht
  split at ht
  · rename_i hnext
    split at ht
    · exact .inl ht
    · rename_i hnow
      exact .inr ⟨by simpa using hnow, hnext⟩
  · cases ht

theorem StallInv.window_act {s : HealthSystem} (h : StallInv stallMs s) {a : HealthAct}
    (hawake : Awake s a) (i : ℕ) :
    WindowInv stallMs (s.act stallMs a) ((s.act stallMs a).readers i) := by
  have hwindow := h.window i
  cases a with
  | stamp =>
    apply hwindow.idle <;> simp only [HealthSystem.act, stamp_readers, stamp_clock, Nat.le_refl]
    right
    intro t ht
    rw [stamp_busySince] at ht
    exact ⟨ht, stamp_beat h.worker ht⟩
  | control a =>
    refine hwindow.idle rfl rfl (Nat.le_refl _) ?_
    by_cases hnew : HasWork s.worker.loc = false ∧ HasWork (s.worker.next a).loc = true
    · exact .inl (hawake hnew.1 hnew.2 i)
    · exact .inr fun t ht => ⟨(control_busySince ht).resolve_right hnew, id⟩
  | gpuFault => exact hwindow.idle rfl rfl (Nat.le_refl _) (.inr fun t ht => ⟨ht, id⟩)
  | time d => exact hwindow.idle rfl rfl (Nat.le_add_right _ _) (.inr fun t ht => ⟨ht, id⟩)
  | read j =>
    have hfield : ∀ r, WindowInv stallMs s r → WindowInv stallMs (s.read stallMs j) r := by
      intro r hr
      simp only [HealthSystem.read]
      split <;> exact ⟨hr.saw, hr.clock, hr.beat, hr.stalled⟩
    apply hfield
    simp only [HealthSystem.act, read_readers]
    by_cases hij : i = j
    · subst hij
      simpa using hwindow.next h.worker
    · simpa [Function.update_of_ne hij] using hwindow

theorem StallInv.report_act {s : HealthSystem} (h : StallInv stallMs s) (a : HealthAct)
    {rep : Report} (hrep : rep ∈ (s.act stallMs a).reports) (hv : rep.verdict = .stalled) {d : ℕ}
    (hd : rep.busyFor = some d) : stallMs < d := by
  cases a with
  | stamp => exact h.report rep (by simpa [HealthSystem.act] using hrep) hv d hd
  | control a => exact h.report rep hrep hv d hd
  | gpuFault => exact h.report rep hrep hv d hd
  | time e => exact h.report rep hrep hv d hd
  | read i =>
    rcases read_reports hrep with hold | ⟨v, hl, rfl⟩
    · exact h.report rep hold hv d hd
    · obtain ⟨t, ht, rfl⟩ := Option.map_eq_some_iff.1 hd
      have hl' : (s.readers i).loc = .decided .stalled := by rw [hl, show v = .stalled from hv]
      have hlt : t + stallMs < s.clock := (h.window i).stalled hl' t ht
      omega

theorem StallInv.step {s : HealthSystem} (h : StallInv stallMs s) {a : HealthAct}
    (hawake : Awake s a) : StallInv stallMs (s.step stallMs a) where
  worker := h.worker.step a
  window := by
    intro i
    have hact := h.window_act hawake i
    exact ⟨hact.saw, hact.clock, hact.beat, hact.stalled⟩
  report := fun _ hrep hv _ hd => h.report_act a hrep hv hd

theorem StallInv.init : StallInv stallMs {} where
  worker := .init
  window := fun _ => by apply WindowInv.outside <;> simp
  report := by simp

/-- Verdicts over a run: no `ok` after a GPU fault or without a worker that is up, and, in an awake run,
no `stalled` within the stall window of new work. -/
theorem health_verdicts (stallMs : ℕ) (as : List HealthAct) :
    (∀ rep ∈ (as.foldl (HealthSystem.step stallMs) {}).reports,
      (rep.gpuAtStart = true → rep.verdict ≠ .ok) ∧ (rep.verdict = .ok → rep.upSeen = true)) ∧
    (∀ bs, (as.foldl (HealthSystem.step stallMs) {}).gpuFaulted = true →
      ((as ++ bs).foldl (HealthSystem.step stallMs) {}).gpuFaulted = true) ∧
    (Along (HealthSystem.step stallMs) Awake {} as →
      ∀ rep ∈ (as.foldl (HealthSystem.step stallMs) {}).reports, rep.verdict = .stalled →
        ∀ d, rep.busyFor = some d → stallMs < d) := by
  refine ⟨(HealthInv.run as).report, fun bs hlatched => ?_, fun hawake => ?_⟩
  · rw [List.foldl_append]
    have hrun : Along (HealthSystem.step stallMs) (fun _ _ => True)
        (as.foldl (HealthSystem.step stallMs) {}) bs := Along.of_forall (fun _ _ => trivial) bs _
    have hkeep : ∀ (s : HealthSystem) (a : HealthAct), s.gpuFaulted = true → True →
        (s.step stallMs a).gpuFaulted = true := fun _ a h _ => step_gpuFaulted a h
    exact hrun.invariant hkeep hlatched
  · have hstall : StallInv stallMs (as.foldl (HealthSystem.step stallMs) {}) :=
      hawake.invariant (fun _ _ h hok => h.step hok) .init
    exact hstall.report

/-- The worker loads, goes idle, takes a command and begins an iteration. -/
def toTick : List HealthAct :=
  .control .loaded :: List.replicate 4 .stamp ++ .control (.go false) :: List.replicate 3 .stamp ++
    .control (.go false) :: List.replicate 3 .stamp ++ .control (.go false) ::
    List.replicate 3 .stamp

/-- An iteration that does not come back, and a verdict. -/
def wedged : List HealthAct := toTick ++ .time 120001 :: List.replicate 8 (.read 0)

theorem health_verdicts_wedged :
    ∃ rep ∈ (wedged.foldl (HealthSystem.step 120000) {}).reports,
      rep.verdict = .stalled ∧ ∃ d, rep.busyFor = some d ∧ 120000 < d := by
  have hawake : Along (HealthSystem.step 120000) Awake {} wedged := by
    -- no reader has begun at any turn of the control
    have hout : ∀ r : Reader, r.sawBusy = false → ¬InWindow r := by
      intro r hr h
      exact absurd h.1 (by simp [hr])
    exact ⟨fun _ _ _ => hout _ rfl, trivial, trivial, trivial, trivial,
      fun _ _ _ => hout _ rfl, trivial, trivial, trivial,
      fun _ _ _ => hout _ rfl, trivial, trivial, trivial,
      fun _ _ _ => hout _ rfl, trivial, trivial, trivial,
      trivial, trivial, trivial, trivial, trivial, trivial, trivial, trivial, trivial, trivial⟩
  have hrep : (⟨.stalled, false, true, some 120001⟩ : Report) ∈
      (wedged.foldl (HealthSystem.step 120000) {}).reports := List.mem_singleton.2 rfl
  exact ⟨_, hrep, rfl, 120001, rfl,
    (health_verdicts 120000 wedged).2.2 hawake _ hrep rfl 120001 rfl⟩

/-- A reader takes its phase from one period of work and its beat from the idle period after it. -/
def torn : List HealthAct :=
  toTick ++ List.replicate 5 (.read 0) ++ .control (.go false) :: .control (.go false) ::
    List.replicate 3 .stamp ++ .time 120001 :: .read 0 :: .read 0 :: .control (.go false) ::
    [.read 0]

theorem stalled_at_once :
    ¬∀ (stallMs : ℕ) (as : List HealthAct),
      ∀ rep ∈ (as.foldl (HealthSystem.step stallMs) {}).reports, rep.verdict = .stalled →
        ∀ d, rep.busyFor = some d → stallMs < d := by
  intro h
  have hrep : (⟨.stalled, false, true, some 0⟩ : Report) ∈
      (torn.foldl (HealthSystem.step 120000) {}).reports := List.mem_singleton.2 rfl
  exact absurd (h 120000 torn _ hrep rfl 0 rfl) (Nat.not_lt_zero _)

end HealthSystem

end Memra
