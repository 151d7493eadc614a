import Memra.Lib.Sweep
import Memra.Server.Auth
import Memra.Server.SessionStep

/-!
# The scheduler loop

`run` of `worker.rs`: a tick drains the commands, admits from the queue under the lane gate and the memory
gate, takes the sessions through the phases of the tick and retires the finished ones into the pools. The
list `finished` of the source is the tags of a board (`Lib.Board`); `World` holds the answers of one tick.
Two fields are ghosts: `Scheduler.ended`, the requests that have left and how, with their channels, and
`Progress.faults`, the faults of the steps taken.
-/

namespace Memra

open Lib

/-! ## Metering -/

/-- `METER_TENANT_CAP`. -/
def meterTenantCap : ℕ := 256

/-- The rows of `ns_tokens`: prompt and cached tokens. -/
abbrev MeterRows := List (String × ℕ × ℕ)

/-- `entry(key).or_default()` and the two additions. -/
def MeterRows.credit (key : String) (nPrompt nCached : ℕ) : MeterRows → MeterRows
  | [] => [(key, nPrompt, nCached)]
  | (k, n, c) :: rows =>
    if k = key then (k, n + nPrompt, c + nCached) :: rows
    else (k, n, c) :: credit key nPrompt nCached rows

/-- `meter_account`. -/
def meterAccount (rows : MeterRows) (cacheNs : String) (nPrompt nCached : ℕ) : MeterRows :=
  let mk := meterKey cacheNs
  if rows.any (·.1 = mk) || rows.length < meterTenantCap then rows.credit mk nPrompt nCached
  else rows.credit "(other)" nPrompt nCached

/-- The serving counters. -/
structure ServeCounters where
  admitted : ℕ := 0
  completed : ℕ := 0
  promptIn : ℕ := 0
  cachedIn : ℕ := 0
  nsTokens : MeterRows := []
  laneAdmitted : Lane → ℕ := fun _ => 0
  laneShed : Lane → ℕ := fun _ => 0
  laneCompleted : Lane → ℕ := fun _ => 0

/-- One more in the count of a lane. -/
def countLane (count : Lane → ℕ) (lane : Lane) : Lane → ℕ :=
  Function.update count lane (count lane + 1)

/-! ## The state -/

/-- The settings of the scheduler that a single session does not see. -/
structure SchedConfig extends Config where
  primeTokPerMs : ℚ := 8

/-- What the steps of the sessions leave on record: the latency window, the last interactive decode, the
tokens out, and the faults. -/
structure Progress where
  stats : StepStats := {}
  lastInteractive : ℕ := 0
  tokensOut : ℕ := 0
  laneTokens : Lane → ℕ := fun _ => 0
  faults : List StepFault := []

/-- What the visits of a tick share. -/
structure Shared (σ : Type) extends Progress where
  px : PrefixCache PoolKey (Snapshot σ)
  ready : List (ℕ × Tok) := []
  hadInteractive : Bool := false
  requeueOom : List Request := []

/-- The worker between two ticks. -/
structure Scheduler (σ η γ : Type) extends Progress where
  active : List (Session σ η γ) := []
  queue : List Request := []
  pools : Pools σ η := {}
  sessionVramCost : String → Option ℕ := fun _ => none
  counters : ServeCounters := {}
  ended : List (Request × Exit) := []

/-- The phases whose visits get answers. -/
inductive Phase
  | legacy
  | degrade
  | graph
  | demote
  | burst
  | prime
  | prefill
  | eager
  | decode
  | batch
  | dark
  | darkBatch
  | retire

/-- The answers of a tick: the drained commands, the admissions in queue order, the clients found gone, the
sessions younger than the hold, the visits by phase and position, the failures of the calls over several
rows and what they leave, and the measured times. -/
structure World (σ η : Type) where
  cmds : List Request := []
  admits : ℕ → AdmitEnv := fun _ => {}
  gone : ℕ → Bool := fun _ => false
  young : ℕ → Bool := fun _ => false
  visit : Phase → ℕ → VisitEnv σ η := fun _ _ => {}
  groupErr : Phase → ℕ → Option String := fun _ _ => none
  spoilRow : Phase → ℕ → ℕ → KvCache σ → KvCache σ := fun _ _ _ => id
  now : ℕ := 0
  decodeMs : ℚ := 0
  tickMs : ℚ := 0

variable {σ η γ : Type}

/-! ## Commands and admission -/

section

variable (H : Host σ η γ) (cfg : SchedConfig) (hung : ℕ → ℕ → Bool)

/-- The debug form of a text, where it has no character to escape beyond quotes and backslashes. -/
def debugText (s : String) : String :=
  "\"" ++ String.ofList (s.toList.flatMap fun c => if c = '"' ∨ c = '\\' then ['\\', c] else [c]) ++ "\""

/-- `unknown model`. -/
def unknownModel (order : List String) (model : String) : EngineError :=
  .modelNotFound ("unknown model " ++ debugText model ++ "; loaded: [" ++
    String.intercalate ", " (order.map debugText) ++ "]")

/-- A request leaves with an error. -/
def Scheduler.refuse (w : Scheduler σ η γ) (req : Request) (e : EngineError) : Scheduler σ η γ :=
  { w with ended := w.ended ++ [({ req with tx := (req.tx.send (hung req.tx.id) (.error e)).2 }, .ended)] }

/-- `handle_cmd`. -/
def Scheduler.handleCmd (w : Scheduler σ η γ) (req : Request) : Scheduler σ η γ :=
  if req.model ∈ H.order then { w with queue := w.queue ++ [req] }
  else w.refuse hung req (unknownModel H.order req.model)

/-- The number of sessions of a lane. -/
def laneCount (lane : Lane) (active : List (Session σ η γ)) : ℕ :=
  active.countP fun s => s.lane = lane

/-- The cap of a lane. -/
def laneCap (cfg : Config) (lane : Lane) : ℕ :=
  if lane = .interactive then
    if cfg.batching then cfg.maxSessions else if cfg.confidenceTrace then 1 else maxActive
  else cfg.laneMax lane

/-- Interactive work exists, and none has decoded for longer than the SLO. -/
def Scheduler.starved (cfg : Config) (now : ℕ) (w : Scheduler σ η γ) : Bool :=
  (w.active.any fun s => s.lane = .interactive) && cfg.sloP99Ms < elapsedMs now w.lastInteractive

/-- The memory gate: with sessions active, the effective free memory must cover the observed cost of a
session of the model and the reserve. -/
def Scheduler.vramDefers (env : AdmitEnv) (w : Scheduler σ η γ) (req : Request) : Bool :=
  !w.active.isEmpty &&
  match w.sessionVramCost req.model, env.gateFree with
  | some cost, some free =>
    let reserve :=
      if cfg.serveSpec && (H.loaded req.model).mtp then cfg.admitReserve.getD specShrinkReserve else cost
    satAdd free env.poolCached < satAdd cost reserve
  | _, _ => false

/-- The session joins the active list; the first of a model leaves its cost. -/
def Scheduler.join (env : AdmitEnv) (w : Scheduler σ η γ) (s : Session σ η γ) : Scheduler σ η γ :=
  let c := w.counters
  { w with
    active := w.active ++ [s]
    sessionVramCost :=
      match w.sessionVramCost s.model, env.freeBefore, env.freeAfter with
      | none, some before, some after =>
        if 0 < before - after then
          Function.update w.sessionVramCost s.model (some (before - after))
        else w.sessionVramCost
      | _, _, _ => w.sessionVramCost
    counters := { c with
      admitted := c.admitted + 1
      laneAdmitted := countLane c.laneAdmitted s.lane
      promptIn := c.promptIn + s.nPrompt
      cachedIn := c.cachedIn + s.nCached
      nsTokens := meterAccount c.nsTokens s.cacheNs s.nPrompt s.nCached } }

/-- A dark request is refused with a retryable error. -/
def Scheduler.shed (w : Scheduler σ η γ) (req : Request) (message : String) : Scheduler σ η γ :=
  { w with counters := { w.counters with
      laneShed := countLane w.counters.laneShed req.lane } }.refuse hung req (.rateLimit message)

/-- The lane gate's reading of the window, and the window behind it. -/
def Scheduler.laneGate (cfg : Config) (env : AdmitEnv) (w : Scheduler σ η γ) (lane : Lane) :
    Bool × StepStats :=
  let starved := w.starved cfg env.now
  let reading := w.stats.p env.now 99
  (laneAdmit cfg lane reading.1 starved,
    if lane = .interactive ∨ starved then w.stats else reading.2)

/-- What the admission phase makes of one request of the queue: the worker, and whether it waits. -/
def Scheduler.admitOne (env : AdmitEnv) (w : Scheduler σ η γ) (req : Request) : Scheduler σ η γ × Bool :=
  if req.tx.closed || env.gone then
    ({ w with ended := w.ended ++ [({ req with tx := { req.tx with closed := true } }, .aborted)] }, false)
  else if laneCap cfg.toConfig req.lane ≤ laneCount req.lane w.active then
    if req.lane = .interactive then (w, true)
    else (w.shed hung req ("lane " ++ req.lane.asStr ++ " is at capacity, retry"), false)
  else
    let gate := w.laneGate cfg.toConfig env req.lane
    let w := { w with stats := gate.2 }
    if !gate.1 then
      (w.shed hung req ("lane " ++ req.lane.asStr ++ " shed: interactive p99 over budget, retry"),
        false)
    else if w.vramDefers H cfg env req then (w, true)
    else
      match admitRequest H cfg.toConfig env w.pools w.active.length req with
      | (.ok s, pools) => ({ w with pools }.join env s, false)
      | (.error e, pools) => ({ w with pools }.refuse hung req e, false)

/-- The admission phase over the requests of the queue, with what waits. -/
def Scheduler.admitAll (admits : ℕ → AdmitEnv) : ℕ → List Request → Scheduler σ η γ → Scheduler σ η γ × List Request
  | _, [], w => (w, [])
  | i, req :: reqs, w =>
    let r := w.admitOne H cfg hung (admits i) req
    let rest := admitAll admits (i + 1) reqs r.1
    (rest.1, if r.2 then req :: rest.2 else rest.2)

/-- The admission phase. -/
def Scheduler.admission (admits : ℕ → AdmitEnv) (w : Scheduler σ η γ) : Scheduler σ η γ :=
  let r := w.admitAll H cfg hung admits 0 w.queue
  { r.1 with queue := r.2 }

end

/-! ## The phases of a tick -/

/-- The board of a tick. -/
abbrev TickBoard (σ η γ : Type) := Board (Shared σ) (Session σ η γ) Exit

/-- A visit to a session. -/
abbrev Visit (σ η γ : Type) := Shared σ → Session σ η γ → Shared σ × Session σ η γ × Option Exit

/-- The faults of a step go on record. -/
def Shared.note (sh : Shared σ) (faults : List StepFault) : Shared σ :=
  { sh with faults := sh.faults ++ faults }

/-- A token of a lane is counted. -/
def Shared.countToken (sh : Shared σ) (lane : Lane) : Shared σ :=
  { sh with tokensOut := sh.tokensOut + 1, laneTokens := countLane sh.laneTokens lane }

namespace Visit

/-- Only where `p` holds. -/
def guarded (p : Session σ η γ → Bool) (f : Visit σ η γ) : Visit σ η γ := fun sh s =>
  if p s then f sh s else (sh, s, none)

/-- The sweep for closed channels. -/
def abort (gone : Bool) : Visit σ η γ := fun sh s =>
  if s.tx.closed || gone then (sh, { s with tx := { s.tx with closed := true } }, some .aborted)
  else (sh, s, none)

variable (H : Host σ η γ) (cfg : SchedConfig) (hung : ℕ → ℕ → Bool)

/-- `step_session` in the legacy round robin. -/
def legacy (env : VisitEnv σ η) : Visit σ η γ := fun sh s =>
  let r := s.step hung H (H.loaded s.model) cfg.toConfig env
  (sh.note r.faults, Session.settle hung "step error: " r)

/-- (a0) The degrade of a graph session. -/
def degrade (env : VisitEnv σ η) : Visit σ η γ := fun sh s =>
  let r := s.degrade hung (H.loaded s.model) env
  (sh.note r.faults, Session.settle hung "degrade: " r)

/-- (a0) The tick of the lone session on the graph path. -/
def graph (env : VisitEnv σ η) : Visit σ η γ := fun sh s =>
  let r := s.graphTick hung (H.loaded s.model) cfg.toConfig env
  (if r.replayed then
      { sh.countToken .interactive with
        stats := sh.stats.record env.now env.ms
        lastInteractive := env.now }
    else sh,
    r.s, r.exit)

/-- (a-) The demotion. -/
def demote (nLive : ℕ) (env : VisitEnv σ η) : Visit σ η γ := fun sh s =>
  let r := s.demote (H.loaded s.model) cfg.toConfig env nLive
  (sh.note r.faults, Session.settle hung "" r)

/-- (a) A burst; a parked request waits for the end of the tick. -/
def burst (env : VisitEnv σ η) : Visit σ η γ := fun sh s =>
  let r := s.step hung H (H.loaded s.model) cfg.toConfig env
  let sh := sh.note r.faults
  let out := match r.stop with
    | .fail err => r.s.parkOrFail hung cfg.toConfig err
    | _ => Session.settle hung "" r
  ({ sh with requeueOom := sh.requeueOom ++ (out.2.bind Exit.request?).toList }, out)

/-- A row of a batched prime; `seed` is the learning insert into the prefix cache. -/
def primeRow (seed : Bool) (env : VisitEnv σ η) : Visit σ η γ := fun sh s =>
  let s := s.primeRow (H.loaded s.model)
  if seed then
    let t := Prefill.maybePrefixSeed cfg.toConfig env.tick { s, px := sh.px }
    ({ sh with px := t.px }, t.s, none)
  else (sh, s, none)

/-- What a failed call over several rows leaves of a cache. -/
def tear (spoil : KvCache σ → KvCache σ) : Visit σ η γ := fun sh s =>
  (sh.note [.engine], { s with cache := s.cache.map spoil }, none)

/-- A prefill tick. -/
def prefill (budget : ℕ) (env : VisitEnv σ η) : Visit σ η γ := fun sh s =>
  let r := prefillTick (H.loaded s.model) cfg.toConfig env.tick s sh.px budget
  match r.1 with
  | .error err =>
    let s := { r.2.s with cache := r.2.s.cache.map env.spoil }
    ({ sh with px := r.2.px }, s.sendError hung ("prefill error: " ++ err), some .ended)
  | .ok _ => ({ sh with px := r.2.px }, r.2.s, none)

/-- (c-) The decode of a model that has no batched arm. -/
def eager (env : VisitEnv σ η) : Visit σ η γ := fun sh s =>
  let r := s.step hung H (H.loaded s.model) cfg.toConfig env
  let sh := sh.note r.faults
  (match r.stop with
    | .goOn =>
      let sh := sh.countToken s.lane
      if s.lane = .interactive then { sh with lastInteractive := env.now } else sh
    | _ => sh,
    Session.settle hung "step error: " r)

/-- (c) The host half of a batched step: emit, then stage the mask; a survivor is ready. -/
def decode (i : ℕ) (env : VisitEnv σ η) : Visit σ η γ := fun sh s =>
  match s.advanceSampleEmit hung H (H.loaded s.model) env with
  | ((s, none), some t) =>
    match s.stageGrammarMask (H.loaded s.model) cfg.toConfig env with
    | (some err, s) => (sh, s.sendError hung ("constraint mask: " ++ err), some .ended)
    | (none, s) =>
      ({ sh with
          ready := sh.ready ++ [(i, t)]
          hadInteractive := sh.hadInteractive || s.lane = .interactive },
        s, none)
  | ((s, e), _) => (sh, s, e)

/-- (c) A row of a batched step. -/
def batchRow (tok : Tok) : Visit σ η γ := fun sh s =>
  (sh.countToken s.lane, s.batchRow (H.loaded s.model) cfg.toConfig tok, none)

/-- (c) A row of a batched step that failed. -/
def batchFail (spoil : KvCache σ → KvCache σ) (err : String) : Visit σ η γ := fun sh s =>
  (sh.note [.engine],
    ({ s with cache := s.cache.map spoil }).sendError hung ("batch step: " ++ err), some .ended)

end Visit

namespace Scheduler

variable (H : Host σ η γ) (cfg : SchedConfig) (hung : ℕ → ℕ → Bool) (env : World σ η)

/-- A sweep over the positions of `order` with the answers of a phase. -/
def sweepPhase (phase : Phase) (f : VisitEnv σ η → Visit σ η γ) (order : List ℕ)
    (b : TickBoard σ η γ) : TickBoard σ η γ :=
  b.sweep (fun i => f (env.visit phase i)) id order

/-- All positions. -/
def positions (b : TickBoard σ η γ) : List ℕ := List.range b.slots.length

/-- (a0) With others active, graph sessions go back to batched decode; alone, a session may be promoted
and steps its graph. -/
def graphPhase (b : TickBoard σ η γ) : TickBoard σ η γ :=
  if !cfg.serveGs then b
  else if 1 < b.slots.length then
    sweepPhase env .degrade (Visit.degrade H hung) (positions b) b
  else sweepPhase env .graph (Visit.graph H cfg hung) (positions b) b

/-- (a-) Speculative sessions are handed over in a crowd, or past the token count of the test door. -/
def demotePhase (b : TickBoard σ η γ) : TickBoard σ η γ :=
  if cfg.specGate || cfg.specDemoteAt.isSome then
    let nLive := (b.running fun _ => true).length
    let forced := cfg.specDemoteAt.any fun n =>
      !(b.running fun s => s.spec.isSome && n ≤ s.generated.length).isEmpty
    if cfg.specGateHigh ≤ nLive || forced then
      sweepPhase env .demote (Visit.demote H cfg hung nLive) (positions b) b
    else b
  else b

/-- The order of the bursts: sessions that have emitted nothing first. -/
def specOrder (b : TickBoard σ η γ) : List ℕ :=
  let spec (p : Session σ η γ → Bool) := (positions b).filter fun i =>
    (b.slots[i]?).any fun x => x.val.spec.isSome && p x.val
  if cfg.admitYield then spec (·.generated.isEmpty) ++ spec (!·.generated.isEmpty)
  else spec fun _ => true

/-- (a) The bursts. -/
def burstPhase (b : TickBoard σ η γ) : TickBoard σ η γ :=
  sweepPhase env .burst (Visit.burst H cfg hung) (specOrder cfg b) b

/-- The least prompt that `prime_cache` takes. -/
def minPrime : ℕ := max primeMinT 2

/-- A fresh interactive prompt that can be primed with others. -/
def primeFits (s : Session σ η γ) : Bool :=
  s.spec.isNone && !s.prefillDone && s.graph.isNone && s.lane = .interactive && s.fed.isEmpty &&
  (s.cache.any fun c => c.pos = 0) && !(H.loaded s.model).eagerOnly && s.snapshotAt.isNone &&
  minPrime ≤ s.prefillQueue.length && s.prefillQueue.length ≤ cfg.primeBatchMaxT &&
  s.prefillQueue.length ≤ cfg.prefillBudget .interactive

/-- The candidates of a batched prime: the first that fits and those of its model behind it. -/
def primeCandidates (b : TickBoard σ η γ) : List ℕ :=
  if 2 ≤ cfg.primeBatch ∧ !cfg.confidenceTrace then
    match b.running (primeFits H cfg) with
    | [] => []
    | i :: is =>
      let model := (b.running? i).map (·.model)
      ((i :: is).filter fun j => (b.running? j).map (·.model) = model).take cfg.primeBatch
  else []

/-- The rounds of batched primes, with the candidates of the last one. -/
def primeRounds : ℕ → ℕ → TickBoard σ η γ → TickBoard σ η γ × List ℕ
  | 0, _, b => (b, primeCandidates H cfg b)
  | fuel + 1, k, b =>
    let cand := primeCandidates H cfg b
    if cand.length < 2 then (b, cand)
    else if (env.groupErr .prime k).isSome then
      (b.sweep (fun i => Visit.tear (env.spoilRow .prime k i)) id cand, cand)
    else
      primeRounds fuel (k + 1) (sweepPhase env .prime (Visit.primeRow H cfg true) cand b)

/-- (b) Interactive prefill: batched primes, then a tick for each session but a held one. -/
def interactivePrefill (b : TickBoard σ η γ) : TickBoard σ η γ :=
  let r := primeRounds H cfg env b.slots.length 0 b
  let held := match r.2 with
    | [i] => if env.young i then some i else none
    | _ => none
  sweepPhase env .prefill (fun v => Visit.guarded
      (fun s => s.spec.isNone && !s.prefillDone && s.lane = .interactive)
      (Visit.prefill H cfg hung (cfg.prefillBudget .interactive) v))
    ((positions r.1).filter fun i => held ≠ some i) r.1

/-- (c-) One token for each session of an eager-only model. -/
def eagerPhase (b : TickBoard σ η γ) : TickBoard σ η γ :=
  sweepPhase env .eager (fun v => Visit.guarded
      (fun s => (H.loaded s.model).eagerOnly && s.spec.isNone && s.prefillDone && s.cache.isSome)
      (Visit.eager H cfg hung v)) (positions b) b

/-- A session that decodes in the batch. -/
def decodes (s : Session σ η γ) : Bool :=
  s.spec.isNone && s.prefillDone && s.cache.isSome && !(H.loaded s.model).eagerOnly

/-- The sessions that decode in the batch, by lane. -/
def decoding (b : TickBoard σ η γ) : List ℕ :=
  Lane.all.flatMap fun l => b.running fun s => decodes H s && s.lane = l

/-- One more row: into the last chunk, if it has room and is of the same model. -/
def groupRow (model : ℕ → Option String) (cap : ℕ → ℕ) (chunks : List (List (ℕ × Tok)))
    (row : ℕ × Tok) : List (List (ℕ × Tok)) :=
  match chunks.getLast? with
  | some c =>
    if c.length < cap row.1 ∧ (c.head?.bind fun r => model r.1) = model row.1 then
      chunks.dropLast ++ [c ++ [row]]
    else chunks ++ [[row]]
  | none => [[row]]

/-- `group_chunks`. -/
def groupChunks (model : ℕ → Option String) (cap : ℕ → ℕ) (ready : List (ℕ × Tok)) :
    List (List (ℕ × Tok)) := ready.foldl (groupRow model cap) []

/-- The chunks of the ready rows. -/
def chunksOf (b : TickBoard σ η γ) : List (List (ℕ × Tok)) :=
  groupChunks (fun i => (b.running? i).map (·.model))
    (fun i => ((b.running? i).map fun s => (H.loaded s.model).chunkCap).getD 8) b.shared.ready

/-- The batched step of chunk `k`. -/
def chunkStep (b : TickBoard σ η γ) (k : ℕ) (chunk : List (ℕ × Tok)) : TickBoard σ η γ :=
  match env.groupErr .batch k with
  | none => b.sweep (fun row => Visit.batchRow H cfg row.2) Prod.fst chunk
  | some err => b.sweep (fun row => Visit.batchFail hung (env.spoilRow .batch k row.1) err) Prod.fst chunk

/-- The batched steps, one chunk after another. -/
def chunkSteps : ℕ → List (List (ℕ × Tok)) → TickBoard σ η γ → TickBoard σ η γ
  | _, [], b => b
  | k, chunk :: chunks, b => chunkSteps (k + 1) chunks (chunkStep H cfg hung env b k chunk)

/-- (c) Batched decode: the host half in lane order, then the chunks. -/
def decodePhase (b : TickBoard σ η γ) : TickBoard σ η γ :=
  let b := b.sweep (fun i => Visit.decode H cfg hung i (env.visit .decode i)) id (decoding H b)
  let b := chunkSteps H cfg hung env 0 (chunksOf H b) b
  if b.shared.hadInteractive then
    { b with shared := { b.shared with lastInteractive := env.now } }
  else b

/-- The tokens of dark prefill that fit into what decode has left of the SLO. -/
def adaptiveCap : ℕ := ⌊max (cfg.sloP99Ms - env.decodeMs) 0 * cfg.primeTokPerMs⌋₊

/-- A dark session with something left to prime. -/
def darkPrefills (s : Session σ η γ) : Bool :=
  s.spec.isNone && !s.prefillDone && s.lane ≠ .interactive && 0 < cfg.prefillBudget s.lane

/-- A dark prompt that can be primed with others: the cache holds what was fed. -/
def darkFits (s : Session σ η γ) : Bool :=
  darkPrefills cfg s && s.graph.isNone && s.snapshotAt.isNone &&
  (s.cache.any fun c => c.pos = s.fed.length) && !(H.loaded s.model).eagerOnly &&
  minPrime ≤ s.prefillQueue.length

/-- The candidates of a dark batched prime: of one lane and one model, within the budget. -/
def darkCandidates (cap : Lane → ℕ) (b : TickBoard σ η γ) :
    Option (Lane × String) → ℕ → List ℕ → List ℕ
  | _, _, [] => []
  | first, sum, i :: is =>
    match b.running? i with
    | none => darkCandidates cap b first sum is
    | some s =>
      if darkFits H cfg s ∧ sum + s.prefillQueue.length ≤ cap s.lane ∧
          first.all (· = (s.lane, s.model)) then
        i :: darkCandidates cap b (some (s.lane, s.model)) (sum + s.prefillQueue.length) is
      else darkCandidates cap b first sum is

/-- One dark chunk: the first dark session in need of one. -/
def darkChunk (b : TickBoard σ η γ) : TickBoard σ η γ :=
  match b.running (darkPrefills cfg) with
  | [] => b
  | i :: _ =>
    let budget := min (((b.running? i).map fun s => cfg.prefillBudget s.lane).getD 0) (adaptiveCap cfg env)
    if budget < primeMinT then b
    else sweepPhase env .dark (Visit.prefill H cfg hung budget) [i] b

/-- (d) Dark prefill: a batch inside the headroom, else one chunk. -/
def darkPrefill (b : TickBoard σ η γ) : TickBoard σ η γ :=
  let cap := fun lane => min (cfg.prefillBudget lane) (adaptiveCap cfg env)
  let cand := darkCandidates H cfg cap b none 0 (positions b)
  if cand.length < 2 then darkChunk H cfg hung env b
  else if (env.groupErr .darkBatch 0).isSome then
    darkChunk H cfg hung env (b.sweep (fun i => Visit.tear (env.spoilRow .darkBatch 0 i)) id cand)
  else sweepPhase env .darkBatch (Visit.primeRow H cfg false) cand b

/-- The end of the batched phases: a tick that advanced an interactive session is a sample. -/
def recordTick (b : TickBoard σ η γ) : TickBoard σ η γ :=
  if b.shared.hadInteractive then
    { b with shared := { b.shared with stats := b.shared.stats.record env.now env.tickMs } }
  else b

/-- The phases of a batched tick. -/
def batchedPhases (b : TickBoard σ η γ) : TickBoard σ η γ :=
  let b := graphPhase H cfg hung env b
  let b := demotePhase H cfg hung env b
  let b := burstPhase H cfg hung env b
  let b := interactivePrefill H cfg hung env b
  let b := eagerPhase H cfg hung env b
  let b := decodePhase H cfg hung env b
  let b := darkPrefill H cfg hung env b
  recordTick env b

/-- What a tick does to the active sessions. -/
def phases (b : TickBoard σ η γ) : TickBoard σ η γ :=
  let b := b.sweep (fun i => Visit.abort (env.gone i)) id (positions b)
  if cfg.batching then batchedPhases H cfg hung env b
  else sweepPhase env .legacy (Visit.legacy H cfg hung) (positions b) b

end Scheduler

/-! ## Retiring -/

/-- Push into a pool of at most `reusePool` entries, oldest first. -/
def poolPush {α : Type} (cap : ℕ) (pool : List α) (e : α) : List α :=
  let pool := pool.drop (pool.length - (max cap 1 - 1))
  if 0 < cap then pool ++ [e] else pool

/-- The entry of a retired speculative session: committed in full, long enough, with a prediction. -/
def specEntry (lm : LoadedModel σ η γ) (env : VisitEnv σ η) (caches : SpecCaches σ η)
    (affinity : Option String) : Option (SpecReuseEntry σ η) :=
  if caches.sess.pendingTok.isSome ∧ env.flushErr.isSome then none
  else
    let sess := specFlushPending lm.E.T caches.sess
    let toks := sess.committed
    if reuseMinPrefix ≤ toks.length ∧ sess.nextPred.isSome then
      let skip := if lm.bosId.isSome ∧ toks.head? = lm.bosId then 1 else 0
      some {
        caches := { caches with sess }
        committedText := lm.decodeSpecial (toks.drop skip)
        affinity
        fingerprint := conversationFingerprint toks lm.tokenIsControl false }
    else none

/-- The entry of a retired plain session: its last row, from the device where the host has none. -/
def plainEntry (env : VisitEnv σ η) (s : Session σ η γ) : Option (ReuseEntry σ) :=
  if reuseMinPrefix ≤ s.fed.length ∧ s.prefillDone then
    match s.cache with
    | none => none
    | some cache =>
      let lastLogits :=
        if s.lastLogits = [] then
          if env.dtohErr.isSome then [] else cache.lastLogitsDev.getD []
        else s.lastLogits
      if lastLogits = [] then none
      else some { fed := s.fed, cache, lastLogits, cap := cache.maxCtx }
  else none

/-- What a retired session leaves in the pools. -/
def parkSession (H : Host σ η γ) (cfg : Config) (env : VisitEnv σ η) (s : Session σ η γ)
    (p : Pools σ η) : Pools σ η :=
  match s.spec with
  | some caches =>
    match specEntry (H.loaded s.model) env caches s.affinity with
    | none => p
    | some e =>
      { p with
        specReuse :=
          Function.update p.specReuse s.poolKey (poolPush cfg.reusePool (p.specReuse s.poolKey) e) }
  | none =>
    match plainEntry env s with
    | none => p
    | some e =>
      { p with
        reuse := Function.update p.reuse s.poolKey (poolPush cfg.reusePool (p.reuse s.poolKey) e) }

namespace Scheduler

variable (H : Host σ η γ) (cfg : SchedConfig) (hung : ℕ → ℕ → Bool)

/-- A finished session leaves. A parked one has its channel in the queued request. -/
def retire (env : VisitEnv σ η) (w : Scheduler σ η γ) (s : Session σ η γ) (e : Exit) : Scheduler σ η γ :=
  { w with
    pools := parkSession H cfg.toConfig env s w.pools
    counters := { w.counters with
      completed := w.counters.completed + 1
      laneCompleted := countLane w.counters.laneCompleted s.lane }
    ended := if e.request?.isSome then w.ended else w.ended ++ [(s.request, e)] }

/-- The slots from the last to the first: the finished ones leave. -/
def retireSlots (env : World σ η) : List (Berth (Session σ η γ) Exit) → ℕ → Scheduler σ η γ → Scheduler σ η γ
  | [], _, w => w
  | x :: xs, i, w =>
    let w := retireSlots env xs (i + 1) w
    match x.exit with
    | none => { w with active := x.val :: w.active }
    | some e => w.retire H cfg (env.visit .retire i) x.val e

/-- The worker behind the phases of a tick: the finished sessions leave, the parked requests go to the
front of the queue. -/
def finishTick (env : World σ η) (w : Scheduler σ η γ) (b : TickBoard σ η γ) : Scheduler σ η γ :=
  let w := retireSlots H cfg env b.slots 0 { w with
    toProgress := b.shared.toProgress
    active := []
    pools := { w.pools with px := b.shared.px } }
  { w with queue := b.shared.requeueOom ++ w.queue }

/-- The board on which a tick starts. -/
def board (w : Scheduler σ η γ) : TickBoard σ η γ :=
  Board.start { toProgress := w.toProgress, px := w.pools.px } w.active

/-- One turn of the loop. -/
def tick (w : Scheduler σ η γ) (env : World σ η) : Scheduler σ η γ :=
  let w := (env.cmds.foldl (handleCmd H hung) w).admission H cfg hung env.admits
  w.finishTick H cfg env (phases H cfg hung env w.board)

/-- The turns of the loop, one after another. -/
def run (envs : List (World σ η)) (w : Scheduler σ η γ) : Scheduler σ η γ :=
  envs.foldl (tick H cfg hung) w

end Scheduler

end Memra
