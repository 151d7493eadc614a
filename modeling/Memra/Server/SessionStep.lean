import Memra.Server.Prefill
import Memra.Server.SpecStep
import Memra.Server.Lanes

/-!
# One step of a session

What the worker (`worker.rs`) does to one session: `step_session` with its three arms, the host half of a
batched step (`advance_sample_emit`, `stage_grammar_mask`) and its row of the batch, the graph path
(promotion, step, degrade), the hand-over of a speculative session to batched decode. A step goes on, lets
the session leave the active list, or fails with a text that the caller sends. A failed engine call may
leave anything in a cache (`VisitEnv.spoil`).
-/

namespace Memra

variable {σ η γ : Type}

/-- How a session leaves the active list: a terminal event was sent, the client is gone, or the request
is back for the queue. -/
inductive Exit
  | ended
  | aborted
  | parked (req : Request)
  deriving DecidableEq

/-- The request that a parked session leaves. -/
def Exit.request? : Exit → Option Request
  | ended => none
  | aborted => none
  | parked req => some req

/-- What a step comes to. -/
inductive StepEnd
  | goOn
  | leave (e : Exit)
  | fail (err : String)
  deriving DecidableEq

/-- Why a session is unfit for reuse: an engine call failed over its cache, the degrade ended it with a
row that is not its cache's, a burst emitted nothing under a carried bonus, or it was handed over with a
`fed` that is not what its cache holds. -/
inductive StepFault
  | engine
  | staleRow
  | idleBurst
  | shortFed
  deriving DecidableEq

/-- The session behind a step, what the step came to, and, as a ghost, its faults. -/
structure Stepped (σ η γ : Type) where
  s : Session σ η γ
  stop : StepEnd := .goOn
  faults : List StepFault := []

/-- The answers one visit to a session gets: the failures of the engine calls, of the mask and of the
draws, what a failed call leaves of a cache, what a failed burst had handed out, and the clock. -/
structure VisitEnv (σ η : Type) where
  tick : TickEnv := {}
  stepErr : Option String := none
  maskErr : Option String := none
  stageErr : Option String := none
  captureErr : Option String := none
  flushErr : Option String := none
  dtohErr : Option String := none
  hookText : String := ""
  burstErr : Option String := none
  slices : List (List Tok) := []
  spoil : KvCache σ → KvCache σ := id
  spoilSpec : SpecSession σ η → SpecSession σ η := id
  rng : Lib.Rng := { pick := fun _ _ => 0, flip := fun _ _ => true }
  keep : List (List Tok) → Bool := fun _ => true
  captureOk : Bool := true
  ckptOk : Bool := true
  now : ℕ := 0
  ms : ℚ := 0

namespace Session

variable (hung : ℕ → ℕ → Bool)

/-- `s.tx.send`; `hung id n` says that the client of channel `id` is gone by its send number `n`. -/
def send (s : Session σ η γ) (ev : Event) : Bool × Session σ η γ :=
  let r := s.tx.send (hung s.tx.id) ev
  (r.1, { s with tx := r.2 })

/-- `finish`. -/
def finish (s : Session σ η γ) (reason : StopReason) : Session σ η γ :=
  (s.send hung (.done reason s.generated.length s.nPrompt s.nCached)).2

/-- The error event of a failed step. -/
def sendError (s : Session σ η γ) (message : String) : Session σ η γ :=
  (s.send hung (.error (.engine message))).2

/-- A failure is sent behind the text `pre` and ends the session. -/
def settle (pre : String) (r : Stepped σ η γ) : Session σ η γ × Option Exit :=
  match r.stop with
  | .goOn => (r.s, none)
  | .leave e => (r.s, some e)
  | .fail err => (r.s.sendError hung (pre ++ err), some .ended)

/-! ## Emission -/

variable (H : Host σ η γ) (lm : LoadedModel σ η γ) (cfg : Config) (env : VisitEnv σ η)

/-- `SessionConstraint::consume`, where there is a constraint. -/
def consumeTok (c : Option γ) (tok : Tok) : Option (Option γ) :=
  match c with
  | none => some none
  | some c => if lm.grammar.allowed c tok then some (some (lm.grammar.advance c tok)) else none

/-- The stop battery behind a streamed token; `guard` is the context guard. -/
def stopBattery (guard : Bool) (s : Session σ η γ) : Stepped σ η γ :=
  if s.stopStrings.any (hasText (lm.fullText s.generated)) then
    { s := s.finish hung .callback, stop := .leave .ended }
  else if guard && s.cache.any fun c => c.maxCtx ≤ c.pos then
    { s := s.finish hung .contextFull, stop := .leave .ended }
  else { s }

/-- What follows the choice of a token: accept it, stop at an end token, advance the grammar, stream the
text, run the stop battery. -/
def emitNext (guard : Bool) (next : Tok) (s : Session σ η γ) : Stepped σ η γ :=
  let s := { s with sampler := s.sampler.accept [next], generated := s.generated ++ [next] }
  if next ∈ s.params.eos then { s := s.finish hung .eos, stop := .leave .ended }
  else
    match consumeTok lm s.constraint next with
    | none => { s, stop := .fail ("constraint advance: " ++ env.hookText) }
    | some constraint =>
      let d := lm.deltaText s.generated s.emittedBytes
      let r := { s with constraint, emittedBytes := d.2 }.send hung (.token next d.1)
      if r.1 then r.2.stopBattery hung lm guard else { s := r.2, stop := .leave .aborted }

/-- The next token: the one the device drew, else the sampler's draw from the (masked) row. -/
def drawNext (s : Session σ η γ) : Except String Tok × Session σ η γ :=
  let s' := { s with deviceNext := none }
  match s.deviceNext, s.constraint with
  | some t, _ => (.ok t, s')
  | none, some c =>
    match env.maskErr with
    | some err => (.error ("constraint mask: " ++ err), s')
    | none =>
      let r := H.sample s.sampler (applyMask (lm.grammar.allowed c) s.lastLogits)
      (.ok r.1, { s' with sampler := r.2 })
  | none, none =>
    let r := H.sample s.sampler s.lastLogits
    (.ok r.1, { s' with sampler := r.2 })

/-- The budget check, the draw and the emission of one token, and the token. -/
def drawEmit (s : Session σ η γ) : Stepped σ η γ × Option Tok :=
  if s.budget ≤ s.generated.length then
    ({ s := s.finish hung .maxNew, stop := .leave .ended }, none)
  else
    match s.drawNext H lm env with
    | (.error err, s) => ({ s, stop := .fail err }, none)
    | (.ok next, s) => (s.emitNext hung lm env true next, some next)

/-- `advance_sample_emit`: the token to feed, unless the session ends. -/
def advanceSampleEmit (s : Session σ η γ) : (Session σ η γ × Option Exit) × Option Tok :=
  let r := s.drawEmit hung H lm env
  (settle hung "" r.1, r.2)

/-- `advance_token_emit`: the token is the device's. -/
def advanceTokenEmit (tok : Tok) (s : Session σ η γ) : Session σ η γ × Option Exit :=
  if s.budget ≤ s.generated.length then (s.finish hung .maxNew, some .ended)
  else settle hung "" (s.emitNext hung lm env false tok)

/-- `devsample_meta`: temperature, seed and counter of a row that is sampled on the device. -/
def devsampleMeta (s : Session σ η γ) : Option (ℚ × ℕ × ℕ) :=
  let c := s.sampler.cfg
  if !cfg.devsample || !c.noPen || c.topK ≠ 0 || c.topP < 1 || 0 < c.minP then none
  else if c.isGreedy then some (0, 0, 0)
  else some (c.temperature, c.seed, s.generated.length % 2 ^ 32)

/-- `stage_grammar_mask`: the failure, and the words staged. -/
def stageGrammarMask (s : Session σ η γ) : Option String × Session σ η γ :=
  if s.constraint.isNone || cfg.constrainHost || (s.devsampleMeta cfg).isNone then
    (none, { s with maskWords := 0 })
  else
    match env.stageErr with
    | some err => (some err, { s with maskWords := 0 })
    | none => (none, { s with maskWords := (lm.E.T.vocab + 31) / 32 })

/-! ## Engine steps -/

/-- The failed unwrap of a cache that is not there. -/
def unwrapNone : String := Prefill.unwrapNone

/-- `decode_step` on the session's cache. -/
def decodeStep (tok : Tok) (s : Session σ η γ) : Stepped σ η γ :=
  match s.cache with
  | none => { s, stop := .fail unwrapNone }
  | some c =>
    match env.stepErr with
    | some err => { s := { s with cache := some (env.spoil c) }, stop := .fail err, faults := [.engine] }
    | none =>
      let c := c.feed lm.E.T [tok]
      { s := { s with
          cache := some c
          lastLogits := lm.E.T.row c.st
          fed := s.fed ++ [tok] } }

/-- How a row of the batched step is sampled on the device, if it is. -/
def rowMeta (s : Session σ η γ) : Option (ℚ × ℕ × ℕ) :=
  if s.constraint.isSome && s.maskWords = 0 then none else s.devsampleMeta cfg

/-- The row the device samples from: the grammar's ban, where one was staged. -/
def maskedRow (s : Session σ η γ) (row : Row) : Row :=
  match s.constraint with
  | some c => if 0 < s.maskWords then applyMask (lm.grammar.allowed c) row else row
  | none => row

/-- The device draw: argmax, or the seeded draw at a temperature. -/
def deviceDraw (m : ℚ × ℕ × ℕ) (row : Row) : Tok :=
  if m.1 ≤ 0 then argmax row else lm.gumbel m.1 m.2.1 m.2.2 row

/-- A row of `decode_step_batch_sampled_lean_masked`. A lean row stays on the device, without the ban. -/
def batchRow (tok : Tok) (s : Session σ η γ) : Session σ η γ :=
  match s.cache with
  | none => s
  | some c =>
    let c := c.feed lm.E.T [tok]
    let row := lm.E.T.row c.st
    let s' := { s with cache := some c, lastLogits := row, fed := s.fed ++ [tok], deviceNext := none }
    match s.rowMeta cfg with
    | none => s'
    | some m =>
      let next := deviceDraw lm m (s.maskedRow lm row)
      if cfg.leanLogits then
        { s' with
          cache := some { c with lastLogitsDev := some row }
          lastLogits := []
          deviceNext := some next }
      else { s' with deviceNext := some next }

/-- A row of `prime_cache_batch`: the whole queue is primed. -/
def primeRow (s : Session σ η γ) : Session σ η γ :=
  match s.cache with
  | none => s
  | some c =>
    let c := c.feed lm.E.T s.prefillQueue
    { s with
      cache := some c
      lastLogits := lm.E.T.row c.st
      fed := s.fed ++ s.prefillQueue
      sampler := s.sampler.accept s.prefillQueue
      prefillQueue := []
      prefillDone := true }

/-! ## `step_session` -/

/-- The prefill arm: a chunk through `prime_cache`, or one token. A failure leaves `prefill_done` unset, so
that the session is not parked. -/
def stepPrefill (s : Session σ η γ) : Stepped σ η γ :=
  let q := s.prefillQueue.length
  let carried := s.cache.any fun c => 0 < c.pos
  let t : Prefill σ η γ := { s, px := {} }
  let r :=
    if !cfg.confidenceTrace && max primeMinT 2 ≤ q && !(lm.eagerOnly && carried) then
      let take := if lm.eagerOnly then q else min q prefillTickT
      let take := if 0 < q - take ∧ q - take < primeMinT then q else take
      Prefill.primeChunk lm env.tick take t
    else
      match s.prefillQueue with
      | [] => (none, t)
      | tok :: queue => Prefill.stepToken lm cfg env.tick tok queue t
  match r.1 with
  | some err => { s := { r.2.s with cache := r.2.s.cache.map env.spoil }, stop := .fail err }
  | none => { s := if r.2.s.prefillQueue = [] then { r.2.s with prefillDone := true } else r.2.s }

/-- The decode arm: draw, emit, decode. -/
def stepDecode (s : Session σ η γ) : Stepped σ η γ :=
  let r := s.drawEmit hung H lm env
  match r.1.stop, r.2 with
  | .goOn, some next => r.1.s.decodeStep lm env next
  | _, _ => r.1

end Session

/-- The variables that the flush callback captures. -/
structure BurstSend where
  vis : List Tok
  cursor : ℕ
  eosSeen : Bool := false
  sendOk : Bool := true
  tx : Tx

namespace BurstSend

variable (hung : ℕ → ℕ → Bool) (lm : LoadedModel σ η γ) (eos : List Tok)

/-- Send what is complete of the tokens `ids`, if there is any text. -/
def sendText (ids : List Tok) (id : Tok) (f : BurstSend) : BurstSend :=
  let d := lm.deltaText ids f.cursor
  if d.1 = "" then { f with cursor := d.2 }
  else
    let r := f.tx.send (hung f.tx.id) (.token id d.1)
    { f with cursor := d.2, sendOk := r.1, tx := r.2 }

/-- `flush_cb`. -/
def flush (f : BurstSend) (slice : List Tok) : BurstSend :=
  if f.eosSeen ∨ slice = [] then f
  else
    let r := pushVisible eos f.vis 0 slice
    let f := { f with vis := r.1, eosSeen := r.2.2 }
    if f.sendOk then f.sendText hung lm r.1 r.2.1 else f

end BurstSend

namespace Session

variable (hung : ℕ → ℕ → Bool) (H : Host σ η γ) (lm : LoadedModel σ η γ) (cfg : Config)
  (env : VisitEnv σ η)

/-- The sampling of a burst. -/
def specSampling (c : SamplerConfig) : Option SpecSampling :=
  if 0 < c.temperature then
    some { temp := c.temperature, seed := c.seed, topK := c.topK, topP := c.topP, minP := c.minP }
  else none

/-- The burst that a session asks for; the verdict is the admission yield's. -/
def burst (room : ℕ) (s : Session σ η γ) : Burst where
  suffix := s.prefillQueue
  maxNew := room
  k := cfg.specK
  sampling := specSampling s.sampler.cfg
  head := lm.head
  onCommit := fun calls => !cfg.admitYield || env.keep calls
  captureOk := env.captureOk
  ckptOk := env.ckptOk
  k_pos := cfg.specK_pos

/-- The grammar hook over the session's state. -/
def specGrammar (s : Session σ η γ) : Option (SpecGrammar γ) :=
  s.constraint.map fun c => { G := lm.grammar, eos := lm.eosId, c, on := cfg.draftMask }

/-- The engine's burst: it may fail, or refuse. -/
def runBurst (room : ℕ) (sess : SpecSession σ η) (s : Session σ η γ) :
    Except String (BurstOut σ η γ) :=
  match env.burstErr with
  | some err => .error err
  | none =>
    match (generateSpecSession lm.E (s.burst lm cfg env room) sess (s.specGrammar lm cfg)).run env.rng with
    | .error e => .error (e.message ++ env.hookText)
    | .ok r => .ok r

/-- The flushes of the slices handed out at the rounds. -/
def flushes (slices : List (List Tok)) (s : Session σ η γ) : BurstSend :=
  (if cfg.ssePerBurst then [] else slices).foldl (BurstSend.flush hung lm s.params.eos)
    { vis := s.generated, cursor := s.emittedBytes, tx := s.tx }

/-- The session behind a burst that came back: the tokens are accepted and the tail is sent. -/
def acceptSpec (caches : SpecCaches σ η) (r : BurstOut σ η γ) (s : Session σ η γ) : Stepped σ η γ :=
  let faults := if caches.sess.pendingTok.isSome ∧ r.out = [] then [StepFault.idleBurst] else []
  let f := s.flushes hung lm cfg r.calls
  let acc := acceptBurst s.params.eos s.generated r.out
  let suffix := s.prefillQueue
  let kept := acc.1.drop s.generated.length
  let s := { s with
    spec := some { caches with sess := r.sess }
    prefillQueue := []
    prefillDone := true
    fed := s.fed ++ suffix ++ kept
    sampler := s.sampler.accept (suffix ++ kept)
    generated := acc.1
    constraint := match r.gram with
      | some g => some g.c
      | none => s.constraint
    emittedBytes := f.cursor
    tx := f.tx }
  if !f.sendOk then { s, stop := .leave .aborted, faults }
  else
    let f := f.sendText hung lm (if acc.2 then acc.1.dropLast else acc.1) (r.out.getLast?.getD 0)
    let s := { s with emittedBytes := f.cursor, tx := f.tx }
    if !f.sendOk then { s, stop := .leave .aborted, faults }
    else
      match stopReason lm cfg s.toSessionInfo caches.maxCtx acc.1 acc.2 r.sess.committed.length with
      | some reason => { s := s.finish hung reason, stop := .leave .ended, faults }
      | none => { s, faults }

/-- The speculative arm. -/
def stepSpec (caches : SpecCaches σ η) (s : Session σ η γ) : Stepped σ η γ :=
  let room := min (s.budget - s.generated.length) cfg.specBurst
  if room = 0 then { s := s.finish hung .maxNew, stop := .leave .ended }
  else if s.prefillQueue = [] ∧ caches.sess.nextPred = none ∧ caches.sess.pendingTok = none then
    { s := { s with prefillDone := true }.finish hung .maxNew, stop := .leave .ended }
  else
    match s.runBurst lm cfg env room caches.sess with
    | .error err =>
      { s := { s with
          spec := some { caches with sess := env.spoilSpec caches.sess }
          prefillQueue := []
          prefillDone := true
          tx := (s.flushes hung lm cfg env.slices).tx }
        stop := .fail err
        faults := [.engine] }
    | .ok r => s.acceptSpec hung lm cfg caches r

/-- `step_session`. -/
def step (s : Session σ η γ) : Stepped σ η γ :=
  match s.spec with
  | some caches => s.stepSpec hung lm cfg env caches
  | none =>
    if s.prefillDone then s.stepDecode hung H lm env else s.stepPrefill lm cfg env

end Session

/-! ## Parking -/

/-- The request that a session answers. -/
def Session.request (s : Session σ η γ) : Request :=
  { s.replay with
    model := s.model
    stopStrings := s.stopStrings
    traceId := s.traceId
    cacheNs := s.cacheNs
    affinity := s.affinity
    lane := s.lane
    oomRetries := s.oomRetries
    tx := s.tx }

/-- `park_requeue`: the request, if it has a prompt to replay. -/
def Session.parkRequeue (s : Session σ η γ) : Option Request :=
  if s.replay.promptIds = [] ∧ s.replay.promptText = "" ∧ s.replay.chatTurns = [] then none
  else some s.request

/-- A session that has run out of memory before it generated anything goes back to the queue, at most
`step_oom_retries` times; any other failure is sent. -/
def Session.parkOrFail (hung : ℕ → ℕ → Bool) (cfg : Config) (s : Session σ η γ) (err : String) :
    Session σ η γ × Option Exit :=
  if isCudaOom err ∧ 0 < cfg.stepOomRetries ∧ s.generated = [] ∧ s.oomRetries < cfg.stepOomRetries then
    let s := { s with oomRetries := s.oomRetries + 1 }
    match s.parkRequeue with
    | some req => (s, some (.parked req))
    | none => (s.sendError hung ("step error: " ++ err), some .ended)
  else (s.sendError hung ("step error: " ++ err), some .ended)

/-! ## The graph path -/

/-- `GraphSession` over a primed cache (`graph_session_from_cache_masked`). -/
def GraphSession.fromCache (cache : KvCache σ) (first : Tok) (maxNew : ℕ) (mask : Option (Tok → Bool)) :
    GraphSession σ := { cache, tok := first, bucketMax := cache.pos + maxNew + 1, mask }

/-- The budget of a graph session is used up. -/
def GraphSession.atBudget (g : GraphSession σ) : Bool := g.bucketMax ≤ g.cache.pos + 1

/-- A replay: the resident token is fed, the (masked) argmax takes its place. -/
def GraphSession.replay (T : Trunk σ η) (g : GraphSession σ) : GraphSession σ :=
  let cache := g.cache.feed T [g.tok]
  let row := T.row cache.st
  { g with cache, tok := argmax (match g.mask with | some keep => applyMask keep row | none => row) }

namespace Session

variable (hung : ℕ → ℕ → Bool) (lm : LoadedModel σ η γ) (cfg : Config) (env : VisitEnv σ η)

/-- Whether the lone session is taken to the graph path. -/
def promotes (s : Session σ η γ) : Bool :=
  s.graph.isNone && s.spec.isNone && s.sampler.cfg.isGreedy && !lm.eagerOnly && !lm.step35 &&
  (s.constraint.isNone || (!cfg.constrainHost && (s.devsampleMeta cfg).isSome)) &&
  s.lane = .interactive && cfg.gsMin ≤ s.budget && s.prefillDone && s.generated.isEmpty &&
  !s.lastLogits.isEmpty

/-- The promotion: the first token is the (masked) argmax of the prompt's last row. -/
def promote (s : Session σ η γ) : Stepped σ η γ :=
  match s.cache with
  | none => { s }
  | some cache =>
    if !s.promotes lm cfg then { s }
    else if s.constraint.isSome ∧ env.maskErr.isSome then
      { s, stop := .fail ("constraint mask: " ++ env.maskErr.getD "") }
    else
      let mask := s.constraint.map lm.grammar.allowed
      let first := argmax (match mask with
        | some keep => applyMask keep s.lastLogits
        | none => s.lastLogits)
      match env.captureErr with
      | some err => { s := { s with cache := none }, stop := .fail ("graph promote failed: " ++ err) }
      | none =>
        { s := { s with
            cache := none
            graph := some (.fromCache cache first (s.budget + 2) mask)
            graphPending := some first } }

/-- The replay behind an emitted token; the captured budget is the one benign failure. -/
def graphReplay (g : GraphSession σ) (s : Session σ η γ) : Stepped σ η γ :=
  let g := { g with mask := match s.constraint with
    | some c => some (lm.grammar.allowed c)
    | none => g.mask }
  if g.atBudget then
    { s := { s with graph := some g }.finish hung .maxNew, stop := .leave .ended }
  else
    match env.stepErr with
    | some err =>
      { s := { s with graph := some { g with cache := env.spoil g.cache } }
        stop := .fail ("graph step failed: " ++ err) }
    | none =>
      let g := g.replay lm.E.T
      { s := { s with graph := some g, graphPending := some g.tok } }

/-- What the graph path makes of a session, and whether it came as far as a replay. -/
structure GraphTick (σ η γ : Type) where
  s : Session σ η γ
  exit : Option Exit
  replayed : Bool := false

/-- One token of the graph session: emit, mask, replay. -/
def graphStep (s : Session σ η γ) : GraphTick σ η γ :=
  match s.graphPending, s.graph with
  | some pend, some g =>
    match { s with graphPending := none }.advanceTokenEmit hung lm env pend with
    | (s, some e) => { s, exit := some e }
    | (s, none) =>
      let s := { s with fed := s.fed ++ [pend] }
      if s.constraint.isSome ∧ env.stageErr.isSome then
        { s := s.sendError hung ("constraint mask: " ++ env.stageErr.getD ""), exit := some .ended }
      else
        let r := settle hung "" (s.graphReplay hung lm env g)
        { s := r.1, exit := r.2, replayed := true }
  | _, _ => { s, exit := none }

/-- The lone session's graph tick: the promotion, then the step. -/
def graphTick (s : Session σ η γ) : GraphTick σ η γ :=
  match settle hung "" (s.promote lm cfg env) with
  | (s, none) => s.graphStep hung lm env
  | (s, some e) => { s, exit := some e }

/-- Back to batched decode: the cache is handed back, the pending token emitted and fed. The row that
the session keeps is the one from before the promotion until the token is fed. -/
def degrade (s : Session σ η γ) : Stepped σ η γ :=
  match s.graph with
  | none => { s }
  | some g =>
    let s := { s with graph := none, cache := some g.cache }
    match s.graphPending with
    | none => { s }
    | some pend =>
      match { s with graphPending := none }.advanceTokenEmit hung lm env pend with
      | (s, some e) => { s, stop := .leave e, faults := [.staleRow] }
      | (s, none) => s.decodeStep lm env pend

/-! ## The hand-over of a speculative session -/

/-- `demote_ready`. -/
def demoteReady (sess : SpecSession σ η) : Bool := sess.pendingTok.isNone && sess.nextPred.isSome

/-- Whether a session is handed over: greedy, unconstrained, past the token count of the test door or in
a crowd of `nLive`, with rows to hand over. -/
def demotes (nLive : ℕ) (sess : SpecSession σ η) (s : Session σ η γ) : Bool :=
  s.sampler.cfg.isGreedy && s.constraint.isNone &&
  (match cfg.specDemoteAt with
    | some n => n ≤ s.generated.length
    | none => cfg.specGateHigh ≤ nLive) &&
  !sess.committed.isEmpty && (demoteReady sess || sess.pendingTok.isSome)

/-- The session behind the hand-over of `sess`; one that is not in shape stays. -/
def handOver (caches : SpecCaches σ η) (sess : SpecSession σ η) (s : Session σ η γ) : Stepped σ η γ :=
  match sess.pendingTok, sess.nextPred with
  | none, some next =>
    { s := { s with
        spec := none
        cache := some { toCache := sess.cache, maxCtx := caches.maxCtx }
        deviceNext := some next
        prefillDone := true
        lastLogits := [] }
      faults := if s.fed = sess.committed then [] else [.shortFed] }
  | _, _ => { s := { s with spec := some { caches with sess } } }

/-- The demotion of a session: a carried bonus is committed first. -/
def demote (nLive : ℕ) (s : Session σ η γ) : Stepped σ η γ :=
  match s.spec with
  | none => { s }
  | some caches =>
    if !s.demotes cfg nLive caches.sess then { s }
    else if caches.sess.pendingTok.isSome ∧ env.flushErr.isSome then
      { s := { s with spec := none }
        stop := .fail ("spec demote flush failed: " ++ env.flushErr.getD "") }
    else s.handOver caches (specFlushPending lm.E.T caches.sess)

end Session

end Memra
