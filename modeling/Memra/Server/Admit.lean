import Memra.Server.Session
import Memra.Server.Affinity
import Mathlib.Logic.Function.Basic

/-!
# `admit`

From a request to a session: tokenize and size it, resume a parked plain session, compile the
grammar, decide on speculation, probe the prefix cache, resume or allocate a speculative session,
allocate the plain cache. Each stage returns the pools it leaves; `AdmitEnv` holds the answers of
the driver and of the engine's allocations.
-/

namespace Memra

/-- The answers one admission gets: whether the client is gone, the latency and memory readings, and
the allocations and copies that fail. -/
structure AdmitEnv where
  gone : Bool := false
  sinceInteractiveMs : ℚ := 0
  p99 : Option ℚ := none
  gateFree : Option ℕ := none
  poolCached : ℕ := 0
  freeBefore : Option ℕ := none
  freeAfter : Option ℕ := none
  restoreAlloc : Option String := none
  restoreCopy : Option String := none
  cacheAlloc : Option String := none
  cacheRealloc : Option String := none
  sessionFits : Bool := true
  sessionRetryFits : Bool := true
  ladderFits : ℕ → Bool := fun _ => true
  embedFits : ℕ → Bool := fun _ => true
  probeFits : ℕ → Bool := fun _ => true
  rewindErr : Option String := none
  now : ℕ := 0

variable {σ η γ : Type}

/-! ## The prompt and its sizes -/

/-- Tokenize: explicit ids, else the rendered turns, else the text. -/
def promptOf (lm : LoadedModel σ η γ) (p : ReplayPlan) : Except EngineError (List Tok) :=
  if p.promptIds ≠ [] then .ok p.promptIds
  else if p.chatTurns ≠ [] then
    if p.toolsJson = [] ∧ p.think = .default ∧ p.reasoningEffort = none ∧
        p.chatTurns.all (fun t => t.role ≠ "tool" ∧ t.toolCalls = []) then
      .ok (lm.encode (lm.applyChatTemplate (p.chatTurns.map fun t => (t.role, t.content))) true)
    else
      match lm.applyChatTemplateTools p.chatTurns p.toolsJson p.think p.reasoningEffort with
      | .ok rendered => .ok (lm.encode rendered true)
      | .error err => .error (.invalidParam ("chat template: " ++ err) "messages")
  else if p.chat then .ok (lm.encode (lm.applyChatTemplate [("user", p.promptText)]) true)
  else .ok (lm.encode p.promptText true)

/-- `ctx_cap` of a prompt of `n` tokens. -/
def ctxCap (cfg : Config) (lm : LoadedModel σ η γ) (params : GenParams) (n : ℕ) : ℕ :=
  match params.maxCtx with
  | some c => max c cfg.ctxFloor
  | none =>
    if params.maxNew = maxNewCtxBounded then
      let c := if cfg.ctxFloor < n + 16 then satAdd n cfg.ctxFloor else cfg.ctxFloor
      if 0 < lm.contextLength then min c lm.contextLength else c
    else max (n + params.maxNew + 8) cfg.ctxFloor

/-- A tokenized request and the sizes it is admitted under. -/
structure Plan where
  prompt : List Tok
  ctxCap : ℕ
  budget : ℕ
  need : ℕ

/-- The front of `admit`. -/
def plan (cfg : Config) (lm : LoadedModel σ η γ) (p : ReplayPlan) : Except EngineError Plan :=
  match promptOf lm p with
  | .error e => .error e
  | .ok prompt =>
    if prompt = [] then .error (.invalidParam "empty prompt after tokenization" "prompt")
    else
      let cap := ctxCap cfg lm p.params prompt.length
      if cap ≤ prompt.length then
        .error (.contextLength ("prompt (" ++ toString prompt.length ++ " tok) >= context cap (" ++
          toString cap ++ ")"))
      else
        let budget := min p.params.maxNew (cap - prompt.length)
        .ok { prompt, ctxCap := cap, budget
              need := satAdd (satAdd prompt.length budget) specShrinkSlack }

/-! ## Plain reuse -/

/-- The continuation-pool probe: the last parked session whose `fed` prefixes the prompt. -/
def admitReuse (cfg : Config) (key : PoolKey) (pl : Plan) (p : Pools σ η) :
    Option (ReuseEntry σ) × Pools σ η :=
  if cfg.confidenceTrace ∨ ¬ cfg.kvReuse then (none, p)
  else
    match rposition (fun e => reuseMinPrefix ≤ e.fed.length ∧ pl.ctxCap ≤ e.cap ∧
        e.fed <+: pl.prompt) (p.reuse key) with
    | none => (none, p)
    | some i =>
      ((p.reuse key)[i]?,
        { p with reuse := Function.update p.reuse key ((p.reuse key).eraseIdx i) })

/-- The request's grammar, compiled. -/
def compileGrammar (lm : LoadedModel σ η γ) : Option GrammarSpec → Except EngineError (Option γ)
  | none => .ok none
  | some spec =>
    match lm.constraintFactory with
    | some err => .error (.invalidParam ("constrained decoding: " ++ err) "response_format")
    | none =>
      match lm.matcher spec with
      | .error err => .error (.invalidParam ("response_format: " ++ err) "response_format")
      | .ok c => .ok (some c)

/-- `spec_eligible`. -/
def specEligible (cfg : Config) (lm : LoadedModel σ η γ) (nActive : ℕ) (sc : SamplerConfig)
    (constrained : Bool) : Bool :=
  (!cfg.confidenceTrace && cfg.serveSpec) &&
  (!cfg.specGate || nActive + 1 ≤ cfg.specGateLow) &&
  (!constrained || (sc.isGreedy && !cfg.constrainHost)) &&
  (sc.isGreedy || 0 < sc.temperature) &&
  !(sc.isGreedy && !sc.noPen) &&
  lm.mtp

/-! ## The prefix cache -/

/-- A prefix-cache hit: the entry copied into a fresh session cache. -/
def prefixRestore (e : PrefixEntry (Snapshot σ)) (cap : ℕ) : ReuseEntry σ :=
  { fed := e.toks
    cache := { toCache := e.payload.cache, maxCtx := cap }
    lastLogits := e.payload.lastLogits
    cap }

/-- Look up and restore. A failed allocation drops the whole prefix cache. -/
def prefixHit (env : AdmitEnv) (key : PoolKey) (pl : Plan)
    (px : PrefixCache PoolKey (Snapshot σ)) :
    Option (ReuseEntry σ) × PrefixCache PoolKey (Snapshot σ) :=
  match px.lookup key pl.prompt with
  | none => (none, px)
  | some i =>
    match px.entryAt (key, i) with
    | none => (none, px)
    | some e =>
      if env.restoreAlloc.isSome then (none, px.evictAll)
      else if env.restoreCopy.isSome then (none, px)
      else
        let px := px.touch key i env.now
        (some (prefixRestore e pl.ctxCap),
          PrefixCache.recordLcp
            { px with hits := px.hits + 1, hitTokens := px.hitTokens + e.toks.length }
            e.toks.length)

/-- The prefix-cache probe: a hit, or the boundary and the flag of a learning insert. -/
def admitPrefix (cfg : Config) (env : AdmitEnv) (key : PoolKey) (pl : Plan) (p : Pools σ η)
    (reused : Option (ReuseEntry σ)) (eligible : Bool) :
    (Option (ReuseEntry σ) × Option ℕ × Bool) × Pools σ η :=
  if (cfg.confidenceTrace ∨ ¬ cfg.kvReuse) ∨ ¬ cfg.batching ∨ cfg.prefixCacheBytes = 0 ∨
      reused.isSome ∨ eligible then ((reused, none, false), p)
  else
    match prefixHit env key pl p.px with
    | (some e, px) => ((some e, none, false), { p with px })
    | (none, px) =>
      let l := px.bestLcp key pl.prompt
      let px := PrefixCache.recordLcp { px with misses := px.misses + 1 } l
      let split := prefixCacheMinTokens ≤ l ∧ l < pl.prompt.length ∧
        ¬ px.hasKey key (pl.prompt.take l)
      ((none, if split then some l else none,
        prefixCacheMinTokens ≤ pl.prompt.length), { p with px })

/-! ## Speculative sessions -/

/-- Whether a parked session may be rewound for this request: room, a checkpoint the prompt
reproduces exactly with something left to prime, and the same conversation. -/
def nominates (req : Request) (pl : Plan) (reqFp : List ℕ) (e : SpecReuseEntry σ η) : Bool :=
  pl.need ≤ e.caches.maxCtx &&
  match e.caches.sess.turnCkpt with
  | none => false
  | some ck =>
    ck.pos ≠ 0 &&
    affinityMatch pl.prompt (e.caches.sess.committed.take ck.pos) = .exact ck.pos &&
    pl.prompt.length ≠ ck.pos &&
    match req.affinity, e.affinity with
    | some a, some b => a = b
    | none, none => fpMinSegments ≤ fingerprintAffinity reqFp e.fingerprint
    | _, _ => false

/-- The spec-pool probe: exact token prefix, else text prefix (the remainder re-tokenized), else a
rewind of the same conversation. -/
def probeSpecPool (cfg : Config) (lm : LoadedModel σ η γ) (env : AdmitEnv) (req : Request)
    (pl : Plan) (pool : List (SpecReuseEntry σ η)) :
    Option (SpecCaches σ η × Option (List Tok)) × List (SpecReuseEntry σ η) :=
  match rposition (fun e => pl.ctxCap ≤ e.caches.maxCtx ∧
      e.caches.sess.committed <+: pl.prompt) pool with
  | some i => ((pool[i]?).map fun e => (e.caches, none), pool.eraseIdx i)
  | none =>
    let text := req.promptText.toList
    match (if req.promptText = "" then none else
      rposition (fun e => pl.ctxCap ≤ e.caches.maxCtx ∧ e.committedText.toList <+: text) pool) with
    | some i =>
      ((pool[i]?).map fun e =>
        (e.caches, some (lm.encode (String.ofList (text.drop e.committedText.toList.length)) false)),
        pool.eraseIdx i)
    | none =>
      if ¬ cfg.affinity then (none, pool)
      else
        let reqFp := conversationFingerprint pl.prompt lm.tokenIsControl true
        match rposition (nominates req pl reqFp) pool with
        | none => (none, pool)
        | some i =>
          ((pool[i]?).bind fun e =>
            if env.rewindErr.isSome then none
            else some ({ e.caches with sess := specRewindToCheckpoint e.caches.sess }, none),
            pool.eraseIdx i)

/-- `reset_graph_fallback_on_resume`. -/
def resetGraphFallback (s : SpecSession σ η) : SpecSession σ η :=
  { s with draftCtx := s.draftCtx.map fun d => { d with failedS := false } }

/-- `new_session` with room for `cap` rows. -/
def SpecCaches.new (lm : LoadedModel σ η γ) (cap : ℕ) : SpecCaches σ η :=
  { sess := newSession lm.E.T, maxCtx := cap }

/-- Whether a right-sized session of `ask` rows lands; `learned` is a size that has served. -/
def lands (env : AdmitEnv) (learned : Option ℕ) (ask : ℕ) : Bool :=
  env.ladderFits ask && env.embedFits ask && (learned.any (ask ≤ ·) || env.probeFits ask)

/-- The right-size ladder: halve the ask down to `need`. -/
def ladder (env : AdmitEnv) (learned : Option ℕ) (need ask : ℕ) : Option ℕ :=
  if lands env learned ask then some ask
  else if need < ask then ladder env learned need (max (ask / 2) need)
  else none
termination_by ask
decreasing_by omega

/-- A pool miss: evict first where that was learned, allocate, evict and retry, right-size. -/
def allocSpec (lm : LoadedModel σ η γ) (env : AdmitEnv) (model : String) (pl : Plan)
    (sz : SpecSizing) (pool : List (SpecReuseEntry σ η)) :
    Option (SpecCaches σ η) × SpecSizing × List (SpecReuseEntry σ η) :=
  let pool := if model ∈ sz.evictFirst then [] else pool
  if env.sessionFits then (some (.new lm pl.ctxCap), sz, pool)
  else
    let evicted : Bool := pool ≠ []
    let sz := if evicted ∧ model ∉ sz.evictFirst then
      { sz with evictFirst := model :: sz.evictFirst } else sz
    if evicted ∧ env.sessionRetryFits then (some (.new lm pl.ctxCap), sz, [])
    else if pl.need ≤ pl.ctxCap then
      let learned := sz.learnedCtx model
      match ladder env learned pl.need (max pl.need (min (learned.getD (pl.ctxCap / 2)) pl.ctxCap)) with
      | some ask =>
        (some (.new lm ask),
          { sz with learnedCtx := Function.update sz.learnedCtx model (some ask) }, [])
      | none => (none, sz, [])
    else (none, sz, [])

/-- The speculative session of an admission, the tokens it was resumed with, and a re-tokenized
remainder. -/
structure SpecChoice (σ η : Type) where
  spec : Option (SpecCaches σ η) := none
  specResumed : ℕ := 0
  textSuffix : Option (List Tok) := none

/-- Resume a parked session or allocate one. A constrained request never resumes. -/
def admitSpec (cfg : Config) (lm : LoadedModel σ η γ) (env : AdmitEnv) (req : Request)
    (key : PoolKey) (pl : Plan) (constrained : Bool) (p : Pools σ η) :
    SpecChoice σ η × Pools σ η :=
  let (resumed, pool) :=
    if constrained then (none, p.specReuse key)
    else probeSpecPool cfg lm env req pl (p.specReuse key)
  match resumed with
  | some (caches, textSuffix) =>
    ({ spec := some { caches with sess := resetGraphFallback caches.sess }
       specResumed := caches.sess.committed.length
       textSuffix },
      { p with specReuse := Function.update p.specReuse key pool })
  | none =>
    let (spec, specSizing, pool) := allocSpec lm env req.model pl p.specSizing pool
    ({ spec }, { p with specSizing, specReuse := Function.update p.specReuse key pool })

/-! ## The session -/

/-- The plain cache: none beside a speculative session, the resumed one, else a new one, for which
the prefix cache yields. -/
def admitCache (lm : LoadedModel σ η γ) (env : AdmitEnv) (pl : Plan) (p : Pools σ η)
    (spec : Option (SpecCaches σ η)) (cache : Option (KvCache σ)) :
    Except EngineError (Option (KvCache σ)) × Pools σ η :=
  if spec.isSome ∨ cache.isSome then (.ok cache, p)
  else
    match env.cacheAlloc with
    | none => (.ok (some (.new lm.E.T pl.ctxCap)), p)
    | some err =>
      let evicted := p.px.nEntries
      let p := { p with px := p.px.evictAll }
      if 0 < evicted then
        match env.cacheRealloc with
        | none => (.ok (some (.new lm.E.T pl.ctxCap)), p)
        | some err => (.error (.engine ("cache alloc failed: " ++ err)), p)
      else (.error (.engine ("cache alloc failed: " ++ err)), p)

/-- The caller's EOS ids and the model's end-of-generation set. -/
def eosUnion (eos eog : List Tok) : List Tok :=
  eog.foldl (fun eos id => if id ∈ eos then eos else eos ++ [id]) eos

/-- The session of an admission that resumed `reused` or `choice`. -/
def mkSession (lm : LoadedModel σ η γ) (req : Request) (pl : Plan) (constraint : Option γ)
    (reused : Option (ReuseEntry σ)) (snapshotAt : Option ℕ) (seedPrefix : Bool)
    (choice : SpecChoice σ η) (cache : Option (KvCache σ)) : Session σ η γ :=
  let seedFed := (reused.map (·.fed)).getD []
  let suffix := pl.prompt.drop seedFed.length
  let sampler := Sampler.accept { cfg := req.samplerCfg } seedFed
  { model := req.model
    cacheNs := req.cacheNs
    affinity := req.affinity
    lane := req.lane
    replay := req.toReplayPlan
    params := { req.params with eos := eosUnion req.params.eos lm.eogIds }
    stopStrings := req.stopStrings
    traceId := req.traceId
    budget := pl.budget
    nPrompt :=
      if 0 < choice.specResumed then
        choice.specResumed + (choice.textSuffix.map (·.length)).getD
          (pl.prompt.length - choice.specResumed)
      else pl.prompt.length
    nCached := if 0 < choice.specResumed then choice.specResumed else seedFed.length
    cache
    spec := choice.spec
    oomRetries := req.oomRetries
    sampler :=
      if 0 < choice.specResumed then
        sampler.accept (match choice.spec, choice.textSuffix with
          | some caches, some _ => caches.sess.committed
          | _, _ => pl.prompt.take choice.specResumed)
      else sampler
    lastLogits := (reused.map (·.lastLogits)).getD []
    constraint
    fed := seedFed
    prefillQueue :=
      match choice.textSuffix with
      | some ts => ts
      | none => if 0 < choice.specResumed then pl.prompt.drop choice.specResumed else suffix
    prefillDone := suffix = []
    snapshotAt
    seedPrefix
    tx := req.tx }

/-- `admit`. -/
def admitRequest (H : Host σ η γ) (cfg : Config) (env : AdmitEnv) (p : Pools σ η) (nActive : ℕ)
    (req : Request) : Except EngineError (Session σ η γ) × Pools σ η :=
  let lm := H.loaded req.model
  let key : PoolKey := (req.model, req.cacheNs)
  match plan cfg lm req.toReplayPlan with
  | .error e => (.error e, p)
  | .ok pl =>
    let (reused, p) := admitReuse cfg key pl p
    match compileGrammar lm req.grammar with
    | .error e => (.error e, p)
    | .ok constraint =>
      let eligible := specEligible cfg lm nActive req.samplerCfg constraint.isSome
      let ((reused, snapshotAt, seedPrefix), p) := admitPrefix cfg env key pl p reused eligible
      let (choice, p) :=
        if eligible ∧ (reused.map (·.fed)).getD [] = [] then
          admitSpec cfg lm env req key pl constraint.isSome p
        else ({}, p)
      match admitCache lm env pl p choice.spec (reused.map (·.cache)) with
      | (.error e, p) => (.error e, p)
      | (.ok cache, p) =>
        (.ok (mkSession lm req pl constraint reused snapshotAt seedPrefix choice cache), p)

end Memra
