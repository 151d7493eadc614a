import Memra.Engine.Spec
import Memra.Server.PrefixCache

/-!
# Requests, sessions and pools

The data of the worker (`worker.rs`, `memra-lanes`): what a client sends and is sent, a loaded model
and the process settings, a session, the parked entries. Caches are those of the trunk model with
their capacity; a request's channel is the list of events sent on it. The tokenizer, the chat
template and the sampler chain are parameters of `LoadedModel`.

The fields of a session that are set at admission and never written stand in `SessionInfo`.
-/

namespace Memra

/-- `usize::MAX`. -/
def usizeMax : ℕ := 2 ^ 64 - 1

/-- `saturating_add` of `usize`. -/
def satAdd (a b : ℕ) : ℕ := min (a + b) usizeMax

/-- `str::contains`. -/
def hasText (text pat : String) : Bool := decide (pat.toList <:+: text.toList)

/-! ## Lanes and events -/

/-- The yield lanes. -/
inductive Lane
  | interactive
  | judge
  | harvest
  deriving DecidableEq

/-- `Lane::as_str`. -/
def Lane.asStr : Lane → String
  | interactive => "interactive"
  | judge => "judge"
  | harvest => "harvest"

/-- The lanes in the order of `idx`. -/
def Lane.all : List Lane := [interactive, judge, harvest]

/-- `ErrClass`. -/
inductive ErrClass
  | invalidRequest
  | contextLength
  | modelNotFound
  | rateLimit
  | overloaded
  | engine
  deriving DecidableEq

/-- A classified failure. -/
structure EngineError where
  cls : ErrClass
  message : String
  param : Option String := none
  deriving DecidableEq

/-- `is_cuda_oom`. -/
def isCudaOom (err : String) : Bool :=
  hasText err "CUDA_ERROR_OUT_OF_MEMORY" || hasText err "out of memory"

namespace EngineError

/-- `invalid_param`. -/
def invalidParam (message param : String) : EngineError :=
  { cls := .invalidRequest, message, param := some param }

/-- `context_length`. -/
def contextLength (message : String) : EngineError :=
  { cls := .contextLength, message, param := some "prompt" }

/-- `model_not_found`. -/
def modelNotFound (message : String) : EngineError :=
  { cls := .modelNotFound, message, param := some "model" }

/-- `rate_limit`. -/
def rateLimit (message : String) : EngineError := { cls := .rateLimit, message }

/-- `engine`: an out-of-memory text is a capacity condition. -/
def engine (message : String) : EngineError :=
  { cls := if isCudaOom message then .overloaded else .engine, message }

end EngineError

/-- `StopReason`. -/
inductive StopReason
  | eos
  | maxNew
  | callback
  | contextFull
  deriving DecidableEq

/-- What the worker streams back to a request. -/
inductive Event
  | token (id : Tok) (text : String)
  | done (stopReason : StopReason) (nTokens nPrompt nCached : ℕ)
  | error (e : EngineError)
  deriving DecidableEq

/-- `Done` and `Error` end a request. -/
def Event.terminal : Event → Bool
  | token .. => false
  | done .. => true
  | error _ => true

/-- A request's channel: every event handed to `send`, and whether the receiver is known to be
gone. -/
structure Tx where
  id : ℕ
  sent : List Event := []
  closed : Bool := false
  deriving DecidableEq

/-- `tx.send`, `true` when the receiver is still there; `hung n` says that the client is gone by the
time of send number `n`. -/
def Tx.send (t : Tx) (hung : ℕ → Bool) (ev : Event) : Bool × Tx :=
  let closed := t.closed || hung t.sent.length
  (!closed, { t with sent := t.sent ++ [ev], closed })

/-! ## Requests -/

/-- `GenParams`. -/
structure GenParams where
  maxNew : ℕ
  maxCtx : Option ℕ := none
  eos : List Tok := []
  deriving DecidableEq

/-- `MAX_NEW_CTX_BOUNDED`: `max_tokens` was omitted. -/
def maxNewCtxBounded : ℕ := usizeMax

/-- `SamplerConfig`. -/
structure SamplerConfig where
  temperature : ℚ := 0
  topK : ℕ := 0
  topP : ℚ := 1
  minP : ℚ := 0
  penaltyLastN : ℕ := 0
  penaltyRepeat : ℚ := 1
  penaltyFreq : ℚ := 0
  penaltyPresent : ℚ := 0
  seed : ℕ := 0
  deriving DecidableEq

namespace SamplerConfig

/-- `is_greedy`. -/
def isGreedy (c : SamplerConfig) : Bool := c.temperature ≤ 0

/-- No penalty is set. -/
def noPen (c : SamplerConfig) : Bool :=
  c.penaltyRepeat = 1 && c.penaltyFreq = 0 && c.penaltyPresent = 0

end SamplerConfig

/-- `Sampler`: its history, and the number of draws its generator has made. -/
structure Sampler where
  cfg : SamplerConfig
  history : List Tok := []
  drawn : ℕ := 0
  deriving DecidableEq

/-- `accept`, one token after another. -/
def Sampler.accept (s : Sampler) (toks : List Tok) : Sampler :=
  { s with history := s.history ++ toks }

/-- `ToolCall`. -/
structure ToolCall where
  name : String
  params : List (String × String)
  deriving DecidableEq

/-- `Turn`. -/
structure Turn where
  role : String
  content : String
  toolCalls : List ToolCall := []
  deriving DecidableEq

/-- `ThinkMode`. -/
inductive ThinkMode
  | default
  | noThink
  | think
  deriving DecidableEq

/-- `GrammarSpec`; a schema is its JSON text. -/
inductive GrammarSpec
  | jsonObject
  | jsonSchema (schema : String)
  deriving DecidableEq

/-- `ReplayPlan`: the inputs `admit` renders and tokenizes. -/
structure ReplayPlan where
  promptIds : List Tok := []
  promptText : String := ""
  chat : Bool := false
  chatTurns : List Turn := []
  toolsJson : List String := []
  think : ThinkMode := .default
  reasoningEffort : Option String := none
  params : GenParams
  samplerCfg : SamplerConfig := {}
  grammar : Option GrammarSpec := none
  deriving DecidableEq

/-- `Request`. -/
structure Request extends ReplayPlan where
  model : String
  stopStrings : List String := []
  traceId : Option String := none
  cacheNs : String := ""
  affinity : Option String := none
  lane : Lane := .interactive
  oomRetries : ℕ := 0
  tx : Tx := { id := 0 }
  deriving DecidableEq

/-- `PoolKey`: the model and the cache namespace. -/
abbrev PoolKey := String × String

/-! ## Models and settings -/

/-- `LoadedModel`: the engine over the model, and what the worker asks of its configuration, its
tokenizer (`deltaText toks cursor` is `decode_bytes_special` followed by `utf8_delta`, `fullText`
its lossy text) and its grammar compiler. `head` are the draft head's rows, `gumbel` is the seeded
device draw. -/
structure LoadedModel (σ η γ : Type) where
  E : SpecEngine σ η
  vocab_pos : 0 < E.T.vocab
  head : ℕ → List Tok → List Tok → Row
  gumbel : ℚ → ℕ → ℕ → Row → Tok
  mtp : Bool := false
  eagerOnly : Bool := false
  step35 : Bool := false
  contextLength : ℕ := 0
  chunkCap : ℕ := 8
  eosId : Tok
  eogIds : List Tok := []
  bosId : Option Tok := none
  encode : String → Bool → List Tok
  applyChatTemplate : List (String × String) → String
  applyChatTemplateTools : List Turn → List String → ThinkMode → Option String →
    Except String String
  decodeSpecial : List Tok → String
  tokenIsControl : Tok → Bool := fun _ => false
  deltaText : List Tok → ℕ → String × ℕ
  fullText : List Tok → String
  grammar : Grammar γ
  constraintFactory : Option String := none
  matcher : GrammarSpec → Except String γ

/-- The loaded models by name, and the sampler chain: the token a sampler draws from a row. -/
structure Host (σ η γ : Type) where
  order : List String
  loaded : String → LoadedModel σ η γ
  chain : Sampler → Row → Tok

/-- `Sampler::sample`. -/
def Host.sample {σ η γ : Type} (H : Host σ η γ) (s : Sampler) (row : Row) : Tok × Sampler :=
  (H.chain s row, { s with drawn := s.drawn + 1 })

/-- The process settings. -/
structure Config where
  batching : Bool := true
  maxSessions : ℕ := 64
  confidenceTrace : Bool := false
  kvReuse : Bool := true
  serveSpec : Bool := true
  specGate : Bool := true
  specGateLow : ℕ := 2
  rawGateHigh : ℕ := 4
  specDemoteAt : Option ℕ := none
  specBurst : ℕ := 32
  specK : ℕ := 3
  specK_pos : 1 ≤ specK := by decide
  ssePerBurst : Bool := false
  admitYield : Bool := true
  draftMask : Bool := true
  serveGs : Bool := true
  gsMin : ℕ := 384
  primeBatch : ℕ := 6
  primeBatchMaxT : ℕ := 2048
  reusePool : ℕ := 2
  prefixCacheBytes : ℕ := 256 * 1024 * 1024
  ctxFloor : ℕ := 8192
  stepOomRetries : ℕ := 3
  admitReserve : Option ℕ := none
  affinity : Bool := true
  constrainHost : Bool := false
  devsample : Bool := true
  leanLogits : Bool := true
  sloP99Ms : ℚ := 50
  shedAt : Lane → ℚ := fun l => if l = .harvest then 9 / 10 else 1
  prefillBudget : Lane → ℕ := fun l => if l = .interactive then 1024 else 256
  laneMax : Lane → ℕ := fun l => if l = .harvest then 8 else 4

namespace Config

/-- `spec_gate_high`: a floor at or below `spec_gate_low` is clamped. -/
def specGateHigh (cfg : Config) : ℕ :=
  if cfg.rawGateHigh ≤ cfg.specGateLow then cfg.specGateLow + 1 else cfg.rawGateHigh

end Config

/-- `MAX_ACTIVE`. -/
def maxActive : ℕ := 4

/-- `REUSE_MIN_PREFIX`. -/
def reuseMinPrefix : ℕ := 16

/-- `PRIME_MIN_T`. -/
def primeMinT : ℕ := 16

/-- `PREFILL_TICK_T`. -/
def prefillTickT : ℕ := 1024

/-- `SPEC_SHRINK_SLACK`. -/
def specShrinkSlack : ℕ := 64

/-- `SPEC_SHRINK_RESERVE`. -/
def specShrinkReserve : ℕ := 1536 * 2 ^ 20

/-! ## Sessions -/

/-- A serving cache: the trunk cache, its capacity and the row parked on the device by a lean batched
step. -/
structure KvCache (σ : Type) extends Cache σ where
  maxCtx : ℕ
  lastLogitsDev : Option Row := none

/-- `pp::new_cache`. -/
def KvCache.new {σ η : Type} (T : Trunk σ η) (maxCtx : ℕ) : KvCache σ :=
  { st := T.init, pos := 0, maxCtx }

/-- A step or a prime over the cache. -/
def KvCache.feed {σ η : Type} (T : Trunk σ η) (c : KvCache σ) (toks : List Tok) : KvCache σ :=
  { c with toCache := c.toCache.feed T toks }

/-- `SpecSession` with the capacity of its caches (`cache_max_ctx`). -/
structure SpecCaches (σ η : Type) where
  sess : SpecSession σ η
  maxCtx : ℕ

/-- `GraphSession`: the cache it replays over, the resident token (the next input), the last valid
position and the grammar mask the captured graph reads. -/
structure GraphSession (σ : Type) where
  cache : KvCache σ
  tok : Tok
  bucketMax : ℕ
  mask : Option (Tok → Bool) := none

/-- What a session is admitted with. -/
structure SessionInfo where
  model : String
  cacheNs : String
  affinity : Option String
  lane : Lane
  replay : ReplayPlan
  params : GenParams
  stopStrings : List String
  traceId : Option String
  budget : ℕ
  nPrompt : ℕ
  nCached : ℕ
  deriving DecidableEq

/-- `Session`. -/
structure Session (σ η γ : Type) extends SessionInfo where
  cache : Option (KvCache σ) := none
  spec : Option (SpecCaches σ η) := none
  graph : Option (GraphSession σ) := none
  graphPending : Option Tok := none
  oomRetries : ℕ := 0
  sampler : Sampler
  lastLogits : Row := []
  deviceNext : Option Tok := none
  constraint : Option γ := none
  maskWords : ℕ := 0
  fed : List Tok := []
  prefillQueue : List Tok := []
  prefillDone : Bool := false
  generated : List Tok := []
  emittedBytes : ℕ := 0
  snapshotAt : Option ℕ := none
  seedPrefix : Bool := false
  tx : Tx

/-- `pool_key`. -/
def SessionInfo.poolKey (s : SessionInfo) : PoolKey := (s.model, s.cacheNs)

/-! ## Pools -/

/-- `ReuseEntry`: a retired plain session. -/
structure ReuseEntry (σ : Type) where
  fed : List Tok
  cache : KvCache σ
  lastLogits : Row
  cap : ℕ

/-- `SpecReuseEntry`: a retired spec session. -/
structure SpecReuseEntry (σ η : Type) where
  caches : SpecCaches σ η
  committedText : String
  affinity : Option String
  fingerprint : List ℕ

/-- What a prefix entry copies out of a session. -/
structure Snapshot (σ : Type) where
  cache : Cache σ
  lastLogits : Row

/-- `SpecSizing`. -/
structure SpecSizing where
  evictFirst : List String := []
  learnedCtx : String → Option ℕ := fun _ => none

/-- The reuse pools and what admission has learned. -/
structure Pools (σ η : Type) where
  reuse : PoolKey → List (ReuseEntry σ) := fun _ => []
  specReuse : PoolKey → List (SpecReuseEntry σ η) := fun _ => []
  specSizing : SpecSizing := {}
  px : PrefixCache PoolKey (Snapshot σ) := {}

end Memra
