import Mathlib.Algebra.Order.Ring.Rat
import Memra.Lib.Runs

/-!
# The captured draft graphs of a session

The draft-graph part of `generate_spec_inner2` (`spec.rs`): a `DraftGraphCtx` is parked on the session
between bursts, with the greedy and the sampled graph that were captured in some earlier burst. At its start
a burst drops what does not suit it and captures what is missing; its rounds launch what there is then.
Buffers are told apart by their addresses. A graph is what its capture baked into it. Whether a capture
succeeds, how the burst ends and what the engine allocates are the burst's to say.
-/

namespace Memra

namespace DraftGraph

/-- A device buffer. -/
structure Buf where
  addr : ℕ
  len : ℕ
  deriving DecidableEq

/-- `SpecSampling`. -/
structure SpecSampling where
  temp : ℚ
  seed : ℕ
  topK : ℤ
  topP : ℚ
  minP : ℚ
  penaltyLastN : ℕ
  penaltyRepeat : ℚ
  penaltyFreq : ℚ
  penaltyPresent : ℚ

namespace SpecSampling

variable (sp : SpecSampling)

def sampled : Bool := decide (0 < sp.temp)

/-- The request asks for penalties. -/
def penalized : Bool := decide (sp.penaltyLastN > 0) &&
  (decide (sp.penaltyRepeat ≠ 1) || decide (sp.penaltyFreq ≠ 0) || decide (sp.penaltyPresent ≠ 0))

def penOn : Bool := sp.sampled && sp.penalized

def unfiltered : Bool := decide (sp.topK = 0) && decide (1 ≤ sp.topP) && decide (sp.minP ≤ 0)

def pureTemp : Bool := sp.unfiltered && !sp.penOn

end SpecSampling

/-- `(seed, temp, k)`. -/
abbrev SKey := ℕ × ℚ × ℕ

/-- The greedy graph: the mask that its mask node reads, if it has one. -/
structure GreedyGraph where
  mask : Option Buf
  deriving DecidableEq

/-- The sampled graph: the constants of its draw, the number of draws it was captured for and the buffers
of the head's logits and of their perturbation. -/
structure SampledGraph where
  key : SKey
  q : Buf
  perturb : Buf
  deriving DecidableEq

/-- `DraftGraphFallback`: the captures that failed. -/
structure Fallback where
  greedy : Bool
  sampled : Bool

structure Ctx where
  gQ : Buf
  gPerturb : Buf
  qSlots : List Buf
  gDmask : Buf
  graphMasked : Bool
  graph : Option GreedyGraph
  graphS : Option SampledGraph
  failed : Fallback
  sKey : Option SKey

/-- A session's parked context, and the addresses given out so far. -/
structure Session where
  draftCtx : Option Ctx
  top : ℕ

def Session.new : Session := { draftCtx := none, top := 0 }

/-- How a burst goes that reaches its rounds, or one that fails before. -/
inductive Ending
  | early
  | failed
  | parked
  deriving DecidableEq

structure Burst where
  sampling : SpecSampling
  k : ℕ
  /-- The captures are allowed by the model and the environment. -/
  graphDraft : Bool
  /-- The grammar hook, and whether it masks drafts. -/
  constraint : Option Bool
  captureOk : Bool
  captureSOk : Bool
  ending : Ending

namespace Burst

variable (b : Burst)

def dmaskOn : Bool := b.constraint = some true

def sKey : SKey := (b.sampling.seed, b.sampling.temp, b.k)

/-- Constrained bursts are greedy: any other is an error before the context is taken. -/
def refused : Bool := b.constraint.isSome && b.sampling.sampled

end Burst

/-! ## The start of a burst -/

section
variable (dVocab : ℕ) (b : Burst)

def dmaskWords : ℕ := if b.dmaskOn then (dVocab + 31) / 32 else 0

/-- `DraftGraphCtx::new`. -/
def Ctx.new (top qlen : ℕ) : Ctx :=
  { gQ := ⟨top, qlen⟩, gPerturb := ⟨top + 1, qlen⟩, qSlots := [], gDmask := ⟨top + 2, 1⟩,
    graphMasked := false, graph := none, graphS := none, failed := ⟨false, false⟩, sKey := none }

/-- The parked context or a new one. -/
def take (s : Session) : Ctx × ℕ :=
  match s.draftCtx with
  | some c => (c, s.top)
  | none => (Ctx.new s.top (if b.sampling.sampled then dVocab else 1), s.top + 3)

/-- A session that was greedy first has no room for the logits yet. -/
def growQ (c : Ctx) (top : ℕ) : Ctx × ℕ :=
  if b.sampling.sampled && decide (c.gQ.len < dVocab) then
    ({ c with gQ := ⟨top, dVocab⟩, gPerturb := ⟨top + 1, dVocab⟩ }, top + 2)
  else (c, top)

/-- A new mask buffer drops the graph, which has the old one baked in. -/
def growMask (c : Ctx) (top : ℕ) : Ctx × ℕ :=
  if b.dmaskOn && decide (c.gDmask.len < dmaskWords dVocab b) then
    ({ c with
        gDmask := ⟨top, dmaskWords dVocab b⟩
        graph := none
        failed := { c.failed with greedy := false } }, top + 1)
  else (c, top)

/-- A graph of the other shape is dropped. -/
def dropMasked (c : Ctx) : Ctx :=
  if c.graph.isSome && c.graphMasked != b.dmaskOn then
    { c with graph := none, failed := { c.failed with greedy := false } }
  else c

def captureGreedy (c : Ctx) : Ctx :=
  if b.graphDraft && !b.sampling.sampled && c.graph.isNone && !c.failed.greedy then
    if b.captureOk then
      { c with graph := some ⟨if b.dmaskOn then some c.gDmask else none⟩, graphMasked := b.dmaskOn }
    else { c with failed := { c.failed with greedy := true } }
  else c

/-- A sampled graph of another seed, temperature or depth is dropped. -/
def dropSampled (c : Ctx) : Ctx :=
  if b.sampling.sampled && c.sKey.any (· != b.sKey) then
    { c with graphS := none, failed := { c.failed with sampled := false }, sKey := none, qSlots := [] }
  else c

def captureSampled (c : Ctx) (top : ℕ) : Ctx × ℕ :=
  if b.graphDraft && b.sampling.sampled && b.sampling.pureTemp && c.graphS.isNone &&
      !c.failed.sampled then
    if b.captureSOk then
      ({ c with
          qSlots := c.qSlots ++ (List.range b.k).map fun j => ⟨top + j, dVocab⟩
          graphS := some ⟨b.sKey, c.gQ, c.gPerturb⟩
          sKey := some b.sKey }, top + b.k)
    else ({ c with failed := { c.failed with sampled := true } }, top)
  else (c, top)

/-- What the rounds find. -/
def setup (s : Session) : Ctx × ℕ :=
  let (c, top) := take dVocab b s
  let (c, top) := growQ dVocab b c top
  let (c, top) := growMask dVocab b c top
  let c := dropSampled b (captureGreedy b (dropMasked b c))
  captureSampled dVocab b c top

end

/-! ## The rounds -/

/-- The three ways to draft. -/
inductive Arm
  | graph (g : GreedyGraph)
  | graphS (g : SampledGraph)
  | eager

def arm (b : Burst) (c : Ctx) : Arm :=
  match b.sampling.sampled || b.sampling.penOn, c.graph with
  | false, some g => .graph g
  | _, _ =>
    match b.sampling.sampled, c.graphS with
    | true, some g => .graphS g
    | _, _ => .eager

/-- Rows of draft logits: the slots of the context, or the copies of this round. -/
inductive QRows
  | slots (q : List Buf)
  | draftLogits
  deriving DecidableEq

/-- Where the chain of a sampled burst leaves the logits it drew from. -/
def chainRows (b : Burst) (c : Ctx) : QRows :=
  match arm b c with
  | .graphS _ => .slots c.qSlots
  | _ => .draftLogits

/-- Where the accept walk reads them. -/
def qBufs (c : Ctx) : QRows := if c.graphS.isSome then .slots c.qSlots else .draftLogits

/-! ## The session -/

inductive Event
  | burst (b : Burst)
  /-- `reset_graph_fallback_on_resume`. -/
  | resume

def step (dVocab : ℕ) (s : Session) : Event → Session
  | .burst b =>
    if b.refused then s
    else
      let (c, top) := setup dVocab b s
      { draftCtx := if b.ending = .parked then some c else none, top := top }
  | .resume => { s with draftCtx := s.draftCtx.map fun c => { c with failed := ⟨false, false⟩ } }

/-- The burst comes to its rounds. -/
def Burst.Reaches (b : Burst) : Prop := b.refused = false ∧ b.ending ≠ .early

/-- What is launched is what the burst needs. -/
structure Fits (b : Burst) (c : Ctx) : Prop where
  graph : ∀ g, arm b c = .graph g → b.sampling.sampled = false ∧ b.sampling.penalized = false ∧
    g.mask = if b.dmaskOn then some c.gDmask else none
  graphS : ∀ g, arm b c = .graphS g → b.sampling.sampled = true ∧ g.key = b.sKey ∧
    b.sampling.unfiltered = true ∧ b.sampling.penalized = false ∧ g.q = c.gQ ∧ c.qSlots.length = b.k
  rows : b.sampling.sampled = true → qBufs c = chainRows b c

/-- A burst that comes to its rounds launches what it needs. -/
def Replays (dVocab : ℕ) (s : Session) : Event → Prop
  | .burst b => b.Reaches → Fits b (setup dVocab b s).1
  | .resume => True

/-- A greedy burst without penalties, or a sampled one that does not meet a parked graph of its seed,
temperature and depth while it has filters or penalties. -/
def Safe (s : Session) : Event → Prop
  | .burst b => (b.sampling.sampled = false → b.sampling.penalized = false) ∧
      (b.sampling.sampled = true → b.sampling.pureTemp = false →
        ∀ c, s.draftCtx = some c → c.graphS.isSome → c.sKey ≠ some b.sKey)
  | .resume => True

end DraftGraph

end Memra
