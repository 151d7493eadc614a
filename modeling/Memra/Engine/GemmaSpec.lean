import Memra.Engine.GemmaStream
import Memra.Lib.Capture
import Memra.Lib.Loop

/-!
# Gemma speculative decoding

`generate_spec_gemma` (`gemma_spec.rs`): a pass of the loop is one of three arms. The round-graph arm
(`roundArm`) and the burst arm (`burstArm`) run whole rounds on the device and drain a ring of what these
accepted; the eager arm (`eagerArm`) accepts and rolls back on the host. A `GemmaDrafter` stands for
the draft model: what its `n`-th chain proposes, and with which probabilities, is arbitrary.
-/

namespace Memra

open Lib

/-- The draft model: the token and its probability at each step of each chain it runs. -/
structure GemmaDrafter where
  token : ℕ → ℕ → Tok
  prob : ℕ → ℕ → ℚ

/-- The settings and thresholds that the loop reads. -/
structure GemmaSpecCfg where
  k : ℕ
  /-- `MEMRA_SPEC_CAPMAX` -/
  capMax : ℕ
  /-- `MEMRA_SPEC_PMIN` -/
  pmin : ℚ
  /-- `MEMRA_SPEC_PMIN_INROUND` -/
  pminIrEnv : Option ℚ
  /-- `MEMRA_SPEC_ADAPT` -/
  adapt : Bool
  /-- `MEMRA_SPEC_ADAPT_FLOOR` -/
  adaptFloorEnv : Option ℕ
  adaptFloorDefault : ℕ
  /-- `MEMRA_SPEC_FLOOR_CTX` -/
  floorCtx : ℕ
  /-- `MEMRA_GEMMA_DRAFT_DC` -/
  draftDc : Bool
  /-- `MEMRA_GEMMA_DRAFT_GRAPH` -/
  graphOn : Bool
  /-- `MEMRA_GEMMA_ROUND_GRAPH` -/
  roundGraphOn : Bool
  /-- `MEMRA_ROUND_GRAPH_CHECK` -/
  bodyCheck : Bool
  /-- `MEMRA_GEMMA_SPEC_BURST` -/
  burstM : ℕ
  /-- `MEMRA_GEMMA_BURST_GRAPH` -/
  burstGraph : Bool
  winMain : ℕ
  fa512MinTkv : ℕ
  sharedKvLayers : ℕ
  isE4b : Bool
  /-- `fa_rows_eligible(pos, 256)` -/
  rowsEligible : ℕ → Bool
  /-- whether the drafter has a sliding-window layer, its window, and the layer it reads -/
  draftSwa : Bool
  draftWin : ℕ
  kvTarget : ℕ

namespace GemmaSpecCfg

variable (cfg : GemmaSpecCfg)

def kCap : ℕ := max (min cfg.k cfg.capMax) 1

def adaptFloor : ℕ := cfg.adaptFloorEnv.getD cfg.adaptFloorDefault

def floorAt (pos : ℕ) : ℕ :=
  if cfg.adaptFloorEnv.isSome || decide (pos < cfg.floorCtx) then cfg.adaptFloor
  else if 4 ≤ cfg.adaptFloor then 1 else cfg.adaptFloor

def horizon : ℕ := cfg.burstM * (cfg.kCap + 1)

end GemmaSpecCfg

/-- The number of drafts that agree with the predictions, from the first on. -/
def acceptLen : List Tok → List Tok → ℕ
  | d :: ds, p :: ps => if d = p then acceptLen ds ps + 1 else 0
  | _, _ => 0

/-! ## The device -/

structure SpecDev extends StreamKv where
  /-- `batch_d` -/
  batch : ℕ → Tok
  vam : List Tok
  nAcc : ℕ
  bonus : Tok
  /-- `brk_d`: the depth of the accept walk, and the rows before the drafts -/
  brk : ℕ
  brkBase : ℕ
  lastPred : Tok
  pend : Tok
  /-- the tokens of `ring_d` -/
  ring : List Tok
  /-- ghost: the draft chains run so far -/
  chains : ℕ

namespace SpecDev

variable {σ η : Type}

/-- `n` slots of the batch from `i` on. -/
def slots (d : SpecDev) (i n : ℕ) : List Tok := (List.range n).map fun j => d.batch (i + j)

/-- A draft chain of depth `kr`. -/
def draftChain (D : GemmaDrafter) (kr : ℕ) (d : SpecDev) : SpecDev :=
  { d with
    batch := fun i => if 1 ≤ i ∧ i ≤ kr then D.token d.chains (i - 1) else d.batch i
    chains := d.chains + 1 }

/-- `spec_accept_greedy_dc`. -/
def acceptDc (d : SpecDev) : SpecDev :=
  let preds := if d.brkBase = 0 then d.lastPred :: d.vam else d.vam.drop (d.brkBase - 1)
  let n := acceptLen (d.slots d.brkBase d.brk) preds
  { d with nAcc := n, bonus := preds.getD n 0 }

/-- `spec_ring_commit`. -/
def ringCommit (d : SpecDev) : SpecDev :=
  { d with ring := d.ring ++ d.slots d.brkBase d.nAcc ++ [d.bonus], pend := d.bonus }

/-- `spec_adapt_k`. -/
def adaptK (floor cap : ℕ) (d : SpecDev) : SpecDev :=
  { d with brk := min (max (d.nAcc + 1) floor) cap }

/-- `gemma4_verify_t_am_stream` of the first `n` slots. -/
def verifyBatch (T : Trunk σ η) (n : ℕ) (d : SpecDev) : SpecDev :=
  let (vam, kv) := d.toStreamKv.verifyStream T (d.slots 0 n)
  { d with toStreamKv := kv, vam }

/-- The rows that a verify of the first `n` slots at row `pos` writes. -/
def verifyRows (T : Trunk σ η) (pos n : ℕ) (d : SpecDev) : SpecDev :=
  { d with toStreamKv := (d.toStreamKv.verifyAt T pos (d.slots 0 n)).2 }

/-- `spec_rollback_stream` after an accept. -/
def rollback (d : SpecDev) : SpecDev :=
  { d with toStreamKv := d.toStreamKv.rollbackStream 1 d.nAcc }

/-- The work of a round. -/
def roundOps (T : Trunk σ η) (chain : List (SpecDev → SpecDev)) (kCap : ℕ) :
    List (SpecDev → SpecDev) :=
  [fun d => { d with toStreamKv := d.toStreamKv.copyPos },
    fun d => { d with batch := Function.update d.batch 0 d.pend }] ++ chain ++
  [verifyBatch T (kCap + 1), acceptDc, rollback, ringCommit]

/-- The body of the round graph. -/
def roundBodyOps (T : Trunk σ η) (D : GemmaDrafter) (kCap floor : ℕ) : List (SpecDev → SpecDev) :=
  roundOps T [draftChain D kCap] kCap ++ [adaptK floor kCap]

/-- The entry of a stream arm: the counter, an empty ring, the pending token and the walk. -/
def entry (pos : ℕ) (last : Tok) (depth : ℕ) (d : SpecDev) : SpecDev :=
  { d with posCtr := pos, ring := [], pend := last, brk := depth, brkBase := 1 }

end SpecDev

/-! ## The host -/

/-- The key of a captured graph; a round graph's first component is `usize::MAX - k_cap`, which is no
depth of a chain. -/
inductive DraftKey where
  | round (rung : ℕ) (overWin : Bool)
  | chain (kr rung : ℕ) (overWin : Bool)
  deriving DecidableEq

abbrev DraftGraph := List (SpecDev → SpecDev)

structure GemmaSpecState where
  stream : WorkStream SpecDev
  /-- `cache.pos` -/
  pos : ℕ
  /-- `kvl.len` of each layer with KV -/
  kvLen : List ℕ
  /-- the pending token: predicted, not emitted, not fed -/
  last : Tok
  kc : ℕ
  prevFull : Bool := true
  graphs : List (DraftKey × DraftGraph) := []
  out : List Tok := []

namespace GemmaSpecState

variable (cfg : GemmaSpecCfg)

/-- `over_win`. -/
def overWin (s : GemmaSpecState) : Bool :=
  cfg.draftSwa && (s.kvLen[cfg.kvTarget]?).any fun len => decide (cfg.draftWin < len)

/-- `burst_ok`. -/
def burstOk (maxCtx maxNew : ℕ) (s : GemmaSpecState) : Bool :=
  decide (1 ≤ cfg.burstM) && decide (cfg.pmin = 0) && decide (cfg.sharedKvLayers = 0) &&
    (decide (s.pos + cfg.horizon + cfg.kCap + 4 < cfg.winMain) || decide (cfg.winMain < s.pos)) &&
    (decide (s.pos + cfg.horizon + cfg.kCap + 4 < cfg.fa512MinTkv) ||
      decide (cfg.fa512MinTkv ≤ s.pos + 1)) &&
    cfg.rowsEligible s.pos &&
    decide (s.pos + cfg.horizon + cfg.kCap + 2 ≤ maxCtx) &&
    decide (s.out.length + cfg.horizon ≤ maxNew)

/-- `dc_bucket`. -/
def dcBucket (burstOk : Bool) (s : GemmaSpecState) : Option ℕ :=
  if cfg.draftDc then
    let ml := s.kvLen.max?.getD 1
    let slack := if burstOk then cfg.horizon else 0
    some (max (nextPow2 (ml + slack + cfg.kCap + 2)) 512)
  else none

/-- The depth that a pass drafts to. -/
def depth (burstOk : Bool) (s : GemmaSpecState) : ℕ :=
  if burstOk then cfg.kCap else if cfg.adapt then s.kc else cfg.kCap

/-- The gate of the round-graph arm. -/
def roundOk (maxCtx : ℕ) (s : GemmaSpecState) : Bool :=
  cfg.roundGraphOn && decide (cfg.burstM = 0) && cfg.draftDc && decide (cfg.pmin = 0) &&
    decide (cfg.sharedKvLayers = 0) && !cfg.isE4b &&
    (decide (s.pos + 2 * (cfg.kCap + 1) + cfg.kCap + 4 < cfg.winMain) ||
      decide (cfg.winMain < s.pos)) &&
    (decide (s.pos + 2 * (cfg.kCap + 1) + cfg.kCap + 4 < cfg.fa512MinTkv) ||
      decide (cfg.fa512MinTkv ≤ s.pos + 1)) &&
    cfg.rowsEligible s.pos &&
    decide (s.pos + 2 * (cfg.kCap + 1) + cfg.kCap + 2 ≤ maxCtx)

/-- Work enqueued on the stream. -/
def enqueue (ops : List (SpecDev → SpecDev)) (s : GemmaSpecState) : GemmaSpecState :=
  { s with stream := s.stream.enqueueAll ops }

/-- `capture_graph_retained` of `ops` under `key`: two warm-ups, and the run that is recorded. -/
def captureRetained (key : DraftKey) (ops : List (SpecDev → SpecDev)) (s : GemmaSpecState) :
    GemmaSpecState :=
  let (graph, stream) := s.stream.capture 2 (WorkStream.enqueueAll ops)
  { s with stream, graphs := (key, graph) :: s.graphs }

/-- The graph under `key`. -/
def graph (key : DraftKey) (s : GemmaSpecState) : DraftGraph := (s.graphs.lookup key).getD []

end GemmaSpecState

/-- Tokens emitted one after another, up to a token of `eos` or `max_new` tokens. The flag says that the
loop ends there. -/
def emitUntil (maxNew : ℕ) (eos : List Tok) : List Tok → List Tok → Bool × List Tok
  | [], out => (false, out)
  | t :: ts, out =>
    if t ∈ eos ∨ maxNew ≤ (out ++ [t]).length then (true, out ++ [t])
    else emitUntil maxNew eos ts (out ++ [t])

section

variable {σ η : Type} (T : Trunk σ η) (D : GemmaDrafter) (cfg : GemmaSpecCfg) (maxCtx maxNew : ℕ)
  (eos : List Tok)

/-- The drain of a stream arm: the ring's last token is the next pending one. -/
def streamDrain (rounds : ℕ) (s : GemmaSpecState) : Flow GemmaSpecState :=
  let dev := s.stream.dev
  let toks := dev.ring.take (rounds * (cfg.kCap + 1))
  let (ended, out) := emitUntil maxNew eos toks.dropLast s.out
  let s := { s with
    out
    last := toks.getLastD s.last
    pos := dev.posCtr
    kvLen := s.kvLen.map fun _ => dev.posCtr
    kc := cfg.kCap }
  if ended then .leave s else .again s

/-- The round of a round-graph pass: run on the spot, or launched from its graph, which a pass without one
captures first. -/
def roundLaunch (key : DraftKey) (body : List (SpecDev → SpecDev)) (s : GemmaSpecState) :
    GemmaSpecState :=
  if cfg.bodyCheck then s.enqueue body
  else
    let s := if (s.graphs.lookup key).isNone then s.captureRetained key body else s
    { s with stream := s.stream.launch (s.graph key) }

/-- The pending token of a stream arm is emitted by the host, and may end the loop. -/
def pushPending (s : GemmaSpecState) (rest : GemmaSpecState → Flow GemmaSpecState) :
    Flow GemmaSpecState :=
  let last := s.last
  let s := { s with out := s.out ++ [s.last] }
  if last ∈ eos then .leave s
  else if maxNew ≤ s.out.length then .leave s
  else rest s

/-- The round-graph arm. -/
def roundArm (rung : ℕ) (s : GemmaSpecState) : Flow GemmaSpecState :=
  let depth := if cfg.adapt then s.kc else cfg.kCap
  let s := s.enqueue [SpecDev.entry s.pos s.last depth]
  pushPending maxNew eos s fun s =>
    let key := .round rung (s.overWin cfg)
    let body := SpecDev.roundBodyOps T D cfg.kCap (cfg.floorAt s.pos)
    -- the ring holds the warm-up rounds and the live one
    streamDrain cfg maxNew eos 3 (roundLaunch cfg key body s)

/-- The burst arm. -/
def burstArm (rung : ℕ) (s : GemmaSpecState) : Flow GemmaSpecState :=
  let key := .chain cfg.kCap rung (s.overWin cfg)
  let s :=
    if cfg.burstGraph && (s.graphs.lookup key).isNone then
      s.captureRetained key [SpecDev.draftChain D cfg.kCap]
    else s
  pushPending maxNew eos s fun s =>
    let s := s.enqueue [SpecDev.entry s.pos s.last cfg.kCap]
    let chain := if cfg.burstGraph then s.graph key else [SpecDev.draftChain D cfg.kCap]
    let s := (GemmaSpecState.enqueue (SpecDev.roundOps T chain cfg.kCap))^[cfg.burstM] s
    streamDrain cfg maxNew eos cfg.burstM s

/-- `run_chain`'s depth under an in-round cut. -/
def cutDepth (prob : ℕ → ℚ) (inround : ℚ) (kr : ℕ) : ℕ :=
  if 0 < inround then
    match (List.range (kr - 1)).find? fun j => decide (prob j < inround) with
    | some j => j + 1
    | none => kr
  else kr

/-- The in-round cut of an eager pass. -/
def irNow (s : GemmaSpecState) : ℚ :=
  match cfg.pminIrEnv with
  | some p => p
  | none => if cfg.floorCtx ≤ s.pos ∧ s.prevFull = false then 7 / 10 else 0

/-- The draft chain of an eager pass, from a captured graph or run on the spot; and its depth. -/
def eagerDraft (kr : ℕ) (bucket : Option ℕ) (s : GemmaSpecState) : ℕ × GemmaSpecState :=
  match bucket with
  | some rung =>
    if cfg.graphOn then
      let key := .chain kr rung (s.overWin cfg)
      let s := if (s.graphs.lookup key).isNone then s.captureRetained key [SpecDev.draftChain D kr]
        else s
      (kr, { s with stream := s.stream.launch (s.graph key) })
    else
      let kr := cutDepth (D.prob s.stream.dev.chains) (irNow cfg s) kr
      (kr, s.enqueue [SpecDev.draftChain D kr])
  | none =>
    let kr := cutDepth (D.prob s.stream.dev.chains) (irNow cfg s) kr
    (kr, s.enqueue [SpecDev.draftChain D kr])

/-- The depth of the next round. -/
def adaptDepth (pos m kr : ℕ) (prob : ℕ → ℚ) (kc : ℕ) : ℕ :=
  if cfg.adapt then
    let low := min (cfg.floorAt pos) cfg.kCap
    let kc := min (max (m + 1) low) cfg.kCap
    if 0 < cfg.pmin then
      match (List.range kr).find? fun j => decide (prob j < cfg.pmin) with
      | some fl => min kc (max (fl + 1) low)
      | none => kc
    else kc
  else kc

/-- `gemma4_decode_step_t_am_dev` of the batch: its argmaxes, and the cache with `kr + 1` more rows. -/
def eagerVerify (kr : ℕ) (s : GemmaSpecState) : List Tok × GemmaSpecState :=
  let pos := s.pos
  let vam := (s.stream.dev.toStreamKv.verifyAt T pos (s.stream.dev.slots 0 (kr + 1))).1
  let s := s.enqueue [SpecDev.verifyRows T pos (kr + 1)]
  (vam, { s with pos := pos + (kr + 1), kvLen := s.kvLen.map (· + (kr + 1)) })

/-- The end of an eager round with `m` drafts accepted: the rejected rows are rolled back, and the
correction token is pending. -/
def eagerKeep (kr m : ℕ) (vam : List Tok) (prob : ℕ → ℚ) (s : GemmaSpecState) : GemmaSpecState :=
  let reject := kr + 1 - (m + 1)
  let kvLen := s.kvLen.map (· - reject)
  let pos := s.pos - reject
  let s := s.enqueue [fun d => { d with lenD := kvLen }]
  { s with kvLen, pos, last := vam.getD m 0, kc := adaptDepth cfg pos m kr prob s.kc }

/-- The eager arm from its verify on. -/
def eagerRound (kr : ℕ) (s : GemmaSpecState) : Flow GemmaSpecState :=
  let dtoks := s.stream.dev.slots 1 kr
  let prob := D.prob (s.stream.dev.chains - 1)
  let last := s.last
  let (vam, s) := eagerVerify T kr s
  let m := acceptLen dtoks vam
  let s := { s with prevFull := decide (m = kr), out := s.out ++ [last] }
  if last ∈ eos then .leave s
  else
    match emitUntil maxNew eos (dtoks.take m) s.out with
    | (true, out) => .leave { s with out }
    | (false, out) => .again (eagerKeep cfg kr m vam prob { s with out })

/-- A pass of `'outer`. -/
def gemmaPass (s : GemmaSpecState) : Flow GemmaSpecState :=
  if s.out.length < maxNew then
    let burstOk := s.burstOk cfg maxCtx maxNew
    let kr := s.depth cfg burstOk
    let bucket := s.dcBucket cfg burstOk
    let s := s.enqueue [fun d => { d with batch := Function.update d.batch 0 s.last }]
    match bucket with
    | some rung =>
      if s.roundOk cfg maxCtx then roundArm T D cfg maxNew eos rung s
      else if burstOk then burstArm T D cfg maxNew eos rung s
      else
        let (kr, s) := eagerDraft D cfg kr bucket s
        eagerRound T D cfg maxNew eos kr s
    | none =>
      let (kr, s) := eagerDraft D cfg kr bucket s
      eagerRound T D cfg maxNew eos kr s
  else .leave s

/-- The rows that the cache is allocated with. -/
def gemmaMaxCtx (prompt : List Tok) : ℕ := prompt.length + maxNew + cfg.k + 8

/-- The state after the prompt is primed. -/
def gemmaStart (layers : ℕ) (prompt : List Tok) : GemmaSpecState where
  stream :=
    { dev :=
        { posCtr := 0, posStart := 0, lenD := List.replicate layers prompt.length, rows := prompt
          high := prompt.length, batch := fun _ => 0, vam := [], nAcc := 0, bonus := 0, brk := 0
          brkBase := 0, lastPred := 0, pend := 0, ring := [], chains := 0 } }
  pos := prompt.length
  kvLen := List.replicate layers prompt.length
  last := T.pred (T.after prompt)
  kc := cfg.kCap

/-- `generate_spec_gemma`. -/
def generateSpecGemma (layers : ℕ) (prompt : List Tok) : Option GemmaSpecState :=
  Loop.run (gemmaPass T D cfg (gemmaMaxCtx cfg maxNew prompt) maxNew eos) (maxNew + 1)
    (gemmaStart T cfg layers prompt)

end

end Memra
