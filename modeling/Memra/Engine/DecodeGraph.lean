import Memra.Engine.Trunk
import Memra.Lib.Loop
import Memra.Lib.NodeGraph

/-!
# Graph decode sessions

The device-counter decode step (`decode.rs`), eager (`decode_step_dc`) and captured
(`decode_step_dc_cap`), and what replays the captured one: `fa_plan` and `fa_apply` (`graph_update.rs`),
the capture of a kernel-class segment, `GraphSession` and `graph_decode_loop`. A step is a list of nodes
that act on the device; the host side of the cache is apart. Everything the layers compute is a
parameter, as a function of what the kernels are given: the kernel class, the split counts in their
arguments, the rows in view. Every layer index has counters and a state; those of the other kind of layer
are never touched.
-/

namespace Memra.DecodeGraph

open Lib

/-! ## Kernel classes -/

/-- `(fa_vec, v4, fa512, rung)`. -/
abbrev FaClass := Bool × Bool × Bool × ℕ

/-- The switches that pick an attention kernel at a `t_kv`, and the ladder. -/
structure FaCfg where
  /-- `fa_geom_eager(t_kv, ..).0` -/
  vec : ℕ → Bool
  /-- `fa_v4_at` -/
  v4 : ℕ → Bool
  /-- `head_dim == 512 && t_kv >= fa512_min_tkv()` -/
  fa512 : ℕ → Bool
  /-- `fa_split_keys(t_kv, n_head_kv)` -/
  splitKeys : ℕ → ℕ → ℕ
  /-- the `split_keys` that the scalar kernel of a class is given -/
  scalarKeys : FaClass → ℕ
  nHead : ℕ
  nHeadKv : ℕ
  /-- the address of the partials of a layer, in a capture for a bucket -/
  partO : ℕ → ℕ → ℕ

namespace FaCfg

variable (cfg : FaCfg)

/-- `fa_class_of`. -/
def faClassOf (t : ℕ) : FaClass :=
  (cfg.vec t, cfg.v4 t, cfg.fa512 t, cfg.splitKeys t cfg.nHeadKv)

/-- `end` raised while the next `t_kv` is of class `cls`, at most `fuel` times. -/
def raiseEnd (cls : FaClass) : ℕ → ℕ → ℕ
  | 0, stop => stop
  | fuel + 1, stop =>
    if cfg.faClassOf (stop + 1) = cls then raiseEnd cls fuel (stop + 1) else stop

/-- `fa_segment_end`. -/
def faSegmentEnd (start finalMax : ℕ) : ℕ :=
  cfg.raiseEnd (cfg.faClassOf start) (finalMax - start) start

/-- The `split_keys` argument of a class's kernel. -/
def keysOf (c : FaClass) : ℕ := if c.1 then c.2.2.2 else cfg.scalarKeys c

/-- `gridDim.x`. -/
def gridOf (c : FaClass) : ℕ := if c.1 then cfg.nHeadKv else cfg.nHead

end FaCfg

/-- `ceil(t_kv / split_keys)`, at least one. -/
def splitsFor (t keys : ℕ) : ℕ := max ((t + keys - 1) / keys) 1

/-- The split count at `t_kv`. -/
def FaCfg.splitsOf (cfg : FaCfg) (t : ℕ) : ℕ := splitsFor t (cfg.keysOf (cfg.faClassOf t))

/-! ## The device -/

/-- `LayerKind`. -/
inductive LayerKind
  | fullAttention
  | linearAttention
  deriving DecidableEq

/-- The device side of a `KvLayer`. -/
structure KvLayer (κ : Type) where
  rows : ℕ → κ
  lenD : ℕ
  /-- ghost: one past the highest row written -/
  high : ℕ

/-- The row written at the counter. -/
def KvLayer.append {κ : Type} (kvl : KvLayer κ) (row : κ) : KvLayer κ :=
  { kvl with
    rows := Function.update kvl.rows kvl.lenD row
    high := max kvl.high (kvl.lenD + 1) }

def KvLayer.incSeqlen {κ : Type} (kvl : KvLayer κ) : KvLayer κ := { kvl with lenD := kvl.lenD + 1 }

/-- What a step reads and writes: the cache, `pos_d` and `token_d`, the residual stream and the partials
by address. -/
structure DcDev (κ ρ η π : Type) where
  kv : ℕ → KvLayer κ
  recur : ℕ → ρ
  posD : ℕ
  tokenD : Tok
  x : η
  part : ℕ → π

/-- The model: what each kernel computes. -/
structure DcModel (κ ρ η π : Type) where
  layers : List LayerKind
  embed : Tok → η
  /-- the row of a layer at a rope position -/
  kvRow : ℕ → ℕ → η → κ
  /-- an attention main, given the layer, the class, the rope position, the splits it partitions the
  keys by, its grid and its `n_splits` -/
  faMain : ℕ → FaClass → ℕ → ℕ → ℕ → ℕ → List κ → η → π
  /-- a combine over `n_splits` and the rest of the layer -/
  faCombine : ℕ → ℕ → π → η → η
  linear : ℕ → ρ → η → ρ × η
  /-- the head and the argmax -/
  pick : η → Tok

/-- The launch parameters of an attention main. -/
structure FaParams where
  cls : FaClass
  partO : ℕ
  gridX : ℕ
  gridY : ℕ
  nSplits : ℕ
  splitKeys : ℕ
  deriving DecidableEq

/-- The work of a step. -/
inductive DcNode
  | embedGather
  | append (il : ℕ)
  | incSeqlen (il : ℕ)
  | faMain (il : ℕ) (p : FaParams)
  | faCombine (il partO nSplits : ℕ)
  | linear (il : ℕ)
  | argmax
  | incPos
  deriving DecidableEq

section

variable {κ ρ η π : Type} (M : DcModel κ ρ η π) (cfg : FaCfg)

/-- What a node does. -/
def DcNode.run (d : DcDev κ ρ η π) : DcNode → DcDev κ ρ η π
  | embedGather => { d with x := M.embed d.tokenD }
  | append il =>
    { d with kv := Function.update d.kv il ((d.kv il).append (M.kvRow il d.posD d.x)) }
  | incSeqlen il => { d with kv := Function.update d.kv il (d.kv il).incSeqlen }
  | faMain il p =>
    -- the kernel reads `T_kv` off the counter and partitions by `ns_eff`, not by `n_splits`
    let tKv := (d.kv il).lenD
    let view := (List.range tKv).map (d.kv il).rows
    { d with
      part := Function.update d.part p.partO
        (M.faMain il p.cls d.posD (splitsFor tKv p.splitKeys) p.gridY p.nSplits view d.x) }
  | faCombine il partO nSplits => { d with x := M.faCombine il nSplits (d.part partO) d.x }
  | linear il =>
    let (st, x) := M.linear il (d.recur il) d.x
    { d with recur := Function.update d.recur il st, x }
  | argmax => { d with tokenD := M.pick d.x }
  | incPos => { d with posD := d.posD + 1 }

/-- What a list of nodes does. -/
def DcDev.exec (d : DcDev κ ρ η π) (nodes : List DcNode) : DcDev κ ρ η π :=
  Lib.exec (fun n d => DcNode.run M d n) nodes d

/-- `fa_decode_dc`, sized for `bucketMax`. -/
def faDecodeDc (il bucketMax : ℕ) : List DcNode :=
  let c := cfg.faClassOf bucketMax
  let nSplits := cfg.splitsOf bucketMax
  let partO := cfg.partO bucketMax il
  [.faMain il
      { cls := c, partO, gridX := cfg.gridOf c, gridY := nSplits, nSplits,
        splitKeys := cfg.keysOf c },
    .faCombine il partO nSplits]

/-! ## The eager step -/

/-- A cache with its device counters: the host keeps `pos` and `len` of each layer. -/
structure DcState (κ ρ η π : Type) where
  dev : DcDev κ ρ η π
  pos : ℕ
  len : ℕ → ℕ

/-- The host lengths after a step: `len` of every layer with KV is one more. -/
def advanceLens (layers : List LayerKind) (len : ℕ → ℕ) (il : ℕ) : ℕ :=
  if layers[il]? = some .fullAttention then len il + 1 else len il

/-- The mixer of layer `il`: `full_attn_decode_dc` or `linear_attn_decode`. -/
def mixerDc (s : DcState κ ρ η π) (il : ℕ) : LayerKind → DcState κ ρ η π
  | .fullAttention =>
    let len := Function.update s.len il (s.len il + 1)
    { s with
      len
      dev := s.dev.exec M ([.append il, .incSeqlen il] ++ faDecodeDc cfg il (len il)) }
  | .linearAttention => { s with dev := s.dev.exec M [.linear il] }

/-- The layers, from index `il` on. -/
def layersDc (s : DcState κ ρ η π) (il : ℕ) : List LayerKind → DcState κ ρ η π
  | [] => s
  | k :: ks => layersDc (mixerDc M cfg s il k) (il + 1) ks

/-- `decode_step_dc`: the next token stays off `token_d`. -/
def decodeStepDc (s : DcState κ ρ η π) : Tok × DcState κ ρ η π :=
  let s := { s with dev := s.dev.exec M [.embedGather] }
  let s := layersDc M cfg s 0 M.layers
  (M.pick s.dev.x, { s with dev := s.dev.exec M [.incPos], pos := s.pos + 1 })

/-- A greedy step: the next token is set as the input. -/
def eagerStep (s : DcState κ ρ η π) : Tok × DcState κ ρ η π :=
  let (tok, s) := decodeStepDc M cfg s
  (tok, { s with dev := { s.dev with tokenD := tok } })

/-- Eager greedy decoding, `n` steps. -/
def eagerDecode (s : DcState κ ρ η π) : ℕ → List Tok × DcState κ ρ η π
  | 0 => ([], s)
  | n + 1 =>
    let (toks, s) := eagerDecode s n
    let (tok, s) := eagerStep M cfg s
    (toks ++ [tok], s)

/-! ## The captured step -/

/-- The mixer of a captured step. -/
def mixerDcCap (bucketMax il : ℕ) : LayerKind → List DcNode
  | .fullAttention => [.append il, .incSeqlen il] ++ faDecodeDc cfg il bucketMax
  | .linearAttention => [.linear il]

def layersDcCap (bucketMax : ℕ) : ℕ → List LayerKind → List DcNode
  | _, [] => []
  | il, k :: ks => mixerDcCap cfg bucketMax il k ++ layersDcCap bucketMax (il + 1) ks

/-- `decode_step_dc_cap`. -/
def decodeStepDcCap (bucketMax : ℕ) : List DcNode :=
  .embedGather :: (layersDcCap cfg bucketMax 0 M.layers ++ [.argmax, .incPos])

end

/-! ## Exec updates -/

/-- An attention main of a graph and its combine, by node index. -/
structure FaMain where
  node : ℕ
  nkv : ℕ
  bucketSplits : ℕ
  selfSplitKeys : Option ℕ
  combine : Option ℕ
  cur : ℕ
  deriving DecidableEq

/-- A node as a main: the address of its partials, and its entry. -/
def mainOf : DcNode × ℕ → Option (ℕ × FaMain)
  | (.faMain _ p, i) =>
    some (p.partO,
      { node := i, nkv := p.gridX, bucketSplits := p.gridY
        selfSplitKeys := if p.cls.1 then none else some p.splitKeys
        combine := none, cur := p.gridY })
  | _ => none

/-- A node as a combine: its index and the address it reads. -/
def combineOf : DcNode × ℕ → Option (ℕ × ℕ)
  | (.faCombine _ partO _, i) => some (i, partO)
  | _ => none

/-- `fa_plan`. -/
def faPlan (nodes : List DcNode) : Except String (List FaMain) :=
  match firstFit (fun m c => decide (m.2.node < c.1) && decide (c.2 = m.1))
      (nodes.zipIdx.filterMap mainOf) (nodes.zipIdx.filterMap combineOf) with
  | some pairs => .ok (pairs.map fun mc => { mc.1.2 with combine := some mc.2.1 })
  | none => .error "fa_plan: fa main has no partO-paired combine node"

/-- New geometry for a node. -/
def DcNode.setSplits (ns : ℕ) : DcNode → DcNode
  | faMain il p => .faMain il { p with gridY := ns, nSplits := ns }
  | faCombine il partO _ => .faCombine il partO ns
  | n => n

/-- The split count of a main at the live `t_kv`. -/
def FaMain.liveSplits (splitKeys : ℕ → ℕ → ℕ) (tKv : ℕ) (m : FaMain) : ℕ :=
  let ns :=
    match m.selfSplitKeys with
    | some ski => (tKv + ski - 1) / max ski 1
    | none =>
      let sp := max (splitKeys tKv m.nkv) 1
      (tKv + sp - 1) / sp
  min (max ns 1) m.bucketSplits

/-- `fa_apply`. -/
def faApply (splitKeys : ℕ → ℕ → ℕ) (tKv : ℕ) (nodes : List DcNode) :
    List FaMain → List DcNode × List FaMain
  | [] => (nodes, [])
  | m :: plan =>
    let ns := m.liveSplits splitKeys tKv
    if ns = m.cur then
      let (nodes, plan) := faApply splitKeys tKv nodes plan
      (nodes, m :: plan)
    else
      let nodes := nodes.modify m.node (·.setSplits ns)
      let nodes :=
        match m.combine with
        | some ci => nodes.modify ci (·.setSplits ns)
        | none => nodes
      let (nodes, plan) := faApply splitKeys tKv nodes plan
      (nodes, { m with cur := ns } :: plan)

/-! ## Segments and sessions -/

section

variable {κ ρ η π : Type} (M : DcModel κ ρ η π) (cfg : FaCfg) (warmups : ℕ)

/-- `CacheSnapshot`. -/
structure CacheSnapshot (ρ : Type) where
  kvLen : ℕ → ℕ
  recur : ℕ → ρ
  pos : ℕ

def DcState.snapshot (s : DcState κ ρ η π) : CacheSnapshot ρ :=
  { kvLen := s.len, recur := s.dev.recur, pos := s.pos }

/-- `rollback`. -/
def DcState.rollback (s : DcState κ ρ η π) (snap : CacheSnapshot ρ) (acceptLen : ℕ) :
    DcState κ ρ η π :=
  { pos := snap.pos
    len := fun il => snap.kvLen il + acceptLen
    dev :=
      { s.dev with
        kv := fun il => { s.dev.kv il with lenD := snap.kvLen il + acceptLen }
        recur := snap.recur } }

/-- `graph_capture_segment`: the graph, its plan, the segment's end and the state left. -/
def graphCaptureSegment (finalMax : ℕ) (s : DcState κ ρ η π) :
    Except String (List DcNode × List FaMain × ℕ × DcState κ ρ η π) :=
  let segEnd := cfg.faSegmentEnd (s.pos + 1) finalMax
  let snap := s.snapshot
  let (graph, dev) :=
    captureNodes (fun n d => DcNode.run M d n) warmups (decodeStepDcCap M cfg segEnd) s.dev
  let r := DcState.rollback { s with dev } snap 0
  let restored : DcState κ ρ η π :=
    { r with
      dev :=
        { r.dev with
          kv := fun il => { r.dev.kv il with lenD := (s.dev.kv il).lenD }
          posD := s.dev.posD
          tokenD := s.dev.tokenD } }
  match faPlan graph with
  | .ok plan => .ok (graph, plan, segEnd, restored)
  | .error e => .error e

/-- `fa_apply`, a launch, and the host mirrors. -/
def replay (graph : List DcNode) (plan : List FaMain) (s : DcState κ ρ η π) :
    List DcNode × List FaMain × DcState κ ρ η π :=
  let (graph, plan) := faApply cfg.splitKeys (s.pos + 1) graph plan
  (graph, plan,
    { dev := s.dev.exec M graph, pos := s.pos + 1, len := advanceLens M.layers s.len })

/-- `GraphSession`. -/
structure GraphSession (κ ρ η π : Type) where
  st : DcState κ ρ η π
  graph : List DcNode
  plan : List FaMain
  bucketMax : ℕ
  segEnd : ℕ

/-- The device counters set from the host, and the token to be fed. -/
def DcState.sync (s : DcState κ ρ η π) (firstToken : Tok) : DcState κ ρ η π :=
  { s with
    dev :=
      { s.dev with
        kv := fun il => { s.dev.kv il with lenD := s.len il }
        posD := s.pos
        tokenD := firstToken } }

/-- `graph_session_from_cache`: the counters are synced, then the first segment is captured. -/
def graphSessionFromCache (s : DcState κ ρ η π) (firstToken : Tok) (maxNew : ℕ) :
    Except String (GraphSession κ ρ η π × Tok) :=
  let bucketMax := s.pos + maxNew + 1
  match graphCaptureSegment M cfg warmups bucketMax (s.sync firstToken) with
  | .ok (graph, plan, segEnd, st) => .ok ({ st, graph, plan, bucketMax, segEnd }, st.dev.tokenD)
  | .error e => .error e

/-- `graph_session_recapture`. -/
def GraphSession.recapture (sess : GraphSession κ ρ η π) : Except String (GraphSession κ ρ η π) :=
  match graphCaptureSegment M cfg warmups sess.bucketMax sess.st with
  | .ok (graph, plan, segEnd, st) => .ok { sess with st, graph, plan, segEnd }
  | .error e => .error e

/-- The rest of a step. -/
def GraphSession.replayed (sess : GraphSession κ ρ η π) : Tok × GraphSession κ ρ η π :=
  let (graph, plan, st) := replay M cfg sess.graph sess.plan sess.st
  (st.dev.tokenD, { sess with st, graph, plan })

/-- `GraphSession::step`. -/
def GraphSession.step (sess : GraphSession κ ρ η π) : Except String (Tok × GraphSession κ ρ η π) :=
  if sess.bucketMax ≤ sess.st.pos + 1 then
    .error "GraphSession: past bucket_max (generation budget exceeded)"
  else if sess.segEnd < sess.st.pos + 1 then
    match sess.recapture M cfg warmups with
    | .ok sess => .ok (sess.replayed M cfg)
    | .error e => .error e
  else .ok (sess.replayed M cfg)

/-- `n` steps, and the tokens they return. -/
def GraphSession.steps (sess : GraphSession κ ρ η π) :
    ℕ → Except String (List Tok × GraphSession κ ρ η π)
  | 0 => .ok ([], sess)
  | n + 1 =>
    match sess.steps n with
    | .ok (toks, sess) =>
      match sess.step M cfg warmups with
      | .ok (tok, sess) => .ok (toks ++ [tok], sess)
      | .error e => .error e
    | .error e => .error e

end

/-! ## The replay loop -/

/-- `StopReason`. -/
inductive StopReason
  | eos
  | maxNew
  | contextFull
  | callback
  deriving DecidableEq

section

variable {κ ρ η π : Type} (M : DcModel κ ρ η π) (cfg : FaCfg) (warmups : ℕ)

/-- The variables of `graph_decode_loop`; `ret` is its return, once it does. -/
structure LoopState (κ ρ η π : Type) where
  st : DcState κ ρ η π
  /-- the tokens handed to `emit` -/
  out : List Tok
  done : ℕ
  graph : List DcNode := []
  plan : List FaMain := []
  segEnd : ℕ := 0
  ret : Option (Except String StopReason) := none
  /-- ghost: the graphs launched, as they were retuned -/
  launched : List (List DcNode × List FaMain) := []

/-- `emit`, asked about the tokens handed to it so far. -/
abbrev Emit := List Tok → Option StopReason

/-- A pass of the inner loop. -/
def replayPass (emit : Emit) (maxNew : ℕ) (s : LoopState κ ρ η π) : Flow (LoopState κ ρ η π) :=
  if s.done < maxNew ∧ s.st.pos + 1 ≤ s.segEnd then
    let (graph, plan, st) := replay M cfg s.graph s.plan s.st
    let out := s.out ++ [st.dev.tokenD]
    let s :=
      { s with
        st, graph, plan, out
        done := s.done + 1
        launched := s.launched ++ [(graph, plan)] }
    match emit out with
    | some r => .leave { s with ret := some (.ok r) }
    | none => .again s
  else .leave s

/-- A pass of the outer loop: a segment is captured and replayed. -/
def segmentPass (emit : Emit) (maxNew finalMax : ℕ) (s : LoopState κ ρ η π) :
    Flow (LoopState κ ρ η π) :=
  if s.done < maxNew then
    match graphCaptureSegment M cfg warmups finalMax s.st with
    | .error e => .leave { s with ret := some (.error e) }
    | .ok (graph, plan, segEnd, st) =>
      match Loop.run (replayPass M cfg emit maxNew) (maxNew + 1)
          { s with st, graph, plan, segEnd } with
      | none => .leave s
      | some s => if s.ret.isSome then .leave s else .again s
  else .leave { s with ret := some (.ok .maxNew) }

/-- `graph_decode_loop`. -/
def graphDecodeLoop (emit : Emit) (maxNew : ℕ) (s : DcState κ ρ η π) :
    Option (LoopState κ ρ η π) :=
  let first := s.dev.tokenD
  match emit [first] with
  | some r => some { st := s, out := [first], done := 0, ret := some (.ok r) }
  | none =>
    Loop.run (segmentPass M cfg warmups emit maxNew (s.pos + maxNew + 1)) (maxNew + 1)
      { st := s, out := [first], done := 1 }

end

end Memra.DecodeGraph
