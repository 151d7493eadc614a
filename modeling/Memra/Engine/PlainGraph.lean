import Memra.Engine.GemmaStream
import Memra.Lib.Capture
import Memra.Lib.Loop

/-!
# The plain-decode graph loop

`gemma4_generate_plain_graph` (`gemma_spec.rs`): a self-feeding step body that is captured once per
regime and replayed, with the tokens left in a device ring that the host drains. The host never reads
the device counter: `plainPass` advances `cache.pos` by the number of steps it takes each branch to have
run, `served` of them for a capture. `servedByCapture` is the code's number.
-/

namespace Memra

open Lib

/-- `(rung, window side, crossover side)`. -/
abbrev Regime := ℕ × Bool × Bool

/-- The thresholds and sizes of the loop, and `MEMRA_G4PLAIN_EAGER`. -/
structure PlainCfg where
  winMain : ℕ
  fa512MinTkv : ℕ
  forceEager : Bool
  ringCap : ℕ
  drain : ℕ

namespace PlainCfg

variable (cfg : PlainCfg)

def hintFor (pos : ℕ) : ℕ :=
  if cfg.winMain < pos then pos + cfg.drain + 2
  else if cfg.fa512MinTkv ≤ pos + 1 then cfg.winMain - 2
  else cfg.fa512MinTkv - 5

def regimeKey (pos : ℕ) : Regime :=
  (max (nextPow2 (pos + cfg.drain + 2)) 512, decide (cfg.winMain < pos),
    decide (cfg.fa512MinTkv ≤ pos + 1))

/-- The whole stretch `[pos, pos + n)` has one regime. -/
def stableFor (pos n : ℕ) : Bool :=
  decide (cfg.regimeKey pos = cfg.regimeKey (pos + n)) &&
    (decide (cfg.winMain < pos) || decide (pos + n + 2 < cfg.winMain)) &&
    (decide (cfg.fa512MinTkv ≤ pos + 1) || decide (pos + n + 2 < cfg.fa512MinTkv))

/-- Whether a pass at `pos` with `left` tokens to go runs from a graph. -/
def usesGraph (pos left : ℕ) : Bool :=
  !cfg.forceEager && decide (4 ≤ min cfg.drain left) &&
    cfg.stableFor pos (min cfg.drain left + 3)

end PlainCfg

/-- The device side of the loop. -/
structure PlainDev extends StreamKv where
  tok : Tok
  vam : Tok
  ring : ℕ → Tok
  /-- ghost: the position whose step wrote each ring slot -/
  wrote : ℕ → Option ℕ
  /-- ghost: of every step run, the regime its body was built for and the position it ran at -/
  ran : List (Regime × ℕ)

namespace PlainDev

variable {σ η : Type}

/-- `gemma4_verify_t_am_stream` of `tok_d`. `hint` only bounds the launch geometry. -/
def verify (T : Trunk σ η) (_hint : ℕ) (regime : Regime) (d : PlainDev) : PlainDev :=
  let (vam, kv) := d.toStreamKv.verifyStream T [d.tok]
  { d with toStreamKv := kv, vam := vam.headD 0, ran := d.ran ++ [(regime, d.posCtr)] }

/-- `plain_tok_ring`. -/
def plainTokRing (base cap : ℕ) (d : PlainDev) : PlainDev :=
  { d with
    ring := Function.update d.ring ((d.posStart - base) % cap) d.vam
    wrote := Function.update d.wrote ((d.posStart - base) % cap) (some d.posStart) }

/-- The work that the step body enqueues. -/
def stepOps (T : Trunk σ η) (hint : ℕ) (regime : Regime) (base cap : ℕ) :
    List (PlainDev → PlainDev) :=
  [fun d => { d with toStreamKv := d.toStreamKv.copyPos },
    verify T hint regime,
    fun d => { d with tok := d.vam },
    plainTokRing base cap,
    fun d => { d with toStreamKv := d.toStreamKv.rollbackStream 1 0 }]

end PlainDev

/-- A captured graph. -/
abbrev PlainGraph := List (PlainDev → PlainDev)

/-- The host side of the loop and the stream. -/
structure PlainState where
  stream : WorkStream PlainDev
  /-- `cache.pos` -/
  pos : ℕ
  /-- `kvl.len` of each layer with KV -/
  kvLen : List ℕ
  graphs : List (Regime × PlainGraph) := []
  out : List Tok := []
  drained : ℕ := 0
  /-- ghost: the tokens read off the ring by index, and whose step had written the slot -/
  reads : List (ℕ × Option ℕ) := []

section

variable {σ η : Type} (T : Trunk σ η) (cfg : PlainCfg)

/-- The `step` closure of a pass at host position `pos`. -/
def plainStep (base pos : ℕ) (s : WorkStream PlainDev) : WorkStream PlainDev :=
  s.enqueueAll (PlainDev.stepOps T (cfg.hintFor pos) (cfg.regimeKey pos) base cfg.ringCap)

/-- The drain loop: at most `n` tokens from index `drained` on, up to `max_new` or a token of `eos`.
The flag is its `return`. -/
def drainRing (cfg : PlainCfg) (maxNew : ℕ) (eos : List Tok) (d : PlainDev) :
    ℕ → PlainState → Bool × PlainState
  | 0, s => (false, s)
  | n + 1, s =>
    if s.out.length < maxNew then
      let slot := s.drained % cfg.ringCap
      let s := { s with
        out := s.out ++ [d.ring slot]
        drained := s.drained + 1
        reads := s.reads ++ [(s.drained, d.wrote slot)] }
      if d.ring slot ∈ eos then (true, s) else drainRing cfg maxNew eos d n s
    else (false, s)

/-- The branch of a pass: the steps it counts, and what it leaves of the stream and the graphs. -/
def plainBranch (served base maxNew : ℕ) (s : PlainState) :
    ℕ × WorkStream PlainDev × List (Regime × PlainGraph) :=
  let step := plainStep T cfg base s.pos
  let left := maxNew - s.out.length
  if cfg.usesGraph s.pos left then
    match s.graphs.lookup (cfg.regimeKey s.pos) with
    | none =>
      -- `capture_graph_retained`: two warm-ups, and the run that is recorded
      let (graph, stream) := s.stream.capture 2 step
      (served, stream, (cfg.regimeKey s.pos, graph) :: s.graphs)
    | some graph =>
      (min cfg.drain left, (WorkStream.launch graph)^[min cfg.drain left] s.stream, s.graphs)
  else (1, step s.stream, s.graphs)

/-- The host mirrors after a branch that counted `steps`. -/
def plainAdvance (s : PlainState) (steps : ℕ) (stream : WorkStream PlainDev)
    (graphs : List (Regime × PlainGraph)) : PlainState :=
  { s with
    stream, graphs
    pos := s.pos + steps
    kvLen := s.kvLen.map fun _ => s.pos + steps }

/-- A pass of the loop of `gemma4_plain_graph_inner`. -/
def plainPass (served base maxNew : ℕ) (eos : List Tok) (s : PlainState) : Flow PlainState :=
  if s.out.length < maxNew then
    let (steps, stream, graphs) := plainBranch T cfg served base maxNew s
    let s := plainAdvance s steps stream graphs
    match drainRing cfg maxNew eos stream.dev (s.pos - base - s.drained) s with
    | (true, s) => .leave s
    | (false, s) => .again s
  else .leave s

/-- The state at the loop's first head: `prompt` is primed, `last` is to be fed. -/
def plainStart (layers : ℕ) (prompt : List Tok) (last : Tok) : PlainState where
  stream :=
    { dev :=
        { posCtr := prompt.length, posStart := prompt.length
          lenD := List.replicate layers prompt.length, rows := prompt, high := prompt.length
          tok := last, vam := 0, ring := fun _ => 0, wrote := fun _ => none, ran := [] } }
  pos := prompt.length
  kvLen := List.replicate layers prompt.length

/-- `3 SERVED steps (2 warmups + the captured run itself)`. -/
def servedByCapture : ℕ := 3

end

/-- `RING` and `DRAIN`. -/
def PlainCfg.serving (winMain fa512MinTkv : ℕ) (forceEager : Bool) : PlainCfg :=
  { winMain, fa512MinTkv, forceEager, ringCap := 64, drain := 32 }

/-- `gemma4_generate_plain_graph`. -/
def gemma4GeneratePlainGraph {σ η : Type} (T : Trunk σ η) (winMain fa512MinTkv : ℕ)
    (forceEager : Bool) (layers : ℕ) (prompt : List Tok) (last : Tok) (maxNew : ℕ)
    (eos : List Tok) : Option PlainState :=
  Loop.run
    (plainPass T (.serving winMain fa512MinTkv forceEager) servedByCapture prompt.length maxNew eos)
    (maxNew + 1) (plainStart layers prompt last)

end Memra
