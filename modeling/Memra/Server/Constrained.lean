import Memra.Engine.Constraint
import Mathlib

/-!
# The grammar hook and its cache

`constrained.rs`: `SpecGrammar` keeps the mask of the committed state until a token moves that state, and
a clone of the matcher that the draft chain walks. The matcher of llguidance is a deterministic
automaton, a parameter here: a token that it refuses is no transition. `step` is one call of the
engine, `run` a sequence of them in any order.
-/

namespace Memra.Constrained

/-- `SimpleVob`: which tokens are set. -/
abbrev SimpleVob := List Bool

/-- `as_slice`: the bits in words of 32. -/
def asSlice (v : SimpleVob) : List ℕ :=
  (List.range ((v.length + 31) / 32)).map fun w =>
    ((List.range 32).map fun b => if v.getD (32 * w + b) false then 2 ^ b else 0).sum

/-- `Matcher`. -/
structure Matcher (γ : Type) where
  computeMaskOrEos : γ → Except String SimpleVob
  consumeToken : γ → Tok → Except String γ

/-- The tokens one after the other. -/
def Matcher.consumeAll {γ : Type} (M : Matcher γ) (m : γ) (toks : List Tok) : Except String γ :=
  toks.foldlM M.consumeToken m

/-- `apply_mask`: `-inf` for the tokens that are not set, and for the rows behind the mask. -/
def applyMask (mask : SimpleVob) (logits : Row) : Row :=
  logits.mapIdx fun i v =>
    match mask[i]? with
    | some true => v
    | some false => ⊥
    | none => ⊥

/-- `SessionConstraint`: the committed matcher and the meters that count. -/
structure SessionConstraint (γ : Type) where
  m : γ
  steps : ℕ := 0
  specClones : ℕ := 0
  draftMasks : ℕ := 0

/-- `SpecGrammar`. -/
structure SpecGrammar (γ : Type) where
  c : SessionConstraint γ
  eos : Tok
  cur : Option SimpleVob := none
  spec : Option γ := none
  on : Bool

namespace SpecGrammar

variable {γ : Type} (M : Matcher γ)

/-- `new`. -/
def new (m : γ) (eos : Tok) (on : Bool) : SpecGrammar γ := { c := { m }, eos, on }

/-- `cur_mask`. -/
def curMask (g : SpecGrammar γ) : Except String SimpleVob × SpecGrammar γ :=
  match g.cur with
  | some v => (.ok v, g)
  | none =>
    match M.computeMaskOrEos g.c.m with
    | .error e => (.error e, g)
    | .ok v => (.ok v, { g with c := { g.c with steps := g.c.steps + 1 }, cur := some v })

/-- `mask_logits`. -/
def maskLogits (g : SpecGrammar γ) (logits : Row) : Except String Row × SpecGrammar γ :=
  let r := g.curMask M
  (r.1.map fun mask => applyMask mask logits, r.2)

/-- `mask_words`. -/
def maskWords (g : SpecGrammar γ) : Except String (List ℕ) × SpecGrammar γ :=
  let r := g.curMask M
  (r.1.map asSlice, r.2)

/-- `is_allowed`. -/
def isAllowed (g : SpecGrammar γ) (tok : Tok) : Except String Bool × SpecGrammar γ :=
  let r := g.curMask M
  (r.1.map fun mask => tok < mask.length && mask.getD tok false, r.2)

/-- `consume`. -/
def consume (g : SpecGrammar γ) (tok : Tok) : Except String Unit × SpecGrammar γ :=
  let g := { g with spec := none }
  if tok = g.eos then (.ok (), g)
  else
    match M.consumeToken g.c.m tok with
    | .error e => (.error e, g)
    | .ok m => (.ok (), { g with c := { g.c with m }, cur := none })

/-- `draft_begin`. -/
def draftBegin (g : SpecGrammar γ) : SpecGrammar γ :=
  if g.on then
    { g with c := { g.c with specClones := g.c.specClones + 1 }, spec := some g.c.m }
  else { g with spec := none }

/-- `draft_mask_words`. -/
def draftMaskWords (g : SpecGrammar γ) : Except String (Option (List ℕ)) × SpecGrammar γ :=
  if g.on then
    match g.spec with
    | none => (.ok none, g)
    | some spec =>
      match M.computeMaskOrEos spec with
      | .error e => (.error e, g)
      | .ok mask =>
        (.ok (some (asSlice mask)), { g with c := { g.c with draftMasks := g.c.draftMasks + 1 } })
  else (.ok none, g)

/-- `draft_advance`. -/
def draftAdvance (g : SpecGrammar γ) (tok : Tok) : Bool × SpecGrammar γ :=
  if g.on then
    match g.spec with
    | none => (false, g)
    | some spec =>
      if tok = g.eos then (false, g)
      else
        match M.consumeToken spec tok with
        | .ok m => (true, { g with spec := some m })
        | .error _ => (false, g)
  else (false, g)

end SpecGrammar

/-! ## Calls in any order -/

/-- A call of the engine. -/
inductive Call
  | maskLogits (logits : Row)
  | maskWords
  | isAllowed (tok : Tok)
  | consume (tok : Tok)
  | draftBegin
  | draftMaskWords
  | draftAdvance (tok : Tok)

/-- What it returns. -/
inductive Answer
  | logits (r : Except String Row)
  | words (r : Except String (List ℕ))
  | allowed (r : Except String Bool)
  | consumed (r : Except String Unit)
  | begun
  | draftWords (r : Except String (Option (List ℕ)))
  | advanced (accepted : Bool)

namespace SpecGrammar

variable {γ : Type} (M : Matcher γ)

/-- One call. -/
def step (g : SpecGrammar γ) : Call → Answer × SpecGrammar γ
  | .maskLogits logits => let r := g.maskLogits M logits; (.logits r.1, r.2)
  | .maskWords => let r := g.maskWords M; (.words r.1, r.2)
  | .isAllowed tok => let r := g.isAllowed M tok; (.allowed r.1, r.2)
  | .consume tok => let r := g.consume M tok; (.consumed r.1, r.2)
  | .draftBegin => (.begun, g.draftBegin)
  | .draftMaskWords => let r := g.draftMaskWords M; (.draftWords r.1, r.2)
  | .draftAdvance tok => let r := g.draftAdvance M tok; (.advanced r.1, r.2)

/-- The calls one after the other, with their answers. -/
def run (g : SpecGrammar γ) (calls : List Call) : List (Call × Answer) × SpecGrammar γ :=
  calls.foldl (fun r call => let s := r.2.step M call; (r.1 ++ [(call, s.1)], s.2)) ([], g)

end SpecGrammar

/-- The tokens that the calls commit: EOS is never fed to the grammar. -/
def committed (eos : Tok) (calls : List Call) : List Tok :=
  calls.filterMap fun
    | .consume tok => if tok = eos then none else some tok
    | _ => none

/-- One call and the draft chain: the tokens accepted since `draft_begin`, while there is a chain. -/
def draftStep (on : Bool) (chain : Option (List Tok)) : Call × Answer → Option (List Tok)
  | (.draftBegin, _) => if on then some [] else none
  | (.consume _, _) => none
  | (.draftAdvance tok, .advanced true) => chain.map (· ++ [tok])
  | _ => chain

/-- The draft chain behind a trace. -/
def drafted (on : Bool) (trace : List (Call × Answer)) : Option (List Tok) :=
  trace.foldl (draftStep on) none

end Memra.Constrained
