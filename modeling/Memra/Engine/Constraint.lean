import Memra.Engine.Trunk

/-!
# The grammar hook of the speculative path

`SpecGrammar` of `constrained.rs`, the implementor of `spec.rs` `SpecConstraint`: a session's
grammar state, and the speculative clone that draft-side masking walks. The grammar itself is a
deterministic automaton with an allowed set in every state; a state's mask is computed from it, so
the `cur` cache of the source is not kept apart. `Grammar.constrainedGreedy` is the plain
constrained decode loop the speculative path is compared with.
-/

namespace Memra

/-- A deterministic automaton with an allowed set in every state. -/
structure Grammar (γ : Type) where
  allowed : γ → Tok → Bool
  advance : γ → Tok → γ

/-- The grammar hook: the session's state `c`, the speculative state `spec`. -/
structure SpecGrammar (γ : Type) where
  G : Grammar γ
  eos : Tok
  c : γ
  spec : Option γ := none
  on : Bool := true

/-- `apply_mask`: `-inf` on every id that is not kept. -/
def applyMask (keep : ℕ → Bool) (row : Row) : Row :=
  row.mapIdx fun i v => if keep i then v else ⊥

/-! ## Plain constrained decoding -/

namespace Grammar

variable {σ η γ : Type}

/-- What an emitted token does to the grammar; EOS is never fed to it. -/
def consume (G : Grammar γ) (eos : Tok) (c : γ) (tok : Tok) : Option γ :=
  if tok = eos then some c else if G.allowed c tok then some (G.advance c tok) else none

/-- The masked argmax of a row. -/
def pick (G : Grammar γ) (c : γ) (row : Row) : Tok := argmax (applyMask (G.allowed c) row)

/-- Plain constrained decoding, at most `n` tokens: mask, take the argmax, advance; EOS ends it. A
token the grammar refuses is its constraint error. -/
def constrainedGreedy (G : Grammar γ) (eos : Tok) (T : Trunk σ η) :
    ℕ → σ → γ → Except Tok (List Tok)
  | 0, _, _ => .ok []
  | n + 1, s, c =>
    let t := G.pick c (T.row s)
    if t = eos then .ok [t]
    else match G.consume eos c t with
      | none => .error t
      | some c => (constrainedGreedy G eos T n (T.step s t) c).map (t :: ·)

/-- The same decoding when nothing stops it at EOS, as inside a burst. -/
def maskedGreedy (G : Grammar γ) (eos : Tok) (T : Trunk σ η) :
    ℕ → σ → γ → Except Tok (List Tok)
  | 0, _, _ => .ok []
  | n + 1, s, c =>
    let t := G.pick c (T.row s)
    match G.consume eos c t with
    | none => .error t
    | some c => (maskedGreedy G eos T n (T.step s t) c).map (t :: ·)

end Grammar

/-- The tokens up to and including the first EOS. -/
def throughEos (eos : Tok) : List Tok → List Tok
  | [] => []
  | x :: xs => if x = eos then [x] else x :: throughEos eos xs

/-! ## The hook -/

namespace SpecGrammar

variable {γ : Type}

/-- `mask_logits`. -/
def maskLogits (g : SpecGrammar γ) (row : Row) : Row := applyMask (g.G.allowed g.c) row

/-- `is_allowed`. -/
def isAllowed (g : SpecGrammar γ) (tok : Tok) : Bool := g.G.allowed g.c tok

/-- `consume`: EOS is never fed to the grammar; a token it does not allow is refused. -/
def consume (g : SpecGrammar γ) (tok : Tok) : Option (SpecGrammar γ) :=
  if tok = g.eos then some { g with spec := none }
  else if g.G.allowed g.c tok then some { g with c := g.G.advance g.c tok, spec := none }
  else none

/-- `draft_begin`: clone the committed state. -/
def draftBegin (g : SpecGrammar γ) : SpecGrammar γ :=
  { g with spec := if g.on then some g.c else none }

/-- `draft_mask_words`: the allowed set of the speculative state. -/
def draftMaskWords (g : SpecGrammar γ) : Option (Tok → Bool) :=
  if g.on then g.spec.map g.G.allowed else none

/-- `draft_advance`: move the speculative state; `false` when the chain cannot go on. -/
def draftAdvance (g : SpecGrammar γ) (tok : Tok) : Bool × SpecGrammar γ :=
  match g.on, g.spec with
  | true, some s =>
    if tok = g.eos then (false, g)
    else if g.G.allowed s tok then (true, { g with spec := some (g.G.advance s tok) })
    else (false, g)
  | _, _ => (false, g)

end SpecGrammar

/-- `upload_draft_mask`: the allowed set over the draft head's rows, in whole 32-bit words; `none`
when there is no mask or it bans every row. -/
def uploadDraftMask {γ : Type} (g : SpecGrammar γ) (d2t : Option (List Tok)) (dVocab : ℕ) :
    Option (List Bool) :=
  match g.draftMaskWords with
  | none => none
  | some bit =>
    let buf := (List.range (32 * ((dVocab + 31) / 32))).map fun i =>
      match d2t with
      | some map => i < dVocab && (map[i]?).any bit
      | none => bit i
    if buf.any id then some buf else none

end Memra
