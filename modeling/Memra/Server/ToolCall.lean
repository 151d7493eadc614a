import Memra.Lib.Occurs
import Memra.Lib.Str
import Mathlib

/-!
# The streaming tool-call parser

`toolcall.rs`: `ToolStreamParser` splits a model's text stream into content, reasoning and tool
calls. `step` is one turn of the loop in `push`, `drain` the loop, `finish` the end of the stream.
Offsets count characters: every tag is ASCII, so that the source's byte offsets lie on character
boundaries.

JSON is a parameter (`JsonLib`). An argument map keeps its keys in insertion order.
-/

namespace Memra

open Lib

/-- What is used of the JSON library: a string value, the parser, the text of an object. -/
structure JsonLib where
  Value : Type
  string : List Char → Value
  fromStr : List Char → Option Value
  objectText : List (List Char × Value) → Option (List Char)

/-- `ParsedToolCall`. -/
structure ParsedToolCall where
  id : List Char
  name : List Char
  arguments : List Char
  deriving DecidableEq

/-- `Piece`. -/
inductive Piece
  | content (text : List Char)
  | reasoning (text : List Char)
  | call (c : ParsedToolCall)
  deriving DecidableEq

/-- The states of the parser. -/
inductive ToolState
  | prethink
  | postThink
  | scan
  | inCall
  | gemmaLabel
  | gemmaThought
  deriving DecidableEq

/-- `OPEN`. -/
def openTag : List Char := "<tool_call>".toList

/-- `CLOSE`. -/
def closeTag : List Char := "</tool_call>".toList

/-- `THINK_END`. -/
def thinkEnd : List Char := "</think>".toList

/-- `GEMMA_OPEN`. -/
def gemmaOpen : List Char := "<|channel>".toList

/-- `GEMMA_CLOSE`. -/
def gemmaClose : List Char := "<channel|>".toList

/-- `partial_suffix_len`: the longest proper prefix of `tag` that `s` ends with. -/
def partialSuffixLen (s tag : List Char) : ℕ := borderLen s tag

/-! ## Identifiers of calls -/

/-- The UTF-8 bytes of a text. -/
def utf8Bytes (s : List Char) : List UInt8 := s.flatMap String.utf8EncodeChar

/-- `fnv1a64`. -/
def fnv1a64 (bytes : List UInt8) : ℕ :=
  bytes.foldl (fun h b => ((h ^^^ b.toNat) * 0x100000001b3) % 2 ^ 64) 0xcbf29ce484222325

/-- `to_le_bytes` of a `u64`. -/
def leBytes8 (n : ℕ) : List UInt8 := (List.range 8).map fun i => UInt8.ofNat (n / 256 ^ i % 256)

/-- `call_{:016x}`: the hash of the call's index, name and arguments. -/
def callId (nCalls : ℕ) (name arguments : List Char) : List Char :=
  "call_".toList ++ (Nat.toDigits 16
    (fnv1a64 (leBytes8 nCalls ++ utf8Bytes name ++ utf8Bytes arguments))).leftpad 16 '0'

/-! ## One block -/

variable {J : JsonLib}

/-- Declared type of each parameter of each function. -/
abbrev Schemas := List Char → List Char → Option (List Char)

/-- `coerce`: a parameter declared other than string is parsed as JSON when it parses. -/
def coerce (J : JsonLib) (schemas : Schemas) (func param raw : List Char) : J.Value :=
  match schemas func param with
  | none => J.string raw
  | some ty =>
    if ty = "string".toList then J.string raw
    else (J.fromStr (trim raw)).getD (J.string raw)

/-- `Map::insert`: a key keeps its place. -/
def insertArg (args : List (List Char × J.Value)) (key : List Char) (v : J.Value) :
    List (List Char × J.Value) :=
  match args with
  | [] => [(key, v)]
  | (k, w) :: args => if k = key then (k, v) :: args else (k, w) :: insertArg args key v

/-- A name that may stand in a tag. -/
def badName (name : List Char) : Bool :=
  name.isEmpty || name.any fun c => c == '<' || c == '>' || c == '\n'

/-- The parameters of a block body. -/
def parseParams (J : JsonLib) (schemas : Schemas) (name : List Char) (body : List Char)
    (args : List (List Char × J.Value)) : Option (List (List Char × J.Value)) :=
  let t := trimStart body
  if t = [] then some args
  else
    match hr : t.dropPrefix? "<parameter=".toList with
    | none => none
    | some r =>
      match findSub r ['>'] with
      | none => none
      | some gt =>
        let key := r.take gt
        if badName key then none
        else
          let after := stripNlPrefix (r.drop (gt + 1))
          match findSub after "</parameter>".toList with
          | none => none
          | some e =>
            let raw := stripNlSuffix (after.take e)
            parseParams J schemas name (after.drop (e + "</parameter>".toList.length))
              (insertArg args key (coerce J schemas name key raw))
termination_by body.length
decreasing_by
  have h1 := trimStart_length_le body
  have h2 : (trimStart body).length = "<parameter=".toList.length + r.length :=
    (congrArg List.length (dropPrefix?_some hr)).trans List.length_append
  have h3 := stripNlPrefix_length_le (r.drop (gt + 1))
  simp only [List.length_drop] at h3 ⊢
  have : 0 < "<parameter=".toList.length := by decide
  omega

/-- `parse_block`: the text between the tags, and the number of calls parsed before. -/
def parseBlock (J : JsonLib) (schemas : Schemas) (nCalls : ℕ) (inner : List Char) :
    Option ParsedToolCall :=
  match (trim inner).dropPrefix? "<function=".toList with
  | none => none
  | some rest =>
    match findSub rest ['>'] with
    | none => none
    | some gt =>
      let name := rest.take gt
      if badName name then none
      else
        match (rest.drop (gt + 1)).dropSuffix? "</function>".toList with
        | none => none
        | some body =>
          match parseParams J schemas name body [] with
          | none => none
          | some args =>
            (J.objectText args).map fun arguments =>
              { id := callId nCalls name arguments, name, arguments }

/-! ## The stream -/

/-- `ToolStreamParser`. -/
structure ToolStreamParser (J : JsonLib) where
  state : ToolState
  buf : List Char := []
  schemas : Schemas
  nCalls : ℕ := 0
  scanTools : Bool := true
  gemma : Bool := false
  includeReasoning : Bool := true
  postthinkNl : ℕ := 0

/-- `emit_content`: adjacent content is joined. -/
def emitContent (out : List Piece) (text : List Char) : List Piece :=
  if text = [] then out
  else
    match out.getLast? with
    | some (.content prev) => out.dropLast ++ [.content (prev ++ text)]
    | _ => out ++ [.content text]

/-- The separator newlines after `</think>`: at most `nl` of them. -/
def swallowNl : ℕ → List Char → ℕ × List Char
  | nl + 1, '\n' :: buf => swallowNl nl buf
  | nl, buf => (nl, buf)

namespace ToolStreamParser

/-- `new`. -/
def new (schemas : Schemas) (skipThink : Bool) : ToolStreamParser J :=
  { state := if skipThink then .prethink else .scan, schemas }

/-- `reasoning_only`. -/
def reasoningOnly (includeReasoning : Bool) : ToolStreamParser J :=
  { (new (fun _ _ => none) true : ToolStreamParser J) with scanTools := false, includeReasoning }

/-- `gemma_thought`. -/
def gemmaThought (includeReasoning : Bool) : ToolStreamParser J :=
  { (new (fun _ _ => none) false : ToolStreamParser J) with scanTools := false, gemma := true, includeReasoning }

/-- `with_include_reasoning`. -/
def withIncludeReasoning (p : ToolStreamParser J) (inc : Bool) : ToolStreamParser J :=
  { p with includeReasoning := inc }

/-- `emit_reasoning`: joined, or dropped when reasoning is not included. -/
def emitReasoning (p : ToolStreamParser J) (out : List Piece) (text : List Char) : List Piece :=
  if ¬ p.includeReasoning ∨ text = [] then out
  else
    match out.getLast? with
    | some (.reasoning prev) => out.dropLast ++ [.reasoning (prev ++ text)]
    | _ => out ++ [.reasoning text]

/-- Emit the first `n` characters of the buffer as content and keep the rest. -/
def flush (p : ToolStreamParser J) (out : List Piece) (n : ℕ) : ToolStreamParser J × List Piece :=
  ({ p with buf := p.buf.drop n }, emitContent out (p.buf.take n))

/-- How much of the buffer a thought holds back: a partial close tag and the newline before it. -/
def thoughtKeep (buf : List Char) : ℕ :=
  let keep := partialSuffixLen buf gemmaClose
  if (buf.take (buf.length - keep)).getLast? = some '\n' then keep + 1 else keep

/-- One turn of the loop of `push`: whether it goes on, the parser and the output after it. -/
def step (p : ToolStreamParser J) (out : List Piece) : Bool × ToolStreamParser J × List Piece :=
  match p.state with
  | .prethink =>
    match findSub p.buf thinkEnd with
    | some i =>
      (true, { p with buf := p.buf.drop (i + thinkEnd.length), state := .postThink, postthinkNl := 2 },
        p.emitReasoning out (p.buf.take i))
    | none =>
      let emitTo := p.buf.length - partialSuffixLen p.buf thinkEnd
      (false, { p with buf := p.buf.drop emitTo }, p.emitReasoning out (p.buf.take emitTo))
  | .postThink =>
    let (nl, buf) := swallowNl p.postthinkNl p.buf
    if 0 < nl ∧ buf = [] then (false, { p with buf, postthinkNl := nl }, out)
    else (true, { p with buf, postthinkNl := nl, state := .scan }, out)
  | .scan =>
    if p.gemma then
      match findSub p.buf gemmaOpen with
      | some i =>
        (true, { p with buf := p.buf.drop (i + gemmaOpen.length), state := .gemmaLabel },
          emitContent out (p.buf.take i))
      | none => (false, p.flush out (p.buf.length - partialSuffixLen p.buf gemmaOpen))
    else if ¬ p.scanTools then (false, p.flush out p.buf.length)
    else
      match findSub p.buf openTag with
      | some i =>
        (true, { p with buf := p.buf.drop (i + openTag.length), state := .inCall },
          emitContent out (p.buf.take i))
      | none => (false, p.flush out (p.buf.length - partialSuffixLen p.buf openTag))
  | .inCall =>
    match findSub p.buf closeTag with
    | none => (false, p, out)
    | some i =>
      let inner := p.buf.take i
      let q := { p with buf := p.buf.drop (i + closeTag.length), state := .scan }
      match parseBlock J p.schemas p.nCalls inner with
      | some c => (true, { q with nCalls := p.nCalls + 1 }, out ++ [.call c])
      -- a malformed block is content, tags included
      | none => (true, q, emitContent out (openTag ++ inner ++ closeTag))
  | .gemmaLabel =>
    match findSub p.buf ['\n'] with
    | none => (false, p, out)
    | some i => (true, { p with buf := p.buf.drop (i + 1), state := .gemmaThought }, out)
  | .gemmaThought =>
    match findSub p.buf gemmaClose with
    | some i =>
      (true, { p with buf := p.buf.drop (i + gemmaClose.length), state := .scan },
        p.emitReasoning out (stripNlSuffix (p.buf.take i)))
    | none =>
      let emitTo := p.buf.length - thoughtKeep p.buf
      (false, { p with buf := p.buf.drop emitTo }, p.emitReasoning out (p.buf.take emitTo))

/-- What a turn of the loop uses up. -/
def weight (p : ToolStreamParser J) : ℕ :=
  2 * p.buf.length + if p.state = .postThink then 1 else 0

theorem swallowNl_length_le : ∀ (nl : ℕ) (buf : List Char),
    (swallowNl nl buf).2.length ≤ buf.length
  | 0, _ => Nat.le_refl _
  | _ + 1, [] => Nat.le_refl _
  | nl + 1, c :: buf => by
    unfold swallowNl
    split
    · rename_i h
      obtain ⟨h1, h2⟩ := List.cons.inj h
      obtain rfl := Nat.succ.inj ‹_›
      subst h2
      exact Nat.le_succ_of_le (swallowNl_length_le _ _)
    · exact Nat.le_refl _

/-- A turn after which the loop goes on has used something up. -/
theorem step_weight {p q : ToolStreamParser J} {out out' : List Piece}
    (h : p.step out = (true, q, out')) : q.weight < p.weight := by
  have hfound : ∀ (tag : List Char) (i : ℕ) (st : ToolState), findSub p.buf tag = some i →
      0 < tag.length →
      2 * (p.buf.drop (i + tag.length)).length + (if st = .postThink then 1 else 0) < p.weight := by
    intro tag i st hf hpos
    have hle := findSub_le hf
    have hst : (if st = ToolState.postThink then 1 else 0) ≤ 1 := by split <;> decide
    unfold weight
    rw [List.length_drop]
    omega
  unfold step at h
  split at h
  · -- prethink
    split at h
    · rename_i hf
      cases h
      exact hfound _ _ .postThink hf (by decide)
    · cases h
  · -- postThink
    rename_i hst
    simp only at h
    split at h
    · cases h
    · cases h
      have hle := swallowNl_length_le p.postthinkNl p.buf
      simp only [weight, hst, if_true, reduceCtorEq, if_false]
      omega
  · -- scan
    split at h
    · split at h
      · rename_i hf
        cases h
        exact hfound _ _ .gemmaLabel hf (by decide)
      · cases h
    · split at h
      · cases h
      · split at h
        · rename_i hf
          cases h
          exact hfound _ _ .inCall hf (by decide)
        · cases h
  · -- inCall
    split at h
    · cases h
    · rename_i hf
      simp only at h
      split at h <;> cases h <;> exact hfound _ _ .scan hf (by decide)
  · -- gemmaLabel
    split at h
    · cases h
    · rename_i hf
      cases h
      exact hfound _ _ .gemmaThought hf (by decide)
  · -- gemmaThought
    split at h
    · rename_i hf
      cases h
      exact hfound _ _ .scan hf (by decide)
    · cases h

/-- The loop of `push`. -/
def drain (p : ToolStreamParser J) (out : List Piece) : ToolStreamParser J × List Piece :=
  match h : p.step out with
  | (true, q, out') =>
    have := step_weight h
    q.drain out'
  | (false, q, out') => (q, out')
termination_by p.weight

/-- `push`. -/
def push (p : ToolStreamParser J) (text : List Char) : ToolStreamParser J × List Piece :=
  { p with buf := p.buf ++ text }.drain []

/-- `finish`: held-back text is flushed where it belongs. -/
def finish (p : ToolStreamParser J) : ToolStreamParser J × List Piece :=
  let q := { p with buf := [], state := .scan }
  if p.buf = [] then (q, [])
  else
    match p.state with
    | .prethink => (q, p.emitReasoning [] p.buf)
    | .inCall => (q, emitContent [] (openTag ++ p.buf))
    | .gemmaThought => (q, p.emitReasoning [] (stripNlSuffix p.buf))
    | .gemmaLabel => (q, [])
    | _ => (q, emitContent [] p.buf)

/-- The pushes of a stream and its end, with all their pieces. -/
def pushAll (p : ToolStreamParser J) : List (List Char) → ToolStreamParser J × List Piece
  | [] => (p, [])
  | text :: rest =>
    let (q, out) := p.push text
    let (r, outs) := q.pushAll rest
    (r, out ++ outs)

/-- All pieces of a finished stream. -/
def streamPieces (p : ToolStreamParser J) (chunks : List (List Char)) : List Piece :=
  let (q, out) := p.pushAll chunks
  out ++ q.finish.2

end ToolStreamParser

end Memra
