import Memra.Gguf.Reader
import Memra.Lib.FiniteMap
import Memra.Lib.Quoted
import Memra.Lib.Str
import Memra.Tokenizer.JsonText

/-!
# The JSON reader of the configs and manifests

`JsonObj` of `config.rs`: one object, read key by key, its values kept as raw text. The reader walks over
the bytes of the text by index; an index or a slice out of range is `Fault.panic`, and the loop over the
members is bounded by `fuel`. A `String` is the list of its characters.

The second half says which texts are objects of RFC 8259 and what a reader of raw values should find in
them, and which texts are cut behind a backslash.
-/

namespace Memra

open Lib Lib.Cursor

/-- `JsonObj`. The keys of a `BTreeMap` are distinct; its order is not kept. -/
structure JsonObj where
  fields : AList fun _ : List Char => List Char

namespace JsonObj

open Json (byte asChar isWs fromUtf8)

/-- There is no error but a panic. -/
abbrev Res := Except (Fault Empty)

/-- `String::from_utf8_lossy(bs).into_owned()`. -/
def lossy (bs : List UInt8) : List Char := (fromUtf8 (fromUtf8Lossy bs)).getD []

section
variable (b : List UInt8)

def skipWs (i : ℕ) : Res ℕ := skip isWs b i

/-- What a letter behind a backslash stands for. -/
def unescape (e : UInt8) : Char :=
  if e = byte 'n' then '\n'
  else if e = byte 't' then '\t'
  else if e = byte 'r' then '\r'
  else asChar e

/-- The loop of `read_string`. -/
def readStringLoop (s : List Char) (i : ℕ) : Res (List Char × ℕ) :=
  if i < b.length then do
    let c ← index b i
    if c = byte '"' then pure (s, i + 1)
    else if c = byte '\\' then
      if i + 1 < b.length then
        let e ← index b (i + 1)
        readStringLoop (s ++ [unescape e]) (i + 2)
      else readStringLoop s (i + 1)
    else readStringLoop (s ++ [asChar c]) (i + 1)
  else pure (s, i)
termination_by b.length - i

def readString (i : ℕ) : Res (List Char × ℕ) := readStringLoop b [] (i + 1)

/-- The loop over a string value. -/
def stringEnd (i : ℕ) : Res ℕ :=
  if i < b.length then do
    let c ← index b i
    if c = byte '\\' then stringEnd (i + 2)
    else if c = byte '"' then pure (i + 1)
    else stringEnd (i + 1)
  else pure i
termination_by b.length - i

/-- The loop over a block. `depth` is an `i32` in the source, which counts brackets of the text. -/
def blockEnd (opening closing : UInt8) (depth : ℤ) (inStr : Bool) (i : ℕ) : Res ℕ :=
  if i < b.length then do
    let c ← index b i
    if inStr then
      if c = byte '\\' then blockEnd opening closing depth true (i + 2)
      else if c = byte '"' then blockEnd opening closing depth false (i + 1)
      else blockEnd opening closing depth true (i + 1)
    else if c = byte '"' then blockEnd opening closing depth true (i + 1)
    else if c = opening then blockEnd opening closing (depth + 1) false (i + 1)
    else if c = closing then
      if depth - 1 = 0 then pure (i + 1)
      else blockEnd opening closing (depth - 1) false (i + 1)
    else blockEnd opening closing depth false (i + 1)
  else pure i
termination_by b.length - i

/-- A byte that does not end a scalar. -/
def isScalar (c : UInt8) : Bool := c != byte ',' && c != byte '}' && c != byte ']'

def readValueRaw (i : ℕ) : Res (List Char × ℕ) := do
  let start ← skipWs b i
  if b[start]? = some (byte '"') then
    let i ← stringEnd b (start + 1)
    let s ← slice b start i
    pure (lossy s, i)
  else if b[start]? = some (byte '{') ∨ b[start]? = some (byte '[') then
    let opening ← index b start
    let closing := if opening = byte '{' then byte '}' else byte ']'
    let i ← blockEnd b opening closing 0 false start
    let s ← slice b start i
    pure (lossy s, i)
  else
    let i ← skip isScalar b start
    let s ← slice b start i
    pure (trim (lossy s), i)

/-- The loop of `parse`, for at most `fuel` members. -/
def parseLoop : ℕ → JsonObj → ℕ → Res JsonObj
  | 0, _, _ => .error .fuel
  | fuel + 1, obj, i => do
    let i ← skipWs b i
    if b.length ≤ i then pure obj
    else
      let c ← index b i
      if c = byte '}' then pure obj
      else if c ≠ byte '"' then pure obj
      else
        let (key, i) ← readString b i
        let i ← skipWs b i
        if b.length ≤ i then pure obj
        else
          let c ← index b i
          if c ≠ byte ':' then pure obj
          else
            let i ← skipWs b (i + 1)
            let (val, i) ← readValueRaw b i
            let obj := ⟨obj.fields.insert key val⟩
            let i ← skipWs b i
            if i < b.length then
              let c ← index b i
              if c = byte ',' then parseLoop fuel obj (i + 1) else pure obj
            else pure obj

/-- `parse`, over the bytes of the text. -/
def parseBytes : Res JsonObj := do
  let i ← skip (fun c => c != byte '{') b 0
  if b.length ≤ i then pure ⟨∅⟩ else parseLoop b (b.length + 1) ⟨∅⟩ (i + 1)

end

def parse (json : List Char) : Res JsonObj := parseBytes (utf8 json)

def raw (obj : JsonObj) (key : List Char) : Option (List Char) := obj.fields.lookup key

def object (obj : JsonObj) (key : List Char) : Res (Option JsonObj) :=
  match obj.raw key with
  | none => pure none
  | some v => if (trim v).head? = some '{' then some <$> parse (trim v) else pure none

/-- `fields`, in the order of the keys. -/
def sortedFields (obj : JsonObj) : List (List Char × List Char) := inOrder obj.fields

/-- `string`. The quotes are taken off, and escapes stay. -/
def string (obj : JsonObj) (key : List Char) : Option (List Char) := do
  let v := trim (← obj.raw key)
  if v.head? = some '"' ∧ v.getLast? = some '"' ∧ 2 ≤ v.length then
    some ((v.take (v.length - 1)).drop 1)
  else none

/-- `u64`, with `parseF64` for `parse::<f64>` and the cast. -/
def u64 (parseF64 : List Char → Option UInt64) (obj : JsonObj) (key : List Char) : Option UInt64 := do
  let v := trim (← obj.raw key)
  if v = "null".toList then none
  else ((parseUint 64 v).map UInt64.ofNat).or (parseF64 v)

/-- `u64_array`. What is no number is left out. -/
def u64Array (obj : JsonObj) (key : List Char) : Option (List UInt64) := do
  let v := trim (← obj.raw key)
  if v.head? = some '[' ∧ v.getLast? = some ']' then
    some ((((v.take (v.length - 1)).drop 1).splitOn ',').filterMap fun x =>
      (parseUint 64 (trim x)).map UInt64.ofNat)
  else none

/-! ## The texts of an object -/

open Json (Dialect Member Ws StringText ValueText NumberText commas hexDigit)

/-- The grammar of RFC 8259 and nothing else: what an escape or a number stands for is left open. -/
def grammar : Dialect Unit where
  raw c := 0x20 ≤ c.toNat ∧ c ≠ '"' ∧ c ≠ '\\'
  quad h _ := h.length = 4 ∧ ∀ c ∈ h, (hexDigit c).isSome
  number t _ := NumberText t

def IsMember (m : Member Unit) : Prop :=
  (Ws m.before ∧ Ws m.beforeColon ∧ Ws m.afterColon ∧ Ws m.after) ∧
    StringText grammar m.keyText m.key ∧ ValueText grammar m.text m.value

/-- The texts of an object with these members. -/
def ObjectText (text : List Char) (ms : List (Member Unit)) : Prop :=
  ∃ w inner w', Ws w ∧ Ws w' ∧ text = w ++ '{' :: (inner ++ '}' :: w') ∧
    ((ms = [] ∧ Ws inner) ∨
      ms ≠ [] ∧ inner = commas (ms.map Member.spell) ∧ ∀ m ∈ ms, IsMember m)

/-- All keys are written in ASCII and without escapes. -/
def PlainKeys (ms : List (Member Unit)) : Prop :=
  ∀ m ∈ ms, ∀ c ∈ m.keyText, c.toNat < 0x80 ∧ c ≠ '\\'

/-- The source text of the last value with a key. -/
def lastText (ms : List (Member Unit)) (k : List Char) : Option (List Char) :=
  (ms.reverse.find? fun m => m.key = k).map Member.text

/-- What a reader of raw values makes of the members of an object: one field for each key, with the
source text of its last value; and the same again for every object among the values. -/
inductive Mirrors : JsonObj → List (Member Unit) → Prop
  | mk {obj : JsonObj} {ms : List (Member Unit)} (hraw : ∀ k, obj.raw k = lastText ms k)
    (hparse : ∀ k t ms', lastText ms k = some t → ObjectText t ms' → PlainKeys ms' →
      ∃ obj', obj.object k = .ok (some obj'))
    (hobject : ∀ k t ms' obj', lastText ms k = some t → ObjectText t ms' → PlainKeys ms' →
      obj.object k = .ok (some obj') → Mirrors obj' ms') : Mirrors obj ms

/-! ## The texts that are cut behind a backslash -/

/-- What stands in a string. -/
abbrev InString (u : List UInt8) : Prop := Inside (byte '"') (byte '\\') u

/-- A key, its colon, and white space around. -/
def KeyPart (t : List UInt8) : Prop :=
  ∃ w u w' w'', t = w ++ byte '"' :: (u ++ byte '"' :: (w' ++ byte ':' :: w'')) ∧ InString u ∧
    (∀ c ∈ w, isWs c) ∧ (∀ c ∈ w', isWs c) ∧ ∀ c ∈ w'', isWs c

def Brackets (o c : UInt8) : Prop :=
  (o = byte '{' ∧ c = byte '}') ∨ (o = byte '[' ∧ c = byte ']')

/-- A value as the reader takes it, up to the comma behind it: a string or a block, of whose brackets only
one kind is looked at, and white space; or all that stands before the next comma or closing bracket. -/
inductive RawValue : List UInt8 → Prop
  | string {u w : List UInt8} (hu : InString u) (hw : ∀ c ∈ w, isWs c) :
    RawValue (byte '"' :: (u ++ byte '"' :: w))
  | block {o c : UInt8} {t w : List UInt8} (hb : Brackets o c)
    (ht : Within (byte '"') (byte '\\') o c 1 t 1) (hw : ∀ c ∈ w, isWs c) :
    RawValue (o :: (t ++ c :: w))
  | scalar {t : List UInt8} (ht : ∀ c ∈ t, isScalar c)
    (hhead : ∀ c ∈ t.head?, isWs c = false ∧ c ≠ byte '"' ∧ c ≠ byte '{' ∧ c ≠ byte '[') : RawValue t

/-- A value that the text cuts right behind a backslash in a string. -/
inductive CutValue : List UInt8 → Prop
  | string {u : List UInt8} (hu : InString u) : CutValue (byte '"' :: (u ++ [byte '\\']))
  | block {o c : UInt8} {t u : List UInt8} {d : ℕ} (hb : Brackets o c)
    (ht : Within (byte '"') (byte '\\') o c 1 t d) (hu : InString u) :
    CutValue (o :: (t ++ byte '"' :: (u ++ [byte '\\'])))

/-- The members of an object up to a value that is cut. -/
inductive CutMembers : List UInt8 → Prop
  | here {k v : List UInt8} (hk : KeyPart k) (hv : CutValue v) : CutMembers (k ++ v)
  | next {k v rest : List UInt8} (hk : KeyPart k) (hv : RawValue v) (h : CutMembers rest) :
    CutMembers (k ++ (v ++ byte ',' :: rest))

/-- The text ends right behind a backslash in a string that is a value, or in one, of the first object. -/
def CutBehindBackslash (b : List UInt8) : Prop :=
  ∃ junk rest, b = junk ++ byte '{' :: rest ∧ (∀ c ∈ junk, c ≠ byte '{') ∧ CutMembers rest

end JsonObj

end Memra
