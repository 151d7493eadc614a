import Memra.Gguf.JsonObj
import Memra.Gguf.Safetensors

/-!
# The texts of headers and indexes

Which texts describe the tensors of a shard and the shards of a model: JSON with white space and the
members of an object in any order. The spellings of a character are a parameter; `PlainUnit` leaves out
the escapes that the reader of `safetensors.rs` does not have.
-/

namespace Memra

namespace Safetensors

open Lib
open Json (Ws commas UnitText ValueText shortEscapes)

variable {α β : Type}

/-! ## JSON -/

/-- White space around a text. -/
def Padded (R : List Char → α → Prop) (t : List Char) (a : α) : Prop :=
  ∃ w t' w', Ws w ∧ Ws w' ∧ t = w ++ (t' ++ w') ∧ R t' a

/-- Texts between brackets, with commas between them and white space around them. -/
def Bracketed (o c : Char) (R : List Char → α → Prop) (t : List Char) (as : List α) : Prop :=
  ∃ inner, t = o :: (inner ++ [c]) ∧ ((as = [] ∧ Ws inner) ∨
    as ≠ [] ∧ ∃ ts, inner = commas ts ∧ List.Forall₂ (Padded R) ts as)

/-- A key, a colon and a value. -/
def Pair (K : List Char → α → Prop) (V : List Char → β → Prop) (t : List Char) (p : α × β) : Prop :=
  ∃ kt w w' vt, t = kt ++ (w ++ ':' :: (w' ++ vt)) ∧ Ws w ∧ Ws w' ∧ K kt p.1 ∧ V vt p.2

/-- A value of any kind. -/
def AnyValue (t : List Char) (_ : Unit) : Prop := ∃ v, ValueText JsonObj.grammar t v

/-- An integer of 64 bits. -/
def NatText (t : List Char) (n : ℕ) : Prop := t = Nat.toDigits 10 n ∧ n < 2 ^ 64

/-- The escapes of RFC 8259 but for `\b`, `\f` and `\u`. -/
inductive PlainUnit : List Char → Char → Prop
  | raw {c : Char} (h : 0x20 ≤ c.toNat) (hq : c ≠ '"') (hb : c ≠ '\\') : PlainUnit [c] c
  | short {e c : Char} (h : (e, c) ∈ shortEscapes) (hb : e ≠ 'b') (hf : e ≠ 'f') :
    PlainUnit ['\\', e] c

/-- The spellings of RFC 8259. -/
abbrev RfcUnit : List Char → Char → Prop := UnitText (Json.rfc8259 fun _ => some ())

section
variable (U : List Char → Char → Prop)

/-- A string of ASCII characters. -/
def AsciiString (t s : List Char) : Prop :=
  (∀ c ∈ s, c.toNat < 0x80) ∧ ∃ u, t = '"' :: (u ++ ['"']) ∧ Spelled U u s

/-! ## Headers -/

/-- A field of a tensor. -/
inductive TensorField
  | dtype (s : List Char)
  | shape (ns : List ℕ)
  | dataOffsets (b e : ℕ)

def TensorField.key : TensorField → List Char
  | .dtype _ => "dtype".toList
  | .shape _ => "shape".toList
  | .dataOffsets _ _ => "data_offsets".toList

/-- The texts of its value. -/
def FieldValue (t : List Char) : TensorField → Prop
  | .dtype s => AsciiString U t s
  | .shape ns => Bracketed '[' ']' NatText t ns
  | .dataOffsets b e => Bracketed '[' ']' NatText t [b, e]

def FieldText (t : List Char) (f : TensorField) : Prop :=
  Pair (AsciiString U) (FieldValue U) t (f.key, f)

/-- The fields of a tensor, in any order. -/
def TensorText (t : List Char) (info : StInfo) : Prop :=
  ∃ fs, Bracketed '{' '}' (FieldText U) t fs ∧
    fs.Perm [.dtype info.dtype, .shape info.shape,
      .dataOffsets info.dataOffsets.1 info.dataOffsets.2]

/-- A member of a header. -/
inductive Entry
  | metadata
  | tensor (name : List Char) (info : StInfo)

def Entry.tensor? : Entry → Option (List Char × StInfo)
  | .metadata => none
  | .tensor name info => some (name, info)

def EntryText (t : List Char) : Entry → Prop
  | .metadata => Pair (AsciiString U) AnyValue t ("__metadata__".toList, ())
  | .tensor name info =>
    name ≠ "__metadata__".toList ∧ Pair (AsciiString U) (TensorText U) t (name, info)

/-- The texts of a header with these tensors. -/
def HeaderText (text : List Char) (tensors : List (List Char × StInfo)) : Prop :=
  ∃ es, Padded (Bracketed '{' '}' (EntryText U)) text es ∧ tensors = es.filterMap Entry.tensor?

/-! ## Indexes -/

/-- A member of an index. -/
inductive IndexMember
  | weightMap (entries : List (List Char × List Char))
  | other (key : List Char)

def IndexMember.weightMap? : IndexMember → Option (List (List Char × List Char))
  | .weightMap entries => some entries
  | .other _ => none

def IndexMemberText (t : List Char) : IndexMember → Prop
  | .weightMap entries => Pair (AsciiString U)
      (Bracketed '{' '}' (Pair (AsciiString U) (AsciiString U))) t ("weight_map".toList, entries)
  | .other key => key ≠ "weight_map".toList ∧ Pair (AsciiString U) AnyValue t (key, ())

/-- The texts of an index with these shards. -/
def IndexText (text : List Char) (entries : List (List Char × List Char)) : Prop :=
  ∃ ms, Padded (Bracketed '{' '}' (IndexMemberText U)) text ms ∧
    ms.filterMap IndexMember.weightMap? = [entries]

end

/-! ## Shards -/

/-- A shard: its header, what it describes, and the bytes behind it. -/
structure Shard where
  header : List Char
  tensors : List (List Char × StInfo)
  data : List UInt8

/-- Where its tensors begin: behind the length of the header and the header. -/
def Shard.base (s : Shard) : ℕ := 8 + (utf8 s.header).length

def Shard.bytes (s : Shard) : List UInt8 :=
  leBytes 8 (utf8 s.header).length ++ (utf8 s.header ++ s.data)

/-- The header describes the tensors, each once, and is no longer than headers may be. -/
structure Shard.WellFormed (U : List Char → Char → Prop) (s : Shard) : Prop where
  header : HeaderText U s.header s.tensors
  names : (s.tensors.map Prod.fst).Nodup
  length : (utf8 s.header).length ≤ maxHeader

/-- The bytes of a tensor, for offsets whose sums with the base are numbers of 64 bits: they are those of
its extent when that lies in the file, and the reader refuses it otherwise. -/
def TensorBytes (s : Shard) (info : StInfo) (r : Res (Option (StInfo × List UInt8))) : Prop :=
  s.base + info.dataOffsets.1 < 2 ^ 64 → s.base + info.dataOffsets.2 < 2 ^ 64 →
    (info.dataOffsets.1 ≤ info.dataOffsets.2 → s.base + info.dataOffsets.2 ≤ s.bytes.length →
      r = .ok (some (info, (s.bytes.take (s.base + info.dataOffsets.2)).drop
        (s.base + info.dataOffsets.1)))) ∧
    (info.dataOffsets.2 < info.dataOffsets.1 ∨ s.bytes.length < s.base + info.dataOffsets.2 →
      r = .error .panic)

/-- Every name is looked for in its shard only. -/
def Routes (m : StModel) (entries : List (List Char × List Char)) (shard : List Char → Shard) : Prop :=
  ∀ name, (entries.lookup name = none → m.raw name = .ok none) ∧
    ∀ f, entries.lookup name = some f →
      ((shard f).tensors.lookup name = none → m.raw name = .ok none) ∧
        ∀ info, (shard f).tensors.lookup name = some info → TensorBytes (shard f) info (m.raw name)

end Safetensors

end Memra
