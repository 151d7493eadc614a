import Memra.Gguf.Reader

/-!
# The GGUF writer

`GgufWriter` of `micro_gguf.rs`: pairs and tensors are collected, then written in one go. The writer
aligns to `GGUF_DEFAULT_ALIGNMENT`, whatever the pairs say.
-/

namespace Memra

open Lib

/-- A Rust `String`, as its bytes. -/
abbrev Utf8Str := { s : List UInt8 // utf8Error s = none }

/-- `MetaW`. -/
inductive MetaW
  | u32 (x : UInt32)
  | f32 (bits : UInt32)
  | bool (x : Bool)
  | str (s : Utf8Str)
  | arrBool (a : List Bool)
  | arrU32 (a : List UInt32)
  | arrF32 (a : List UInt32)

namespace MetaW

/-- The type of the value. -/
def typeId : MetaW → ℕ
  | .u32 _ => 4
  | .f32 _ => 6
  | .bool _ => 7
  | .str _ => 8
  | .arrBool _ | .arrU32 _ | .arrF32 _ => 9

/-- The bytes of a string. -/
def wstr (s : Utf8Str) : List UInt8 := leBytes 8 s.1.length ++ s.1

/-- The bytes of an array of the element type `elemType`. -/
def arrBytes {α : Type} (elemType : ℕ) (elem : α → List UInt8) (a : List α) : List UInt8 :=
  leBytes 4 elemType ++ (leBytes 8 a.length ++ a.flatMap elem)

/-- The bytes of the value behind its type. -/
def valueBytes : MetaW → List UInt8
  | .u32 x | .f32 x => leBytes 4 x.toNat
  | .bool x => leBytes 1 x.toNat
  | .str s => wstr s
  | .arrBool a => arrBytes 7 (fun x => leBytes 1 x.toNat) a
  | .arrU32 a => arrBytes 4 (fun x => leBytes 4 x.toNat) a
  | .arrF32 a => arrBytes 6 (fun x => leBytes 4 x.toNat) a

/-- The value itself. -/
def toMeta : MetaW → MetaValue
  | .u32 x => .u32 x.toNat
  | .f32 x => .f32 x.toNat
  | .bool x => .bool x
  | .str s => .string s.1
  | .arrBool a => .array (a.map fun x => .bool x)
  | .arrU32 a => .array (a.map fun x => .u32 x.toNat)
  | .arrF32 a => .array (a.map fun x => .f32 x.toNat)

end MetaW

/-- A tensor that passed the assertions of `tensor_raw`. -/
structure WriterTensor (p : Platform) where
  name : Utf8Str
  ne : List ℕ
  ggmlType : GgmlType
  bytes : List UInt8
  ne_lt : ∀ x ∈ ne, x < 2 ^ 64
  size : tensorBytes p ne ggmlType = some bytes.length

/-- `GgufWriter`. -/
structure GgufWriter (p : Platform) where
  pairs : List (Utf8Str × MetaW) := []
  tensors : List (WriterTensor p) := []

namespace GgufWriter

variable {p : Platform}

/-- `kv`. -/
def kv (w : GgufWriter p) (key : Utf8Str) (v : MetaW) : GgufWriter p :=
  { w with pairs := w.pairs ++ [(key, v)] }

/-- `tensor_raw`; the dimensions are `u64`. -/
def tensorRaw (w : GgufWriter p) (name : Utf8Str) (ne : List UInt64) (ty : GgmlType)
    (bytes : List UInt8) : Option (GgufWriter p) :=
  if size : tensorBytes p (ne.map UInt64.toNat) ty = some bytes.length then
    some { w with
      tensors := w.tensors ++ [{
        name
        ne := ne.map UInt64.toNat
        ggmlType := ty
        bytes
        ne_lt := fun x hx => by
          obtain ⟨d, -, rfl⟩ := List.mem_map.1 hx
          exact d.toNat_lt
        size }] }
  else none

/-- `tensor_f32`. -/
def tensorF32 (w : GgufWriter p) (name : Utf8Str) (ne : List UInt64) (data : List UInt32) :
    Option (GgufWriter p) :=
  if productU64 p (ne.map UInt64.toNat) = some data.length then
    w.tensorRaw name ne .F32 (data.flatMap fun v => leBytes 4 v.toNat)
  else none

/-- `x.div_ceil(align) * align` at the writer's alignment. -/
def alignUp (x : ℕ) : ℕ := divCeil x ggufDefaultAlignment * ggufDefaultAlignment

/-- The offsets of the tensors, the first at `offset`. -/
def offsets (offset : ℕ) : List (WriterTensor p) → List ℕ
  | [] => []
  | t :: ts => offset :: offsets (alignUp (offset + t.bytes.length)) ts

/-- The tensors with their offsets. -/
def placed (w : GgufWriter p) : List (ℕ × WriterTensor p) :=
  (offsets 0 w.tensors).zip w.tensors

/-- The bytes of a metadata pair. -/
def pairBytes (kv : Utf8Str × MetaW) : List UInt8 :=
  MetaW.wstr kv.1 ++ (leBytes 4 kv.2.typeId ++ kv.2.valueBytes)

/-- The bytes of a tensor info. -/
def infoBytes (t : ℕ × WriterTensor p) : List UInt8 :=
  MetaW.wstr t.2.name ++ (leBytes 4 t.2.ne.length ++ (t.2.ne.flatMap (leBytes 8) ++
    (leBytes 4 t.2.ggmlType.toU32 ++ leBytes 8 t.1)))

/-- Everything up to the padding. -/
def header (w : GgufWriter p) : List UInt8 :=
  leBytes 4 ggufMagic ++ (leBytes 4 3 ++ (leBytes 8 w.tensors.length ++
    (leBytes 8 w.pairs.length ++ (w.pairs.flatMap pairBytes ++ w.placed.flatMap infoBytes))))

/-- `Vec::resize` with zeros. -/
def resize (buf : List UInt8) (n : ℕ) : List UInt8 :=
  buf.take n ++ List.replicate (n - buf.length) 0

/-- The tensor data behind `buf`, each tensor at its offset from `dataStart`. -/
def writeData (dataStart : ℕ) (buf : List UInt8) (placed : List (ℕ × WriterTensor p)) :
    List UInt8 :=
  placed.foldl (fun buf t => resize buf (dataStart + t.1) ++ t.2.bytes) buf

/-- `write`, whose buffer has to fit in memory. -/
def write (w : GgufWriter p) : Option (List UInt8) :=
  let dataStart := alignUp w.header.length
  let buf := writeData dataStart (resize w.header dataStart) w.placed
  if buf.length ≤ p.maxMap then some buf else none

end GgufWriter

end Memra
