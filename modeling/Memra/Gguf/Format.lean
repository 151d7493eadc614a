import Memra.Gguf.Reader

/-!
# The GGUF format

The layout of the module documentation of `lib.rs`, as a relation between bytes and what they spell: no
cursor and no way to fail. `Layout` is a whole file, `Rejected` one that is refused for its magic or its
version.
-/

namespace Memra

open Lib

/-- A `gguf_string`. -/
def stringBytes (s : List UInt8) : List UInt8 := leBytes 8 s.length ++ s

/-- Values of one type, arrays nested less than `depth` deep. -/
inductive Values (p : Platform) : ℕ → ℕ → List UInt8 → List MetaValue → Prop
  | nil (depth typeId : ℕ) : Values p depth typeId [] []
  | scalar {depth typeId width x : ℕ} {make : ℕ → MetaValue} {bs : List UInt8}
      {vs : List MetaValue} (htype : scalar typeId = some (width, make)) (hx : x < 256 ^ width)
      (tail : Values p (depth + 1) typeId bs vs) :
      Values p (depth + 1) typeId (leBytes width x ++ bs) (make x :: vs)
  | string {depth : ℕ} {s bs : List UInt8} {vs : List MetaValue} (hs : s.length < 256 ^ 8)
      (tail : Values p (depth + 1) 8 bs vs) :
      Values p (depth + 1) 8 (stringBytes s ++ bs) (.string (fromUtf8Lossy s) :: vs)
  | array {depth elemType : ℕ} {es bs : List UInt8} {elems vs : List MetaValue}
      (htype : elemType < 256 ^ 4) (hlen : elems.length < 256 ^ 8)
      (hcap : elems.length * p.metaSize < 2 ^ 63) (helems : Values p depth elemType es elems)
      (tail : Values p (depth + 1) 9 bs vs) :
      Values p (depth + 1) 9 (leBytes 4 elemType ++ (leBytes 8 elems.length ++ es) ++ bs)
        (.array elems :: vs)

/-- A metadata pair. -/
def KvEntry (p : Platform) (depth : ℕ) (bs : List UInt8) (kv : List UInt8 × MetaValue) : Prop :=
  ∃ key typeId val, key.length < 256 ^ 8 ∧ typeId < 256 ^ 4 ∧ Values p depth typeId val [kv.2] ∧
    kv.1 = fromUtf8Lossy key ∧ bs = stringBytes key ++ (leBytes 4 typeId ++ val)

/-- A tensor info. -/
def TensorEntry (p : Platform) (bs : List UInt8) (t : TensorInfo) : Prop :=
  ∃ name, name.length < 256 ^ 8 ∧ t.ne.length < 256 ^ 4 ∧ (∀ x ∈ t.ne, x < 256 ^ 8) ∧
    t.offset < 256 ^ 8 ∧ tensorBytes p t.ne t.ggmlType = some t.nBytes ∧
    t.name = fromUtf8Lossy name ∧ t.shard = 2 ^ 64 - 1 ∧
    bs = stringBytes name ++ (leBytes 4 t.ne.length ++ (t.ne.flatMap (leBytes 8) ++
      (leBytes 4 t.ggmlType.toU32 ++ leBytes 8 t.offset)))

/-- What stands between the version and the tensor data. -/
def Body (p : Platform) (depth : ℕ) (bs : List UInt8)
    (body : List (List UInt8 × MetaValue) × List TensorInfo) : Prop :=
  ∃ nTensors nKv kvs infos, nTensors < 256 ^ 8 ∧ nKv < 256 ^ 8 ∧
    Spelled (KvEntry p depth) kvs body.1 ∧ body.1.length = i64Count nKv ∧
    nTensors * p.tensorSize < 2 ^ 63 ∧
    Spelled (TensorEntry p) infos body.2 ∧ body.2.length = i64Count nTensors ∧
    bs = leBytes 8 nTensors ++ (leBytes 8 nKv ++ (kvs ++ infos))

/-- A file: magic, version, body and data. -/
def Layout (p : Platform) (buf : List UInt8) (kvs : List (List UInt8 × MetaValue))
    (tensors : List TensorInfo) (headerEnd : ℕ) : Prop :=
  ∃ depth bs data, Body p depth bs (kvs, tensors) ∧
    buf = leBytes 4 ggufMagic ++ (leBytes 4 3 ++ (bs ++ data)) ∧ headerEnd + data.length = buf.length

/-- A file of another magic or another version. -/
def Rejected (buf : List UInt8) : Prop :=
  ∃ magic rest, magic < 256 ^ 4 ∧ buf = leBytes 4 magic ++ rest ∧
    (magic ≠ ggufMagic ∨
      ∃ version rest', version < 256 ^ 4 ∧ rest = leBytes 4 version ++ rest' ∧ version ≠ 3)

end Memra
