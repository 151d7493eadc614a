import Memra.Lib.Occurs
import Memra.Lib.Parse
import Memra.Lib.Utf8

/-!
# The GGUF reader

`lib.rs` of `memra-gguf`: `parse_one` reads one physical file, `GgufFile::open` that file or, for a
shard of a split model, all its siblings. A parser fails where the source panics: a read past the end,
an unknown type, a capacity that `Vec` refuses, a failed assertion, an overflow where the build checks
for it. What the source returns as an error is `Failure.err`. A number is its value, a float its bits,
and a `String` its bytes.
-/

namespace Memra

open Lib

/-- What stands behind `open`: the build, and the sizes that decide which mappings and capacities there
are. A file that can be mapped has room for its elements, and so do the shards that five digits can
count. -/
structure Platform where
  overflowChecks : Bool
  maxMap : ℕ
  metaSize : ℕ
  tensorSize : ℕ
  pathSize : ℕ
  shardSize : ℕ
  maxMap_lt : maxMap < 2 ^ 63
  meta_fits : maxMap * metaSize < 2 ^ 63
  tensor_fits : maxMap * tensorSize < 2 ^ 63
  path_fits : 10 ^ 5 * pathSize < 2 ^ 63
  shard_fits : 10 ^ 5 * shardSize < 2 ^ 63

/-- How a call ends when it does not return `Ok`: with an error, or in a panic. -/
inductive Failure
  | err
  | fault
  deriving DecidableEq

/-- A panic inside a parser. -/
def panicP {α : Type} : Parser UInt8 α := StateT.lift none

/-- What goes on under a check that panics otherwise. -/
def ensure (c : Prop) [Decidable c] : Option Unit := if c then some () else none

/-! ## Checked numbers -/

/-- A `u64` of the build: with overflow checks, out of range is a panic. -/
def u64Of (p : Platform) (x : ℕ) : Option ℕ :=
  if x < 2 ^ 64 then some x else if p.overflowChecks then none else some (x % 2 ^ 64)

/-- `ne.iter().product()`. -/
def productU64 (p : Platform) (ne : List ℕ) : Option ℕ :=
  ne.foldlM (fun acc x => u64Of p (acc * x)) 1

/-- `Vec::with_capacity(n)` for elements of `size` bytes. -/
def withCapacity (n size : ℕ) : Option Unit := ensure (n * size < 2 ^ 63)

/-- `x.div_ceil(d)`. -/
def divCeil (x d : ℕ) : ℕ := if x % d > 0 then x / d + 1 else x / d

/-! ## Types -/

/-- `GgmlType`. -/
inductive GgmlType
  | F32 | F16 | Q4_0 | Q4_1 | Q5_0 | Q5_1 | Q8_0 | Q8_1 | Q2_K | Q3_K | Q4_K | Q5_K
  | Q6_K | Q8_K | IQ2_XXS | IQ2_XS | IQ3_XXS | IQ1_S | IQ4_NL | IQ3_S | IQ2_S | IQ4_XS
  | I8 | I16 | I32 | I64 | F64 | IQ1_M | BF16 | TQ1_0 | TQ2_0 | MXFP4 | NVFP4 | Q1_0
  deriving DecidableEq

namespace GgmlType

/-- `GgmlType::from_u32`. -/
def fromU32 : ℕ → Option GgmlType
  | 0 => some F32 | 1 => some F16 | 2 => some Q4_0 | 3 => some Q4_1 | 6 => some Q5_0
  | 7 => some Q5_1 | 8 => some Q8_0 | 9 => some Q8_1 | 10 => some Q2_K | 11 => some Q3_K
  | 12 => some Q4_K | 13 => some Q5_K | 14 => some Q6_K | 15 => some Q8_K | 16 => some IQ2_XXS
  | 17 => some IQ2_XS | 18 => some IQ3_XXS | 19 => some IQ1_S | 20 => some IQ4_NL
  | 21 => some IQ3_S | 22 => some IQ2_S | 23 => some IQ4_XS | 24 => some I8 | 25 => some I16
  | 26 => some I32 | 27 => some I64 | 28 => some F64 | 29 => some IQ1_M | 30 => some BF16
  | 34 => some TQ1_0 | 35 => some TQ2_0 | 39 => some MXFP4 | 40 => some NVFP4 | 41 => some Q1_0
  | _ => none

/-- The cast `as u32`. -/
def toU32 : GgmlType → ℕ
  | F32 => 0 | F16 => 1 | Q4_0 => 2 | Q4_1 => 3 | Q5_0 => 6 | Q5_1 => 7 | Q8_0 => 8 | Q8_1 => 9
  | Q2_K => 10 | Q3_K => 11 | Q4_K => 12 | Q5_K => 13 | Q6_K => 14 | Q8_K => 15 | IQ2_XXS => 16
  | IQ2_XS => 17 | IQ3_XXS => 18 | IQ1_S => 19 | IQ4_NL => 20 | IQ3_S => 21 | IQ2_S => 22
  | IQ4_XS => 23 | I8 => 24 | I16 => 25 | I32 => 26 | I64 => 27 | F64 => 28 | IQ1_M => 29
  | BF16 => 30 | TQ1_0 => 34 | TQ2_0 => 35 | MXFP4 => 39 | NVFP4 => 40 | Q1_0 => 41

/-- `block_and_type_size`, which panics on the types it does not list. -/
def blockAndTypeSize : GgmlType → Option (ℕ × ℕ)
  | F32 => some (1, 4) | F16 => some (1, 2) | BF16 => some (1, 2) | F64 => some (1, 8)
  | I8 => some (1, 1) | I16 => some (1, 2) | I32 => some (1, 4) | I64 => some (1, 8)
  | Q4_0 => some (32, 18) | Q4_1 => some (32, 20) | Q5_0 => some (32, 22) | Q5_1 => some (32, 24)
  | Q8_0 => some (32, 34) | Q8_1 => some (32, 36)
  | Q2_K => some (256, 84) | Q3_K => some (256, 110) | Q4_K => some (256, 144)
  | Q5_K => some (256, 176) | Q6_K => some (256, 210) | Q8_K => some (256, 292)
  | IQ4_NL => some (32, 18) | IQ4_XS => some (256, 136)
  | IQ2_XXS => some (256, 66) | IQ2_XS => some (256, 74) | IQ2_S => some (256, 82)
  | IQ3_XXS => some (256, 98) | IQ3_S => some (256, 110) | IQ1_S => some (256, 50)
  | IQ1_M => some (256, 56) | MXFP4 => some (32, 17) | NVFP4 => some (64, 36)
  | TQ1_0 | TQ2_0 | Q1_0 => none

end GgmlType

/-- `n_bytes` of a tensor. -/
def tensorBytes (p : Platform) (ne : List ℕ) (ty : GgmlType) : Option ℕ := do
  let nElems ← productU64 p ne
  let (blck, tsize) ← ty.blockAndTypeSize
  ensure (nElems % blck = 0)
  u64Of p (nElems / blck * tsize)

/-- `MetaValue`. -/
inductive MetaValue
  | u8 (v : ℕ)
  | i8 (v : ℤ)
  | u16 (v : ℕ)
  | i16 (v : ℤ)
  | u32 (v : ℕ)
  | i32 (v : ℤ)
  | u64 (v : ℕ)
  | i64 (v : ℤ)
  | f32 (bits : ℕ)
  | f64 (bits : ℕ)
  | bool (v : Bool)
  | string (s : List UInt8)
  | array (vs : List MetaValue)

/-- `as_u64`. -/
def MetaValue.asU64 : MetaValue → Option ℕ
  | .u8 v | .u16 v | .u32 v | .u64 v => some v
  | .i8 v | .i16 v | .i32 v | .i64 v => some (v % 2 ^ 64).toNat
  | .bool v => some v.toNat
  | .f32 _ | .f64 _ | .string _ | .array _ => none

/-- The metadata, a `BTreeMap` by key. -/
abbrev Metadata := List UInt8 → Option MetaValue

/-- An ASCII literal. -/
def ascii (s : String) : List UInt8 := s.toList.map fun c => UInt8.ofNat c.toNat

/-- `metadata.get(key).and_then(as_u64)`. -/
def Metadata.getU64 (metadata : Metadata) (key : String) : Option ℕ :=
  (metadata (ascii key)).bind MetaValue.asU64

/-- `TensorInfo`. -/
structure TensorInfo where
  name : List UInt8
  ne : List ℕ
  ggmlType : GgmlType
  offset : ℕ
  nBytes : ℕ
  shard : ℕ

/-! ## Reading one file -/

/-- `String::from_utf8_lossy`. -/
def fromUtf8Lossy (x : List UInt8) : List UInt8 :=
  let r := utf8Scan x
  r.1 ++ if r.2 = x.length then [] else replacement

/-- A number of `n` bytes in two's complement. -/
def signed (n x : ℕ) : ℤ := (x : ℤ).bmod (256 ^ n)

/-- `Cursor::string`. -/
def stringP : Parser UInt8 (List UInt8) := do
  let len ← le 8
  let s ← takeN len
  pure (fromUtf8Lossy s)

/-- The value types of a fixed width: how many bytes they take, and what they make of them. -/
def scalar : ℕ → Option (ℕ × (ℕ → MetaValue))
  | 0 => some (1, .u8)
  | 1 => some (1, fun x => .i8 (signed 1 x))
  | 2 => some (2, .u16)
  | 3 => some (2, fun x => .i16 (signed 2 x))
  | 4 => some (4, .u32)
  | 5 => some (4, fun x => .i32 (signed 4 x))
  | 6 => some (4, .f32)
  | 7 => some (1, fun x => .bool (x ≠ 0))
  | 10 => some (8, .u64)
  | 11 => some (8, fun x => .i64 (signed 8 x))
  | 12 => some (8, .f64)
  | _ => none

/-- `Cursor::value`, through at most `fuel` arrays. -/
def valueP (p : Platform) : ℕ → ℕ → Parser UInt8 MetaValue
  | 0, _ => panicP
  | fuel + 1, typeId =>
    match scalar typeId with
    | some (width, make) => make <$> le width
    | none =>
      if typeId = 8 then .string <$> stringP
      else if typeId = 9 then do
        let elemType ← le 4
        let n ← le 8
        StateT.lift (withCapacity n p.metaSize)
        let vs ← repeatN (valueP p fuel elemType) n
        pure (.array vs)
      else panicP

/-- One metadata pair. -/
def kvP (p : Platform) (fuel : ℕ) : Parser UInt8 (List UInt8 × MetaValue) := do
  let key ← stringP
  let vtype ← le 4
  let val ← valueP p fuel vtype
  pure (key, val)

/-- One tensor info, of the shard `usize::MAX`. -/
def tensorP (p : Platform) : Parser UInt8 TensorInfo := do
  let name ← stringP
  let nDims ← le 4
  let ne ← repeatN (le 8) nDims
  let typeId ← le 4
  let ggmlType ← StateT.lift (GgmlType.fromU32 typeId)
  let offset ← le 8
  let nBytes ← StateT.lift (tensorBytes p ne ggmlType)
  pure { name, ne, ggmlType, offset, nBytes, shard := 2 ^ 64 - 1 }

/-- How often `for _ in 0..n` runs for the `i64` of these bits. -/
def i64Count (x : ℕ) : ℕ := if x < 2 ^ 63 then x else 0

/-- What stands behind magic and version: the pairs and the tensor infos. Arrays nest less deep than
the input is long. -/
def bodyP (p : Platform) (fuel : ℕ) :
    Parser UInt8 (List (List UInt8 × MetaValue) × List TensorInfo) := do
  let nTensors ← le 8
  let nKv ← le 8
  let kvs ← repeatN (kvP p fuel) (i64Count nKv)
  StateT.lift (withCapacity nTensors p.tensorSize)
  let tensors ← repeatN (tensorP p) (i64Count nTensors)
  pure (kvs, tensors)

/-- `metadata.insert`, pair by pair. -/
def insertAll (kvs : List (List UInt8 × MetaValue)) : Metadata :=
  kvs.foldl (fun metadata kv => Function.update metadata kv.1 (some kv.2)) fun _ => none

/-- `GGUF_MAGIC`. -/
def ggufMagic : ℕ := 0x46554747

/-- `GGUF_DEFAULT_ALIGNMENT`. -/
def ggufDefaultAlignment : ℕ := 32

/-- `general.alignment`, or the default. -/
def Metadata.alignment (metadata : Metadata) : ℕ :=
  (metadata.getU64 "general.alignment").getD ggufDefaultAlignment

/-- `Shard`: the mapped file, and where its tensor data begins. -/
structure Shard where
  mmap : List UInt8
  dataStart : ℕ

/-- What `parse_one` returns. -/
structure ParsedFile where
  shard : Shard
  version : ℕ
  metadata : Metadata
  tensors : List TensorInfo

/-- The panic of a step that has no other way to fail. -/
def orFault {α : Type} (o : Option α) : Except Failure α := o.elim (.error .fault) .ok

/-- `parse_one` behind the version. -/
def parseBody (p : Platform) (buf : List UInt8) (version : ℕ) (rest : List UInt8) :
    Except Failure ParsedFile :=
  match (bodyP p buf.length).run rest with
  | none => .error .fault
  | some ((kvs, tensors), rest) =>
    let metadata := insertAll kvs
    let headerEnd := buf.length - rest.length
    -- a division by zero
    if metadata.alignment = 0 then .error .fault
    else
      match u64Of p (divCeil headerEnd metadata.alignment * metadata.alignment) with
      | none => .error .fault
      | some dataStart => .ok { shard := { mmap := buf, dataStart }, version, metadata, tensors }

/-- `parse_one` on the bytes of the file. -/
def parseOne (p : Platform) (buf : List UInt8) : Except Failure ParsedFile :=
  match (le 4).run buf with
  | none => .error .fault
  | some (magic, rest) =>
    if magic ≠ ggufMagic then .error .err
    else
      match (le 4).run rest with
      | none => .error .fault
      | some (version, rest) => if version ≠ 3 then .error .err else parseBody p buf version rest

/-! ## Opening a model -/

/-- A path: its directory and its file name. -/
structure FilePath where
  dir : List Char
  name : List Char
  deriving DecidableEq

/-- `parse_one` at a path: no file, or none that can be mapped, is an error. -/
def parseAt (p : Platform) (fs : FilePath → Option (List UInt8)) (path : FilePath) :
    Except Failure ParsedFile :=
  match fs path with
  | none => .error .err
  | some buf => if buf.length ≤ p.maxMap then parseOne p buf else .error .err

/-- `rsplit_once`. -/
def rsplitOnce (s pat : List Char) : Option (List Char × List Char) :=
  (findSub s.reverse pat.reverse).map fun i =>
    ((s.reverse.drop (i + pat.length)).reverse, (s.reverse.take i).reverse)

/-- Five ASCII digits. -/
def isFiveDigits (s : List Char) : Bool := s.length = 5 && s.all fun c => '0' ≤ c && c ≤ '9'

/-- `{i:05}`. -/
def pad5 (i : ℕ) : List Char := (Nat.toDigits 10 i).leftpad 5 '0'

/-- The name of shard `i`, counted from one. -/
def shardName (pre : List Char) (i count : ℕ) : List Char :=
  pre ++ '-' :: pad5 i ++ "-of-".toList ++ pad5 count ++ ".gguf".toList

/-- `split_sibling_paths`. -/
def splitSiblingPaths (path : FilePath) (count : ℕ) : Option (List FilePath) := do
  let stem ← path.name.dropSuffix? ".gguf".toList
  let (head, tail) ← rsplitOnce stem "-of-".toList
  ensure (isFiveDigits tail = true)
  let (pre, num) ← rsplitOnce head ['-']
  ensure (isFiveDigits num = true)
  pure ((List.range count).map fun i => ⟨path.dir, shardName pre (i + 1) count⟩)

/-- `GgufFile`. -/
structure GgufFile where
  shards : List Shard
  version : ℕ
  metadata : Metadata
  tensors : List TensorInfo
  dataStart : ℕ
  alignment : ℕ

/-- The loop over the sibling shards, from shard `i` on. -/
def openShards (p : Platform) (fs : FilePath → Option (List UInt8)) (version splitCount : ℕ) :
    ℕ → List FilePath → Except Failure (List ParsedFile)
  | _, [] => pure []
  | i, path :: paths => do
    let sh ← parseAt p fs path
    orFault (ensure (sh.version = version))
    orFault (ensure ((sh.metadata.getU64 "split.no").getD 0 = i))
    orFault (ensure ((sh.metadata.getU64 "split.count").getD 0 = splitCount))
    let rest ← openShards p fs version splitCount (i + 1) paths
    pure (sh :: rest)

/-- The tensors of the shards, each with the index of its own. -/
def numberTensors (shards : List ParsedFile) : List TensorInfo :=
  (shards.zipIdx.map fun s => s.1.tensors.map fun t => { t with shard := s.2 }).flatten

/-- `merged.entry(k).or_insert(v)`, shard by shard. -/
def mergeMetadata (shards : List ParsedFile) : Metadata := fun k =>
  shards.foldl (fun v s => v.or (s.metadata k)) none

/-- `GgufFile::open`. -/
def openGguf (p : Platform) (fs : FilePath → Option (List UInt8)) (path : FilePath) :
    Except Failure GgufFile := do
  let first ← parseAt p fs path
  let splitCount := (first.metadata.getU64 "split.count").getD 0
  if splitCount ≤ 1 then
    pure
      { shards := [first.shard]
        version := first.version
        metadata := first.metadata
        tensors := first.tensors.map fun t => { t with shard := 0 }
        dataStart := first.shard.dataStart
        alignment := first.metadata.alignment }
  else
    let some paths := splitSiblingPaths path splitCount | throw .err
    orFault (withCapacity splitCount p.pathSize)
    orFault (withCapacity splitCount p.shardSize)
    let totalExpected := (first.metadata.getU64 "split.tensors.count").getD 0
    let shards ← openShards p fs first.version splitCount 0 paths
    let tensors := numberTensors shards
    if totalExpected > 0 then orFault (ensure (tensors.length = totalExpected))
    let metadata := mergeMetadata shards
    -- `shards[0]`
    let head ← orFault shards.head?
    pure
      { shards := shards.map ParsedFile.shard
        version := first.version
        metadata
        tensors
        dataStart := head.shard.dataStart
        alignment := metadata.alignment }

/-- `tensor_data`: the bytes of a tensor, out of its own shard. -/
def GgufFile.tensorData (p : Platform) (g : GgufFile) (t : TensorInfo) : Option (List UInt8) := do
  let sh ← g.shards[t.shard]?
  let start ← u64Of p (sh.dataStart + t.offset)
  let stop ← u64Of p (start + t.nBytes)
  ensure (start ≤ stop ∧ stop ≤ sh.mmap.length)
  pure ((sh.mmap.drop start).take (stop - start))

end Memra
