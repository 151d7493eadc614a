import Memra.Lib.FiniteMap
import Memra.Tokenizer.JsonText

/-!
# The safetensors reader

`safetensors.rs`: the header of a shard, the index that gives every tensor its shard, and the bytes of a
tensor. The little JSON reader only ever goes on in its text, so its state is what is ahead; an index out
of range and a failed assertion are `Fault.panic`, an error of the file system is `Fault.err`. `fuel` and
`turns` bound its recursion and its loops. A `usize` has 64 bits, and sums wrap as in a release build.
-/

namespace Memra

namespace Safetensors

open Lib
open Json (byte asChar isWs fromUtf8)

abbrev Res := Except (Fault Unit)

abbrev Reader := StateT (List UInt8) Res

/-! ## The JSON scanner -/

def skipWs : Reader Unit := modify fun b => b.dropWhile isWs

def peek : Reader UInt8 := do
  skipWs
  match ← get with
  | [] => throw .panic
  | c :: _ => pure c

def eat (c : UInt8) : Reader Unit := do
  skipWs
  match ← get with
  | [] => throw .panic
  | d :: rest => if d = c then set rest else throw .panic

/-- What a letter behind a backslash stands for. -/
def unescape (e : UInt8) : Char :=
  if e = byte '"' then '"'
  else if e = byte '\\' then '\\'
  else if e = byte '/' then '/'
  else if e = byte 'n' then '\n'
  else if e = byte 't' then '\t'
  else if e = byte 'r' then '\r'
  else asChar e

/-- The loop of `string`. -/
def stringLoop : List Char → List UInt8 → Res (List Char × List UInt8)
  | out, [] => .ok (out, [])
  | out, c :: rest =>
    if c = byte '"' then .ok (out, rest)
    else if c = byte '\\' then
      match rest with
      | [] => .error .panic
      | e :: rest => stringLoop (out ++ [unescape e]) rest
    else stringLoop (out ++ [asChar c]) rest

def string : Reader (List Char) := do
  eat (byte '"')
  stringLoop []

def isDigit (c : UInt8) : Bool := byte '0' ≤ c && c ≤ byte '9'

/-- The number of decimal digits. -/
def decimal (ds : List UInt8) : ℕ := ds.foldl (fun v d => 10 * v + (d.toNat - (byte '0').toNat)) 0

/-- `u64`: `parse` fails from `2 ^ 64` on. -/
def u64 : Reader ℕ := do
  skipWs
  let b ← get
  let digits := b.takeWhile isDigit
  if digits = [] then throw .panic
  else if decimal digits < 2 ^ 64 then
    set (b.dropWhile isDigit)
    pure (decimal digits)
  else throw .panic

section
variable {σ : Type}

/-- `loop { item; if peek() == b',' { eat(b',') } else { break } }`. -/
def commaLoop (item : σ → Reader σ) : ℕ → σ → Reader σ
  | 0, _ => throw .fuel
  | turns + 1, s => do
    let s ← item s
    let c ← peek
    if c = byte ',' then
      eat (byte ',')
      commaLoop item turns s
    else pure s

/-- A loop turns at most once for each byte that is ahead. -/
def loop (item : σ → Reader σ) (s : σ) : Reader σ := do
  let b ← get
  commaLoop item (b.length + 1) s

/-- A loop between brackets, which may be empty. -/
def bracketed (opening closing : UInt8) (item : σ → Reader σ) (s : σ) : Reader σ := do
  eat opening
  let c ← peek
  let s ← if c ≠ closing then loop item s else pure s
  eat closing
  pure s

end

/-- A byte that does not end a number, `true`, `false` or `null`. -/
def isScalar (c : UInt8) : Bool :=
  !(c == byte ',' || c == byte '}' || c == byte ']' || isWs c)

/-- `skip_value`, through at most `fuel` brackets. -/
def skipValue : ℕ → Reader Unit
  | 0 => throw .fuel
  | fuel + 1 => do
    let c ← peek
    if c = byte '{' then
      bracketed (byte '{') (byte '}') (fun _ => do
        let _ ← string
        eat (byte ':')
        skipValue fuel) ()
    else if c = byte '[' then
      bracketed (byte '[') (byte ']') (fun _ => skipValue fuel) ()
    else if c = byte '"' then
      let _ ← string
      pure ()
    else
      skipWs
      modify fun b => b.dropWhile isScalar

/-- Brackets nest less deep than the text is long. -/
def skipAny : Reader Unit := do
  let b ← get
  skipValue (b.length + 1)

/-! ## The header -/

/-- `StInfo`. -/
structure StInfo where
  dtype : List Char := []
  shape : List ℕ := []
  dataOffsets : ℕ × ℕ := (0, 0)

abbrev Infos := AList fun _ : List Char => StInfo

/-- The loop over a shape. -/
def pushNat (shape : List ℕ) : Reader (List ℕ) := do
  let n ← u64
  pure (shape ++ [n])

/-- The value of `data_offsets`. -/
def readOffsets : Reader (ℕ × ℕ) := do
  eat (byte '[')
  let begin_ ← u64
  eat (byte ',')
  let end_ ← u64
  eat (byte ']')
  pure (begin_, end_)

/-- A key, its colon, and what is made of the value behind it. -/
def member {α : Type} (value : List Char → Reader α) : Reader α := do
  let key ← string
  eat (byte ':')
  value key

/-- The `match` over the fields of a tensor. -/
def fieldValue (info : StInfo) (field : List Char) : Reader StInfo :=
  if field = "dtype".toList then do
    let dtype ← string
    pure { info with dtype }
  else if field = "shape".toList then do
    let shape ← bracketed (byte '[') (byte ']') pushNat info.shape
    pure { info with shape }
  else if field = "data_offsets".toList then do
    let dataOffsets ← readOffsets
    pure { info with dataOffsets }
  else do
    skipAny
    pure info

def headerValue (out : Infos) (key : List Char) : Reader Infos :=
  if key = "__metadata__".toList then do
    skipAny
    pure out
  else do
    eat (byte '{')
    let info ← loop (fun info => member (fieldValue info)) {}
    eat (byte '}')
    pure (out.insert key info)

/-- `parse_header`; what is behind the object is not looked at. -/
def parseHeader (json : List Char) : Res Infos :=
  (bracketed (byte '{') (byte '}') (fun out => member (headerValue out)) ∅).run' (utf8 json)

/-! ## The index -/

abbrev WeightMap := AList fun _ : List Char => List Char

/-- The loop over `weight_map`. -/
def weightValue (out : WeightMap) (t : List Char) : Reader WeightMap := do
  let f ← string
  pure (out.insert t f)

def indexValue (out : WeightMap) (key : List Char) : Reader WeightMap :=
  if key = "weight_map".toList then
    bracketed (byte '{') (byte '}') (fun out => member (weightValue out)) out
  else do
    skipAny
    pure out

/-- `parse_index_weight_map`, which does not look for the closing bracket. -/
def parseIndexWeightMap (json : List Char) : Res WeightMap :=
  (do eat (byte '{'); loop (fun out => member (indexValue out)) ∅ : Reader WeightMap).run' (utf8 json)

/-! ## Shards and models -/

def nLen : ℕ := 8

def maxHeader : ℕ := 100000000

/-- `StShard`. -/
structure StShard where
  mmap : List UInt8
  dataBase : ℕ
  infos : Infos

/-- `from_mmap`. -/
def StShard.fromMmap (mmap : List UInt8) : Res StShard := do
  if mmap.length < nLen then throw .panic
  else
    let hlen := leNat (mmap.take nLen)
    if hlen ≤ maxHeader ∧ nLen + hlen ≤ mmap.length then
      match fromUtf8 ((mmap.drop nLen).take hlen) with
      | none => throw .panic
      | some json =>
        let infos ← parseHeader json
        pure { mmap, dataBase := nLen + hlen, infos }
    else throw .panic

/-- `raw` of a shard. -/
def StShard.raw (s : StShard) (name : List Char) : Res (Option (StInfo × List UInt8)) :=
  match s.infos.lookup name with
  | none => pure none
  | some i => do
    let begin_ := (s.dataBase + i.dataOffsets.1) % 2 ^ 64
    let end_ := (s.dataBase + i.dataOffsets.2) % 2 ^ 64
    let bytes ← Cursor.slice s.mmap begin_ end_
    pure (some (i, bytes))

/-- `StModel`. -/
structure StModel where
  shards : List StShard
  map : AList fun _ : List Char => ℕ

/-- What a path leads to: a file, or a directory with what stands under the names that are joined to
it. -/
inductive Location
  | file (bytes : List UInt8)
  | dir (files : List Char → Option (List UInt8))

/-- `StShard::open`. -/
def StShard.openFile (file : Option (List UInt8)) : Res StShard :=
  match file with
  | none => throw (.err ())
  | some mmap => StShard.fromMmap mmap

/-- The model of one shard. -/
def StModel.single (sh : StShard) : StModel :=
  { shards := [sh], map := insertEach ∅ (sh.infos.entries.map fun e => (e.1, 0)) }

/-- The shards of an index, in the order of their names and each once. -/
def shardFiles (weightMap : WeightMap) : List (List Char) :=
  ((weightMap.entries.map fun e => e.2).mergeSort fun a b => decide (a ≤ b)).destutter (· ≠ ·)

/-- `pos[f]`. -/
def position (files : List (List Char)) (f : List Char) : Res ℕ :=
  match (insertEach ∅ (files.zipIdx)).lookup f with
  | none => throw .panic
  | some n => pure n

/-- The model of an index. -/
def StModel.sharded (files : List Char → Option (List UInt8)) (txt : List Char) : Res StModel := do
  let weightMap ← parseIndexWeightMap txt
  let names := shardFiles weightMap
  let shards ← names.mapM fun f => StShard.openFile (files f)
  let entries ← weightMap.entries.mapM fun e => do
    let n ← position names e.2
    pure (e.1, n)
  pure { shards, map := insertEach ∅ entries }

/-- `StModel::open`. -/
def StModel.openPath : Location → Res StModel
  | .file bytes => do
    let sh ← StShard.openFile (some bytes)
    pure (StModel.single sh)
  | .dir files =>
    match files "model.safetensors.index.json".toList with
    | some bytes =>
      match fromUtf8 bytes with
      | none => throw (.err ())
      | some txt => StModel.sharded files txt
    | none => do
      let sh ← StShard.openFile (files "model.safetensors".toList)
      pure (StModel.single sh)

/-- `raw` of a model. -/
def StModel.raw (m : StModel) (name : List Char) : Res (Option (StInfo × List UInt8)) :=
  match m.map.lookup name with
  | none => pure none
  | some si =>
    match m.shards[si]? with
    | none => throw .panic
    | some sh => sh.raw name

end Safetensors

end Memra
