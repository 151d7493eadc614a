import Memra.Gguf.JsonObj
import Memra.Lib.Layers
import Memra.Lib.PathText

/-!
# Repack directories and expert overlays

`Hy3RepackSource` of `source.rs`: tensors that a manifest lists, over a fallback that is a safetensors
model or another such source. `openPath` is `open`, with the depth of the chain bounded by `fuel`; the file
system and the safetensors reader are parameters (`Disk`, `TensorSource`). A `usize` is a `UInt64`, whose
sums wrap around, as in the release build.

The second half says what such a chain is for: each name belongs to the outermost manifest that lists it,
unless a manifest further out overrides an expert of the stack.
-/

namespace Memra

open Lib Lib.PathText

namespace Repack

/-- A file that is mapped. Its length is a `usize`. -/
structure Mapping where
  bytes : List UInt8
  short : bytes.length < 2 ^ 64

/-- `RepackTensor`. -/
structure RepackTensor where
  file : List Char
  offset : UInt64
  ggmlType : GgmlType
  ne : List UInt64
  bytes : UInt64

structure MoeConfig where
  expertCount : ℕ
  expertUsedCount : ℕ

/-- `ModelConfig`. -/
structure ModelConfig where
  moe : Option MoeConfig

/-- `TensorView`. -/
structure TensorView where
  bytes : List UInt8
  ggmlType : GgmlType
  ne : List UInt64

inductive OpenError
  /-- a file that cannot be read, opened or mapped -/
  | io
  /-- manifest missing tensors object -/
  | missingTensors
  /-- manifest tensor {name} missing file -/
  | missingFile (name : List Char)
  /-- manifest tensor {name} has invalid file path: {reason} -/
  | invalidPath (name reason : List Char)
  /-- manifest tensor {name} missing qtype -/
  | missingQtype (name : List Char)
  /-- manifest tensor {name} missing ne -/
  | missingNe (name : List Char)
  /-- manifest tensor {name} missing bytes -/
  | missingBytes (name : List Char)
  /-- manifest tensor {name} unsupported qtype {qtype} -/
  | unsupportedQtype (name qtype : List Char)
  /-- expert overlay manifest missing source_dir -/
  | missingSourceDir
  /-- pruned_experts is present but the model config has no MoE -/
  | noMoe
  /-- invalid pruned_experts layer key {layer:?} -/
  | layerKey (layer : List Char)
  /-- pruned_experts.{layer} must be an integer array -/
  | notArray (layer : ℕ)
  /-- pruned_experts.{layer} contains {id}, expert_count={n_expert} -/
  | noSuchExpert (layer id nExpert : ℕ)
  /-- pruned_experts.{layer} leaves fewer than top-k {n_used} experts -/
  | tooFewExperts (layer nUsed : ℕ)
  /-- manifest tensor {name} file not mapped -/
  | notMapped (name : List Char)
  /-- manifest tensor {name} declares offset {} + {} bytes but {:?} has {len} -/
  | outOfFile (name : List Char) (offset bytes : UInt64) (file : List Char) (len : ℕ)

/-- What `open` finds outside of the manifest. -/
structure Disk (S : Type) where
  isDir : List Char → Bool
  present : List Char → Bool
  readToString : List Char → Option (List Char)
  /-- `File::open` and `Mmap::map` -/
  mapFile : List Char → Option Mapping
  fromConfigJson : List Char → Except (Fault OpenError) ModelConfig
  openSafetensors : List Char → Except (Fault OpenError) S
  /-- `parse::<f64>`, cast to an integer -/
  parseF64 : List Char → Option UInt64

/-- There is no error but a panic. -/
abbrev Res := Except (Fault Empty)

/-- What a source is asked for, with its answers of type `N` and `F` to the native requests. -/
structure TensorSource (S N F : Type) where
  config : S → ModelConfig
  find : S → List Char → Res (Option TensorView)
  findNvfp4Native : S → List Char → Res (Option N)
  findFp8Native : S → List Char → Res (Option F)

section
variable {S N F α ε : Type}

/-- A reader without errors among those that have some. -/
def ofRes : Res α → Except (Fault ε) α
  | .ok a => .ok a
  | .error (.err e) => e.elim
  | .error .panic => .error .panic
  | .error .fuel => .error .fuel

/-- `ok_or_else`. -/
def okOr (e : ε) : Option α → Except (Fault ε) α
  | some a => .ok a
  | none => .error (.err e)

/-! ## `open` -/

/-- `validated_manifest_file`. -/
def validatedManifestFile (raw : List Char) : Except (List Char) (List Char) :=
  if raw = [] ∨ isAbsolute raw then .error "expected a non-empty relative path".toList
  else if (components raw).all Component.isNormal then .ok raw
  else .error "absolute, parent, and current-directory components are forbidden".toList

/-- `manifest_qtype`. -/
def manifestQtype (s : List Char) : Option GgmlType :=
  [("F32", GgmlType.F32), ("F16", .F16), ("BF16", .BF16), ("Q8_0", .Q8_0), ("Q2_K", .Q2_K),
    ("Q4_K", .Q4_K), ("Q5_K", .Q5_K), ("Q6_K", .Q6_K), ("Q3_K", .Q3_K), ("IQ4_XS", .IQ4_XS),
    ("IQ3_S", .IQ3_S), ("NVFP4", .NVFP4)].lookup (String.ofList s)

/-- The entry of a tensor. -/
def readTensor (parseF64 : List Char → Option UInt64) (name raw : List Char) :
    Except (Fault OpenError) RepackTensor := do
  let obj ← ofRes (JsonObj.parse raw)
  let file ← okOr (.missingFile name) (obj.string "file".toList)
  let file ← (validatedManifestFile file).mapError fun reason => .err (.invalidPath name reason)
  let qtype ← okOr (.missingQtype name) (obj.string "qtype".toList)
  let ne ← okOr (.missingNe name) (obj.u64Array "ne".toList)
  let bytes ← okOr (.missingBytes name) (obj.u64 parseF64 "bytes".toList)
  let offset := (obj.u64 parseF64 "offset".toList).getD 0
  let ggmlType ← okOr (.unsupportedQtype name qtype) (manifestQtype qtype)
  pure { file, offset, ggmlType, ne, bytes }

def isOverlay (format : Option (List Char)) : Bool :=
  format.any fun f => f ∈ ["memra-expert-overlay-v1".toList, "memra-expert-overlay-v2".toList,
    "bw24-expert-overlay-v1".toList, "bw24-expert-overlay-v2".toList]

/-- The mask of a layer. -/
def readMask (moe : MoeConfig) (layer : ℕ) (raw : List Char) : Except (Fault OpenError) (List Bool) := do
  let wrapper ← ofRes (JsonObj.parse ("\x7b\"v\":".toList ++ raw ++ "\x7d".toList))
  let ids ← okOr (.notArray layer) (wrapper.u64Array "v".toList)
  let mask ← ids.foldlM (fun (mask : List Bool) id =>
    if moe.expertCount ≤ id.toNat then throw (.err (.noSuchExpert layer id.toNat moe.expertCount))
    else pure (mask.set id.toNat false)) (List.replicate moe.expertCount true)
  if mask.count true < moe.expertUsedCount then
    throw (.err (.tooFewExperts layer moe.expertUsedCount))
  else pure mask

/-- `pruned_experts`. -/
def readPruned (cfg : ModelConfig) (top : JsonObj) :
    Except (Fault OpenError) (AList fun _ : ℕ => List Bool) := do
  match ← ofRes (top.object "pruned_experts".toList) with
  | none => pure ∅
  | some pruned =>
    let moe ← okOr .noMoe cfg.moe
    pruned.sortedFields.foldlM (fun masks e => do
      let layer ← okOr (.layerKey e.1) (parseUint 32 e.1)
      let mask ← readMask moe layer e.2
      pure (masks.insert layer mask)) ∅

/-- The files, each once. `seen` holds the keys of `files`. -/
abbrev Files := AList fun _ : List Component => Mapping

def mapFiles (mapFile : List Char → Option Mapping) (dir : List Char) :
    List RepackTensor → Files → Except (Fault OpenError) Files
  | [], files => pure files
  | t :: ts, files =>
    if (files.lookup (components t.file)).isSome then mapFiles mapFile dir ts files
    else do
      let map ← okOr .io (mapFile (join dir t.file))
      mapFiles mapFile dir ts (files.insert (components t.file) map)

/-- The file of an entry is long enough. The sum is one of `usize`. -/
def checkExtent (files : Files) (e : List Char × RepackTensor) : Except (Fault OpenError) Unit := do
  let map ← okOr (.notMapped e.1) (files.lookup (components e.2.file))
  if map.bytes.length < (e.2.offset + e.2.bytes).toNat then
    throw (.err (.outOfFile e.1 e.2.offset e.2.bytes e.2.file map.bytes.length))
  else pure ()

/-- The fields of `Hy3RepackSource` but the fallback. -/
structure Manifest where
  cfg : ModelConfig
  dir : List Char
  tensors : AList fun _ : List Char => RepackTensor
  files : Files
  activeExperts : AList fun _ : ℕ => List Bool

/-- `Hy3RepackSource`, by its fallback: none, or one of the two of `RepackFallback`. -/
inductive Hy3RepackSource (S : Type)
  | complete (own : Manifest)
  | overSafetensors (own : Manifest) (source : S)
  | overRepack (own : Manifest) (source : Hy3RepackSource S)

def Hy3RepackSource.own : Hy3RepackSource S → Manifest
  | .complete m => m
  | .overSafetensors m _ => m
  | .overRepack m _ => m

/-- `config`. -/
def Hy3RepackSource.config (src : Hy3RepackSource S) : ModelConfig := src.own.cfg

/-- `RepackFallback`. -/
inductive RepackFallback (S : Type)
  | safetensors (source : S)
  | repack (source : Hy3RepackSource S)

def RepackFallback.config (sourceConfig : S → ModelConfig) : RepackFallback S → ModelConfig
  | .safetensors source => sourceConfig source
  | .repack source => source.config

/-- The source with its fallback. -/
def Hy3RepackSource.withFallback (own : Manifest) : Option (RepackFallback S) → Hy3RepackSource S
  | none => .complete own
  | some (.safetensors source) => .overSafetensors own source
  | some (.repack source) => .overRepack own source

section
variable (sourceConfig : S → ModelConfig) (d : Disk S)

def manifestPath (path : List Char) : List Char :=
  if d.isDir path then join path "manifest.json".toList else path

def manifestDir (path : List Char) : List Char := (parent (manifestPath d path)).getD ['.']

/-- The `fallback`; `recur` opens what it finds. -/
def openFallback (recur : List Char → Except (Fault OpenError) (Hy3RepackSource S)) (top : JsonObj)
    (sourceDir : Option (List Char)) : Except (Fault OpenError) (Option (RepackFallback S)) :=
  if isOverlay (top.string "format".toList) then do
    let source ← okOr .missingSourceDir sourceDir
    if d.present (join source "manifest.json".toList) then
      (fun s => some (.repack s)) <$> recur source
    else (fun s => some (.safetensors s)) <$> d.openSafetensors source
  else pure none

def readConfig (dir : List Char) (sourceDir : Option (List Char)) :
    Option (RepackFallback S) → Except (Fault OpenError) ModelConfig
  | some fallback => pure (fallback.config sourceConfig)
  | none =>
    let cfgPath := ((sourceDir.map fun p => join p "config.json".toList).filter d.present).getD
      (join dir "config.json".toList)
    d.fromConfigJson cfgPath

/-- The body of `open`. -/
def openWith (recur : List Char → Except (Fault OpenError) (Hy3RepackSource S)) (path : List Char) :
    Except (Fault OpenError) (Hy3RepackSource S) := do
  let dir := manifestDir d path
  let txt ← okOr .io (d.readToString (manifestPath d path))
  let top ← ofRes (JsonObj.parse txt)
  let tensorsObj ← ofRes (top.object "tensors".toList)
  let tensorsObj ← okOr .missingTensors tensorsObj
  let tensors ← insertEachM (readTensor d.parseF64) ∅ tensorsObj.sortedFields
  let sourceDir := (top.string "source_dir".toList).map (join dir)
  let fallback ← openFallback d recur top sourceDir
  let cfg ← readConfig sourceConfig d dir sourceDir fallback
  let activeExperts ← readPruned cfg top
  let files ← mapFiles d.mapFile dir ((inOrder tensors).map Prod.snd) ∅
  (inOrder tensors).forM (checkExtent files)
  pure (.withFallback { cfg, dir, tensors, files, activeExperts } fallback)

/-- `open`, through at most `fuel` manifests. -/
def openPath : ℕ → List Char → Except (Fault OpenError) (Hy3RepackSource S)
  | 0, _ => .error .fuel
  | fuel + 1, path => openWith sourceConfig d (openPath fuel) path

end

/-! ## `TensorSource` -/

/-- `rd_u16`. -/
def rdU16 (lo hi : UInt8) : UInt16 := UInt16.ofNat (leNat [lo, hi])

/-- `bf16_to_f32`, the bits of the `f32`. -/
def bf16ToF32 (b : UInt16) : UInt32 := b.toUInt32 <<< 16

/-- `to_le_bytes`. -/
def toLeBytes (x : UInt32) : List UInt8 := leBytes 4 x.toNat

/-- `dequantize` of BF16. -/
def dequantizeBf16 (raw : List UInt8) (nElems : ℕ) : Res (List UInt32) :=
  (List.range nElems).mapM fun i => do
    let lo ← Cursor.index raw (i * 2)
    let hi ← Cursor.index raw (i * 2 + 1)
    pure (bf16ToF32 (rdU16 lo hi))

namespace Manifest

/-- What `find` makes of an entry. -/
def view (m : Manifest) (t : RepackTensor) : Res (Option TensorView) :=
  match m.files.lookup (components t.file) with
  | none => pure none
  | some file => do
    let raw ← Cursor.slice file.bytes t.offset.toNat (t.offset + t.bytes).toNat
    if t.ggmlType = .BF16 ∧ t.ne.length = 1 then
      let n := t.ne.foldl (· * ·) 1
      let vals ← dequantizeBf16 raw n.toNat
      pure (some ⟨vals.flatMap toLeBytes, .F32, t.ne⟩)
    else pure (some ⟨raw, t.ggmlType, t.ne⟩)

def entry (name : List Char) (m : Manifest) : Option RepackTensor := m.tensors.lookup name

def mask (layer : ℕ) (m : Manifest) : Option (List Bool) := m.activeExperts.lookup layer

/-- `find` stops here: the stack has an expert of its own in this manifest. -/
def hides (m : Manifest) (name : List Char) : Bool :=
  decide ("_exps.weight".toList <:+: name) &&
    match name.dropSuffix? ".weight".toList with
    | none => true
    | some stem => (firstFrom m.tensors (stem ++ ['.'])).any fun e => (stem ++ ['.']).isPrefixOf e.1

/-- `find`, with what the fallback finds. -/
def find (m : Manifest) (name : List Char) (fallback : Res (Option TensorView)) :
    Res (Option TensorView) :=
  match m.tensors.lookup name with
  | some t => m.view t
  | none => if m.hides name then pure none else fallback

/-- `find_nvfp4_native` and `find_fp8_native`, with what the fallback finds. -/
def findNative (m : Manifest) (name : List Char) (fallback : Res (Option α)) : Res (Option α) :=
  if (m.tensors.lookup name).isSome then pure none else fallback

end Manifest

namespace Hy3RepackSource
variable (ts : TensorSource S N F)

/-- `find`. -/
def find : Hy3RepackSource S → List Char → Res (Option TensorView)
  | .complete m, name => m.find name (pure none)
  | .overSafetensors m source, name => m.find name (ts.find source name)
  | .overRepack m source, name => m.find name (source.find name)

/-- `find_nvfp4_native`. -/
def findNvfp4Native : Hy3RepackSource S → List Char → Res (Option N)
  | .complete m, name => m.findNative name (pure none)
  | .overSafetensors m source, name => m.findNative name (ts.findNvfp4Native source name)
  | .overRepack m source, name => m.findNative name (source.findNvfp4Native name)

/-- `find_fp8_native`. -/
def findFp8Native : Hy3RepackSource S → List Char → Res (Option F)
  | .complete m, name => m.findNative name (pure none)
  | .overSafetensors m source, name => m.findNative name (ts.findFp8Native source name)
  | .overRepack m source, name => m.findNative name (source.findFp8Native name)

/-- `active_experts`. -/
def activeExperts (src : Hy3RepackSource S) (layer : ℕ) : Option (List Bool) := src.own.mask layer

/-! ## What a chain is for -/

/-- The manifests of the chain, the outermost first. -/
def levels : Hy3RepackSource S → List Manifest
  | .complete m => [m]
  | .overSafetensors m _ => [m]
  | .overRepack m source => m :: source.levels

/-- The safetensors model at the end of the chain. -/
def base : Hy3RepackSource S → Option S
  | .complete _ => none
  | .overSafetensors _ source => some source
  | .overRepack _ source => source.base

/-- The outermost manifest that lists the name, with its entry. -/
def provider (src : Hy3RepackSource S) (name : List Char) : Option (Manifest × RepackTensor) :=
  Layers.first (Manifest.entry name) src.levels

/-- The manifests outside of the one that provides the name. -/
def outside (src : Hy3RepackSource S) (name : List Char) : List Manifest :=
  Layers.above (Manifest.entry name) src.levels

end Hy3RepackSource

/-- The name is a stack of experts, and the manifest lists one of its experts. -/
def Manifest.Overrides (m : Manifest) (name : List Char) : Prop :=
  ∃ stem expert t, name = stem ++ "_exps.weight".toList ∧ stem ++ "_exps.".toList <+: expert ∧
    m.tensors.lookup expert = some t

/-- The bytes `[offset, offset + bytes)` of the file of an entry. -/
def Extent (m : Manifest) (t : RepackTensor) (bs : List UInt8) : Prop :=
  ∃ file, m.files.lookup (components t.file) = some file ∧
    t.offset.toNat + t.bytes.toNat ≤ file.bytes.length ∧
    bs = (file.bytes.drop t.offset.toNat).take t.bytes.toNat

/-- Little-endian BF16 numbers and the F32 numbers that they are: their bits are the upper half. -/
inductive Widened : List UInt8 → List UInt8 → Prop
  | nil : Widened [] []
  | cons {lo hi : UInt8} {bs ws : List UInt8} (h : Widened bs ws) :
    Widened (lo :: hi :: bs) (0 :: 0 :: lo :: hi :: ws)

/-- A one-dimensional BF16 entry. -/
def RepackTensor.IsBf16Vector (t : RepackTensor) : Prop := t.ggmlType = .BF16 ∧ t.ne.length = 1

/-- The extent does not wrap around, and a BF16 vector has two bytes for each of its elements. -/
def RepackTensor.Plain (t : RepackTensor) : Prop :=
  t.offset.toNat + t.bytes.toNat < 2 ^ 64 ∧
    (t.IsBf16Vector → ∀ n, t.ne = [n] → t.bytes.toNat = 2 * n.toNat)

/-- The view shows the bytes of the entry, those of a BF16 vector widened. -/
structure Shows (m : Manifest) (t : RepackTensor) (v : TensorView) : Prop where
  ne : v.ne = t.ne
  bytes : ∃ bs, Extent m t bs ∧ (t.IsBf16Vector → v.ggmlType = .F32 ∧ Widened bs v.bytes) ∧
    (¬ t.IsBf16Vector → v.ggmlType = t.ggmlType ∧ v.bytes = bs)

/-- The manifest lists the tensor. -/
def Listed (d : Disk S) (path name : List Char) (t : RepackTensor) : Prop :=
  ∃ txt top tensors raw, d.readToString (manifestPath d path) = some txt ∧
    JsonObj.parse txt = .ok top ∧ top.object "tensors".toList = .ok (some tensors) ∧
    tensors.raw name = some raw ∧ readTensor d.parseF64 name raw = .ok t

namespace Hy3RepackSource
variable (ts : TensorSource S N F) (d : Disk S) (path : List Char) (src : Hy3RepackSource S)

/-- A manifest outside of the provider overrides an expert of the stack. -/
def Hidden (name : List Char) : Prop := ∃ m ∈ src.outside name, m.Overrides name

/-- `find` resolves the name: hidden, or shown as the outermost manifest lists it, or left to the end of
the chain. -/
structure Resolves (name : List Char) : Prop where
  hidden : src.Hidden name → src.find ts name = .ok none
  listed : ∀ m t, ¬ src.Hidden name → src.provider name = some (m, t) →
    ∃ v, src.find ts name = .ok (some v) ∧ Shows m t v
  left : ¬ src.Hidden name → src.provider name = none →
    src.find ts name = src.base.elim (.ok none) fun s => ts.find s name

/-- The native requests find nothing that a manifest lists. -/
def NativeResolves (name : List Char) : Prop :=
  (src.provider name).isSome → src.findNvfp4Native ts name = .ok none ∧ src.findFp8Native ts name = .ok none

/-- The mask is that of the outermost manifest that prunes the layer. -/
def MaskResolves (layer : ℕ) : Prop :=
  src.activeExperts layer = (Layers.first (Manifest.mask layer) src.levels).map Prod.snd

/-- Masks leave at least as many experts as a token uses. -/
def MasksSuffice : Prop :=
  ∀ layer mask, src.activeExperts layer = some mask →
    ∃ moe, src.config.moe = some moe ∧ mask.length = moe.expertCount ∧
      moe.expertUsedCount ≤ mask.count true

/-- Every extent lies inside its file, which is one that the manifest names by the same path. -/
def ExtentsInside : Prop :=
  ∀ name t, Listed d path name t →
    ∃ file name' t', Listed d path name' t' ∧ components t'.file = components t.file ∧
      d.mapFile (join (manifestDir d path) t'.file) = some file ∧
      src.own.files.lookup (components t.file) = some file ∧
      t.offset.toNat + t.bytes.toNat ≤ file.bytes.length

/-- Every file stands below the directory of the manifest. -/
def PathsBelow : Prop :=
  ∀ name t, Listed d path name t → ∃ below, below ≠ [] ∧ (∀ c ∈ below, c.isNormal = true) ∧
    components (join (manifestDir d path) t.file) = components (manifestDir d path) ++ below

/-- All of it. -/
structure Correct : Prop where
  resolves : ∀ name, src.Resolves ts name
  native : ∀ name, src.NativeResolves ts name
  mask : ∀ layer, src.MaskResolves layer
  suffice : src.MasksSuffice
  inside : src.ExtentsInside d path
  below : PathsBelow d path

/-! ### Where the code does so -/

/-- No manifest outside of the provider hides the name without an override. -/
def Unobstructed (name : List Char) : Prop :=
  ∀ m ∈ src.outside name, m.hides name = true → m.Overrides name

/-- What keeps `find` right about a name. -/
def FindPlain (name : List Char) : Prop :=
  src.Hidden name ∨
    (∃ m t, src.provider name = some (m, t) ∧ src.Unobstructed name ∧ t.Plain) ∨
    src.provider name = none ∧
      (src.Unobstructed name ∨ ∀ s, src.base = some s → ts.find s name = .ok none)

/-- The outermost manifest prunes the layer, or none does. -/
def MaskPlain (layer : ℕ) : Prop :=
  (src.own.mask layer).isSome ∨ ∀ m ∈ src.levels, m.mask layer = none

/-- No extent of the manifest wraps around. -/
def ExtentsPlain : Prop := ∀ name t, Listed d path name t → t.offset.toNat + t.bytes.toNat < 2 ^ 64

structure Plain : Prop where
  find : ∀ name, src.FindPlain ts name
  mask : ∀ layer, src.MaskPlain layer
  extents : ExtentsPlain d path

end Hy3RepackSource

end

end Repack

end Memra
