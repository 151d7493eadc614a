import Memra.Gguf.HfMapping
import Memra.Gguf.Narrow
import Memra.Lib.Str

/-!
# The safetensors source

`SafetensorsSource` of `source.rs`: how a weight that the engine asks for under its ggml name is found in a
checkpoint, as the bytes of the file, as repacked NVFP4 blocks, as FP8 codes with their scales, or as
values. As in the V-head reorders a result is `none` where the source panics, and what the source returns
as `None` is `some none`. An `f32` is a rational, with exact arithmetic, or `none` when it is not finite.
The mapping of the names (`resolve_ggml`) is a parameter, and so is what no statement looks into: the
contents of re-encoded blocks and the values of plain tensors.
-/

namespace Memra.StSource

open Lib Nvfp4 HfMapping

/-! ## Numbers -/

abbrev Num := Option ℚ

def mul (a b : Num) : Num := Option.map₂ (· * ·) a b

def div (a b : Num) : Num := Option.map₂ (· / ·) a b

/-- `f32::from_le_bytes`. -/
def fromLeBytes (b : List UInt8) : Num :=
  if leNat b / 2 ^ 23 % 2 ^ 8 = 255 then none else some (f32.value (leNat b))

/-- The `f32` numbers of `chunks_exact(4)`. -/
def f32s : List UInt8 → List Num
  | b0 :: b1 :: b2 :: b3 :: rest => fromLeBytes [b0, b1, b2, b3] :: f32s rest
  | _ => []

/-- The BF16 numbers of `chunks_exact(2)`: their bits are the upper half of an `f32`. -/
def bf16s : List UInt8 → List Num
  | lo :: hi :: rest => fromLeBytes [0, 0, lo, hi] :: bf16s rest
  | _ => []

/-- `f32_to_fp8_e4m3`, with exact differences. A number that is not finite does not come to it. -/
def encodeE4m3 (x : Num) : UInt8 :=
  match x with
  | none => 0
  | some x =>
    let sign : UInt8 := if x < 0 then 0x80 else 0
    let ax := |x|
    if ax = 0 then 0
    else if e4m3Table 126 ≤ ax then sign ||| 0x7E
    else
      let (lo, hi) := e4m3Search ax 0 126
      let dl := ax - e4m3Table lo
      let dh := e4m3Table hi - ax
      let c := if dl < dh then lo else if dh < dl then hi else if lo % 2 = 0 then lo else hi
      if c = 0 then 0 else sign ||| UInt8.ofNat c

/-! ## Checkpoints -/

/-- The bytes of an element. -/
def dtypeSize (dtype : String) : Option ℕ :=
  [("F64", 8), ("I64", 8), ("F32", 4), ("I32", 4), ("F16", 2), ("BF16", 2), ("I16", 2), ("I8", 1),
    ("U8", 1), ("F8_E4M3", 1)].lookup dtype

/-- An `StInfo` with its bytes, as many as the shape says. -/
structure Tensor where
  dtype : String
  shape : List ℕ
  bytes : List UInt8
  sized : ∀ w, dtypeSize dtype = some w → bytes.length = shape.prod * w

/-- `ne`. -/
def Tensor.ne (t : Tensor) : List ℕ := t.shape.reverse

/-- `st_dtype_to_ggml`, which panics on the types it does not list. -/
def stDtypeToGgml (dtype : String) : Option GgmlType :=
  [("F32", GgmlType.F32), ("F16", .F16), ("BF16", .BF16), ("F64", .F64), ("I8", .I8), ("I16", .I16),
    ("I32", .I32), ("I64", .I64)].lookup dtype

/-- `HfTarget`. -/
inductive HfTarget
  | plain (hf : List Char)
  | transform (hf : List Char) (kind : TransformKind)

def HfTarget.hf : HfTarget → List Char
  | .plain hf => hf
  | .transform hf _ => hf

/-- `ModelConfig`, as far as the source reads it. -/
structure Config where
  heads : ModelConfig
  isHy3 : Bool
  nLayer : ℕ
  nextnPredictLayers : ℕ
  nextn_le : nextnPredictLayers ≤ nLayer

/-- The switches: `MEMRA_FULL_PREC`, `MEMRA_NV_W4`, `MEMRA_FP8_FOLD`, and debug assertions. -/
structure Env where
  fullPrec : Bool
  nvW4 : Bool
  fp8Fold : Bool
  debug : Bool

/-- What no statement looks into: the blocks that `f32_to_q8_0` and `f32_to_nvfp4` make, `dequantize`, and
the value transforms. -/
structure Numerics where
  q8_0 : List Num → List UInt8
  nvfp4 : List Num → List UInt8
  dequantize : GgmlType → List UInt8 → ℕ → Option (List Num)
  ops : F32Ops Num

/-- `SafetensorsSource`. `raw` is `model.raw`, and `resolve` is `resolve_ggml` with the config. -/
structure SafetensorsSource where
  raw : List Char → Option Tensor
  resolve : List Char → Option HfTarget
  cfg : Config
  env : Env
  num : Numerics

/-- Bytes, or `f32` numbers that the source writes as bytes. -/
inductive Data
  | bytes (b : List UInt8)
  | values (v : List Num)

/-- `TensorView`. -/
structure TensorView where
  data : Data
  ggmlType : GgmlType
  ne : List ℕ

/-! ## FP8 scales -/

/-- `F8Scales`. -/
inductive F8Scales
  | perTensor (s : Num)
  | perRow (v : List Num)
  | block128 (scales : List Num) (cols : ℕ)

/-- `at`. -/
def F8Scales.scaleAt : F8Scales → ℕ → ℕ → Option Num
  | .perTensor s, _, _ => some s
  | .perRow v, o, _ => v[o]?
  | .block128 scales cols, o, e => scales[o / 128 * cols + e / 128]?

def F8Scales.isBlock : F8Scales → Bool
  | .block128 _ _ => true
  | _ => false

def f8Value (c : UInt8) (scale : Num) : Num := mul (some (fp8E4m3ToF32 c)) scale

/-- The chunks of row `o` from column `e` on. -/
def f8Chunks (bytes : List UInt8) (inF : ℕ) (scales : F8Scales) (o e : ℕ) (data : List Num) :
    Option (List Num) :=
  if e < inF then do
    let stop := min (e + 128 - e % 128) inF
    let s ← scales.scaleAt o e
    let data ← (List.range (stop - e)).foldlM (fun data k => do
      let c ← bytes[o * inF + (e + k)]?
      overwrite data (o * inF + (e + k)) [f8Value c s]) data
    f8Chunks bytes inF scales o stop data
  else some data
termination_by inF - e
decreasing_by omega

/-- `f8_deq_f32`. -/
def f8DeqF32 (bytes : List UInt8) (outF inF : ℕ) (scales : F8Scales) : Option (List Num) :=
  (List.range outF).foldlM (fun data o => f8Chunks bytes inF scales o 0 data)
    (List.replicate (outF * inF) (some 0))

/-- A finite number above zero. -/
def positive (s : Num) : Bool := s.any (0 < ·)

/-- The numbers of a tensor of scales. -/
def f8ScaleValues (t : Tensor) : Option (List Num) :=
  let n := t.shape.prod
  if t.dtype = "F32" ∧ n * 4 ≤ t.bytes.length then some (f32s (t.bytes.take (n * 4)))
  else if t.dtype = "BF16" ∧ n * 2 ≤ t.bytes.length then some (bf16s (t.bytes.take (n * 2)))
  else none

/-- `f8_scales`. -/
def f8Scales (t : Tensor) (outF inF : ℕ) : Option F8Scales := do
  let n := t.shape.prod
  let vals ← f8ScaleValues t
  if ¬ vals.all positive then none
  else if n = 1 then (vals[0]?).map .perTensor
  else if n = outF then some (.perRow vals)
  else
    let rows := divCeil outF 128
    let cols := divCeil inF 128
    if t.shape = [rows, cols] then some (.block128 vals cols) else none

/-! ## The arms -/

/-- `Nvfp4Native`, and what `nvfp4_quant` finds: packed codes, scales, and the macro scale. -/
structure Nvfp4Quant where
  outF : ℕ
  inF : ℕ
  wbytes : List UInt8
  wscale : List UInt8
  macroS : Num

/-- The NVFP4 arm of `deq_f32`. -/
def deqNvfp4 (q : Nvfp4Quant) : Option (List Num) := do
  let inBytes := q.inF / 2
  let sclBytes := q.inF / 16
  let rows ← (List.range q.outF).mapM fun o => do
    let w ← readAt q.wbytes (o * inBytes) inBytes
    let sc ← readAt q.wscale (o * sclBytes) sclBytes
    let row ← dequantModeloptRow w sc q.inF
    pure (row.map fun v => mul (some v) q.macroS)
  pure rows.flatten

structure F8BlockGrid where
  scales : List Num
  rows : ℕ
  cols : ℕ

/-- `Fp8Native`. -/
structure Fp8Native where
  bytes : List UInt8
  scale : Num
  blk : Option F8BlockGrid
  outF : ℕ
  inF : ℕ

/-- `split_once`. -/
def splitOnce (s : List Char) (c : Char) : Option (List Char × List Char) :=
  if c ∈ s then some (s.takeWhile (· ≠ c), (s.dropWhile (· ≠ c)).tail) else none

/-- `replace` of a pattern that is not empty. -/
def replaceAll (pat rep : List Char) : ℕ → List Char → List Char
  | 0, s => s
  | _ + 1, [] => []
  | fuel + 1, c :: s =>
    match (c :: s).dropPrefix? pat with
    | some rest => rep ++ replaceAll pat rep fuel rest
    | none => c :: replaceAll pat rep fuel s

namespace SafetensorsSource
variable (s : SafetensorsSource)

/-- `lookup`: the name as it is, and then with the wrapper prefixes put in or taken off. -/
def lookup (hf : List Char) : Option Tensor :=
  (s.raw hf).or <|
  ((hf.dropPrefix? "model.".toList).bind fun rest =>
    if "language_model.".toList.isPrefixOf rest ∨ "visual.".toList.isPrefixOf rest then none
    else s.raw ("model.language_model.".toList ++ rest)).or <|
  ((hf.dropPrefix? "model.language_model.".toList).bind fun rest => s.raw ("model.".toList ++ rest)).or <|
  (if "model.".toList.isPrefixOf hf ∨ hf = "lm_head.weight".toList then
    s.raw ("language_model.".toList ++ hf) else none).or <|
  (hf.dropPrefix? "language_model.".toList).bind s.raw

/-- `f8_scale_sibling`. -/
def f8ScaleSibling (stem : List Char) : Option Tensor :=
  (s.lookup (stem ++ ".weight_scale".toList)).or (s.lookup (stem ++ ".weight_scale_inv".toList))

/-- A U8 matrix of packed codes with its scales. -/
def packedPair (weight scale : List Char) (isScale : String → Bool) (macroS : Num) : Option Nvfp4Quant := do
  let w ← s.lookup weight
  match w.dtype, w.shape with
  | "U8", [outF, half] =>
    let sc ← s.lookup scale
    if isScale sc.dtype then some ⟨outF, half * 2, w.bytes, sc.bytes, macroS⟩ else none
  | _, _ => none

/-- The macro scale of ModelOpt: a multiplier. -/
def modeloptMacro (stem : List Char) : Num :=
  match s.lookup (stem ++ ".weight_scale_2".toList) with
  | some t => if 4 ≤ t.bytes.length then fromLeBytes (t.bytes.take 4) else some 1
  | none => some 1

/-- `if gs > 0.0 && gs.is_finite() { 1.0 / gs } else { 1.0 }`. -/
def inverted (gs : Num) : Num := if positive gs then div (some 1) gs else some 1

/-- The macro scale of compressed-tensors: a divisor, inverted. -/
def compressedMacro (stem : List Char) : Num :=
  match s.lookup (stem ++ ".weight_global_scale".toList) with
  | some t => if 4 ≤ t.bytes.length then inverted (fromLeBytes (t.bytes.take 4)) else some 1
  | none => some 1

/-- `nvfp4_quant`: the ModelOpt form, the form of compressed-tensors, the custom form. -/
def nvfp4Quant (hf : List Char) : Option Nvfp4Quant := do
  let stem ← hf.dropSuffix? ".weight".toList
  let f8 := fun dtype : String => dtype == "F8_E4M3"
  (s.packedPair hf (stem ++ ".weight_scale".toList) f8 (s.modeloptMacro stem)).or <|
  (s.packedPair (stem ++ ".weight_packed".toList) (stem ++ ".weight_scale".toList) f8
    (s.compressedMacro stem)).or <|
  s.packedPair (hf ++ ".nvfp4_packed".toList) (hf ++ ".nvfp4_scale_e4m3".toList) (fun _ => true) (some 1)

/-- The FP8 tensor of a name with its scales. -/
def fp8Quant (hf stem : List Char) : Option (Tensor × ℕ × ℕ × F8Scales) := do
  let t ← s.lookup hf
  match t.dtype, t.shape with
  | "F8_E4M3", [outF, inF] =>
    let sib ← s.f8ScaleSibling stem
    let scales ← f8Scales sib outF inF
    some (t, outF, inF, scales)
  | _, _ => none

/-- The last arm of `deq_f32`. -/
def deqPlain (hf : List Char) : Option (Option (List Num × List ℕ)) :=
  match s.lookup hf with
  | none => some none
  | some t => do
    let ty ← stDtypeToGgml t.dtype
    let vals ← s.num.dequantize ty t.bytes t.ne.prod
    some (some (vals, t.ne))

/-- `deq_f32`. -/
def deqF32 (hf : List Char) : Option (Option (List Num × List ℕ)) :=
  match hf.dropSuffix? ".weight".toList with
  | none => s.deqPlain hf
  | some stem =>
    match s.nvfp4Quant hf with
    | some q => (deqNvfp4 q).map fun data => some (data, [q.inF, q.outF])
    | none =>
      match s.fp8Quant hf stem with
      | some (t, outF, inF, scales) => (f8DeqF32 t.bytes outF inF scales).map fun data => some (data, t.ne)
      | none => s.deqPlain hf

/-- `f32_to_q8_0`. -/
def f32ToQ80 (data : List Num) : Option (List UInt8) := do
  ensure (data.length % 32 = 0)
  some (s.num.q8_0 data)

/-- `f32_to_nvfp4`. -/
def f32ToNvfp4 (data : List Num) : Option (List UInt8) := do
  ensure (data.length % 64 = 0)
  some (s.num.nvfp4 data)

/-- What `mtp_fused_expert_slice` asks for: the stack, the projection, and the expert. -/
def fusedExpert (name : List Char) : Option (List Char × List Char × ℕ) := do
  if s.cfg.nextnPredictLayers = 0 then none
  else
    let nTrunk := s.cfg.nLayer - s.cfg.nextnPredictLayers
    let rest ← name.dropPrefix? "blk.".toList
    let (il, suffix) ← splitOnce rest '.'
    let il ← parseUint 32 il
    if il < nTrunk then none
    else
      let (proj, e) ← ["gate".toList, "up".toList, "down".toList].findSome? fun p => do
        let e ← suffix.dropPrefix? ("ffn_".toList ++ p ++ "_exps.".toList)
        let e ← e.dropSuffix? ".weight".toList
        let e ← parseUint 64 e
        some (p, e)
      let fused := if proj = "down".toList then "down_proj" else "gate_up_proj"
      some ("mtp.layers.".toList ++ (Nat.toDigits 10 (il - nTrunk) ++ ".mlp.experts.".toList ++ fused.toList),
        proj, e)

/-- The rows of a projection in its stack: where they begin, and how many. -/
def projRows (proj : List Char) (out : ℕ) : ℕ × ℕ :=
  if proj = "gate".toList then (0, out / 2) else if proj = "up".toList then (out / 2, out / 2) else (0, out)

/-- `mtp_fused_expert_slice`. -/
def mtpFusedExpertSlice (name : List Char) : Option (Option TensorView) :=
  match s.fusedExpert name with
  | none => some none
  | some (hf, proj, e) =>
    match s.lookup hf with
    | none => some none
    | some t =>
      match t.dtype, t.shape with
      | "BF16", [nE, out, inF] =>
        if nE ≤ e then some none
        else do
          let (row0, rows) := projRows proj out
          let slice ← readAt t.bytes ((e * (out * inF) + row0 * inF) * 2) (rows * inF * 2)
          let packed ← s.f32ToQ80 (bf16s slice)
          some (some ⟨.bytes packed, .Q8_0, [inF, rows]⟩)
      | _, _ => some none

/-- `raw_hf`. -/
def rawHf (hf : List Char) : Option (Option TensorView) :=
  match s.lookup hf with
  | none => some none
  | some t => do
    ensure (¬ "F8".toList.isPrefixOf t.dtype.toList = true)
    let ty ← stDtypeToGgml t.dtype
    some (some ⟨.bytes t.bytes, ty, t.ne⟩)

/-- `find` of `<stem>.scale`. -/
def findScale (stem : List Char) : Option (Option TensorView) :=
  match s.resolve (stem ++ ".weight".toList) with
  | none => some none
  | some target =>
    match target.hf.dropSuffix? ".weight".toList with
    | none => some none
    | some hfStem =>
      match s.lookup (hfStem ++ ".weight_scale_2".toList) with
      | some t => do
        let ty ← stDtypeToGgml t.dtype
        some (some ⟨.bytes t.bytes, ty, [1]⟩)
      | none =>
        match s.lookup (hfStem ++ ".weight_global_scale".toList) with
        | none => some none
        | some t =>
          if 4 ≤ t.bytes.length then
            some (some ⟨.values [inverted (fromLeBytes (t.bytes.take 4))], .F32, [1]⟩)
          else some none

/-- The F8 arms of `find`: NVFP4 when that is switched on and rows hold whole blocks, else Q8_0. -/
def requantF8 (data : List Num) (ne : List ℕ) : Option (Option TensorView) :=
  if s.env.nvW4 = true ∧ ne.headD 0 % 64 = 0 then do
    let out ← s.f32ToNvfp4 data
    some (some ⟨.bytes out, .NVFP4, ne⟩)
  else do
    let out ← s.f32ToQ80 data
    some (some ⟨.bytes out, .Q8_0, ne⟩)

/-- Hy3 changed the key of the correction bias. -/
def biasKey (name hf : List Char) : List Char :=
  if s.cfg.isHy3 = true ∧ ".exp_probs_b.bias".toList.isSuffixOf name ∧ s.lookup hf = none then
    let legacy := replaceAll ".mlp.expert_bias".toList ".mlp.router.expert_bias".toList hf.length hf
    if (s.lookup legacy).isSome then legacy else hf
  else hf

/-- A BF16 matrix of a million elements. -/
def isLargeBf16 (t : Tensor) : Bool := t.dtype == "BF16" && t.shape.length == 2 && 1000000 ≤ t.shape.prod

/-- The `Plain` arm of `find`. -/
def findPlain (hf : List Char) : Option (Option TensorView) :=
  match s.nvfp4Quant hf with
  | some q => do
    let packed ← repackModeloptToGguf q.wbytes q.wscale q.outF q.inF
    some (some ⟨.bytes packed, .NVFP4, [q.inF, q.outF]⟩)
  | none =>
    match s.lookup hf with
    | none => s.rawHf hf
    | some t =>
      if s.env.fullPrec = false ∧ isLargeBf16 t = true ∧ t.bytes.length / 2 % 32 = 0 then do
        let out ← s.f32ToQ80 (bf16s t.bytes)
        some (some ⟨.bytes out, .Q8_0, t.ne⟩)
      else
        match s.fp8Quant hf ((hf.dropSuffix? ".weight".toList).getD hf) with
        | some (t, outF, inF, scales) => do
          ensure (t.bytes.length % 32 = 0)
          let data ← f8DeqF32 t.bytes outF inF scales
          s.requantF8 data t.ne
        | none => s.rawHf hf

/-- Whether the name is one of the small matrices that are re-encoded all the same. -/
def isGate (hf : List Char) : Bool :=
  "in_proj_a.weight".toList.isSuffixOf hf || "in_proj_b.weight".toList.isSuffixOf hf

/-- What the `Transform` arm of `find` makes of reordered values. -/
def requant (hf : List Char) (ne : List ℕ) (vals : List Num) : Option (Option TensorView) :=
  let dtype := (s.lookup hf).map (·.dtype)
  if s.env.fullPrec = false ∧ dtype = some "BF16" ∧ ne.length = 2 ∧ ne.headD 0 % 32 = 0 ∧
      (1000000 ≤ ne.prod ∨ isGate hf = true) then do
    let out ← s.f32ToQ80 vals
    some (some ⟨.bytes out, .Q8_0, ne⟩)
  else if dtype = some "F8_E4M3" ∧ ne.length = 2 ∧ ne.headD 0 % 32 = 0 ∧ 1000000 ≤ ne.prod then
    s.requantF8 vals ne
  else some (some ⟨.values vals, .F32, ne⟩)

/-- The values of the `Transform` arm. -/
def findValues (hf : List Char) (kind : TransformKind) : Option (Option TensorView) := do
  match ← s.deqF32 hf with
  | none => some none
  | some (data, neIn) =>
    let (ne, vals) ← apply s.num.ops s.env.debug kind data neIn s.cfg.heads
    s.requant hf ne vals

/-- The `Transform` arm of `find`. -/
def findTransform (hf : List Char) (kind : TransformKind) : Option (Option TensorView) :=
  match s.nvfp4Quant hf with
  | some q => do
    let packed ← repackModeloptToGguf q.wbytes q.wscale q.outF q.inF
    match ← applyNvfp4 kind packed q.outF q.inF s.cfg.heads with
    | some (ne, bytes) => some (some ⟨.bytes bytes, .NVFP4, ne⟩)
    | none => s.findValues hf kind
  | none => s.findValues hf kind

/-- `find`. -/
def find (name : List Char) : Option (Option TensorView) := do
  match ← s.mtpFusedExpertSlice name with
  | some v => some (some v)
  | none =>
    match name.dropSuffix? ".scale".toList with
    | some stem => s.findScale stem
    | none =>
      match s.resolve name with
      | none => some none
      | some (.plain hf) => s.findPlain (s.biasKey name hf)
      | some (.transform hf kind) => s.findTransform hf kind

/-- `find_nvfp4_native`. -/
def findNvfp4Native (name : List Char) : Option Nvfp4Quant :=
  match s.resolve name with
  | some (.plain hf) => s.nvfp4Quant hf
  | _ => none

/-- The codes of folded scales: one scale for the tensor, from its largest magnitude. -/
def foldScales (data : List Num) : List UInt8 × Num :=
  let amax := data.foldl (fun a v => max a (|v.getD 0|)) 0
  let sc : Num := if 0 < amax then some (amax / 448) else some 1
  (data.map fun v => encodeE4m3 (div v sc), sc)

/-- The native codes of a transformed weight. -/
def fp8Transform (hf : List Char) (t : Tensor) (outF inF : ℕ) (scale : Num) (blk : Option F8BlockGrid)
    (kind : TransformKind) : Option (Option Fp8Native) :=
  match blk with
  | some grid => do
    match ← applyFp8Blk kind t.bytes outF inF grid.scales grid.cols s.cfg.heads with
    | some ([inF, outF], codes, ns, rows, cols) =>
      if inF % 16 = 0 ∧ outF % 16 = 0 then
        some (some ⟨codes, scale, some ⟨ns, rows, cols⟩, outF, inF⟩)
      else some none
    | _ => some none
  | none => do
    match ← s.deqF32 hf with
    | none => some none
    | some (data, neIn) =>
      let (ne, vals) ← apply s.num.ops s.env.debug kind data neIn s.cfg.heads
      match ne with
      | [inF, outF] =>
        if inF * outF < 1000000 ∨ inF % 16 ≠ 0 ∨ outF % 16 ≠ 0 then some none
        else some (some ⟨vals.map fun v => encodeE4m3 (div v scale), scale, none, outF, inF⟩)
      | _ => some none

/-- The scale and the grid that the native codes ride with: a block grid has the scale 1. -/
def nativeScale : F8Scales → Option (Option (Num × Option F8BlockGrid))
  | .perTensor sc => some (some (sc, none))
  | .perRow _ => some none
  | .block128 scales cols => do
    ensure (cols ≠ 0)
    some (some (some 1, some ⟨scales, scales.length / cols, cols⟩))

/-- `find_fp8_native`. -/
def findFp8Native (name : List Char) : Option (Option Fp8Native) :=
  match s.resolve name with
  | none => some none
  | some target =>
    match s.fp8Quant target.hf ((target.hf.dropSuffix? ".weight".toList).getD target.hf) with
    | none => some none
    | some (t, outF, inF, scales) =>
      match target with
      | .plain _ =>
        if scales.isBlock = true ∧ s.env.fp8Fold = true then
          if inF % 16 ≠ 0 ∨ outF % 16 ≠ 0 then some none
          else do
            let data ← f8DeqF32 t.bytes outF inF scales
            let (enc, sc) := foldScales data
            some (some ⟨enc, sc, none, outF, inF⟩)
        else do
          match ← nativeScale scales with
          | none => some none
          | some (scale, blk) =>
            if inF % 16 ≠ 0 ∨ outF % 16 ≠ 0 then some none
            else some (some ⟨t.bytes, scale, blk, outF, inF⟩)
      | .transform hf kind => do
        match ← nativeScale scales with
        | none => some none
        | some (scale, blk) => s.fp8Transform hf t outF inF scale blk kind

/-! ## The loader of the engine -/

/-- The scalar beside a weight, as `load_from_source_inner` reads it. -/
def macroScale (stem : List Char) : Option Num := do
  match ← s.find (stem ++ ".scale".toList) with
  | none => some (some 1)
  | some v =>
    match v.data with
    | .bytes b => if 4 ≤ b.length then some (fromLeBytes (b.take 4)) else none
    | .values x => x.head?

/-- The direct import of `load_from_source_inner`: the split planes, `ne`, and the scalar. -/
def loadDirect (name : List Char) : Option (Option (List UInt8 × List ℕ × Num)) :=
  match s.findNvfp4Native name with
  | none => some none
  | some nv =>
    if nv.inF % 64 = 0 ∧ 0 < nv.outF then do
      let scale ← s.macroScale ((name.dropSuffix? ".weight".toList).getD name)
      let bytes ← repackModeloptToSplit nv.wbytes nv.wscale nv.outF nv.inF
      some (some (bytes, [nv.inF, nv.outF], scale))
    else some none

/-! ## The weights that the arms stand for -/

/-- `deq_f32`, and then the transform of the target. -/
def dequantized (target : HfTarget) : Option (List ℕ × List Num) := do
  let (data, ne) ← (← s.deqF32 target.hf)
  match target with
  | .plain _ => some (ne, data)
  | .transform _ kind => apply s.num.ops s.env.debug kind data ne s.cfg.heads

end SafetensorsSource

/-- Values times a scalar. -/
def scaled (xs : List ℚ) (c : Num) : List Num := xs.map fun x => mul (some x) c

/-- What a view of NVFP4 blocks decodes to. -/
def TensorView.nvfp4Values (v : TensorView) : Option (List ℚ) :=
  match v.ggmlType, v.data with
  | .NVFP4, .bytes b => dequantNvfp4 b v.ne.prod
  | _, _ => none

/-- The codes of native FP8 times their scales. -/
def Fp8Native.values (v : Fp8Native) : Option (List Num) :=
  match v.blk with
  | none => f8DeqF32 v.bytes v.outF v.inF (.perTensor v.scale)
  | some g => (f8DeqF32 v.bytes v.outF v.inF (.block128 g.scales g.cols)).map
      (List.map fun x => mul x v.scale)

/-- A row holds whole blocks of the type, so that no block is in two rows. -/
def TensorView.WholeBlocks (v : TensorView) : Prop :=
  ∀ block size, v.ggmlType.blockAndTypeSize = some (block, size) → v.ne.headD 0 % block = 0

namespace SafetensorsSource
variable (s : SafetensorsSource)

/-- The blocks of `find` times the scalar beside them. -/
def blockWeight (stem : List Char) : Option (List ℕ × List Num) := do
  let v ← (← s.find (stem ++ ".weight".toList))
  let xs ← v.nvfp4Values
  let c ← s.macroScale stem
  some (v.ne, scaled xs c)

/-- The split planes of the direct import times the same scalar. -/
def splitWeight (stem : List Char) : Option (List ℕ × List Num) := do
  let (bytes, ne, c) ← (← s.loadDirect (stem ++ ".weight".toList))
  let outF ← ne[1]?
  let blocks ← unpackNvfp4Split bytes outF
  let xs ← dequantNvfp4 blocks ne.prod
  some (ne, scaled xs c)

end SafetensorsSource

end Memra.StSource
