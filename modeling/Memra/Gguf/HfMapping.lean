import Memra.Gguf.Nvfp4
import Memra.Lib.Chunks

/-!
# The V-head reorders

`TransformKind` of `hf_mapping.rs`: on dequantized values (`apply`), on the packed bytes of an NVFP4 weight
(`applyNvfp4`, with the byte moves of `nvfp4_repack.rs`) and on the codes and the scale grid of a block-128
FP8 weight (`applyFp8Blk`). A result is `none` where the source panics, and what the source returns as
`None` is `some none`. The values of the `f32` side have any type; the bytes that `f32_to_le` makes of them
stay a list of values. `debug`: the build has debug assertions.
-/

namespace Memra.HfMapping

open Lib Nvfp4

/-- `cfg.ssm`, as far as the transforms read it. -/
structure SsmConfig where
  stateSize : ℕ
  timeStepRank : ℕ
  groupCount : ℕ

structure ModelConfig where
  ssm : Option SsmConfig

/-- The head geometry: key heads, value heads, and their dimensions. -/
structure HeadParams where
  nk : ℕ
  nv : ℕ
  hk : ℕ
  hv : ℕ

def headParams (cfg : ModelConfig) : Option HeadParams :=
  cfg.ssm.map fun ssm =>
    { nk := ssm.groupCount, nv := ssm.timeStepRank, hk := ssm.stateSize, hv := ssm.stateSize }

inductive TransformKind
  | negExpReorderHeads
  | reorderHeads
  | identity
  | normPlusOne
  | conv1dSqueezeReorder
  | qkvVReorderRows
  | zReorderRows
  | abReorderRows
  | outReorderCols
  deriving DecidableEq

/-! ## The moves -/

section
variable {α : Type}

/-- One contiguous V axis. -/
def reorderVAxis [Inhabited α] (debug : Bool) (block : List α) (nv nk headDim : ℕ) :
    Option (List α) := do
  ensure (nk ≠ 0)
  let numVPerK := nv / nk
  ensure (debug = true → block.length = nv * headDim)
  (List.range numVPerK).foldlM (fun out j => (List.range nk).foldlM (fun out g => do
    let dst := (j * nk + g) * headDim
    let src := (g * numVPerK + j) * headDim
    let xs ← readAt block src headDim
    overwrite out dst xs) out) (List.replicate block.length default)

/-- The loops of `reorder_rows_v` and `reorder_rows_nvfp4`: a row has `width` cells. -/
def moveRows (data : List α) (nv nk headDim width rowLo : ℕ) : Option (List α) := do
  ensure (nk ≠ 0)
  let numVPerK := nv / nk
  (List.range numVPerK).foldlM (fun out j => (List.range nk).foldlM (fun out g => do
    let dstHead := j * nk + g
    let srcHead := g * numVPerK + j
    (List.range headDim).foldlM (fun out d => do
      let dstRow := rowLo + dstHead * headDim + d
      let srcRow := rowLo + srcHead * headDim + d
      let xs ← readAt data (srcRow * width) width
      overwrite out (dstRow * width) xs) out) out) data

def reorderRowsV (debug : Bool) (data : List α) (nv nk headDim inF rowLo rowHi : ℕ) :
    Option (List α) := do
  ensure (debug = true → rowLo ≤ rowHi ∧ rowHi - rowLo = nv * headDim)
  moveRows data nv nk headDim inF rowLo

def reorderRowsNvfp4 (packed : List UInt8) (outF rowBytes nv nk headDim rowLo rowHi : ℕ) :
    Option (List UInt8) := do
  ensure (packed.length = outF * rowBytes)
  ensure (rowLo ≤ rowHi ∧ rowHi - rowLo = nv * headDim)
  moveRows packed nv nk headDim rowBytes rowLo

def reorderColsV (debug : Bool) (data : List α) (outRows inF nv nk headDim : ℕ) : Option (List α) := do
  ensure (nk ≠ 0)
  let numVPerK := nv / nk
  ensure (debug = true → inF = nv * headDim)
  (List.range outRows).foldlM (fun out r => (List.range numVPerK).foldlM (fun out j =>
    (List.range nk).foldlM (fun out g => do
      let dstHead := j * nk + g
      let srcHead := g * numVPerK + j
      (List.range headDim).foldlM (fun out d => do
        let x ← data[r * inF + srcHead * headDim + d]?
        overwrite out (r * inF + dstHead * headDim + d) [x]) out) out) out) data

def reorderColsNvfp4 (packed : List UInt8) (outF inF nv nk headDim : ℕ) : Option (List UInt8) := do
  ensure (inF = nv * headDim)
  ensure (headDim % 64 = 0)
  let blocksPerHead := headDim / 64
  let rowBytes := inF / 64 * 36
  ensure (packed.length = outF * rowBytes)
  ensure (nk ≠ 0)
  let numVPerK := nv / nk
  let headBytes := blocksPerHead * 36
  (List.range outF).foldlM (fun out r => (List.range numVPerK).foldlM (fun out j =>
    (List.range nk).foldlM (fun out g => do
      let dstHead := j * nk + g
      let srcHead := g * numVPerK + j
      let xs ← readAt packed (r * rowBytes + srcHead * headBytes) headBytes
      overwrite out (r * rowBytes + dstHead * headBytes) xs) out) out) packed

end

/-! ## On dequantized values -/

/-- What the value transforms compute on an element. -/
structure F32Ops (V : Type) where
  addOne : V → V
  negExp : V → V

section
variable {V : Type} [Inhabited V]

def apply (F : F32Ops V) (debug : Bool) (kind : TransformKind) (data : List V) (neIn : List ℕ)
    (cfg : ModelConfig) : Option (List ℕ × List V) := do
  let p ← headParams cfg
  match kind with
  | .identity => pure (neIn, data)
  | .normPlusOne => pure (neIn, data.map F.addOne)
  | .negExpReorderHeads => do
    let out ← reorderVAxis debug (data.map F.negExp) p.nv p.nk 1
    pure (neIn, out)
  | .reorderHeads => do
    let out ← reorderVAxis debug data p.nv p.nk 1
    pure (neIn, out)
  | .abReorderRows => do
    let inF ← neIn[0]?
    let out ← reorderRowsV debug data p.nv p.nk 1 inF 0 p.nv
    pure (neIn, out)
  | .zReorderRows => do
    let inF ← neIn[0]?
    let totalOut ← neIn[1]?
    let out ← reorderRowsV debug data p.nv p.nk p.hv inF 0 totalOut
    pure (neIn, out)
  | .qkvVReorderRows => do
    let inF ← neIn[0]?
    let convDim ← neIn[1]?
    let qk := p.nk * p.hk
    let out ← reorderRowsV debug data p.nv p.nk p.hv inF (2 * qk) convDim
    pure (neIn, out)
  | .conv1dSqueezeReorder => do
    let k ← neIn[0]?
    let c := (neIn.drop 1).prod
    let qk := p.nk * p.hk
    let out ← reorderRowsV debug data p.nv p.nk p.hv k (2 * qk) c
    pure ([k, c], out)
  | .outReorderCols => do
    let valueDim ← neIn[0]?
    let hidden ← neIn[1]?
    let out ← reorderColsV debug data hidden valueDim p.nv p.nk p.hv
    pure (neIn, out)

end

/-! ## On packed NVFP4 bytes -/

def applyNvfp4 (kind : TransformKind) (packed : List UInt8) (outF inF : ℕ) (cfg : ModelConfig) :
    Option (Option (List ℕ × List UInt8)) := do
  let p ← headParams cfg
  let rowBytes := inF / 64 * 36
  let ne := [inF, outF]
  match kind with
  | .qkvVReorderRows => do
    let qk := p.nk * p.hk
    let out ← reorderRowsNvfp4 packed outF rowBytes p.nv p.nk p.hv (2 * qk) outF
    pure (some (ne, out))
  | .zReorderRows => do
    let out ← reorderRowsNvfp4 packed outF rowBytes p.nv p.nk p.hv 0 outF
    pure (some (ne, out))
  | .abReorderRows => do
    let out ← reorderRowsNvfp4 packed outF rowBytes p.nv p.nk 1 0 outF
    pure (some (ne, out))
  | .outReorderCols => do
    let out ← reorderColsNvfp4 packed outF inF p.nv p.nk p.hv
    pure (some (ne, out))
  | _ => pure none

/-- `dequant_nvfp4` of `dequant.rs` has the loops of `dequant_gguf_row`, over a whole tensor. -/
def dequantNvfp4 (raw : List UInt8) (n : ℕ) : Option (List ℚ) := dequantGgufRow raw n

/-! ## On block-128 FP8 codes and scales -/

/-- The reorder as a list of sources, the identity outside `[lo, hi)`. -/
def vPerm (n nv nk headDim lo hi : ℕ) : Option (Option (List ℕ)) :=
  if n < hi ∨ hi < lo ∨ hi - lo ≠ nv * headDim then some none
  else do
    ensure (nk ≠ 0)
    if nv % nk ≠ 0 then some none
    else do
      let vpk := nv / nk
      let p ← (List.range vpk).foldlM (fun p j => (List.range nk).foldlM (fun p g => do
        let dstHead := j * nk + g
        let srcHead := g * vpk + j
        (List.range headDim).foldlM (fun p d =>
          overwrite p (lo + dstHead * headDim + d) [lo + srcHead * headDim + d]) p) p) (List.range n)
      some (some p)

/-- What a slot of `block128_perm` holds before a block is in it: no block index is as large. -/
def usizeMax : ℕ := 2 ^ 64 - 1

/-- One turn of the loop of `block128_perm`. A slot is `none` while it holds `usizeMax`. -/
def block128Turn (perm : List ℕ) (out : List (Option ℕ)) (d : ℕ) : Option (List (Option ℕ)) := do
  let s ← perm[d]?
  let slot ← out[d / 128]?
  match slot with
  | none => overwrite out (d / 128) [some (s / 128)]
  | some b => if b ≠ s / 128 then none else some out

def block128Perm (perm : List ℕ) : Option (List ℕ) := do
  let out ← (List.range perm.length).foldlM (block128Turn perm)
    (List.replicate (divCeil perm.length 128) none)
  pure (out.map fun slot => slot.getD usizeMax)

/-- The axis that a kind reorders, `true` for the rows, and the permutation of it. -/
def axisPerm (kind : TransformKind) (outF inF : ℕ) (p : HeadParams) : Option (Option (Bool × List ℕ)) :=
  let axis (row : Bool) (perm : Option (Option (List ℕ))) := perm.map fun q => q.map fun q => (row, q)
  match kind with
  | .qkvVReorderRows => axis true (vPerm outF p.nv p.nk p.hv (2 * p.nk * p.hk) outF)
  | .zReorderRows => axis true (vPerm outF p.nv p.nk p.hv 0 outF)
  | .abReorderRows => axis true (vPerm outF p.nv p.nk 1 0 outF)
  | .outReorderCols => axis false (vPerm inF p.nv p.nk p.hv 0 inF)
  | _ => some none

section
variable {α S V : Type} [Inhabited α] [Inhabited S] [Inhabited V]

/-- The loop of `apply_fp8_blk` over the rows of the codes, and the one over those of the grid. -/
def gatherRows (data : List α) (perm : List ℕ) (width : ℕ) : Option (List α) :=
  (List.range perm.length).foldlM (fun out d => do
    let s ← perm[d]?
    let xs ← readAt data (s * width) width
    overwrite out (d * width) xs) (List.replicate data.length default)

/-- The same over the columns of each of `rows` rows. -/
def gatherCols (data : List α) (perm : List ℕ) (rows width : ℕ) : Option (List α) :=
  (List.range rows).foldlM (fun out o => (List.range perm.length).foldlM (fun out d => do
    let s ← perm[d]?
    let x ← data[o * width + s]?
    overwrite out (o * width + d) [x]) out) (List.replicate data.length default)

/-- The loops of one axis over the codes and over the grid. -/
def permuteBlk (rowAxis : Bool) (perm bperm : List ℕ) (codes : List UInt8) (outF inF : ℕ)
    (scales : List S) (rows cols : ℕ) : Option (List UInt8 × List S) :=
  if rowAxis then do
    let nc ← gatherRows codes perm inF
    let ns ← gatherRows scales bperm cols
    pure (nc, ns)
  else do
    let nc ← gatherCols codes perm outF inF
    let ns ← gatherCols scales bperm rows cols
    pure (nc, ns)

def applyFp8Blk (kind : TransformKind) (codes : List UInt8) (outF inF : ℕ) (scales : List S) (cols : ℕ)
    (cfg : ModelConfig) : Option (Option (List ℕ × List UInt8 × List S × ℕ × ℕ)) := do
  let p ← headParams cfg
  if codes.length ≠ outF * inF ∨ cols ≠ divCeil inF 128 then some none
  else
    let rows := divCeil outF 128
    if scales.length ≠ rows * cols then some none
    else
      let ne := [inF, outF]
      match ← axisPerm kind outF inF p with
      | none => some none
      | some (rowAxis, perm) =>
        match block128Perm perm with
        | none => some none
        | some bperm => do
          let (nc, ns) ← permuteBlk rowAxis perm bperm codes outF inF scales rows cols
          some (some (ne, nc, ns, rows, cols))

/-- The chunks of row `o` from column `e` on: the scale is read once for each of them. -/
def f8Chunks (deq : UInt8 → S → V) (bytes : List UInt8) (inF : ℕ) (scales : List S) (cols o e : ℕ)
    (data : List V) : Option (List V) :=
  if e < inF then do
    let stop := min (e + 128 - e % 128) inF
    let s ← scales[o / 128 * cols + e / 128]?
    let data ← (List.range (stop - e)).foldlM (fun data k => do
      let c ← bytes[o * inF + (e + k)]?
      overwrite data (o * inF + (e + k)) [deq c s]) data
    f8Chunks deq bytes inF scales cols o stop data
  else some data
termination_by inF - e
decreasing_by omega

/-- `f8_deq_f32` of `source.rs` on a block-128 weight. `deq` multiplies the value of a code by a scale. -/
def f8DeqF32 (deq : UInt8 → S → V) (bytes : List UInt8) (outF inF : ℕ) (scales : List S) (cols : ℕ) :
    Option (List V) :=
  (List.range outF).foldlM (fun data o => f8Chunks deq bytes inF scales cols o 0 data)
    (List.replicate (outF * inF) default)

end

end Memra.HfMapping
