import Memra.Gguf.Reader
import Memra.Lib.Fill
import Mathlib.Data.Rat.Cast.Order

/-!
# The NVFP4 repacks

`nvfp4_repack.rs` of `memra-gguf`, which turns a ModelOpt weight into GGUF blocks or into the split planes
of the engine, and from `model.rs` of `memra-engine` the split of GGUF blocks into these planes and its
inverse. A function fails where the source panics; an index into a sub-slice stands as the index into the
whole buffer. The reference dequantizers compute in `ℚ`: every product they form has at most eight
significant bits, so `f32` holds it.
-/

namespace Memra.Nvfp4

open Lib

/-! ## Codes and scales -/

def kvaluesMxfp4 : List ℚ := [0, 1, 2, 3, 4, 6, 8, 12, 0, -1, -2, -3, -4, -6, -8, -12]

/-- A UE4M3 byte as half its value. -/
def ue4m3ToF32 (x : UInt8) : ℚ :=
  if x = 0 ∨ x = 0x7F then 0
  else
    let exp : ℤ := ((x >>> 3) &&& 0xF).toNat
    let man : ℚ := (x &&& 0x7).toNat
    let raw : ℚ := if exp = 0 then man * 2 ^ (-9 : ℤ) else (1 + man / 8) * 2 ^ (exp - 7)
    raw * (1 / 2)

/-- The code of element `eLocal` of block `b` in a ModelOpt row. -/
def nib (wRow : List UInt8) (eLocal b : ℕ) : Option UInt8 := do
  let g := b * 64 + eLocal
  let byte ← wRow[g / 2]?
  pure (if g % 2 = 0 then byte &&& 0x0F else byte >>> 4)

/-! ## ModelOpt to GGUF and to split planes -/

/-- The two inner loops of both repacks: the 32 quant bytes of block `b`, written at `off`. -/
def packBlock (wRow : List UInt8) (b off : ℕ) (out : List UInt8) : Option (List UInt8) :=
  (List.range 4).foldlM (fun out s =>
    (List.range 8).foldlM (fun out j => do
      let lo ← nib wRow (s * 16 + j) b
      let hi ← nib wRow (s * 16 + j + 8) b
      overwrite out (off + (s * 8 + j)) [lo ||| hi <<< 4]) out) out

def repackModeloptToGguf (weight wscale : List UInt8) (outF inF : ℕ) : Option (List UInt8) := do
  ensure (inF % 64 = 0)
  let inBytes := inF / 2
  let sclBytes := inF / 16
  ensure (weight.length = outF * inBytes)
  ensure (wscale.length = outF * sclBytes)
  let nblk := inF / 64
  let rowBytes := nblk * 36
  (List.range outF).foldlM (fun out o => do
    let wRow ← readAt weight (o * inBytes) inBytes
    let sRow ← readAt wscale (o * sclBytes) sclBytes
    (List.range nblk).foldlM (fun out b => do
      let scales ← readAt sRow (b * 4) 4
      let out ← overwrite out (o * rowBytes + b * 36) scales
      packBlock wRow b (o * rowBytes + b * 36 + 4) out) out) (List.replicate (outF * rowBytes) 0)

def repackModeloptToSplit (weight wscale : List UInt8) (outF inF : ℕ) : Option (List UInt8) := do
  ensure (inF % 64 = 0)
  let inBytes := inF / 2
  let sclBytes := inF / 16
  ensure (weight.length = outF * inBytes)
  ensure (wscale.length = outF * sclBytes)
  let nblk := inF / 64
  let qplane := outF * nblk * 32
  let out := List.replicate (outF * nblk * 36) 0
  -- `copy_from_slice` wants the two lengths to agree
  ensure (qplane + wscale.length = out.length)
  let out ← overwrite out qplane wscale
  (List.range outF).foldlM (fun out o => do
    let wRow ← readAt weight (o * inBytes) inBytes
    (List.range nblk).foldlM (fun out b => packBlock wRow b ((o * nblk + b) * 32) out) out) out

/-! ## GGUF to split planes and back -/

/-- `debug`: the build has debug assertions. -/
def repackNvfp4Split (debug : Bool) (bytes : List UInt8) (outF : ℕ) : Option (List UInt8) := do
  -- a division by zero panics
  ensure (outF ≠ 0)
  let rowBytes := bytes.length / outF
  let nsb64 := rowBytes / 36
  ensure (debug = true → rowBytes % 36 = 0)
  let qplane := outF * nsb64 * 32
  (List.range outF).foldlM (fun rp o =>
    (List.range nsb64).foldlM (fun rp s => do
      let src ← readAt bytes (o * rowBytes + s * 36) 36
      let scales ← readAt src 0 4
      let rp ← overwrite rp (qplane + (o * nsb64 + s) * 4) scales
      let quants ← readAt src 4 32
      overwrite rp ((o * nsb64 + s) * 32) quants) rp) (List.replicate bytes.length 0)

def unpackNvfp4Split (rp : List UInt8) (outF : ℕ) : Option (List UInt8) := do
  ensure (outF ≠ 0)
  let rowBytes := rp.length / outF
  let nsb64 := rowBytes / 36
  let qplane := outF * nsb64 * 32
  (List.range outF).foldlM (fun back o =>
    (List.range nsb64).foldlM (fun back s => do
      let scales ← readAt rp (qplane + (o * nsb64 + s) * 4) 4
      let back ← overwrite back (o * rowBytes + s * 36) scales
      let quants ← readAt rp ((o * nsb64 + s) * 32) 32
      overwrite back (o * rowBytes + s * 36 + 4) quants) back) (List.replicate rp.length 0)

/-! ## The reference dequantizers -/

def dequantModeloptRow (weightRow wscaleRow : List UInt8) (inF : ℕ) : Option (List ℚ) :=
  (List.range inF).foldlM (fun out e => do
    let byte ← weightRow[e / 2]?
    let code := if e % 2 = 0 then byte &&& 0x0F else byte >>> 4
    let kvalue ← kvaluesMxfp4[code.toNat]?
    let scale ← wscaleRow[e / 16]?
    let stdCode := kvalue * (1 / 2)
    let rawUe4m3 := ue4m3ToF32 scale * 2
    overwrite out e [stdCode * rawUe4m3]) (List.replicate inF 0)

def dequantGgufRow (row : List UInt8) (inF : ℕ) : Option (List ℚ) :=
  let nb := inF / 64
  (List.range nb).foldlM (fun out i => do
    let dBytes ← readAt row (i * 36) 4
    let qs ← readAt row (i * 36 + 4) 32
    (List.range 4).foldlM (fun out s => do
      let scale ← dBytes[s]?
      let d := ue4m3ToF32 scale
      let yb := i * 64 + s * 16
      (List.range 8).foldlM (fun out j => do
        let byte ← qs[s * 8 + j]?
        let lo ← kvaluesMxfp4[(byte &&& 0x0F).toNat]?
        let out ← overwrite out (yb + j) [lo * d]
        let hi ← kvaluesMxfp4[(byte >>> 4).toNat]?
        overwrite out (yb + j + 8) [hi * d]) out) out) (List.replicate inF 0)

/-- Row `o` of a matrix whose rows have `width` bytes. -/
def row (bytes : List UInt8) (width o : ℕ) : List UInt8 := (bytes.drop (o * width)).take width

/-! ## Where the elements stand

The elements of a matrix are counted row by row, and every 16 of them have one scale. A row has whole
blocks, so the place of an element does not depend on the width. -/

/-- The half of a byte that `at_` names. -/
def halfAt (bytes : List UInt8) (at_ : ℕ × Bool) : Option UInt8 :=
  bytes[at_.1]?.map fun (b : UInt8) => if at_.2 then b >>> 4 else b &&& 0x0F

/-- A layout of codes and scales in a buffer: the half byte of each element, the byte of each group. -/
structure Layout where
  code : ℕ → ℕ × Bool
  scale : ℕ → ℕ

/-- The ModelOpt weight of `n` elements, followed by its scales. -/
def modeloptLayout (n : ℕ) : Layout where
  code i := (i / 2, i % 2 = 1)
  scale g := n / 2 + g

def ggufLayout : Layout where
  code i := (i / 64 * 36 + 4 + i % 64 / 16 * 8 + i % 8, 8 ≤ i % 16)
  scale g := g / 4 * 36 + g % 4

def splitLayout (n : ℕ) : Layout where
  code i := (i / 64 * 32 + i % 64 / 16 * 8 + i % 8, 8 ≤ i % 16)
  scale g := n / 2 + g

/-- The codes and scales of `n` elements fill `len` bytes: each byte is the scale of one group, or each
of its halves the code of one element. -/
structure Layout.Tiles (l : Layout) (n len : ℕ) : Prop where
  code_lt : ∀ i, i < n → (l.code i).1 < len
  scale_lt : ∀ g, g < n / 16 → l.scale g < len
  once : ∀ p, p < len →
    ((∃! g, g < n / 16 ∧ l.scale g = p) ∧ ∀ i h, i < n → l.code i ≠ (p, h)) ∨
      ((∀ h, ∃! i, i < n ∧ l.code i = (p, h)) ∧ ∀ g, g < n / 16 → l.scale g ≠ p)

/-- Two buffers hold the same code of every element and the same scale of every group. -/
def SameElements (n : ℕ) (l : Layout) (bytes : List UInt8) (l' : Layout) (bytes' : List UInt8) : Prop :=
  (∀ i, i < n → halfAt bytes (l.code i) = halfAt bytes' (l'.code i)) ∧
    ∀ g, g < n / 16 → bytes[l.scale g]? = bytes'[l'.scale g]?

end Memra.Nvfp4
