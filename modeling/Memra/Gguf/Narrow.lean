import Memra.Lib.BinaryFormat

/-!
# Float narrowing

`f32_to_f16_bits` and `f32_to_fp8_e4m3` of `nvfp4_repack.rs`. A float is its bits. The values that the `f32`
operations of the latter see are rationals, with every subtraction rounded; the products that decode an
e4m3 code are exact.
-/

namespace Memra.Nvfp4

open Lib

def f32 : BinaryFormat := { bits := 31, man := 23, bias := 127 }

/-- Code `0x7C00` is infinity; its magnitude here is the next one after the largest finite. -/
def f16 : BinaryFormat := { bits := 15, man := 10, bias := 15 }

def e4m3 : BinaryFormat := { bits := 7, man := 3, bias := 7 }

/-- Neither infinite nor NaN. -/
def Finite32 (x : UInt32) : Prop := x.toNat / 2 ^ 23 % 2 ^ 8 ≠ 255

instance (x : UInt32) : Decidable (Finite32 x) := inferInstanceAs (Decidable (_ ≠ _))

def f32ToF16Bits (x : UInt32) : UInt16 :=
  let sign : UInt16 := ((x >>> 16) &&& 0x8000).toUInt16
  let exp : ℤ := ((x >>> 23) &&& 0xFF).toNat
  let man : UInt32 := x &&& 0x7FFFFF
  if exp = 0xFF then sign ||| 0x7C00 ||| (if man ≠ 0 then 0x200 else 0)
  else
    let e16 := exp - 127 + 15
    if 0x1F ≤ e16 then sign ||| 0x7C00
    else if e16 ≤ 0 then
      if e16 < -10 then sign
      else
        let man24 := man ||| 0x800000
        let shift : UInt32 := UInt32.ofNat (14 - e16).toNat
        let halfMan := man24 >>> shift
        let round := (man24 >>> (shift - 1)) &&& 1
        let sticky := man24 &&& ((1 <<< (shift - 1)) - 1) ≠ 0
        let m := if round = 1 ∧ (sticky ∨ halfMan &&& 1 = 1) then halfMan + 1 else halfMan
        sign ||| m.toUInt16
    else
      let m : UInt16 := (man >>> 13).toUInt16
      let round := (man >>> 12) &&& 1
      let sticky := man &&& 0xFFF ≠ 0
      let e : UInt16 := UInt16.ofNat e16.toNat
      if round = 1 ∧ (sticky ∨ m &&& 1 = 1) then
        let m := m + 1
        if m = 0x400 then
          let e := e + 1
          if 0x1F ≤ e then sign ||| 0x7C00 else sign ||| (e <<< 10) ||| 0
        else sign ||| (e <<< 10) ||| m
      else sign ||| (e <<< 10) ||| m

def fp8E4m3ToF32 (x : UInt8) : ℚ :=
  let mag := x &&& 0x7F
  if mag = 0x7F then 0
  else
    let sign : ℚ := if x &&& 0x80 ≠ 0 then -1 else 1
    let exp : ℤ := ((mag >>> 3) &&& 0xF).toNat
    let man : ℚ := (mag &&& 0x7).toNat
    let raw : ℚ := if exp = 0 then man / 8 * 2 ^ (-6 : ℤ) else (1 + man / 8) * 2 ^ (exp - 7)
    sign * raw

/-- `TABLE`: the magnitudes of the codes `0..=0x7E`. -/
def e4m3Table (c : ℕ) : ℚ := fp8E4m3ToF32 (UInt8.ofNat c)

/-- The binary search, between a position at or below `ax` and one above. -/
def e4m3Search (ax : ℚ) (lo hi : ℕ) : ℕ × ℕ :=
  if lo + 1 < hi then
    let mid := (lo + hi) / 2
    if e4m3Table mid ≤ ax then e4m3Search ax mid hi else e4m3Search ax lo mid
  else (lo, hi)
termination_by hi - lo

def f32ToFp8E4m3 (x : UInt32) : UInt8 :=
  let mag := (x &&& 0x7FFFFFFF).toNat
  -- a NaN; an infinity stands as the next magnitude after the largest finite
  if 0x7F800000 < mag then 0
  else
    let sign : UInt8 := if x >>> 31 ≠ 0 then 0x80 else 0
    let ax := f32.mag mag
    if ax = 0 then 0
    else if e4m3Table 126 ≤ ax then sign ||| 0x7E
    else
      let (lo, hi) := e4m3Search ax 0 126
      let dl := f32.round (ax - e4m3Table lo)
      let dh := f32.round (e4m3Table hi - ax)
      let c := if dl < dh then lo else if dh < dl then hi else if lo % 2 = 0 then lo else hi
      if c = 0 then 0 else sign ||| UInt8.ofNat c

end Memra.Nvfp4
