import Memra.Gguf.Nvfp4

/-!
# NVFP4 repacks keep every element

Each repack is a loop nest that fills its buffer, so it is known by the byte it writes at each position:
`ggufByte`, `splitByte`. A quant byte joins the codes of two elements (`quantByte`), and its halves give
them back (`halves_join`). With the positions of the layouts this says that every element keeps its code and
every group its scale (`gguf_sameElements`, `split_sameElements`), in layouts that fill their buffers
(`gguf_tiles`, `split_tiles`). A dequantizer reads an element at these positions, so the values agree
(`repack_rows`), and so do the two ways to the split planes (`repackNvfp4Split_repack`).
-/

namespace Memra.Nvfp4

open Lib

/-! ## Halves of a byte -/

theorem low_lt (b : UInt8) : (b &&& 0x0F).toNat < 16 := by
  rw [UInt8.toNat_and]
  exact Nat.lt_succ_of_le Nat.and_le_right

theorem high_lt (b : UInt8) : (b >>> 4).toNat < 16 := by
  rw [UInt8.toNat_shiftRight]
  have := b.toNat_lt
  simp only [UInt8.reduceToNat, Nat.reduceMod, Nat.shiftRight_eq_div_pow]
  omega

theorem halves_join_fin : ∀ a b : Fin 16,
    (UInt8.ofNat a ||| UInt8.ofNat b <<< 4) &&& 0x0F = UInt8.ofNat a ∧
      (UInt8.ofNat a ||| UInt8.ofNat b <<< 4) >>> 4 = UInt8.ofNat b := by decide

/-- The halves of a byte joined from two codes are these codes. -/
theorem halves_join {a b : UInt8} (ha : a.toNat < 16) (hb : b.toNat < 16) :
    (a ||| b <<< 4) &&& 0x0F = a ∧ (a ||| b <<< 4) >>> 4 = b := by
  simpa using halves_join_fin ⟨a.toNat, ha⟩ ⟨b.toNat, hb⟩

theorem halfAt_lt {bytes : List UInt8} {at_ : ℕ × Bool} {c : UInt8} (h : halfAt bytes at_ = some c) :
    c.toNat < 16 := by
  obtain ⟨b, -, rfl⟩ := Option.map_eq_some_iff.1 h
  split
  · exact high_lt b
  · exact low_lt b

theorem halfAt_isSome (bytes : List UInt8) (at_ : ℕ × Bool) (h : at_.1 < bytes.length) :
    ∃ c, halfAt bytes at_ = some c := by
  simp [halfAt, List.getElem?_eq_getElem h]

theorem getElem?_eq_getD {xs : List UInt8} {i : ℕ} (h : i < xs.length) : xs[i]? = some (xs.getD i 0) := by
  simp [h]

/-! ## The byte at each position -/

/-- The code of element `i` of a ModelOpt weight. -/
def codeOf (weight : List UInt8) (i : ℕ) : UInt8 := (halfAt weight (i / 2, i % 2 = 1)).getD 0

/-- Quant byte `q`: the elements `j` and `j + 8` of a group of 16. -/
def quantByte (weight : List UInt8) (q : ℕ) : UInt8 :=
  codeOf weight (q / 8 * 16 + q % 8) ||| codeOf weight (q / 8 * 16 + q % 8 + 8) <<< 4

def ggufByte (weight wscale : List UInt8) (p : ℕ) : UInt8 :=
  if p % 36 < 4 then wscale.getD (p / 36 * 4 + p % 36) 0
  else quantByte weight (p / 36 * 32 + (p % 36 - 4))

/-- The quant plane has `qplane` bytes. -/
def splitByte (weight wscale : List UInt8) (qplane p : ℕ) : UInt8 :=
  if p < qplane then quantByte weight p else wscale.getD (p - qplane) 0

theorem codeOf_lt (weight : List UInt8) (i : ℕ) : (codeOf weight i).toNat < 16 := by
  unfold codeOf
  cases h : halfAt weight (i / 2, i % 2 = 1) with
  | none => decide
  | some c => exact halfAt_lt h

theorem quantByte_halves (weight : List UInt8) (q : ℕ) :
    quantByte weight q &&& 0x0F = codeOf weight (q / 8 * 16 + q % 8) ∧
      quantByte weight q >>> 4 = codeOf weight (q / 8 * 16 + q % 8 + 8) :=
  halves_join (codeOf_lt weight _) (codeOf_lt weight _)

/-! ## The repacks -/

variable {weight wscale : List UInt8} {outF nblk o b n : ℕ} {f : ℕ → UInt8}

/-- `nib` in row `o` reads an element of the matrix. -/
theorem nib_row (hw : weight.length = outF * nblk * 32) (ho : o < outF) (hb : b < nblk) {e : ℕ}
    (he : e < 64) : nib ((weight.drop (o * nblk * 32)).take (nblk * 32)) e b =
      some (codeOf weight ((o * nblk + b) * 64 + e)) := by
  have hlt := row_col_lt ho hb
  have hpos : (o * nblk + b) * 32 + e / 2 < weight.length := by omega
  have hdiv : ((o * nblk + b) * 64 + e) / 2 = (o * nblk + b) * 32 + e / 2 := by omega
  have hmod : ((o * nblk + b) * 64 + e) % 2 = e % 2 := by omega
  have hrow : o * nblk * 32 + (b * 64 + e) / 2 = (o * nblk + b) * 32 + e / 2 := by omega
  have hnib : (b * 64 + e) % 2 = e % 2 := by omega
  rw [nib, getElem?_slice (by omega), hrow, codeOf, halfAt, hdiv, hmod, hnib,
    List.getElem?_eq_getElem hpos]
  rcases Nat.mod_two_eq_zero_or_one e with h0 | h1
  · simp [h0]
  · simp [h1]

theorem packBlock_fills (hw : weight.length = outF * nblk * 32) (ho : o < outF) (hb : b < nblk)
    {off : ℕ} (hoff : off + 32 ≤ n)
    (hf : ∀ k, k < 32 → f (off + k) = quantByte weight ((o * nblk + b) * 32 + k)) :
    Fills n f (fun i => off ≤ i ∧ i < off + 32)
      (packBlock ((weight.drop (o * nblk * 32)).take (nblk * 32)) b off) := by
  refine (Fills.loop (R := fun s i => ∃ j, j < 8 ∧ i = off + (s * 8 + j)) fun s hs =>
    Fills.loop (R := fun j i => i = off + (s * 8 + j)) fun j hj => ?_).mono fun i _ => ?_
  · refine (fills_set (i := off + (s * 8 + j)) (by omega) (hf (s * 8 + j) (by omega)).symm).congr
      fun out => ?_
    rw [nib_row hw ho hb (by omega), nib_row hw ho hb (by omega), quantByte]
    have hlo : ((o * nblk + b) * 32 + (s * 8 + j)) / 8 * 16 + ((o * nblk + b) * 32 + (s * 8 + j)) % 8 =
        (o * nblk + b) * 64 + (s * 16 + j) := by omega
    rw [hlo, Nat.add_assoc _ (s * 16 + j) 8]
    rfl
  · constructor
    · rintro ⟨s, hs, j, hj, rfl⟩
      omega
    · rintro ⟨hlo, hhi⟩
      exact ⟨(i - off) / 8, by omega, (i - off) % 8, by omega, by omega⟩

theorem repackModeloptToGguf_eq (hw : weight.length = outF * nblk * 32)
    (hs : wscale.length = outF * nblk * 4) :
    repackModeloptToGguf weight wscale outF (64 * nblk) =
      some ((List.range (outF * nblk * 36)).map (ggufByte weight wscale)) := by
  have hin : 64 * nblk % 64 = 0 := by omega
  have hinB : 64 * nblk / 2 = nblk * 32 := by omega
  have hsclB : 64 * nblk / 16 = nblk * 4 := by omega
  have hnblk : 64 * nblk / 64 = nblk := by omega
  unfold repackModeloptToGguf
  simp only [ensure, hin, hinB, hsclB, hnblk, ← Nat.mul_assoc, hw, hs, if_true, Option.bind_eq_bind,
    Option.bind_some]
  refine Fills.all (R := fun i => ∃ o, o < outF ∧ ∃ b, b < nblk ∧ (o * nblk + b) * 36 ≤ i ∧
    i < (o * nblk + b) * 36 + 36) (Fills.loop fun o ho => ?_) (fun i hi => ?_) (by simp)
  · have hrow := row_add_le (w := nblk) ho
    rw [readAt_eq (by omega), readAt_eq (by omega)]
    simp only [Option.bind_some]
    refine Fills.loop fun b hb => ?_
    have hlt := row_col_lt ho hb
    refine (Fills.copyThen ?_ ?_ ?_ (packBlock_fills hw ho hb ?_ ?_)).mono fun i _ => ?_
    · omega
    · rw [length_slice (by omega)]
      omega
    · intro k hk
      have hmod : (o * nblk * 36 + b * 36 + k) % 36 = k := by omega
      have hdiv : (o * nblk * 36 + b * 36 + k) / 36 = o * nblk + b := by omega
      have hscale : o * nblk * 4 + (b * 4 + k) = (o * nblk + b) * 4 + k := by omega
      rw [getElem?_slice (by omega), ggufByte, hmod, hdiv, if_pos hk, hscale,
        getElem?_eq_getD (by omega)]
    · omega
    · intro k hk
      have hmod : (o * nblk * 36 + b * 36 + 4 + k) % 36 = 4 + k := by omega
      have hdiv : (o * nblk * 36 + b * 36 + 4 + k) / 36 = o * nblk + b := by omega
      rw [ggufByte, hmod, hdiv, if_neg (by omega), Nat.add_sub_cancel_left]
    · omega
  · obtain ⟨o, ho, b, hb, h⟩ := exists_row_col (m := outF) (w := nblk) (i := i / 36) (by omega)
    exact ⟨o, ho, b, hb, by omega, by omega⟩

theorem repackModeloptToSplit_eq (hw : weight.length = outF * nblk * 32)
    (hs : wscale.length = outF * nblk * 4) :
    repackModeloptToSplit weight wscale outF (64 * nblk) = some
      ((List.range (outF * nblk * 36)).map (splitByte weight wscale (outF * nblk * 32))) := by
  have hin : 64 * nblk % 64 = 0 := by omega
  have hinB : 64 * nblk / 2 = nblk * 32 := by omega
  have hsclB : 64 * nblk / 16 = nblk * 4 := by omega
  have hnblk : 64 * nblk / 64 = nblk := by omega
  have hfull : outF * nblk * 32 + outF * nblk * 4 = outF * nblk * 36 := by omega
  unfold repackModeloptToSplit
  simp only [ensure, hin, hinB, hsclB, hnblk, ← Nat.mul_assoc, hw, hs, List.length_replicate, hfull,
    if_true, Option.bind_eq_bind, Option.bind_some]
  refine Fills.all ((fills_overwrite (by omega) fun k hk => ?_).andThen (Fills.loop
    (R := fun o i => ∃ b, b < nblk ∧ (o * nblk + b) * 32 ≤ i ∧ i < (o * nblk + b) * 32 + 32)
    fun o ho => ?_)) (fun i hi => ?_) (by simp)
  · rw [splitByte, if_neg (by omega), Nat.add_sub_cancel_left, getElem?_eq_getD hk]
  · have hrow := row_add_le (w := nblk) ho
    rw [readAt_eq (by omega)]
    simp only [Option.bind_some]
    refine Fills.loop fun b hb => ?_
    have hlt := row_col_lt ho hb
    exact packBlock_fills hw ho hb (by omega) fun k hk => by rw [splitByte, if_pos (by omega)]
  · rcases Nat.lt_or_ge i (outF * nblk * 32) with hlt | hge
    · obtain ⟨o, ho, b, hb, h⟩ := exists_row_col (m := outF) (w := nblk) (i := i / 32) (by omega)
      exact Or.inr ⟨o, ho, b, hb, by omega, by omega⟩
    · exact Or.inl (by omega)

/-! ## The split planes -/

/-- The byte of the GGUF blocks that stands at `p` of the split planes. -/
def blockPos (qplane p : ℕ) : ℕ :=
  if p < qplane then p / 32 * 36 + 4 + p % 32 else (p - qplane) / 4 * 36 + (p - qplane) % 4

/-- The byte of the split planes that stands at `p` of the GGUF blocks. -/
def planePos (qplane p : ℕ) : ℕ :=
  if p % 36 < 4 then qplane + p / 36 * 4 + p % 36 else p / 36 * 32 + (p % 36 - 4)

variable {bytes : List UInt8}

theorem repackNvfp4Split_eq (debug : Bool) (hlen : bytes.length = outF * nblk * 36) (hpos : 0 < outF) :
    repackNvfp4Split debug bytes outF = some ((List.range bytes.length).map fun p =>
      bytes.getD (blockPos (outF * nblk * 32) p) 0) := by
  have hrowB : outF * nblk * 36 / outF = nblk * 36 := by
    rw [Nat.mul_assoc, Nat.mul_div_cancel_left _ hpos]
  have hnsb : nblk * 36 / 36 = nblk := by omega
  have hmod : nblk * 36 % 36 = 0 := by omega
  unfold repackNvfp4Split
  simp only [ensure, hlen, hrowB, hnsb, hmod, hpos.ne', ne_eq, not_false_eq_true, implies_true, if_true,
    ← Nat.mul_assoc, Option.bind_eq_bind, Option.bind_some]
  refine Fills.all (R := fun i => ∃ o, o < outF ∧ ∃ s, s < nblk ∧
    (outF * nblk * 32 + (o * nblk + s) * 4 ≤ i ∧ i < outF * nblk * 32 + (o * nblk + s) * 4 + 4 ∨
      (o * nblk + s) * 32 ≤ i ∧ i < (o * nblk + s) * 32 + 32))
    (Fills.loop fun o ho => Fills.loop fun s hs => ?_) (fun i hi => ?_) (by simp)
  · have hlt := row_col_lt ho hs
    rw [readAt_eq (by omega)]
    simp only [Option.bind_some]
    refine Fills.copyThen ?_ ?_ (fun k hk => ?_) (fills_copy ?_ ?_ fun k hk => ?_)
    · omega
    · rw [length_slice (by omega)]
      omega
    · rw [getElem?_slice (by omega), blockPos, if_neg (by omega), getElem?_eq_getD (by omega)]
      congr 2
      omega
    · omega
    · rw [length_slice (by omega)]
    · rw [getElem?_slice (by omega), blockPos, if_pos (by omega), getElem?_eq_getD (by omega)]
      congr 2
      omega
  · rcases Nat.lt_or_ge i (outF * nblk * 32) with hlt | hge
    · obtain ⟨o, ho, s, hs, h⟩ := exists_row_col (m := outF) (w := nblk) (i := i / 32) (by omega)
      exact ⟨o, ho, s, hs, Or.inr (by omega)⟩
    · obtain ⟨o, ho, s, hs, h⟩ := exists_row_col (m := outF) (w := nblk)
        (i := (i - outF * nblk * 32) / 4) (by omega)
      exact ⟨o, ho, s, hs, Or.inl (by omega)⟩

theorem unpackNvfp4Split_eq (hlen : bytes.length = outF * nblk * 36) (hpos : 0 < outF) :
    unpackNvfp4Split bytes outF = some ((List.range bytes.length).map fun p =>
      bytes.getD (planePos (outF * nblk * 32) p) 0) := by
  have hrowB : outF * nblk * 36 / outF = nblk * 36 := by
    rw [Nat.mul_assoc, Nat.mul_div_cancel_left _ hpos]
  have hnsb : nblk * 36 / 36 = nblk := by omega
  unfold unpackNvfp4Split
  simp only [ensure, hlen, hrowB, hnsb, hpos.ne', ne_eq, not_false_eq_true, if_true, ← Nat.mul_assoc,
    Option.bind_eq_bind, Option.bind_some]
  refine Fills.all (R := fun i => ∃ o, o < outF ∧ ∃ s, s < nblk ∧
    (o * nblk * 36 + s * 36 ≤ i ∧ i < o * nblk * 36 + s * 36 + 4 ∨
      o * nblk * 36 + s * 36 + 4 ≤ i ∧ i < o * nblk * 36 + s * 36 + 4 + 32))
    (Fills.loop fun o ho => Fills.loop fun s hs => ?_) (fun i hi => ?_) (by simp)
  · have hlt := row_col_lt ho hs
    refine Fills.copyThen ?_ ?_ (fun k hk => ?_) (fills_copy ?_ ?_ fun k hk => ?_)
    · omega
    · omega
    · rw [planePos, if_pos (by omega), getElem?_eq_getD (by omega)]
      congr 2
      omega
    · omega
    · omega
    · rw [planePos, if_neg (by omega), getElem?_eq_getD (by omega)]
      congr 2
      omega
  · obtain ⟨o, ho, s, hs, h⟩ := exists_row_col (m := outF) (w := nblk) (i := i / 36) (by omega)
    exact ⟨o, ho, s, hs, by omega⟩

/-! ## The dequantizers -/

/-- What an element stands for, global scale aside. -/
def value (code scale : UInt8) : ℚ := kvaluesMxfp4.getD code.toNat 0 * ue4m3ToF32 scale

theorem kvalue_eq {code : UInt8} (h : code.toNat < 16) :
    kvaluesMxfp4[code.toNat]? = some (kvaluesMxfp4.getD code.toNat 0) := by
  have hlen : code.toNat < kvaluesMxfp4.length := h
  simp [hlen]

theorem dequantModeloptRow_eq {wRow sRow : List UInt8} (hw : wRow.length = nblk * 32)
    (hs : sRow.length = nblk * 4) : dequantModeloptRow wRow sRow (64 * nblk) =
      some ((List.range (64 * nblk)).map fun e => value (codeOf wRow e) (sRow.getD (e / 16) 0)) := by
  unfold dequantModeloptRow
  refine Fills.all (R := fun i => ∃ e, e < 64 * nblk ∧ i = e) (Fills.loop fun e he => ?_)
    (fun i hi => ⟨i, hi, rfl⟩) (by simp)
  have hbyte : e / 2 < wRow.length := by omega
  have hcode : (if e % 2 = 0 then wRow[e / 2] &&& 0x0F else wRow[e / 2] >>> 4) = codeOf wRow e := by
    rw [codeOf, halfAt, List.getElem?_eq_getElem hbyte]
    rcases Nat.mod_two_eq_zero_or_one e with h0 | h1
    · simp [h0]
    · simp [h1]
  -- the doubled code and the halved scale cancel
  have hvalue : kvaluesMxfp4.getD (codeOf wRow e).toNat 0 * (1 / 2) *
      (ue4m3ToF32 (sRow.getD (e / 16) 0) * 2) = value (codeOf wRow e) (sRow.getD (e / 16) 0) := by
    rw [value]
    ring
  refine (fills_set he rfl).congr fun out => ?_
  simp only [List.getElem?_eq_getElem hbyte, Option.bind_eq_bind, Option.bind_some, hcode,
    kvalue_eq (codeOf_lt wRow e), getElem?_eq_getD (by omega : e / 16 < sRow.length), hvalue]

theorem dequantGgufRow_eq {row : List UInt8} (hrow : row.length = nblk * 36) :
    dequantGgufRow row (64 * nblk) = some ((List.range (64 * nblk)).map fun e =>
      value ((halfAt row (ggufLayout.code e)).getD 0) (row.getD (ggufLayout.scale (e / 16)) 0)) := by
  have hnblk : 64 * nblk / 64 = nblk := by omega
  unfold dequantGgufRow
  simp only [hnblk, Option.bind_eq_bind]
  refine Fills.all (R := fun p => ∃ i, i < nblk ∧ ∃ s, s < 4 ∧ ∃ j, j < 8 ∧
      (p = i * 64 + s * 16 + j ∨ p = i * 64 + s * 16 + j + 8))
    (Fills.loop fun i hi => ?_) (fun p hp => ?_) (by simp)
  · rw [readAt_eq (by omega), readAt_eq (by omega)]
    simp only [Option.bind_some]
    refine Fills.loop fun s hs => ?_
    have hscale : ((row.drop (i * 36)).take 4)[s]? = some (row.getD (i * 36 + s) 0) := by
      rw [getElem?_slice hs, getElem?_eq_getD (by omega)]
    simp only [hscale, Option.bind_some]
    refine Fills.loop fun j hj => ?_
    have hbyte : ((row.drop (i * 36 + 4)).take 32)[s * 8 + j]? =
        some (row.getD (i * 36 + 4 + (s * 8 + j)) 0) := by
      rw [getElem?_slice (by omega), getElem?_eq_getD (by omega)]
    simp only [hbyte, Option.bind_some, kvalue_eq (low_lt _), kvalue_eq (high_lt _)]
    have hget := getElem?_eq_getD (by omega : i * 36 + 4 + (s * 8 + j) < row.length)
    refine (fills_set (by omega) ?_).andThen (fills_set (by omega) ?_)
    · have hcode : ggufLayout.code (i * 64 + s * 16 + j) = (i * 36 + 4 + (s * 8 + j), false) := by
        simp only [ggufLayout, Prod.mk.injEq, decide_eq_false_iff_not]
        omega
      have hgroup : ggufLayout.scale ((i * 64 + s * 16 + j) / 16) = i * 36 + s := by
        simp only [ggufLayout]
        omega
      simp only [hcode, hgroup, halfAt, hget, value]
      simp
    · have hcode : ggufLayout.code (i * 64 + s * 16 + j + 8) = (i * 36 + 4 + (s * 8 + j), true) := by
        simp only [ggufLayout, Prod.mk.injEq, decide_eq_true_eq]
        omega
      have hgroup : ggufLayout.scale ((i * 64 + s * 16 + j + 8) / 16) = i * 36 + s := by
        simp only [ggufLayout]
        omega
      simp only [hcode, hgroup, halfAt, hget, value]
      simp
  · refine ⟨p / 64, by omega, p % 64 / 16, by omega, p % 8, by omega, by omega⟩

/-! ## Where the elements stand -/

theorem halfAt_append {bytes tail : List UInt8} {at_ : ℕ × Bool} (h : at_.1 < bytes.length) :
    halfAt (bytes ++ tail) at_ = halfAt bytes at_ := by
  rw [halfAt, List.getElem?_append_left h, halfAt]

theorem halfAt_row {bytes : List UInt8} {width p : ℕ} (hp : p < width) (high : Bool) :
    halfAt (row bytes width o) (p, high) = halfAt bytes (o * width + p, high) := by
  rw [halfAt, row, getElem?_slice hp, halfAt]

theorem getD_row {bytes : List UInt8} {width p : ℕ} (hp : p < width) :
    (row bytes width o).getD p 0 = bytes.getD (o * width + p) 0 := by
  rw [List.getD_eq_getElem?_getD, row, getElem?_slice hp, List.getD_eq_getElem?_getD]

theorem halfAt_codeOf {i : ℕ} (hi : i / 2 < weight.length) :
    halfAt weight (i / 2, i % 2 = 1) = some (codeOf weight i) := by
  obtain ⟨c, hc⟩ := halfAt_isSome weight (i / 2, decide (i % 2 = 1)) hi
  rw [codeOf, hc, Option.getD_some]

/-- Element `i` in the quant byte it was packed into. -/
theorem quantByte_half (weight : List UInt8) (i : ℕ) :
    (if decide (8 ≤ i % 16) = true then
      quantByte weight (i / 64 * 32 + i % 64 / 16 * 8 + i % 8) >>> 4
    else quantByte weight (i / 64 * 32 + i % 64 / 16 * 8 + i % 8) &&& 0x0F) = codeOf weight i := by
  obtain ⟨hlow, hhigh⟩ := quantByte_halves weight (i / 64 * 32 + i % 64 / 16 * 8 + i % 8)
  rw [hlow, hhigh]
  by_cases h : 8 ≤ i % 16
  · rw [if_pos (by simpa using h)]
    congr 1
    omega
  · rw [if_neg (by simpa using h)]
    congr 1
    omega

theorem code_block (i : ℕ) : (i / 64 * 36 + 4 + i % 64 / 16 * 8 + i % 8) / 36 = i / 64 ∧
    (i / 64 * 36 + 4 + i % 64 / 16 * 8 + i % 8) % 36 - 4 = i % 64 / 16 * 8 + i % 8 ∧
    4 ≤ (i / 64 * 36 + 4 + i % 64 / 16 * 8 + i % 8) % 36 := by
  have hq : i % 64 / 16 * 8 + i % 8 < 32 := by omega
  rw [Nat.add_assoc _ (i % 64 / 16 * 8)]
  generalize i % 64 / 16 * 8 + i % 8 = q at hq ⊢
  omega

theorem gguf_sameElements (hw : weight.length = outF * nblk * 32)
    (hs : wscale.length = outF * nblk * 4) :
    SameElements (outF * nblk * 64) ggufLayout
      ((List.range (outF * nblk * 36)).map (ggufByte weight wscale))
      (modeloptLayout (outF * nblk * 64)) (weight ++ wscale) := by
  refine ⟨fun i hi => ?_, fun g hg => ?_⟩
  · obtain ⟨hdiv, hmod, hquant⟩ := code_block i
    have hcell : ((List.range (outF * nblk * 36)).map (ggufByte weight wscale))[
        (ggufLayout.code i).1]? = some (quantByte weight (i / 64 * 32 + i % 64 / 16 * 8 + i % 8)) := by
      simp only [ggufLayout, List.getElem?_map]
      rw [List.getElem?_range (by omega), Option.map_some, ggufByte, if_neg (by omega), hdiv, hmod,
        Nat.add_assoc]
    rw [modeloptLayout, halfAt_append (by simp only []; omega), halfAt_codeOf (by omega), halfAt, hcell,
      Option.map_some]
    exact congrArg some (quantByte_half weight i)
  · have hmod : (g / 4 * 36 + g % 4) % 36 = g % 4 := by omega
    have hdiv : (g / 4 * 36 + g % 4) / 36 * 4 + g % 4 = g := by omega
    simp only [ggufLayout, modeloptLayout, List.getElem?_map]
    rw [List.getElem?_range (by omega), Option.map_some, ggufByte, hmod, if_pos (by omega), hdiv,
      List.getElem?_append_right (by omega), ← getElem?_eq_getD (by omega)]
    congr 1
    omega

theorem split_sameElements (hw : weight.length = outF * nblk * 32)
    (hs : wscale.length = outF * nblk * 4) :
    SameElements (outF * nblk * 64) (splitLayout (outF * nblk * 64))
      ((List.range (outF * nblk * 36)).map (splitByte weight wscale (outF * nblk * 32)))
      (modeloptLayout (outF * nblk * 64)) (weight ++ wscale) := by
  refine ⟨fun i hi => ?_, fun g hg => ?_⟩
  · have hcell : ((List.range (outF * nblk * 36)).map (splitByte weight wscale (outF * nblk * 32)))[
        ((splitLayout (outF * nblk * 64)).code i).1]? =
        some (quantByte weight (i / 64 * 32 + i % 64 / 16 * 8 + i % 8)) := by
      simp only [splitLayout, List.getElem?_map]
      rw [List.getElem?_range (by omega), Option.map_some, splitByte, if_pos (by omega)]
    rw [modeloptLayout, halfAt_append (by simp only []; omega), halfAt_codeOf (by omega), halfAt, hcell,
      Option.map_some]
    exact congrArg some (quantByte_half weight i)
  · simp only [splitLayout, modeloptLayout, List.getElem?_map]
    rw [List.getElem?_range (by omega), Option.map_some, splitByte, if_neg (by omega),
      List.getElem?_append_right (by omega), ← getElem?_eq_getD (by omega)]
    congr 1
    omega

/-- Element `e` of row `o` is element `o * nblk * 64 + e` of the matrix. -/
theorem codeOf_row {e : ℕ} (he : e < 64 * nblk) :
    codeOf (row weight (nblk * 32) o) e = codeOf weight (o * nblk * 64 + e) := by
  have hdiv : (o * nblk * 64 + e) / 2 = o * nblk * 32 + e / 2 := by omega
  have hmod : (o * nblk * 64 + e) % 2 = e % 2 := by omega
  rw [codeOf, halfAt_row (by omega), codeOf, hdiv, hmod, Nat.mul_assoc]

section rows

variable (hw : weight.length = outF * nblk * 32) (hs : wscale.length = outF * nblk * 4) (ho : o < outF)
  {e : ℕ} (he : e < 64 * nblk)
include hw hs ho he

theorem halfAt_ggufRow : halfAt (row ((List.range (outF * nblk * 36)).map (ggufByte weight wscale))
    (nblk * 36) o) (ggufLayout.code e) = some (codeOf weight (o * nblk * 64 + e)) := by
  have hrow := row_add_le (w := nblk) ho
  have hcode := (gguf_sameElements hw hs).1 (o * nblk * 64 + e) (by omega)
  rw [modeloptLayout, halfAt_append (by simp only []; omega), halfAt_codeOf (by omega)] at hcode
  rw [← hcode, ← Prod.mk.eta (p := ggufLayout.code e), halfAt_row (by simp only [ggufLayout]; omega)]
  congr 1
  simp only [ggufLayout, Prod.mk.injEq, ← Nat.mul_assoc]
  refine ⟨by omega, ?_⟩
  congr 1
  simp only [eq_iff_iff]
  omega

theorem getD_ggufRow : (row ((List.range (outF * nblk * 36)).map (ggufByte weight wscale))
    (nblk * 36) o).getD (ggufLayout.scale (e / 16)) 0 = (row wscale (nblk * 4) o).getD (e / 16) 0 := by
  have hrow := row_add_le (w := nblk) ho
  have hscale := (gguf_sameElements hw hs).2 (o * nblk * 4 + e / 16) (by omega)
  simp only [modeloptLayout] at hscale
  rw [List.getElem?_append_right (by omega)] at hscale
  have hpos : ggufLayout.scale (o * nblk * 4 + e / 16) =
      o * (nblk * 36) + ggufLayout.scale (e / 16) := by
    simp only [ggufLayout, ← Nat.mul_assoc]
    omega
  have hsrc : outF * nblk * 64 / 2 + (o * nblk * 4 + e / 16) - weight.length =
      o * (nblk * 4) + e / 16 := by
    rw [← Nat.mul_assoc]
    omega
  rw [getD_row (by simp only [ggufLayout]; omega), getD_row (by omega), ← hpos, ← hsrc,
    List.getD_eq_getElem?_getD, hscale, List.getD_eq_getElem?_getD]

end rows

/-- **A repacked row has the values of the ModelOpt row.** -/
theorem repack_rows (hw : weight.length = outF * nblk * 32) (hs : wscale.length = outF * nblk * 4)
    (ho : o < outF) :
    dequantGgufRow (row ((List.range (outF * nblk * 36)).map (ggufByte weight wscale)) (nblk * 36) o)
      (64 * nblk) =
    dequantModeloptRow (row weight (nblk * 32) o) (row wscale (nblk * 4) o) (64 * nblk) := by
  have hrow := row_add_le (w := nblk) ho
  rw [dequantGgufRow_eq, dequantModeloptRow_eq]
  · congr 1
    refine List.map_congr_left fun e he => ?_
    have he := List.mem_range.1 he
    rw [halfAt_ggufRow hw hs ho he, getD_ggufRow hw hs ho he, codeOf_row he, Option.getD_some]
  · exact length_slice (by rw [← Nat.mul_assoc]; omega)
  · exact length_slice (by rw [← Nat.mul_assoc]; omega)
  · exact length_slice (by rw [← Nat.mul_assoc, List.length_map, List.length_range]; omega)

theorem gguf_tiles (x : ℕ) : ggufLayout.Tiles (x * 64) (x * 36) where
  code_lt i hi := by
    simp only [ggufLayout]
    omega
  scale_lt g hg := by
    simp only [ggufLayout]
    omega
  once p hp := by
    simp only [ggufLayout, ne_eq, Prod.mk.injEq]
    by_cases h : p % 36 < 4
    · refine Or.inl ⟨⟨p / 36 * 4 + p % 36, by omega, fun g hg => by omega⟩, ?_⟩
      rintro i high hi ⟨rfl, -⟩
      exact absurd (code_block i).2.2 (by omega)
    · refine Or.inr ⟨fun high => ?_, fun g hg => by omega⟩
      cases high with
      | false =>
        simp only [decide_eq_false_iff_not]
        refine ⟨p / 36 * 64 + (p % 36 - 4) / 8 * 16 + (p % 36 - 4) % 8, by omega, ?_⟩
        rintro i ⟨hi, rfl, hhalf⟩
        obtain ⟨hdiv, hmod, -⟩ := code_block i
        rw [hdiv, hmod]
        omega
      | true =>
        simp only [decide_eq_true_eq]
        refine ⟨p / 36 * 64 + (p % 36 - 4) / 8 * 16 + (p % 36 - 4) % 8 + 8, by omega, ?_⟩
        rintro i ⟨hi, rfl, hhalf⟩
        obtain ⟨hdiv, hmod, -⟩ := code_block i
        rw [hdiv, hmod]
        omega

theorem split_tiles (x : ℕ) : (splitLayout (x * 64)).Tiles (x * 64) (x * 36) where
  code_lt i hi := by
    simp only [splitLayout]
    omega
  scale_lt g hg := by
    simp only [splitLayout]
    omega
  once p hp := by
    simp only [splitLayout, ne_eq, Prod.mk.injEq]
    by_cases h : x * 32 ≤ p
    · refine Or.inl ⟨⟨p - x * 32, by omega, fun g hg => by omega⟩, fun i high hi hcode => ?_⟩
      omega
    · refine Or.inr ⟨fun high => ?_, fun g hg => by omega⟩
      cases high with
      | false =>
        simp only [decide_eq_false_iff_not]
        exact ⟨p / 8 * 16 + p % 8, by omega, fun i hi => by omega⟩
      | true =>
        simp only [decide_eq_true_eq]
        exact ⟨p / 8 * 16 + p % 8 + 8, by omega, fun i hi => by omega⟩

theorem modelopt_tiles (x : ℕ) : (modeloptLayout (x * 64)).Tiles (x * 64) (x * 36) where
  code_lt i hi := by
    simp only [modeloptLayout]
    omega
  scale_lt g hg := by
    simp only [modeloptLayout]
    omega
  once p hp := by
    simp only [modeloptLayout, ne_eq, Prod.mk.injEq]
    by_cases h : x * 32 ≤ p
    · refine Or.inl ⟨⟨p - x * 32, by omega, fun g hg => by omega⟩, fun i high hi hcode => ?_⟩
      omega
    · refine Or.inr ⟨fun high => ?_, fun g hg => by omega⟩
      cases high with
      | false =>
        simp only [decide_eq_false_iff_not]
        exact ⟨p * 2, by omega, fun i hi => by omega⟩
      | true =>
        simp only [decide_eq_true_eq]
        exact ⟨p * 2 + 1, by omega, fun i hi => by omega⟩

/-! ## The two ways to the split planes -/

theorem blockPos_lt {x p : ℕ} (hp : p < x * 36) : blockPos (x * 32) p < x * 36 := by
  unfold blockPos
  split <;> omega

theorem ggufByte_blockPos {x p : ℕ} :
    ggufByte weight wscale (blockPos (x * 32) p) = splitByte weight wscale (x * 32) p := by
  unfold blockPos splitByte
  split
  · have hdiv : (p / 32 * 36 + 4 + p % 32) / 36 = p / 32 := by omega
    have hmod : (p / 32 * 36 + 4 + p % 32) % 36 = 4 + p % 32 := by omega
    rw [ggufByte, hdiv, hmod, if_neg (by omega)]
    congr 1
    omega
  · have hdiv : ((p - x * 32) / 4 * 36 + (p - x * 32) % 4) / 36 = (p - x * 32) / 4 := by omega
    have hmod : ((p - x * 32) / 4 * 36 + (p - x * 32) % 4) % 36 = (p - x * 32) % 4 := by omega
    rw [ggufByte, hdiv, hmod, if_pos (by omega)]
    congr 1
    omega

theorem repackNvfp4Split_repack (debug : Bool) (hpos : 0 < outF) :
    repackNvfp4Split debug ((List.range (outF * nblk * 36)).map (ggufByte weight wscale)) outF = some
      ((List.range (outF * nblk * 36)).map (splitByte weight wscale (outF * nblk * 32))) := by
  have hlen : ((List.range (outF * nblk * 36)).map (ggufByte weight wscale)).length = outF * nblk * 36 := by
    simp
  rw [repackNvfp4Split_eq debug hlen hpos, List.length_map, List.length_range]
  congr 1
  refine List.map_congr_left fun p hp => ?_
  have hlt := blockPos_lt (List.mem_range.1 hp)
  rw [← ggufByte_blockPos]
  simp [hlt]

theorem blockPos_planePos {x p : ℕ} (hp : p < x * 36) : blockPos (x * 32) (planePos (x * 32) p) = p := by
  unfold planePos
  split
  · rw [blockPos, if_neg (by omega)]
    omega
  · rw [blockPos, if_pos (by omega)]
    omega

/-- The split loses nothing. -/
theorem unpackNvfp4Split_repack (debug : Bool) {bytes : List UInt8} (hpos : 0 < outF)
    (hlen : bytes.length = outF * nblk * 36) :
    (repackNvfp4Split debug bytes outF).bind (unpackNvfp4Split · outF) = some bytes := by
  have hsplit : ((List.range bytes.length).map fun p =>
      bytes.getD (blockPos (outF * nblk * 32) p) 0).length = outF * nblk * 36 := by simpa using hlen
  rw [repackNvfp4Split_eq debug hlen hpos, Option.bind_some, unpackNvfp4Split_eq hsplit hpos,
    List.length_map, List.length_range]
  congr 1
  apply List.ext_getElem?
  intro p
  rcases Nat.lt_or_ge p bytes.length with hp | hp
  · have hplane : planePos (outF * nblk * 32) p < bytes.length := by
      unfold planePos
      split <;> omega
    have hback := blockPos_planePos (x := outF * nblk) (by omega : p < outF * nblk * 36)
    simp [hp, hplane, hback]
  · simp [hp]

/-- **A repack keeps every element.** Both repacks return; a repacked row has the values of the ModelOpt
row; every code and every scale stands where the layout has it, and nothing else does. The split of the
repacked blocks is the direct repack when there is a row. -/
theorem repack_preserves (debug : Bool) (weight wscale : List UInt8) (outF inF : ℕ)
    (hin : inF % 64 = 0) (hw : weight.length = outF * (inF / 2))
    (hs : wscale.length = outF * (inF / 16)) :
    ∃ packed split, repackModeloptToGguf weight wscale outF inF = some packed ∧
      repackModeloptToSplit weight wscale outF inF = some split ∧
      (∀ o, o < outF → ∃ values, values.length = inF ∧
        dequantModeloptRow (row weight (inF / 2) o) (row wscale (inF / 16) o) inF = some values ∧
        dequantGgufRow (row packed (inF / 64 * 36) o) inF = some values) ∧
      (repackNvfp4Split debug packed outF = some split ↔ 0 < outF) ∧
      SameElements (outF * inF) ggufLayout packed (modeloptLayout (outF * inF)) (weight ++ wscale) ∧
      SameElements (outF * inF) (splitLayout (outF * inF)) split (modeloptLayout (outF * inF))
        (weight ++ wscale) ∧
      (modeloptLayout (outF * inF)).Tiles (outF * inF) (weight ++ wscale).length ∧
      ggufLayout.Tiles (outF * inF) packed.length ∧
      (splitLayout (outF * inF)).Tiles (outF * inF) split.length := by
  obtain ⟨nblk, rfl⟩ : ∃ nblk, inF = 64 * nblk := ⟨inF / 64, by omega⟩
  have hinB : 64 * nblk / 2 = nblk * 32 := by omega
  have hsclB : 64 * nblk / 16 = nblk * 4 := by omega
  have hnblk : 64 * nblk / 64 = nblk := by omega
  have hn : outF * (64 * nblk) = outF * nblk * 64 := by ring
  rw [hinB, ← Nat.mul_assoc] at hw
  rw [hsclB, ← Nat.mul_assoc] at hs
  have hlen : (weight ++ wscale).length = outF * nblk * 36 := by
    rw [List.length_append]
    omega
  rw [hinB, hsclB, hnblk, hn, hlen]
  refine ⟨_, _, repackModeloptToGguf_eq hw hs, repackModeloptToSplit_eq hw hs, fun o ho => ?_, ?_,
    gguf_sameElements hw hs, split_sameElements hw hs, modelopt_tiles _, ?_, ?_⟩
  · have hrow := row_add_le (w := nblk) ho
    have hwRow : (row weight (nblk * 32) o).length = nblk * 32 :=
      length_slice (by rw [← Nat.mul_assoc]; omega)
    have hsRow : (row wscale (nblk * 4) o).length = nblk * 4 :=
      length_slice (by rw [← Nat.mul_assoc]; omega)
    have hvalues := dequantModeloptRow_eq hwRow hsRow
    exact ⟨_, by simp, hvalues, (repack_rows hw hs ho).trans hvalues⟩
  · constructor
    · intro h
      by_contra h0
      obtain rfl : outF = 0 := by omega
      simp [repackNvfp4Split, ensure] at h
    · exact repackNvfp4Split_repack debug
  · simpa using gguf_tiles (outF * nblk)
  · simpa using split_tiles (outF * nblk)

theorem repack_preserves_one : ∃ packed split,
    repackModeloptToGguf (List.replicate 32 0x53) (List.replicate 4 0x38) 1 64 = some packed ∧
      repackModeloptToSplit (List.replicate 32 0x53) (List.replicate 4 0x38) 1 64 = some split ∧
      (repackNvfp4Split true packed 1 = some split ↔ 0 < 1) := by
  obtain ⟨packed, split, hgguf, hsplit, -, hchain, -⟩ :=
    repack_preserves true (List.replicate 32 0x53) (List.replicate 4 0x38) 1 64 (by decide) (by simp)
      (by simp)
  exact ⟨packed, split, hgguf, hsplit, hchain⟩

/-- Without rows the split divides by zero, and the direct repack returns nothing to load. -/
theorem no_rows_not_split : ¬∀ (weight wscale : List UInt8) (outF inF : ℕ), inF % 64 = 0 →
    weight.length = outF * (inF / 2) → wscale.length = outF * (inF / 16) →
    (repackModeloptToGguf weight wscale outF inF).bind (repackNvfp4Split false · outF) =
      repackModeloptToSplit weight wscale outF inF := by
  intro h
  have := h [] [] 0 64 (by decide) rfl rfl
  simp [repackModeloptToGguf, repackModeloptToSplit, repackNvfp4Split, ensure, overwrite] at this

end Memra.Nvfp4
