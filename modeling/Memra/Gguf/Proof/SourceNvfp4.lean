import Memra.Gguf.Source
import Memra.Gguf.Proof.HfMapping

/-!
# NVFP4 weights of a checkpoint

`unscaled q`: the value of each element that `nvfp4_quant` found, macro scale aside. With rows of whole
blocks and a scale for every 16 elements, `deq_f32` gives these values times the macro scale, and the blocks
of `find` and the split planes of the direct import hold them (`repack_unscaled`). A V-head reorder of the
blocks reorders them (`applyNvfp4_unscaled`).
-/

namespace Memra.StSource

open Lib Nvfp4 HfMapping

/-- The values of an NVFP4 weight, macro scale aside. -/
def unscaled (q : Nvfp4Quant) : List ℚ :=
  (List.range (q.outF * q.inF)).map fun i => value (codeOf q.wbytes i) (q.wscale.getD (i / 16) 0)

@[simp] theorem length_unscaled (q : Nvfp4Quant) : (unscaled q).length = q.outF * q.inF := by
  simp [unscaled]

@[simp] theorem length_scaled (xs : List ℚ) (c : Num) : (scaled xs c).length = xs.length := by
  simp [scaled]

/-- Two scalars that make the same of the values. -/
def SameScale (xs : List ℚ) (c m : Num) : Prop := c = m ∨ ∀ x ∈ xs, x = 0 ∧ c.isSome ∧ m.isSome

theorem mul_some_eq_iff {x : ℚ} {c m : Num} :
    mul (some x) c = mul (some x) m ↔ c = m ∨ (x = 0 ∧ c.isSome ∧ m.isSome) := by
  cases c with
  | none => cases m <;> simp [mul]
  | some c => cases m <;> simp [mul]

theorem scaled_eq_iff {xs : List ℚ} {c m : Num} : scaled xs c = scaled xs m ↔ SameScale xs c m := by
  by_cases hcm : c = m
  · simp [SameScale, hcm]
  · simp [SameScale, scaled, List.map_inj_left, mul_some_eq_iff, hcm]

/-! ## The file and its repacks -/

/-- Rows of whole blocks, with the codes of the rows and a scale for every 16 elements. -/
structure Nvfp4Quant.Blocks (q : Nvfp4Quant) : Prop where
  width : q.inF % 64 = 0
  codes : q.wbytes.length = q.outF * (q.inF / 2)
  scales : q.wscale.length = q.outF * (q.inF / 16)

/-- Row by row is all elements in order. -/
theorem flatten_rows {α : Type} (m w : ℕ) (f : ℕ → α) :
    ((List.range m).map fun o => (List.range w).map fun e => f (o * w + e)).flatten =
      (List.range (m * w)).map f := by
  induction m with
  | zero => simp
  | succ m ih =>
    rw [List.range_succ, List.map_append, List.flatten_append, ih, Nat.succ_mul, List.range_add,
      List.map_append, List.map_map]
    simp [Function.comp_def]

theorem mapM_some {α β : Type} {f : α → Option β} {g : α → β} {xs : List α}
    (h : ∀ x ∈ xs, f x = some (g x)) : xs.mapM f = some (xs.map g) := by
  induction xs with
  | nil => rfl
  | cons x xs ih =>
    rw [List.mapM_cons, h x (by simp), ih fun y hy => h y (by simp [hy])]
    rfl

/-- **`deq_f32` folds the macro scale into the values.** -/
theorem deqNvfp4_eq {q : Nvfp4Quant} (hq : q.Blocks) :
    deqNvfp4 q = some (scaled (unscaled q) q.macroS) := by
  obtain ⟨outF, inF, wbytes, wscale, m⟩ := q
  obtain ⟨hwidth, hcodes, hscales⟩ := hq
  dsimp only at hwidth hcodes hscales
  obtain ⟨nblk, rfl⟩ : ∃ nblk, inF = 64 * nblk := ⟨inF / 64, by omega⟩
  have h2 : 64 * nblk / 2 = nblk * 32 := by omega
  have h16 : 64 * nblk / 16 = nblk * 4 := by omega
  rw [h2] at hcodes
  rw [h16] at hscales
  have hrow : ∀ o, o < outF → dequantModeloptRow (row wbytes (nblk * 32) o) (row wscale (nblk * 4) o)
      (64 * nblk) = some ((List.range (64 * nblk)).map fun e =>
        value (codeOf wbytes (o * (64 * nblk) + e)) (wscale.getD ((o * (64 * nblk) + e) / 16) 0)) := by
    intro o ho
    have hc := row_add_le (w := nblk * 32) ho
    have hs := row_add_le (w := nblk * 4) ho
    have hwRow : (row wbytes (nblk * 32) o).length = nblk * 32 := length_slice (by omega)
    have hsRow : (row wscale (nblk * 4) o).length = nblk * 4 := length_slice (by omega)
    rw [dequantModeloptRow_eq hwRow hsRow]
    congr 1
    refine List.map_congr_left fun e he => ?_
    have he := List.mem_range.1 he
    have hpos : o * nblk * 64 = o * (64 * nblk) := by ring
    have hscale : (o * (64 * nblk) + e) / 16 = o * (nblk * 4) + e / 16 := by
      have : o * (64 * nblk) = o * (nblk * 4) * 16 := by ring
      omega
    rw [codeOf_row he, getD_row (by omega), hpos, hscale]
  unfold deqNvfp4
  dsimp only
  rw [h2, h16, mapM_some (g := fun o => (List.range (64 * nblk)).map fun e =>
    mul (some (value (codeOf wbytes (o * (64 * nblk) + e))
      (wscale.getD ((o * (64 * nblk) + e) / 16) 0))) m)]
  · simp only [Option.bind_eq_bind, Option.bind_some, pure]
    rw [flatten_rows outF (64 * nblk) fun i => mul (some (value (codeOf wbytes i) (wscale.getD (i / 16) 0))) m]
    simp [scaled, unscaled]
  · intro o ho
    have ho := List.mem_range.1 ho
    have hc := row_add_le (w := nblk * 32) ho
    have hs := row_add_le (w := nblk * 4) ho
    rw [readAt_eq (by omega), readAt_eq (by omega)]
    simp only [Option.bind_eq_bind, Option.bind_some]
    rw [← row, ← row, hrow o ho]
    simp [Function.comp_def]

theorem blocks_of_repack {q : Nvfp4Quant} {packed : List UInt8}
    (h : repackModeloptToGguf q.wbytes q.wscale q.outF q.inF = some packed) : q.Blocks := by
  unfold repackModeloptToGguf ensure at h
  by_cases hwidth : q.inF % 64 = 0
  · by_cases hcodes : q.wbytes.length = q.outF * (q.inF / 2)
    · by_cases hscales : q.wscale.length = q.outF * (q.inF / 16)
      · exact ⟨hwidth, hcodes, hscales⟩
      · simp [hwidth, hcodes, hscales] at h
    · simp [hwidth, hcodes] at h
  · simp [hwidth] at h

/-- **Both repacks hold the values of the file.** -/
theorem repack_unscaled {q : Nvfp4Quant} (hq : q.Blocks) : ∃ packed split,
    repackModeloptToGguf q.wbytes q.wscale q.outF q.inF = some packed ∧
      packed.length = q.outF * (q.inF / 64 * 36) ∧
      dequantNvfp4 packed (q.outF * q.inF) = some (unscaled q) ∧
      repackModeloptToSplit q.wbytes q.wscale q.outF q.inF = some split ∧
      (0 < q.outF → unpackNvfp4Split split q.outF = some packed) := by
  obtain ⟨outF, inF, wbytes, wscale, m⟩ := q
  obtain ⟨hwidth, hcodes, hscales⟩ := hq
  dsimp only at hwidth hcodes hscales
  obtain ⟨nblk, rfl⟩ : ∃ nblk, inF = 64 * nblk := ⟨inF / 64, by omega⟩
  have h2 : 64 * nblk / 2 = nblk * 32 := by omega
  have h16 : 64 * nblk / 16 = nblk * 4 := by omega
  have h64 : 64 * nblk / 64 = nblk := by omega
  have hn : outF * (64 * nblk) = 64 * (outF * nblk) := by ring
  rw [h2, ← Nat.mul_assoc] at hcodes
  rw [h16, ← Nat.mul_assoc] at hscales
  have hlen : ((List.range (outF * nblk * 36)).map (ggufByte wbytes wscale)).length = outF * nblk * 36 := by
    simp
  refine ⟨_, _, repackModeloptToGguf_eq hcodes hscales, ?_, ?_, repackModeloptToSplit_eq hcodes hscales,
    fun hpos => ?_⟩
  · rw [hlen, h64, Nat.mul_assoc]
  · obtain ⟨hcode, hscale⟩ := gguf_sameElements hcodes hscales
    dsimp only
    rw [hn, dequantNvfp4, dequantGgufRow_eq hlen, unscaled, hn]
    congr 1
    refine List.map_congr_left fun i hi => ?_
    have hi := List.mem_range.1 hi
    rw [hcode i (by omega), modeloptLayout, halfAt_append (by simp only []; omega),
      halfAt_codeOf (by omega), Option.getD_some, List.getD_eq_getElem?_getD, hscale (i / 16) (by omega)]
    simp only [modeloptLayout]
    rw [List.getElem?_append_right (by omega), ← List.getD_eq_getElem?_getD]
    congr 2
    omega
  · have hback := unpackNvfp4Split_repack false hpos hlen
    rwa [repackNvfp4Split_repack false hpos] at hback

/-! ## Reordered values -/

section reorder

variable {p : HeadParams} {r : Reorder} {outF inF : ℕ} (hfit : r.Fits p outF inF)
include hfit

theorem cells_lt {i : ℕ} (hi : i < outF * inF) : r.cells p inF i < outF * inF := by
  have hlt := fun d => hfit.lt (d := d)
  unfold Reorder.cells Reorder.axis at *
  cases hr : r.rows with
  | true => exact rowMap_lt (by simpa [hr] using hlt) hi
  | false => exact colMap_lt (by simpa [hr] using hlt) hi

/-- Every element is moved somewhere. -/
theorem exists_cell {j : ℕ} (hj : j < outF * inF) : ∃ i, i < outF * inF ∧ r.cells p inF i = j := by
  have hinv : ∀ d, d < r.axis outF inF → ∃ d', d' < r.axis outF inF ∧ r.map p d' = d := fun d hd => by
    refine ⟨chunkSrc r.lo r.headDim (p.nv / p.nk) p.nk d, chunkSrc_lt ?_ hd, chunkSrc_inv⟩
    rw [Nat.div_mul_cancel hfit.dvd]
    exact hfit.band.le
  obtain ⟨o, ho, e, he, rfl⟩ := exists_row_col hj
  unfold Reorder.cells Reorder.axis at *
  cases hr : r.rows with
  | true =>
    simp only [hr, if_true] at hinv
    obtain ⟨o', ho', rfl⟩ := hinv o ho
    exact ⟨o' * inF + e, row_col_lt ho' he, by simp [rowMap_at he]⟩
  | false =>
    simp only [hr, Bool.false_eq_true, if_false] at hinv
    obtain ⟨e', he', rfl⟩ := hinv e he
    exact ⟨o * inF + e', row_col_lt ho he', by simp [colMap_at he']⟩

theorem gather_scaled {xs : List ℚ} (hxs : xs.length = outF * inF) (c : Num) :
    gather (scaled xs c) (r.cells p inF) = scaled (gather xs (r.cells p inF)) c := by
  unfold gather scaled
  rw [List.length_map, List.map_map]
  refine List.map_congr_left fun i hi => ?_
  have hlt := cells_lt hfit (hxs ▸ List.mem_range.1 hi)
  simp [hxs, hlt]

/-- A reorder has the same values. -/
theorem sameScale_gather {xs : List ℚ} (hxs : xs.length = outF * inF) {c m : Num} :
    SameScale (gather xs (r.cells p inF)) c m ↔ SameScale xs c m := by
  have hmem : ∀ x, x ∈ gather xs (r.cells p inF) ↔ x ∈ xs := fun x => by
    constructor
    · intro hx
      obtain ⟨i, hi, rfl⟩ := List.mem_map.1 hx
      have hlt := cells_lt hfit (hxs ▸ List.mem_range.1 hi)
      simp [hxs, hlt]
    · intro hx
      obtain ⟨j, hj, rfl⟩ := List.mem_iff_getElem.1 hx
      obtain ⟨i, hi, hij⟩ := exists_cell hfit (hxs ▸ hj)
      exact List.mem_map.2 ⟨i, List.mem_range.2 (hxs ▸ hi), by simp [hij, hj]⟩
  simp [SameScale, hmem]

end reorder

end Memra.StSource
