import Memra.Gguf.Proof.HfMoves

/-!
# V-head reorders commute with dequantization

A structural kind is a `Reorder`: rows or columns, the head dimension and where the band begins. With a
geometry that fits, all forms gather by its `cells`: the values (`apply_eq`), the packed blocks
(`applyNvfp4_spec`), and the codes with the grid of their blocks (`applyFp8Blk_spec`), as long as the
permutation of the axis moves whole blocks of 128.
-/

namespace Memra.HfMapping

open Lib Nvfp4

/-! ## The reorders -/

/-- A structural reorder: of rows or of columns, of heads of `headDim`, from `lo` to the end of the axis. -/
structure Reorder where
  rows : Bool
  headDim : ℕ
  lo : ℕ

/-- The kinds that only permute a matrix. -/
def reorderOf (p : HeadParams) : TransformKind → Option Reorder
  | .qkvVReorderRows => some { rows := true, headDim := p.hv, lo := 2 * (p.nk * p.hk) }
  | .zReorderRows => some { rows := true, headDim := p.hv, lo := 0 }
  | .abReorderRows => some { rows := true, headDim := 1, lo := 0 }
  | .outReorderCols => some { rows := false, headDim := p.hv, lo := 0 }
  | _ => none

namespace Reorder

variable (r : Reorder) (p : HeadParams) (outF inF : ℕ)

def axis : ℕ := if r.rows then outF else inF

/-- The value heads divide evenly, and the band of heads ends the axis. -/
structure Fits : Prop where
  nk_pos : 0 < p.nk
  dvd : p.nk ∣ p.nv
  band : r.lo + p.nv * r.headDim = r.axis outF inF

/-- The permutation of the axis. -/
def map : ℕ → ℕ := chunkSrc r.lo r.headDim p.nk (p.nv / p.nk)

/-- The permutation of the cells of a matrix with rows of `w`. -/
def cells (w : ℕ) : ℕ → ℕ := if r.rows then rowMap (r.map p) w else colMap (r.map p) w

end Reorder

variable {kind : TransformKind} {cfg : ModelConfig} {p : HeadParams} {r : Reorder} {outF inF : ℕ}

theorem Reorder.Fits.lt (h : r.Fits p outF inF) {d : ℕ} (hd : d < r.axis outF inF) :
    r.map p d < r.axis outF inF := by
  have := h.band
  refine chunkSrc_lt ?_ hd
  rw [Nat.mul_div_cancel' h.dvd]
  omega

theorem Reorder.Fits.movesBlocks_iff (h : r.Fits p outF inF) :
    MovesBlocks (r.axis outF inF) 128 (r.map p) ↔
      ∀ d, d < r.axis outF inF → r.map p d / 128 = r.map p (d / 128 * 128) / 128 := by
  have hinv : ∀ i, i < r.axis outF inF → chunkSrc r.lo r.headDim (p.nv / p.nk) p.nk i < r.axis outF inF ∧
      r.map p (chunkSrc r.lo r.headDim (p.nv / p.nk) p.nk i) = i := fun i hi => by
    refine ⟨chunkSrc_lt ?_ hi, chunkSrc_inv⟩
    rw [Nat.div_mul_cancel h.dvd]
    exact h.band.le
  rw [Lib.movesBlocks_iff (by decide) (fun i hi => h.lt hi) hinv]
  constructor
  · rintro ⟨b, hb⟩ d hd
    have hfirst := hb (d / 128 * 128) (by omega)
    rw [Nat.mul_div_cancel _ (by decide)] at hfirst
    rw [hb d hd, hfirst]
  · exact fun hall => ⟨fun D => r.map p (D * 128) / 128, hall⟩

theorem apply_eq {V : Type} [Inhabited V] {F : F32Ops V} {debug : Bool} {xs : List V}
    (hcfg : headParams cfg = some p) (hkind : reorderOf p kind = some r) (hfit : r.Fits p outF inF)
    (hlen : xs.length = outF * inF) : apply F debug kind xs [inF, outF] cfg =
      some ([inF, outF], gather xs (r.cells p inF)) := by
  obtain ⟨nk, nv, hk, hv⟩ := p
  obtain ⟨hnk, hdvd, hband⟩ := hfit
  dsimp only at hnk hdvd hband
  obtain ⟨vpk, rfl⟩ := hdvd
  have hvpk : nk * vpk / nk = vpk := Nat.mul_div_cancel_left _ hnk
  have hrows {headDim lo hi : ℕ} (hb : lo + nk * vpk * headDim = outF) (hhi : hi = outF) :
      reorderRowsV debug xs (nk * vpk) nk headDim inF lo hi =
        some (gather xs (rowMap (chunkSrc lo headDim nk vpk) inF)) := by
    rw [reorderRowsV, ensure, if_pos fun _ => by omega, moveRows_eq hnk hb.le hlen]
    rfl
  unfold apply
  simp only [hcfg, Option.bind_eq_bind, Option.bind_some]
  cases kind <;> simp only [reorderOf, reduceCtorEq, Option.some.injEq] at hkind <;> subst hkind
  all_goals
    simp only [Reorder.axis, if_true, if_false, Bool.false_eq_true] at hband
    simp only [List.getElem?_cons_zero, List.getElem?_cons_succ, Option.bind_some, Reorder.cells,
      Reorder.map, if_true, if_false, Bool.false_eq_true, hvpk]
  · rw [hrows hband rfl]
    rfl
  · rw [hrows hband rfl]
    rfl
  · rw [hrows hband (by omega)]
    rfl
  · rw [reorderColsV_eq hnk (by omega) hlen]
    rfl

/-! ## The packed form -/

theorem nvfp4_rows {packed : List UInt8} {nblk : ℕ} {σ : ℕ → ℕ} (hσ : ∀ d, d < outF → σ d < outF)
    (hlen : packed.length = outF * nblk * 36) :
    ∃ xs, dequantNvfp4 packed (64 * (outF * nblk)) = some xs ∧ xs.length = 64 * (outF * nblk) ∧
      dequantNvfp4 (gather packed (rowMap σ (nblk * 36))) (64 * (outF * nblk)) =
        some (gather xs (rowMap σ (nblk * 64))) := by
  have hpos : ∀ B, B < outF * nblk → 0 < nblk := fun B hB => Nat.pos_of_ne_zero fun h0 => by
    simp [h0] at hB
  exact dequantNvfp4_gather hlen (fun B hB => rowMap_lt hσ hB)
    (fun B t hB ht => rowMap_scale (hpos B hB) ht) fun B e hB he => rowMap_scale (hpos B hB) he

theorem nvfp4_cols {packed : List UInt8} {nk vpk bph : ℕ}
    (hlen : packed.length = outF * (nk * vpk * bph) * 36) :
    ∃ xs, dequantNvfp4 packed (64 * (outF * (nk * vpk * bph))) = some xs ∧
      xs.length = 64 * (outF * (nk * vpk * bph)) ∧
      dequantNvfp4 (gather packed (colMap (chunkSrc 0 (bph * 36) nk vpk) (nk * vpk * bph * 36)))
        (64 * (outF * (nk * vpk * bph))) =
        some (gather xs (colMap (chunkSrc 0 (bph * 64) nk vpk) (nk * vpk * bph * 64))) := by
  have hpos : ∀ B, B < outF * (nk * vpk * bph) → 0 < nk * vpk * bph := fun B hB =>
    Nat.pos_of_ne_zero fun h0 => by simp [h0] at hB
  have hscale {k t : ℕ} (ht : t < k) (x : ℕ) :
      chunkSrc 0 (bph * k) nk vpk (x * k + t) = chunkSrc 0 bph nk vpk x * k + t := by
    have : chunkSrc (0 * k) (bph * k) nk vpk (x * k + t) = chunkSrc 0 bph nk vpk x * k + t :=
      chunkSrc_scale ht
    rwa [Nat.zero_mul] at this
  exact dequantNvfp4_gather hlen
    (fun B hB => colMap_lt (fun c hc => chunkSrc_lt (by omega) hc) hB)
    (fun B t hB ht => colMap_scale (hpos B hB) ht (hscale ht))
    fun B e hB he => colMap_scale (hpos B hB) he (hscale he)

/-- The packed reorder is that of the elements, unless heads of columns share blocks. -/
theorem applyNvfp4_spec {packed : List UInt8} (hcfg : headParams cfg = some p)
    (hkind : reorderOf p kind = some r) (hfit : r.Fits p outF inF) (hin : inF % 64 = 0)
    (hlen : packed.length = outF * (inF / 64 * 36)) :
    ∃ xs, dequantNvfp4 packed (outF * inF) = some xs ∧ xs.length = outF * inF ∧
      if r.rows = true ∨ r.headDim % 64 = 0 then
        ∃ out, applyNvfp4 kind packed outF inF cfg = some (some ([inF, outF], out)) ∧
          dequantNvfp4 out (outF * inF) = some (gather xs (r.cells p inF))
      else applyNvfp4 kind packed outF inF cfg = none := by
  obtain ⟨nblk, rfl⟩ : ∃ nblk, inF = nblk * 64 := ⟨inF / 64, by omega⟩
  have hnblk : nblk * 64 / 64 = nblk := by omega
  rw [hnblk] at hlen
  have hblocks : packed.length = outF * nblk * 36 := by rw [hlen, Nat.mul_assoc]
  have hn : outF * (nblk * 64) = 64 * (outF * nblk) := by ring
  have hσ := fun d => hfit.lt (d := d)
  obtain ⟨nk, nv, hk, hv⟩ := p
  obtain ⟨hnk, hdvd, hband⟩ := hfit
  dsimp only at hnk hdvd hband
  obtain ⟨vpk, rfl⟩ := hdvd
  have hvpk : nk * vpk / nk = vpk := Nat.mul_div_cancel_left _ hnk
  rw [hn]
  have hrows {headDim lo : ℕ} (hb : lo + nk * vpk * headDim = outF) :
      ∃ xs, dequantNvfp4 packed (64 * (outF * nblk)) = some xs ∧ xs.length = 64 * (outF * nblk) ∧
        ∃ out, reorderRowsNvfp4 packed outF (nblk * 36) (nk * vpk) nk headDim lo outF = some out ∧
          dequantNvfp4 out (64 * (outF * nblk)) =
            some (gather xs (rowMap (chunkSrc lo headDim nk vpk) (nblk * 64))) := by
    obtain ⟨xs, hxs, hlenx, hys⟩ := nvfp4_rows (σ := chunkSrc lo headDim nk vpk)
      (fun d hd => chunkSrc_lt hb.le hd) hblocks
    refine ⟨xs, hxs, hlenx, _, ?_, hys⟩
    rw [reorderRowsNvfp4, ensure, if_pos hlen, ensure, if_pos (by omega), moveRows_eq hnk hb.le hlen]
    rfl
  unfold applyNvfp4
  simp only [hcfg, hnblk, Option.bind_eq_bind, Option.bind_some]
  cases kind <;> simp only [reorderOf, reduceCtorEq, Option.some.injEq] at hkind <;> subst hkind
  all_goals
    simp only [Reorder.axis, if_true, if_false, Bool.false_eq_true] at hband
    simp only [Reorder.cells, Reorder.map, true_or, false_or, if_true, if_false, Bool.false_eq_true, hvpk]
  · obtain ⟨xs, hxs, hlenx, out, hrun, hys⟩ := hrows hband
    exact ⟨xs, hxs, hlenx, out, by rw [hrun]; rfl, hys⟩
  · obtain ⟨xs, hxs, hlenx, out, hrun, hys⟩ := hrows hband
    exact ⟨xs, hxs, hlenx, out, by rw [hrun]; rfl, hys⟩
  · obtain ⟨xs, hxs, hlenx, out, hrun, hys⟩ := hrows hband
    exact ⟨xs, hxs, hlenx, out, by rw [hrun]; rfl, hys⟩
  · by_cases hdim : hv % 64 = 0
    · obtain ⟨bph, rfl⟩ : ∃ bph, hv = bph * 64 := ⟨hv / 64, by omega⟩
      obtain rfl : nblk = nk * vpk * bph := by
        have : nk * vpk * (bph * 64) = nk * vpk * bph * 64 := by ring
        omega
      obtain ⟨xs, hxs, hlenx, hys⟩ := nvfp4_cols hblocks
      simp only [hdim, if_true]
      refine ⟨xs, hxs, hlenx, _, ?_, hys⟩
      rw [reorderColsNvfp4_eq hnk hlen]
      rfl
    · have hfail : reorderColsNvfp4 packed outF (nblk * 64) (nk * vpk) nk hv = none := by
        rw [reorderColsNvfp4, ensure, if_pos (by omega), ensure, if_neg hdim]
        rfl
      have hxs : dequantNvfp4 packed (64 * (outF * nblk)) =
          some ((List.range (64 * (outF * nblk))).map (packedValue packed)) := dequantGgufRow_eq hblocks
      simp only [hdim, if_false, hfail]
      exact ⟨_, hxs, by simp, rfl⟩

/-! ## The block form -/

section f8

variable {S V : Type} [Inhabited S] [Inhabited V] (deq : UInt8 → S → V) {codes : List UInt8}
  {scales : List S} {cols : ℕ} {σ b : ℕ → ℕ}

/-- Where the scale of element `i` stands in the grid. -/
def gridCell (inF cols i : ℕ) : ℕ := i / inF / 128 * cols + i % inF / 128

theorem gridCell_lt (hcols : cols = divCeil inF 128) {i : ℕ} (hi : i < outF * inF) :
    gridCell inF cols i < divCeil outF 128 * cols := by
  obtain ⟨o, ho, e, he, rfl⟩ := exists_row_col hi
  have hrow : o / 128 < divCeil outF 128 := (lt_divCeil (by decide)).2 (by omega)
  have hcol : e / 128 < cols := hcols ▸ (lt_divCeil (by decide)).2 (by omega)
  rw [gridCell, (row_col_div he).1, (row_col_div he).2]
  exact row_col_lt hrow hcol

/-- Codes in a new order dequantize to the values in that order, when the grid follows them. -/
theorem f8_gather {f g : ℕ → ℕ} (hcodes : codes.length = outF * inF) (hcols : cols = divCeil inF 128)
    (hscales : scales.length = divCeil outF 128 * cols) (hf : ∀ i, i < outF * inF → f i < outF * inF)
    (hg : ∀ i, i < outF * inF → g (gridCell inF cols i) = gridCell inF cols (f i)) :
    ∃ xs, f8DeqF32 deq codes outF inF scales cols = some xs ∧ xs.length = outF * inF ∧
      f8DeqF32 deq (gather codes f) outF inF (gather scales g) cols = some (gather xs f) := by
  have hys : f8DeqF32 deq (gather codes f) outF inF (gather scales g) cols = some
      ((List.range (outF * inF)).map (f8Value deq (gather codes f) (gather scales g) inF cols)) :=
    f8DeqF32_eq (by simpa using hcodes) hcols (by simpa using hscales)
  refine ⟨_, f8DeqF32_eq hcodes hcols hscales, by simp, ?_⟩
  rw [hys, gather_range hf]
  congr 1
  refine List.map_congr_left fun i hi => ?_
  have hi := List.mem_range.1 hi
  have hcell := gridCell_lt hcols hi
  have hgi := hg i hi
  rw [gridCell] at hcell hgi
  rw [f8Value, getD_gather (by omega), getD_gather (by omega), hgi, f8Value, gridCell]

/-- Rows with the grid rows of their blocks. -/
theorem f8_rows (hcodes : codes.length = outF * inF) (hcols : cols = divCeil inF 128)
    (hscales : scales.length = divCeil outF 128 * cols) (hσ : ∀ d, d < outF → σ d < outF)
    (hb : ∀ d, d < outF → σ d / 128 = b (d / 128)) :
    ∃ xs, f8DeqF32 deq codes outF inF scales cols = some xs ∧ xs.length = outF * inF ∧
      f8DeqF32 deq (gather codes (rowMap σ inF)) outF inF (gather scales (rowMap b cols)) cols =
        some (gather xs (rowMap σ inF)) := by
  refine f8_gather deq hcodes hcols hscales (fun i hi => rowMap_lt hσ hi) fun i hi => ?_
  obtain ⟨o, ho, e, he, rfl⟩ := exists_row_col hi
  have hcol : e / 128 < cols := hcols ▸ (lt_divCeil (by decide)).2 (by omega)
  rw [rowMap_at he, gridCell, gridCell, (row_col_div he).1, (row_col_div he).2, (row_col_div he).1,
    (row_col_div he).2, rowMap_at hcol, hb o ho]

/-- Columns with the grid columns of their blocks. -/
theorem f8_cols (hcodes : codes.length = outF * inF) (hcols : cols = divCeil inF 128)
    (hscales : scales.length = divCeil outF 128 * cols) (hσ : ∀ d, d < inF → σ d < inF)
    (hb : ∀ d, d < inF → σ d / 128 = b (d / 128)) :
    ∃ xs, f8DeqF32 deq codes outF inF scales cols = some xs ∧ xs.length = outF * inF ∧
      f8DeqF32 deq (gather codes (colMap σ inF)) outF inF (gather scales (colMap b cols)) cols =
        some (gather xs (colMap σ inF)) := by
  refine f8_gather deq hcodes hcols hscales (fun i hi => colMap_lt hσ hi) fun i hi => ?_
  obtain ⟨o, ho, e, he, rfl⟩ := exists_row_col hi
  have hcol : e / 128 < cols := hcols ▸ (lt_divCeil (by decide)).2 (by omega)
  rw [colMap_at he, gridCell, gridCell, (row_col_div he).1, (row_col_div he).2,
    (row_col_div (hσ e he)).1, (row_col_div (hσ e he)).2, colMap_at hcol, hb e he]

theorem axisPerm_eq (hkind : reorderOf p kind = some r) (hfit : r.Fits p outF inF) :
    axisPerm kind outF inF p =
      some (some (r.rows, (List.range (r.axis outF inF)).map (r.map p))) := by
  obtain ⟨nk, nv, hk, hv⟩ := p
  obtain ⟨hnk, hdvd, hband⟩ := hfit
  dsimp only at hnk hdvd hband
  obtain ⟨vpk, rfl⟩ := hdvd
  have hvpk : nk * vpk / nk = vpk := Nat.mul_div_cancel_left _ hnk
  unfold axisPerm
  cases kind <;> simp only [reorderOf, reduceCtorEq, Option.some.injEq] at hkind <;> subst hkind
  all_goals
    simp only [Reorder.axis, if_true, if_false, Bool.false_eq_true] at hband
    simp only [Reorder.map, Reorder.axis, if_true, if_false, Bool.false_eq_true, hvpk,
      Nat.mul_assoc 2 nk hk]
  · rw [vPerm_eq hnk le_rfl hband]
    rfl
  · rw [vPerm_eq hnk le_rfl hband]
    rfl
  · rw [vPerm_eq hnk le_rfl hband]
    rfl
  · rw [vPerm_eq hnk le_rfl hband]
    rfl

/-- An unmixed permutation moves the codes, and the permutation of the blocks the grid. -/
theorem permuteBlk_spec (hfit : r.Fits p outF inF) (hcodes : codes.length = outF * inF)
    (hcols : cols = divCeil inF 128) (hscales : scales.length = divCeil outF 128 * cols)
    (hmix : ∀ d, d < r.axis outF inF → r.map p d / 128 = r.map p (d / 128 * 128) / 128) :
    ∃ xs, f8DeqF32 deq codes outF inF scales cols = some xs ∧ xs.length = outF * inF ∧ ∃ nc ns,
      permuteBlk r.rows ((List.range (r.axis outF inF)).map (r.map p))
        ((List.range (divCeil (r.axis outF inF) 128)).map fun D => r.map p (D * 128) / 128) codes
        outF inF scales (divCeil outF 128) cols = some (nc, ns) ∧
      nc.length = codes.length ∧ ns.length = scales.length ∧
      f8DeqF32 deq nc outF inF ns cols = some (gather xs (r.cells p inF)) := by
  have hσ := fun d => hfit.lt (d := d)
  have hb : ∀ D, D < divCeil (r.axis outF inF) 128 →
      r.map p (D * 128) / 128 < divCeil (r.axis outF inF) 128 := fun D hD => by
    have := hσ _ ((lt_divCeil (by decide)).1 hD)
    exact (lt_divCeil (by decide)).2 (by omega)
  unfold permuteBlk
  by_cases hrows : r.rows = true
  · have haxis : r.axis outF inF = outF := by simp [Reorder.axis, hrows]
    simp only [haxis] at hσ hb hmix ⊢
    obtain ⟨xs, hxs, hlenx, hys⟩ := f8_rows deq (b := fun D => r.map p (D * 128) / 128)
      hcodes hcols hscales hσ hmix
    rw [if_pos hrows, gatherRows_eq hcodes hσ, gatherRows_eq hscales hb]
    refine ⟨xs, hxs, hlenx, _, _, rfl, length_gather, length_gather, ?_⟩
    rw [hys, Reorder.cells, if_pos hrows]
  · have haxis : r.axis outF inF = inF := by simp [Reorder.axis, hrows]
    simp only [haxis, ← hcols] at hσ hb hmix ⊢
    obtain ⟨xs, hxs, hlenx, hys⟩ := f8_cols deq (b := fun D => r.map p (D * 128) / 128)
      hcodes hcols hscales hσ hmix
    rw [if_neg hrows, gatherCols_eq hcodes hσ, gatherCols_eq hscales hb]
    refine ⟨xs, hxs, hlenx, _, _, rfl, length_gather, length_gather, ?_⟩
    rw [hys, Reorder.cells, if_neg hrows]

/-- The block form moves codes and grid by the permutation, unless it mixes blocks. -/
theorem applyFp8Blk_spec (hcfg : headParams cfg = some p) (hkind : reorderOf p kind = some r)
    (hfit : r.Fits p outF inF) (hcodes : codes.length = outF * inF) (hcols : cols = divCeil inF 128)
    (hscales : scales.length = divCeil outF 128 * cols) :
    ∃ xs, f8DeqF32 deq codes outF inF scales cols = some xs ∧ xs.length = outF * inF ∧
      (MovesBlocks (r.axis outF inF) 128 (r.map p) → ∃ nc ns,
        applyFp8Blk kind codes outF inF scales cols cfg =
          some (some ([inF, outF], nc, ns, divCeil outF 128, cols)) ∧
        nc.length = codes.length ∧ ns.length = scales.length ∧
        f8DeqF32 deq nc outF inF ns cols = some (gather xs (r.cells p inF))) ∧
      (¬MovesBlocks (r.axis outF inF) 128 (r.map p) →
        applyFp8Blk kind codes outF inF scales cols cfg = some none) := by
  have haxis := axisPerm_eq hkind hfit
  have hblk := block128Perm_eq (n := r.axis outF inF) (σ := r.map p)
  have hsizes : ¬(codes.length ≠ outF * inF ∨ cols ≠ divCeil inF 128) := by simp [hcodes, hcols]
  have hgrid : ¬scales.length ≠ divCeil outF 128 * cols := by simp [hscales]
  rw [hfit.movesBlocks_iff]
  by_cases hmix : ∀ d, d < r.axis outF inF → r.map p d / 128 = r.map p (d / 128 * 128) / 128
  · rw [if_pos hmix] at hblk
    obtain ⟨xs, hxs, hlenx, nc, ns, hperm, hnc, hns, hys⟩ :=
      permuteBlk_spec deq hfit hcodes hcols hscales hmix
    refine ⟨xs, hxs, hlenx, fun _ => ⟨nc, ns, ?_, hnc, hns, hys⟩, fun h => absurd hmix h⟩
    unfold applyFp8Blk
    simp only [hcfg, haxis, hblk, hperm, if_neg hsizes, if_neg hgrid, Option.bind_eq_bind,
      Option.bind_some]
  · rw [if_neg hmix] at hblk
    refine ⟨_, f8DeqF32_eq hcodes hcols hscales, by simp, fun h => absurd h hmix, fun _ => ?_⟩
    unfold applyFp8Blk
    simp only [hcfg, haxis, hblk, if_neg hsizes, if_neg hgrid, Option.bind_eq_bind, Option.bind_some]

theorem vPerm_accepts {n nv nk headDim lo : ℕ} {q : List ℕ}
    (h : vPerm n nv nk headDim lo n = some (some q)) :
    0 < nk ∧ nk ∣ nv ∧ lo + nv * headDim = n := by
  unfold vPerm at h
  split at h
  · simp at h
  · next hband =>
    by_cases hnk : nk = 0
    · simp [ensure, hnk] at h
    · by_cases hdvd : nv % nk = 0
      · exact ⟨Nat.pos_of_ne_zero hnk, Nat.dvd_of_mod_eq_zero hdvd, by omega⟩
      · simp [ensure, hnk, hdvd] at h

theorem axisPerm_accepts {q : Bool × List ℕ} (h : axisPerm kind outF inF p = some (some q)) :
    ∃ r, reorderOf p kind = some r ∧ r.Fits p outF inF := by
  have hperm {row : Bool} {perm : Option (Option (List ℕ))}
      (h : (perm.map fun l => l.map fun l => (row, l)) = some (some q)) : ∃ l, perm = some (some l) := by
    obtain ⟨l, rfl, hl⟩ := Option.map_eq_some_iff.1 h
    obtain ⟨l, rfl, -⟩ := Option.map_eq_some_iff.1 hl
    exact ⟨l, rfl⟩
  unfold axisPerm at h
  cases kind <;> simp only [Option.some.injEq, reduceCtorEq] at h
  all_goals
    obtain ⟨l, hl⟩ := hperm h
    obtain ⟨hnk, hdvd, hband⟩ := vPerm_accepts hl
    refine ⟨_, rfl, hnk, hdvd, ?_⟩
    simp only [Reorder.axis, if_true, if_false, Bool.false_eq_true]
  · rw [← Nat.mul_assoc, hband]
  · rw [hband]
  · rw [hband]
  · rw [hband]

/-- **The block form is accepted** for the right sizes and a permutation that moves whole blocks. -/
theorem applyFp8Blk_accepts_iff (hcfg : headParams cfg = some p) :
    (∃ res, applyFp8Blk kind codes outF inF scales cols cfg = some (some res)) ↔
      codes.length = outF * inF ∧ cols = divCeil inF 128 ∧ scales.length = divCeil outF 128 * cols ∧
        ∃ r, reorderOf p kind = some r ∧ r.Fits p outF inF ∧
          MovesBlocks (r.axis outF inF) 128 (r.map p) := by
  constructor
  · rintro ⟨res, h⟩
    have hrun := h
    unfold applyFp8Blk at h
    simp only [hcfg, Option.bind_eq_bind, Option.bind_some] at h
    split at h
    · simp at h
    · next hsizes =>
      simp only [not_or, not_not] at hsizes
      split at h
      · simp at h
      · next hscales =>
        rw [not_not] at hscales
        refine ⟨hsizes.1, hsizes.2, hscales, ?_⟩
        obtain ⟨_ | q, hq, h⟩ := Option.bind_eq_some_iff.1 h
        · simp at h
        · obtain ⟨r, hkind, hfit⟩ := axisPerm_accepts hq
          refine ⟨r, hkind, hfit, ?_⟩
          by_contra hmix
          obtain ⟨_, -, -, -, hrefuse⟩ := applyFp8Blk_spec (fun _ (_ : S) => ()) hcfg hkind hfit hsizes.1
            hsizes.2 hscales
          simp [hrefuse hmix] at hrun
  · rintro ⟨hcodes, hcols, hscales, r, hkind, hfit, hmoves⟩
    obtain ⟨_, -, -, haccept, -⟩ := applyFp8Blk_spec (fun _ (_ : S) => ()) hcfg hkind hfit hcodes hcols
      hscales
    obtain ⟨nc, ns, hrun, -⟩ := haccept hmoves
    exact ⟨_, hrun⟩

end f8

/-! ## Reorder and dequantize -/

/-- **V-head reorders commute with dequantization**, for every geometry whose heads fill the axis: on packed
bytes, where columns need heads of whole blocks, and on FP8 codes and grid. The block form is accepted
exactly when the permutation moves whole blocks. -/
theorem reorder_commutes {S V : Type} [Inhabited S] [Inhabited V] (F : F32Ops ℚ) (G : F32Ops V)
    (deq : UInt8 → S → V) (debug : Bool) (kind : TransformKind) (cfg : ModelConfig) (p : HeadParams)
    (hcfg : headParams cfg = some p) (outF inF : ℕ) :
    (∀ r, reorderOf p kind = some r → r.Fits p outF inF →
      (∀ packed : List UInt8, inF % 64 = 0 → packed.length = outF * (inF / 64 * 36) →
        ∃ xs ys, dequantNvfp4 packed (outF * inF) = some xs ∧
          apply F debug kind xs [inF, outF] cfg = some ([inF, outF], ys) ∧
          if r.rows = true ∨ r.headDim % 64 = 0 then
            ∃ out, applyNvfp4 kind packed outF inF cfg = some (some ([inF, outF], out)) ∧
              dequantNvfp4 out (outF * inF) = some ys
          else applyNvfp4 kind packed outF inF cfg = none) ∧
      ∀ (codes : List UInt8) (scales : List S) (cols : ℕ), codes.length = outF * inF →
        cols = divCeil inF 128 → scales.length = divCeil outF 128 * cols →
        ∃ xs ys, f8DeqF32 deq codes outF inF scales cols = some xs ∧
          apply G debug kind xs [inF, outF] cfg = some ([inF, outF], ys) ∧
          ys = gather xs (r.cells p inF) ∧
          (MovesBlocks (r.axis outF inF) 128 (r.map p) → ∃ nc ns,
            applyFp8Blk kind codes outF inF scales cols cfg =
              some (some ([inF, outF], nc, ns, divCeil outF 128, cols)) ∧
            f8DeqF32 deq nc outF inF ns cols = some ys)) ∧
    ∀ (codes : List UInt8) (scales : List S) (cols : ℕ),
      (∃ res, applyFp8Blk kind codes outF inF scales cols cfg = some (some res)) ↔
        codes.length = outF * inF ∧ cols = divCeil inF 128 ∧ scales.length = divCeil outF 128 * cols ∧
          ∃ r, reorderOf p kind = some r ∧ r.Fits p outF inF ∧
            MovesBlocks (r.axis outF inF) 128 (r.map p) := by
  refine ⟨fun r hkind hfit => ⟨fun packed hin hlen => ?_, fun codes scales cols hcodes hcols hscales => ?_⟩,
    fun codes scales cols => applyFp8Blk_accepts_iff hcfg⟩
  · obtain ⟨xs, hxs, hlenx, hpacked⟩ := applyNvfp4_spec hcfg hkind hfit hin hlen
    exact ⟨xs, _, hxs, apply_eq hcfg hkind hfit hlenx, hpacked⟩
  · obtain ⟨xs, hxs, hlenx, hmoves, -⟩ := applyFp8Blk_spec deq hcfg hkind hfit hcodes hcols hscales
    refine ⟨xs, _, hxs, apply_eq hcfg hkind hfit hlenx, rfl, fun h => ?_⟩
    obtain ⟨nc, ns, hrun, -, -, hys⟩ := hmoves h
    exact ⟨nc, ns, hrun, hys⟩

/-- Two key heads with two value heads each, of dimension `d`. -/
def fourHeads (d : ℕ) : ModelConfig where
  ssm := some { stateSize := d, timeStepRank := 4, groupCount := 2 }

theorem reorder_commutes_four : ∃ xs ys, dequantNvfp4 (List.replicate 144 0x38) (4 * 64) = some xs ∧
    apply ⟨(· + 1), (- ·)⟩ true .zReorderRows xs [64, 4] (fourHeads 1) = some ([64, 4], ys) ∧
    ∃ out, applyNvfp4 .zReorderRows (List.replicate 144 0x38) 4 64 (fourHeads 1) =
        some (some ([64, 4], out)) ∧ dequantNvfp4 out (4 * 64) = some ys := by
  have hfit : Reorder.Fits { rows := true, headDim := 1, lo := 0 } ⟨2, 4, 1, 1⟩ 4 64 :=
    ⟨by decide, by decide, rfl⟩
  obtain ⟨hpacked, -⟩ := (reorder_commutes (S := ℚ) ⟨(· + 1), (- ·)⟩ ⟨(· + 1), (- ·)⟩
    (fun c s => value c 0x38 * s) true .zReorderRows (fourHeads 1) ⟨2, 4, 1, 1⟩ rfl 4 64).1 _ rfl hfit
  simpa using hpacked (List.replicate 144 0x38) (by decide) (by simp)

/-- Heads of 32 columns share blocks: the packed reorder refuses what the values allow. -/
theorem packed_cols_refused : ¬∀ (packed : List UInt8) (outF inF d : ℕ), inF % 64 = 0 →
    inF = 4 * d → packed.length = outF * (inF / 64 * 36) →
    ∃ xs ys out, dequantNvfp4 packed (outF * inF) = some xs ∧
      apply (⟨(· + 1), (- ·)⟩ : F32Ops ℚ) true .outReorderCols xs [inF, outF] (fourHeads d) =
        some ([inF, outF], ys) ∧
      applyNvfp4 .outReorderCols packed outF inF (fourHeads d) = some (some ([inF, outF], out)) ∧
      dequantNvfp4 out (outF * inF) = some ys := by
  intro h
  obtain ⟨-, -, out, -, -, hrun, -⟩ := h (List.replicate 72 0) 1 128 32 (by decide) (by decide) (by simp)
  simp [applyNvfp4, reorderColsNvfp4, ensure, headParams, fourHeads] at hrun

end Memra.HfMapping
