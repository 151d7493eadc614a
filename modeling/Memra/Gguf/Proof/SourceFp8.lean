import Memra.Gguf.Proof.SourceNvfp4

/-!
# FP8 weights of a checkpoint

`f8_deq_f32` gives every code times its scale, for scales of every granularity that `f8_scales` makes
(`f8DeqF32_eq`). The native codes of an FP8 weight, times their scales, are then what `deq_f32` and the
V-head reorder make of it (`findFp8Native_values`): the codes are those of the file, or moved together with
their grid, or encoded anew from values that have a code (`encodeE4m3_code`).
-/

namespace Memra.StSource

open Lib Nvfp4 HfMapping

/-! ## Scales -/

/-- There is a scale for every element. -/
def F8Scales.Fits (scales : F8Scales) (outF inF : ℕ) : Prop :=
  match scales with
  | .perTensor _ => True
  | .perRow v => v.length = outF
  | .block128 grid cols => cols = divCeil inF 128 ∧ grid.length = divCeil outF 128 * cols

/-- The scale of row `o` and column `e`. -/
def F8Scales.scale (scales : F8Scales) (o e : ℕ) : Num := (scales.scaleAt o e).getD none

theorem F8Scales.Fits.scaleAt {scales : F8Scales} {outF inF o e : ℕ} (h : scales.Fits outF inF)
    (ho : o < outF) (he : e < inF) : scales.scaleAt o e = some (scales.scale o e) := by
  unfold F8Scales.scale
  cases scales with
  | perTensor sc => rfl
  | perRow v =>
    have hlt : o < v.length := by rwa [h]
    simp [F8Scales.scaleAt, hlt]
  | block128 grid cols =>
    obtain ⟨hcols, hgrid⟩ := h
    have hlt : o / 128 * cols + e / 128 < grid.length := by
      rw [hgrid]
      refine row_col_lt ((lt_divCeil (by decide)).2 (by omega)) ?_
      rw [hcols]
      exact (lt_divCeil (by decide)).2 (by omega)
    simp [F8Scales.scaleAt, hlt]

theorem F8Scales.scale_chunk (scales : F8Scales) {o e e' : ℕ} (h : e / 128 = e' / 128) :
    scales.scale o e = scales.scale o e' := by
  unfold F8Scales.scale
  cases scales <;> simp [F8Scales.scaleAt, h]

/-- Element `i` of an FP8 weight. -/
def f8Element (bytes : List UInt8) (scales : F8Scales) (inF i : ℕ) : Num :=
  f8Value (bytes.getD i default) (scales.scale (i / inF) (i % inF))

section deq

variable {bytes : List UInt8} {scales : F8Scales} {outF inF : ℕ}

theorem f8Chunks_fills {o : ℕ} (ho : o < outF) (hlen : bytes.length = outF * inF)
    (hfit : scales.Fits outF inF) :
    Fills (outF * inF) (f8Element bytes scales inF) (fun i => o * inF + 0 ≤ i ∧ i < o * inF + inF)
      (f8Chunks bytes inF scales o 0) := by
  have hrow := row_add_le (w := inF) ho
  refine Fills.chunks (fun e => min (e + 128 - e % 128) inF) (fun e he => by omega)
    (fun e he => ?_) (fun data => by rw [f8Chunks, if_neg (lt_irrefl _)]) 0 (Nat.zero_le _)
  have hchunk := fills_each (n := outF * inF) (f := f8Element bytes scales inF)
    (o * inF + e) (min (e + 128 - e % 128) inF - e) bytes
    (fun c => f8Value c (scales.scale o e)) (by omega) (by omega) fun k c hk hc => by
      have hcol : e + k < inF := by omega
      have hblock : (e + k) / 128 = e / 128 := by omega
      rw [f8Element, Nat.add_assoc, (row_col_div hcol).1, (row_col_div hcol).2,
        scales.scale_chunk hblock, ← Nat.add_assoc, List.getD_eq_getElem?_getD, hc, Option.getD_some]
  simp only [Nat.add_assoc] at hchunk
  refine ⟨_, hchunk.mono fun i _ => by omega, fun data => ?_⟩
  rw [f8Chunks, if_pos he, hfit.scaleAt ho he]
  rfl

theorem f8DeqF32_eq (hlen : bytes.length = outF * inF) (hfit : scales.Fits outF inF) :
    f8DeqF32 bytes outF inF scales =
      some ((List.range (outF * inF)).map (f8Element bytes scales inF)) := by
  unfold f8DeqF32
  refine Fills.all (Fills.loop fun o ho => f8Chunks_fills ho hlen hfit)
    (fun i hi => ?_) (by simp)
  obtain ⟨o, ho, c, hc, rfl⟩ := exists_row_col hi
  exact ⟨o, ho, by omega, by omega⟩

/-- On a grid of blocks it is the `f8_deq_f32` of the reorders. -/
theorem f8DeqF32_block {grid : List Num} {cols : ℕ} (hlen : bytes.length = outF * inF)
    (hcols : cols = divCeil inF 128) (hgrid : grid.length = divCeil outF 128 * cols) :
    f8DeqF32 bytes outF inF (.block128 grid cols) =
      HfMapping.f8DeqF32 f8Value bytes outF inF grid cols := by
  have hfit : (F8Scales.block128 grid cols).Fits outF inF := ⟨hcols, hgrid⟩
  rw [f8DeqF32_eq hlen hfit, HfMapping.f8DeqF32_eq hlen hcols hgrid]
  rfl

end deq

/-! ## The scales that `f8_scales` makes -/

theorem length_f32s (b : List UInt8) : (f32s b).length = b.length / 4 := by
  fun_induction f32s b with
  | case1 b0 b1 b2 b3 rest ih =>
    simp only [List.length_cons, ih]
    omega
  | case2 b h =>
    have hlt : b.length < 4 := by
      by_contra hge
      obtain _ | ⟨b0, _ | ⟨b1, _ | ⟨b2, _ | ⟨b3, rest⟩⟩⟩⟩ := b <;> simp at hge
      exact h b0 b1 b2 b3 rest rfl
    simp [Nat.div_eq_of_lt hlt]

theorem length_bf16s (b : List UInt8) : (bf16s b).length = b.length / 2 := by
  fun_induction bf16s b with
  | case1 lo hi rest ih =>
    simp only [List.length_cons, ih]
    omega
  | case2 b h =>
    have hlt : b.length < 2 := by
      by_contra hge
      obtain _ | ⟨b0, _ | ⟨b1, rest⟩⟩ := b <;> simp at hge
      exact h b0 b1 rest rfl
    simp [Nat.div_eq_of_lt hlt]

/-- Every scale is a finite number above zero. -/
def F8Scales.Positive (scales : F8Scales) : Prop :=
  match scales with
  | .perTensor sc => positive sc = true
  | .perRow v => v.all positive = true
  | .block128 grid _ => grid.all positive = true

theorem length_f8ScaleValues {t : Tensor} {vals : List Num} (h : f8ScaleValues t = some vals) :
    vals.length = t.shape.prod := by
  unfold f8ScaleValues at h
  dsimp only at h
  split at h
  · obtain rfl := Option.some.inj h
    rw [length_f32s, List.length_take]
    omega
  · split at h
    · obtain rfl := Option.some.inj h
      rw [length_bf16s, List.length_take]
      omega
    · simp at h

theorem f8Scales_spec {t : Tensor} {outF inF : ℕ} {scales : F8Scales}
    (h : f8Scales t outF inF = some scales) : scales.Fits outF inF ∧ scales.Positive := by
  unfold f8Scales at h
  obtain ⟨vals, hvals, h⟩ := Option.bind_eq_some_iff.1 h
  have hlen := length_f8ScaleValues hvals
  split at h
  · simp at h
  next hpos =>
  rw [not_not] at hpos
  split at h
  · obtain ⟨sc, hsc, rfl⟩ := Option.map_eq_some_iff.1 h
    exact ⟨trivial, List.all_eq_true.1 hpos sc (List.mem_of_getElem? hsc)⟩
  split at h
  · next hrow =>
    obtain rfl := Option.some.inj h
    exact ⟨hlen.trans hrow, hpos⟩
  dsimp only at h
  split at h
  · next hgrid =>
    obtain rfl := Option.some.inj h
    refine ⟨⟨rfl, ?_⟩, hpos⟩
    simp [hlen, hgrid]
  · simp at h

/-! ## Encoding anew -/

theorem encodeE4m3_codes : ∀ c : Fin 256,
    fp8E4m3ToF32 (encodeE4m3 (some (fp8E4m3ToF32 (UInt8.ofNat c)))) = fp8E4m3ToF32 (UInt8.ofNat c) := by
  decide +kernel

/-- **The value of a code is encoded as a code of that value.** -/
theorem encodeE4m3_code (c : UInt8) : fp8E4m3ToF32 (encodeE4m3 (some (fp8E4m3ToF32 c))) = fp8E4m3ToF32 c := by
  simpa using encodeE4m3_codes ⟨c.toNat, c.toNat_lt⟩

/-- A code times a scale, divided by the scale and encoded, has the same value. -/
theorem f8Value_encode {sc : Num} (hsc : positive sc = true) (c : UInt8) :
    f8Value (encodeE4m3 (div (f8Value c sc) sc)) sc = f8Value c sc := by
  cases sc with
  | none => simp [positive] at hsc
  | some x =>
    have hx : x ≠ 0 := by
      simp [positive] at hsc
      exact hsc.ne'
    have hdiv : div (f8Value c (some x)) (some x) = some (fp8E4m3ToF32 c) := by
      simp [div, f8Value, mul, hx]
    rw [hdiv, f8Value, encodeE4m3_code, f8Value]

/-! ## The native codes -/

section native

variable {s : SafetensorsSource} {hf stem : List Char} {t : Tensor} {outF inF : ℕ} {scales : F8Scales}

/-- What `fp8_quant` finds: a matrix of codes with a positive scale for each. -/
theorem fp8Quant_spec (h : s.fp8Quant hf stem = some (t, outF, inF, scales)) :
    s.lookup hf = some t ∧ t.dtype = "F8_E4M3" ∧ t.shape = [outF, inF] ∧ t.bytes.length = outF * inF ∧
      scales.Fits outF inF ∧ scales.Positive := by
  unfold SafetensorsSource.fp8Quant at h
  obtain ⟨t', ht, h⟩ := Option.bind_eq_some_iff.1 h
  split at h
  · next dtype shape outF' inF' hdtype hshape =>
    obtain ⟨sib, -, h⟩ := Option.bind_eq_some_iff.1 h
    obtain ⟨sc, hsc, h⟩ := Option.bind_eq_some_iff.1 h
    simp only [Option.some.injEq, Prod.mk.injEq] at h
    obtain ⟨rfl, rfl, rfl, rfl⟩ := h
    have hsized := t'.sized 1 (by rw [hdtype]; rfl)
    obtain ⟨hfit, hpos⟩ := f8Scales_spec hsc
    exact ⟨ht, hdtype, hshape, by simpa [hshape] using hsized, hfit, hpos⟩
  · simp at h

theorem deqF32_fp8 (hstem : hf.dropSuffix? ".weight".toList = some stem) (hq : s.nvfp4Quant hf = none)
    (h : s.fp8Quant hf stem = some (t, outF, inF, scales)) :
    s.deqF32 hf =
      some (some ((List.range (outF * inF)).map (f8Element t.bytes scales inF), [inF, outF])) := by
  obtain ⟨-, -, hshape, hlen, hfit, -⟩ := fp8Quant_spec h
  unfold SafetensorsSource.deqF32
  rw [hstem]
  dsimp only
  rw [hq, h]
  simp [f8DeqF32_eq hlen hfit, Tensor.ne, hshape]

/-- A target that moves the elements of a matrix, or leaves them where they are. -/
def Permutes (s : SafetensorsSource) (target : HfTarget) (outF inF : ℕ) : Prop :=
  match target with
  | .plain _ => True
  | .transform _ kind => ∃ p r, headParams s.cfg.heads = some p ∧ reorderOf p kind = some r ∧ r.Fits p outF inF

theorem map_mul_one (xs : List Num) : xs.map (fun x => mul x (some 1)) = xs := by
  have hone : (fun x => mul x (some 1)) = id := by
    funext x
    cases x <;> simp [mul]
  simp [hone]

theorem nativeScale_spec {scale : Num} {blk : Option F8BlockGrid}
    (h : SafetensorsSource.nativeScale scales = some (some (scale, blk))) :
    (scales = .perTensor scale ∧ blk = none) ∨
      ∃ grid cols, scales = .block128 grid cols ∧ scale = some 1 ∧
        blk = some ⟨grid, grid.length / cols, cols⟩ := by
  cases scales with
  | perTensor sc =>
    simp only [SafetensorsSource.nativeScale, Option.some.injEq, Prod.mk.injEq] at h
    obtain ⟨rfl, rfl⟩ := h
    exact .inl ⟨rfl, rfl⟩
  | perRow v => simp [SafetensorsSource.nativeScale] at h
  | block128 grid cols =>
    by_cases hcols : cols = 0
    · simp [SafetensorsSource.nativeScale, ensure, hcols] at h
    · simp only [SafetensorsSource.nativeScale, ensure, hcols, ne_eq, not_false_eq_true, if_true,
        Option.bind_eq_bind, Option.bind_some, Option.some.injEq, Prod.mk.injEq] at h
      obtain ⟨rfl, rfl⟩ := h
      exact .inr ⟨grid, cols, rfl, rfl, rfl⟩

/-- The values of codes with the scales they were found with. -/
theorem values_native {codes : List UInt8} {scale : Num} {blk : Option F8BlockGrid}
    (hcodes : codes.length = outF * inF) (hfit : scales.Fits outF inF)
    (h : SafetensorsSource.nativeScale scales = some (some (scale, blk))) :
    (Fp8Native.mk codes scale blk outF inF).values =
      some ((List.range (outF * inF)).map (f8Element codes scales inF)) := by
  obtain ⟨rfl, rfl⟩ | ⟨grid, cols, rfl, rfl, rfl⟩ := nativeScale_spec h
  · exact f8DeqF32_eq hcodes hfit
  · simp only [Fp8Native.values, f8DeqF32_eq hcodes hfit, Option.map_some, map_mul_one]

section transform

variable {kind : TransformKind} {p : HeadParams} {r : Reorder} {v : Fp8Native}
  (hcfg : headParams s.cfg.heads = some p) (hkind : reorderOf p kind = some r) (hfit : r.Fits p outF inF)
include hcfg hkind hfit

/-- One scale: the moved values are encoded anew. -/
theorem fp8Transform_tensor {sc : Num} (hsc : positive sc = true)
    (hdeq : s.deqF32 hf = some (some ((List.range (outF * inF)).map (f8Element t.bytes (.perTensor sc) inF),
      [inF, outF])))
    (hv : s.fp8Transform hf t outF inF sc none kind = some (some v)) :
    v.inF = inF ∧ v.outF = outF ∧ v.values = some
      (gather ((List.range (outF * inF)).map (f8Element t.bytes (.perTensor sc) inF)) (r.cells p inF)) := by
  have htrue : apply s.num.ops s.env.debug kind
      ((List.range (outF * inF)).map (f8Element t.bytes (.perTensor sc) inF)) [inF, outF] s.cfg.heads = _ :=
    apply_eq hcfg hkind hfit (by simp)
  have hσ : ∀ i, i < outF * inF → r.cells p inF i < outF * inF := fun i hi => cells_lt hfit hi
  unfold SafetensorsSource.fp8Transform at hv
  simp only [hdeq, htrue, Option.bind_eq_bind, Option.bind_some] at hv
  split at hv
  · simp at hv
  obtain rfl := Option.some.inj (Option.some.inj hv)
  refine ⟨rfl, rfl, ?_⟩
  have hone : (F8Scales.perTensor sc).Fits outF inF := trivial
  rw [gather_range hσ]
  refine (f8DeqF32_eq (by simp) hone).trans ?_
  congr 1
  refine List.map_congr_left fun i hi => ?_
  have hi := List.mem_range.1 hi
  simpa [f8Element, F8Scales.scale, F8Scales.scaleAt, hi] using
    f8Value_encode hsc (t.bytes.getD (r.cells p inF i) default)

/-- A grid of scales: codes and grid are moved. -/
theorem fp8Transform_block {grid : List Num} {cols rows : ℕ} (hlen : t.bytes.length = outF * inF)
    (hcols : cols = divCeil inF 128) (hgrid : grid.length = divCeil outF 128 * cols)
    (hv : s.fp8Transform hf t outF inF (some 1) (some ⟨grid, rows, cols⟩) kind = some (some v)) :
    v.inF = inF ∧ v.outF = outF ∧ v.values = some
      (gather ((List.range (outF * inF)).map (f8Element t.bytes (.block128 grid cols) inF))
        (r.cells p inF)) := by
  obtain ⟨xs, hxs, -, haccept, hrefuse⟩ := applyFp8Blk_spec f8Value hcfg hkind hfit hlen hcols hgrid
  rw [← f8DeqF32_block hlen hcols hgrid] at hxs
  have hscales : (F8Scales.block128 grid cols).Fits outF inF := ⟨hcols, hgrid⟩
  rw [f8DeqF32_eq hlen hscales] at hxs
  obtain rfl := Option.some.inj hxs
  unfold SafetensorsSource.fp8Transform at hv
  by_cases hmoves : MovesBlocks (r.axis outF inF) 128 (r.map p)
  · obtain ⟨nc, ns, hrun, hnc, hns, hys⟩ := haccept hmoves
    simp only [hrun, Option.bind_eq_bind, Option.bind_some] at hv
    split at hv
    · obtain rfl := Option.some.inj (Option.some.inj hv)
      refine ⟨rfl, rfl, ?_⟩
      simp only [Fp8Native.values]
      rw [f8DeqF32_block (hnc.trans hlen) hcols (hns.trans hgrid), hys, Option.map_some, map_mul_one]
    · simp at hv
  · simp [hrefuse hmoves] at hv

end transform

/-- **Native codes times their scales are the dequantized weight.** -/
theorem findFp8Native_values {name : List Char} {target : HfTarget} {v : Fp8Native}
    (hres : s.resolve name = some target) (hstem : target.hf.dropSuffix? ".weight".toList = some stem)
    (hq : s.nvfp4Quant target.hf = none)
    (h : s.fp8Quant target.hf stem = some (t, outF, inF, scales)) (hperm : Permutes s target outF inF)
    (hfold : s.env.fp8Fold = false) (hv : s.findFp8Native name = some (some v)) :
    ∃ xs, v.values = some xs ∧ s.dequantized target = some ([v.inF, v.outF], xs) := by
  obtain ⟨-, -, hshape, hlen, hfit, hpos⟩ := fp8Quant_spec h
  have hdeq := deqF32_fp8 hstem hq h
  unfold SafetensorsSource.findFp8Native at hv
  rw [hres] at hv
  dsimp only at hv
  rw [hstem, Option.getD_some, h] at hv
  dsimp only at hv
  cases target with
  | plain hf =>
    simp only [hfold, Bool.false_eq_true, and_false, if_false] at hv
    obtain ⟨_ | ⟨scale, blk⟩, hscale, hv⟩ := Option.bind_eq_some_iff.1 hv
    · simp at hv
    dsimp only at hv
    split at hv
    · simp at hv
    obtain rfl := Option.some.inj (Option.some.inj hv)
    exact ⟨_, values_native hlen hfit hscale, by simp [SafetensorsSource.dequantized, hdeq]⟩
  | transform hf kind =>
    obtain ⟨p, r, hcfg, hkind, hr⟩ := hperm
    obtain ⟨_ | ⟨scale, blk⟩, hscale, hv⟩ := Option.bind_eq_some_iff.1 hv
    · simp at hv
    have htrue : apply s.num.ops s.env.debug kind
        ((List.range (outF * inF)).map (f8Element t.bytes scales inF)) [inF, outF] s.cfg.heads = _ :=
      apply_eq hcfg hkind hr (by simp)
    have hdequant : s.dequantized (.transform hf kind) = some ([inF, outF],
        gather ((List.range (outF * inF)).map (f8Element t.bytes scales inF)) (r.cells p inF)) := by
      simp [SafetensorsSource.dequantized, hdeq, htrue]
    have hvalues : v.inF = inF ∧ v.outF = outF ∧ v.values = some
        (gather ((List.range (outF * inF)).map (f8Element t.bytes scales inF)) (r.cells p inF)) := by
      obtain ⟨rfl, rfl⟩ | ⟨grid, cols, rfl, rfl, rfl⟩ := nativeScale_spec hscale
      · exact fp8Transform_tensor hcfg hkind hr hpos hdeq hv
      · exact fp8Transform_block hcfg hkind hr hlen hfit.1 hfit.2 hv
    obtain ⟨hin, hout, hvalues⟩ := hvalues
    rw [hin, hout]
    exact ⟨_, hvalues, hdequant⟩

end native

end Memra.StSource
