import Memra.Gguf.Proof.SourceFp8

/-!
# The arms of the loader agree

Of the weight behind a name: the blocks of `find` times the scalar beside them, the split planes of the
direct import times that scalar, and native FP8 codes times their scales are the dequantized and reordered
weight, and a row of a view holds whole blocks. `ArmsFit` says when: an NVFP4 weight has rows of whole
blocks, a reorder of columns moves whole blocks, the scale tensor that `.scale` finds first makes of the
values what the encoding makes of them, and what the source turns into Q8_0 on the count of its elements
alone has rows of whole blocks. No other name falls out (`arms_agree_iff`).
-/

namespace Memra.StSource

open Lib Nvfp4 HfMapping

namespace SafetensorsSource

variable (s : SafetensorsSource)

/-! ## Conditions on a checkpoint -/

/-- The rows of the stack of experts behind a name: how many, and their width. -/
def stackSlice (name : List Char) : Option (ℕ × ℕ) := do
  let (hf, proj, e) ← s.fusedExpert name
  let t ← s.lookup hf
  match t.dtype, t.shape with
  | "BF16", [nE, out, inF] => if e < nE then some ((SafetensorsSource.projRows proj out).2, inF) else none
  | _, _ => none

/-- Whether the `Plain` arm turns a matrix into Q8_0, when its elements are a multiple of 32. -/
def turnsQ80 (hf : List Char) (t : Tensor) (width : ℕ) : Bool :=
  (!s.env.fullPrec && isLargeBf16 t) ||
    ((s.fp8Quant hf ((hf.dropSuffix? ".weight".toList).getD hf)).isSome &&
      !(s.env.nvW4 && width % 64 == 0))

/-- The rows and the width of a matrix that the `Plain` arm turns into Q8_0. -/
def reencodedPlain (hf : List Char) : Option (ℕ × ℕ) :=
  match s.nvfp4Quant hf, s.lookup hf with
  | none, some t =>
    match t.shape with
    | [rows, width] => if s.turnsQ80 hf t width then some (rows, width) else none
    | _ => none
  | _, _ => none

/-- What is turned into Q8_0 on the count of its elements alone: the rows and the width of a slice of a
stack, of a large BF16 matrix, or of an FP8 matrix. -/
def reencoded (name : List Char) : Option (ℕ × ℕ) :=
  match s.stackSlice name, name.dropSuffix? ".scale".toList, s.resolve name with
  | some slice, _, _ => some slice
  | none, none, some (.plain hf) => s.reencodedPlain (s.biasKey name hf)
  | none, _, _ => none

/-- The multiplier in the scale tensors beside a weight: `weight_scale_2`, or else `weight_global_scale`,
or else 1. -/
def siblingScale (stem : List Char) : Option Num :=
  match s.lookup (stem ++ ".weight_scale_2".toList), s.lookup (stem ++ ".weight_global_scale".toList) with
  | some t, _ =>
    if (stDtypeToGgml t.dtype).isSome ∧ 4 ≤ t.bytes.length then some (fromLeBytes (t.bytes.take 4))
    else none
  | none, some t => some (if 4 ≤ t.bytes.length then inverted (fromLeBytes (t.bytes.take 4)) else some 1)
  | none, none => some (some 1)

/-- A name that resolves to an NVFP4 weight, plain or with its V heads permuted. -/
structure Nvfp4Linear (name : List Char) (target : HfTarget) (q : Nvfp4Quant) : Prop where
  resolves : s.resolve name = some target
  quant : s.nvfp4Quant target.hf = some q
  notStacked : s.stackSlice name = none
  permutes : Permutes s target q.outF q.inF

/-- A name that resolves to an FP8 weight with a scale for the tensor or a grid of scales. -/
structure Fp8Linear (name : List Char) (target : HfTarget) (t : Tensor) (outF inF : ℕ)
    (scales : F8Scales) : Prop where
  resolves : s.resolve name = some target
  quant : ∃ stem, target.hf.dropSuffix? ".weight".toList = some stem ∧
    s.fp8Quant target.hf stem = some (t, outF, inF, scales)
  notNvfp4 : s.nvfp4Quant target.hf = none
  granularity : ∀ v, scales ≠ .perRow v
  permutes : Permutes s target outF inF

/-- A reorder of columns moves whole blocks. -/
def MovesWhole (target : HfTarget) : Prop :=
  match target with
  | .plain _ => True
  | .transform _ kind => ∀ p r, headParams s.cfg.heads = some p → reorderOf p kind = some r →
    r.rows = true ∨ r.headDim % 64 = 0

/-- The scalar beside the weight makes of its values what the encoding does. -/
def ScaleFits (target : HfTarget) (q : Nvfp4Quant) : Prop :=
  ∃ hfStem c, target.hf.dropSuffix? ".weight".toList = some hfStem ∧ s.siblingScale hfStem = some c ∧
    SameScale (unscaled q) c q.macroS

/-- What the arms make of a name is one weight, in whole blocks. -/
structure ArmsAgree (name : List Char) : Prop where
  blocks : ∀ stem target q, name = stem ++ ".weight".toList → s.Nvfp4Linear name target q →
    ∃ w, s.blockWeight stem = some w ∧ s.dequantized target = some w
  split : ∀ stem hf q, name = stem ++ ".weight".toList → s.Nvfp4Linear name (.plain hf) q →
    q.inF % 64 = 0 → 0 < q.outF → ∃ w, s.splitWeight stem = some w ∧ s.dequantized (.plain hf) = some w
  fp8 : ∀ target t outF inF scales, s.Fp8Linear name target t outF inF scales → s.env.fp8Fold = false →
    ∀ v, s.findFp8Native name = some (some v) →
      ∃ xs, v.values = some xs ∧ s.dequantized target = some ([v.inF, v.outF], xs)
  whole : ∀ v, s.find name = some (some v) → v.WholeBlocks

/-- The condition under which they do. -/
structure ArmsFit (name : List Char) : Prop where
  nvfp4 : ∀ stem target q, name = stem ++ ".weight".toList → s.Nvfp4Linear name target q →
    q.inF % 64 = 0 ∧ q.wscale.length = q.outF * (q.inF / 16) ∧ s.MovesWhole target ∧ s.ScaleFits target q
  widths : ∀ rows width, s.reencoded name = some (rows, width) → rows * width % 32 = 0 → width % 32 = 0

end SafetensorsSource

/-! ## Names -/

section names

variable {s : SafetensorsSource} {stem : List Char}

theorem not_scale : (stem ++ ".weight".toList).dropSuffix? ".scale".toList = none := by
  cases h : (stem ++ ".weight".toList).dropSuffix? ".scale".toList with
  | none => rfl
  | some r =>
    have hsuffix : ".scale".toList <:+ stem ++ ".weight".toList := ⟨r, (dropSuffix?_some h).symm⟩
    exact absurd (getLast?_suffix hsuffix (List.suffix_append _ _) (by decide) (by decide)) (by decide)

theorem biasKey_weight (hf : List Char) : s.biasKey (stem ++ ".weight".toList) hf = hf := by
  have hbias : ¬".exp_probs_b.bias".toList.isSuffixOf (stem ++ ".weight".toList) = true := fun h =>
    absurd (getLast?_suffix (List.isSuffixOf_iff_suffix.1 h) (List.suffix_append _ _) (by decide)
      (by decide)) (by decide)
  unfold SafetensorsSource.biasKey
  rw [if_neg fun h => hbias h.2.1]

theorem splitOnce_some {x a b : List Char} {c : Char} (h : splitOnce x c = some (a, b)) : b <:+ x := by
  unfold splitOnce at h
  split at h
  · simp only [Option.some.injEq, Prod.mk.injEq] at h
    obtain ⟨-, rfl⟩ := h
    exact (List.tail_suffix _).trans (List.dropWhile_suffix _)
  · simp at h

/-- The stacks serve weights only. -/
theorem fusedExpert_weight {name : List Char} {x : List Char × List Char × ℕ}
    (h : s.fusedExpert name = some x) : ".weight".toList <:+ name := by
  unfold SafetensorsSource.fusedExpert at h
  split at h
  · simp at h
  obtain ⟨rest, hrest, h⟩ := Option.bind_eq_some_iff.1 h
  obtain ⟨⟨il, suffix⟩, hsplit, h⟩ := Option.bind_eq_some_iff.1 h
  obtain ⟨il, -, h⟩ := Option.bind_eq_some_iff.1 h
  dsimp only at h
  split at h
  · simp at h
  obtain ⟨⟨proj, e⟩, hfind, -⟩ := Option.bind_eq_some_iff.1 h
  obtain ⟨p, -, hp⟩ := List.exists_of_findSome?_eq_some hfind
  obtain ⟨e1, he1, hp⟩ := Option.bind_eq_some_iff.1 hp
  obtain ⟨e2, he2, -⟩ := Option.bind_eq_some_iff.1 hp
  have h1 : ".weight".toList <:+ e1 := ⟨e2, (dropSuffix?_some he2).symm⟩
  have h2 : e1 <:+ suffix := ⟨_, (dropPrefix?_some he1).symm⟩
  have h3 : rest <:+ name := ⟨_, (dropPrefix?_some hrest).symm⟩
  exact ((h1.trans h2).trans (splitOnce_some hsplit)).trans h3

theorem fusedExpert_scale : s.fusedExpert (stem ++ ".scale".toList) = none := by
  cases h : s.fusedExpert (stem ++ ".scale".toList) with
  | none => rfl
  | some x =>
    exact absurd (getLast?_suffix (fusedExpert_weight h) (List.suffix_append _ _) (by decide) (by decide))
      (by decide)

end names

/-! ## The order of the arms -/

section arms

variable {s : SafetensorsSource} {name stem hf : List Char} {target : HfTarget}

/-- A stack that offers no slice of an expert ends before it. -/
theorem stackSlice_none {proj : List Char} {e : ℕ} {t : Tensor} {nE out inF : ℕ}
    (h : s.stackSlice name = none) (hexp : s.fusedExpert name = some (hf, proj, e))
    (ht : s.lookup hf = some t) (hdtype : t.dtype = "BF16") (hshape : t.shape = [nE, out, inF]) :
    nE ≤ e := by
  unfold SafetensorsSource.stackSlice at h
  simp only [hexp, ht, hdtype, hshape, Option.bind_eq_bind, Option.bind_some] at h
  by_contra hlt
  simp [Nat.lt_of_not_le hlt] at h

theorem mtpFused_none (h : s.stackSlice name = none) : s.mtpFusedExpertSlice name = some none := by
  cases hexp : s.fusedExpert name with
  | none => simp only [SafetensorsSource.mtpFusedExpertSlice, hexp]
  | some x =>
    obtain ⟨hf, proj, e⟩ := x
    cases ht : s.lookup hf with
    | none => simp only [SafetensorsSource.mtpFusedExpertSlice, hexp, ht]
    | some t =>
      simp only [SafetensorsSource.mtpFusedExpertSlice, hexp, ht]
      split
      · next dtype shape nE out inF hdtype hshape =>
        exact if_pos (stackSlice_none h hexp ht hdtype hshape)
      · rfl

theorem projRows_le (proj : List Char) (out : ℕ) :
    (SafetensorsSource.projRows proj out).1 + (SafetensorsSource.projRows proj out).2 ≤ out := by
  unfold SafetensorsSource.projRows
  split
  · omega
  · split
    · omega
    · omega

theorem mtpFused_some {rows width : ℕ} (h : s.stackSlice name = some (rows, width)) :
    if rows * width % 32 = 0 then
      ∃ b, s.mtpFusedExpertSlice name = some (some ⟨.bytes b, .Q8_0, [width, rows]⟩)
    else s.mtpFusedExpertSlice name = none := by
  unfold SafetensorsSource.stackSlice at h
  obtain ⟨⟨hf, proj, e⟩, hexp, h⟩ := Option.bind_eq_some_iff.1 h
  obtain ⟨t, ht, h⟩ := Option.bind_eq_some_iff.1 h
  split at h
  · next dtype shape nE out inF hdtype hshape =>
    split at h
    · next hlt =>
      simp only [Option.some.injEq, Prod.mk.injEq] at h
      obtain ⟨rfl, rfl⟩ := h
      have hsized := t.sized 2 (by rw [hdtype]; rfl)
      unfold SafetensorsSource.mtpFusedExpertSlice
      simp only [hexp, ht]
      rw [hdtype, hshape]
      have hread : (e * (out * inF) + (SafetensorsSource.projRows proj out).1 * inF) * 2 +
          (SafetensorsSource.projRows proj out).2 * inF * 2 ≤ t.bytes.length := by
        have hrows := Nat.mul_le_mul_right inF (projRows_le proj out)
        have hexperts := row_add_le (w := out * inF) hlt
        rw [Nat.add_mul] at hrows
        simp only [hshape, List.prod_cons, List.prod_nil, Nat.mul_one] at hsized
        omega
      have hslice := length_slice hread
      have hcount : (bf16s ((t.bytes.drop ((e * (out * inF) +
          (SafetensorsSource.projRows proj out).1 * inF) * 2)).take
            ((SafetensorsSource.projRows proj out).2 * inF * 2))).length =
          (SafetensorsSource.projRows proj out).2 * inF := by
        rw [length_bf16s, hslice]
        omega
      simp only [if_neg (Nat.not_le.2 hlt), readAt_eq hread, Option.bind_eq_bind, Option.bind_some,
        SafetensorsSource.f32ToQ80, ensure, hcount]
      split
      · exact ⟨_, rfl⟩
      · rfl
    · simp at h
  · simp at h

/-- The blocks of `find` come from the arm of the target. -/
theorem find_weight (hres : s.resolve (stem ++ ".weight".toList) = some target)
    (hstack : s.stackSlice (stem ++ ".weight".toList) = none) :
    s.find (stem ++ ".weight".toList) =
      match target with
      | .plain hf => s.findPlain hf
      | .transform hf kind => s.findTransform hf kind := by
  unfold SafetensorsSource.find
  simp only [mtpFused_none hstack, not_scale, hres, Option.bind_eq_bind, Option.bind_some]
  cases target with
  | plain hf => simp only [biasKey_weight]
  | transform hf kind => rfl

/-- **The scalar beside a weight** is the multiplier of its scale tensors. -/
theorem macroScale_eq {hfStem : List Char} (hres : s.resolve (stem ++ ".weight".toList) = some target)
    (hstem : target.hf.dropSuffix? ".weight".toList = some hfStem) :
    s.macroScale stem = s.siblingScale hfStem := by
  have hscale : (stem ++ ".scale".toList).dropSuffix? ".scale".toList = some stem := dropSuffix?_append _ _
  have hstack : s.stackSlice (stem ++ ".scale".toList) = none := by
    simp only [SafetensorsSource.stackSlice, fusedExpert_scale, Option.bind_eq_bind, Option.bind_none]
  unfold SafetensorsSource.macroScale SafetensorsSource.find SafetensorsSource.findScale
    SafetensorsSource.siblingScale
  simp only [mtpFused_none hstack, hscale, hres, hstem, Option.bind_eq_bind, Option.bind_some]
  cases h2 : s.lookup (hfStem ++ ".weight_scale_2".toList) with
  | some t =>
    cases hty : stDtypeToGgml t.dtype with
    | none => simp [hty]
    | some ty => simp [hty]
  | none =>
    cases hg : s.lookup (hfStem ++ ".weight_global_scale".toList) with
    | none => simp
    | some t => by_cases hlen : 4 ≤ t.bytes.length <;> simp [hlen]

end arms

/-! ## NVFP4 weights -/

section nvfp4

variable {s : SafetensorsSource} {stem hf : List Char} {target : HfTarget} {q : Nvfp4Quant}

theorem packedPair_spec {weight scale : List Char} {isScale : String → Bool} {m : Num}
    (h : s.packedPair weight scale isScale m = some q) :
    q.wbytes.length = q.outF * (q.inF / 2) ∧ q.macroS = m := by
  unfold SafetensorsSource.packedPair at h
  obtain ⟨w, -, h⟩ := Option.bind_eq_some_iff.1 h
  split at h
  · next dtype shape outF half hdtype hshape =>
    obtain ⟨sc, -, h⟩ := Option.bind_eq_some_iff.1 h
    split at h
    · obtain rfl := Option.some.inj h
      have hsized := w.sized 1 (by rw [hdtype]; rfl)
      exact ⟨by simpa [hshape] using hsized, rfl⟩
    · simp at h
  · simp at h

theorem nvfp4Quant_spec (h : s.nvfp4Quant hf = some q) :
    (∃ hfStem, hf.dropSuffix? ".weight".toList = some hfStem) ∧
      q.wbytes.length = q.outF * (q.inF / 2) := by
  unfold SafetensorsSource.nvfp4Quant at h
  obtain ⟨hfStem, hstem, h⟩ := Option.bind_eq_some_iff.1 h
  refine ⟨⟨hfStem, hstem⟩, ?_⟩
  dsimp only at h
  obtain h | ⟨-, h⟩ := Option.or_eq_some_iff.1 h
  · exact (packedPair_spec h).1
  · obtain h | ⟨-, h⟩ := Option.or_eq_some_iff.1 h
    · exact (packedPair_spec h).1
    · exact (packedPair_spec h).1

theorem deqF32_nvfp4 (h : s.nvfp4Quant hf = some q) (hq : q.Blocks) :
    s.deqF32 hf = some (some (scaled (unscaled q) q.macroS, [q.inF, q.outF])) := by
  obtain ⟨⟨hfStem, hstem⟩, -⟩ := nvfp4Quant_spec h
  unfold SafetensorsSource.deqF32
  rw [hstem]
  dsimp only
  rw [h]
  simp [deqNvfp4_eq hq]

/-- **The blocks of `find` hold the values of the weight**, in their new order. -/
theorem find_nvfp4 (h : s.Nvfp4Linear (stem ++ ".weight".toList) target q) (hq : q.Blocks)
    (hcols : s.MovesWhole target) : ∃ b xs,
    s.find (stem ++ ".weight".toList) = some (some ⟨.bytes b, .NVFP4, [q.inF, q.outF]⟩) ∧
      dequantNvfp4 b (q.outF * q.inF) = some xs ∧
      s.dequantized target = some ([q.inF, q.outF], scaled xs q.macroS) ∧
      ∀ c, SameScale xs c q.macroS ↔ SameScale (unscaled q) c q.macroS := by
  obtain ⟨hres, hquant, hstack, hperm⟩ := h
  have hfind := find_weight hres hstack
  obtain ⟨packed, split, hpacked, hlen, hvalues, -⟩ := repack_unscaled hq
  have hdeq := deqF32_nvfp4 hquant hq
  cases target with
  | plain hf =>
    change s.nvfp4Quant hf = some q at hquant
    change s.deqF32 hf = _ at hdeq
    refine ⟨packed, unscaled q, ?_, hvalues, ?_, fun c => Iff.rfl⟩
    · rw [hfind]
      simp [SafetensorsSource.findPlain, hquant, hpacked]
    · simp [SafetensorsSource.dequantized, HfTarget.hf, hdeq]
  | transform hf kind =>
    change s.nvfp4Quant hf = some q at hquant
    change s.deqF32 hf = _ at hdeq
    obtain ⟨p, r, hcfg, hkind, hfit⟩ := hperm
    obtain ⟨xs, hxs, hlenx, hmoved⟩ := applyNvfp4_spec hcfg hkind hfit hq.width hlen
    obtain rfl : unscaled q = xs := Option.some.inj (hvalues.symm.trans hxs)
    rw [if_pos (hcols p r hcfg hkind)] at hmoved
    obtain ⟨out, hrun, hout⟩ := hmoved
    refine ⟨out, _, ?_, hout, ?_, fun c => sameScale_gather hfit hlenx⟩
    · rw [hfind]
      simp [SafetensorsSource.findTransform, hquant, hpacked, hrun]
    · have htrue : apply s.num.ops s.env.debug kind (scaled (unscaled q) q.macroS) [q.inF, q.outF]
          s.cfg.heads = _ := apply_eq hcfg hkind hfit (by simp)
      simp [SafetensorsSource.dequantized, HfTarget.hf, hdeq, htrue, gather_scaled hfit hlenx]

/-- The repack refuses rows that are not whole blocks, and a reorder of columns that splits them. -/
theorem find_nvfp4_refused (h : s.Nvfp4Linear (stem ++ ".weight".toList) target q)
    (hnot : ¬(q.Blocks ∧ s.MovesWhole target)) : s.find (stem ++ ".weight".toList) = none := by
  obtain ⟨hres, hquant, hstack, hperm⟩ := h
  rw [find_weight hres hstack]
  cases hpacked : repackModeloptToGguf q.wbytes q.wscale q.outF q.inF with
  | none =>
    cases target with
    | plain hf =>
      change s.nvfp4Quant hf = some q at hquant
      simp [SafetensorsSource.findPlain, hquant, hpacked]
    | transform hf kind =>
      change s.nvfp4Quant hf = some q at hquant
      simp [SafetensorsSource.findTransform, hquant, hpacked]
  | some packed =>
    have hq := blocks_of_repack hpacked
    cases target with
    | plain hf => exact absurd ⟨hq, trivial⟩ hnot
    | transform hf kind =>
      change s.nvfp4Quant hf = some q at hquant
      obtain ⟨p, r, hcfg, hkind, hfit⟩ := hperm
      obtain ⟨packed', -, hpacked', hlen, -⟩ := repack_unscaled hq
      obtain rfl : packed' = packed := Option.some.inj (hpacked'.symm.trans hpacked)
      obtain ⟨xs, -, -, hmoved⟩ := applyNvfp4_spec hcfg hkind hfit hq.width hlen
      have hcols : ¬(r.rows = true ∨ r.headDim % 64 = 0) := fun hcols => hnot ⟨hq, fun p' r' hcfg' hkind' => by
        obtain rfl := Option.some.inj (hcfg.symm.trans hcfg')
        obtain rfl := Option.some.inj (hkind.symm.trans hkind')
        exact hcols⟩
      rw [if_neg hcols] at hmoved
      simp [SafetensorsSource.findTransform, hquant, hpacked, hmoved]

theorem blockWeight_iff (h : s.Nvfp4Linear (stem ++ ".weight".toList) target q) :
    (∃ w, s.blockWeight stem = some w ∧ s.dequantized target = some w) ↔
      q.Blocks ∧ s.MovesWhole target ∧ s.ScaleFits target q := by
  obtain ⟨⟨hfStem, hstem⟩, -⟩ := nvfp4Quant_spec h.quant
  have hscale := macroScale_eq h.resolves hstem
  by_cases hfit : q.Blocks ∧ s.MovesWhole target
  · obtain ⟨b, xs, hfind, hxs, htrue, hsame⟩ := find_nvfp4 h hfit.1 hfit.2
    have hprod : [q.inF, q.outF].prod = q.outF * q.inF := by simp [Nat.mul_comm]
    have hblock : s.blockWeight stem =
        (s.siblingScale hfStem).map fun c => ([q.inF, q.outF], scaled xs c) := by
      unfold SafetensorsSource.blockWeight
      simp only [hfind, hscale, TensorView.nvfp4Values, hprod, hxs, Option.bind_eq_bind, Option.bind_some]
      cases s.siblingScale hfStem <;> rfl
    rw [hblock, htrue]
    constructor
    · rintro ⟨w, hw, heq⟩
      obtain ⟨c, hc, rfl⟩ := Option.map_eq_some_iff.1 hw
      simp only [Option.some.injEq, Prod.mk.injEq, true_and] at heq
      exact ⟨hfit.1, hfit.2, hfStem, c, hstem, hc, (hsame c).1 (scaled_eq_iff.1 heq.symm)⟩
    · rintro ⟨-, -, hfStem', c, hstem', hc, hcm⟩
      obtain rfl := Option.some.inj (hstem.symm.trans hstem')
      refine ⟨([q.inF, q.outF], scaled xs c), by rw [hc]; rfl, ?_⟩
      rw [scaled_eq_iff.2 ((hsame c).2 hcm)]
  · have hfind := find_nvfp4_refused h hfit
    constructor
    · rintro ⟨w, hw, -⟩
      unfold SafetensorsSource.blockWeight at hw
      rw [hfind] at hw
      simp at hw
    · rintro ⟨hq, hcols, -⟩
      exact absurd ⟨hq, hcols⟩ hfit

/-- The direct import holds the same values. -/
theorem splitWeight_eq {w : List ℕ × List Num} (h : s.Nvfp4Linear (stem ++ ".weight".toList) (.plain hf) q)
    (hq : q.Blocks) (hpos : 0 < q.outF) (hblock : s.blockWeight stem = some w) :
    s.splitWeight stem = some w := by
  obtain ⟨⟨hfStem, hstem⟩, -⟩ := nvfp4Quant_spec h.quant
  obtain ⟨b, xs, hfind, hxs, -, -⟩ := find_nvfp4 h hq trivial
  obtain ⟨packed, split, hpacked, -, hvalues, hsplit, hback⟩ := repack_unscaled hq
  have hquant : s.nvfp4Quant hf = some q := h.quant
  have hb : b = packed := by
    rw [find_weight h.resolves h.notStacked] at hfind
    simpa [SafetensorsSource.findPlain, hquant, hpacked] using hfind.symm
  subst hb
  have hname : (stem ++ ".weight".toList).dropSuffix? ".weight".toList = some stem :=
    dropSuffix?_append _ _
  have hprod : [q.inF, q.outF].prod = q.outF * q.inF := by simp [Nat.mul_comm]
  have hnative : s.findNvfp4Native (stem ++ ".weight".toList) = some q := by
    simp only [SafetensorsSource.findNvfp4Native, h.resolves, hquant]
  unfold SafetensorsSource.blockWeight at hblock
  unfold SafetensorsSource.splitWeight SafetensorsSource.loadDirect
  simp only [hfind, TensorView.nvfp4Values, hprod, hxs, Option.bind_eq_bind, Option.bind_some] at hblock
  rw [hnative]
  simp only [hq.width, hpos, and_self, if_true, hname, Option.getD_some, Option.bind_eq_bind]
  cases hscale : s.macroScale stem with
  | none => simp [hscale] at hblock
  | some c =>
    rw [hscale] at hblock
    simpa [hsplit, hback hpos, hprod, hxs] using hblock

/-- **A weight with the scale tensors of its own encoding** and no others: `weight_scale_2` beside ModelOpt
codes, or `weight_global_scale` beside those of compressed-tensors, or neither. -/
theorem scaleFits_own {hfStem : List Char} (hstem : target.hf.dropSuffix? ".weight".toList = some hfStem)
    (hquant : s.nvfp4Quant target.hf = some q)
    (h2 : ∀ t, s.lookup (hfStem ++ ".weight_scale_2".toList) = some t →
      (s.packedPair target.hf (hfStem ++ ".weight_scale".toList) (· == "F8_E4M3")
        (s.modeloptMacro hfStem)).isSome ∧ (stDtypeToGgml t.dtype).isSome ∧ 4 ≤ t.bytes.length)
    (hg : (s.lookup (hfStem ++ ".weight_global_scale".toList)).isSome →
      s.packedPair target.hf (hfStem ++ ".weight_scale".toList) (· == "F8_E4M3")
        (s.modeloptMacro hfStem) = none ∧
      (s.packedPair (hfStem ++ ".weight_packed".toList) (hfStem ++ ".weight_scale".toList)
        (· == "F8_E4M3") (s.compressedMacro hfStem)).isSome) : s.ScaleFits target q := by
  refine ⟨hfStem, q.macroS, hstem, ?_, .inl rfl⟩
  unfold SafetensorsSource.nvfp4Quant at hquant
  rw [hstem] at hquant
  dsimp only [Option.bind_eq_bind, Option.bind_some] at hquant
  unfold SafetensorsSource.siblingScale
  cases hmul : s.lookup (hfStem ++ ".weight_scale_2".toList) with
  | some t =>
    obtain ⟨hform, hty, hlen⟩ := h2 t hmul
    obtain ⟨q', hq'⟩ := Option.isSome_iff_exists.1 hform
    rw [hq', Option.some_or] at hquant
    obtain rfl := Option.some.inj hquant
    simp only [(packedPair_spec hq').2, SafetensorsSource.modeloptMacro, hmul, hty, hlen, and_self, if_true]
  | none =>
    cases hdiv : s.lookup (hfStem ++ ".weight_global_scale".toList) with
    | some t =>
      obtain ⟨hnot, hform⟩ := hg (by rw [hdiv]; rfl)
      obtain ⟨q', hq'⟩ := Option.isSome_iff_exists.1 hform
      rw [hnot, Option.none_or, hq', Option.some_or] at hquant
      obtain rfl := Option.some.inj hquant
      simp only [(packedPair_spec hq').2, SafetensorsSource.compressedMacro, hdiv]
    | none =>
      -- every encoding without a scale tensor multiplies by 1
      obtain hq | ⟨-, hq⟩ := Option.or_eq_some_iff.1 hquant
      · simp only [(packedPair_spec hq).2, SafetensorsSource.modeloptMacro, hmul]
      · obtain hq | ⟨-, hq⟩ := Option.or_eq_some_iff.1 hq
        · simp only [(packedPair_spec hq).2, SafetensorsSource.compressedMacro, hdiv]
        · rw [(packedPair_spec hq).2]

end nvfp4

/-! ## Whole blocks -/

section whole

variable {s : SafetensorsSource} {name stem hf : List Char} {v : TensorView} {t : Tensor}

theorem stDtypeToGgml_block {dtype : String} {ty : GgmlType} (h : stDtypeToGgml dtype = some ty) :
    ∃ size, ty.blockAndTypeSize = some (1, size) := by
  have hall : ∀ e ∈ [("F32", GgmlType.F32), ("F16", .F16), ("BF16", .BF16), ("F64", .F64), ("I8", .I8),
      ("I16", .I16), ("I32", .I32), ("I64", .I64)], (e.2.blockAndTypeSize.map (·.1)) = some 1 := by decide
  obtain ⟨l, l', hl, -⟩ := List.lookup_eq_some_iff.1 h
  have hblock := hall (dtype, ty) (by rw [hl]; simp)
  obtain ⟨⟨block, size⟩, hsize, rfl⟩ := Option.map_eq_some_iff.1 hblock
  exact ⟨size, hsize⟩

theorem wholeBlocks_plain {data : Data} {dtype : String} {ty : GgmlType} {ne : List ℕ}
    (h : stDtypeToGgml dtype = some ty) : (TensorView.mk data ty ne).WholeBlocks := by
  obtain ⟨size, hsize⟩ := stDtypeToGgml_block h
  intro block size' hb
  obtain ⟨rfl, -⟩ := Prod.mk.inj (Option.some.inj (hsize.symm.trans hb))
  exact Nat.mod_one _

theorem wholeBlocks_f32 {data : Data} {ne : List ℕ} : (TensorView.mk data .F32 ne).WholeBlocks := by
  have hf32 : stDtypeToGgml "F32" = some .F32 := rfl
  exact wholeBlocks_plain hf32

theorem wholeBlocks_q80_iff {data : Data} {ne : List ℕ} :
    (TensorView.mk data .Q8_0 ne).WholeBlocks ↔ ne.headD 0 % 32 = 0 := by
  simp [TensorView.WholeBlocks, GgmlType.blockAndTypeSize]

theorem wholeBlocks_nvfp4_iff {data : Data} {ne : List ℕ} :
    (TensorView.mk data .NVFP4 ne).WholeBlocks ↔ ne.headD 0 % 64 = 0 := by
  simp [TensorView.WholeBlocks, GgmlType.blockAndTypeSize]

theorem rawHf_whole (h : s.rawHf hf = some (some v)) : v.WholeBlocks := by
  unfold SafetensorsSource.rawHf at h
  split at h
  · simp at h
  · obtain ⟨-, -, h⟩ := Option.bind_eq_some_iff.1 h
    obtain ⟨ty, hty, h⟩ := Option.bind_eq_some_iff.1 h
    obtain rfl := Option.some.inj (Option.some.inj h)
    exact wholeBlocks_plain hty

theorem findScale_whole (h : s.findScale stem = some (some v)) : v.WholeBlocks := by
  unfold SafetensorsSource.findScale at h
  split at h
  · simp at h
  split at h
  · simp at h
  split at h
  · obtain ⟨ty, hty, h⟩ := Option.bind_eq_some_iff.1 h
    obtain rfl := Option.some.inj (Option.some.inj h)
    exact wholeBlocks_plain hty
  split at h
  · simp at h
  split at h
  · obtain rfl := Option.some.inj (Option.some.inj h)
    exact wholeBlocks_f32
  · simp at h

/-- FP8 values go into NVFP4 blocks in whole rows, and into Q8_0 blocks on the count of them all. -/
theorem requantF8_some {data : List Num} {ne : List ℕ} (h : s.requantF8 data ne = some (some v)) :
    (s.env.nvW4 = true ∧ ne.headD 0 % 64 = 0 ∧ v.WholeBlocks) ∨
      (¬(s.env.nvW4 = true ∧ ne.headD 0 % 64 = 0) ∧ data.length % 32 = 0 ∧
        ∃ b, v = ⟨.bytes b, .Q8_0, ne⟩) := by
  unfold SafetensorsSource.requantF8 at h
  split at h
  · next hnv =>
    obtain ⟨out, -, h⟩ := Option.bind_eq_some_iff.1 h
    obtain rfl := Option.some.inj (Option.some.inj h)
    exact .inl ⟨hnv.1, hnv.2, wholeBlocks_nvfp4_iff.2 hnv.2⟩
  · next hnv =>
    obtain ⟨out, hout, h⟩ := Option.bind_eq_some_iff.1 h
    obtain rfl := Option.some.inj (Option.some.inj h)
    refine .inr ⟨hnv, ?_, out, rfl⟩
    unfold SafetensorsSource.f32ToQ80 ensure at hout
    by_contra hlen
    simp [hlen] at hout

theorem requantF8_q80 {data : List Num} {ne : List ℕ}
    (hnv : ¬(s.env.nvW4 = true ∧ ne.headD 0 % 64 = 0)) (hcount : data.length % 32 = 0) :
    s.requantF8 data ne = some (some ⟨.bytes (s.num.q8_0 data), .Q8_0, ne⟩) := by
  unfold SafetensorsSource.requantF8
  rw [if_neg hnv]
  simp [SafetensorsSource.f32ToQ80, ensure, hcount]

theorem requant_whole {ne : List ℕ} {vals : List Num} (h : s.requant hf ne vals = some (some v)) :
    v.WholeBlocks := by
  unfold SafetensorsSource.requant at h
  dsimp only at h
  split at h
  · next hgate =>
    obtain ⟨out, -, h⟩ := Option.bind_eq_some_iff.1 h
    obtain rfl := Option.some.inj (Option.some.inj h)
    exact wholeBlocks_q80_iff.2 hgate.2.2.2.1
  split at h
  · next hgate =>
    obtain ⟨-, -, hwhole⟩ | ⟨-, -, b, rfl⟩ := requantF8_some h
    · exact hwhole
    · exact wholeBlocks_q80_iff.2 hgate.2.2.1
  · obtain rfl := Option.some.inj (Option.some.inj h)
    exact wholeBlocks_f32

theorem findValues_whole {kind : TransformKind} (h : s.findValues hf kind = some (some v)) :
    v.WholeBlocks := by
  unfold SafetensorsSource.findValues at h
  obtain ⟨d, -, h⟩ := Option.bind_eq_some_iff.1 h
  cases d with
  | none => simp at h
  | some d =>
    obtain ⟨⟨ne, vals⟩, -, h⟩ := Option.bind_eq_some_iff.1 h
    exact requant_whole h

theorem repack_width {weight wscale packed : List UInt8} {outF inF : ℕ}
    (h : repackModeloptToGguf weight wscale outF inF = some packed) : inF % 64 = 0 := by
  unfold repackModeloptToGguf ensure at h
  by_contra hwidth
  simp [hwidth] at h

theorem applyNvfp4_ne {kind : TransformKind} {packed out : List UInt8} {outF inF : ℕ} {ne : List ℕ}
    {cfg : ModelConfig} (h : applyNvfp4 kind packed outF inF cfg = some (some (ne, out))) :
    ne = [inF, outF] := by
  unfold applyNvfp4 at h
  obtain ⟨p, -, h⟩ := Option.bind_eq_some_iff.1 h
  cases kind <;> simp [Option.bind_eq_some_iff] at h
  all_goals exact h.2.symm

/-- The reordering arm checks the width of a row. -/
theorem findTransform_whole {kind : TransformKind} (h : s.findTransform hf kind = some (some v)) :
    v.WholeBlocks := by
  unfold SafetensorsSource.findTransform at h
  split at h
  · next q hq =>
    obtain ⟨packed, hpacked, h⟩ := Option.bind_eq_some_iff.1 h
    obtain ⟨moved, hmoved, h⟩ := Option.bind_eq_some_iff.1 h
    cases moved with
    | none => exact findValues_whole h
    | some moved =>
      obtain ⟨ne, out⟩ := moved
      obtain rfl := applyNvfp4_ne hmoved
      obtain rfl := Option.some.inj (Option.some.inj h)
      exact wholeBlocks_nvfp4_iff.2 (repack_width hpacked)
  · exact findValues_whole h

/-- The elements of a matrix of BF16 or FP8, from its bytes. -/
theorem bytes_bf16 {rows width : ℕ} (ht : t.dtype = "BF16") (hshape : t.shape = [rows, width]) :
    t.bytes.length / 2 = rows * width := by
  have hsized := t.sized 2 (by rw [ht]; rfl)
  simp only [hshape, List.prod_cons, List.prod_nil, Nat.mul_one] at hsized
  omega

theorem isLargeBf16_spec (h : SafetensorsSource.isLargeBf16 t = true) :
    t.dtype = "BF16" ∧ ∃ rows width, t.shape = [rows, width] := by
  simp only [SafetensorsSource.isLargeBf16, Bool.and_eq_true, beq_iff_eq, decide_eq_true_eq] at h
  obtain ⟨⟨hdtype, hlen⟩, -⟩ := h
  exact ⟨hdtype, List.length_eq_two.1 hlen⟩

/-- The plain arm counts elements: on the other matrices it makes whole blocks. -/
theorem findPlain_whole (h : s.findPlain hf = some (some v))
    (hwidths : ∀ t rows width, s.nvfp4Quant hf = none → s.lookup hf = some t → t.shape = [rows, width] →
      s.turnsQ80 hf t width = true → rows * width % 32 = 0 → width % 32 = 0) : v.WholeBlocks := by
  unfold SafetensorsSource.findPlain at h
  split at h
  · obtain ⟨packed, hpacked, h⟩ := Option.bind_eq_some_iff.1 h
    obtain rfl := Option.some.inj (Option.some.inj h)
    exact wholeBlocks_nvfp4_iff.2 (repack_width hpacked)
  next hq =>
  split at h
  · exact rawHf_whole h
  next t ht =>
  split at h
  · next hlarge =>
    obtain ⟨hfull, hlarge, hcount⟩ := hlarge
    obtain ⟨out, -, h⟩ := Option.bind_eq_some_iff.1 h
    obtain rfl := Option.some.inj (Option.some.inj h)
    obtain ⟨hdtype, rows, width, hshape⟩ := isLargeBf16_spec hlarge
    rw [bytes_bf16 hdtype hshape] at hcount
    refine wholeBlocks_q80_iff.2 ?_
    simpa [Tensor.ne, hshape] using
      hwidths t rows width hq ht hshape (by simp [SafetensorsSource.turnsQ80, hfull, hlarge]) hcount
  split at h
  · next t' outF inF scales h8 =>
    obtain ⟨ht', -, hshape, hlen, hfit, -⟩ := fp8Quant_spec h8
    obtain rfl := Option.some.inj (ht.symm.trans ht')
    obtain ⟨-, hcount, h⟩ := Option.bind_eq_some_iff.1 h
    obtain ⟨data, hdata, h⟩ := Option.bind_eq_some_iff.1 h
    obtain ⟨-, -, hwhole⟩ | ⟨hnv, hdatalen, b, rfl⟩ := requantF8_some h
    · exact hwhole
    · rw [f8DeqF32_eq hlen hfit] at hdata
      obtain rfl := Option.some.inj hdata
      rw [List.length_map, List.length_range] at hdatalen
      have hne : t.ne.headD 0 = inF := by simp [Tensor.ne, hshape]
      rw [hne] at hnv
      refine wholeBlocks_q80_iff.2 (hne ▸ hwidths t outF inF hq ht hshape ?_ hdatalen)
      have hnot : (!(s.env.nvW4 && inF % 64 == 0)) = true := by
        by_contra hboth
        exact hnv (by simpa using hboth)
      rw [SafetensorsSource.turnsQ80, h8, hnot]
      simp
  · exact rawHf_whole h

/-- What the plain arm turns into Q8_0 on the count of its elements. -/
theorem findPlain_q80 {rows width : ℕ} (hq : s.nvfp4Quant hf = none) (ht : s.lookup hf = some t)
    (hshape : t.shape = [rows, width]) (hturns : s.turnsQ80 hf t width = true)
    (hcount : rows * width % 32 = 0) :
    ∃ b, s.findPlain hf = some (some ⟨.bytes b, .Q8_0, [width, rows]⟩) := by
  have hne : t.ne = [width, rows] := by simp [Tensor.ne, hshape]
  unfold SafetensorsSource.findPlain
  rw [hq, ht]
  dsimp only
  by_cases hlarge : s.env.fullPrec = false ∧ SafetensorsSource.isLargeBf16 t = true ∧ t.bytes.length / 2 % 32 = 0
  · obtain ⟨hdtype, -⟩ := isLargeBf16_spec hlarge.2.1
    have hlen : (bf16s t.bytes).length % 32 = 0 := by rw [length_bf16s]; exact hlarge.2.2
    rw [if_pos hlarge]
    simp [SafetensorsSource.f32ToQ80, ensure, hlen, hne]
  · rw [if_neg hlarge]
    have hbf16 : ¬(s.env.fullPrec = false ∧ SafetensorsSource.isLargeBf16 t = true) := fun h => by
      refine hlarge ⟨h.1, h.2, ?_⟩
      rw [bytes_bf16 (isLargeBf16_spec h.2).1 hshape]
      exact hcount
    simp only [SafetensorsSource.turnsQ80, Bool.or_eq_true, Bool.and_eq_true, Bool.not_eq_true'] at hturns
    obtain ⟨hsome, hnv⟩ := hturns.resolve_left hbf16
    obtain ⟨⟨t', outF, inF, scales⟩, h8⟩ := Option.isSome_iff_exists.1 hsome
    obtain ⟨ht', -, hshape', hlen, hfit, -⟩ := fp8Quant_spec h8
    obtain rfl := Option.some.inj (ht.symm.trans ht')
    simp only [hshape, List.cons.injEq, and_true] at hshape'
    obtain ⟨rfl, rfl⟩ := hshape'
    have hbytes : t.bytes.length % 32 = 0 := by rw [hlen]; exact hcount
    have hnot : ¬(s.env.nvW4 = true ∧ t.ne.headD 0 % 64 = 0) := by simpa [hne] using hnv
    have hrequant : s.requantF8 ((List.range (rows * width)).map (f8Element t.bytes scales width)) t.ne = _ :=
      requantF8_q80 hnot (by simpa using hcount)
    rw [hne] at hrequant
    rw [h8]
    simp only [ensure, hbytes, if_true, f8DeqF32_eq hlen hfit, hne, hrequant, Option.bind_eq_bind,
      Option.bind_some]
    exact ⟨_, rfl⟩

theorem reencodedPlain_iff {rows width : ℕ} : s.reencodedPlain hf = some (rows, width) ↔
    s.nvfp4Quant hf = none ∧ ∃ t, s.lookup hf = some t ∧ t.shape = [rows, width] ∧
      s.turnsQ80 hf t width = true := by
  unfold SafetensorsSource.reencodedPlain
  constructor
  · intro h
    split at h
    · next hq ht =>
      split at h
      · next hshape =>
        split at h
        · next hturns =>
          obtain ⟨rfl, rfl⟩ := Prod.mk.inj (Option.some.inj h)
          exact ⟨hq, _, ht, hshape, hturns⟩
        · simp at h
      · simp at h
    · simp at h
  · rintro ⟨hq, t, ht, hshape, hturns⟩
    simp [hq, ht, hshape, hturns]

theorem findPlain_whole_iff : (∀ v, s.findPlain hf = some (some v) → v.WholeBlocks) ↔
    ∀ rows width, s.reencodedPlain hf = some (rows, width) → rows * width % 32 = 0 → width % 32 = 0 := by
  constructor
  · intro h rows width hre hcount
    obtain ⟨hq, t, ht, hshape, hturns⟩ := reencodedPlain_iff.1 hre
    obtain ⟨b, hfind⟩ := findPlain_q80 hq ht hshape hturns hcount
    exact wholeBlocks_q80_iff.1 (h _ hfind)
  · intro h v hv
    exact findPlain_whole hv fun t rows width hq ht hshape hturns =>
      h rows width (reencodedPlain_iff.2 ⟨hq, t, ht, hshape, hturns⟩)

/-- A slice of a stack is turned into Q8_0, and its elements are counted. -/
theorem stack_whole_iff {rows width : ℕ} (hstack : s.stackSlice name = some (rows, width)) :
    (∀ v, s.find name = some (some v) → v.WholeBlocks) ↔ (rows * width % 32 = 0 → width % 32 = 0) := by
  have hfused := mtpFused_some hstack
  by_cases hcount : rows * width % 32 = 0
  · rw [if_pos hcount] at hfused
    obtain ⟨b, hfused⟩ := hfused
    have hfind : s.find name = some (some ⟨.bytes b, .Q8_0, [width, rows]⟩) := by
      simp [SafetensorsSource.find, hfused]
    constructor
    · exact fun h _ => wholeBlocks_q80_iff.1 (h _ hfind)
    · intro h v hv
      obtain rfl := Option.some.inj (Option.some.inj (hfind.symm.trans hv))
      exact wholeBlocks_q80_iff.2 (h hcount)
  · rw [if_neg hcount] at hfused
    have hfind : s.find name = none := by simp [SafetensorsSource.find, hfused]
    simp [hfind, hcount]

/-- **A view has rows of whole blocks** if and only if what is turned into Q8_0 on the count of its elements
has. -/
theorem find_whole_iff : (∀ v, s.find name = some (some v) → v.WholeBlocks) ↔
    ∀ rows width, s.reencoded name = some (rows, width) → rows * width % 32 = 0 → width % 32 = 0 := by
  unfold SafetensorsSource.reencoded
  cases hstack : s.stackSlice name with
  | some slice =>
    obtain ⟨rows, width⟩ := slice
    rw [stack_whole_iff hstack]
    simp
  | none =>
    have hfused := mtpFused_none hstack
    cases hscale : name.dropSuffix? ".scale".toList with
    | some stem =>
      have hfind : s.find name = s.findScale stem := by
        simp only [SafetensorsSource.find, hfused, hscale, Option.bind_eq_bind, Option.bind_some]
      simp only [hfind, reduceCtorEq, false_implies, implies_true, iff_true]
      exact fun v hv => findScale_whole hv
    | none =>
      cases hres : s.resolve name with
      | none =>
        have hfind : s.find name = some none := by
          simp only [SafetensorsSource.find, hfused, hscale, hres, Option.bind_eq_bind, Option.bind_some]
        simp [hfind]
      | some target =>
        cases target with
        | plain hf =>
          have hfind : s.find name = s.findPlain (s.biasKey name hf) := by
            simp only [SafetensorsSource.find, hfused, hscale, hres, Option.bind_eq_bind, Option.bind_some]
          rw [hfind]
          exact findPlain_whole_iff
        | transform hf kind =>
          have hfind : s.find name = s.findTransform hf kind := by
            simp only [SafetensorsSource.find, hfused, hscale, hres, Option.bind_eq_bind, Option.bind_some]
          simp only [hfind, reduceCtorEq, false_implies, implies_true, iff_true]
          exact fun v hv => findTransform_whole hv

end whole

/-- **The arms agree exactly when the checkpoint fits**: of every name of every checkpoint. -/
theorem arms_agree_iff (s : SafetensorsSource) (name : List Char) : s.ArmsAgree name ↔ s.ArmsFit name := by
  have hblocks {stem : List Char} {target : HfTarget} {q : Nvfp4Quant}
      (h : s.Nvfp4Linear (stem ++ ".weight".toList) target q) : q.Blocks ↔
        q.inF % 64 = 0 ∧ q.wscale.length = q.outF * (q.inF / 16) :=
    ⟨fun hq => ⟨hq.width, hq.scales⟩, fun hq => ⟨hq.1, (nvfp4Quant_spec h.quant).2, hq.2⟩⟩
  constructor
  · intro h
    refine ⟨?_, find_whole_iff.1 h.whole⟩
    rintro stem target q rfl hlinear
    obtain ⟨hq, hcols, hscale⟩ := (blockWeight_iff hlinear).1 (h.blocks stem target q rfl hlinear)
    obtain ⟨hwidth, hscales⟩ := (hblocks hlinear).1 hq
    exact ⟨hwidth, hscales, hcols, hscale⟩
  · intro h
    have hagree {stem : List Char} {target : HfTarget} {q : Nvfp4Quant}
        (hname : name = stem ++ ".weight".toList) (hlinear : s.Nvfp4Linear name target q) :
        q.Blocks ∧ ∃ w, s.blockWeight stem = some w ∧ s.dequantized target = some w := by
      obtain ⟨hwidth, hscales, hcols, hscale⟩ := h.nvfp4 stem target q hname hlinear
      subst hname
      have hq := (hblocks hlinear).2 ⟨hwidth, hscales⟩
      exact ⟨hq, (blockWeight_iff hlinear).2 ⟨hq, hcols, hscale⟩⟩
    refine ⟨fun stem target q hname hlinear => (hagree hname hlinear).2, ?_, ?_, find_whole_iff.2 h.widths⟩
    · intro stem hf q hname hlinear hwidth hpos
      obtain ⟨hq, w, hw, htrue⟩ := hagree hname hlinear
      subst hname
      exact ⟨w, splitWeight_eq hlinear hq hpos hw, htrue⟩
    · intro target t outF inF scales h8 hfold v hv
      obtain ⟨stem, hstem, hquant⟩ := h8.quant
      exact findFp8Native_values h8.resolves hstem h8.notNvfp4 hquant h8.permutes hfold hv

/-- An FP8 matrix of two rows of 16 with the scale 1: one Q8_0 block for both rows. -/
def narrowFp8 : SafetensorsSource where
  raw hf :=
    if hf = "model.layers.0.self_attn.q_proj.weight".toList then
      some { dtype := "F8_E4M3", shape := [2, 16], bytes := List.replicate 32 0x38, sized := by decide }
    else if hf = "model.layers.0.self_attn.q_proj.weight_scale".toList then
      some { dtype := "F32", shape := [1], bytes := [0, 0, 0x80, 0x3f], sized := by decide }
    else none
  resolve name :=
    if name = "blk.0.attn_q.weight".toList then
      some (.plain "model.layers.0.self_attn.q_proj.weight".toList)
    else none
  cfg := { heads := ⟨none⟩, isHy3 := false, nLayer := 1, nextnPredictLayers := 0, nextn_le := by decide }
  env := { fullPrec := false, nvW4 := false, fp8Fold := false, debug := false }
  num := { q8_0 := fun data => (List.replicate (data.length / 32) (0x08 :: 0x20 :: List.replicate 32 0x7f)).flatten
           nvfp4 := fun _ => [], dequantize := fun _ _ _ => none, ops := ⟨id, id⟩ }

theorem block_straddles_rows : ¬∀ (s : SafetensorsSource) (name : List Char), s.ArmsAgree name := by
  intro h
  have hwhole := (h narrowFp8 "blk.0.attn_q.weight".toList).whole
  have hview : (narrowFp8.find "blk.0.attn_q.weight".toList).map
      (fun r => r.map fun v => (v.ggmlType, v.ne)) = some (some (.Q8_0, [16, 2])) := by
    decide +kernel
  obtain ⟨r, hfind, hr⟩ := Option.map_eq_some_iff.1 hview
  obtain ⟨⟨data, ty, ne⟩, rfl, hv⟩ := Option.map_eq_some_iff.1 hr
  obtain ⟨rfl, rfl⟩ := Prod.mk.inj hv
  exact absurd (wholeBlocks_q80_iff.1 (hwhole _ hfind)) (by decide)

end Memra.StSource
