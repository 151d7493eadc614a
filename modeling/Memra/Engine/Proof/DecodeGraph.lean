import Memra.Engine.DecodeGraph
import Mathlib

/-!
# Graph replay is eager decoding

`graphAt b ns` is the captured step of a segment that ends at `b`, with every attention layer over `ns`
splits, and `planAt b ns` its plan. `fa_plan` finds the plan (`faPlan_graphAt`): although the partials of
all layers may share an address, each main takes its own combine. `fa_apply` moves all of them to one
count (`faApply_graphAt`), at a `t_kv` of the segment to eager's (`live_eq`). A launch then does what an
eager step does (`layers_sim`), read off counters that stand where the host's do. A capture writes rows
above the counters alone and restores the rest (`graphCaptureSegment_spec`), so sessions and the replay
loop stay with the eager decode (`SessionAt`, `LoopAt`).
-/

namespace Memra.DecodeGraph

open Lib

/-! ## Segments -/

section

variable (cfg : FaCfg)

theorem raiseEnd_spec (cls : FaClass) (fuel stop : ℕ) :
    stop ≤ cfg.raiseEnd cls fuel stop ∧ cfg.raiseEnd cls fuel stop ≤ stop + fuel ∧
      ∀ t, stop < t → t ≤ cfg.raiseEnd cls fuel stop → cfg.faClassOf t = cls := by
  induction fuel generalizing stop with
  | zero =>
    refine ⟨Nat.le_refl _, Nat.le_refl _, fun t h1 h2 => ?_⟩
    simp only [FaCfg.raiseEnd] at h2
    omega
  | succ fuel ih =>
    simp only [FaCfg.raiseEnd]
    split
    · rename_i hc
      obtain ⟨h1, h2, h3⟩ := ih (stop + 1)
      refine ⟨by omega, by omega, fun t hlt hle => ?_⟩
      by_cases ht : t = stop + 1
      · exact ht ▸ hc
      · exact h3 t (by omega) hle
    · exact ⟨Nat.le_refl _, by omega, fun t h1 h2 => by omega⟩

/-- A segment starts where it should, ends within the budget and is of one class. -/
theorem faSegmentEnd_spec {start finalMax : ℕ} (h : start ≤ finalMax) :
    start ≤ cfg.faSegmentEnd start finalMax ∧ cfg.faSegmentEnd start finalMax ≤ finalMax ∧
      ∀ t, start ≤ t → t ≤ cfg.faSegmentEnd start finalMax →
        cfg.faClassOf t = cfg.faClassOf (cfg.faSegmentEnd start finalMax) := by
  obtain ⟨h1, h2, h3⟩ := raiseEnd_spec cfg (cfg.faClassOf start) (finalMax - start) start
  have hall : ∀ t, start ≤ t → t ≤ cfg.faSegmentEnd start finalMax →
      cfg.faClassOf t = cfg.faClassOf start := by
    intro t hlo hhi
    cases Nat.eq_or_lt_of_le hlo with
    | inl he => rw [he]
    | inr hlt => exact h3 t hlt hhi
  have hhi : cfg.faSegmentEnd start finalMax ≤ finalMax := by
    simp only [FaCfg.faSegmentEnd]
    omega
  have hlast := hall (cfg.faSegmentEnd start finalMax) h1 (Nat.le_refl _)
  exact ⟨h1, hhi, fun t hlo ht => by rw [hall t hlo ht, hlast]⟩

/-! ## The step at a split count -/

/-- The parameters of the mains captured for a segment that ends at `b`, over `ns` splits. -/
def paramsAt (b ns il : ℕ) : FaParams :=
  { cls := cfg.faClassOf b, partO := cfg.partO b il, gridX := cfg.gridOf (cfg.faClassOf b)
    gridY := ns, nSplits := ns, splitKeys := cfg.keysOf (cfg.faClassOf b) }

def layersAt (b ns : ℕ) : ℕ → List LayerKind → List DcNode
  | _, [] => []
  | il, .fullAttention :: ks =>
    .append il :: .incSeqlen il :: .faMain il (paramsAt cfg b ns il) ::
      .faCombine il (cfg.partO b il) ns :: layersAt b ns (il + 1) ks
  | il, .linearAttention :: ks => .linear il :: layersAt b ns (il + 1) ks

def graphAt (layers : List LayerKind) (b ns : ℕ) : List DcNode :=
  .embedGather :: (layersAt cfg b ns 0 layers ++ [.argmax, .incPos])

theorem layersDcCap_eq (b il : ℕ) (ks : List LayerKind) :
    layersDcCap cfg b il ks = layersAt cfg b (cfg.splitsOf b) il ks := by
  induction ks generalizing il with
  | nil => rfl
  | cons k ks ih =>
    cases k with
    | fullAttention => simp [layersDcCap, mixerDcCap, faDecodeDc, layersAt, paramsAt, ih]
    | linearAttention => simp [layersDcCap, mixerDcCap, layersAt, ih]

/-- The plan entry of the main at node `i`. -/
def mainAt (b cur i : ℕ) (combine : Option ℕ) : FaMain :=
  { node := i, nkv := cfg.gridOf (cfg.faClassOf b), bucketSplits := cfg.splitsOf b
    selfSplitKeys :=
      if (cfg.faClassOf b).1 then none else some (cfg.keysOf (cfg.faClassOf b))
    combine, cur }

/-- The mains of the layers, from node `i` on: address and entry. -/
def mainsAt (b : ℕ) : ℕ → ℕ → List LayerKind → List (ℕ × FaMain)
  | _, _, [] => []
  | i, il, .fullAttention :: ks =>
    (cfg.partO b il, mainAt cfg b (cfg.splitsOf b) (i + 2) none) :: mainsAt b (i + 4) (il + 1) ks
  | i, il, .linearAttention :: ks => mainsAt b (i + 1) (il + 1) ks

def combinesAt (b : ℕ) : ℕ → ℕ → List LayerKind → List (ℕ × ℕ)
  | _, _, [] => []
  | i, il, .fullAttention :: ks => (i + 3, cfg.partO b il) :: combinesAt b (i + 4) (il + 1) ks
  | i, il, .linearAttention :: ks => combinesAt b (i + 1) (il + 1) ks

/-- The plan of the layers, from node `i` on: each main with the combine after it. -/
def planFrom (b cur : ℕ) : ℕ → List LayerKind → List FaMain
  | _, [] => []
  | i, .fullAttention :: ks =>
    mainAt cfg b cur (i + 2) (some (i + 3)) :: planFrom b cur (i + 4) ks
  | i, .linearAttention :: ks => planFrom b cur (i + 1) ks

def planAt (layers : List LayerKind) (b cur : ℕ) : List FaMain := planFrom cfg b cur 1 layers

/-! ## Pairing -/

theorem filterMap_mainOf (b i il : ℕ) (ks : List LayerKind) (post : List DcNode) :
    ∃ j, ((layersAt cfg b (cfg.splitsOf b) il ks ++ post).zipIdx i).filterMap mainOf =
      mainsAt cfg b i il ks ++ (post.zipIdx j).filterMap mainOf := by
  induction ks generalizing i il with
  | nil => exact ⟨i, rfl⟩
  | cons k ks ih =>
    cases k with
    | fullAttention =>
      obtain ⟨j, hj⟩ := ih (i + 4) (il + 1)
      refine ⟨j, ?_⟩
      simp [layersAt, mainsAt, List.zipIdx_cons, List.filterMap_cons, mainOf, mainAt, paramsAt, Nat.add_assoc, hj]
    | linearAttention =>
      obtain ⟨j, hj⟩ := ih (i + 1) (il + 1)
      exact ⟨j, by simp [layersAt, mainsAt, List.zipIdx_cons, List.filterMap_cons, mainOf, hj]⟩

theorem filterMap_combineOf (b ns i il : ℕ) (ks : List LayerKind) (post : List DcNode) :
    ∃ j, ((layersAt cfg b ns il ks ++ post).zipIdx i).filterMap combineOf =
      combinesAt cfg b i il ks ++ (post.zipIdx j).filterMap combineOf := by
  induction ks generalizing i il with
  | nil => exact ⟨i, rfl⟩
  | cons k ks ih =>
    cases k with
    | fullAttention =>
      obtain ⟨j, hj⟩ := ih (i + 4) (il + 1)
      refine ⟨j, ?_⟩
      simp [layersAt, combinesAt, List.zipIdx_cons, List.filterMap_cons, combineOf, Nat.add_assoc, hj]
    | linearAttention =>
      obtain ⟨j, hj⟩ := ih (i + 1) (il + 1)
      exact ⟨j, by simp [layersAt, combinesAt, List.zipIdx_cons, List.filterMap_cons, combineOf, hj]⟩

/-- Main by main, the next combine is the layer's own. -/
theorem mainsAt_combinesAt (b i il : ℕ) (ks : List LayerKind) :
    List.Forall₂ (fun m c => (decide (m.2.node < c.1) && decide (c.2 = m.1)) = true)
      (mainsAt cfg b i il ks) (combinesAt cfg b i il ks) := by
  induction ks generalizing i il with
  | nil => exact .nil
  | cons k ks ih =>
    cases k with
    | fullAttention => exact .cons (by simp [mainAt]) (ih (i + 4) (il + 1))
    | linearAttention => exact ih (i + 1) (il + 1)

theorem planFrom_eq (b i il : ℕ) (ks : List LayerKind) :
    ((mainsAt cfg b i il ks).zip (combinesAt cfg b i il ks)).map
      (fun mc => { mc.1.2 with combine := some mc.2.1 }) =
    planFrom cfg b (cfg.splitsOf b) i ks := by
  induction ks generalizing i il with
  | nil => rfl
  | cons k ks ih =>
    cases k with
    | fullAttention => simp [mainsAt, combinesAt, planFrom, mainAt, ih]
    | linearAttention => simp [mainsAt, combinesAt, planFrom, ih]

/-- **`fa_plan`** pairs every main of a captured step with the combine of its layer. -/
theorem faPlan_graphAt (layers : List LayerKind) (b : ℕ) :
    faPlan (graphAt cfg layers b (cfg.splitsOf b)) =
      .ok (planAt cfg layers b (cfg.splitsOf b)) := by
  obtain ⟨j, hm⟩ := filterMap_mainOf cfg b 1 0 layers [.argmax, .incPos]
  obtain ⟨k, hc⟩ := filterMap_combineOf cfg b (cfg.splitsOf b) 1 0 layers [.argmax, .incPos]
  have hmains : (graphAt cfg layers b (cfg.splitsOf b)).zipIdx.filterMap mainOf =
      mainsAt cfg b 1 0 layers := by
    simpa [graphAt, List.zipIdx_cons, List.filterMap_cons, mainOf] using hm
  have hcombines : (graphAt cfg layers b (cfg.splitsOf b)).zipIdx.filterMap combineOf =
      combinesAt cfg b 1 0 layers := by
    simpa [graphAt, List.zipIdx_cons, List.filterMap_cons, combineOf] using hc
  rw [faPlan, hmains, hcombines, firstFit_zip (mainsAt_combinesAt cfg b 1 0 layers)]
  simp only [planFrom_eq, planAt]

/-! ## Retuning -/

/-- The count that `fa_apply` gives every main at `t`. -/
def liveAt (b t : ℕ) : ℕ := (mainAt cfg b 0 0 none).liveSplits cfg.splitKeys t

theorem liveSplits_mainAt (b cur i t : ℕ) (combine : Option ℕ) :
    (mainAt cfg b cur i combine).liveSplits cfg.splitKeys t = liveAt cfg b t := rfl

/-- One main and its combine, in place. -/
theorem retune_main (b cur ns il : ℕ) (ks : List LayerKind) (pre post : List DcNode) :
    ((pre ++ (layersAt cfg b cur il (.fullAttention :: ks) ++ post)).modify (pre.length + 2)
        (·.setSplits ns)).modify (pre.length + 3) (·.setSplits ns) =
      (pre ++ [.append il, .incSeqlen il, .faMain il (paramsAt cfg b ns il),
        .faCombine il (cfg.partO b il) ns]) ++ (layersAt cfg b cur (il + 1) ks ++ post) := by
  have h2 := modify_at (pre ++ [.append il, .incSeqlen il]) (.faMain il (paramsAt cfg b cur il))
    (.faCombine il (cfg.partO b il) cur :: (layersAt cfg b cur (il + 1) ks ++ post))
    (·.setSplits ns)
  have h3 := modify_at
    (pre ++ [.append il, .incSeqlen il, DcNode.setSplits ns (.faMain il (paramsAt cfg b cur il))])
    (.faCombine il (cfg.partO b il) cur) (layersAt cfg b cur (il + 1) ks ++ post) (·.setSplits ns)
  simp only [List.length_append, List.length_cons, List.length_nil, Nat.zero_add,
    Nat.reduceAdd, List.append_assoc, List.cons_append, List.nil_append] at h2 h3
  simp only [layersAt, List.cons_append, h2, h3, List.append_assoc, List.nil_append]
  rfl

section

variable {splitKeys : ℕ → ℕ → ℕ} {t : ℕ} {m : FaMain} (nodes : List DcNode) (plan : List FaMain)

theorem faApply_keep (h : m.liveSplits splitKeys t = m.cur) :
    faApply splitKeys t nodes (m :: plan) =
      ((faApply splitKeys t nodes plan).1, m :: (faApply splitKeys t nodes plan).2) := by
  simp only [faApply, if_pos h]

theorem faApply_move {ci ns : ℕ} (hns : m.liveSplits splitKeys t = ns) (h : ns ≠ m.cur)
    (hci : m.combine = some ci) :
    faApply splitKeys t nodes (m :: plan) =
      let moved := (nodes.modify m.node (·.setSplits ns)).modify ci (·.setSplits ns)
      ((faApply splitKeys t moved plan).1,
        { m with cur := ns } :: (faApply splitKeys t moved plan).2) := by
  subst hns
  simp only [faApply, if_neg h, hci]

end

theorem faApply_layersAt (b cur t il : ℕ) (ks : List LayerKind) (pre post : List DcNode) :
    faApply cfg.splitKeys t (pre ++ (layersAt cfg b cur il ks ++ post))
        (planFrom cfg b cur pre.length ks) =
      (pre ++ (layersAt cfg b (liveAt cfg b t) il ks ++ post),
        planFrom cfg b (liveAt cfg b t) pre.length ks) := by
  induction ks generalizing il pre with
  | nil => simp [layersAt, planFrom, faApply]
  | cons k ks ih =>
    cases k with
    | fullAttention =>
      have hrest := ih (il + 1) (pre ++ [.append il, .incSeqlen il,
        .faMain il (paramsAt cfg b (liveAt cfg b t) il),
        .faCombine il (cfg.partO b il) (liveAt cfg b t)])
      simp only [List.length_append, List.length_cons, List.length_nil, Nat.zero_add,
        Nat.reduceAdd] at hrest
      have hlive := liveSplits_mainAt cfg b cur (pre.length + 2) t (some (pre.length + 3))
      by_cases hcur : liveAt cfg b t = cur
      · rw [planFrom, faApply_keep _ _ (hlive.trans hcur), hcur]
        rw [hcur] at hrest
        simp only [layersAt, List.cons_append, List.append_assoc, List.nil_append] at hrest ⊢
        rw [hrest, planFrom]
      · rw [planFrom, faApply_move _ _ hlive hcur rfl]
        simp only [mainAt, retune_main, hrest]
        simp [layersAt, planFrom, mainAt]
    | linearAttention =>
      have hrest := ih (il + 1) (pre ++ [.linear il])
      simp only [List.length_append, List.length_cons, List.length_nil, Nat.zero_add] at hrest
      simp only [planFrom, layersAt, List.cons_append, List.append_assoc, List.nil_append]
        at hrest ⊢
      exact hrest

/-- **`fa_apply`** moves every main and its combine to one count. -/
theorem faApply_graphAt (layers : List LayerKind) (b cur t : ℕ) :
    faApply cfg.splitKeys t (graphAt cfg layers b cur) (planAt cfg layers b cur) =
      (graphAt cfg layers b (liveAt cfg b t), planAt cfg layers b (liveAt cfg b t)) := by
  simpa [graphAt, planAt] using
    faApply_layersAt cfg b cur t 0 layers [.embedGather] [.argmax, .incPos]

theorem splitsFor_mono {t b : ℕ} (h : t ≤ b) (keys : ℕ) : splitsFor t keys ≤ splitsFor b keys := by
  have hdiv : (t + keys - 1) / keys ≤ (b + keys - 1) / keys := Nat.div_le_div_right (by omega)
  simp only [splitsFor]
  omega

/-- The count before it is capped by the capture's. -/
theorem liveAt_eq {b t : ℕ} (hc : cfg.faClassOf t = cfg.faClassOf b) :
    liveAt cfg b t =
      min (max ((t + max (cfg.keysOf (cfg.faClassOf b)) 1 - 1) /
        max (cfg.keysOf (cfg.faClassOf b)) 1) 1) (cfg.splitsOf b) ∨
    liveAt cfg b t =
      min (max ((t + cfg.keysOf (cfg.faClassOf b) - 1) /
        max (cfg.keysOf (cfg.faClassOf b)) 1) 1) (cfg.splitsOf b) := by
  cases hvec : (cfg.faClassOf b).1 with
  | true =>
    left
    have hrung : cfg.splitKeys t cfg.nHeadKv = (cfg.faClassOf b).2.2.2 := by rw [← hc]; rfl
    simp [liveAt, FaMain.liveSplits, mainAt, hvec, FaCfg.keysOf, FaCfg.gridOf, hrung]
  | false =>
    right
    simp [liveAt, FaMain.liveSplits, mainAt, hvec]

/-- Within a segment the count is eager's. -/
theorem live_eq {b t : ℕ} (hc : cfg.faClassOf t = cfg.faClassOf b) (ht : t ≤ b) :
    liveAt cfg b t = cfg.splitsOf t := by
  have hmono := splitsFor_mono ht (cfg.keysOf (cfg.faClassOf b))
  have hlive := liveAt_eq cfg hc
  have hb : cfg.splitsOf b = splitsFor b (cfg.keysOf (cfg.faClassOf b)) := rfl
  rw [FaCfg.splitsOf, hc]
  rw [hb] at hlive
  cases hkeys : cfg.keysOf (cfg.faClassOf b) with
  | zero =>
    -- a ladder value of zero leaves one split on either side
    rw [hkeys] at hlive
    simp only [splitsFor, Nat.div_zero] at hlive ⊢
    omega
  | succ k =>
    rw [hkeys] at hlive hmono
    have hmax : max (k + 1) 1 = k + 1 := by omega
    rw [hmax] at hlive
    simp only [splitsFor] at hlive hmono ⊢
    omega

end

/-! ## A launch and an eager step -/

section

variable {κ ρ η π : Type} (M : DcModel κ ρ η π) (cfg : FaCfg)

@[simp] theorem exec_nil (d : DcDev κ ρ η π) : d.exec M [] = d := rfl

@[simp] theorem exec_cons (d : DcDev κ ρ η π) (n : DcNode) (ns : List DcNode) :
    d.exec M (n :: ns) = (n.run M d).exec M ns := rfl

@[simp] theorem exec_append (d : DcDev κ ρ η π) (as bs : List DcNode) :
    d.exec M (as ++ bs) = (d.exec M as).exec M bs :=
  Lib.exec_append _ as bs d

/-- The row of a step, written at the counter. -/
def KvLayer.push (kvl : KvLayer κ) (row : κ) : KvLayer κ := (kvl.append row).incSeqlen

@[simp] theorem KvLayer.push_lenD (kvl : KvLayer κ) (row : κ) :
    (kvl.push row).lenD = kvl.lenD + 1 := rfl

@[simp] theorem KvLayer.push_high (kvl : KvLayer κ) (row : κ) :
    (kvl.push row).high = max kvl.high (kvl.lenD + 1) := rfl

theorem KvLayer.push_rows_lt (kvl : KvLayer κ) (row : κ) {i : ℕ} (h : i < kvl.lenD) :
    (kvl.push row).rows i = kvl.rows i := by
  have hne : i ≠ kvl.lenD := by omega
  exact Function.update_of_ne hne _ _

/-- The rows that attention reads. -/
def KvLayer.view (kvl : KvLayer κ) : List κ := (List.range kvl.lenD).map kvl.rows

/-- The partials of an attention layer. -/
def faPart (d : DcDev κ ρ η π) (il : ℕ) (p : FaParams) : π :=
  let kvl := (d.kv il).push (M.kvRow il d.posD d.x)
  M.faMain il p.cls d.posD (splitsFor kvl.lenD p.splitKeys) p.gridY p.nSplits kvl.view d.x

/-- An attention layer, captured or eager. -/
theorem exec_full (d : DcDev κ ρ η π) (il ns : ℕ) (p : FaParams) :
    d.exec M [.append il, .incSeqlen il, .faMain il p, .faCombine il p.partO ns] =
      { d with
        kv := Function.update d.kv il ((d.kv il).push (M.kvRow il d.posD d.x))
        part := Function.update d.part p.partO (faPart M d il p)
        x := M.faCombine il ns (faPart M d il p) d.x } := by
  simp [DcNode.run, faPart, KvLayer.push, KvLayer.view]

/-- The same rows below the same counters, the same states and inputs. -/
structure DevSame (d e : DcDev κ ρ η π) : Prop where
  posD : d.posD = e.posD
  tokenD : d.tokenD = e.tokenD
  recur : d.recur = e.recur
  lenD : ∀ il, (d.kv il).lenD = (e.kv il).lenD
  rows : ∀ il i, i < (d.kv il).lenD → (d.kv il).rows i = (e.kv il).rows i

section

variable {M cfg} {d e : DcDev κ ρ η π}

theorem DevSame.refl (d : DcDev κ ρ η π) : DevSame d d :=
  ⟨rfl, rfl, rfl, fun _ => rfl, fun _ _ _ => rfl⟩

theorem KvLayer.push_rows {a b : KvLayer κ} (hlen : a.lenD = b.lenD)
    (hrows : ∀ i, i < a.lenD → a.rows i = b.rows i) (row : κ) {i : ℕ}
    (hi : i < (a.push row).lenD) : (a.push row).rows i = (b.push row).rows i := by
  rw [KvLayer.push_lenD] at hi
  by_cases hlt : i < a.lenD
  · rw [a.push_rows_lt row hlt, b.push_rows_lt row (hlen ▸ hlt), hrows i hlt]
  · have hi : i = a.lenD := by omega
    have hb : i = b.lenD := by omega
    have ha : (a.push row).rows i = row := hi ▸ Function.update_self _ _ _
    have hb : (b.push row).rows i = row := hb ▸ Function.update_self _ _ _
    rw [ha, hb]

/-- The partials of layers that agree, under parameters that agree. -/
theorem DevSame.faPart_eq (h : DevSame d e) (hx : d.x = e.x) (il : ℕ) {p q : FaParams}
    (hcls : p.cls = q.cls) (hkeys : p.splitKeys = q.splitKeys) (hgrid : p.gridY = q.gridY)
    (hns : p.nSplits = q.nSplits) : faPart M d il p = faPart M e il q := by
  have hview : ((d.kv il).push (M.kvRow il e.posD e.x)).view =
      ((e.kv il).push (M.kvRow il e.posD e.x)).view := by
    simp only [KvLayer.view, KvLayer.push_lenD, h.lenD il]
    refine List.map_congr_left fun i hi => ?_
    have hlt := List.mem_range.1 hi
    exact KvLayer.push_rows (h.lenD il) (h.rows il) _ (by rw [KvLayer.push_lenD, h.lenD il]; exact hlt)
  simp only [faPart, KvLayer.push_lenD, h.posD, hx, h.lenD il, hcls, hkeys, hgrid, hns, hview]

theorem DevSame.full (h : DevSame d e) (hx : d.x = e.x) (il ns : ℕ) {p q : FaParams}
    (hcls : p.cls = q.cls) (hkeys : p.splitKeys = q.splitKeys) (hgrid : p.gridY = q.gridY)
    (hns : p.nSplits = q.nSplits) :
    DevSame (d.exec M [.append il, .incSeqlen il, .faMain il p, .faCombine il p.partO ns])
        (e.exec M [.append il, .incSeqlen il, .faMain il q, .faCombine il q.partO ns]) ∧
      (d.exec M [.append il, .incSeqlen il, .faMain il p, .faCombine il p.partO ns]).x =
        (e.exec M [.append il, .incSeqlen il, .faMain il q, .faCombine il q.partO ns]).x := by
  have hpart := h.faPart_eq (M := M) hx il hcls hkeys hgrid hns
  rw [exec_full, exec_full]
  refine ⟨⟨h.posD, h.tokenD, h.recur, fun j => ?_, fun j i hi => ?_⟩, by simp only [hpart, hx]⟩
  · by_cases hj : j = il
    · subst hj
      simp [h.lenD]
    · simp [hj, h.lenD]
  · by_cases hj : j = il
    · subst hj
      simp only [Function.update_self, h.posD, hx] at hi ⊢
      exact KvLayer.push_rows (h.lenD j) (h.rows j) _ hi
    · simp only [Function.update_of_ne hj] at hi ⊢
      exact h.rows j i hi

theorem DevSame.linear (h : DevSame d e) (hx : d.x = e.x) (il : ℕ) :
    DevSame (d.exec M [.linear il]) (e.exec M [.linear il]) ∧
      (d.exec M [.linear il]).x = (e.exec M [.linear il]).x := by
  refine ⟨⟨h.posD, h.tokenD, ?_, h.lenD, h.rows⟩, ?_⟩
  · simp [DcNode.run, h.recur, hx]
  · simp [DcNode.run, h.recur, hx]

end

/-- The counters of the layers with KV, on either side, stand at `n`. -/
def Level (ks : List LayerKind) (il n : ℕ) (s : DcState κ ρ η π) : Prop :=
  ∀ j, ks[j]? = some .fullAttention → s.len (il + j) = n ∧ (s.dev.kv (il + j)).lenD = n

/-- What a mixer does to the counters. -/
theorem mixerDc_counters (s : DcState κ ρ η π) (il : ℕ) (k : LayerKind) (j : ℕ) :
    (mixerDc M cfg s il k).len j = (if j = il ∧ k = .fullAttention then s.len j + 1 else s.len j) ∧
      ((mixerDc M cfg s il k).dev.kv j).lenD =
        if j = il ∧ k = .fullAttention then (s.dev.kv j).lenD + 1 else (s.dev.kv j).lenD := by
  cases k with
  | fullAttention =>
    by_cases hj : j = il
    · subst hj
      simp [mixerDc, faDecodeDc, DcNode.run, KvLayer.append, KvLayer.incSeqlen]
    · simp [mixerDc, faDecodeDc, DcNode.run, hj]
  | linearAttention => simp [mixerDc, DcNode.run]

theorem mixerDc_full (s : DcState κ ρ η π) (il : ℕ) :
    (mixerDc M cfg s il .fullAttention).dev =
      s.dev.exec M [.append il, .incSeqlen il,
        .faMain il (paramsAt cfg (s.len il + 1) (cfg.splitsOf (s.len il + 1)) il),
        .faCombine il (cfg.partO (s.len il + 1) il) (cfg.splitsOf (s.len il + 1))] := by
  simp [mixerDc, faDecodeDc, paramsAt]

/-- **The simulation**, layer by layer: the captured layers over eager's split count do what the eager
layers do. -/
theorem layers_sim {b ns n : ℕ} (hcls : cfg.faClassOf (n + 1) = cfg.faClassOf b)
    (hns : ns = cfg.splitsOf (n + 1)) (ks : List LayerKind) (il : ℕ) (d : DcDev κ ρ η π)
    (s : DcState κ ρ η π) (h : DevSame d s.dev) (hx : d.x = s.dev.x) (hlev : Level ks il n s) :
    DevSame (d.exec M (layersAt cfg b ns il ks)) (layersDc M cfg s il ks).dev ∧
      (d.exec M (layersAt cfg b ns il ks)).x = (layersDc M cfg s il ks).dev.x := by
  induction ks generalizing il d s with
  | nil => exact ⟨h, hx⟩
  | cons k ks ih =>
    have hlev' : Level ks (il + 1) n (mixerDc M cfg s il k) := by
      intro j hj
      have hne : il + 1 + j ≠ il := by omega
      obtain ⟨hlen, hlenD⟩ := mixerDc_counters M cfg s il k (il + 1 + j)
      have hold := hlev (j + 1) (by simpa using hj)
      rw [show il + (j + 1) = il + 1 + j by omega] at hold
      simp only [hne, false_and, if_false] at hlen hlenD
      rw [hlen, hlenD]
      exact hold
    cases k with
    | fullAttention =>
      have hlen : s.len il = n := (hlev 0 rfl).1
      have hstep := h.full (M := M) hx il ns (p := paramsAt cfg b ns il)
        (q := paramsAt cfg (n + 1) ns il) hcls.symm (by simp only [paramsAt, hcls]) rfl rfl
      have heager := mixerDc_full M cfg s il
      rw [hlen, ← hns] at heager
      have hrest := ih (il + 1) _ (mixerDc M cfg s il .fullAttention) (heager ▸ hstep.1)
        (heager ▸ hstep.2) hlev'
      exact hrest
    | linearAttention =>
      obtain ⟨hsame, hxs⟩ := h.linear (M := M) hx il
      exact ih (il + 1) _ (mixerDc M cfg s il .linearAttention) hsame hxs hlev'

theorem layersDc_counters (ks : List LayerKind) (s : DcState κ ρ η π) (il j : ℕ) :
    (layersDc M cfg s il ks).len j =
        (if il ≤ j ∧ ks[j - il]? = some .fullAttention then s.len j + 1 else s.len j) ∧
      ((layersDc M cfg s il ks).dev.kv j).lenD =
        if il ≤ j ∧ ks[j - il]? = some .fullAttention then (s.dev.kv j).lenD + 1
        else (s.dev.kv j).lenD := by
  induction ks generalizing s il with
  | nil => simp [layersDc]
  | cons k ks ih =>
    obtain ⟨hlen, hlenD⟩ := ih (mixerDc M cfg s il k) (il + 1)
    obtain ⟨hlen', hlenD'⟩ := mixerDc_counters M cfg s il k j
    rw [layersDc, hlen, hlenD, hlen', hlenD']
    rcases Nat.lt_trichotomy j il with hj | hj | hj
    · have h1 : ¬ il + 1 ≤ j := by omega
      have h2 : ¬ il ≤ j := by omega
      have h3 : ¬ j = il := by omega
      simp [h1, h2, h3]
    · subst hj
      simp
    · have h1 : il + 1 ≤ j := hj
      have h2 : il ≤ j := by omega
      have h3 : ¬ j = il := by omega
      have h4 : j - il = j - (il + 1) + 1 := by omega
      simp [h1, h2, h3, h4]

theorem layersDc_frame (ks : List LayerKind) (s : DcState κ ρ η π) (il : ℕ) :
    (layersDc M cfg s il ks).pos = s.pos ∧ (layersDc M cfg s il ks).dev.posD = s.dev.posD := by
  induction ks generalizing s il with
  | nil => exact ⟨rfl, rfl⟩
  | cons k ks ih =>
    obtain ⟨hpos, hposD⟩ := ih (mixerDc M cfg s il k) (il + 1)
    rw [layersDc, hpos, hposD]
    cases k <;> exact ⟨rfl, rfl⟩

/-- Every counter of the cache stands at its position. -/
structure Ready (s : DcState κ ρ η π) : Prop where
  posD : s.dev.posD = s.pos
  level : Level M.layers 0 s.pos s

/-- What an eager step does to the counters. -/
theorem eagerStep_counters (s : DcState κ ρ η π) :
    (eagerStep M cfg s).2.pos = s.pos + 1 ∧ (eagerStep M cfg s).2.dev.posD = s.dev.posD + 1 ∧
      (eagerStep M cfg s).2.len = advanceLens M.layers s.len ∧
      (∀ il, ((eagerStep M cfg s).2.dev.kv il).lenD =
        if M.layers[il]? = some .fullAttention then (s.dev.kv il).lenD + 1
        else (s.dev.kv il).lenD) ∧
      (eagerStep M cfg s).2.dev.tokenD = (eagerStep M cfg s).1 := by
  obtain ⟨hpos, hposD⟩ :=
    layersDc_frame M cfg M.layers { s with dev := s.dev.exec M [.embedGather] } 0
  refine ⟨?_, ?_, funext fun il => ?_, fun il => ?_, rfl⟩
  · simpa [eagerStep, decodeStepDc] using hpos
  · simpa [eagerStep, decodeStepDc, DcNode.run] using hposD
  · have h := (layersDc_counters M cfg M.layers
      { s with dev := s.dev.exec M [.embedGather] } 0 il).1
    simpa [eagerStep, decodeStepDc, advanceLens] using h
  · have h := (layersDc_counters M cfg M.layers
      { s with dev := s.dev.exec M [.embedGather] } 0 il).2
    simpa [eagerStep, decodeStepDc, DcNode.run] using h

section

variable {M} {s : DcState κ ρ η π}

theorem Ready.eagerStep (h : Ready M s) : Ready M (eagerStep M cfg s).2 := by
  obtain ⟨hpos, hposD, hlen, hlenD, -⟩ := eagerStep_counters M cfg s
  refine ⟨by rw [hposD, hpos, h.posD], fun j hj => ?_⟩
  obtain ⟨h1, h2⟩ := h.level j hj
  rw [Nat.zero_add] at h1 h2 ⊢
  rw [hlen, hlenD, hpos]
  simp [advanceLens, hj, h1, h2]

theorem exec_graphAt (b ns : ℕ) (d : DcDev κ ρ η π) :
    d.exec M (graphAt cfg M.layers b ns) =
      let r := (d.exec M [.embedGather]).exec M (layersAt cfg b ns 0 M.layers)
      { r with posD := r.posD + 1, tokenD := M.pick r.x } := by
  simp [graphAt, DcNode.run]

theorem eagerStep_dev :
    (DecodeGraph.eagerStep M cfg s).2.dev =
      let r := (layersDc M cfg { s with dev := s.dev.exec M [.embedGather] } 0 M.layers).dev
      { r with posD := r.posD + 1, tokenD := M.pick r.x } := rfl

/-- **One launch** of a graph of the right class, tuned to eager's count, is one eager step. -/
theorem launch_sim {b : ℕ} (hcls : cfg.faClassOf (s.pos + 1) = cfg.faClassOf b)
    {d : DcDev κ ρ η π} (h : DevSame d s.dev) (hr : Ready M s) :
    DevSame (d.exec M (graphAt cfg M.layers b (cfg.splitsOf (s.pos + 1))))
      (DecodeGraph.eagerStep M cfg s).2.dev := by
  have hembed : DevSame (d.exec M [.embedGather]) (s.dev.exec M [.embedGather]) :=
    ⟨h.posD, h.tokenD, h.recur, h.lenD, h.rows⟩
  have hx : (d.exec M [.embedGather]).x = (s.dev.exec M [.embedGather]).x := by
    simp [DcNode.run, h.tokenD]
  obtain ⟨hl, hlx⟩ := layers_sim M cfg hcls rfl M.layers 0 _
    { s with dev := s.dev.exec M [.embedGather] } hembed hx hr.level
  rw [exec_graphAt, eagerStep_dev]
  exact ⟨congrArg (· + 1) hl.posD, congrArg M.pick hlx, hl.recur, hl.lenD, hl.rows⟩

end

/-! ## What a run leaves above the counters -/

/-- `b` is `a` after at most `n` rows were written at its counter. -/
structure KvAbove (n : ℕ) (a b : KvLayer κ) : Prop where
  lo : a.lenD ≤ b.lenD
  hi : b.lenD ≤ a.lenD + n
  rows : ∀ i, i < a.lenD → b.rows i = a.rows i
  high : b.high ≤ max a.high (a.lenD + n)

theorem KvAbove.refl (a : KvLayer κ) : KvAbove 0 a a :=
  ⟨Nat.le_refl _, by omega, fun _ _ => rfl, by omega⟩

theorem KvAbove.push (a : KvLayer κ) (row : κ) : KvAbove 1 a (a.push row) := by
  refine ⟨?_, ?_, fun i hi => a.push_rows_lt row hi, ?_⟩
  · simp
  · simp
  · simp

theorem KvAbove.trans {m n : ℕ} {a b c : KvLayer κ} (h1 : KvAbove m a b) (h2 : KvAbove n b c) :
    KvAbove (m + n) a c := by
  have hlo := h1.lo
  have hhi := h1.hi
  have hlo' := h2.lo
  have hhi' := h2.hi
  have hhigh := h1.high
  have hhigh' := h2.high
  refine ⟨by omega, by omega, fun i hi => ?_, by omega⟩
  rw [h2.rows i (by omega), h1.rows i hi]

theorem layersAt_above (b ns : ℕ) (ks : List LayerKind) (il : ℕ) (d : DcDev κ ρ η π) (j : ℕ) :
    KvAbove (if il ≤ j then 1 else 0) (d.kv j) ((d.exec M (layersAt cfg b ns il ks)).kv j) := by
  induction ks generalizing il d with
  | nil =>
    have h := KvAbove.refl (d.kv j)
    have hhigh := h.high
    exact ⟨h.lo, by simp [layersAt], h.rows, by simp [layersAt]⟩
  | cons k ks ih =>
    cases k with
    | fullAttention =>
      have hfull := exec_full M d il ns (paramsAt cfg b ns il)
      have hrest := ih (il + 1) (d.exec M [.append il, .incSeqlen il,
        .faMain il (paramsAt cfg b ns il), .faCombine il (cfg.partO b il) ns])
      rw [show cfg.partO b il = (paramsAt cfg b ns il).partO from rfl, hfull] at hrest
      have hexec : d.exec M (layersAt cfg b ns il (.fullAttention :: ks)) =
          (d.exec M [.append il, .incSeqlen il, .faMain il (paramsAt cfg b ns il),
            .faCombine il (paramsAt cfg b ns il).partO ns]).exec M
              (layersAt cfg b ns (il + 1) ks) := rfl
      rw [hexec, hfull]
      by_cases hj : j = il
      · subst hj
        have hup : KvAbove 1 (d.kv j) ((d.kv j).push (M.kvRow j d.posD d.x)) := .push _ _
        simp only [Function.update_self, Nat.not_succ_le_self, if_false] at hrest
        simpa using hup.trans hrest
      · simp only [Function.update_of_ne hj] at hrest
        have hle : (il + 1 ≤ j) = (il ≤ j) := by
          apply propext
          omega
        simpa only [hle] using hrest
    | linearAttention =>
      have hrest := ih (il + 1) (d.exec M [.linear il])
      have hkv : (d.exec M [.linear il]).kv = d.kv := rfl
      rw [hkv] at hrest
      by_cases hj : il ≤ j
      · rw [if_pos hj]
        by_cases hj' : il + 1 ≤ j
        · rw [if_pos hj'] at hrest
          exact hrest
        · rw [if_neg hj'] at hrest
          have hhi := hrest.hi
          have hhigh := hrest.high
          exact ⟨hrest.lo, Nat.le_succ_of_le hhi, hrest.rows, hhigh.trans (by omega)⟩
      · have hj' : ¬ il + 1 ≤ j := by omega
        rw [if_neg hj'] at hrest
        rw [if_neg hj]
        exact hrest

/-- A run of a captured step writes one row a layer, at the counter. -/
theorem graphAt_above (b ns : ℕ) (d : DcDev κ ρ η π) (j : ℕ) :
    KvAbove 1 (d.kv j) ((d.exec M (graphAt cfg M.layers b ns)).kv j) := by
  have h := layersAt_above M cfg b ns M.layers 0 (d.exec M [.embedGather]) j
  simpa [graphAt, DcNode.run] using h

theorem warmups_above (b ns w : ℕ) (d : DcDev κ ρ η π) (j : ℕ) :
    KvAbove w (d.kv j)
      (((fun d => DcDev.exec M d (graphAt cfg M.layers b ns))^[w] d).kv j) := by
  induction w generalizing d with
  | zero => exact .refl _
  | succ w ih =>
    rw [Function.iterate_succ_apply, Nat.add_comm]
    exact (graphAt_above M cfg b ns d j).trans (ih _)

/-! ## What a retuned graph runs -/

/-- Every attention layer of the graph runs the class of `t` over eager's split count: its grid, its
`n_splits`, its key partition, and those of its own combine, which the plan has it paired with. -/
structure FaExact (graph : List DcNode) (plan : List FaMain) (t : ℕ) : Prop where
  mains : ∀ i il p, graph[i]? = some (.faMain il p) →
    p.cls = cfg.faClassOf t ∧ p.gridY = cfg.splitsOf t ∧ p.nSplits = cfg.splitsOf t ∧
      splitsFor t p.splitKeys = cfg.splitsOf t ∧
      ∃ m ∈ plan, m.node = i ∧ m.combine = some (i + 1) ∧
        graph[i + 1]? = some (.faCombine il p.partO (cfg.splitsOf t))
  combines : ∀ il partO n, .faCombine il partO n ∈ graph → n = cfg.splitsOf t

theorem layersAt_mains (b ns n il : ℕ) (ks : List LayerKind) (post : List DcNode)
    (hpost : ∀ il p, .faMain il p ∉ post) {i j : ℕ} {p : FaParams}
    (h : (layersAt cfg b ns il ks ++ post)[i]? = some (.faMain j p)) :
    p = paramsAt cfg b ns j ∧ (layersAt cfg b ns il ks ++ post)[i + 1]? =
        some (.faCombine j p.partO ns) ∧
      ∃ m ∈ planFrom cfg b ns n ks, m.node = n + i ∧ m.combine = some (n + i + 1) := by
  induction ks generalizing n il i with
  | nil => exact absurd (List.mem_of_getElem? h) (hpost j p)
  | cons k ks ih =>
    cases k with
    | fullAttention =>
      match i with
      | 0 => simp [layersAt] at h
      | 1 => simp [layersAt] at h
      | 2 =>
        simp only [layersAt, List.cons_append, List.getElem?_cons_succ, List.getElem?_cons_zero,
          Option.some.injEq, DcNode.faMain.injEq] at h
        obtain ⟨rfl, rfl⟩ := h
        exact ⟨rfl, by simp [layersAt, paramsAt], _, .head _, rfl, rfl⟩
      | 3 => simp [layersAt] at h
      | i + 4 =>
        obtain ⟨hp, hc, m, hm, hnode, hcomb⟩ := ih (n + 4) (il + 1) (i := i) (by simpa [layersAt] using h)
        refine ⟨hp, by simpa [layersAt] using hc, m, .tail _ hm, by omega, ?_⟩
        rw [hcomb, show n + 4 + i + 1 = n + (i + 4) + 1 by omega]
    | linearAttention =>
      cases i with
      | zero => simp [layersAt] at h
      | succ i =>
        obtain ⟨hp, hc, m, hm, hnode, hcomb⟩ := ih (n + 1) (il + 1) (i := i) (by simpa [layersAt] using h)
        refine ⟨hp, by simpa [layersAt] using hc, m, hm, by omega, ?_⟩
        rw [hcomb, show n + 1 + i + 1 = n + (i + 1) + 1 by omega]

theorem layersAt_combines (b ns il : ℕ) (ks : List LayerKind) {j partO n : ℕ}
    (h : .faCombine j partO n ∈ layersAt cfg b ns il ks) : n = ns := by
  induction ks generalizing il with
  | nil => simp [layersAt] at h
  | cons k ks ih =>
    cases k with
    | fullAttention =>
      simp only [layersAt, List.mem_cons, reduceCtorEq, false_or, DcNode.faCombine.injEq] at h
      cases h with
      | inl h => exact h.2.2
      | inr h => exact ih (il + 1) h
    | linearAttention =>
      simp only [layersAt, List.mem_cons, reduceCtorEq, false_or] at h
      exact ih (il + 1) h

theorem faExact_graphAt (layers : List LayerKind) {b t : ℕ}
    (hc : cfg.faClassOf t = cfg.faClassOf b) :
    FaExact cfg (graphAt cfg layers b (cfg.splitsOf t)) (planAt cfg layers b (cfg.splitsOf t)) t := by
  refine ⟨fun i il p h => ?_, fun il partO n h => ?_⟩
  · cases i with
    | zero => simp [graphAt] at h
    | succ i =>
      obtain ⟨rfl, hcomb, m, hm, hnode, hmc⟩ := layersAt_mains cfg b (cfg.splitsOf t) 1 0 layers
        [.argmax, .incPos] (by simp) (by simpa [graphAt] using h)
      refine ⟨hc.symm, rfl, rfl, ?_, m, hm, by omega, ?_, by simpa [graphAt] using hcomb⟩
      · simp only [paramsAt, ← hc]
        rfl
      · rw [hmc, Nat.add_comm 1 i]
  · simp only [graphAt, List.mem_cons, List.mem_append, reduceCtorEq, false_or, List.not_mem_nil,
      or_false] at h
    exact layersAt_combines cfg b _ 0 layers h

/-! ## Captures and replays -/

/-- The state that eager decoding has. -/
structure SameState (s e : DcState κ ρ η π) : Prop where
  dev : DevSame s.dev e.dev
  pos : s.pos = e.pos
  len : s.len = e.len

/-- No row of a layer with KV was written past `maxCtx`. -/
def InRoom (maxCtx : ℕ) (s : DcState κ ρ η π) : Prop :=
  ∀ il, M.layers[il]? = some .fullAttention → (s.dev.kv il).high ≤ maxCtx

section

variable {M} {s e : DcState κ ρ η π} {maxCtx : ℕ}

/-- **A capture** of the segment from here on: the warm-ups leave no trace but rows above the
counters. -/
theorem graphCaptureSegment_spec (w finalMax : ℕ) (h : SameState s e) (hr : Ready M e)
    (hle : s.pos + 1 ≤ finalMax) (hroom : InRoom M maxCtx s) (hw : s.pos + w ≤ maxCtx) :
    ∃ b s', graphCaptureSegment M cfg w finalMax s =
        .ok (graphAt cfg M.layers b (cfg.splitsOf b), planAt cfg M.layers b (cfg.splitsOf b), b, s') ∧
      SameState s' e ∧ InRoom M maxCtx s' ∧ s'.pos = s.pos ∧ s'.dev.tokenD = s.dev.tokenD ∧
      s.pos + 1 ≤ b ∧ b ≤ finalMax ∧
      ∀ t, s.pos + 1 ≤ t → t ≤ b → cfg.faClassOf t = cfg.faClassOf b := by
  obtain ⟨hlo, hhi, hcls⟩ := faSegmentEnd_spec cfg hle
  generalize hb : cfg.faSegmentEnd (s.pos + 1) finalMax = b at hlo hhi hcls
  have hcap : decodeStepDcCap M cfg b = graphAt cfg M.layers b (cfg.splitsOf b) := by
    rw [decodeStepDcCap, layersDcCap_eq, graphAt]
  have habove := warmups_above M cfg b (cfg.splitsOf b) w s.dev
  simp only [graphCaptureSegment, hb, hcap, captureNodes_eq, faPlan_graphAt]
  refine ⟨b, _, rfl, ⟨⟨h.dev.posD, h.dev.tokenD, h.dev.recur, h.dev.lenD, fun il i hi => ?_⟩,
    h.pos, h.len⟩, fun il hil => ?_, rfl, rfl, hlo, hhi, hcls⟩
  · have hrow := (habove il).rows i hi
    exact hrow.trans (h.dev.rows il i hi)
  · have hhigh := (habove il).high
    have hlen : (s.dev.kv il).lenD = s.pos := by
      have hlev := (hr.level il hil).2
      rw [Nat.zero_add] at hlev
      rw [h.dev.lenD il, hlev, h.pos]
    have hold := hroom il hil
    exact hhigh.trans (by omega)

/-- **A replay** within its segment is an eager step. -/
theorem replay_spec (b cur : ℕ) (h : SameState s e) (hr : Ready M e)
    (hcls : cfg.faClassOf (s.pos + 1) = cfg.faClassOf b) (hb : s.pos + 1 ≤ b)
    (hroom : InRoom M maxCtx s) (hfit : s.pos + 1 ≤ maxCtx) :
    ∃ s', replay M cfg (graphAt cfg M.layers b cur) (planAt cfg M.layers b cur) s =
        (graphAt cfg M.layers b (cfg.splitsOf (s.pos + 1)),
          planAt cfg M.layers b (cfg.splitsOf (s.pos + 1)), s') ∧
      SameState s' (eagerStep M cfg e).2 ∧ InRoom M maxCtx s' ∧ s'.pos = s.pos + 1 ∧
      s'.dev.tokenD = (eagerStep M cfg e).1 := by
  obtain ⟨hpos, -, hlen, -, htok⟩ := eagerStep_counters M cfg e
  have hclsE : cfg.faClassOf (e.pos + 1) = cfg.faClassOf b := h.pos ▸ hcls
  have hsim := launch_sim cfg hclsE h.dev hr
  rw [← h.pos] at hsim
  simp only [replay, faApply_graphAt, live_eq cfg hcls hb]
  refine ⟨_, rfl, ⟨hsim, by rw [hpos, h.pos], by rw [hlen, h.len]⟩, fun il hil => ?_, rfl,
    by rw [← htok]; exact hsim.tokenD⟩
  have hhigh := (graphAt_above M cfg b (cfg.splitsOf (s.pos + 1)) s.dev il).high
  have hlenD : (s.dev.kv il).lenD = s.pos := by
    have hlev := (hr.level il hil).2
    rw [Nat.zero_add] at hlev
    rw [h.dev.lenD il, hlev, h.pos]
  have hold := hroom il hil
  exact hhigh.trans (by omega)

end

end

/-! ## Sessions -/

section

variable {κ ρ η π : Type} (M : DcModel κ ρ η π) (cfg : FaCfg) {w maxNew maxCtx : ℕ}
  {s0 : DcState κ ρ η π}

theorem eagerDecode_pos (s : DcState κ ρ η π) (n : ℕ) :
    (eagerDecode M cfg s n).2.pos = s.pos + n := by
  induction n with
  | zero => rfl
  | succ n ih =>
    rw [eagerDecode]
    exact (eagerStep_counters M cfg _).1.trans (by rw [ih, Nat.add_assoc])

variable {M}

theorem Ready.eagerDecode (h : Ready M s0) (n : ℕ) : Ready M (eagerDecode M cfg s0 n).2 := by
  induction n with
  | zero => exact h
  | succ n ih => exact ih.eagerStep cfg

variable (M)

/-- After `n` steps the session has eager's state, and a graph for the stretch it stands in. -/
structure SessionAt (s0 : DcState κ ρ η π) (maxNew maxCtx n : ℕ) (sess : GraphSession κ ρ η π) :
    Prop where
  same : SameState sess.st (eagerDecode M cfg s0 n).2
  room : InRoom M maxCtx sess.st
  bucket : sess.bucketMax = s0.pos + maxNew + 1
  tuned : ∃ cur, sess.graph = graphAt cfg M.layers sess.segEnd cur ∧
    sess.plan = planAt cfg M.layers sess.segEnd cur
  cls : ∀ t, sess.st.pos + 1 ≤ t → t ≤ sess.segEnd →
    cfg.faClassOf t = cfg.faClassOf sess.segEnd

variable {M cfg}

theorem SessionAt.pos {n : ℕ} {sess : GraphSession κ ρ η π}
    (h : SessionAt M cfg s0 maxNew maxCtx n sess) : sess.st.pos = s0.pos + n := by
  rw [h.same.pos, eagerDecode_pos]

/-- The replay of a step, within the segment. -/
theorem SessionAt.replayed {n : ℕ} {sess : GraphSession κ ρ η π}
    (h : SessionAt M cfg s0 maxNew maxCtx n sess) (hr : Ready M s0) (hn : n < maxNew)
    (hfit : s0.pos + maxNew + 2 ≤ maxCtx) (hseg : sess.st.pos + 1 ≤ sess.segEnd) :
    ∃ sess', sess.replayed M cfg = ((eagerStep M cfg (eagerDecode M cfg s0 n).2).1, sess') ∧
      SessionAt M cfg s0 maxNew maxCtx (n + 1) sess' ∧
      FaExact cfg sess'.graph sess'.plan sess'.st.pos := by
  obtain ⟨cur, hgraph, hplan⟩ := h.tuned
  have hpos := h.pos
  have hcls := h.cls (sess.st.pos + 1) (Nat.le_refl _) hseg
  obtain ⟨st, hrep, hsame, hroom, hst, htok⟩ := replay_spec cfg sess.segEnd cur h.same
    (hr.eagerDecode cfg n) hcls hseg h.room (by omega)
  rw [← hgraph, ← hplan] at hrep
  have hexact := faExact_graphAt cfg M.layers hcls
  rw [← hst] at hexact hrep
  refine ⟨{ sess with
    st, graph := graphAt cfg M.layers sess.segEnd (cfg.splitsOf st.pos)
    plan := planAt cfg M.layers sess.segEnd (cfg.splitsOf st.pos) }, ?_, ?_, hexact⟩
  · simp only [GraphSession.replayed, hrep, htok]
  · refine ⟨hsame, hroom, h.bucket, ⟨_, rfl, rfl⟩, fun t hlo hhi => ?_⟩
    exact h.cls t (by simp only at hlo; omega) hhi

/-- **The step lemma** of a session. -/
theorem SessionAt.step {n : ℕ} {sess : GraphSession κ ρ η π}
    (h : SessionAt M cfg s0 maxNew maxCtx n sess) (hr : Ready M s0) (hn : n < maxNew) (hw : w ≤ 2)
    (hfit : s0.pos + maxNew + 2 ≤ maxCtx) :
    ∃ sess', sess.step M cfg w = .ok ((eagerStep M cfg (eagerDecode M cfg s0 n).2).1, sess') ∧
      SessionAt M cfg s0 maxNew maxCtx (n + 1) sess' ∧
      FaExact cfg sess'.graph sess'.plan sess'.st.pos := by
  have hpos := h.pos
  have hbudget : ¬ sess.bucketMax ≤ sess.st.pos + 1 := by
    rw [h.bucket]
    omega
  rw [GraphSession.step, if_neg hbudget]
  by_cases hseg : sess.segEnd < sess.st.pos + 1
  · obtain ⟨b, st, hcap, hsame, hroom, hst, -, hlo, -, hcls⟩ :=
      graphCaptureSegment_spec cfg w sess.bucketMax h.same
        (hr.eagerDecode cfg n) (by omega) h.room (by omega)
    have hat : SessionAt M cfg s0 maxNew maxCtx n
        { sess with
          st, graph := graphAt cfg M.layers b (cfg.splitsOf b)
          plan := planAt cfg M.layers b (cfg.splitsOf b), segEnd := b } :=
      ⟨hsame, hroom, h.bucket, ⟨_, rfl, rfl⟩, fun t h1 h2 => hcls t (hst ▸ h1) h2⟩
    obtain ⟨sess', hrep, hnext⟩ := hat.replayed hr hn hfit (by simp only [hst]; exact hlo)
    rw [if_pos hseg]
    simp only [GraphSession.recapture, hcap]
    exact ⟨sess', by rw [hrep], hnext⟩
  · obtain ⟨sess', hrep, hnext⟩ := h.replayed hr hn hfit (by omega)
    rw [if_neg hseg]
    exact ⟨sess', by rw [hrep], hnext⟩

/-- **The run lemma** of a session: its budget's steps are eager's. -/
theorem SessionAt.steps {sess : GraphSession κ ρ η π}
    (h : SessionAt M cfg s0 maxNew maxCtx 0 sess) (hr : Ready M s0) (hw : w ≤ 2)
    (hfit : s0.pos + maxNew + 2 ≤ maxCtx) {n : ℕ} (hn : n ≤ maxNew) :
    ∃ sess', sess.steps M cfg w n = .ok ((eagerDecode M cfg s0 n).1, sess') ∧
      SessionAt M cfg s0 maxNew maxCtx n sess' ∧
      (0 < n → FaExact cfg sess'.graph sess'.plan sess'.st.pos) := by
  induction n with
  | zero => exact ⟨sess, rfl, h, fun h0 => absurd h0 (Nat.lt_irrefl 0)⟩
  | succ n ih =>
    obtain ⟨mid, hrun, hmid, -⟩ := ih (by omega)
    obtain ⟨sess', hstep, hat, hexact⟩ := hmid.step hr hn hw hfit
    refine ⟨sess', ?_, hat, fun _ => hexact⟩
    simp only [GraphSession.steps, hrun, hstep]
    rfl

/-- Past its budget a session only errs. -/
theorem SessionAt.steps_past {sess : GraphSession κ ρ η π}
    (h : SessionAt M cfg s0 maxNew maxCtx 0 sess) (hr : Ready M s0) (hw : w ≤ 2)
    (hfit : s0.pos + maxNew + 2 ≤ maxCtx) (k : ℕ) :
    sess.steps M cfg w (maxNew + 1 + k) =
      .error "GraphSession: past bucket_max (generation budget exceeded)" := by
  induction k with
  | zero =>
    obtain ⟨last, hrun, hlast, -⟩ := h.steps hr hw hfit (Nat.le_refl maxNew)
    have hpast : last.bucketMax ≤ last.st.pos + 1 := by
      rw [hlast.bucket, hlast.pos]
    simp only [GraphSession.steps, hrun, GraphSession.step, if_pos hpast]
  | succ k ih =>
    rw [← Nat.add_assoc]
    simp only [GraphSession.steps, ih]

/-- The counters synced to a primed cache stand at its position. -/
theorem ready_sync {s : DcState κ ρ η π}
    (hs : ∀ il, M.layers[il]? = some .fullAttention → s.len il = s.pos) (first : Tok) :
    Ready M (s.sync first) := by
  refine ⟨rfl, fun j hj => ?_⟩
  rw [Nat.zero_add]
  exact ⟨hs j hj, hs j hj⟩

theorem graphSessionFromCache_spec (cfg : FaCfg) {s : DcState κ ρ η π}
    (hs : ∀ il, M.layers[il]? = some .fullAttention → s.len il = s.pos) (first : Tok) (hw : w ≤ 2)
    (hfit : s.pos + maxNew + 2 ≤ maxCtx) (hroom : InRoom M maxCtx s) :
    ∃ sess, graphSessionFromCache M cfg w s first maxNew = .ok (sess, first) ∧
      SessionAt M cfg (s.sync first) maxNew maxCtx 0 sess := by
  have hr := ready_sync hs first
  obtain ⟨b, st, hcap, hsame, hroom', hst, htok, hlo, -, hcls⟩ :=
    graphCaptureSegment_spec cfg w (s.pos + maxNew + 1) (s := s.sync first) (e := s.sync first)
      ⟨.refl _, rfl, rfl⟩ hr
      (show s.pos + 1 ≤ s.pos + maxNew + 1 by omega) hroom (show s.pos + w ≤ maxCtx by omega)
  refine ⟨{
    st, graph := graphAt cfg M.layers b (cfg.splitsOf b)
    plan := planAt cfg M.layers b (cfg.splitsOf b)
    bucketMax := s.pos + maxNew + 1, segEnd := b }, ?_, hsame, hroom', rfl, ⟨_, rfl, rfl⟩,
    fun t h1 h2 => hcls t (hst ▸ h1) h2⟩
  simp only [graphSessionFromCache, hcap, htok]
  rfl

end

/-! ## The replay loop -/

section

variable {κ ρ η π : Type} (M : DcModel κ ρ η π) (cfg : FaCfg) {w maxNew maxCtx : ℕ}
  {s0 : DcState κ ρ η π} {emit : Emit}

/-- After `n` steps the loop has eager's state and has handed eager's tokens to `emit`. -/
structure LoopRows (s0 : DcState κ ρ η π) (maxCtx n : ℕ) (s : LoopState κ ρ η π) : Prop where
  same : SameState s.st (eagerDecode M cfg s0 n).2
  room : InRoom M maxCtx s.st
  out : s.out = s0.dev.tokenD :: (eagerDecode M cfg s0 n).1
  count : s.launched.length = n
  exact : ∀ k graph plan, s.launched[k]? = some (graph, plan) →
    FaExact cfg graph plan (s0.pos + k + 1)

/-- The loop returned after `n` steps: `emit` stopped it there and not before, or the budget is
spent. -/
structure LoopEnd (s0 : DcState κ ρ η π) (emit : Emit) (maxNew n : ℕ) (s : LoopState κ ρ η π) :
    Prop where
  before : ∀ k < n, emit (s0.dev.tokenD :: (eagerDecode M cfg s0 k).1) = none
  ret : (∃ why, emit s.out = some why ∧ s.ret = some (.ok why)) ∨
    (emit s.out = none ∧ maxNew ≤ n + 1 ∧ s.ret = some (.ok .maxNew))
  budget : n + 1 ≤ max maxNew 1

/-- The loop goes on after `n` steps. -/
structure LoopAt (s0 : DcState κ ρ η π) (emit : Emit) (maxNew maxCtx n : ℕ)
    (s : LoopState κ ρ η π) : Prop where
  rows : LoopRows M cfg s0 maxCtx n s
  done : s.done = n + 1
  budget : n + 1 ≤ max maxNew 1
  ret : s.ret = none
  silent : ∀ k ≤ n, emit (s0.dev.tokenD :: (eagerDecode M cfg s0 k).1) = none

/-- In the inner loop the graph is one for the stretch ahead. -/
structure InSegment (s : LoopState κ ρ η π) : Prop where
  tuned : ∃ cur, s.graph = graphAt cfg M.layers s.segEnd cur ∧
    s.plan = planAt cfg M.layers s.segEnd cur
  cls : ∀ t, s.st.pos + 1 ≤ t → t ≤ s.segEnd → cfg.faClassOf t = cfg.faClassOf s.segEnd

variable {M cfg}

theorem LoopAt.pos {n : ℕ} {s : LoopState κ ρ η π}
    (h : LoopAt M cfg s0 emit maxNew maxCtx n s) : s.st.pos = s0.pos + n := by
  rw [h.rows.same.pos, eagerDecode_pos]

/-- A pass of the inner loop that replays. -/
theorem replayPass_spec {n : ℕ} {s : LoopState κ ρ η π}
    (h : LoopAt M cfg s0 emit maxNew maxCtx n s) (hin : InSegment M cfg s) (hr : Ready M s0)
    (hfit : s0.pos + maxNew + 2 ≤ maxCtx) (hgo : s.done < maxNew ∧ s.st.pos + 1 ≤ s.segEnd) :
    (∃ u, replayPass M cfg emit maxNew s = .again u ∧
        LoopAt M cfg s0 emit maxNew maxCtx (n + 1) u ∧ InSegment M cfg u) ∨
      ∃ u, replayPass M cfg emit maxNew s = .leave u ∧ u.ret.isSome ∧
        LoopRows M cfg s0 maxCtx (n + 1) u ∧ LoopEnd M cfg s0 emit maxNew (n + 1) u := by
  obtain ⟨cur, hgraph, hplan⟩ := hin.tuned
  have hpos := h.pos
  have hdone := h.done
  have hcls := hin.cls (s.st.pos + 1) (Nat.le_refl _) hgo.2
  obtain ⟨st, hrep, hsame, hroom, hst, htok⟩ := replay_spec cfg s.segEnd cur h.rows.same
    (hr.eagerDecode cfg n) hcls hgo.2 h.rows.room (by omega)
  rw [← hgraph, ← hplan] at hrep
  have hexact := faExact_graphAt cfg M.layers hcls
  have hout : s.out ++ [st.dev.tokenD] =
      s0.dev.tokenD :: (eagerDecode M cfg s0 (n + 1)).1 := by
    rw [h.rows.out, htok]
    rfl
  have hrows : ∀ u : LoopState κ ρ η π, u.st = st → u.out = s.out ++ [st.dev.tokenD] →
      u.launched = s.launched ++ [(graphAt cfg M.layers s.segEnd (cfg.splitsOf (s.st.pos + 1)),
        planAt cfg M.layers s.segEnd (cfg.splitsOf (s.st.pos + 1)))] →
      LoopRows M cfg s0 maxCtx (n + 1) u := by
    intro u h1 h2 h3
    refine ⟨h1 ▸ hsame, h1 ▸ hroom, h2 ▸ hout, by simp [h3, h.rows.count],
      fun k graph plan hk => ?_⟩
    rw [h3, List.getElem?_append] at hk
    split at hk
    · exact h.rows.exact k graph plan hk
    · rename_i hlt
      have hk0 : k - s.launched.length = 0 := by
        have := (List.getElem?_eq_some_iff.1 hk).1
        simpa using this
      rw [hk0] at hk
      obtain ⟨rfl, rfl⟩ := Prod.mk.inj (Option.some.inj hk)
      have hcount := h.rows.count
      rw [show s0.pos + k + 1 = s.st.pos + 1 by omega]
      exact hexact
  have hsilent := h.silent
  simp only [replayPass, if_pos hgo, hrep]
  cases hemit : emit (s.out ++ [st.dev.tokenD]) with
  | some why =>
    refine .inr ⟨_, rfl, rfl, hrows _ rfl rfl rfl, fun k hk => hsilent k (by omega),
      .inl ⟨why, hemit, rfl⟩, by omega⟩
  | none =>
    refine .inl ⟨_, rfl, ⟨hrows _ rfl rfl rfl, by simp only; omega, by omega, h.ret,
      fun k hk => ?_⟩, ⟨_, rfl, rfl⟩, fun t hlo hhi => hin.cls t (by simp only at hlo; omega) hhi⟩
    by_cases hkn : k = n + 1
    · rw [hkn, ← hout]
      exact hemit
    · exact hsilent k (by omega)

/-- **The inner loop** replays up to the segment's end at least, unless it returns. -/
theorem replayLoop_spec {n : ℕ} {s : LoopState κ ρ η π}
    (h : LoopAt M cfg s0 emit maxNew maxCtx n s) (hin : InSegment M cfg s) (hr : Ready M s0)
    (hfit : s0.pos + maxNew + 2 ≤ maxCtx) (hgo : s.done < maxNew) (hseg : s.st.pos + 1 ≤ s.segEnd) :
    ∃ r, Loop.run (replayPass M cfg emit maxNew) (maxNew + 1) s = some r ∧
      ((∃ m, n < m ∧ LoopAt M cfg s0 emit maxNew maxCtx m r) ∨
        ∃ m, r.ret.isSome ∧ LoopRows M cfg s0 maxCtx m r ∧ LoopEnd M cfg s0 emit maxNew m r) := by
  -- the state is the loop's own, and before the first replay there is one to make
  let Inv : LoopState κ ρ η π → Prop := fun t =>
    ∃ m, n ≤ m ∧ LoopAt M cfg s0 emit maxNew maxCtx m t ∧ InSegment M cfg t ∧
      (m = n → t.done < maxNew ∧ t.st.pos + 1 ≤ t.segEnd)
  have hinv : ∀ t, Loop.Reaches (replayPass M cfg emit maxNew) s t → Inv t := by
    intro t ht
    refine ht.invariant Inv ⟨n, Nat.le_refl n, h, hin, fun _ => ⟨hgo, hseg⟩⟩ ?_
    intro t u _ ⟨m, hm, hat, hint, _⟩ hb
    by_cases hpass : t.done < maxNew ∧ t.st.pos + 1 ≤ t.segEnd
    · rcases replayPass_spec hat hint hr hfit hpass with ⟨v, hv, hv1, hv2⟩ | ⟨v, hv, -⟩
      · rw [hv] at hb
        obtain rfl := Flow.again.inj hb
        exact ⟨m + 1, by omega, hv1, hv2, fun he => by omega⟩
      · rw [hv] at hb
        cases hb
    · rw [replayPass, if_neg hpass] at hb
      cases hb
  apply Loop.run_spec (fun t => maxNew - t.done)
  · intro t u ht hb
    obtain ⟨m, -, hat, hint, -⟩ := hinv t ht
    by_cases hpass : t.done < maxNew ∧ t.st.pos + 1 ≤ t.segEnd
    · rcases replayPass_spec hat hint hr hfit hpass with ⟨v, hv, hv1, -⟩ | ⟨v, hv, -⟩
      · rw [hv] at hb
        obtain rfl := Flow.again.inj hb
        have hd := hat.done
        have hd' := hv1.done
        omega
      · rw [hv] at hb
        cases hb
    · rw [replayPass, if_neg hpass] at hb
      cases hb
  · intro t u ht hb
    obtain ⟨m, hm, hat, hint, hfirst⟩ := hinv t ht
    by_cases hpass : t.done < maxNew ∧ t.st.pos + 1 ≤ t.segEnd
    · rcases replayPass_spec hat hint hr hfit hpass with ⟨v, hv, -⟩ | ⟨v, hv, hv1, hv2⟩
      · rw [hv] at hb
        cases hb
      · rw [hv] at hb
        obtain rfl := Flow.leave.inj hb
        exact .inr ⟨m + 1, hv1, hv2⟩
    · have hne : m ≠ n := fun he => hpass (hfirst he)
      rw [replayPass, if_neg hpass] at hb
      obtain rfl := Flow.leave.inj hb
      exact .inl ⟨m, by omega, hat⟩
  · omega

/-- A pass of the outer loop. -/
theorem segmentPass_spec {n : ℕ} {s : LoopState κ ρ η π}
    (h : LoopAt M cfg s0 emit maxNew maxCtx n s) (hr : Ready M s0) (hw : w ≤ 2)
    (hfit : s0.pos + maxNew + 2 ≤ maxCtx) :
    (∃ u m, segmentPass M cfg w emit maxNew (s0.pos + maxNew + 1) s = .again u ∧ n < m ∧
        LoopAt M cfg s0 emit maxNew maxCtx m u) ∨
      ∃ u m, segmentPass M cfg w emit maxNew (s0.pos + maxNew + 1) s = .leave u ∧
        LoopRows M cfg s0 maxCtx m u ∧ LoopEnd M cfg s0 emit maxNew m u := by
  have hpos := h.pos
  have hdone := h.done
  by_cases hgo : s.done < maxNew
  · obtain ⟨b, st, hcap, hsame, hroom, hst, -, hlo, -, hcls⟩ :=
      graphCaptureSegment_spec cfg w (s0.pos + maxNew + 1) h.rows.same
        (hr.eagerDecode cfg n) (by omega) h.rows.room (by omega)
    have hat : LoopAt M cfg s0 emit maxNew maxCtx n
        { s with
          st, graph := graphAt cfg M.layers b (cfg.splitsOf b)
          plan := planAt cfg M.layers b (cfg.splitsOf b), segEnd := b } :=
      ⟨⟨hsame, hroom, h.rows.out, h.rows.count, h.rows.exact⟩, h.done, h.budget, h.ret, h.silent⟩
    obtain ⟨r, hrun, hr'⟩ := replayLoop_spec hat
      ⟨⟨_, rfl, rfl⟩, fun t h1 h2 => hcls t (hst ▸ h1) h2⟩ hr hfit hgo
      (show st.pos + 1 ≤ b by omega)
    simp only [segmentPass, if_pos hgo, hcap, hrun]
    rcases hr' with ⟨m, hm, hrat⟩ | ⟨m, hret, hrows, hend⟩
    · refine .inl ⟨r, m, ?_, hm, hrat⟩
      simp [hrat.ret]
    · refine .inr ⟨r, m, ?_, hrows, hend⟩
      simp [hret]
  · have hout := h.rows.out
    have hlast := h.silent n (Nat.le_refl n)
    rw [segmentPass, if_neg hgo]
    refine .inr ⟨_, n, rfl, ⟨h.rows.same, h.rows.room, hout, h.rows.count, h.rows.exact⟩,
      fun k hk => h.silent k (by omega), .inr ⟨by rw [← hout] at hlast; exact hlast, by omega, rfl⟩,
      h.budget⟩

/-- **The run lemma** of `graph_decode_loop`. -/
theorem graphDecodeLoop_spec (hr : Ready M s0) (hw : w ≤ 2)
    (hfit : s0.pos + maxNew + 2 ≤ maxCtx) (hroom : InRoom M maxCtx s0) (emit : Emit) :
    ∃ r n, graphDecodeLoop M cfg w emit maxNew s0 = some r ∧ LoopRows M cfg s0 maxCtx n r ∧
      LoopEnd M cfg s0 emit maxNew n r := by
  cases hfirst : emit [s0.dev.tokenD] with
  | some why =>
    refine ⟨{ st := s0, out := [s0.dev.tokenD], done := 0, ret := some (.ok why) }, 0,
      by simp only [graphDecodeLoop, hfirst],
      ⟨⟨.refl _, rfl, rfl⟩, hroom, rfl, rfl, fun k graph plan hk => ?_⟩,
      fun k hk => absurd hk (Nat.not_lt_zero k), .inl ⟨why, hfirst, rfl⟩, by omega⟩
    simp at hk
  | none =>
    have hstart : LoopAt M cfg s0 emit maxNew maxCtx 0
        { st := s0, out := [s0.dev.tokenD], done := 1 } := by
      refine ⟨⟨⟨.refl _, rfl, rfl⟩, hroom, rfl, rfl, fun k graph plan hk => ?_⟩, rfl, by omega, rfl,
        fun k hk => ?_⟩
      · simp at hk
      · obtain rfl := Nat.le_zero.1 hk
        exact hfirst
    simp only [graphDecodeLoop, hfirst]
    generalize hs : ({ st := s0, out := [s0.dev.tokenD], done := 1 } : LoopState κ ρ η π) = start
      at hstart
    have hinv : ∀ t, Loop.Reaches (segmentPass M cfg w emit maxNew (s0.pos + maxNew + 1)) start t →
        ∃ n, LoopAt M cfg s0 emit maxNew maxCtx n t := by
      intro t ht
      refine ht.invariant (fun t => ∃ n, LoopAt M cfg s0 emit maxNew maxCtx n t) ⟨0, hstart⟩ ?_
      intro t u _ ⟨n, hat⟩ hb
      rcases segmentPass_spec hat hr hw hfit with ⟨v, m, hv, -, hv1⟩ | ⟨v, m, hv, -⟩
      · rw [hv] at hb
        obtain rfl := Flow.again.inj hb
        exact ⟨m, hv1⟩
      · rw [hv] at hb
        cases hb
    have hrun : ∃ r, Loop.run (segmentPass M cfg w emit maxNew (s0.pos + maxNew + 1)) (maxNew + 1)
        start = some r ∧
        ∃ n, LoopRows M cfg s0 maxCtx n r ∧ LoopEnd M cfg s0 emit maxNew n r := by
      apply Loop.run_spec (fun t => maxNew - t.done)
      · intro t u ht hb
        obtain ⟨n, hat⟩ := hinv t ht
        rcases segmentPass_spec hat hr hw hfit with ⟨v, m, hv, hm, hv1⟩ | ⟨v, m, hv, -⟩
        · rw [hv] at hb
          obtain rfl := Flow.again.inj hb
          have hd := hat.done
          have hd' := hv1.done
          have hbud := hv1.budget
          omega
        · rw [hv] at hb
          cases hb
      · intro t u ht hb
        obtain ⟨n, hat⟩ := hinv t ht
        rcases segmentPass_spec hat hr hw hfit with ⟨v, m, hv, -⟩ | ⟨v, m, hv, hv1⟩
        · rw [hv] at hb
          cases hb
        · rw [hv] at hb
          obtain rfl := Flow.leave.inj hb
          exact ⟨m, hv1⟩
      · omega
    obtain ⟨r, hrun, n, hpost⟩ := hrun
    exact ⟨r, n, hrun, hpost⟩

end

/-! ## The result -/

section

variable {κ ρ η π : Type} {M : DcModel κ ρ η π} {w maxNew maxCtx : ℕ}

/-- **Graph replay is eager decoding.** From a primed cache with room, after every number of steps of its
budget the session has returned eager's tokens and has eager's state, past it every step errs, and each
graph launched ran eager's class over eager's split count, every main paired with its own combine. The
replay loop hands the same tokens to `emit` until that stops it or the budget is spent. -/
theorem graphReplay_eager (cfg : FaCfg) (hw : w ≤ 2) (s : DcState κ ρ η π)
    (hprimed : ∀ il, M.layers[il]? = some .fullAttention → s.len il = s.pos) (first : Tok)
    (hfit : s.pos + maxNew + 2 ≤ maxCtx) (hroom : InRoom M maxCtx s) :
    (∃ sess, graphSessionFromCache M cfg w s first maxNew = .ok (sess, first) ∧
      (∀ n ≤ maxNew, ∃ sess',
        sess.steps M cfg w n = .ok ((eagerDecode M cfg (s.sync first) n).1, sess') ∧
        SameState sess'.st (eagerDecode M cfg (s.sync first) n).2 ∧ InRoom M maxCtx sess'.st ∧
        (0 < n → FaExact cfg sess'.graph sess'.plan sess'.st.pos)) ∧
      ∀ k, sess.steps M cfg w (maxNew + 1 + k) =
        .error "GraphSession: past bucket_max (generation budget exceeded)") ∧
    ∀ emit, ∃ r n, graphDecodeLoop M cfg w emit maxNew (s.sync first) = some r ∧
      LoopRows M cfg (s.sync first) maxCtx n r ∧
      LoopEnd M cfg (s.sync first) emit maxNew n r := by
  have hr := ready_sync hprimed first
  obtain ⟨sess, hsess, hat⟩ := graphSessionFromCache_spec cfg hprimed first hw hfit hroom
  refine ⟨⟨sess, hsess, fun n hn => ?_, hat.steps_past hr hw hfit⟩,
    graphDecodeLoop_spec hr hw hfit hroom⟩
  obtain ⟨sess', hrun, hat', hexact⟩ := hat.steps hr hw hfit hn
  exact ⟨sess', hrun, hat'.same, hat'.room, hexact⟩

end

/-- Two attention layers around a recurrent one. -/
def threeLayers : DcModel ℕ ℕ ℕ ℕ where
  layers := [.fullAttention, .linearAttention, .fullAttention]
  embed := fun tok => tok
  kvRow := fun il pos x => il + pos + x
  faMain := fun _ _ pos parts grid ns view x => pos + parts * grid + ns + view.sum + x
  faCombine := fun il ns part x => il + ns * part + x
  linear := fun il st x => (st + x, il + st)
  pick := fun x => x % 7

/-- A vec floor at four and a rung at five; the partials of all layers share an address. -/
def twoRungs : FaCfg where
  vec := fun t => decide (4 ≤ t)
  v4 := fun _ => true
  fa512 := fun _ => false
  splitKeys := fun t _ => if t ≤ 5 then 2 else 4
  scalarKeys := fun _ => 256
  nHead := 4
  nHeadKv := 2
  partO := fun _ _ => 0

/-- A cache primed with two tokens. -/
def primedTwo : DcState ℕ ℕ ℕ ℕ where
  dev :=
    { kv := fun _ => { rows := fun i => i, lenD := 2, high := 2 }
      recur := fun _ => 3, posD := 2, tokenD := 0, x := 0, part := fun _ => 0 }
  pos := 2
  len := fun _ => 2

theorem graphReplay_eager_twoRungs :
    ∃ sess sess', graphSessionFromCache threeLayers twoRungs 2 primedTwo 1 5 = .ok (sess, 1) ∧
      sess.steps threeLayers twoRungs 2 5 =
        .ok ((eagerDecode threeLayers twoRungs (primedTwo.sync 1) 5).1, sess') := by
  obtain ⟨⟨sess, hsess, hsteps, -⟩, -⟩ :=
    graphReplay_eager (M := threeLayers) twoRungs (Nat.le_refl 2) primedTwo (fun _ _ => rfl) 1
      (show 2 + 5 + 2 ≤ 9 by decide) (fun _ _ => show 2 ≤ 9 by decide)
  obtain ⟨sess', hrun, -⟩ := hsteps 5 (Nat.le_refl 5)
  exact ⟨sess, sess', hsess, hrun⟩

end Memra.DecodeGraph
