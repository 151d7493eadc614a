import Memra.Engine.Pp

/-!
# The stage of a layer

A fence that `ppCuts` gives is strictly increasing from zero to the number of layers (`Fence`), so a layer
has one stage, and `stageOf`, the pick of the KV cache and the walk of the decode step all find it
(`Fence.stageOf_spec`, `Fence.walkStages_spec`).
-/

namespace Memra

namespace Pp

/-! ## The fence -/

/-- The stages of `n` layers. -/
structure Fence (fence : List ℕ) (n : ℕ) : Prop where
  inner : fence = 0 :: innerCuts fence ++ [n]
  sorted : fence.Pairwise (· < ·)

theorem pairwise_of_increasing : ∀ {fence : List ℕ}, increasing fence = true → fence.Pairwise (· < ·)
  | [], _ => .nil
  | [a], _ => List.pairwise_singleton _ a
  | a :: b :: rest, h => by
    simp only [increasing, List.tail_cons, List.zip_cons_cons, List.all_cons, Bool.and_eq_true,
      decide_eq_true_eq] at h
    obtain ⟨hab, hrest⟩ := h
    have ih : (b :: rest).Pairwise (· < ·) := pairwise_of_increasing hrest
    refine List.pairwise_cons.2 ⟨fun c hc => ?_, ih⟩
    rcases List.mem_cons.1 hc with rfl | hc
    · exact hab
    · exact hab.trans ((List.pairwise_cons.1 ih).1 c hc)

theorem cuts_length {env : PpEnv} {nLayers nSt : ℕ} {cs : List ℕ}
    (h : cuts env nLayers nSt = some cs) : cs.length = nSt - 1 := by
  unfold cuts at h
  split at h
  · obtain ⟨cs', -, h⟩ := Option.bind_eq_some_iff.1 h
    split at h
    · next hl =>
      obtain rfl := Option.some.inj h
      exact hl
    · cases h
  · split at h
    · cases h
    · obtain ⟨c, -, h⟩ := Option.bind_eq_some_iff.1 h
      obtain rfl := Option.some.inj h
      simp only [List.length_singleton]
      omega
  · obtain rfl := Option.some.inj h
    simp

theorem innerCuts_eq (cs : List ℕ) (n : ℕ) : innerCuts (0 :: cs ++ [n]) = cs := by
  simp [innerCuts]

theorem ppCuts_spec {env : PpEnv} {n : ℕ} {fence : List ℕ} (h : ppCuts env n = some fence) :
    Fence fence n ∧ 3 ≤ fence.length ∧ env.stageCount = some (fence.length - 1) := by
  obtain ⟨v, hv, h⟩ := Option.bind_eq_some_iff.1 h
  split at h
  · cases h
  obtain ⟨nSt, hst, h⟩ := Option.bind_eq_some_iff.1 h
  split at h
  · cases h
  next hge =>
  obtain ⟨cs, hcs, h⟩ := Option.bind_eq_some_iff.1 h
  have hlen := cuts_length hcs
  dsimp only at h
  split at h
  · next hinc =>
    obtain rfl := Option.some.inj h
    refine ⟨⟨by rw [innerCuts_eq], pairwise_of_increasing hinc⟩, by simp; omega, ?_⟩
    have : (0 :: cs ++ [n]).length - 1 = nSt := by simp; omega
    rw [this]
    simp only [PpEnv.stageCount, hv, Option.bind_some, hst]
    simp only [Option.filter_some, decide_eq_true_eq]
    exact if_pos (by omega)
  · cases h

namespace Fence

variable {fence : List ℕ} {n il s : ℕ}

theorem length_eq (h : Fence fence n) : fence.length = (innerCuts fence).length + 2 := by
  conv_lhs => rw [h.inner]
  simp

theorem inner_sorted (h : Fence fence n) : (innerCuts fence).Pairwise (· < ·) := by
  have := h.sorted
  rw [h.inner, List.cons_append, List.pairwise_cons, List.pairwise_append] at this
  exact this.2.1

theorem head (h : Fence fence n) : fence[0]? = some 0 := by
  rw [h.inner]
  rfl

theorem last (h : Fence fence n) : fence[fence.length - 1]? = some n := by
  have hin := h.inner
  generalize innerCuts fence = cs at hin
  subst hin
  simp

theorem getElem?_succ (h : Fence fence n) (hs : s < (innerCuts fence).length) :
    fence[s + 1]? = (innerCuts fence)[s]? := by
  conv_lhs => rw [h.inner]
  rw [List.cons_append, List.getElem?_cons_succ, List.getElem?_append_left hs]

/-- Stage `s` runs layer `il`. -/
def Runs (fence : List ℕ) (s il : ℕ) : Prop :=
  ∃ lo hi, fence[s]? = some lo ∧ fence[s + 1]? = some hi ∧ lo ≤ il ∧ il < hi

theorem stageOf_spec (h : Fence fence n) (hil : il < n) : Runs fence (stageOf fence il) il := by
  have hsplit : Lib.Splits (innerCuts fence) il (stageOf fence il) := Lib.upperBound_spec h.inner_sorted
  generalize stageOf fence il = s at hsplit
  have hlo : ∃ lo, fence[s]? = some lo ∧ lo ≤ il := by
    cases s with
    | zero => exact ⟨0, h.head, Nat.zero_le _⟩
    | succ s =>
      have hs : s < (innerCuts fence).length := hsplit.le_length
      have hget := List.getElem?_eq_getElem hs
      exact ⟨_, (h.getElem?_succ hs).trans hget, hsplit.below s _ (Nat.lt_succ_self s) hget⟩
  have hhi : ∃ hi, fence[s + 1]? = some hi ∧ il < hi := by
    rcases Nat.lt_or_eq_of_le hsplit.le_length with hs | rfl
    · have hget := List.getElem?_eq_getElem hs
      exact ⟨_, (h.getElem?_succ hs).trans hget, hsplit.above s _ (Nat.le_refl s) hget⟩
    · have hlast := h.last
      rw [h.length_eq] at hlast
      exact ⟨n, hlast, hil⟩
  obtain ⟨lo, hlo, hle⟩ := hlo
  obtain ⟨hi, hhi, hlt⟩ := hhi
  exact ⟨lo, hi, hlo, hhi, hle, hlt⟩

theorem runs_unique (h : Fence fence n) {t : ℕ} (hs : Runs fence s il) (ht : Runs fence t il) :
    s = t := by
  have key : ∀ {s t : ℕ}, Runs fence s il → Runs fence t il → ¬ s < t := by
    rintro s t ⟨_, hi, -, hhi, -, hlt⟩ ⟨lo, _, hlo, -, hle, -⟩ hst
    have : hi ≤ lo := by
      rcases Nat.lt_or_eq_of_le (Nat.succ_le_of_lt hst) with hst | rfl
      · exact (Lib.getElem?_lt_of_lt h.sorted hst hhi hlo).le
      · exact (Option.some.inj (hhi.symm.trans hlo)).le
    omega
  have h1 := key hs ht
  have h2 := key ht hs
  omega

/-- A layer past the trunk has the last stage. -/
theorem stageOf_past (h : Fence fence n) (hil : n ≤ il) : stageOf fence il = fence.length - 2 := by
  have hsplit : Lib.Splits (innerCuts fence) il (stageOf fence il) := Lib.upperBound_spec h.inner_sorted
  rw [h.length_eq]
  rcases Nat.lt_or_eq_of_le hsplit.le_length with hs | hs
  · have hget := List.getElem?_eq_getElem hs
    have hlast := h.last
    rw [h.length_eq] at hlast
    have := Lib.getElem?_lt_of_lt h.sorted (Nat.succ_lt_succ hs) ((h.getElem?_succ hs).trans hget) hlast
    have := hsplit.above _ _ (Nat.le_refl _) hget
    omega
  · omega

theorem stageOf_lt (h : Fence fence n) (il : ℕ) : stageOf fence il < fence.length - 1 := by
  have hsplit : Lib.Splits (innerCuts fence) il (stageOf fence il) := Lib.upperBound_spec h.inner_sorted
  have := hsplit.le_length
  have := h.length_eq
  omega

/-- The loader asks for the last trunk layer in the place of one past the trunk. -/
theorem stageOf_min (h : Fence fence n) (hlen : 3 ≤ fence.length) :
    stageOf fence (min il (n - 1)) = stageOf fence il := by
  rcases Nat.lt_or_ge il n with hil | hil
  · rw [Nat.min_eq_left (by omega)]
  · obtain ⟨lo, hlo⟩ : ∃ lo, fence[fence.length - 2]? = some lo :=
      ⟨_, List.getElem?_eq_getElem (by omega)⟩
    have hlast : fence[fence.length - 2 + 1]? = some n := by
      rw [show fence.length - 2 + 1 = fence.length - 1 by omega]
      exact h.last
    have hlt := Lib.getElem?_lt_of_lt h.sorted (Nat.lt_succ_self _) hlo hlast
    rw [Nat.min_eq_right (by omega), h.stageOf_past hil]
    exact h.runs_unique (h.stageOf_spec (by omega)) ⟨lo, n, hlo, hlast, by omega, by omega⟩

/-! ## The walk -/

theorem walk_range (h : Fence fence n) {engine : ℕ → Option PpEngine}
    (heng : ∀ s < fence.length - 1, ∃ e, engine s = some e) : ∀ m ≤ fence.length - 1,
    ∃ ws hi, (List.range m).mapM (fun s => do
        some (layersEager (← engine s) (← fence[s]?) (← fence[s + 1]?))) = some ws ∧
      fence[m]? = some hi ∧ ws.flatten.map Prod.fst = List.range hi ∧
      ∀ w ∈ ws.flatten, ∃ s, Runs fence s w.1 ∧ engine s = some w.2 := by
  intro m
  induction m with
  | zero => exact fun _ => ⟨[], 0, rfl, h.head, rfl, by simp⟩
  | succ m ih =>
    intro hm
    obtain ⟨ws, lo, hws, hlo, hfst, hall⟩ := ih (by omega)
    obtain ⟨e, he⟩ := heng m (by omega)
    obtain ⟨hi, hhi⟩ : ∃ hi, fence[m + 1]? = some hi := ⟨_, List.getElem?_eq_getElem (by omega)⟩
    have hlt : lo < hi := Lib.getElem?_lt_of_lt h.sorted (Nat.lt_succ_self m) hlo hhi
    refine ⟨ws ++ [layersEager e lo hi], hi, ?_, hhi, ?_, fun w hw => ?_⟩
    · rw [List.range_succ, List.mapM_append, hws]
      simp [he, hlo, hhi]
    · have hmap : (layersEager e lo hi).map Prod.fst = List.range' lo (hi - lo) := by
        simp [layersEager, Function.comp_def]
      rw [List.flatten_append, List.map_append, hfst, List.flatten_singleton, hmap,
        List.range_eq_range', List.range_eq_range']
      have happ := List.range'_append_1 (s := 0) (m := lo) (n := hi - lo)
      rwa [Nat.zero_add, Nat.add_sub_cancel' hlt.le] at happ
    · rw [List.flatten_append, List.flatten_singleton, List.mem_append] at hw
      rcases hw with hw | hw
      · exact hall w hw
      · obtain ⟨il, hil, rfl⟩ := List.mem_map.1 hw
        obtain ⟨h1, h2⟩ := List.mem_range'_1.1 hil
        exact ⟨m, ⟨lo, hi, hlo, hhi, h1, by omega⟩, he⟩

/-- **The walk comes to every layer of the trunk once, in order, with the engine of its stage.** -/
theorem walkStages_spec (h : Fence fence n) {engine : ℕ → Option PpEngine}
    (heng : ∀ s < fence.length - 1, ∃ e, engine s = some e) :
    ∃ walk, walkStages engine fence = some walk ∧ walk.map Prod.fst = List.range n ∧
      ∀ w ∈ walk, engine (stageOf fence w.1) = some w.2 := by
  obtain ⟨ws, hi, hws, hhi, hfst, hall⟩ := h.walk_range heng _ (Nat.le_refl _)
  obtain rfl := Option.some.inj (h.last.symm.trans hhi)
  refine ⟨ws.flatten, by simp only [walkStages, hws]; rfl, hfst, fun w hw => ?_⟩
  obtain ⟨s, hruns, he⟩ := hall w hw
  have hil : w.1 < n := by
    have : w.1 ∈ ws.flatten.map Prod.fst := List.mem_map_of_mem hw
    rwa [hfst, List.mem_range] at this
  rwa [h.runs_unique (h.stageOf_spec hil) hruns]

end Fence

/-! ## The engines -/

theorem build_spec {env : PpEnv} {usable : List ℕ → Bool} {primaryDev : ℕ} {rt : PpNRt}
    (h : PpNRt.build env usable primaryDev = some rt) {n : ℕ} (hn : env.stageCount = some n) :
    rt.devices.length = n := by
  obtain ⟨devices, -, h⟩ := Option.bind_eq_some_iff.1 h
  split at h
  · cases h
  next hcount =>
  split at h
  · obtain rfl := Option.some.inj h
    rw [hn, Option.any_some, decide_eq_true_iff, not_not] at hcount
    exact hcount.symm
  · cases h

theorem PpNRt.engine_isSome {rt : PpNRt} {s : ℕ} (h : s < rt.devices.length) :
    ∃ e, rt.engine s = some e := by
  simp [PpNRt.engine, h]

theorem mapM_range_engine (rt : PpNRt) : ∀ m ≤ rt.devices.length,
    ∃ devs, (List.range m).mapM rt.engine = some devs ∧ devs.length = m ∧
      ∀ s < m, devs[s]? = rt.engine s := by
  intro m
  induction m with
  | zero => exact fun _ => ⟨[], rfl, rfl, by simp⟩
  | succ m ih =>
    intro hm
    obtain ⟨devs, hdevs, hlen, hall⟩ := ih (by omega)
    obtain ⟨e, he⟩ := rt.engine_isSome (show m < rt.devices.length by omega)
    refine ⟨devs ++ [e], ?_, by simp [hlen], fun s hs => ?_⟩
    · rw [List.range_succ, List.mapM_append, hdevs]
      simp [he]
    · rcases Nat.lt_succ_iff_lt_or_eq.1 hs with hs | rfl
      · rw [List.getElem?_append_left (by omega), hall s hs]
      · rw [he, ← hlen, List.getElem?_concat_length]

theorem newPpnPick_eq {devs : List PpEngine} {fence : List ℕ} {n il : ℕ} (hf : Fence fence n)
    (hlen : devs.length = fence.length - 1) : newPpnPick devs fence il = devs[stageOf fence il]? := by
  have h1 := hf.length_eq
  have h2 := hf.stageOf_lt il
  have hs : min (stageOf fence il) (devs.length - 1) = stageOf fence il := by omega
  unfold newPpnPick
  rw [if_pos (by omega)]
  exact congrArg (devs[·]?) hs

section
variable {env : PpEnv} {usable : List ℕ → Bool} {primaryDev nLayer nextn : ℕ} {fence : List ℕ}

theorem layerEngine_eq (hf : ppCuts env (nLayer - nextn) = some fence) {rt : PpNRt}
    (hrt : PpNRt.build env usable primaryDev = some rt) (hd : env.devicesEnv.isSome)
    (hs : env.streamsOff = false) (hshard : env.shardOff = false) (il : ℕ) :
    layerEngine env usable primaryDev (nLayer - nextn) il = rt.engine (stageOf fence il) := by
  obtain ⟨hfence, hlen, -⟩ := ppCuts_spec hf
  have hn : env.devicesEnv.isNone = false := by simpa using hd
  simp [layerEngine, hshard, hn, hs, hf, hrt, hfence.stageOf_min hlen]

theorem cacheEngine_eq (hf : ppCuts env (nLayer - nextn) = some fence) {rt : PpNRt}
    (hrt : PpNRt.build env usable primaryDev = some rt) (hd : env.devicesEnv.isSome)
    (hs : env.streamsOff = false) (il : ℕ) :
    cacheEngine env usable primaryDev nLayer nextn il = rt.engine (stageOf fence il) := by
  obtain ⟨hfence, hlen, hcount⟩ := ppCuts_spec hf
  have hdev := build_spec hrt hcount
  obtain ⟨devs, hdevs, hdlen, hget⟩ := mapM_range_engine rt _ hdev.ge
  simp only [cacheEngine, hf, hd, hs, Bool.not_false, Bool.and_self, if_true, hrt, hdev, hdevs,
    Option.bind_eq_bind, Option.bind_some]
  rw [newPpnPick_eq hfence hdlen, hget _ (hfence.stageOf_lt il)]

theorem decodeWalk_eq (hf : ppCuts env (nLayer - nextn) = some fence) {rt : PpNRt}
    (hrt : PpNRt.build env usable primaryDev = some rt) (hs : env.streamsOff = false) :
    ∃ walk, decodeWalk env usable primaryDev (nLayer - nextn) = some walk ∧
      walk.map Prod.fst = List.range (nLayer - nextn) ∧
      ∀ w ∈ walk, rt.engine (stageOf fence w.1) = some w.2 := by
  obtain ⟨hfence, hlen, hcount⟩ := ppCuts_spec hf
  have hdev := build_spec hrt hcount
  have heng : ∀ s < fence.length - 1, ∃ e, rt.engine s = some e :=
    fun s hlt => rt.engine_isSome (by omega)
  obtain ⟨walk, hwalk, hfst, hall⟩ := hfence.walkStages_spec heng
  refine ⟨walk, ?_, hfst, hall⟩
  simp [decodeWalk, hf, hs, hrt, hdev, hwalk]

/-- **Where a layer is placed.** -/
theorem stage_placement (env : PpEnv) (usable : List ℕ → Bool) (primaryDev nLayer nextn : ℕ)
    (fence : List ℕ) (hf : ppCuts env (nLayer - nextn) = some fence) :
    fence.Pairwise (· < ·) ∧ fence.head? = some 0 ∧ fence.getLast? = some (nLayer - nextn) ∧
    (∀ il < nLayer - nextn, Fence.Runs fence (stageOf fence il) il ∧
      ∀ s, Fence.Runs fence s il → s = stageOf fence il) ∧
    (∀ il, nLayer - nextn ≤ il → stageOf fence il = fence.length - 2) ∧
    (∀ rt, PpNRt.build env usable primaryDev = some rt → rt.devices.length = fence.length - 1 ∧
      (env.devicesEnv.isSome → env.streamsOff = false →
        (∀ il, cacheEngine env usable primaryDev nLayer nextn il = rt.engine (stageOf fence il)) ∧
        (env.shardOff = false → ∀ il,
          layerEngine env usable primaryDev (nLayer - nextn) il = rt.engine (stageOf fence il))) ∧
      (env.streamsOff = false → ∃ walk,
        decodeWalk env usable primaryDev (nLayer - nextn) = some walk ∧
        walk.map Prod.fst = List.range (nLayer - nextn) ∧
        ∀ w ∈ walk, rt.engine (stageOf fence w.1) = some w.2)) ∧
    (env.devicesEnv = none ∨ env.streamsOff → ∀ il,
      cacheEngine env usable primaryDev nLayer nextn il = some .primary) ∧
    (env.shardOff ∨ env.devicesEnv = none ∨ env.streamsOff → ∀ il,
      layerEngine env usable primaryDev (nLayer - nextn) il = some .primary) := by
  obtain ⟨hfence, hlen, hcount⟩ := ppCuts_spec hf
  refine ⟨hfence.sorted, by rw [List.head?_eq_getElem?, hfence.head],
    by rw [List.getLast?_eq_getElem?, hfence.last], fun il hil =>
      ⟨hfence.stageOf_spec hil, fun s hs => hfence.runs_unique hs (hfence.stageOf_spec hil)⟩,
    fun il hil => hfence.stageOf_past hil, fun rt hrt => ⟨build_spec hrt hcount, fun hd hs =>
      ⟨cacheEngine_eq hf hrt hd hs, layerEngine_eq hf hrt hd hs⟩, decodeWalk_eq hf hrt⟩, ?_, ?_⟩
  · rintro (h | h) il <;> simp [cacheEngine, hf, h]
  · rintro (h | h | h) il <;> simp [layerEngine, h]

end

/-- Two stages of one layer each, on two devices. -/
def twoStages (shard : Option (List Char)) : PpEnv :=
  { stages := some ['2'], devices := some ['0', ',', '1'], shard }

theorem stage_placement_two :
    Fence.Runs [0, 1, 2] (stageOf [0, 1, 2] 1) 1 ∧
    layerEngine (twoStages none) (fun _ => true) 0 2 1 = some (.stage 1) ∧
    cacheEngine (twoStages none) (fun _ => true) 0 2 0 1 = some (.stage 1) := by
  obtain ⟨-, -, -, hruns, -, hrt, -⟩ := stage_placement (twoStages none) (fun _ => true) 0 2 0
    [0, 1, 2] (by decide)
  obtain ⟨-, hplaced, -⟩ := hrt ⟨0, [0, 1]⟩ (by rfl)
  obtain ⟨hcache, hlayer⟩ := hplaced (by decide) (by decide)
  exact ⟨(hruns 1 (by decide)).1, hlayer (by decide) 1, hcache 1⟩

/-- With `MEMRA_PP_SHARD=0` the weights of a layer of stage 1 are on the primary engine. -/
theorem not_placed_without_shard :
    ppCuts (twoStages (some ['0'])) 2 = some [0, 1, 2] ∧ Fence.Runs [0, 1, 2] 1 1 ∧
    layerEngine (twoStages (some ['0'])) (fun _ => true) 0 2 1 = some .primary ∧
    cacheEngine (twoStages (some ['0'])) (fun _ => true) 0 2 0 1 = some (.stage 1) ∧
    ∃ walk, decodeWalk (twoStages (some ['0'])) (fun _ => true) 0 2 = some walk ∧
      (1, PpEngine.stage 1) ∈ walk :=
  ⟨by decide, ⟨1, 2, rfl, rfl, by decide, by decide⟩, by decide, by decide, _, rfl, by decide⟩

end Pp

end Memra
