import Memra.Engine.DraftGraph

/-!
# A launched draft graph matches its burst

`Inv` holds of every parked context: a graph has the buffers of the context baked in, the sampled one also
the key that the context remembers. The start of a burst keeps it, leaves no greedy graph of another mask
shape and no sampled graph of another key (`setup_spec`). What it does not look at is whether a parked
sampled graph may still be used where the burst has filters or penalties.
-/

namespace Memra

namespace DraftGraph

/-- What holds of a context between bursts. -/
structure Inv (dVocab : ℕ) (c : Ctx) : Prop where
  graph : ∀ g, c.graph = some g → g.mask = if c.graphMasked then some c.gDmask else none
  graphS : ∀ g, c.graphS = some g → c.sKey = some g.key ∧ g.q = c.gQ ∧ g.perturb = c.gPerturb ∧
    c.qSlots.length = g.key.2.2 ∧ dVocab ≤ c.gQ.len
  slots : c.graphS = none → c.qSlots = []

/-- The same of a session. -/
def Ok (dVocab : ℕ) (s : Session) : Prop := ∀ c, s.draftCtx = some c → Inv dVocab c

variable {dVocab : ℕ} {b : Burst} {c : Ctx} {t : ℕ}

/-! ## Step by step -/

theorem inv_new (dVocab top qlen : ℕ) : Inv dVocab (Ctx.new top qlen) :=
  ⟨fun g hg => (by cases hg), fun g hg => (by cases hg), fun _ => rfl⟩

theorem inv_take {s : Session} (h : Ok dVocab s) :
    Inv dVocab (take dVocab b s).1 := by
  unfold take
  split
  · rename_i c hc
    exact h c hc
  · exact inv_new _ _ _

/-- A sampled graph means that there is room for the logits. -/
theorem growQ_spec (h : Inv dVocab c) :
    Inv dVocab (growQ dVocab b c t).1 ∧
      (b.sampling.sampled = true → dVocab ≤ (growQ dVocab b c t).1.gQ.len) ∧
      (growQ dVocab b c t).1.graphS = c.graphS := by
  unfold growQ
  split
  · rename_i hgrow
    rw [Bool.and_eq_true, decide_eq_true_eq] at hgrow
    refine ⟨⟨h.graph, fun g hg => ?_, h.slots⟩, fun _ => le_refl _, rfl⟩
    exact absurd (h.graphS g hg).2.2.2.2 (not_le.2 hgrow.2)
  · rename_i hgrow
    refine ⟨h, fun hs => ?_, rfl⟩
    rw [hs, Bool.true_and, decide_eq_true_eq, not_lt] at hgrow
    exact hgrow

theorem growMask_spec (h : Inv dVocab c) :
    Inv dVocab (growMask dVocab b c t).1 ∧ (growMask dVocab b c t).1.gQ = c.gQ ∧
      (growMask dVocab b c t).1.graphS = c.graphS := by
  unfold growMask
  split
  · exact ⟨⟨fun g hg => (by cases hg), h.graphS, h.slots⟩, rfl, rfl⟩
  · exact ⟨h, rfl, rfl⟩

/-- No greedy graph of another shape is left. -/
theorem dropMasked_spec (h : Inv dVocab c) :
    Inv dVocab (dropMasked b c) ∧
      (∀ g, (dropMasked b c).graph = some g → (dropMasked b c).graphMasked = b.dmaskOn) ∧
      (dropMasked b c).gQ = c.gQ ∧ (dropMasked b c).graphS = c.graphS := by
  unfold dropMasked
  split
  · exact ⟨⟨fun g hg => (by cases hg), h.graphS, h.slots⟩, fun g hg => (by cases hg), rfl, rfl⟩
  · rename_i hdrop
    refine ⟨h, fun g hg => ?_, rfl, rfl⟩
    rw [hg] at hdrop
    simpa using hdrop

theorem captureGreedy_spec (h : Inv dVocab c)
    (hm : ∀ g, c.graph = some g → c.graphMasked = b.dmaskOn) :
    Inv dVocab (captureGreedy b c) ∧
      (∀ g, (captureGreedy b c).graph = some g → (captureGreedy b c).graphMasked = b.dmaskOn) ∧
      (captureGreedy b c).gQ = c.gQ ∧ (captureGreedy b c).graphS = c.graphS := by
  unfold captureGreedy
  split
  · split
    · refine ⟨⟨fun g hg => ?_, h.graphS, h.slots⟩, fun _ _ => rfl, rfl, rfl⟩
      rw [← Option.some.inj hg]
    · exact ⟨⟨h.graph, h.graphS, h.slots⟩, hm, rfl, rfl⟩
  · exact ⟨h, hm, rfl, rfl⟩

/-- No sampled graph of another key is left; one of the same key stays. -/
theorem dropSampled_spec (h : Inv dVocab c) :
    Inv dVocab (dropSampled b c) ∧ (dropSampled b c).gQ = c.gQ ∧
      (dropSampled b c).graph = c.graph ∧ (dropSampled b c).graphMasked = c.graphMasked ∧
      (b.sampling.sampled = true → ∀ g, (dropSampled b c).graphS = some g →
        c.graphS = some g ∧ g.key = b.sKey) := by
  unfold dropSampled
  split
  · exact ⟨⟨h.graph, fun g hg => (by cases hg), fun _ => rfl⟩, rfl, rfl, rfl,
      fun _ g hg => (by cases hg)⟩
  · rename_i hdrop
    refine ⟨h, rfl, rfl, rfl, fun hs g hg => ⟨hg, ?_⟩⟩
    rw [hs, (h.graphS g hg).1] at hdrop
    simpa using hdrop

theorem captureSampled_spec (h : Inv dVocab c)
    (hroom : b.sampling.sampled = true → dVocab ≤ c.gQ.len)
    (hkey : b.sampling.sampled = true → ∀ g, c.graphS = some g → g.key = b.sKey) :
    Inv dVocab (captureSampled dVocab b c t).1 ∧
      (captureSampled dVocab b c t).1.graph = c.graph ∧
      (captureSampled dVocab b c t).1.graphMasked = c.graphMasked ∧
      (b.sampling.sampled = true → ∀ g, (captureSampled dVocab b c t).1.graphS = some g →
        g.key = b.sKey ∧ (c.graphS = some g ∨ b.sampling.pureTemp = true)) := by
  unfold captureSampled
  split
  · rename_i hcap
    simp only [Bool.and_eq_true, Option.isNone_iff_eq_none] at hcap
    obtain ⟨⟨⟨⟨-, hs⟩, hpure⟩, hnone⟩, -⟩ := hcap
    split
    · refine ⟨⟨h.graph, fun g hg => ?_, fun hg => (by cases hg)⟩, rfl, rfl, fun _ g hg => ?_⟩
      · rw [← Option.some.inj hg]
        refine ⟨rfl, rfl, rfl, ?_, hroom hs⟩
        rw [h.slots hnone]
        simp [Burst.sKey]
      · rw [← Option.some.inj hg]
        exact ⟨rfl, .inr hpure⟩
    · refine ⟨⟨h.graph, h.graphS, h.slots⟩, rfl, rfl, fun hs g hg => ⟨hkey hs g hg, .inl hg⟩⟩
  · exact ⟨h, rfl, rfl, fun hs g hg => ⟨hkey hs g hg, .inl hg⟩⟩

/-! ## The start of a burst -/

/-- **What the rounds find.** -/
theorem setup_spec {s : Session} (h : Ok dVocab s) :
    Inv dVocab (setup dVocab b s).1 ∧
      (∀ g, (setup dVocab b s).1.graph = some g → (setup dVocab b s).1.graphMasked = b.dmaskOn) ∧
      (b.sampling.sampled = true → ∀ g, (setup dVocab b s).1.graphS = some g → g.key = b.sKey ∧
        (b.sampling.pureTemp = true ∨
          ∃ c, s.draftCtx = some c ∧ c.graphS = some g ∧ c.sKey = some b.sKey)) := by
  have h₀ := inv_take (b := b) h
  have htake : ∀ g, (take dVocab b s).1.graphS = some g → s.draftCtx = some (take dVocab b s).1 := by
    intro g hg
    unfold take at hg ⊢
    split at hg
    · rename_i c hc
      rw [hc]
    · cases hg
  unfold setup
  dsimp only
  generalize (take dVocab b s).1 = c₀ at h₀ htake
  generalize (take dVocab b s).2 = t₀
  obtain ⟨h₁, hroom₁, hS₁⟩ := growQ_spec (b := b) (t := t₀) h₀
  generalize (growQ dVocab b c₀ t₀).1 = c₁ at h₁ hroom₁ hS₁
  generalize (growQ dVocab b c₀ t₀).2 = t₁
  obtain ⟨h₂, hq₂, hS₂⟩ := growMask_spec (b := b) (t := t₁) h₁
  generalize (growMask dVocab b c₁ t₁).1 = c₂ at h₂ hq₂ hS₂
  generalize (growMask dVocab b c₁ t₁).2 = t₂
  obtain ⟨h₃, hm₃, hq₃, hS₃⟩ := dropMasked_spec (b := b) h₂
  obtain ⟨h₄, hm₄, hq₄, hS₄⟩ := captureGreedy_spec (b := b) h₃ hm₃
  obtain ⟨h₅, hq₅, hg₅, hgm₅, hS₅⟩ := dropSampled_spec (b := b) h₄
  have hroom₅ : b.sampling.sampled = true →
      dVocab ≤ (dropSampled b (captureGreedy b (dropMasked b c₂))).gQ.len := by
    rw [hq₅, hq₄, hq₃, hq₂]
    exact hroom₁
  obtain ⟨h₆, hg₆, hgm₆, hS₆⟩ := captureSampled_spec (b := b) (t := t₂) h₅ hroom₅
    fun hs g hg => (hS₅ hs g hg).2
  refine ⟨h₆, fun g hg => ?_, fun hs g hg => ?_⟩
  · rw [hg₆, hg₅] at hg
    rw [hgm₆, hgm₅]
    exact hm₄ g hg
  · obtain ⟨hkey, hpure⟩ := hS₆ hs g hg
    refine ⟨hkey, hpure.symm.imp id fun hg₅ => ?_⟩
    -- the graph was there when the burst began
    have hg₀ : c₀.graphS = some g := by
      rw [← hS₁, ← hS₂, ← hS₃, ← hS₄]
      exact (hS₅ hs g hg₅).1
    exact ⟨c₀, htake g hg₀, hg₀, by rw [(h₀.graphS g hg₀).1, hkey]⟩

/-! ## What is launched -/

theorem penOn_false {sp : SpecSampling} (h : sp.sampled = true) (hpure : sp.pureTemp = true) :
    sp.unfiltered = true ∧ sp.penalized = false := by
  unfold SpecSampling.pureTemp SpecSampling.penOn at hpure
  rw [h] at hpure
  simpa using hpure

/-- The arm that is taken. -/
theorem arm_graph {g : GreedyGraph} (h : arm b c = .graph g) :
    b.sampling.sampled = false ∧ c.graph = some g := by
  unfold arm at h
  split at h
  · rename_i hs hg
    obtain rfl := Arm.graph.inj h
    exact ⟨(Bool.or_eq_false_iff.1 hs).1, hg⟩
  · split at h <;> cases h

theorem arm_graphS {g : SampledGraph} (h : arm b c = .graphS g) :
    b.sampling.sampled = true ∧ c.graphS = some g := by
  unfold arm at h
  split at h
  · cases h
  · split at h
    · rename_i hs hg
      obtain rfl := Arm.graphS.inj h
      exact ⟨hs, hg⟩
    · cases h

theorem arm_sampled (h : b.sampling.sampled = true) :
    arm b c = match c.graphS with
      | some g => .graphS g
      | none => .eager := by
  unfold arm
  rw [h]
  cases c.graphS <;> rfl

/-- The accept walk and the chain agree on the rows, whatever was launched. -/
theorem rows_agree (h : b.sampling.sampled = true) : qBufs c = chainRows b c := by
  unfold qBufs chainRows
  rw [arm_sampled h]
  cases c.graphS <;> rfl

/-- A sampled burst without filters and penalties launches only what it needs, and so does any other if no
graph of its key is parked. -/
theorem fits_of_safe {s : Session} (h : Ok dVocab s)
    (hsafe : Safe s (.burst b)) : Fits b (setup dVocab b s).1 := by
  obtain ⟨hinv, hmask, hkey⟩ := setup_spec (b := b) h
  refine ⟨fun g hg => ?_, fun g hg => ?_, rows_agree⟩
  · obtain ⟨hs, hgraph⟩ := arm_graph hg
    refine ⟨hs, hsafe.1 hs, ?_⟩
    rw [hinv.graph g hgraph, hmask g hgraph]
  · obtain ⟨hs, hgraph⟩ := arm_graphS hg
    obtain ⟨hgkey, hpure⟩ := hkey hs g hgraph
    have hpure : b.sampling.pureTemp = true := by
      rcases hpure with hpure | ⟨c, hc, hcS, hck⟩
      · exact hpure
      · by_contra hno
        exact hsafe.2 hs (Bool.not_eq_true _ ▸ hno) c hc (by rw [hcS]; rfl) hck
    obtain ⟨hunf, hpen⟩ := penOn_false hs hpure
    obtain ⟨-, hq, -, hlen, -⟩ := hinv.graphS g hgraph
    refine ⟨hs, hgkey, hunf, hpen, hq, ?_⟩
    rw [hlen, hgkey]
    rfl

/-- A parked graph of its key is launched by any sampled burst. -/
theorem arm_of_parked {s : Session} (hs : b.sampling.sampled = true) {c : Ctx}
    (hc : s.draftCtx = some c) (hinv : Inv dVocab c) {g : SampledGraph} (hg : c.graphS = some g)
    (hkey : c.sKey = some b.sKey) : arm b (setup dVocab b s).1 = .graphS g := by
  have htake : take dVocab b s = (c, s.top) := by
    unfold take
    rw [hc]
  unfold setup
  dsimp only
  rw [htake]
  obtain ⟨h₁, -, hS₁⟩ := growQ_spec (b := b) (t := s.top) hinv
  generalize (growQ dVocab b c s.top).1 = c₁ at h₁ hS₁
  generalize (growQ dVocab b c s.top).2 = t₁
  obtain ⟨h₂, -, hS₂⟩ := growMask_spec (b := b) (t := t₁) h₁
  generalize (growMask dVocab b c₁ t₁).1 = c₂ at h₂ hS₂
  generalize (growMask dVocab b c₁ t₁).2 = t₂
  obtain ⟨h₃, hm₃, -, hS₃⟩ := dropMasked_spec (b := b) h₂
  obtain ⟨h₄, -, -, hS₄⟩ := captureGreedy_spec (b := b) h₃ hm₃
  generalize captureGreedy b (dropMasked b c₂) = c₄ at h₄ hS₄
  have hg₄ : c₄.graphS = some g := by rw [hS₄, hS₃, hS₂, hS₁, hg]
  have hk₄ : c₄.sKey = some b.sKey := by
    rw [(h₄.graphS g hg₄).1, ← (hinv.graphS g hg).1, hkey]
  have hkept : dropSampled b c₄ = c₄ := by
    unfold dropSampled
    rw [hk₄, if_neg (by simp)]
  have hsame : (captureSampled dVocab b c₄ t₂).1 = c₄ := by
    unfold captureSampled
    rw [hg₄, if_neg (by simp)]
  rw [hkept, hsame, arm_sampled hs, hg₄]

/-- The condition on sampled bursts is necessary. -/
theorem safe_of_fits {s : Session} (h : Ok dVocab s)
    (hfits : Fits b (setup dVocab b s).1) (hs : b.sampling.sampled = true)
    (hpure : b.sampling.pureTemp = false) :
    ∀ c, s.draftCtx = some c → c.graphS.isSome → c.sKey ≠ some b.sKey := by
  intro c hc hsome hkey
  obtain ⟨g, hg⟩ := Option.isSome_iff_exists.1 hsome
  obtain ⟨-, -, hunf, hpen, -⟩ := hfits.graphS g (arm_of_parked hs hc (h c hc) hg hkey)
  unfold SpecSampling.pureTemp SpecSampling.penOn at hpure
  rw [hunf, hpen] at hpure
  simp at hpure

/-! ## Runs -/

theorem ok_new (dVocab : ℕ) : Ok dVocab Session.new := fun c (hc : none = some c) => (by cases hc)

theorem ok_step {s : Session} (h : Ok dVocab s) (ev : Event) : Ok dVocab (step dVocab s ev) := by
  intro c hc
  cases ev with
  | burst b =>
    unfold step at hc
    dsimp only at hc
    split at hc
    · exact h c hc
    · split at hc
      · rw [← Option.some.inj hc]
        exact (setup_spec h).1
      · cases hc
  | resume =>
    obtain ⟨c', hc', rfl⟩ := Option.map_eq_some_iff.1 hc
    obtain ⟨hg, hS, hq⟩ := h c' hc'
    exact ⟨hg, hS, hq⟩

/-- **In every run** whose bursts meet the condition, each launches only graphs that were captured for it. -/
theorem replays_of_safe (dVocab : ℕ) (evs : List Event)
    (h : Lib.Along (step dVocab) Safe Session.new evs) :
    Lib.Along (step dVocab) (Replays dVocab) Session.new evs := by
  have hok : ∀ s ev, Ok dVocab s → Safe s ev → Replays dVocab s ev := by
    intro s ev hs hsafe
    cases ev with
    | burst b => exact fun _ => fits_of_safe hs hsafe
    | resume => trivial
  exact Lib.Along.imp_invariant (fun s ev hs _ => ok_step hs ev) hok h (ok_new dVocab)

/-- A sampled burst at temperature one. -/
def sampledBurst (topK : ℤ) : Burst :=
  { sampling := { temp := 1, seed := 7, topK := topK, topP := 1, minP := 0, penaltyLastN := 0,
                  penaltyRepeat := 1, penaltyFreq := 0, penaltyPresent := 0 },
    k := 3, graphDraft := true, constraint := none, captureOk := true, captureSOk := true,
    ending := .parked }

/-- Two bursts of one request. -/
theorem replays_twice :
    Lib.Along (step 8) (Replays 8) Session.new [.burst (sampledBurst 0), .burst (sampledBurst 0)] :=
  replays_of_safe 8 [.burst (sampledBurst 0), .burst (sampledBurst 0)]
    ⟨⟨fun _ => rfl, fun _ _ c (hc : none = some c) => by cases hc⟩,
      ⟨fun _ => rfl, fun _ hpure => absurd hpure (by decide)⟩, trivial⟩

/-- A request with top-k that resumes the session of one without launches its graph. -/
theorem not_replays_filtered :
    ¬ Lib.Along (step 8) (Replays 8) Session.new
      [.burst (sampledBurst 0), .burst (sampledBurst 40)] := by
  rintro ⟨-, h, -⟩
  have hfits := h ⟨by decide, by decide⟩
  have hok := ok_step (ok_new 8) (.burst (sampledBurst 0))
  refine safe_of_fits hok hfits (by decide) (by decide) _ rfl (by decide) (by decide)

end DraftGraph

end Memra
