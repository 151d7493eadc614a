import Memra.Server.SpecStep
import Memra.Server.Proof.SpecResume
import Mathlib

/-!
# A right-sized cache does not change the answer

The ladder ends between `need` and the cap (`ladder_eq_find`, `ladderAsks_spec`). Behind a burst that
does not end the session, what is committed exceeds the prompt and the generated tokens by one
for every idle burst at most (`Counted`), so that below the slack the guard of a right-sized cache stays
silent before the budget is reached (`stepSpec_sized`), as that of the full cache does
(`right_sized_same`).
-/

namespace Memra

variable {σ η γ : Type}

/-! ## The ladder -/

theorem ladder_eq_find (env : AdmitEnv) (learned : Option ℕ) (need ask : ℕ) :
    ladder env learned need ask = (ladderAsks need ask).find? (lands env learned) := by
  induction ask using Nat.strong_induction_on with
  | _ ask ih =>
    rw [ladder, ladderAsks]
    by_cases hlt : need < ask
    · simp only [if_pos hlt, List.find?_cons]
      have hdec : max (ask / 2) need < ask := by omega
      rw [ih _ hdec]
      cases lands env learned ask with
      | true => rfl
      | false => rfl
    · simp only [if_neg hlt, List.find?_cons, List.find?_nil]
      cases lands env learned ask with
      | true => rfl
      | false => rfl

/-- The asks lie between `need` and the first one, which they halve. -/
theorem ladderAsks_spec {need ask : ℕ} (hle : need ≤ ask) :
    (∀ a ∈ ladderAsks need ask, need ≤ a ∧ a ≤ ask) ∧
      (ladderAsks need ask).length ≤ Nat.log 2 ask + 2 := by
  induction ask using Nat.strong_induction_on with
  | _ ask ih =>
    rw [ladderAsks]
    split
    · rename_i hlt
      have hdec : max (ask / 2) need < ask := by omega
      obtain ⟨hmem, hlength⟩ := ih _ hdec (le_max_right _ _)
      refine ⟨?_, ?_⟩
      · intro a ha
        rcases List.mem_cons.1 ha with rfl | ha
        · exact ⟨hle, le_rfl⟩
        · exact ⟨(hmem a ha).1, (hmem a ha).2.trans hdec.le⟩
      · rw [List.length_cons]
        by_cases hhalf : need < ask / 2
        · have hlog : Nat.log 2 (ask / 2) + 1 = Nat.log 2 ask :=
            (Nat.log_of_one_lt_of_le (by decide) (by omega)).symm
          rw [max_eq_left hhalf.le] at hlength ⊢
          omega
        · rw [max_eq_right (not_lt.1 hhalf), ladderAsks, if_neg (lt_irrefl _),
            List.length_singleton]
          omega
    · refine ⟨?_, by simp⟩
      intro a ha
      rw [List.mem_singleton.1 ha]
      exact ⟨hle, le_rfl⟩

/-- The admission that right-sizes: the full cache fits neither at once nor behind the pool's eviction, and
the request needs less. -/
structure RightSizes (env : AdmitEnv) (model : String) (pl : Plan) (sz : SpecSizing)
    (pool : List (SpecReuseEntry σ η)) : Prop where
  full : env.sessionFits = false
  retry : env.sessionRetryFits = false ∨ model ∈ sz.evictFirst ∨ pool = []
  need : pl.need ≤ pl.ctxCap

/-- The first ask: the learned size or half the cap, between `need` and the cap. -/
def firstAsk (sz : SpecSizing) (model : String) (pl : Plan) : ℕ :=
  max pl.need (min ((sz.learnedCtx model).getD (pl.ctxCap / 2)) pl.ctxCap)

theorem allocSpec_rightSizes {lm : LoadedModel σ η γ} {env : AdmitEnv} {model : String} {pl : Plan}
    {sz : SpecSizing} {pool : List (SpecReuseEntry σ η)} (h : RightSizes env model pl sz pool) :
    (allocSpec lm env model pl sz pool).1 =
      ((ladderAsks pl.need (firstAsk sz model pl)).find?
        (lands env (sz.learnedCtx model))).map (SpecCaches.new lm) := by
  unfold allocSpec
  rw [← ladder_eq_find]
  generalize hpool : (if model ∈ sz.evictFirst then [] else pool) = pool'
  have hretry : ¬ (decide (pool' ≠ []) = true ∧ env.sessionRetryFits = true) := by
    intro ⟨hne, hfits⟩
    have hne : pool' ≠ [] := of_decide_eq_true hne
    rcases h.retry with hretry | hmem | hnil
    · rw [hretry] at hfits
      cases hfits
    · rw [if_pos hmem] at hpool
      exact hne hpool.symm
    · rw [hnil, ite_self] at hpool
      exact hne hpool.symm
  have hlearned : ∀ (c : Prop) [Decidable c],
      (if c then { sz with evictFirst := model :: sz.evictFirst } else sz).learnedCtx =
        sz.learnedCtx := by
    intro c _
    split
    · rfl
    · rfl
  have hfull : ¬ env.sessionFits = true := by
    rw [h.full]
    exact Bool.false_ne_true
  simp only [if_neg hfull, if_neg hretry, if_pos h.need, hlearned]
  change _ = (ladder env (sz.learnedCtx model) pl.need (firstAsk sz model pl)).map _
  unfold firstAsk
  cases ladder env (sz.learnedCtx model) pl.need
      (max pl.need (min ((sz.learnedCtx model).getD (pl.ctxCap / 2)) pl.ctxCap)) with
  | none => rfl
  | some ask => rfl

/-! ## What is committed -/

/-- Behind the bursts that did not end the session: what is committed and carried exceeds the prompt and
the generated tokens by the idle bursts at most. -/
def Counted (n idles : ℕ) (a : SpecArm) : Prop :=
  a.committed + a.prefillQueue.length + (if a.pendingTok then 1 else 0) ≤
    n + a.generated.length + idles

theorem acceptBurst_length {eos generated burst : List Tok}
    (h : (acceptBurst eos generated burst).2 = false) :
    (acceptBurst eos generated burst).1.length = generated.length + burst.length := by
  induction burst generalizing generated with
  | nil => rfl
  | cons tok burst ih =>
    rw [acceptBurst] at h ⊢
    split
    · rename_i hmem
      rw [if_pos hmem] at h
      cases h
    · rename_i hmem
      rw [if_neg hmem] at h
      rw [ih h, List.length_append, List.length_singleton, List.length_cons]
      omega

theorem committedBehind_le {n idles : ℕ} {a : SpecArm} (h : Counted n idles a) (b : BurstResult) :
    a.committedBehind b + (if b.carried then 1 else 0) ≤
      n + a.generated.length + b.burst.length + (idles + if b.idle then 1 else 0) := by
  unfold Counted at h
  unfold SpecArm.committedBehind BurstResult.idle
  cases hburst : b.burst with
  | nil =>
    cases b.carried with
    | false => simp; omega
    | true => simp; omega
  | cons tok burst =>
    cases b.carried with
    | false => simp; omega
    | true => simp; omega

section

variable {lm : LoadedModel σ η γ} {cfg : Config} {info : SessionInfo} {n idles : ℕ} {a : SpecArm}

/-- The guard of a cache with room for the slack is silent before the budget is reached. -/
theorem stopReason_sized {maxCtx committed : ℕ} {generated : List Tok} {eos : Bool}
    (hroom : n + info.budget + specShrinkSlack ≤ maxCtx)
    (hcommitted : eos = false → committed ≤ n + generated.length + idles)
    (hk : cfg.specK + idles ≤ 61) {full : ℕ} (hfull : maxCtx ≤ full) :
    stopReason lm cfg info maxCtx generated eos committed =
        stopReason lm cfg info full generated eos committed ∧
      stopReason lm cfg info maxCtx generated eos committed ≠ some .contextFull := by
  unfold stopReason
  unfold specShrinkSlack at hroom
  split
  · exact ⟨rfl, by simp⟩
  · split
    · exact ⟨rfl, by simp⟩
    · split
      · exact ⟨rfl, by simp⟩
      · rename_i heos _ hbudget
        have hcommitted := hcommitted (by simpa using heos)
        rw [if_neg (by omega), if_neg (by omega)]
        exact ⟨rfl, by simp⟩

/-- **One tick** is the same over both caches, and keeps the count. -/
theorem stepSpec_sized {maxCtx full : ℕ} (hcount : Counted n idles a) (b : BurstResult)
    (hroom : n + info.budget + specShrinkSlack ≤ maxCtx) (hfull : maxCtx ≤ full)
    (hk : cfg.specK + (idles + if b.idle then 1 else 0) ≤ 61) :
    stepSpec lm cfg info maxCtx a b = stepSpec lm cfg info full a b ∧
      (stepSpec lm cfg info maxCtx a b).2 ≠ some (.finish .contextFull) ∧
      ((stepSpec lm cfg info maxCtx a b).2 = none →
        Counted n (idles + if b.idle then 1 else 0) (stepSpec lm cfg info maxCtx a b).1) := by
  have hbehind := committedBehind_le hcount b
  have hlength := @acceptBurst_length info.params.eos a.generated b.burst
  have hcommitted : (acceptBurst info.params.eos a.generated b.burst).2 = false →
      a.committedBehind b ≤ n + (acceptBurst info.params.eos a.generated b.burst).1.length +
        (idles + if b.idle then 1 else 0) := by
    intro heos
    rw [hlength heos]
    omega
  obtain ⟨hsame, hsilent⟩ := @stopReason_sized _ _ _ lm cfg info n _ _ _ _ _ hroom hcommitted hk _ hfull
  unfold stepSpec
  rw [hsame] at hsilent
  simp only [hsame]
  split
  · exact ⟨trivial, by simp, by simp⟩
  · split
    · exact ⟨trivial, by simp, by simp⟩
    · split
      · refine ⟨trivial, ?_, ?_⟩
        · intro hstop
          obtain ⟨r, hr, heq⟩ := Option.map_eq_some_iff.1 hstop
          cases heq
          exact hsilent hr
        · intro hnone
          have heos : (acceptBurst info.params.eos a.generated b.burst).2 = false := by
            by_contra heos
            rw [stopReason, if_pos (by simpa using heos)] at hnone
            cases hnone
          unfold Counted
          simp only [List.length_nil, hlength heos]
          omega
      · exact ⟨trivial, by simp, by simp⟩

/-- **A run** is the same over both caches. -/
theorem runSpec_sized {maxCtx full : ℕ} (bursts : List BurstResult)
    (hcount : Counted n idles a) (hroom : n + info.budget + specShrinkSlack ≤ maxCtx)
    (hfull : maxCtx ≤ full)
    (hk : cfg.specK + (idles + (bursts.filter BurstResult.idle).length) ≤ 61) :
    runSpec lm cfg info maxCtx bursts a = runSpec lm cfg info full bursts a ∧
      (runSpec lm cfg info maxCtx bursts a).2 ≠ some (.finish .contextFull) := by
  induction bursts generalizing a idles with
  | nil => exact ⟨rfl, nofun⟩
  | cons b bursts ih =>
    have hfilter : ((b :: bursts).filter BurstResult.idle).length =
        (if b.idle then 1 else 0) + (bursts.filter BurstResult.idle).length := by
      rw [List.filter_cons]
      split
      · rw [List.length_cons, Nat.add_comm]
      · rw [Nat.zero_add]
    rw [hfilter] at hk
    obtain ⟨hsame, hsilent, hnext⟩ :=
      @stepSpec_sized _ _ _ lm cfg info _ _ _ _ _ hcount b hroom hfull (by omega)
    unfold runSpec
    rw [← hsame]
    generalize stepSpec lm cfg info maxCtx a b = out at hsilent hnext
    obtain ⟨a', e⟩ := out
    cases e with
    | some e => exact ⟨rfl, hsilent⟩
    | none => exact ih (hnext rfl) (by omega)

end

/-- `committedBehind` is what the engine's tail leaves in `committed`. -/
theorem closeBurst_committedBehind (E : SpecEngine σ η) (B : Burst) (s : SpecSession σ η)
    (st : RoundState σ η γ) :
    (closeBurst E B s st).committed.length =
      SpecArm.committedBehind
        { prefillQueue := B.suffix, committed := s.committed.length
          pendingTok := s.pendingTok.isSome }
        { burst := st.out, carried := (closeBurst E B s st).pendingTok.isSome } := by
  have hpending : s.pendingTok.toList.length = if s.pendingTok.isSome then 1 else 0 := by
    cases s.pendingTok with
    | none => rfl
    | some tok => rfl
  unfold closeBurst SpecArm.committedBehind
  split
  · simp [hpending, Nat.add_assoc]
  · split
    · simp [hpending, Nat.add_assoc]
    · simp [hpending, Nat.add_assoc]

/-! ## The answer -/

theorem plan_need {cfg : Config} {lm : LoadedModel σ η γ} {rp : ReplayPlan} {pl : Plan}
    (h : plan cfg lm rp = .ok pl) :
    pl.need = satAdd (satAdd pl.prompt.length pl.budget) specShrinkSlack := by
  unfold plan at h
  split at h
  · cases h
  · dsimp only at h
    split at h
    · cases h
    · split at h
      · cases h
      · cases h
        rfl

/-- **A right-sized session answers as a full-size one would**, as long as the draft width and the idle
bursts stay within the slack: the ladder ends after finitely many asks, each with room for the
prompt, the budget and the slack and within the cap, and for whatever the bursts return the tokens
and the reason to stop are those of the full cache, never the guard's. -/
theorem right_sized_same {cfg : Config} {lm : LoadedModel σ η γ} {rp : ReplayPlan} {pl : Plan}
    (hplan : plan cfg lm rp = .ok pl)
    (hbits : pl.prompt.length + pl.budget + specShrinkSlack ≤ usizeMax) {info : SessionInfo}
    (hbudget : info.budget = pl.budget) {env : AdmitEnv} {model : String} {sz : SpecSizing}
    {pool : List (SpecReuseEntry σ η)} (h : RightSizes env model pl sz pool) :
    ∃ asks : List ℕ, asks.length ≤ Nat.log 2 pl.ctxCap + 2 ∧
      (allocSpec lm env model pl sz pool).1 =
        (asks.find? (lands env (sz.learnedCtx model))).map (SpecCaches.new lm) ∧
      ∀ caches, (allocSpec lm env model pl sz pool).1 = some caches →
        pl.prompt.length + pl.budget + specShrinkSlack ≤ caches.maxCtx ∧
        caches.maxCtx ≤ pl.ctxCap ∧
        ∀ bursts, cfg.specK + (bursts.filter BurstResult.idle).length ≤ 61 →
          runSpec lm cfg info caches.maxCtx bursts { prefillQueue := pl.prompt } =
            runSpec lm cfg info pl.ctxCap bursts { prefillQueue := pl.prompt } ∧
          (runSpec lm cfg info caches.maxCtx bursts { prefillQueue := pl.prompt }).2 ≠
            some (.finish .contextFull) := by
  have hneed : pl.need = pl.prompt.length + pl.budget + specShrinkSlack := by
    rw [plan_need hplan, satAdd, satAdd]
    unfold specShrinkSlack at hbits ⊢
    omega
  have hfirst : pl.need ≤ firstAsk sz model pl := le_max_left _ _
  have hcap : firstAsk sz model pl ≤ pl.ctxCap := max_le h.need (min_le_right _ _)
  obtain ⟨hmem, hlength⟩ := ladderAsks_spec hfirst
  have halloc := @allocSpec_rightSizes _ _ _ lm _ _ _ _ _ h
  refine ⟨_, hlength.trans (Nat.add_le_add_right (Nat.log_mono_right hcap) 2), halloc, ?_⟩
  intro caches hcaches
  rw [halloc] at hcaches
  obtain ⟨ask, hask, rfl⟩ := Option.map_eq_some_iff.1 hcaches
  obtain ⟨hlow, hhigh⟩ := hmem ask (List.mem_of_find?_eq_some hask)
  have hlow : pl.prompt.length + pl.budget + specShrinkSlack ≤ ask := hneed ▸ hlow
  have hhigh : ask ≤ pl.ctxCap := hhigh.trans hcap
  refine ⟨hlow, hhigh, ?_⟩
  intro bursts hk
  have hcount : Counted pl.prompt.length 0 { prefillQueue := pl.prompt } := by
    unfold Counted
    simp
  exact runSpec_sized bursts hcount (by rw [hbudget]; exact hlow) hhigh (by rwa [Nat.zero_add])

/-! ## Beyond the slack -/

/-- A session with a budget of fifty tokens. -/
def fiftyInfo : SessionInfo where
  model := "m"
  cacheNs := ""
  affinity := none
  lane := .interactive
  replay := { params := { maxNew := 50 } }
  params := { maxNew := 50 }
  stopStrings := []
  traceId := none
  budget := 50
  nPrompt := 100
  nCached := 0

/-- A prompt of a hundred tokens with a budget of fifty. -/
def fiftyPlan : ReplayPlan where
  promptIds := List.range 100
  params := { maxNew := 50 }

/-- A device on which only a cache of 214 rows fits. -/
def tightEnv : AdmitEnv where
  sessionFits := false
  ladderFits ask := ask ≤ 214

/-- A draft width of a hundred. -/
def wideConfig : Config where
  specK := 100

/-- The sizes of the request. -/
def fiftySizes : Plan where
  prompt := List.range 100
  ctxCap := 8192
  budget := 50
  need := 214

theorem fiftyPlan_default : plan {} charModel fiftyPlan = .ok fiftySizes := rfl

theorem fiftyPlan_wide : plan wideConfig charModel fiftyPlan = .ok fiftySizes := rfl

theorem fifty_rightSizes : @RightSizes (List Tok) (List Tok) tightEnv "m" fiftySizes {} [] :=
  ⟨rfl, .inr (.inr rfl), by decide⟩

theorem fifty_lands : ((allocSpec charModel tightEnv "m" fiftySizes {} []).1.map (·.maxCtx)) =
    some 214 := by
  decide +kernel

/-- The request over the default width answers as over the full cache. -/
theorem right_sized_same_fifty :
    (runSpec charModel {} fiftyInfo 214 [{ burst := List.replicate 50 5, carried := true }]
      { prefillQueue := List.range 100 }).2 ≠ some (.finish .contextFull) := by
  have hbudget : fiftyInfo.budget = fiftySizes.budget := rfl
  obtain ⟨asks, -, -, hsame⟩ := right_sized_same fiftyPlan_default (by decide) hbudget
    fifty_rightSizes
  obtain ⟨caches, hcaches, hctx⟩ := Option.map_eq_some_iff.1 fifty_lands
  obtain ⟨-, -, hrun⟩ := hsame caches hcaches
  rw [← hctx]
  exact (hrun _ (by decide)).2

/-- One burst of 32 tokens. -/
def oneBurst : List BurstResult := [{ burst := List.replicate 32 5, carried := false }]

/-- A burst of 49 tokens, then sixty idle ones. -/
def idleBursts : List BurstResult :=
  { burst := List.replicate 49 5, carried := true } ::
    List.replicate 60 { burst := [], carried := true }

/-- Beyond the slack the guard stops a right-sized session that the full cache lets go on: with a draft
width of a hundred right behind the first burst, with the default width behind sixty idle bursts. -/
theorem right_sized_differs :
    (allocSpec charModel tightEnv "m" fiftySizes {} []).1.map (·.maxCtx) = some 214 ∧
      (runSpec charModel wideConfig fiftyInfo 214 oneBurst { prefillQueue := List.range 100 }).2 =
        some (.finish .contextFull) ∧
      (runSpec charModel wideConfig fiftyInfo 8192 oneBurst { prefillQueue := List.range 100 }).2 =
        none ∧
      (runSpec charModel {} fiftyInfo 214 idleBursts { prefillQueue := List.range 100 }).2 =
        some (.finish .contextFull) ∧
      (runSpec charModel {} fiftyInfo 8192 idleBursts { prefillQueue := List.range 100 }).2 =
        none :=
  ⟨fifty_lands, by decide +kernel, by decide +kernel, by decide +kernel, by decide +kernel⟩

end Memra
