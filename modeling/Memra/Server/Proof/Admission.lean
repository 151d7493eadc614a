import Memra.Server.Proof.Prefill
import Memra.Server.SessionStep

/-!
# The stages of an admission

`admitRequest_stages` takes an accepted admission apart, stage by stage; `admitRequest_firm` says of
a refused one that it is no shed. From the stages: the session answers the request, and counts no more tokens
as cached than its prompt has.
-/

namespace Memra

variable {σ η γ : Type}

/-! ## Accepted -/

/-- What the stages of an accepted admission have returned. -/
structure AdmitStages (H : Host σ η γ) (cfg : Config) (env : AdmitEnv) (p p' : Pools σ η) (nActive : ℕ)
    (req : Request) (s : Session σ η γ) where
  pl : Plan
  re : Option (ReuseEntry σ)
  p₁ : Pools σ η
  c : Option γ
  re' : Option (ReuseEntry σ)
  snapshotAt : Option ℕ
  seedPrefix : Bool
  p₂ : Pools σ η
  choice : SpecChoice σ η
  p₃ : Pools σ η
  cache : Option (KvCache σ)
  plan : plan cfg (H.loaded req.model) req.toReplayPlan = .ok pl
  reuse : admitReuse cfg (req.model, req.cacheNs) pl p = (re, p₁)
  grammar : compileGrammar (H.loaded req.model) req.grammar = .ok c
  pre : admitPrefix cfg env (req.model, req.cacheNs) pl p₁ re
    (specEligible cfg (H.loaded req.model) nActive req.samplerCfg c.isSome) =
      ((re', snapshotAt, seedPrefix), p₂)
  spec : (if specEligible cfg (H.loaded req.model) nActive req.samplerCfg c.isSome = true ∧
      (re'.map (·.fed)).getD [] = [] then
      admitSpec cfg (H.loaded req.model) env req (req.model, req.cacheNs) pl c.isSome p₂
    else ({}, p₂)) = (choice, p₃)
  alloc : admitCache (H.loaded req.model) env pl p₃ choice.spec (re'.map (·.cache)) = (.ok cache, p')
  session : s = mkSession (H.loaded req.model) req pl c re' snapshotAt seedPrefix choice cache

/-- **The stages of an accepted admission.** -/
theorem admitRequest_stages {H : Host σ η γ} {cfg : Config} {env : AdmitEnv} {p p' : Pools σ η}
    {nActive : ℕ} {req : Request} {s : Session σ η γ}
    (h : admitRequest H cfg env p nActive req = (.ok s, p')) :
    Nonempty (AdmitStages H cfg env p p' nActive req s) := by
  unfold admitRequest at h
  cases hpl : plan cfg (H.loaded req.model) req.toReplayPlan with
  | error e =>
    simp only [hpl] at h
    cases h
  | ok pl =>
    cases hre : admitReuse cfg (req.model, req.cacheNs) pl p with
    | mk re p₁ =>
      cases hc : compileGrammar (H.loaded req.model) req.grammar with
      | error e =>
        simp only [hpl, hre, hc] at h
        cases h
      | ok c =>
        simp only [hpl, hre, hc] at h
        cases hpre : admitPrefix cfg env (req.model, req.cacheNs) pl p₁ re
            (specEligible cfg (H.loaded req.model) nActive req.samplerCfg c.isSome) with
        | mk out p₂ =>
          obtain ⟨re', snapshotAt, seedPrefix⟩ := out
          simp only [hpre] at h
          generalize hchoice : (if specEligible cfg (H.loaded req.model) nActive req.samplerCfg
              c.isSome = true ∧ (re'.map (·.fed)).getD [] = [] then
            admitSpec cfg (H.loaded req.model) env req (req.model, req.cacheNs) pl c.isSome p₂
            else ({}, p₂)) = choice at h
          obtain ⟨choice, p₃⟩ := choice
          cases hcache : admitCache (H.loaded req.model) env pl p₃ choice.spec
              (re'.map (·.cache)) with
          | mk res p₄ =>
            simp only [hcache] at h
            cases res with
            | error e => cases h
            | ok cache =>
              cases h
              exact ⟨⟨pl, re, p₁, c, re', snapshotAt, seedPrefix, p₂, choice, p₃, cache, hpl, hre, hc,
                hpre, hchoice, hcache, rfl⟩⟩

/-- The session of an admission answers the request. -/
theorem admitRequest_request {H : Host σ η γ} {cfg : Config} {env : AdmitEnv} {p p' : Pools σ η}
    {nActive : ℕ} {req : Request} {s : Session σ η γ}
    (h : admitRequest H cfg env p nActive req = (.ok s, p')) : s.request = req := by
  unfold admitRequest at h
  simp only at h
  split at h
  · cases h
  · split at h
    · cases h
    · split at h
      · cases h
      · obtain ⟨hs, -⟩ := Prod.mk.inj h
        obtain rfl := Except.ok.inj hs
        rfl

namespace AdmitStages

variable {H : Host σ η γ} {cfg : Config} {env : AdmitEnv} {p p' : Pools σ η} {nActive : ℕ}
  {req : Request} {s : Session σ η γ}

/-- The resumed tokens start the prompt. -/
theorem fed_prefix (a : AdmitStages H cfg env p p' nActive req s) :
    (a.re'.map (·.fed)).getD [] <+: a.pl.prompt := by
  have hre : ∀ e, a.re = some e → e.fed <+: a.pl.prompt := fun e he =>
    admitReuse_prefix (by rw [a.reuse]; exact he)
  have hpre := (admitPrefix_boundary hre a.pre).1
  cases he : a.re' with
  | none => exact List.nil_prefix
  | some e => exact hpre e he

/-- No more tokens are counted as cached than the prompt has. -/
theorem cached_le (a : AdmitStages H cfg env p p' nActive req s) : s.nCached ≤ s.nPrompt := by
  rw [a.session]
  simp only [mkSession]
  split
  · exact Nat.le_add_right _ _
  · exact a.fed_prefix.length_le

end AdmitStages

/-! ## Refused -/

/-- A refusal that is not a shed. -/
def EngineError.Firm (e : EngineError) : Prop := e.cls ≠ .rateLimit

theorem EngineError.firm_engine (message : String) : (EngineError.engine message).Firm := by
  simp only [Firm, engine]
  split <;> simp

theorem promptOf_firm {lm : LoadedModel σ η γ} {p : ReplayPlan} {e : EngineError}
    (h : promptOf lm p = .error e) : e.Firm := by
  unfold promptOf at h
  split at h
  · cases h
  · split at h
    · split at h
      · cases h
      · split at h
        · cases h
        · obtain rfl := Except.error.inj h
          simp [EngineError.Firm, EngineError.invalidParam]
    · split at h <;> cases h

theorem plan_firm {cfg : Config} {lm : LoadedModel σ η γ} {p : ReplayPlan} {e : EngineError}
    (h : plan cfg lm p = .error e) : e.Firm := by
  unfold plan at h
  split at h
  · next e' he' =>
    obtain rfl := Except.error.inj h
    exact promptOf_firm he'
  · split at h
    · obtain rfl := Except.error.inj h
      simp [EngineError.Firm, EngineError.invalidParam]
    · simp only at h
      split at h
      · obtain rfl := Except.error.inj h
        simp [EngineError.Firm, EngineError.contextLength]
      · cases h

theorem compileGrammar_firm {lm : LoadedModel σ η γ} {g : Option GrammarSpec} {e : EngineError}
    (h : compileGrammar lm g = .error e) : e.Firm := by
  unfold compileGrammar at h
  split at h
  · cases h
  · split at h
    · obtain rfl := Except.error.inj h
      simp [EngineError.Firm, EngineError.invalidParam]
    · split at h
      · obtain rfl := Except.error.inj h
        simp [EngineError.Firm, EngineError.invalidParam]
      · cases h

theorem admitCache_firm {lm : LoadedModel σ η γ} {env : AdmitEnv} {pl : Plan} {p p' : Pools σ η}
    {spec : Option (SpecCaches σ η)} {cache : Option (KvCache σ)} {e : EngineError}
    (h : admitCache lm env pl p spec cache = (.error e, p')) : e.Firm := by
  unfold admitCache at h
  split at h
  · cases h
  · split at h
    · cases h
    · simp only at h
      split at h
      · split at h
        · cases h
        · obtain ⟨he, -⟩ := Prod.mk.inj h
          obtain rfl := Except.error.inj he
          exact EngineError.firm_engine _
      · obtain ⟨he, -⟩ := Prod.mk.inj h
        obtain rfl := Except.error.inj he
        exact EngineError.firm_engine _

/-- `admit` itself never sheds. -/
theorem admitRequest_firm {H : Host σ η γ} {cfg : Config} {env : AdmitEnv} {p p' : Pools σ η}
    {nActive : ℕ} {req : Request} {e : EngineError}
    (h : admitRequest H cfg env p nActive req = (.error e, p')) : e.Firm := by
  unfold admitRequest at h
  simp only at h
  split at h
  · next e' he' =>
    obtain ⟨he, -⟩ := Prod.mk.inj h
    obtain rfl := Except.error.inj he
    exact plan_firm he'
  · split at h
    · next e' he' =>
      obtain ⟨he, -⟩ := Prod.mk.inj h
      obtain rfl := Except.error.inj he
      exact compileGrammar_firm he'
    · split at h
      · next e' p'' he' =>
        obtain ⟨he, -⟩ := Prod.mk.inj h
        obtain rfl := Except.error.inj he
        exact admitCache_firm he'
      · cases h

end Memra
