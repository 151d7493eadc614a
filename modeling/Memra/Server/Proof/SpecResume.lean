import Memra.Server.Admit
import Memra.Engine.Proof.SpecSession

/-!
# Resuming a parked speculative session

`admitSpec` compares a request with the parked sessions through three views of its prompt. This
file says which parked session an admission resumes (`resumed`) and by which tier (`specTier`), and
what it is then given to prime.

* **Inversion** (`admitRequest_resumed`, `admitRequest_fresh`): an admission is a resume of the
  entry `resumed` names, or leaves a fresh speculative session, or none. The other stages leave the
  spec pool alone.
* **The three tiers** (`specTier_token`, `specTier_text`, `specTier_affinity`): what the winning
  probe has compared.
* **The resume** (`resumeAnswers_iff`): it answers the request's own prompt except where reuse is
  switched off, which this pool does not ask, and where the text tier takes a request whose prompt
  is not its raw text.
-/

namespace Memra

variable {σ η γ : Type}

/-! ## The cold prompt -/

/-- The text a cold admission tokenizes; none for explicit ids and for a template that fails. -/
def coldText (lm : LoadedModel σ η γ) (p : ReplayPlan) : Option String :=
  if p.promptIds ≠ [] then none
  else if p.chatTurns ≠ [] then
    if p.toolsJson = [] ∧ p.think = .default ∧ p.reasoningEffort = none ∧
        p.chatTurns.all (fun t => t.role ≠ "tool" ∧ t.toolCalls = []) then
      some (lm.applyChatTemplate (p.chatTurns.map fun t => (t.role, t.content)))
    else
      (lm.applyChatTemplateTools p.chatTurns p.toolsJson p.think p.reasoningEffort).toOption
  else if p.chat then some (lm.applyChatTemplate [("user", p.promptText)])
  else some p.promptText

/-- The prompt is the encoding of that text, or the explicit ids. -/
theorem promptOf_coldText {lm : LoadedModel σ η γ} {p : ReplayPlan} {prompt : List Tok}
    (h : promptOf lm p = .ok prompt) :
    prompt = match coldText lm p with
      | some t => lm.encode t true
      | none => p.promptIds := by
  unfold promptOf at h
  unfold coldText
  by_cases hi : p.promptIds ≠ []
  · rw [if_pos hi] at h ⊢
    exact (Except.ok.inj h).symm
  rw [if_neg hi] at h ⊢
  by_cases ht : p.chatTurns ≠ []
  · rw [if_pos ht] at h ⊢
    by_cases hp : p.toolsJson = [] ∧ p.think = .default ∧ p.reasoningEffort = none ∧
        p.chatTurns.all (fun t => t.role ≠ "tool" ∧ t.toolCalls = [])
    · rw [if_pos hp] at h ⊢
      exact (Except.ok.inj h).symm
    · rw [if_neg hp] at h ⊢
      cases hr : lm.applyChatTemplateTools p.chatTurns p.toolsJson p.think p.reasoningEffort with
      | error err => rw [hr] at h; cases h
      | ok rendered =>
        rw [hr] at h
        exact (Except.ok.inj h).symm
  rw [if_neg ht] at h ⊢
  by_cases hc : p.chat = true
  · rw [if_pos hc] at h ⊢
    exact (Except.ok.inj h).symm
  · rw [if_neg hc] at h ⊢
    exact (Except.ok.inj h).symm

/-! ## The tiers -/

/-- The view of the prompt through which a parked session was recognised. -/
inductive SpecTier
  | token
  | text
  | affinity
  deriving DecidableEq

/-- The token probe: room, and `committed` prefixes the prompt. -/
def tokenFits (pl : Plan) (e : SpecReuseEntry σ η) : Bool :=
  pl.ctxCap ≤ e.caches.maxCtx ∧ e.caches.sess.committed <+: pl.prompt

/-- The text probe: room, and `committed_text` prefixes the prompt text. -/
def textFits (req : Request) (pl : Plan) (e : SpecReuseEntry σ η) : Bool :=
  pl.ctxCap ≤ e.caches.maxCtx ∧ e.committedText.toList <+: req.promptText.toList

/-- The fingerprint chain of a request's prompt. -/
def requestFingerprint (lm : LoadedModel σ η γ) (pl : Plan) : List ℕ :=
  conversationFingerprint pl.prompt lm.tokenIsControl true

/-- The tier that takes a request and the parked session it takes it to. -/
def specTier (cfg : Config) (lm : LoadedModel σ η γ) (env : AdmitEnv) (req : Request) (pl : Plan)
    (pool : List (SpecReuseEntry σ η)) : Option (SpecTier × SpecReuseEntry σ η) :=
  match rposition (tokenFits pl) pool with
  | some i => (pool[i]?).map fun e => (.token, e)
  | none =>
    match (if req.promptText = "" then none else rposition (textFits req pl) pool) with
    | some i => (pool[i]?).map fun e => (.text, e)
    | none =>
      if ¬ cfg.affinity then none
      else
        match rposition (nominates req pl (requestFingerprint lm pl)) pool with
        | none => none
        | some i =>
          (pool[i]?).bind fun e => if env.rewindErr.isSome then none else some (.affinity, e)

/-- What the text tier leaves to tokenize. -/
def textRest (req : Request) (e : SpecReuseEntry σ η) : String :=
  String.ofList (req.promptText.toList.drop e.committedText.toList.length)

/-- The caches a tier resumes with. -/
def tierCaches (e : SpecReuseEntry σ η) : SpecTier → SpecCaches σ η
  | .affinity => { e.caches with sess := specRewindToCheckpoint e.caches.sess }
  | _ => e.caches

/-- The re-tokenized remainder of a tier. -/
def tierSuffix (lm : LoadedModel σ η γ) (req : Request) (e : SpecReuseEntry σ η) :
    SpecTier → Option (List Tok)
  | .text => some (lm.encode (textRest req e) false)
  | _ => none

/-- `probeSpecPool` takes the entry of `specTier`. -/
theorem probeSpecPool_fst (cfg : Config) (lm : LoadedModel σ η γ) (env : AdmitEnv) (req : Request)
    (pl : Plan) (pool : List (SpecReuseEntry σ η)) :
    (probeSpecPool cfg lm env req pl pool).1 =
      (specTier cfg lm env req pl pool).map fun r =>
        (tierCaches r.2 r.1, tierSuffix lm req r.2 r.1) := by
  have htok : (fun e : SpecReuseEntry σ η => decide (pl.ctxCap ≤ e.caches.maxCtx ∧
      e.caches.sess.committed <+: pl.prompt)) = tokenFits pl := rfl
  have htext : (fun e : SpecReuseEntry σ η => decide (pl.ctxCap ≤ e.caches.maxCtx ∧
      e.committedText.toList <+: req.promptText.toList)) = textFits req pl := rfl
  have hfp : conversationFingerprint pl.prompt lm.tokenIsControl true =
    requestFingerprint lm pl := rfl
  unfold probeSpecPool specTier
  simp only [htok, htext, hfp]
  cases rposition (tokenFits pl) pool with
  | some i =>
    dsimp only
    cases pool[i]? <;> rfl
  | none =>
    dsimp only
    cases (if req.promptText = "" then none else rposition (textFits req pl) pool) with
    | some i =>
      dsimp only
      cases pool[i]? <;> rfl
    | none =>
      by_cases ha : cfg.affinity = true
      · simp only [ha, not_true_eq_false, if_false]
        cases rposition (nominates req pl (requestFingerprint lm pl)) pool with
        | none => rfl
        | some i =>
          dsimp only
          cases pool[i]? with
          | none => rfl
          | some e => cases env.rewindErr <;> rfl
      · simp [ha]

theorem affinityMatchFrom_exact {n k : ℕ} : ∀ {i : ℕ} {prompt committed : List Tok},
    affinityMatchFrom n i prompt committed = .exact k → committed <+: prompt ∧ k = n
  | _, _, [], h => by
    unfold affinityMatchFrom at h
    exact ⟨List.nil_prefix, (AffinityMatch.exact.inj h).symm⟩
  | _, [], _ :: _, h => by cases h
  | i, p :: ps, c :: cs, h => by
    unfold affinityMatchFrom at h
    split at h
    · rename_i hpc
      obtain ⟨hpre, hk⟩ := affinityMatchFrom_exact h
      exact ⟨List.cons_prefix_cons.2 ⟨hpc.symm, hpre⟩, hk⟩
    · cases h

/-- An exact match is a prefix. -/
theorem affinityMatch_exact {prompt committed : List Tok} {k : ℕ}
    (h : affinityMatch prompt committed = .exact k) :
    committed <+: prompt ∧ k = committed.length :=
  affinityMatchFrom_exact h

/-- What the winning probe has compared, and that the entry is a parked one. -/
def TierMatch (req : Request) (pl : Plan) (e : SpecReuseEntry σ η) : SpecTier → Prop
  | .token => e.caches.sess.committed <+: pl.prompt
  | .text => e.committedText.toList <+: req.promptText.toList
  | .affinity => ∃ ck, e.caches.sess.turnCkpt = some ck ∧
      e.caches.sess.committed.take ck.pos <+: pl.prompt ∧
      (e.caches.sess.committed.take ck.pos).length = ck.pos ∧ 0 < ck.pos ∧
      ck.pos < pl.prompt.length

theorem nominates_match {req : Request} {pl : Plan} {fp : List ℕ} {e : SpecReuseEntry σ η}
    (h : nominates req pl fp e = true) : TierMatch req pl e .affinity := by
  unfold nominates at h
  rw [Bool.and_eq_true] at h
  obtain ⟨-, h⟩ := h
  cases hck : e.caches.sess.turnCkpt with
  | none => rw [hck] at h; cases h
  | some ck =>
    rw [hck] at h
    simp only [Bool.and_eq_true, decide_eq_true_eq] at h
    obtain ⟨⟨⟨h0, hm⟩, hl⟩, -⟩ := h
    obtain ⟨hpre, hk⟩ := affinityMatch_exact hm
    have := hpre.length_le
    exact ⟨ck, hck, hpre, hk.symm, by omega, by omega⟩

/-- `specTier` names a parked entry that its tier has matched. -/
theorem specTier_some {cfg : Config} {lm : LoadedModel σ η γ} {env : AdmitEnv} {req : Request}
    {pl : Plan} {pool : List (SpecReuseEntry σ η)} {tier : SpecTier} {e : SpecReuseEntry σ η}
    (h : specTier cfg lm env req pl pool = some (tier, e)) :
    e ∈ pool ∧ TierMatch req pl e tier := by
  unfold specTier at h
  cases ht : rposition (tokenFits pl) pool with
  | some i =>
    obtain ⟨x, hx, hp⟩ := rposition_some ht
    simp only [ht, hx, Option.map_some, Option.some.injEq, Prod.mk.injEq] at h
    obtain ⟨rfl, rfl⟩ := h
    exact ⟨List.mem_of_getElem? hx, (of_decide_eq_true hp).2⟩
  | none =>
    simp only [ht] at h
    cases hx : (if req.promptText = "" then none else rposition (textFits req pl) pool) with
    | some i =>
      have hx' : rposition (textFits req pl) pool = some i := by
        split at hx
        · cases hx
        · exact hx
      obtain ⟨x, hg, hp⟩ := rposition_some hx'
      simp only [hx, hg, Option.map_some, Option.some.injEq, Prod.mk.injEq] at h
      obtain ⟨rfl, rfl⟩ := h
      exact ⟨List.mem_of_getElem? hg, (of_decide_eq_true hp).2⟩
    | none =>
      simp only [hx] at h
      split at h
      · cases h
      cases hn : rposition (nominates req pl (requestFingerprint lm pl)) pool with
      | none => rw [hn] at h; cases h
      | some i =>
        obtain ⟨x, hg, hp⟩ := rposition_some hn
        simp only [hn, hg, Option.bind_some] at h
        split at h
        · cases h
        · obtain ⟨rfl, rfl⟩ := Prod.mk.inj (Option.some.inj h)
          exact ⟨List.mem_of_getElem? hg, nominates_match hp⟩

/-! ## The stages of an admission -/

theorem admitReuse_specReuse (cfg : Config) (key : PoolKey) (pl : Plan) (p : Pools σ η) :
    (admitReuse cfg key pl p).2.specReuse = p.specReuse := by
  unfold admitReuse
  split
  · rfl
  · split <;> rfl

/-- A resumed plain session has fed something. -/
theorem admitReuse_fed {cfg : Config} {key : PoolKey} {pl : Plan} {p : Pools σ η}
    {e : ReuseEntry σ} (h : (admitReuse cfg key pl p).1 = some e) : e.fed ≠ [] := by
  unfold admitReuse at h
  split at h
  · cases h
  · split at h
    · cases h
    · rename_i i hi
      obtain ⟨x, hx, hp⟩ := rposition_some hi
      obtain rfl := Option.some.inj (hx.symm.trans h)
      have hlen := (of_decide_eq_true hp).1
      intro hnil
      rw [hnil] at hlen
      exact absurd hlen (by decide)

theorem admitPrefix_specReuse (cfg : Config) (env : AdmitEnv) (key : PoolKey) (pl : Plan)
    (p : Pools σ η) (reused : Option (ReuseEntry σ)) (eligible : Bool) :
    (admitPrefix cfg env key pl p reused eligible).2.specReuse = p.specReuse := by
  unfold admitPrefix
  split
  · rfl
  · split <;> rfl

/-- The prefix cache stands aside for a speculative session. -/
theorem admitPrefix_eligible (cfg : Config) (env : AdmitEnv) (key : PoolKey) (pl : Plan)
    (p : Pools σ η) (reused : Option (ReuseEntry σ)) :
    admitPrefix cfg env key pl p reused true = ((reused, none, false), p) := by
  unfold admitPrefix
  rw [if_pos (by simp)]

/-- A fresh speculative session. -/
theorem allocSpec_fresh {lm : LoadedModel σ η γ} {env : AdmitEnv} {model : String} {pl : Plan}
    {sz : SpecSizing} {pool : List (SpecReuseEntry σ η)} {caches : SpecCaches σ η}
    (h : (allocSpec lm env model pl sz pool).1 = some caches) :
    caches.sess = newSession lm.E.T := by
  unfold allocSpec at h
  dsimp only at h
  generalize (if model ∈ sz.evictFirst then [] else pool) = pool' at h
  split at h
  · obtain rfl := Option.some.inj h
    rfl
  generalize (if decide (pool' ≠ []) = true ∧ model ∉ sz.evictFirst then _ else sz) = sz' at h
  split at h
  · obtain rfl := Option.some.inj h
    rfl
  split at h
  · split at h
    · obtain rfl := Option.some.inj h
      rfl
    · cases h
  · cases h

theorem admitCache_specReuse (lm : LoadedModel σ η γ) (env : AdmitEnv) (pl : Plan) (p : Pools σ η)
    (spec : Option (SpecCaches σ η)) (cache : Option (KvCache σ)) :
    (admitCache lm env pl p spec cache).2.specReuse = p.specReuse := by
  unfold admitCache
  split
  · rfl
  · split
    · rfl
    · dsimp only
      split
      · split <;> rfl
      · rfl

/-- Beside a speculative session no plain cache is allocated. -/
theorem admitCache_spec (lm : LoadedModel σ η γ) (env : AdmitEnv) (pl : Plan) (p : Pools σ η)
    {spec : Option (SpecCaches σ η)} (hs : spec.isSome) (cache : Option (KvCache σ)) :
    admitCache lm env pl p spec cache = (.ok cache, p) := by
  unfold admitCache
  rw [if_pos (.inl hs)]

/-- `admitSpec` writes its own pool only. -/
theorem admitSpec_other (cfg : Config) (lm : LoadedModel σ η γ) (env : AdmitEnv) (req : Request)
    (key : PoolKey) (pl : Plan) (constrained : Bool) (p : Pools σ η) {k : PoolKey} (hk : k ≠ key) :
    (admitSpec cfg lm env req key pl constrained p).2.specReuse k = p.specReuse k := by
  unfold admitSpec
  dsimp only
  split
  · simp [Function.update_of_ne hk]
  · simp [Function.update_of_ne hk]

/-- The speculative session of a tier. -/
def tierChoice (lm : LoadedModel σ η γ) (req : Request) (r : SpecTier × SpecReuseEntry σ η) :
    SpecChoice σ η :=
  let caches := tierCaches r.2 r.1
  { spec := some { caches with sess := resetGraphFallback caches.sess }
    specResumed := caches.sess.committed.length
    textSuffix := tierSuffix lm req r.2 r.1 }

/-- Unconstrained, `admitSpec` resumes what `specTier` names. -/
theorem admitSpec_resumed {cfg : Config} {lm : LoadedModel σ η γ} {env : AdmitEnv} {req : Request}
    {k : PoolKey} {pl : Plan} {p : Pools σ η} {r : SpecTier × SpecReuseEntry σ η}
    (h : specTier cfg lm env req pl (p.specReuse k) = some r) :
    (admitSpec cfg lm env req k pl false p).1 = tierChoice lm req r := by
  have hp := probeSpecPool_fst cfg lm env req pl (p.specReuse k)
  rw [h, Option.map_some] at hp
  unfold admitSpec
  cases hq : probeSpecPool cfg lm env req pl (p.specReuse k) with
  | mk res pool =>
    rw [hq] at hp
    obtain rfl : res = _ := hp
    rfl

/-- Otherwise its session is a fresh one. -/
theorem admitSpec_fresh {cfg : Config} {lm : LoadedModel σ η γ} {env : AdmitEnv} {req : Request}
    {key : PoolKey} {pl : Plan} {constrained : Bool} {p : Pools σ η}
    (h : constrained = true ∨ specTier cfg lm env req pl (p.specReuse key) = none) :
    (admitSpec cfg lm env req key pl constrained p).1.specResumed = 0 ∧
      (admitSpec cfg lm env req key pl constrained p).1.textSuffix = none ∧
      ∀ caches, (admitSpec cfg lm env req key pl constrained p).1.spec = some caches →
        caches.sess = newSession lm.E.T := by
  have hres : (if constrained = true then (none, p.specReuse key)
      else probeSpecPool cfg lm env req pl (p.specReuse key)).1 = none := by
    split
    · rfl
    · rename_i hc
      rw [probeSpecPool_fst, h.resolve_left hc, Option.map_none]
  unfold admitSpec
  cases hq : (if constrained = true then (none, p.specReuse key)
      else probeSpecPool cfg lm env req pl (p.specReuse key)) with
  | mk res pool =>
    rw [hq] at hres
    obtain rfl : res = none := hres
    exact ⟨rfl, rfl, fun caches hc => allocSpec_fresh hc⟩

/-! ## The admission -/

/-- A plan is of the tokenized prompt. -/
theorem plan_prompt {cfg : Config} {lm : LoadedModel σ η γ} {rp : ReplayPlan} {pl : Plan}
    (h : plan cfg lm rp = .ok pl) : promptOf lm rp = .ok pl.prompt := by
  unfold plan at h
  cases hp : promptOf lm rp with
  | error e => rw [hp] at h; cases h
  | ok prompt =>
    rw [hp] at h
    dsimp only at h
    split at h
    · cases h
    · split at h
      · cases h
      · exact congrArg Except.ok (Except.ok.inj h ▸ rfl)

/-- The parked session an admission resumes, and by which tier. -/
def resumed (H : Host σ η γ) (cfg : Config) (env : AdmitEnv) (p : Pools σ η) (nActive : ℕ)
    (req : Request) : Option (SpecTier × SpecReuseEntry σ η) :=
  match plan cfg (H.loaded req.model) req.toReplayPlan with
  | .error _ => none
  | .ok pl =>
    if req.grammar = none ∧ specEligible cfg (H.loaded req.model) nActive req.samplerCfg false ∧
        (admitReuse cfg (req.model, req.cacheNs) pl p).1.isNone then
      specTier cfg (H.loaded req.model) env req pl (p.specReuse (req.model, req.cacheNs))
    else none

theorem compileGrammar_some {lm : LoadedModel σ η γ} {spec : GrammarSpec} {c : Option γ}
    (h : compileGrammar lm (some spec) = .ok c) : c.isSome := by
  unfold compileGrammar at h
  dsimp only at h
  split at h
  · cases h
  · split at h
    · cases h
    · exact Except.ok.inj h ▸ rfl

/-- **A resume** is the admission of the entry's session with what its tier leaves to prime. -/
theorem admitRequest_resumed {H : Host σ η γ} {cfg : Config} {env : AdmitEnv} {p : Pools σ η}
    {nActive : ℕ} {req : Request} {r : SpecTier × SpecReuseEntry σ η}
    (h : resumed H cfg env p nActive req = some r) :
    ∃ pl p', plan cfg (H.loaded req.model) req.toReplayPlan = .ok pl ∧ req.grammar = none ∧
      r.2 ∈ p.specReuse (req.model, req.cacheNs) ∧ TierMatch req pl r.2 r.1 ∧
      admitRequest H cfg env p nActive req =
        (.ok (mkSession (H.loaded req.model) req pl none none none false
          (tierChoice (H.loaded req.model) req r) none), p') := by
  unfold resumed at h
  cases hpl : plan cfg (H.loaded req.model) req.toReplayPlan with
  | error e => rw [hpl] at h; cases h
  | ok pl =>
    rw [hpl] at h
    dsimp only at h
    split at h
    · rename_i hc
      obtain ⟨hg, hel, hre⟩ := hc
      obtain ⟨hmem, hmatch⟩ := specTier_some h
      have hre' : (admitReuse cfg (req.model, req.cacheNs) pl p).1 = none :=
        Option.isNone_iff_eq_none.1 hre
      have hs := admitReuse_specReuse cfg (req.model, req.cacheNs) pl p
      cases hq : admitReuse cfg (req.model, req.cacheNs) pl p with
      | mk re p₁ =>
        rw [hq] at hre' hs
        obtain rfl : re = none := hre'
        dsimp only at hs
        rw [← hs] at h
        have hch := admitSpec_resumed h (k := (req.model, req.cacheNs)) (p := p₁)
        refine ⟨pl, (admitSpec cfg (H.loaded req.model) env req (req.model, req.cacheNs) pl false
          p₁).2, rfl, hg, hmem, hmatch, ?_⟩
        unfold admitRequest
        simp only [hpl, hq, hg, compileGrammar, Option.isSome_none, hel, admitPrefix_eligible,
          Option.map_none, Option.getD_none, and_self, if_true]
        rw [hch, admitCache_spec _ _ _ _ (by rfl)]
    · cases h

/-- What an accepted admission built its session from: the choice of `admitSpec`, made without a
resumed plain session, or none. -/
theorem admitRequest_ok {H : Host σ η γ} {cfg : Config} {env : AdmitEnv} {p p' : Pools σ η}
    {nActive : ℕ} {req : Request} {s : Session σ η γ}
    (h : admitRequest H cfg env p nActive req = (.ok s, p')) :
    ∃ pl c re snapshotAt seedPrefix choice cache,
      plan cfg (H.loaded req.model) req.toReplayPlan = .ok pl ∧
      compileGrammar (H.loaded req.model) req.grammar = .ok c ∧
      s = mkSession (H.loaded req.model) req pl c re snapshotAt seedPrefix choice cache ∧
      ((∃ p₁ : Pools σ η, p₁.specReuse = p.specReuse ∧ re = none ∧
          (admitReuse cfg (req.model, req.cacheNs) pl p).1 = none ∧
          specEligible cfg (H.loaded req.model) nActive req.samplerCfg c.isSome = true ∧
          choice = (admitSpec cfg (H.loaded req.model) env req (req.model, req.cacheNs) pl
            c.isSome p₁).1 ∧
          p'.specReuse = (admitSpec cfg (H.loaded req.model) env req (req.model, req.cacheNs) pl
            c.isSome p₁).2.specReuse) ∨
        (choice = {} ∧ p'.specReuse = p.specReuse)) := by
  unfold admitRequest at h
  cases hpl : plan cfg (H.loaded req.model) req.toReplayPlan with
  | error e =>
    simp only [hpl] at h
    cases h
  | ok pl =>
    have hs := admitReuse_specReuse cfg (req.model, req.cacheNs) pl p
    cases hq : admitReuse cfg (req.model, req.cacheNs) pl p with
    | mk re p₁ =>
      rw [hq] at hs
      dsimp only at hs
      cases hc : compileGrammar (H.loaded req.model) req.grammar with
      | error e =>
        simp only [hpl, hq, hc] at h
        cases h
      | ok c =>
        simp only [hpl, hq, hc] at h
        generalize hel : specEligible cfg (H.loaded req.model) nActive req.samplerCfg c.isSome = el
          at h
        have hx := admitPrefix_specReuse cfg env (req.model, req.cacheNs) pl p₁ re el
        cases hq₂ : admitPrefix cfg env (req.model, req.cacheNs) pl p₁ re el with
        | mk out p₂ =>
          obtain ⟨re₂, snap, seed⟩ := out
          rw [hq₂] at hx
          dsimp only at hx
          simp only [hq₂] at h
          by_cases hif : el = true ∧ (re₂.map (·.fed)).getD [] = []
          · -- eligible: the prefix cache stood aside
            rw [if_pos hif] at h
            obtain ⟨rfl, hfed⟩ := hif
            rw [admitPrefix_eligible] at hq₂
            obtain ⟨h1, rfl⟩ := Prod.mk.inj hq₂
            obtain ⟨rfl, -⟩ := Prod.mk.inj h1
            have hnone : re = none := by
              cases re with
              | none => rfl
              | some e => exact absurd hfed (admitReuse_fed (by rw [hq]))
            have hcs := admitCache_specReuse (H.loaded req.model) env pl
              (admitSpec cfg (H.loaded req.model) env req (req.model, req.cacheNs) pl c.isSome p₁).2
              (admitSpec cfg (H.loaded req.model) env req (req.model, req.cacheNs) pl
                c.isSome p₁).1.spec (re.map (·.cache))
            cases hac : admitCache (H.loaded req.model) env pl
                (admitSpec cfg (H.loaded req.model) env req (req.model, req.cacheNs) pl
                  c.isSome p₁).2
                (admitSpec cfg (H.loaded req.model) env req (req.model, req.cacheNs) pl
                  c.isSome p₁).1.spec (re.map (·.cache)) with
            | mk res p₃ =>
              rw [hac] at h hcs
              cases res with
              | error e => cases h
              | ok cache =>
                obtain ⟨h1, rfl⟩ := Prod.mk.inj h
                obtain rfl := Except.ok.inj h1
                exact ⟨pl, c, re, _, _, _, cache, rfl, rfl, rfl,
                  .inl ⟨p₁, hs, hnone, by rw [hq, hnone], hel, rfl, hcs⟩⟩
          · rw [if_neg hif] at h
            have hcs := admitCache_specReuse (H.loaded req.model) env pl p₂
              (none : Option (SpecCaches σ η)) (re₂.map (·.cache))
            cases hac : admitCache (H.loaded req.model) env pl p₂
                (none : Option (SpecCaches σ η)) (re₂.map (·.cache)) with
            | mk res p₃ =>
              rw [hac] at h hcs
              cases res with
              | error e => cases h
              | ok cache =>
                obtain ⟨h1, rfl⟩ := Prod.mk.inj h
                obtain rfl := Except.ok.inj h1
                exact ⟨pl, c, re₂, snap, seed, {}, cache, rfl, rfl, rfl,
                  .inr ⟨rfl, hcs.trans (hx.trans hs)⟩⟩

/-- The parked sessions of every other model and namespace stay where they are. -/
theorem admitRequest_other {H : Host σ η γ} {cfg : Config} {env : AdmitEnv} {p p' : Pools σ η}
    {nActive : ℕ} {req : Request} {s : Session σ η γ}
    (h : admitRequest H cfg env p nActive req = (.ok s, p')) {k : PoolKey}
    (hk : k ≠ (req.model, req.cacheNs)) : p'.specReuse k = p.specReuse k := by
  obtain ⟨pl, c, re, _, _, choice, cache, -, -, -, hch⟩ := admitRequest_ok h
  cases hch with
  | inl hch =>
    obtain ⟨p₁, hs, -, -, -, -, hp'⟩ := hch
    rw [hp', admitSpec_other _ _ _ _ _ _ _ _ hk, hs]
  | inr hch => rw [hch.2]

/-- **Without a resume** a speculative session is a fresh one that primes the whole prompt. -/
theorem admitRequest_fresh {H : Host σ η γ} {cfg : Config} {env : AdmitEnv} {p p' : Pools σ η}
    {nActive : ℕ} {req : Request} {s : Session σ η γ}
    (hr : resumed H cfg env p nActive req = none)
    (h : admitRequest H cfg env p nActive req = (.ok s, p')) {caches : SpecCaches σ η}
    (hs : s.spec = some caches) :
    caches.sess = newSession (H.loaded req.model).E.T ∧
      promptOf (H.loaded req.model) req.toReplayPlan = .ok s.prefillQueue := by
  obtain ⟨pl, c, re, _, _, choice, cache, hpl, hc, rfl, hch⟩ := admitRequest_ok h
  cases hch with
  | inr hch =>
    rw [hch.1] at hs
    cases hs
  | inl hch =>
    obtain ⟨p₁, hsp, rfl, hre, hel, rfl, -⟩ := hch
    have hno : c.isSome = true ∨ specTier cfg (H.loaded req.model) env req pl
        (p₁.specReuse (req.model, req.cacheNs)) = none := by
      cases hg : req.grammar with
      | some spec => exact .inl (compileGrammar_some (hg ▸ hc))
      | none =>
        right
        have hcn : c = none := by
          rw [hg] at hc
          exact (Except.ok.inj hc).symm
        unfold resumed at hr
        rw [hpl] at hr
        dsimp only at hr
        rw [if_pos ⟨hg, by rwa [hcn] at hel, by rw [hre]; rfl⟩] at hr
        rw [hsp, hr]
    obtain ⟨h0, htx, hnew⟩ := admitSpec_fresh hno
    refine ⟨hnew caches hs, ?_⟩
    have hprompt := plan_prompt hpl
    rw [hprompt]
    simp [mkSession, h0, htx]

/-! ## What a resume answers -/

/-- A parked session holds what it counts as committed, and its checkpoint the boundary it names. -/
structure ParkedHolds (T : Trunk σ η) (s : SpecSession σ η) : Prop where
  holds : s.cache.Holds T s.committed
  ckpt : ∀ ck, s.turnCkpt = some ck → CkptOk T s.committed ck

/-- `reuse_on`. -/
def reuseOn (cfg : Config) : Bool := !cfg.confidenceTrace && cfg.kvReuse

/-- `committed` and the queue after it make the prompt of a cold admission, in the view of the
tier: its tokens, or the text it tokenizes. -/
def OwnPrompt (lm : LoadedModel σ η γ) (req : Request) (e : SpecReuseEntry σ η)
    (committed queue : List Tok) : SpecTier → Prop
  | .token => promptOf lm req.toReplayPlan = .ok (committed ++ queue)
  | .text => committed = e.caches.sess.committed ∧ queue = lm.encode (textRest req e) false ∧
      coldText lm req.toReplayPlan = some (e.committedText ++ textRest req e)
  | .affinity => promptOf lm req.toReplayPlan = .ok (committed ++ queue) ∧ queue ≠ []

/-- A session resumed from the parked entry `e` by `tier`: the entry is one of the request's own
model and namespace, the request may reuse, the caches hold what they count as committed, and the
queue goes on with the request's own prompt. -/
structure Resumes (H : Host σ η γ) (cfg : Config) (p : Pools σ η) (req : Request)
    (s : Session σ η γ) (tier : SpecTier) (e : SpecReuseEntry σ η) : Prop where
  parked : e ∈ p.specReuse (req.model, req.cacheNs)
  unconstrained : req.grammar = none
  reusable : reuseOn cfg = true
  spec : s.spec =
    some { tierCaches e tier with sess := resetGraphFallback (tierCaches e tier).sess }
  holds : (tierCaches e tier).sess.cache.Holds (H.loaded req.model).E.T
    (tierCaches e tier).sess.committed
  own : OwnPrompt (H.loaded req.model) req e (tierCaches e tier).sess.committed s.prefillQueue tier

/-- What an admission may take from the spec pools: the session `resumed` names, as `Resumes` says,
or nothing, and never a session of another model or namespace. -/
def ResumeAnswers (H : Host σ η γ) (cfg : Config) (env : AdmitEnv) (p : Pools σ η) (nActive : ℕ)
    (req : Request) : Prop :=
  ∀ s p', admitRequest H cfg env p nActive req = (.ok s, p') →
    (∀ k, k ≠ (req.model, req.cacheNs) → p'.specReuse k = p.specReuse k) ∧
    (∀ tier e, resumed H cfg env p nActive req = some (tier, e) → Resumes H cfg p req s tier e) ∧
    (resumed H cfg env p nActive req = none → ∀ caches, s.spec = some caches →
      caches.sess = newSession (H.loaded req.model).E.T ∧
        promptOf (H.loaded req.model) req.toReplayPlan = .ok s.prefillQueue)

/-- A rewind goes back to the state of its checkpoint. -/
theorem ParkedHolds.tier {T : Trunk σ η} {e : SpecReuseEntry σ η}
    (h : ParkedHolds T e.caches.sess) (tier : SpecTier) :
    (tierCaches e tier).sess.cache.Holds T (tierCaches e tier).sess.committed := by
  cases tier with
  | token => exact h.holds
  | text => exact h.holds
  | affinity =>
    unfold tierCaches specRewindToCheckpoint
    dsimp only
    cases hck : e.caches.sess.turnCkpt with
    | none => exact h.holds
    | some ck =>
      obtain ⟨-, -, hsnap, -⟩ := h.ckpt ck hck
      exact hsnap

/-- The text that the text tier compares is the whole prompt text. -/
theorem committedText_rest {req : Request} {e : SpecReuseEntry σ η}
    (h : e.committedText.toList <+: req.promptText.toList) :
    e.committedText ++ textRest req e = req.promptText := by
  obtain ⟨rest, hrest⟩ := h
  apply String.toList_injective
  rw [String.toList_append, textRest, String.toList_ofList, ← hrest, List.drop_left]

/-- The queue of a resumed session. -/
theorem mkSession_tier_queue (lm : LoadedModel σ η γ) (req : Request) (pl : Plan)
    (tier : SpecTier) (e : SpecReuseEntry σ η) :
    (mkSession lm req pl none none none false (tierChoice lm req (tier, e)) none).prefillQueue =
      match tierSuffix lm req e tier with
      | some ts => ts
      | none => pl.prompt.drop (tierCaches e tier).sess.committed.length := by
  unfold mkSession tierChoice
  dsimp only
  cases tierSuffix lm req e tier with
  | some ts => rfl
  | none =>
    dsimp only
    by_cases h0 : 0 < (tierCaches e tier).sess.committed.length
    · rw [if_pos h0]
    · rw [if_neg h0, Nat.eq_zero_of_not_pos h0]
      simp

/-- What was matched and what is left make the prompt, in every tier. -/
theorem ownPrompt_iff {lm : LoadedModel σ η γ} {req : Request} {pl : Plan} {tier : SpecTier}
    {e : SpecReuseEntry σ η} (hp : promptOf lm req.toReplayPlan = .ok pl.prompt)
    (hm : TierMatch req pl e tier) :
    OwnPrompt lm req e (tierCaches e tier).sess.committed
        (mkSession lm req pl none none none false (tierChoice lm req (tier, e)) none).prefillQueue
        tier ↔
      (tier = .text → coldText lm req.toReplayPlan = some req.promptText) := by
  rw [mkSession_tier_queue]
  cases tier with
  | token =>
    obtain ⟨rest, hrest⟩ := hm
    simp [OwnPrompt, tierSuffix, tierCaches, hp, ← hrest]
  | text => simp [OwnPrompt, tierSuffix, tierCaches, committedText_rest hm]
  | affinity =>
    obtain ⟨ck, hck, ⟨rest, hrest⟩, hlen, h0, hlt⟩ := hm
    have hc : (tierCaches e .affinity).sess.committed = e.caches.sess.committed.take ck.pos := by
      simp [tierCaches, specRewindToCheckpoint, hck]
    have hne : rest ≠ [] := by
      rintro rfl
      rw [List.append_nil] at hrest
      rw [← hrest, hlen] at hlt
      exact Nat.lt_irrefl _ hlt
    simp [OwnPrompt, tierSuffix, hc, hp, ← hrest, hne]

/-- A resume is as `Resumes` says exactly when the request may reuse and the text tier has compared
the text that is tokenized. -/
theorem resumes_iff {H : Host σ η γ} {cfg : Config} {env : AdmitEnv} {p p' : Pools σ η}
    {nActive : ℕ} {req : Request} {s : Session σ η γ} {tier : SpecTier} {e : SpecReuseEntry σ η}
    (hp : ∀ e ∈ p.specReuse (req.model, req.cacheNs),
      ParkedHolds (H.loaded req.model).E.T e.caches.sess)
    (hr : resumed H cfg env p nActive req = some (tier, e))
    (hs : admitRequest H cfg env p nActive req = (.ok s, p')) :
    Resumes H cfg p req s tier e ↔ reuseOn cfg = true ∧
      (tier = .text → coldText (H.loaded req.model) req.toReplayPlan = some req.promptText) := by
  obtain ⟨pl, p₁, hpl, hg, hmem, hmatch, hadm⟩ := admitRequest_resumed hr
  obtain ⟨h1, -⟩ := Prod.mk.inj (hadm.symm.trans hs)
  obtain rfl := Except.ok.inj h1
  have hown := ownPrompt_iff (plan_prompt hpl) hmatch
  constructor
  · intro h
    exact ⟨h.reusable, hown.1 h.own⟩
  · intro h
    exact ⟨hmem, hg, h.1, rfl, (hp e hmem).tier tier, hown.2 h.2⟩

/-- **A spec-pool resume answers the request's own prompt** exactly when the request may reuse at
all and, taken by the text tier, is tokenized from its raw prompt text. -/
theorem resumeAnswers_iff (H : Host σ η γ) (cfg : Config) (env : AdmitEnv) (p : Pools σ η)
    (nActive : ℕ) (req : Request)
    (hp : ∀ e ∈ p.specReuse (req.model, req.cacheNs),
      ParkedHolds (H.loaded req.model).E.T e.caches.sess) :
    ResumeAnswers H cfg env p nActive req ↔
      ∀ tier e, resumed H cfg env p nActive req = some (tier, e) → reuseOn cfg = true ∧
        (tier = .text → coldText (H.loaded req.model) req.toReplayPlan = some req.promptText) := by
  constructor
  · intro h tier e hr
    obtain ⟨pl, p', -, -, -, -, hadm⟩ := admitRequest_resumed hr
    exact (resumes_iff hp hr hadm).1 ((h _ _ hadm).2.1 tier e hr)
  · intro h s p' hs
    exact ⟨fun k hk => admitRequest_other hs hk,
      fun tier e hr => (resumes_iff hp hr hs).2 (h tier e hr),
      fun hr caches hc => admitRequest_fresh hr hs hc⟩

/-! ## A parked raw prompt by example -/

/-- A model over `listEngine` that encodes characters and has a one-line chat template. -/
def charModel : LoadedModel (List Tok) (List Tok) Unit where
  E := listEngine
  vocab_pos := by decide
  head _ _ _ := [0, 1]
  gumbel _ _ _ row := argmax row
  mtp := true
  eosId := 1
  encode text _ := text.toList.map Char.toNat
  applyChatTemplate msgs := "u:" ++ ((msgs.map (·.2)).headD "")
  applyChatTemplateTools _ _ _ _ := .error "no template"
  decodeSpecial toks := String.ofList (toks.map Char.ofNat)
  deltaText _ cursor := ("", cursor)
  fullText _ := ""
  grammar := { allowed := fun _ _ => true, advance := fun c _ => c }
  matcher _ := .ok ()

def charHost : Host (List Tok) (List Tok) Unit where
  order := ["m"]
  loaded _ := charModel
  chain _ row := argmax row

/-- A session parked by the raw prompt `ab`. -/
def parkedAb : SpecReuseEntry (List Tok) (List Tok) where
  caches := {
    sess := { cache := { st := [97, 98], pos := 2 }, committed := [97, 98] }
    maxCtx := 8192 }
  committedText := "ab"
  affinity := none
  fingerprint := []

def abPools : Pools (List Tok) (List Tok) where
  specReuse _ := [parkedAb]

/-- The prompt `abc`, raw or through the chat template. -/
def abcRequest (chat : Bool) : Request where
  promptText := "abc"
  chat
  params := { maxNew := 1 }
  model := "m"

theorem abPools_holds (req : Request) : ∀ e ∈ abPools.specReuse (req.model, req.cacheNs),
    ParkedHolds (charHost.loaded req.model).E.T e.caches.sess := by
  intro e he
  obtain rfl := List.mem_singleton.1 he
  exact ⟨⟨rfl, rfl⟩, fun ck hck => by cases hck⟩

theorem resumed_rendered :
    resumed charHost {} {} abPools 0 (abcRequest true) = some (.text, parkedAb) := rfl

theorem resumed_raw :
    resumed charHost {} {} abPools 0 (abcRequest false) = some (.token, parkedAb) := rfl

/-- The raw prompt goes on from the parked one. -/
theorem resumeAnswers_raw : ResumeAnswers charHost {} {} abPools 0 (abcRequest false) :=
  (resumeAnswers_iff charHost {} {} abPools 0 (abcRequest false) (abPools_holds _)).2
    fun tier e hr => by
      obtain ⟨rfl, rfl⟩ := Prod.mk.inj (Option.some.inj (resumed_raw.symm.trans hr))
      exact ⟨rfl, fun h => by cases h⟩

/-- The rendered one, which a cold admission tokenizes as `u:abc`, resumes the raw `ab` too. -/
theorem resumeAnswers_rendered_fails :
    (∀ e ∈ abPools.specReuse ("m", ""), ParkedHolds charModel.E.T e.caches.sess) ∧
      ¬ ResumeAnswers charHost {} {} abPools 0 (abcRequest true) := by
  refine ⟨abPools_holds (abcRequest true), fun h => ?_⟩
  obtain ⟨pl, p', -, -, -, -, hadm⟩ := admitRequest_resumed resumed_rendered
  have hres := (h _ _ hadm).2.1 .text parkedAb resumed_rendered
  have htext := ((resumes_iff (abPools_holds _) resumed_rendered hadm).1 hres).2 rfl
  have hcold : coldText charModel (abcRequest true).toReplayPlan = some "u:abc" := rfl
  exact absurd (Option.some.inj (hcold.symm.trans htext)) (by decide)

end Memra
