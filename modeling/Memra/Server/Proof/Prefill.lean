import Memra.Server.Prefill
import Memra.Server.Proof.PrefixCacheRun
import Memra.Server.Proof.SpecResume

/-!
# Prefill feeds the prompt once

`Feeding`: what is fed and what is queued make up the prompt, and the boundary, while it stands, lies ahead
of `fed` and inside the prompt. A tick keeps it (`prefillTick_ok`) and asks of the engine only what
`TickOk` says: a chunk that can be primed, within the budget, never across the boundary.
`prefillRun_ok` is the run.
-/

namespace Memra

open Prefill

variable {σ η γ : Type}

/-! ## The chunk's size -/

theorem takeOf_eager {q budget : ℕ} : takeOf true q budget none = q := by
  simp [takeOf]

/-- The short tail does not change a chunk within the budget. -/
theorem takeOf_normal {q budget : ℕ} {rem : Option ℕ} :
    takeOf false q budget rem =
      rem.elim (min q budget) fun r =>
        if r ≤ min q budget then r
        else if r - min q budget < primeMinT then max (r - primeMinT) primeMinT
        else min q budget := by
  have htail : (if 0 < q - min q budget ∧ q - min q budget < primeMinT then
      if q ≤ budget then q else min q budget else min q budget) = min q budget := by
    split
    · split
      · omega
      · rfl
    · rfl
  simp only [takeOf, Bool.false_eq_true, if_false, htail]
  cases rem with
  | none => rfl
  | some r => rfl

theorem takeOf_bounds {q budget : ℕ} {rem : Option ℕ} (hq : primeMinT ≤ q)
    (hbudget : primeMinT ≤ budget) (hrem : ∀ r, rem = some r → primeMinT ≤ r) :
    primeMinT ≤ takeOf false q budget rem ∧ takeOf false q budget rem ≤ q ∧
      takeOf false q budget rem ≤ budget ∧ ∀ r, rem = some r → takeOf false q budget rem ≤ r := by
  rw [takeOf_normal]
  cases rem with
  | none =>
    refine ⟨le_min hq hbudget, min_le_left _ _, min_le_right _ _, ?_⟩
    intro r hr
    cases hr
  | some r =>
    have hr := hrem r rfl
    simp only [Option.elim_some, Option.some.injEq, forall_eq']
    unfold primeMinT at *
    split
    · omega
    · split
      · omega
      · omega

/-! ## What a tick leaves alone -/

theorem prefixInsert_s (cfg : Config) (env : TickEnv) (t : Prefill σ η γ) (why : String) :
    (t.prefixInsertFromSession cfg env why).s = t.s := by
  unfold prefixInsertFromSession
  split
  · rfl
  · split
    · rfl
    · rfl

theorem prefixInsert_calls (cfg : Config) (env : TickEnv) {t : Prefill σ η γ} (why : String)
    (hcache : t.s.cache.isSome) (hlogits : t.s.lastLogits ≠ []) :
    (t.prefixInsertFromSession cfg env why).calls = t.calls ++ [.insertPrefix t.s.fed why] := by
  unfold prefixInsertFromSession
  split
  · rename_i hnone
    rw [hnone] at hcache
    cases hcache
  · rw [if_neg hlogits]

theorem maybePrefixSeed_s (cfg : Config) (env : TickEnv) (t : Prefill σ η γ) :
    ∃ seed, (t.maybePrefixSeed cfg env).s = { t.s with seedPrefix := seed } := by
  unfold maybePrefixSeed
  split
  · refine ⟨false, ?_⟩
    simp only []
    split
    · rfl
    · split
      · rfl
      · rw [prefixInsert_s]
  · exact ⟨t.s.seedPrefix, rfl⟩

theorem maybePrefixSeed_calls (cfg : Config) (env : TickEnv) (t : Prefill σ η γ) :
    ∃ extra, (t.maybePrefixSeed cfg env).calls = t.calls ++ extra ∧
      ∀ c ∈ extra, c = .insertPrefix t.s.fed "seed" := by
  have hnone : ∃ extra, t.calls = t.calls ++ extra ∧
      ∀ c ∈ extra, c = PrefillCall.insertPrefix t.s.fed "seed" := ⟨[], by simp, by simp⟩
  unfold maybePrefixSeed
  split
  · simp only []
    split
    · exact hnone
    · split
      · exact hnone
      · unfold prefixInsertFromSession
        split
        · exact hnone
        · split
          · exact hnone
          · exact ⟨[_], rfl, by simp⟩
  · exact hnone

/-! ## The feed of one tick -/

/-- No failure of the engine or of the trace file. -/
structure TickEnv.Sound (env : TickEnv) : Prop where
  prime : env.primeErr = none
  step : env.stepErr = none
  trace : env.traceErr = none

/-- From `s` to `s'` exactly `toks` went from the queue through the engine and the sampler. -/
structure Fed (T : Trunk σ η) (s : Session σ η γ) (toks : List Tok) (s' : Session σ η γ) :
    Prop where
  fed : s'.fed = s.fed ++ toks
  queue : s.prefillQueue = toks ++ s'.prefillQueue
  cache : s'.cache = s.cache.map (·.feed T toks)
  sampler : s'.sampler = s.sampler.accept toks

theorem KvCache.feed_nil (T : Trunk σ η) (c : KvCache σ) : c.feed T [] = c := rfl

theorem KvCache.feed_append (T : Trunk σ η) (c : KvCache σ) (xs ys : List Tok) :
    c.feed T (xs ++ ys) = (c.feed T xs).feed T ys := by
  simp [KvCache.feed, Cache.feed, Nat.add_assoc]

theorem Fed.refl (T : Trunk σ η) (s : Session σ η γ) : Fed T s [] s := by
  refine ⟨by simp, rfl, ?_, ?_⟩
  · cases s.cache with
    | none => rfl
    | some c => rfl
  · simp [Sampler.accept]

theorem Fed.trans {T : Trunk σ η} {s s' s'' : Session σ η γ} {xs ys : List Tok}
    (h : Fed T s xs s') (h' : Fed T s' ys s'') : Fed T s (xs ++ ys) s'' := by
  refine ⟨?_, ?_, ?_, ?_⟩
  · rw [h'.fed, h.fed, List.append_assoc]
  · rw [h.queue, h'.queue, List.append_assoc]
  · rw [h'.cache, h.cache, Option.map_map]
    exact congrArg (fun f => s.cache.map f) (funext fun c => (c.feed_append T xs ys).symm)
  · rw [h'.sampler, h.sampler]
    simp [Sampler.accept]

/-- What the feed of a tick does: one call to the engine, on the next tokens of the queue. -/
structure FeedOk (lm : LoadedModel σ η γ) (env : TickEnv) (s : Session σ η γ) (budget : ℕ)
    (call : PrefillCall) (out : ℕ × Option String × Prefill σ η γ) : Prop where
  calls : out.2.2.calls = [call]
  feeds : call.toks ≠ []
  consumed : out.1 = call.toks.length
  queue : s.prefillQueue = call.toks ++ out.2.2.s.prefillQueue
  bound : ∀ b, s.snapshotAt = some b → s.fed.length + call.toks.length ≤ b
  chunk : ∀ chunk k, call = .primeCache chunk k →
    primeMinT ≤ chunk.length ∧ k = out.2.2.s.prefillQueue.length
  budget : lm.eagerOnly = false → ∀ chunk k, call = .primeCache chunk k → chunk.length ≤ budget
  whole : lm.eagerOnly = true → ∀ chunk k, call = .primeCache chunk k → k = 0
  ok : out.2.1 = none → Fed lm.E.T s call.toks out.2.2.s ∧ out.2.2.s.lastLogits ≠ [] ∧
    out.2.2.s.snapshotAt = s.snapshotAt ∧ out.2.2.s.prefillDone = s.prefillDone
  err : ∀ e, out.2.1 = some e → out.2.2.s.fed = s.fed ∧ ¬ env.Sound

theorem row_ne_nil (lm : LoadedModel σ η γ) (st : σ) : lm.E.T.row st ≠ [] := by
  intro hnil
  have hlength : (lm.E.T.row st).length = lm.E.T.vocab := by
    rw [Trunk.row, List.length_map, lm.E.T.logits_length]
  rw [hnil] at hlength
  exact lm.vocab_pos.ne hlength

section

variable {lm : LoadedModel σ η γ} {cfg : Config} {env : TickEnv} {s : Session σ η γ}
  {px : PrefixCache PoolKey (Snapshot σ)}

/-- A chunk of `take` tokens, whether or not it fails. -/
theorem feedOk_prime {take budget : ℕ} {out : ℕ × Option String × Prefill σ η γ}
    (hmin : primeMinT ≤ take) (hqueue : take ≤ s.prefillQueue.length)
    (hbudget : lm.eagerOnly = false → take ≤ budget)
    (hwhole : lm.eagerOnly = true → take = s.prefillQueue.length)
    (hbound : ∀ b, s.snapshotAt = some b → s.fed.length + take ≤ b)
    (hout : out.1 = take)
    (hcalls : out.2.2.calls =
      [.primeCache (s.prefillQueue.take take) (s.prefillQueue.drop take).length])
    (hrest : out.2.2.s.prefillQueue = s.prefillQueue.drop take)
    (hok : out.2.1 = none →
      Fed lm.E.T s (s.prefillQueue.take take) out.2.2.s ∧ out.2.2.s.lastLogits ≠ [] ∧
        out.2.2.s.snapshotAt = s.snapshotAt ∧ out.2.2.s.prefillDone = s.prefillDone)
    (herr : ∀ e, out.2.1 = some e → out.2.2.s.fed = s.fed ∧ ¬ env.Sound) :
    FeedOk lm env s budget
      (.primeCache (s.prefillQueue.take take) (s.prefillQueue.drop take).length) out := by
  have hlength : (s.prefillQueue.take take).length = take := List.length_take_of_le hqueue
  refine ⟨hcalls, ?_, hout.trans hlength.symm, ?_, ?_, ?_, ?_, ?_, hok, herr⟩
  · intro hnil
    rw [PrefillCall.toks] at hnil
    rw [hnil, List.length_nil] at hlength
    rw [← hlength] at hmin
    exact absurd hmin (by decide)
  · rw [hrest, PrefillCall.toks, List.take_append_drop]
  · intro b hb
    rw [PrefillCall.toks, hlength]
    exact hbound b hb
  · intro chunk k hk
    cases hk
    exact ⟨hlength.symm ▸ hmin, by rw [hrest]⟩
  · intro he chunk k hk
    cases hk
    exact hlength.symm ▸ hbudget he
  · intro he chunk k hk
    cases hk
    simp [hwhole he]

theorem primeChunk_ok {take budget : ℕ} (hcache : s.cache.isSome)
    (hmin : primeMinT ≤ take) (hqueue : take ≤ s.prefillQueue.length)
    (hbudget : lm.eagerOnly = false → take ≤ budget)
    (hwhole : lm.eagerOnly = true → take = s.prefillQueue.length)
    (hbound : ∀ b, s.snapshotAt = some b → s.fed.length + take ≤ b) :
    FeedOk lm env s budget
      (.primeCache (s.prefillQueue.take take) (s.prefillQueue.drop take).length)
      (take, primeChunk lm env take { s, px }) := by
  obtain ⟨cache, hcache⟩ := Option.isSome_iff_exists.1 hcache
  by_cases herr : env.primeErr.isSome
  · have hout : primeChunk lm env take { s, px } =
        (env.primeErr, { s := { s with prefillQueue := s.prefillQueue.drop take }, px
                         calls := [.primeCache (s.prefillQueue.take take)
                          (s.prefillQueue.drop take).length] }) := by
      simp only [primeChunk, hcache, if_pos herr, List.nil_append]
    rw [hout]
    refine feedOk_prime hmin hqueue hbudget hwhole hbound rfl rfl rfl ?_ ?_
    · intro hnone
      rw [show env.primeErr = none from hnone] at herr
      cases herr
    · intro e he
      refine ⟨rfl, fun hsound => ?_⟩
      rw [hsound.prime] at herr
      cases herr
  · have hout : primeChunk lm env take { s, px } =
        (none,
          { s := { s with
              prefillQueue := s.prefillQueue.drop take
              cache := some (cache.feed lm.E.T (s.prefillQueue.take take))
              lastLogits := lm.E.T.row (cache.feed lm.E.T (s.prefillQueue.take take)).st
              fed := s.fed ++ s.prefillQueue.take take
              sampler := s.sampler.accept (s.prefillQueue.take take) }
            px
            calls := [.primeCache (s.prefillQueue.take take)
              (s.prefillQueue.drop take).length] }) := by
      simp only [primeChunk, hcache, if_neg herr, List.nil_append]
    rw [hout]
    refine feedOk_prime hmin hqueue hbudget hwhole hbound rfl rfl rfl ?_ nofun
    intro _
    refine ⟨⟨rfl, (List.take_append_drop _ _).symm, ?_, rfl⟩, row_ne_nil lm _, rfl, rfl⟩
    rw [hcache]
    rfl

/-- One token, whether or not it fails. -/
theorem feedOk_step {budget : ℕ} {tok : Tok} {queue : List Tok}
    {out : ℕ × Option String × Prefill σ η γ}
    (hqueue : s.prefillQueue = tok :: queue)
    (hbound : ∀ b, s.snapshotAt = some b → s.fed.length < b)
    (hout : out.1 = 1) (hcalls : out.2.2.calls = [.decodeStep tok])
    (hrest : out.2.2.s.prefillQueue = queue)
    (hok : out.2.1 = none →
      Fed lm.E.T s [tok] out.2.2.s ∧ out.2.2.s.lastLogits ≠ [] ∧
        out.2.2.s.snapshotAt = s.snapshotAt ∧ out.2.2.s.prefillDone = s.prefillDone)
    (herr : ∀ e, out.2.1 = some e → out.2.2.s.fed = s.fed ∧ ¬ env.Sound) :
    FeedOk lm env s budget (.decodeStep tok) out := by
  refine ⟨hcalls, List.cons_ne_nil _ _, hout, ?_, hbound, nofun, nofun, nofun, hok, herr⟩
  rw [hqueue, hrest]
  rfl

theorem stepToken_ok {budget : ℕ} {tok : Tok} {queue : List Tok} (hcache : s.cache.isSome)
    (hqueue : s.prefillQueue = tok :: queue)
    (hbound : ∀ b, s.snapshotAt = some b → s.fed.length < b) :
    FeedOk lm env s budget (.decodeStep tok) (1, stepToken lm cfg env tok queue { s, px }) := by
  obtain ⟨cache, hcache⟩ := Option.isSome_iff_exists.1 hcache
  unfold stepToken
  simp only [hcache]
  split
  · rename_i herr
    refine feedOk_step hqueue hbound rfl rfl rfl ?_ ?_
    · intro hnone
      rw [show env.stepErr = none from hnone] at herr
      cases herr
    · intro e he
      refine ⟨rfl, fun hsound => ?_⟩
      rw [hsound.step] at herr
      cases herr
  · split
    · rename_i herr
      refine feedOk_step hqueue hbound rfl rfl rfl ?_ ?_
      · intro hnone
        rw [show env.traceErr = none from hnone] at herr
        cases herr.2.2
      · intro e he
        refine ⟨rfl, fun hsound => ?_⟩
        rw [hsound.trace] at herr
        cases herr.2.2
    · refine feedOk_step hqueue hbound rfl rfl rfl ?_ nofun
      intro _
      refine ⟨⟨rfl, hqueue, ?_, rfl⟩, row_ne_nil lm _, rfl, rfl⟩
      rw [hcache]
      rfl

/-- **The feed of a tick is one call to the engine**, within the budget and the boundary. -/
theorem feedTick_ok {budget : ℕ} {tok : Tok} {queue : List Tok} (hcache : s.cache.isSome)
    (hqueue : s.prefillQueue = tok :: queue)
    (hbound : ∀ b, s.snapshotAt = some b →
      s.fed.length < b ∧ b ≤ s.fed.length + s.prefillQueue.length)
    (heager : lm.eagerOnly = true → s.snapshotAt = none) :
    ∃ call, FeedOk lm env s budget call (feedTick lm cfg env s px budget tok queue) := by
  have hlength : s.prefillQueue.length = queue.length + 1 := by rw [hqueue, List.length_cons]
  unfold feedTick
  simp only []
  split
  · rename_i hprimes
    simp only [primes, Bool.and_eq_true, decide_eq_true_eq, Option.all_eq_true,
      Option.map_eq_some_iff] at hprimes
    obtain ⟨⟨⟨⟨-, hq⟩, hbudget⟩, -⟩, hrem⟩ := hprimes
    have hq : primeMinT ≤ queue.length + 1 := le_trans (le_max_left _ _) hq
    rw [← hlength] at hq ⊢
    cases he : lm.eagerOnly with
    | true =>
      rw [heager he, Option.map_none, takeOf_eager]
      refine ⟨_, primeChunk_ok hcache hq le_rfl ?_ (fun _ => rfl) ?_⟩
      · intro hfalse
        rw [he] at hfalse
        cases hfalse
      · intro b hb
        rw [heager he] at hb
        cases hb
    | false =>
      obtain ⟨hmin, hle, hwithin, hrem⟩ := @takeOf_bounds s.prefillQueue.length budget
        (s.snapshotAt.map (· - s.fed.length)) hq hbudget (by simpa using hrem)
      refine ⟨_, primeChunk_ok hcache hmin hle (fun _ => hwithin) ?_ ?_⟩
      · intro htrue
        rw [he] at htrue
        cases htrue
      · intro b hb
        have hr := hrem (b - s.fed.length) (by rw [hb]; rfl)
        have hlt := (hbound b hb).1
        omega
  · exact ⟨_, stepToken_ok hcache hqueue fun b hb => (hbound b hb).1⟩

end

/-! ## A tick -/

/-- `settle` without the seed. -/
def snapshotDue (cfg : Config) (env : TickEnv) (t : Prefill σ η γ) : Prefill σ η γ :=
  if t.s.snapshotAt = some t.s.fed.length then
    prefixInsertFromSession cfg env { t with s := { t.s with snapshotAt := none } } "lcp-split"
  else t

theorem snapshotDue_s (cfg : Config) (env : TickEnv) (t : Prefill σ η γ) :
    (snapshotDue cfg env t).s = { t.s with
      snapshotAt := if t.s.snapshotAt = some t.s.fed.length then none else t.s.snapshotAt } := by
  unfold snapshotDue
  split
  · rw [prefixInsert_s]
  · rfl

theorem settle_eq (cfg : Config) (env : TickEnv) (t : Prefill σ η γ) :
    t.settle cfg env =
      if t.s.prefillQueue = [] then
        maybePrefixSeed cfg env { snapshotDue cfg env t with
          s := { (snapshotDue cfg env t).s with prefillDone := true } }
      else snapshotDue cfg env t := by
  have hqueue : (snapshotDue cfg env t).s.prefillQueue = t.s.prefillQueue := by rw [snapshotDue_s]
  rw [← hqueue]
  rfl

theorem settle_s (cfg : Config) (env : TickEnv) (t : Prefill σ η γ) :
    ∃ seed, (t.settle cfg env).s = { t.s with
      snapshotAt := if t.s.snapshotAt = some t.s.fed.length then none else t.s.snapshotAt
      prefillDone := t.s.prefillDone || t.s.prefillQueue.isEmpty
      seedPrefix := seed } := by
  rw [settle_eq]
  split
  · rename_i hnil
    obtain ⟨seed, hseed⟩ := maybePrefixSeed_s cfg env { snapshotDue cfg env t with
      s := { (snapshotDue cfg env t).s with prefillDone := true } }
    refine ⟨seed, ?_⟩
    rw [hseed, snapshotDue_s, hnil]
    simp
  · rename_i hqueue
    refine ⟨t.s.seedPrefix, ?_⟩
    rw [snapshotDue_s, List.isEmpty_eq_false_iff.2 hqueue, Bool.or_false]

theorem settle_calls (cfg : Config) (env : TickEnv) {t : Prefill σ η γ}
    (hcache : t.s.cache.isSome) (hlogits : t.s.lastLogits ≠ []) :
    ∃ extra, (t.settle cfg env).calls = t.calls ++
        ((if t.s.snapshotAt = some t.s.fed.length then
          [.insertPrefix t.s.fed "lcp-split"] else []) ++ extra) ∧
      ∀ c ∈ extra, c = .insertPrefix t.s.fed "seed" := by
  have hdue : (snapshotDue cfg env t).calls = t.calls ++
      (if t.s.snapshotAt = some t.s.fed.length then
        [.insertPrefix t.s.fed "lcp-split"] else []) := by
    unfold snapshotDue
    split
    · exact prefixInsert_calls cfg env "lcp-split" hcache hlogits
    · rw [List.append_nil]
  rw [settle_eq]
  split
  · obtain ⟨extra, hextra, hseed⟩ := maybePrefixSeed_calls cfg env { snapshotDue cfg env t with
      s := { (snapshotDue cfg env t).s with prefillDone := true } }
    refine ⟨extra, ?_, ?_⟩
    · rw [hextra, hdue, List.append_assoc]
    · intro c hc
      rw [hseed c hc, snapshotDue_s]
  · exact ⟨[], by rw [hdue, List.append_nil], nofun⟩

/-- What is fed and what is queued, with the boundary `bound` of the admission. -/
structure Feeding (eager : Bool) (prompt : List Tok) (bound : Option ℕ) (s : Session σ η γ) :
    Prop where
  whole : s.fed ++ s.prefillQueue = prompt
  inside : ∀ b, s.snapshotAt = some b → s.fed.length < b ∧ b < prompt.length
  only : ∀ b, s.snapshotAt = some b → bound = some b
  kept : eager = false → ∀ b, bound = some b → s.fed.length < b → s.snapshotAt = some b
  cache : s.cache.isSome
  done : s.prefillDone = true → s.prefillQueue = []

/-- What a tick may ask for: the next tokens of the prompt, in chunks that can be primed and, for a
normal model, within the budget and up to the boundary; the snapshot where `fed` reaches the
boundary. An eager-only model primes the whole rest, and has no boundary. -/
structure TickOk (eager : Bool) (prompt : List Tok) (bound : Option ℕ) (r : TickRecord) :
    Prop where
  feeds : r.calls.flatMap PrefillCall.toks = (prompt.drop r.before).take
    (r.calls.flatMap PrefillCall.toks).length
  chunk : ∀ chunk k, .primeCache chunk k ∈ r.calls →
    primeMinT ≤ chunk.length ∧ r.before + chunk.length + k = prompt.length
  budget : eager = false → ∀ chunk k, .primeCache chunk k ∈ r.calls → chunk.length ≤ r.budget
  boundary : eager = false → ∀ b, bound = some b → r.before < b →
    ∀ chunk k, .primeCache chunk k ∈ r.calls → r.before + chunk.length ≤ b
  whole : eager = true → ∀ chunk k, .primeCache chunk k ∈ r.calls →
    r.before + chunk.length = prompt.length
  snapshot : (∃ toks, .insertPrefix toks "lcp-split" ∈ r.calls) ↔
    eager = false ∧ r.before < r.after ∧ bound = some r.after
  inserts : ∀ toks why, .insertPrefix toks why ∈ r.calls → toks = prompt.take r.after

section

variable {lm : LoadedModel σ η γ} {cfg : Config} {env : TickEnv} {s : Session σ η γ}
  {px : PrefixCache PoolKey (Snapshot σ)} {prompt : List Tok} {bound : Option ℕ}

theorem flatMap_toks {call : PrefillCall} {ins : List PrefillCall} {fed : List Tok}
    (hins : ∀ c ∈ ins, ∃ why, c = .insertPrefix fed why) :
    (call :: ins).flatMap PrefillCall.toks = call.toks := by
  have hnil : ins.flatMap PrefillCall.toks = [] := by
    rw [List.flatMap_eq_nil_iff]
    intro c hc
    obtain ⟨why, rfl⟩ := hins c hc
    rfl
  rw [List.flatMap_cons, hnil, List.append_nil]

/-- A tick that makes one call to the engine and then inserts what is fed. -/
theorem tickOk_of_feed {budget : ℕ} {call : PrefillCall} {out : ℕ × Option String × Prefill σ η γ}
    (hfeed : FeedOk lm env s budget call out) (hwhole : s.fed ++ s.prefillQueue = prompt)
    (hkept : lm.eagerOnly = false → ∀ b, bound = some b → s.fed.length < b → s.snapshotAt = some b)
    {ins : List PrefillCall} {fed : List Tok} (hins : ∀ c ∈ ins, ∃ why, c = .insertPrefix fed why)
    (hfed : fed = prompt.take fed.length)
    (hsnap : (∃ toks, .insertPrefix toks "lcp-split" ∈ ins) ↔
      lm.eagerOnly = false ∧ s.fed.length < fed.length ∧ bound = some fed.length) :
    TickOk lm.eagerOnly prompt bound
      { before := s.fed.length, budget, calls := call :: ins, after := fed.length } := by
  have hcall : ∀ chunk k, PrefillCall.primeCache chunk k ∈ call :: ins →
      call = .primeCache chunk k := by
    intro chunk k hmem
    rcases List.mem_cons.1 hmem with hmem | hmem
    · exact hmem.symm
    · obtain ⟨why, hwhy⟩ := hins _ hmem
      cases hwhy
  have hinsert : ∀ toks why, PrefillCall.insertPrefix toks why ∈ call :: ins ↔
      PrefillCall.insertPrefix toks why ∈ ins := by
    intro toks why
    refine ⟨fun hmem => ?_, List.mem_cons_of_mem _⟩
    rcases List.mem_cons.1 hmem with hmem | hmem
    · exact absurd (congrArg PrefillCall.toks hmem).symm hfeed.feeds
    · exact hmem
  have hrest : prompt.drop s.fed.length = call.toks ++ out.2.2.s.prefillQueue := by
    rw [← hwhole, List.drop_left, hfeed.queue]
  have hchunk : ∀ chunk k, call = .primeCache chunk k →
      primeMinT ≤ chunk.length ∧ s.fed.length + chunk.length + k = prompt.length := by
    intro chunk k hk
    obtain ⟨hmin, rfl⟩ := hfeed.chunk chunk k hk
    refine ⟨hmin, ?_⟩
    rw [← hwhole, hfeed.queue, hk, PrefillCall.toks, List.length_append, List.length_append,
      Nat.add_assoc]
  refine ⟨?_, ?_, ?_, ?_, ?_, ?_, ?_⟩
  · rw [flatMap_toks hins, hrest, List.take_left]
  · exact fun chunk k hmem => hchunk chunk k (hcall chunk k hmem)
  · exact fun he chunk k hmem => hfeed.budget he chunk k (hcall chunk k hmem)
  · intro he b hb hlt chunk k hmem
    have hle := hfeed.bound b (hkept he b hb hlt)
    rw [hcall chunk k hmem] at hle
    exact hle
  · intro he chunk k hmem
    have hk := hcall chunk k hmem
    rw [← (hchunk chunk k hk).2, hfeed.whole he chunk k hk, Nat.add_zero]
  · simp only [hinsert]
    exact hsnap
  · intro toks why hmem
    obtain ⟨_, hwhy⟩ := hins _ ((hinsert toks why).1 hmem)
    cases hwhy
    exact hfed

/-- A tick that finds the queue empty seeds the prefix cache at most. -/
theorem tickOk_of_empty {budget : ℕ} (hwhole : s.fed = prompt) {calls : List PrefillCall}
    (hcalls : ∀ c ∈ calls, c = .insertPrefix s.fed "seed") :
    TickOk lm.eagerOnly prompt bound
      { before := s.fed.length, budget, calls, after := s.fed.length } := by
  have hprime : ∀ chunk k, PrefillCall.primeCache chunk k ∉ calls := by
    intro chunk k hmem
    cases hcalls _ hmem
  have htoks : calls.flatMap PrefillCall.toks = [] := by
    rw [List.flatMap_eq_nil_iff]
    intro c hc
    rw [hcalls c hc]
    rfl
  refine ⟨by rw [htoks]; rfl, fun chunk k h => absurd h (hprime chunk k),
    fun _ chunk k h => absurd h (hprime chunk k), fun _ _ _ _ chunk k h => absurd h (hprime chunk k),
    fun _ chunk k h => absurd h (hprime chunk k), ?_, ?_⟩
  · refine ⟨fun ⟨toks, hmem⟩ => ?_, fun h => absurd h.2.1 (lt_irrefl _)⟩
    exact absurd (hcalls _ hmem) (by simp)
  · intro toks why hmem
    cases hcalls _ hmem
    rw [hwhole, List.take_length]

/-- What the feed of a tick leaves behind `settle`. -/
theorem feeding_settle (h : Feeding lm.eagerOnly prompt bound s) (hdone : s.prefillDone = false)
    {snapshotAt : Option ℕ} (hsnap : lm.eagerOnly = false → snapshotAt = s.snapshotAt)
    (hnone : lm.eagerOnly = true → snapshotAt = none) {toks : List Tok} (htoks : toks ≠ [])
    {t : Prefill σ η γ} (hfed : Fed lm.E.T s toks t.s)
    (hlive : ∀ b, snapshotAt = some b → s.fed.length + toks.length ≤ b)
    (hat : t.s.snapshotAt = snapshotAt) (hstill : t.s.prefillDone = s.prefillDone) :
    Feeding lm.eagerOnly prompt bound (t.settle cfg env).s := by
  obtain ⟨seed, hseed⟩ := settle_s cfg env t
  have hlength : t.s.fed.length = s.fed.length + toks.length := by rw [hfed.fed, List.length_append]
  have hpos : 0 < toks.length := List.length_pos_iff.2 htoks
  have hold : ∀ b, snapshotAt = some b → s.snapshotAt = some b := by
    intro b hb
    cases he : lm.eagerOnly with
    | false => rw [← hsnap he, hb]
    | true =>
      rw [hnone he] at hb
      cases hb
  have hkeep : ∀ b, (if t.s.snapshotAt = some t.s.fed.length then none else t.s.snapshotAt) = some b →
      snapshotAt = some b ∧ b ≠ t.s.fed.length := by
    intro b hb
    split at hb
    · cases hb
    · rename_i hne
      refine ⟨hat ▸ hb, ?_⟩
      intro heq
      rw [hb, heq] at hne
      exact hne rfl
  rw [hseed]
  refine ⟨?_, ?_, ?_, ?_, ?_, ?_⟩
  · change t.s.fed ++ t.s.prefillQueue = prompt
    rw [hfed.fed, List.append_assoc, ← hfed.queue]
    exact h.whole
  · intro b hb
    obtain ⟨hb, hne⟩ := hkeep b hb
    have hle := hlive b hb
    refine ⟨?_, (h.inside b (hold b hb)).2⟩
    change t.s.fed.length < b
    omega
  · intro b hb
    exact h.only b (hold b (hkeep b hb).1)
  · intro he b hb hlt
    have hlt : t.s.fed.length < b := hlt
    have hat' : t.s.snapshotAt = some b := by
      rw [hat, hsnap he]
      exact h.kept he b hb (by omega)
    change (if t.s.snapshotAt = some t.s.fed.length then none else t.s.snapshotAt) = some b
    rw [hat', if_neg]
    intro heq
    exact absurd (Option.some.inj heq) (by omega)
  · change t.s.cache.isSome
    rw [hfed.cache, Option.isSome_map]
    exact h.cache
  · intro hd
    have hd : (t.s.prefillDone || t.s.prefillQueue.isEmpty) = true := hd
    rw [hstill, hdone, Bool.false_or, List.isEmpty_iff] at hd
    exact hd

theorem prefillTick_nil {budget : ℕ} (hqueue : s.prefillQueue = []) :
    prefillTick lm cfg env s px budget =
      (.ok 0, maybePrefixSeed cfg env { s := { s with prefillDone := true }, px }) := by
  unfold prefillTick
  split
  · rfl
  · rename_i hcons
    rw [hqueue] at hcons
    cases hcons

/-- The session whose tokens a tick feeds: an eager-only model drops the boundary. -/
def dropBoundary (lm : LoadedModel σ η γ) (s : Session σ η γ) : Session σ η γ :=
  if lm.eagerOnly then { s with snapshotAt := none } else s

theorem prefillTick_err {budget n : ℕ} {tok : Tok} {queue : List Tok} {e : String}
    {t : Prefill σ η γ} (hqueue : s.prefillQueue = tok :: queue)
    (hfeed : feedTick lm cfg env (dropBoundary lm s) px budget tok queue = (n, some e, t)) :
    prefillTick lm cfg env s px budget = (.error e, t) := by
  unfold prefillTick
  split
  · rename_i hnil
    rw [hqueue] at hnil
    cases hnil
  · rename_i tok' queue' hcons
    rw [hqueue] at hcons
    cases hcons
    rw [dropBoundary] at hfeed
    simp only [hfeed]

theorem prefillTick_ok_eq {budget n : ℕ} {tok : Tok} {queue : List Tok}
    {t : Prefill σ η γ} (hqueue : s.prefillQueue = tok :: queue)
    (hfeed : feedTick lm cfg env (dropBoundary lm s) px budget tok queue = (n, none, t)) :
    prefillTick lm cfg env s px budget = (.ok n, t.settle cfg env) := by
  unfold prefillTick
  split
  · rename_i hnil
    rw [hqueue] at hnil
    cases hnil
  · rename_i tok' queue' hcons
    rw [hqueue] at hcons
    cases hcons
    rw [dropBoundary] at hfeed
    simp only [hfeed]

/-- `dropBoundary` changes the boundary alone. -/
theorem dropBoundary_eq (lm : LoadedModel σ η γ) (s : Session σ η γ) :
    dropBoundary lm s = { s with snapshotAt := (dropBoundary lm s).snapshotAt } := by
  unfold dropBoundary
  split
  · rfl
  · rfl

/-- The boundary of a normal model is the session's; an eager-only one has none. -/
theorem dropBoundary_snapshotAt (lm : LoadedModel σ η γ) (s : Session σ η γ) :
    (lm.eagerOnly = false → (dropBoundary lm s).snapshotAt = s.snapshotAt) ∧
      (lm.eagerOnly = true → (dropBoundary lm s).snapshotAt = none) := by
  refine ⟨fun he => ?_, fun he => ?_⟩
  · rw [dropBoundary, if_neg (by simp [he])]
  · rw [dropBoundary, if_pos he]

/-- The snapshot stands before the seed. -/
theorem lcpSplit_mem {due : Prop} [Decidable due] {fed : List Tok} {extra : List PrefillCall}
    (hseeds : ∀ c ∈ extra, c = .insertPrefix fed "seed") :
    (∃ toks, .insertPrefix toks "lcp-split" ∈
      (if due then [PrefillCall.insertPrefix fed "lcp-split"] else []) ++ extra) ↔ due := by
  constructor
  · intro ⟨toks, hmem⟩
    rcases List.mem_append.1 hmem with hmem | hmem
    · by_contra hdue
      rw [if_neg hdue] at hmem
      cases hmem
    · exact absurd (hseeds _ hmem) (by simp)
  · intro hdue
    exact ⟨fed, List.mem_append_left _ (by rw [if_pos hdue]; exact List.mem_singleton_self _)⟩

/-- **One tick**: what it asks for, and what it leaves when nothing fails. -/
theorem prefillTick_ok (h : Feeding lm.eagerOnly prompt bound s) (hdone : s.prefillDone = false)
    {budget : ℕ} {out : Except String ℕ × Prefill σ η γ}
    (hout : prefillTick lm cfg env s px budget = out) :
    TickOk lm.eagerOnly prompt bound
        { before := s.fed.length, budget, calls := out.2.calls, after := out.2.s.fed.length } ∧
      (∀ e, out.1 = .error e → ¬ env.Sound) ∧
      ∀ n, out.1 = .ok n → Feeding lm.eagerOnly prompt bound out.2.s ∧
        n = (out.2.calls.flatMap PrefillCall.toks).length ∧
        Fed lm.E.T s (out.2.calls.flatMap PrefillCall.toks) out.2.s ∧
        (out.2.s.prefillQueue = [] → out.2.s.prefillDone = true) ∧
        (n = 0 → out.2.s.prefillQueue = []) := by
  cases hqueue : s.prefillQueue with
  | nil =>
    rw [prefillTick_nil hqueue] at hout
    subst hout
    have hfed : s.fed = prompt := by
      rw [← h.whole, hqueue, List.append_nil]
    obtain ⟨seed, hseed⟩ := maybePrefixSeed_s cfg env
      { s := { s with prefillDone := true }, px }
    obtain ⟨calls, hcalls, hinserts⟩ := maybePrefixSeed_calls cfg env
      { s := { s with prefillDone := true }, px }
    have htoks : calls.flatMap PrefillCall.toks = [] := by
      rw [List.flatMap_eq_nil_iff]
      intro c hc
      rw [hinserts c hc]
      rfl
    rw [List.nil_append] at hcalls
    simp only [hseed, hcalls, htoks]
    refine ⟨tickOk_of_empty hfed hinserts, nofun, ?_⟩
    intro n hn
    cases hn
    have hrefl := Fed.refl lm.E.T s
    exact ⟨⟨h.whole, h.inside, h.only, h.kept, h.cache, fun _ => hqueue⟩, rfl,
      ⟨hrefl.fed, hrefl.queue, hrefl.cache, hrefl.sampler⟩, fun _ => trivial,
      fun _ => hqueue⟩
  | cons tok queue =>
    obtain ⟨hsnap, hnone⟩ := dropBoundary_snapshotAt lm s
    have hsame := dropBoundary_eq lm s
    generalize hs₁ : dropBoundary lm s = s₁ at hsnap hnone hsame
    have hwhole₁ : s₁.fed ++ s₁.prefillQueue = prompt := by
      rw [hsame]
      exact h.whole
    have hfed₁ : s₁.fed = s.fed := by rw [hsame]
    have hold : ∀ b, s₁.snapshotAt = some b → s.snapshotAt = some b := by
      intro b hb
      cases he : lm.eagerOnly with
      | false => rw [← hsnap he, hb]
      | true =>
        rw [hnone he] at hb
        cases hb
    have hfeed : ∃ call, FeedOk lm env s₁ budget call
        (feedTick lm cfg env s₁ px budget tok queue) := by
      refine feedTick_ok (by rw [hsame]; exact h.cache) (by rw [hsame]; exact hqueue) ?_ hnone
      intro b hb
      obtain ⟨hlt, hle⟩ := h.inside b (hold b hb)
      rw [← hwhole₁, List.length_append] at hle
      exact ⟨hfed₁ ▸ hlt, hle.le⟩
    obtain ⟨call, hfeed⟩ := hfeed
    generalize htick : feedTick lm cfg env s₁ px budget tok queue = fed at hfeed
    obtain ⟨n, err, t⟩ := fed
    have hkept : lm.eagerOnly = false → ∀ b, bound = some b → s₁.fed.length < b →
        s₁.snapshotAt = some b := by
      intro he b hb hlt
      rw [hsnap he]
      exact h.kept he b hb (hfed₁ ▸ hlt)
    have hcalls : t.calls = [call] := hfeed.calls
    cases err with
    | some e =>
      rw [prefillTick_err hqueue (by rw [hs₁]; exact htick)] at hout
      subst hout
      obtain ⟨hfed, hsound⟩ := hfeed.err e rfl
      have hfed : t.s.fed = s₁.fed := hfed
      simp only [hcalls, hfed, ← hfed₁]
      refine ⟨?_, fun _ _ => hsound, nofun⟩
      refine tickOk_of_feed hfeed hwhole₁ hkept (by simp) ?_ ?_
      · rw [← hwhole₁, List.take_left]
      · exact ⟨by simp, fun hsnap => absurd hsnap.2.1 (lt_irrefl _)⟩
    | none =>
      rw [prefillTick_ok_eq hqueue (by rw [hs₁]; exact htick)] at hout
      subst hout
      obtain ⟨hfed, hlogits, hat, hstill⟩ := hfeed.ok rfl
      have hfed : Fed lm.E.T s₁ call.toks t.s := hfed
      have hfed' : Fed lm.E.T s call.toks t.s := by
        rw [hsame] at hfed
        exact ⟨hfed.fed, hfed.queue, hfed.cache, hfed.sampler⟩
      have hcache : t.s.cache.isSome := by
        rw [hfed'.cache, Option.isSome_map]
        exact h.cache
      obtain ⟨extra, hextra, hseeds⟩ := settle_calls cfg env hcache hlogits
      obtain ⟨seed, hseed⟩ := settle_s cfg env t
      have hafter : (t.settle cfg env).s.fed = t.s.fed := by rw [hseed]
      rw [hcalls, List.singleton_append] at hextra
      have hins : ∀ c ∈ (if t.s.snapshotAt = some t.s.fed.length then
          [PrefillCall.insertPrefix t.s.fed "lcp-split"] else []) ++ extra,
          ∃ why, c = .insertPrefix t.s.fed why := by
        intro c hc
        rcases List.mem_append.1 hc with hc | hc
        · split at hc
          · exact ⟨_, List.mem_singleton.1 hc⟩
          · cases hc
        · exact ⟨_, hseeds c hc⟩
      have htoks : (t.settle cfg env).calls.flatMap PrefillCall.toks = call.toks := by
        rw [hextra]
        exact flatMap_toks hins
      have hgrown : s.fed.length < t.s.fed.length := by
        rw [hfed'.fed, List.length_append]
        exact Nat.lt_add_of_pos_right (List.length_pos_iff.2 hfeed.feeds)
      simp only [htoks, hafter]
      refine ⟨?_, nofun, ?_⟩
      · rw [hextra, ← hfed₁]
        refine tickOk_of_feed hfeed hwhole₁ hkept hins ?_ ?_
        · rw [← h.whole, hfed'.queue, ← List.append_assoc, ← hfed'.fed, List.take_left]
        · rw [lcpSplit_mem hseeds, hat]
          constructor
          · intro hdue
            have hdue : s₁.snapshotAt = some t.s.fed.length := hdue
            refine ⟨?_, hfed₁ ▸ hgrown, h.only _ (hold _ hdue)⟩
            by_contra he
            rw [hnone (by simpa using he)] at hdue
            cases hdue
          · intro ⟨he, hlt, hb⟩
            exact hkept he _ hb hlt
      · intro n' hn
        cases hn
        refine ⟨feeding_settle h hdone hsnap hnone hfeed.feeds hfed' ?_ hat ?_, hfeed.consumed, ?_, ?_,
          ?_⟩
        · rw [← hfed₁]
          exact hfeed.bound
        · rw [hstill, hsame]
        · rw [hseed]
          exact ⟨hfed'.fed, hfed'.queue, hfed'.cache, hfed'.sampler⟩
        · rw [hseed]
          intro hempty
          change (t.s.prefillDone || t.s.prefillQueue.isEmpty) = true
          rw [show t.s.prefillQueue = [] from hempty, List.isEmpty_nil, Bool.or_true]
        · intro hzero
          have hlength : n = call.toks.length := hfeed.consumed
          rw [hzero] at hlength
          exact absurd (List.length_eq_zero_iff.1 hlength.symm) hfeed.feeds

end

/-! ## The run -/

theorem prefillRun_done (lm : LoadedModel σ η γ) (cfg : Config) (ticks : List (ℕ × TickEnv))
    {s : Session σ η γ} (px : PrefixCache PoolKey (Snapshot σ)) (hdone : s.prefillDone = true) :
    prefillRun lm cfg ticks s px = { ticks := [], err := none, s, px } := by
  cases ticks with
  | nil => rfl
  | cons tick rest => rw [prefillRun, if_pos hdone]

/-- **Every tick of a run** asks for what `TickOk` says. -/
theorem prefillRun_ok (lm : LoadedModel σ η γ) (cfg : Config) {prompt : List Tok}
    {bound : Option ℕ} (ticks : List (ℕ × TickEnv)) {s : Session σ η γ}
    (px : PrefixCache PoolKey (Snapshot σ)) (h : Feeding lm.eagerOnly prompt bound s)
    {out : PrefillOut σ η γ} (hout : prefillRun lm cfg ticks s px = out) :
    (∀ r ∈ out.ticks, TickOk lm.eagerOnly prompt bound r) ∧
      (out.err ≠ none → ∃ t ∈ ticks, ¬ t.2.Sound) ∧
      (out.err = none → Feeding lm.eagerOnly prompt bound out.s ∧
        Fed lm.E.T s (out.ticks.flatMap fun r => r.calls.flatMap PrefillCall.toks) out.s ∧
        (max 1 s.prefillQueue.length ≤ ticks.length → out.s.prefillDone = true)) := by
  induction ticks generalizing s px out with
  | nil =>
    subst hout
    refine ⟨nofun, fun hne => absurd rfl hne, fun _ => ⟨h, Fed.refl _ _, fun hle => ?_⟩⟩
    exact absurd (le_trans (le_max_left _ _) hle) (by simp)
  | cons tick rest ih =>
    obtain ⟨budget, env⟩ := tick
    by_cases hdone : s.prefillDone = true
    · rw [prefillRun_done lm cfg _ px hdone] at hout
      subst hout
      exact ⟨nofun, fun hne => absurd rfl hne, fun _ => ⟨h, Fed.refl _ _, fun _ => hdone⟩⟩
    · rw [prefillRun, if_neg hdone] at hout
      rw [Bool.not_eq_true] at hdone
      generalize ht : prefillTick lm cfg env s px budget = t at hout
      obtain ⟨htick, herr, hok⟩ := prefillTick_ok h hdone ht
      obtain ⟨res, t⟩ := t
      cases res with
      | error e =>
        subst hout
        refine ⟨?_, fun _ => ⟨_, List.mem_cons_self, herr e rfl⟩, nofun⟩
        intro r hr
        rw [List.mem_singleton.1 hr]
        exact htick
      | ok n =>
        subst hout
        obtain ⟨hfeeding, hn, hfed, hempty, hzero⟩ := hok n rfl
        obtain ⟨hticks, hfail, hdone'⟩ := ih t.px hfeeding rfl
        refine ⟨?_, ?_, ?_⟩
        · intro r hr
          rcases List.mem_cons.1 hr with rfl | hr
          · exact htick
          · exact hticks r hr
        · intro hne
          obtain ⟨tick, hmem, hsound⟩ := hfail hne
          exact ⟨tick, List.mem_cons_of_mem _ hmem, hsound⟩
        · intro hnone
          obtain ⟨hfeeding', hfed', hlast⟩ := hdone' hnone
          refine ⟨hfeeding', hfed.trans hfed', ?_⟩
          intro hle
          rw [List.length_cons] at hle
          have hqueue : s.prefillQueue.length = n + t.s.prefillQueue.length := by
            rw [hfed.queue, List.length_append, ← hn]
          by_cases hd : t.s.prefillDone = true
          · simp only [prefillRun_done lm cfg rest t.px hd]
            exact hd
          · have hrest : t.s.prefillQueue ≠ [] := fun hnil => hd (hempty hnil)
            have hpos : n ≠ 0 := fun hn => hrest (hzero hn)
            have hlength := List.length_pos_iff.2 hrest
            apply hlast
            change max 1 t.s.prefillQueue.length ≤ rest.length
            omega

/-- A session before its first tick: what is fed and what is queued make up the prompt, and a boundary
lies strictly between `fed` and the end. -/
structure Admitted (prompt : List Tok) (s : Session σ η γ) : Prop where
  whole : s.fed ++ s.prefillQueue = prompt
  inside : ∀ b, s.snapshotAt = some b → s.fed.length < b ∧ b < prompt.length
  cache : s.cache.isSome
  done : s.prefillDone = true → s.prefillQueue = []

theorem Admitted.feeding {prompt : List Tok} {s : Session σ η γ} (h : Admitted prompt s)
    (eager : Bool) : Feeding eager prompt s.snapshotAt s :=
  ⟨h.whole, h.inside, fun _ hb => hb, fun _ _ hb _ => hb, h.cache, h.done⟩

/-- **Prefill feeds the prompt exactly once**, whatever the budgets: every tick asks for what `TickOk`
says, only a failing engine or trace file ends the run early, `fed` and the queue make up the
prompt with the boundary ahead, the engine is handed exactly what `fed` gains, and one tick for every
queued token is enough to finish. -/
theorem prefill_exactly_once (lm : LoadedModel σ η γ) (cfg : Config) {prompt : List Tok}
    {s : Session σ η γ} (h : Admitted prompt s) (ticks : List (ℕ × TickEnv))
    (px : PrefixCache PoolKey (Snapshot σ)) {out : PrefillOut σ η γ}
    (hout : prefillRun lm cfg ticks s px = out) :
    (∀ r ∈ out.ticks, TickOk lm.eagerOnly prompt s.snapshotAt r) ∧
      ((∀ t ∈ ticks, t.2.Sound) → out.err = none) ∧
      (out.err = none →
        out.s.fed ++ out.s.prefillQueue = prompt ∧
        (∀ b, out.s.snapshotAt = some b → out.s.fed.length < b) ∧
        Fed lm.E.T s (out.ticks.flatMap fun r => r.calls.flatMap PrefillCall.toks) out.s ∧
        (max 1 s.prefillQueue.length ≤ ticks.length → out.s.prefillDone = true) ∧
        (out.s.prefillDone = true → out.s.fed = prompt)) := by
  obtain ⟨hticks, hfail, hok⟩ := prefillRun_ok lm cfg ticks px (h.feeding lm.eagerOnly) hout
  refine ⟨hticks, ?_, ?_⟩
  · intro hsound
    by_contra hne
    obtain ⟨t, hmem, ht⟩ := hfail hne
    exact ht (hsound t hmem)
  · intro hnone
    obtain ⟨hfeeding, hfed, hlast⟩ := hok hnone
    refine ⟨hfeeding.whole, fun b hb => (hfeeding.inside b hb).1, hfed, hlast, ?_⟩
    intro hdone
    rw [← hfeeding.whole, hfeeding.done hdone, List.append_nil]

/-! ## The session that `admit` leaves -/

theorem admitReuse_prefix {cfg : Config} {key : PoolKey} {pl : Plan} {p : Pools σ η}
    {e : ReuseEntry σ} (h : (admitReuse cfg key pl p).1 = some e) : e.fed <+: pl.prompt := by
  unfold admitReuse at h
  split at h
  · cases h
  · split at h
    · cases h
    · rename_i i hi
      obtain ⟨x, hx, hp⟩ := rposition_some hi
      obtain rfl := Option.some.inj (hx.symm.trans h)
      exact (of_decide_eq_true hp).2.2

/-- A looked up entry prefixes the prompt. -/
theorem lookup_prefix {c : PrefixCache PoolKey (Snapshot σ)} {key : PoolKey} {prompt : List Tok}
    {i : ℕ} {e : PrefixEntry (Snapshot σ)} (hlookup : c.lookup key prompt = some i)
    (he : c.entryAt (key, i) = some e) : e.toks <+: prompt := by
  have hpool : c.lookup key prompt =
      (PrefixCache.lookupFrom prompt 0 none (c.pool key)).map (·.1) := by
    unfold PrefixCache.lookup PrefixCache.pool
    cases c.entries.lookup key with
    | none => rfl
    | some pool => rfl
  rw [hpool] at hlookup
  obtain ⟨⟨j, n⟩, hj, rfl⟩ := Option.map_eq_some_iff.1 hlookup
  obtain ⟨hfound, -⟩ := (PrefixCache.lookupFrom_spec prompt (c.pool key) 0 none).2 j n hj
  obtain ⟨k, e', hk, hjk, hserves, -⟩ := hfound.resolve_left (Option.some_ne_none _).symm
  obtain rfl : j = k := by omega
  obtain rfl := Option.some.inj (hk.symm.trans he)
  exact hserves.2

theorem prefixHit_prefix {env : AdmitEnv} {key : PoolKey} {pl : Plan}
    {px : PrefixCache PoolKey (Snapshot σ)} {e : ReuseEntry σ}
    (h : (prefixHit env key pl px).1 = some e) : e.fed <+: pl.prompt := by
  unfold prefixHit at h
  split at h
  · cases h
  · rename_i i hlookup
    split at h
    · cases h
    · rename_i e' he'
      split at h
      · cases h
      · split at h
        · cases h
        · cases h
          exact lookup_prefix hlookup he'

/-- The boundary is set for a session that resumes nothing, strictly inside the prompt. -/
theorem admitPrefix_boundary {cfg : Config} {env : AdmitEnv} {key : PoolKey} {pl : Plan}
    {p : Pools σ η} {reused : Option (ReuseEntry σ)} {eligible : Bool}
    (hreused : ∀ e, reused = some e → e.fed <+: pl.prompt) {re : Option (ReuseEntry σ)}
    {snapshotAt : Option ℕ} {seed : Bool} {p' : Pools σ η}
    (h : admitPrefix cfg env key pl p reused eligible = ((re, snapshotAt, seed), p')) :
    (∀ e, re = some e → e.fed <+: pl.prompt) ∧
      ∀ b, snapshotAt = some b → re = none ∧ 0 < b ∧ b < pl.prompt.length := by
  unfold admitPrefix at h
  split at h
  · cases h
    exact ⟨hreused, fun _ hb => absurd hb (Option.some_ne_none _).symm⟩
  · split at h
    · rename_i e px hhit
      cases h
      refine ⟨?_, fun _ hb => absurd hb (Option.some_ne_none _).symm⟩
      intro e' he'
      rw [← Option.some.inj he']
      exact prefixHit_prefix (by rw [hhit])
    · cases h
      refine ⟨fun _ he => absurd he (Option.some_ne_none _).symm, ?_⟩
      intro b hb
      split at hb
      · rename_i hsplit
        obtain rfl := Option.some.inj hb
        exact ⟨rfl, lt_of_lt_of_le (by decide) hsplit.1, hsplit.2.1⟩
      · cases hb

theorem mkSession_admitted {lm : LoadedModel σ η γ} {req : Request} {pl : Plan} {c : Option γ}
    {re : Option (ReuseEntry σ)} {snapshotAt : Option ℕ} {seed : Bool} {choice : SpecChoice σ η}
    {cache : Option (KvCache σ)} (hre : ∀ e, re = some e → e.fed <+: pl.prompt)
    (hsnap : ∀ b, snapshotAt = some b → re = none ∧ 0 < b ∧ b < pl.prompt.length)
    (hresumed : choice.specResumed = 0) (hsuffix : choice.textSuffix = none)
    (hcache : cache.isSome) :
    Admitted pl.prompt (mkSession lm req pl c re snapshotAt seed choice cache) := by
  have hqueue : (mkSession lm req pl c re snapshotAt seed choice cache).prefillQueue =
      pl.prompt.drop ((re.map (·.fed)).getD []).length := by
    simp only [mkSession, hsuffix, hresumed, lt_irrefl, if_false]
  have hpre : (re.map (·.fed)).getD [] <+: pl.prompt := by
    cases re with
    | none => exact List.nil_prefix
    | some e => exact hre e rfl
  obtain ⟨rest, hrest⟩ := hpre
  refine ⟨?_, ?_, hcache, ?_⟩
  · rw [hqueue, ← hrest, List.drop_left]
    rfl
  · intro b hb
    obtain ⟨rfl, hpos, hlt⟩ := hsnap b hb
    exact ⟨hpos, hlt⟩
  · intro hdone
    rw [hqueue]
    exact of_decide_eq_true hdone

/-- Without a speculative session nothing was resumed. -/
theorem admitSpec_none {cfg : Config} {lm : LoadedModel σ η γ} {env : AdmitEnv} {req : Request}
    {key : PoolKey} {pl : Plan} {constrained : Bool} {p : Pools σ η}
    (h : (admitSpec cfg lm env req key pl constrained p).1.spec = none) :
    (admitSpec cfg lm env req key pl constrained p).1.specResumed = 0 ∧
      (admitSpec cfg lm env req key pl constrained p).1.textSuffix = none := by
  unfold admitSpec at h ⊢
  dsimp only at h ⊢
  split
  · rename_i hsome
    rw [hsome] at h
    cases h
  · exact ⟨rfl, rfl⟩

theorem admitCache_isSome {lm : LoadedModel σ η γ} {env : AdmitEnv} {pl : Plan} {p p' : Pools σ η}
    {cache cache' : Option (KvCache σ)}
    (h : admitCache lm env pl p none cache = (.ok cache', p')) : cache'.isSome := by
  unfold admitCache at h
  split at h
  · rename_i hsome
    cases h
    simpa using hsome
  · split at h
    · cases h
      rfl
    · dsimp only at h
      split at h
      · split at h
        · cases h
          rfl
        · cases h
      · cases h

/-- **A session that `admit` leaves to the plain path** stands as the run needs it. -/
theorem admitRequest_admitted {H : Host σ η γ} {cfg : Config} {env : AdmitEnv} {p p' : Pools σ η}
    {nActive : ℕ} {req : Request} {s : Session σ η γ}
    (h : admitRequest H cfg env p nActive req = (.ok s, p')) (hspec : s.spec = none) :
    ∃ pl, plan cfg (H.loaded req.model) req.toReplayPlan = .ok pl ∧ Admitted pl.prompt s := by
  unfold admitRequest at h
  cases hpl : plan cfg (H.loaded req.model) req.toReplayPlan with
  | error e =>
    simp only [hpl] at h
    cases h
  | ok pl =>
    refine ⟨pl, rfl, ?_⟩
    cases hreuse : admitReuse cfg (req.model, req.cacheNs) pl p with
    | mk re p₁ =>
      have hre : ∀ e, re = some e → e.fed <+: pl.prompt := by
        intro e he
        exact admitReuse_prefix (by rw [hreuse]; exact he)
      cases hc : compileGrammar (H.loaded req.model) req.grammar with
      | error e =>
        simp only [hpl, hreuse, hc] at h
        cases h
      | ok c =>
        simp only [hpl, hreuse, hc] at h
        generalize specEligible cfg (H.loaded req.model) nActive req.samplerCfg c.isSome = el at h
        cases hpre : admitPrefix cfg env (req.model, req.cacheNs) pl p₁ re el with
        | mk out p₂ =>
          obtain ⟨re₂, snapshotAt, seed⟩ := out
          obtain ⟨hre₂, hsnap⟩ := admitPrefix_boundary hre hpre
          simp only [hpre] at h
          generalize hchoice : (if el = true ∧ (re₂.map (·.fed)).getD [] = [] then
            admitSpec cfg (H.loaded req.model) env req (req.model, req.cacheNs) pl c.isSome p₂
            else ({}, p₂)) = choice at h
          obtain ⟨choice, p₃⟩ := choice
          have hnone : choice.spec = none →
              choice.specResumed = 0 ∧ choice.textSuffix = none := by
            intro hnone
            split at hchoice
            · have hfst := congrArg Prod.fst hchoice
              dsimp only at hfst
              rw [← hfst] at hnone ⊢
              exact admitSpec_none hnone
            · cases hchoice
              exact ⟨rfl, rfl⟩
          cases hcache : admitCache (H.loaded req.model) env pl p₃ choice.spec
              (re₂.map (·.cache)) with
          | mk res p₄ =>
            simp only [hcache] at h
            cases res with
            | error e => cases h
            | ok cache =>
              cases h
              have hspec : choice.spec = none := hspec
              obtain ⟨hresumed, hsuffix⟩ := hnone hspec
              rw [hspec] at hcache
              exact mkSession_admitted hre₂ hsnap hresumed hsuffix (admitCache_isSome hcache)

/-! ## A prompt with a boundary -/

/-- A session over the character model with `prompt` to prefill. -/
def charSession (prompt : List Tok) (boundary : Option ℕ) :
    Session (List Tok) (List Tok) Unit where
  model := "m"
  cacheNs := ""
  affinity := none
  lane := .interactive
  replay := { params := { maxNew := 1 } }
  params := { maxNew := 1 }
  stopStrings := []
  traceId := none
  budget := 1
  nPrompt := prompt.length
  nCached := 0
  cache := some (KvCache.new listEngine.T 8192)
  sampler := { cfg := {} }
  prefillQueue := prompt
  snapshotAt := boundary
  tx := { id := 0 }

theorem charSession_admitted {prompt : List Tok} {b : ℕ} (hpos : 0 < b) (hlt : b < prompt.length) :
    Admitted prompt (charSession prompt (some b)) := by
  refine ⟨rfl, ?_, rfl, nofun⟩
  intro b' hb
  cases hb
  exact ⟨hpos, hlt⟩

/-- A hundred tokens at a budget of 48, with the boundary at 64. -/
theorem prefill_exactly_once_hundred :
    (prefillRun charModel {} (List.replicate 100 (48, {}))
      (charSession (List.range 100) (some 64)) {}).s.fed = List.range 100 := by
  obtain ⟨-, hsound, hok⟩ := prefill_exactly_once charModel {}
    (@charSession_admitted (List.range 100) 64 (by decide) (by decide))
    (List.replicate 100 (48, {})) {} rfl
  obtain ⟨-, -, -, hlast, hdone⟩ := hok (hsound (by
    intro t ht
    rw [List.eq_of_mem_replicate ht]
    exact ⟨rfl, rfl, rfl⟩))
  apply hdone
  apply hlast
  rw [List.length_replicate]
  decide

/-- An eager-only model primes the prompt whole, across the boundary that its admission set. -/
theorem eager_primes_across :
    Admitted (List.range 100) (charSession (List.range 100) (some 64)) ∧
      ∃ r ∈ (prefillRun { charModel with eagerOnly := true } {} [(1024, {})]
          (charSession (List.range 100) (some 64)) {}).ticks,
        ∃ chunk k, .primeCache chunk k ∈ r.calls ∧
          r.before < 64 ∧ 64 < r.before + chunk.length :=
  ⟨charSession_admitted (by decide) (by decide), _, List.mem_singleton_self _, List.range 100, 0,
    List.mem_singleton_self _, by decide, by decide⟩

end Memra
