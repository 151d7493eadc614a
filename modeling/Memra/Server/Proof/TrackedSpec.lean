import Memra.Server.Proof.Tracked
import Memra.Server.Proof.SpecStep
import Memra.Engine.Proof.SpecGreedy

/-!
# What a speculative session holds

The stages of `Tracked` across the speculative arm, the graph path and the hand-over. A burst that emits keeps
`SpecSound` and appends what was queued and emitted to what is committed and pending (`SpecSound.burst`); a
greedy one emits the greedy continuation. A promotion, a graph step, a degrade and a hand-over take the session
from one stage to another (`Stage.promote`, `Stage.graphStep`, `Stage.degrade`, `Stage.demote`). Every result is about
a step without a fault.
-/

namespace Memra

open Lib Lib.Prog

variable {σ η γ : Type}

/-! ## Sound speculative sessions -/

section

variable {T : Trunk σ η} {sess : SpecSession σ η}

theorem SpecSound.new (T : Trunk σ η) : SpecSound T (newSession T) := ⟨_, _, SessionInv.new T⟩

theorem SpecSound.rows (h : SpecSound T sess) : Rows T sess sess.committed := by
  obtain ⟨base, log, hi⟩ := h
  exact hi.rows

theorem SpecSound.flush (h : SpecSound T sess) : SpecSound T (specFlushPending T sess) := by
  obtain ⟨base, log, hi⟩ := h
  exact ⟨base, log, hi.flush⟩

theorem SpecSound.rewind (h : SpecSound T sess) {ck : SpecCheckpoint σ η} (hck : sess.turnCkpt = some ck) :
    SpecSound T (specRewindToCheckpoint sess) := by
  obtain ⟨base, log, hi⟩ := h
  exact ⟨_, _, hi.rewind hck⟩

theorem SpecSound.lastH (h : SpecSound T sess) (hne : sess.committed ≠ []) : sess.lastH.isSome := by
  obtain ⟨base, log, hi⟩ := h
  have hl : sess.lastH = if sess.committed = [] then none else some _ := hi.lastH
  rw [hl, if_neg hne]
  rfl

/-- The graph fallback of a resume touches no row. -/
theorem SpecSound.resetGraphFallback (h : SpecSound T sess) : SpecSound T (resetGraphFallback sess) := by
  obtain ⟨base, log, hi⟩ := h
  exact ⟨base, log, hi.holds, hi.seq, hi.pending, hi.pred, hi.lastH, hi.ckpt⟩

/-- **A burst that emits** appends the suffix and its tokens to what is committed and pending. -/
theorem SpecSound.burst {E : SpecEngine σ η} {B : Burst} {rng : Rng} {gram : Option (SpecGrammar γ)}
    {r : BurstOut σ η γ} (h : SpecSound E.T sess)
    (hok : (generateSpecSession E B sess gram).run rng = .ok r)
    (hidle : ¬ (sess.pendingTok.isSome ∧ r.out = [])) :
    r.out ≠ [] ∧ SpecSound E.T r.sess ∧ r.sess.committed ++ r.sess.pendingTok.toList =
      sess.committed ++ sess.pendingTok.toList ++ B.suffix ++ r.out := by
  obtain ⟨base, log, hi⟩ := h
  have hburst : Always _ (generateSpecSession E B sess gram) := generateSpecSession_run hi.rows
  have hrun := Always.run hburst rng
  rw [hok] at hrun
  have hseq : sess.committed ++ sess.pendingTok.toList = base ++ log := hi.seq
  -- both ways into the burst: the carried bonus rides, or it is flushed first
  obtain ⟨hist, hsess, hbase, hout, hinv⟩ : ∃ hist : History σ η, hist.sess = r.sess ∧
      hist.base ++ hist.log = base ++ (log ++ B.suffix ++ r.out) ∧ r.out ≠ [] ∧ SessionInv E.T hist := by
    obtain ⟨s', fed', st, hb, -, ⟨rfl, rfl, hcarry⟩ | ⟨rfl, rfl, -⟩⟩ := hrun
    · have hout : r.out ≠ [] := fun hnil => hidle ⟨(hb.idle hnil).1, hnil⟩
      exact ⟨_, rfl, rfl, hout, hi.burst hb (fun hp => (hcarry hp).1) hout⟩
    · obtain ⟨-, hnone, hcomm, -⟩ := specFlushPending_rows hi.rows
      rw [← hcomm] at hb
      have hcarry : (specFlushPending E.T sess).pendingTok.isSome → B.suffix = [] := by
        intro hp
        rw [hnone] at hp
        cases hp
      have hout : r.out ≠ [] := by
        intro hnil
        have hp := (hb.idle hnil).1
        rw [hnone] at hp
        cases hp
      exact ⟨_, rfl, rfl, hout, hi.flush.burst hb hcarry hout⟩
  refine ⟨hout, ⟨hist.base, hist.log, ?_⟩, ?_⟩
  · rw [← hsess]
    exact hinv
  · rw [hseq, ← hsess, hinv.seq, hbase]
    simp only [List.append_assoc]

end

/-! ## The tokens of a burst -/

/-- The tokens accepted of a burst begin it, and are all of it unless an end token came. -/
theorem acceptBurst_kept (eos generated burst : List Tok) :
    ∃ kept, (acceptBurst eos generated burst).1 = generated ++ kept ∧ kept <+: burst ∧
      ((acceptBurst eos generated burst).2 = false → kept = burst) := by
  induction burst generalizing generated with
  | nil => exact ⟨[], by simp [acceptBurst], List.prefix_rfl, fun _ => rfl⟩
  | cons tok burst ih =>
    unfold acceptBurst
    split
    · refine ⟨[tok], rfl, ⟨burst, rfl⟩, fun h => ?_⟩
      cases h
    · obtain ⟨kept, heq, hpre, hall⟩ := ih (generated ++ [tok])
      refine ⟨tok :: kept, ?_, (List.prefix_cons_inj tok).2 hpre, fun h => by rw [hall h]⟩
      rw [heq, List.append_assoc]
      rfl

/-- A prefix of a greedy run is a greedy run. -/
theorem Trunk.greedy_of_prefix {T : Trunk σ η} {st : σ} {xs ys : List Tok} (hpre : xs <+: ys)
    (h : ys = T.greedy st ys.length) : xs = T.greedy st xs.length := by
  have hle := hpre.length_le
  have htake : xs = ys.take xs.length := List.prefix_iff_eq_take.1 hpre
  rw [h, T.greedy_take, Nat.min_eq_left hle] at htake
  exact htake

theorem Trunk.greedy_append {T : Trunk σ η} {prompt xs ys : List Tok}
    (hx : xs = T.greedy (T.after prompt) xs.length)
    (hy : ys = T.greedy (T.after (prompt ++ xs)) ys.length) :
    xs ++ ys = T.greedy (T.after prompt) (xs ++ ys).length := by
  rw [List.length_append, T.greedy_add, ← hx, ← T.after_append, ← hy]

/-! ## The speculative arm -/

section

variable {hung : ℕ → ℕ → Bool} {H : Host σ η γ} {lm : LoadedModel σ η γ} {cfg : Config}
  {env : VisitEnv σ η} {G : Prop} {prompt : List Tok} {s : Session σ η γ} {caches : SpecCaches σ η}

namespace Session

/-- What a burst that came back leaves of the session. -/
theorem acceptSpec_work (hung : ℕ → ℕ → Bool) (lm : LoadedModel σ η γ) (cfg : Config)
    (caches : SpecCaches σ η) (r : BurstOut σ η γ) (s : Session σ η γ) :
    (s.acceptSpec hung lm cfg caches r).s.work = { s.work with
      spec := some { caches with sess := r.sess }
      prefillQueue := []
      prefillDone := true
      fed := s.fed ++ s.prefillQueue ++ (acceptBurst s.params.eos s.generated r.out).1.drop s.generated.length
      generated := (acceptBurst s.params.eos s.generated r.out).1
      constraint := match r.gram with
        | some g => some g.c
        | none => s.constraint } := by
  unfold acceptSpec
  extract_lets faults f acc suffix kept s' f' s''
  split
  · rfl
  · split
    · rfl
    · split <;> rfl

/-- A session that goes on behind a burst has seen no end token. -/
theorem acceptSpec_goOn {r : BurstOut σ η γ} (h : (s.acceptSpec hung lm cfg caches r).stop = .goOn) :
    (acceptBurst s.params.eos s.generated r.out).2 = false := by
  unfold acceptSpec at h
  extract_lets faults f acc suffix kept s' f' s'' at h
  split at h
  · cases h
  · split at h
    · cases h
    · split at h
      · cases h
      · next hreason =>
        unfold stopReason at hreason
        split at hreason
        · cases hreason
        · next heos => exact Bool.eq_false_iff.2 heos

theorem acceptSpec_faults {r : BurstOut σ η γ} (h : (s.acceptSpec hung lm cfg caches r).faults = []) :
    ¬ (caches.sess.pendingTok.isSome ∧ r.out = []) := by
  intro hidle
  unfold acceptSpec at h
  extract_lets faults f acc suffix kept s' f' s'' at h
  have hfaults : faults = [.idleBurst] := if_pos hidle
  rw [hfaults] at h
  split at h
  · cases h
  · split at h
    · cases h
    · split at h <;> cases h

end Session

/-- A speculative session that has a prediction or a bonus can go on without a suffix. -/
theorem Specing.resumable (h : Specing lm.E.T prompt caches s.work) (hne : prompt ≠ [])
    (hq : s.prefillQueue = []) (hnext : ¬ (caches.sess.nextPred = none ∧ caches.sess.pendingTok = none)) :
    Resumable lm.E.T caches.sess caches.sess.committed := by
  have hseq : caches.sess.committed ++ caches.sess.pendingTok.toList ++ s.prefillQueue =
    prompt ++ s.generated := h.seq
  rw [hq, List.append_nil] at hseq
  have hcomm : caches.sess.committed ≠ [] := by
    intro hnil
    rw [hnil, List.nil_append] at hseq
    have hlen := congrArg List.length hseq
    have hprompt := List.length_pos_iff.2 hne
    cases hp : caches.sess.pendingTok with
    | none =>
      rw [hp, List.length_append, Option.toList_none, List.length_nil] at hlen
      omega
    | some b =>
      -- the bonus alone would be prompt and tokens both
      have hgen : 0 < s.generated.length := List.length_pos_iff.2 fun hnil => by
        have hnone := (h.fresh hnil).2
        rw [hp] at hnone
        cases hnone
      rw [hp, List.length_append, Option.toList_some, List.length_singleton] at hlen
      omega
  refine ⟨h.sound.rows, hcomm, h.sound.lastH hcomm, ?_⟩
  cases hn : caches.sess.nextPred with
  | some t => exact .inl rfl
  | none =>
    cases hp : caches.sess.pendingTok with
    | some b => exact .inr rfl
    | none => exact absurd ⟨hn, hp⟩ hnext

/-- The burst of a plainly greedy session. -/
theorem Specing.burst_greedy {room : ℕ} {r : BurstOut σ η γ} (h : Specing lm.E.T prompt caches s.work)
    (hs : Served lm G prompt s.work) (hG : G)
    (hnext : ¬ (s.prefillQueue = [] ∧ caches.sess.nextPred = none ∧ caches.sess.pendingTok = none))
    (hok : (generateSpecSession lm.E (s.burst lm cfg env room) caches.sess (s.specGrammar lm cfg)).run env.rng =
      .ok r) :
    r.gram = none ∧ r.out = lm.E.T.greedy (lm.E.T.after (prompt ++ s.generated)) r.out.length := by
  obtain ⟨hgreedy, -, hcon⟩ := hs.plain hG
  have hgreedy : s.sampler.cfg.isGreedy = true := hgreedy
  have hcon : s.constraint = none := hcon
  have hgram : s.specGrammar lm cfg = none := by rw [Session.specGrammar, hcon, Option.map_none]
  have hsampled : (s.burst lm cfg env room).sampled = none := by
    have htemp : ¬ 0 < s.sampler.cfg.temperature := by simpa [SamplerConfig.isGreedy] using hgreedy
    simp [Burst.sampled, Session.burst, Session.specSampling, htemp]
  have hall : Always _ (generateSpecSession lm.E (s.burst lm cfg env room) caches.sess
      (none : Option (SpecGrammar γ))) :=
    greedy_burst h.sound.rows (fun hq => h.resumable hs.nonempty hq fun hn => hnext ⟨hq, hn⟩)
      (settlesGreedy_of_greedy hsampled _)
  have hrun := Always.run hall env.rng
  rw [hgram] at hok
  rw [hok] at hrun
  have hseq : caches.sess.committed ++ caches.sess.pendingTok.toList ++ s.prefillQueue =
    prompt ++ s.generated := h.seq
  refine ⟨hrun.gram, ?_⟩
  rw [← hseq]
  exact hrun.greedy

/-- The session behind a burst that emitted. -/
theorem Specing.acceptSpec {r : BurstOut σ η γ} (h : Specing lm.E.T prompt caches s.work)
    (hs : Served lm G prompt s.work) (hout : r.out ≠ []) (hsound : SpecSound lm.E.T r.sess)
    (hseq : r.sess.committed ++ r.sess.pendingTok.toList =
      caches.sess.committed ++ caches.sess.pendingTok.toList ++ s.prefillQueue ++ r.out)
    (hgreedy : G → r.gram = none ∧
      r.out = lm.E.T.greedy (lm.E.T.after (prompt ++ s.generated)) r.out.length) (b : Bool) :
    let t := s.acceptSpec hung lm cfg caches r
    Served lm G prompt t.s.work ∧ Parkable lm.E.T t.s.work ∧
      (t.stop = .goOn → Stage lm.E.T b G prompt t.s.work) := by
  intro t
  obtain ⟨kept, hacc, hpre, hall⟩ := acceptBurst_kept s.params.eos s.generated r.out
  have hwork : t.s.work = _ := Session.acceptSpec_work hung lm cfg caches r s
  rw [hacc, List.drop_left] at hwork
  refine ⟨?_, ?_, fun hgo => ?_⟩
  · rw [hwork]
    refine ⟨hs.prompted, hs.nonempty, hs.nPrompt, hs.nCached, fun hG => ?_, fun hG => ?_⟩
    · obtain ⟨hg, hpen, hcon⟩ := hs.plain hG
      refine ⟨hg, hpen, ?_⟩
      simp only [(hgreedy hG).1]
      exact hcon
    · exact Trunk.greedy_append (hs.greedy hG) (Trunk.greedy_of_prefix hpre (hgreedy hG).2)
  · rw [hwork]
    refine ⟨fun hnone => (by cases hnone), fun caches' hc => ?_⟩
    obtain rfl := Option.some.inj hc
    exact hsound
  · have hkept : kept = r.out := hall (Session.acceptSpec_goOn hgo)
    have hold : caches.sess.committed ++ caches.sess.pendingTok.toList ++ s.prefillQueue =
      prompt ++ s.generated := h.seq
    have hfed : s.fed ++ s.prefillQueue = prompt.drop s.nCached ++ s.generated := h.fed
    rw [hkept] at hwork
    rw [hwork]
    refine .specing ⟨rfl, h.graph, h.cache, hsound, ?_, ?_, fun hnil => ?_, fun hq => absurd rfl hq, h.device⟩
    · change r.sess.committed ++ r.sess.pendingTok.toList ++ [] = prompt ++ (s.generated ++ r.out)
      rw [hseq, hold, List.append_nil, List.append_assoc]
    · change s.fed ++ s.prefillQueue ++ r.out ++ [] = prompt.drop s.nCached ++ (s.generated ++ r.out)
      rw [hfed, List.append_nil, List.append_assoc]
    · exact absurd (List.append_eq_nil_iff.1 hnil).2 hout

/-- The speculative arm. -/
theorem Specing.stepSpec (h : Specing lm.E.T prompt caches s.work) (hs : Served lm G prompt s.work)
    (hf : (s.stepSpec hung lm cfg env caches).faults = []) (b : Bool) :
    let r := s.stepSpec hung lm cfg env caches
    Served lm G prompt r.s.work ∧ Parkable lm.E.T r.s.work ∧
      (r.stop = .goOn → Stage lm.E.T b G prompt r.s.work) := by
  have hpark : Parkable lm.E.T s.work := (Stage.specing (b := b) (G := G) h).parkable
  intro r
  have hr : s.stepSpec hung lm cfg env caches = r := rfl
  change r.faults = [] at hf
  clear_value r
  unfold Session.stepSpec at hr
  simp only at hr
  split at hr
  · subst hr
    exact ⟨hs, hpark, fun hgo => by cases hgo⟩
  · split at hr
    · subst hr
      exact ⟨hs.congr rfl rfl rfl rfl, ⟨fun hnone => absurd (hnone.symm.trans h.spec) (by simp), hpark.spec⟩,
        fun hgo => by cases hgo⟩
    · next hnext =>
      split at hr
      · subst hr
        cases hf
      · next out hok =>
        subst hr
        unfold Session.runBurst at hok
        split at hok
        · cases hok
        · split at hok
          · cases hok
          · next out' hrun =>
            obtain rfl := Except.ok.inj hok
            obtain ⟨hout, hsound, hseq⟩ := h.sound.burst hrun (Session.acceptSpec_faults hf)
            exact h.acceptSpec hs hout hsound hseq (fun hG => h.burst_greedy hs hG hnext hrun) b

/-- **`step_session`** of a session that has no graph. -/
theorem Stage.step {b : Bool} (hchain : G → H.ArgmaxChain) (h : Stage lm.E.T b G prompt s.work)
    (hs : Served lm G prompt s.work) (hgraph : s.graph = none)
    (hf : (s.step hung H lm cfg env).faults = []) :
    let r := s.step hung H lm cfg env
    Served lm G prompt r.s.work ∧ Parkable lm.E.T r.s.work ∧
      (r.stop = .goOn → Stage lm.E.T b G prompt r.s.work) := by
  cases h with
  | prefilling h =>
    have hspec : s.spec = none := h.spec
    have hdone : s.prefillDone = false := h.done
    simp only [Session.step, hspec, hdone]
    exact h.stepPrefill hs b
  | decoding h =>
    have hspec : s.spec = none := h.spec
    have hdone : s.prefillDone = true := h.done
    simp only [Session.step, hspec, hdone, if_true] at hf ⊢
    exact h.stepDecode hchain hs hf b
  | graphing hb h => exact absurd (hgraph.symm.trans h.graph) (by simp)
  | specing h =>
    have hspec : s.spec = some _ := h.spec
    simp only [Session.step, hspec] at hf ⊢
    exact h.stepSpec hs hf b

/-! ## The graph path -/

/-- The first token of a promoted session is drawn from the prompt's row. -/
theorem Stage.promote (h : Stage lm.E.T true G prompt s.work) (hs : Served lm G prompt s.work) :
    let r := s.promote lm cfg env
    Served lm G prompt r.s.work ∧ Parkable lm.E.T r.s.work ∧
      (r.stop = .goOn → Stage lm.E.T true G prompt r.s.work) := by
  have hpark := h.parkable
  intro r
  have hr : s.promote lm cfg env = r := rfl
  clear_value r
  unfold Session.promote at hr
  split at hr
  · subst hr
    exact ⟨hs, hpark, fun _ => h⟩
  · next cache hcache =>
    split at hr
    · subst hr
      exact ⟨hs, hpark, fun _ => h⟩
    · next hpro =>
      split at hr
      · subst hr
        exact ⟨hs, hpark, fun hgo => by cases hgo⟩
      · split at hr
        · subst hr
          exact ⟨hs.congr rfl rfl rfl rfl, ⟨fun _ _ c hc => (by cases hc), hpark.spec⟩, fun hgo => by cases hgo⟩
        · subst hr
          -- what `promotes` has checked: the prompt is in, nothing is generated, the row is on the host
          replace hpro : s.promotes lm cfg = true := by simpa using hpro
          simp only [Session.promotes, Bool.and_eq_true, List.isEmpty_iff, Bool.not_eq_true',
            List.isEmpty_eq_false_iff] at hpro
          obtain ⟨⟨⟨-, hdone⟩, hgen⟩, hrow⟩ := hpro
          refine ⟨hs.congr rfl rfl rfl rfl, ⟨fun _ _ c hc => (by cases hc), hpark.spec⟩, fun _ => ?_⟩
          cases h with
          | prefilling h => exact absurd (hdone.symm.trans h.done) (by simp)
          | graphing hb h => exact absurd (hcache.symm.trans h.cache) (by simp)
          | specing h => exact absurd (hcache.symm.trans h.cache) (by simp)
          | decoding h =>
            obtain ⟨c, hc, hholds, hkept⟩ := h.cache
            obtain rfl : cache = c := Option.some.inj (hcache.symm.trans hc)
            refine .graphing rfl ⟨h.spec, rfl, rfl, rfl, hdone, h.queue, hholds, h.seq, h.first hgen, fun hG => ?_⟩
            have hcon : s.constraint = none := (hs.plain hG).2.2
            have hmask : s.constraint.map lm.grammar.allowed = none := by rw [hcon, Option.map_none]
            refine ⟨hmask, ?_⟩
            simp only [hmask, GraphSession.fromCache]
            exact congrArg argmax (hkept.resolve_right fun hnil => hrow hnil.1)

namespace Session

/-- What the emission of a device token does. -/
theorem advanceTokenEmit_work (hung : ℕ → ℕ → Bool) (lm : LoadedModel σ η γ) (env : VisitEnv σ η) (tok : Tok)
    (s : Session σ η γ) :
    ((s.advanceTokenEmit hung lm env tok).2 ≠ none ∧ (s.advanceTokenEmit hung lm env tok).1.work = s.work) ∨
      ∃ c, (s.constraint = none → c = none) ∧ (s.advanceTokenEmit hung lm env tok).1.work =
        { s.work with generated := s.generated ++ [tok], constraint := c } := by
  unfold advanceTokenEmit
  split
  · exact .inl ⟨by simp, rfl⟩
  · obtain ⟨c, hc, hw⟩ := emitNext_work hung lm env false tok s
    exact .inr ⟨c, hc, by rw [settle_work, hw]⟩

/-- What a replay does. -/
theorem graphReplay_work (hung : ℕ → ℕ → Bool) (lm : LoadedModel σ η γ) (env : VisitEnv σ η)
    (g : GraphSession σ) (s : Session σ η γ) :
    ((s.graphReplay hung lm env g).stop ≠ .goOn ∧
      ∃ g', (s.graphReplay hung lm env g).s.work = { s.work with graph := some g' }) ∨
    ∃ g', g' = GraphSession.replay lm.E.T { g with mask := match s.constraint with
        | some c => some (lm.grammar.allowed c)
        | none => g.mask } ∧
      (s.graphReplay hung lm env g).s.work = { s.work with graph := some g', graphPending := some g'.tok } := by
  unfold graphReplay
  extract_lets g'
  split
  · exact .inl ⟨by simp, _, rfl⟩
  · split
    · exact .inl ⟨by simp, _, rfl⟩
    · exact .inr ⟨_, rfl, rfl⟩

theorem graphStep_none (hung : ℕ → ℕ → Bool) (lm : LoadedModel σ η γ) (env : VisitEnv σ η)
    {s : Session σ η γ} (h : s.graph = none) : s.graphStep hung lm env = { s, exit := none } := by
  unfold graphStep
  split
  · next hg => exact absurd (h.symm.trans hg) (by simp)
  · rfl

end Session

/-- A session without a plain cache or a speculative one has nothing to park. -/
theorem Parkable.of_none {T : Trunk σ η} {w : Work σ η γ} (hcache : w.cache = none) (hspec : w.spec = none) :
    Parkable T w :=
  ⟨fun _ _ c hc => absurd (hcache.symm.trans hc) (by simp),
    fun caches hs => absurd (hspec.symm.trans hs) (by simp)⟩

/-- One token of the graph session. -/
theorem Graphing.graphStep {g : GraphSession σ} (h : Graphing lm.E.T G prompt g s.work)
    (hs : Served lm G prompt s.work) :
    let r := s.graphStep hung lm env
    Served lm G prompt r.s.work ∧ Parkable lm.E.T r.s.work ∧
      (r.exit = none → Stage lm.E.T true G prompt r.s.work) := by
  have hpend : s.graphPending = some g.tok := h.pending
  have hgraph : s.graph = some g := h.graph
  have hcache : s.cache = none := h.cache
  have hspec : s.spec = none := h.spec
  have hseq : s.fed = prompt ++ s.generated := h.seq
  intro r
  have hr : s.graphStep hung lm env = r := rfl
  clear_value r
  have hemit := Session.advanceTokenEmit_work hung lm env g.tok { s with graphPending := none }
  have hserved : Served lm G prompt
      (({ s with graphPending := none } : Session σ η γ).advanceTokenEmit hung lm env g.tok).1.work := by
    rcases hemit with ⟨-, hw⟩ | ⟨c, hc, hw⟩
    · rw [hw]
      exact hs.congr rfl rfl rfl rfl
    · rw [hw]
      have hs₁ : Served lm G prompt ({ s with graphPending := none } : Session σ η γ).work :=
        hs.congr rfl rfl rfl rfl
      refine hs₁.emit rfl hc fun hG => ?_
      rw [(h.greedy hG).2]
      exact congrArg (fun fed => lm.E.T.pred (lm.E.T.after fed)) hseq
  unfold Session.graphStep at hr
  split at hr
  case h_2 hno => exact absurd hgraph (hno _ _ hpend)
  next pend g' hp hg =>
  obtain rfl : g' = g := Option.some.inj (hg.symm.trans hgraph)
  obtain rfl : pend = g'.tok := Option.some.inj (hp.symm.trans hpend)
  split at hr
  · next s' e he =>
    rw [he] at hemit hserved
    subst hr
    refine ⟨hserved, ?_, fun hnone => by cases hnone⟩
    rcases hemit with ⟨-, hw⟩ | ⟨c, hc, hw⟩
    · exact Parkable.of_none (congrArg Work.cache hw |>.trans hcache) (congrArg Work.spec hw |>.trans hspec)
    · exact Parkable.of_none (congrArg Work.cache hw |>.trans hcache) (congrArg Work.spec hw |>.trans hspec)
  · next s' he =>
    rw [he] at hemit hserved
    rcases hemit with ⟨hne, -⟩ | ⟨c, hc, hw⟩
    · exact absurd rfl hne
    · have hcache' : s'.cache = none := (congrArg Work.cache hw).trans hcache
      have hspec' : s'.spec = none := (congrArg Work.spec hw).trans hspec
      have hfed' : s'.fed = s.fed := congrArg Work.fed hw
      have hgen' : s'.generated = s.generated ++ [g'.tok] := congrArg Work.generated hw
      simp only at hr
      split at hr
      · subst hr
        exact ⟨hserved.congr rfl rfl rfl rfl, Parkable.of_none hcache' hspec', fun hnone => by cases hnone⟩
      · subst hr
        simp only [Session.settle_work]
        rcases Session.graphReplay_work hung lm env g' { s' with fed := s'.fed ++ [g'.tok] } with
          ⟨hstop, g₂, hwork⟩ | ⟨g₂, hg₂, hwork⟩
        · rw [hwork]
          exact ⟨hserved.congr rfl rfl rfl rfl, Parkable.of_none hcache' hspec',
            fun hnone => absurd (Session.settle_none hung hnone) hstop⟩
        · rw [hwork]
          refine ⟨hserved.congr rfl rfl rfl rfl, Parkable.of_none hcache' hspec', fun _ =>
            .graphing rfl ⟨hspec', rfl, hcache', rfl, (congrArg Work.prefillDone hw).trans h.done,
              (congrArg Work.prefillQueue hw).trans h.queue, ?_, ?_,
              (congrArg Work.deviceNext hw).trans h.device, fun hG => ?_⟩⟩
          · rw [hg₂]
            change (g'.cache.feed lm.E.T [g'.tok]).Holds lm.E.T (s'.fed ++ [g'.tok])
            rw [hfed']
            exact KvCache.feed_holds h.holds [g'.tok]
          · change s'.fed ++ [g'.tok] = prompt ++ s'.generated
            simp only [hfed', hgen', hseq, List.append_assoc]
          · have hcon : s'.constraint = none := (hserved.plain hG).2.2
            obtain ⟨hmask, -⟩ := h.greedy hG
            simp only [hcon, hmask] at hg₂
            rw [hg₂]
            refine ⟨rfl, ?_⟩
            change argmax (lm.E.T.row (g'.cache.feed lm.E.T [g'.tok]).st) =
              argmax (lm.E.T.row (lm.E.T.after (s'.fed ++ [g'.tok])))
            rw [hfed']
            exact congrArg argmax (KvCache.feed_row h.holds [g'.tok])

/-- **The tick of the lone session.** -/
theorem Stage.graphTick (h : Stage lm.E.T true G prompt s.work) (hs : Served lm G prompt s.work) :
    let r := s.graphTick hung lm cfg env
    Served lm G prompt r.s.work ∧ Parkable lm.E.T r.s.work ∧
      (r.exit = none → Stage lm.E.T true G prompt r.s.work) := by
  obtain ⟨hserved, hpark, hgo⟩ : Served lm G prompt (s.promote lm cfg env).s.work ∧
    Parkable lm.E.T (s.promote lm cfg env).s.work ∧ ((s.promote lm cfg env).stop = .goOn →
      Stage lm.E.T true G prompt (s.promote lm cfg env).s.work) := h.promote hs
  intro r
  have hr : s.graphTick hung lm cfg env = r := rfl
  clear_value r
  have hwork := Session.settle_work hung "" (s.promote lm cfg env)
  unfold Session.graphTick at hr
  split at hr
  · next s' he =>
    rw [he] at hwork
    have hnone : (Session.settle hung "" (s.promote lm cfg env)).2 = none := by rw [he]
    have hstage := hgo (Session.settle_none hung hnone)
    rw [← hwork] at hserved hpark hstage
    subst hr
    cases hstage with
    | graphing hb h => exact h.graphStep hserved
    | prefilling h =>
      rw [Session.graphStep_none hung lm env h.graph]
      exact ⟨hserved, hpark, fun _ => .prefilling h⟩
    | decoding h =>
      rw [Session.graphStep_none hung lm env h.graph]
      exact ⟨hserved, hpark, fun _ => .decoding h⟩
    | specing h =>
      rw [Session.graphStep_none hung lm env h.graph]
      exact ⟨hserved, hpark, fun _ => .specing h⟩
  · next s' e he =>
    rw [he] at hwork
    rw [← hwork] at hserved hpark
    subst hr
    exact ⟨hserved, hpark, fun hnone => by cases hnone⟩

/-- The degrade of a graph session. -/
theorem Stage.degrade {b : Bool} (h : Stage lm.E.T b G prompt s.work) (hs : Served lm G prompt s.work)
    (hf : (s.degrade hung lm env).faults = []) :
    let r := s.degrade hung lm env
    Served lm G prompt r.s.work ∧ Parkable lm.E.T r.s.work ∧
      (r.stop = .goOn → Stage lm.E.T b G prompt r.s.work) := by
  intro r
  have hr : s.degrade hung lm env = r := rfl
  change r.faults = [] at hf
  clear_value r
  unfold Session.degrade at hr
  split at hr
  · subst hr
    exact ⟨hs, h.parkable, fun _ => h⟩
  · next g hgraph =>
    cases h with
    | prefilling h => exact absurd (hgraph.symm.trans h.graph) (by simp)
    | decoding h => exact absurd (hgraph.symm.trans h.graph) (by simp)
    | specing h => exact absurd (hgraph.symm.trans h.graph) (by simp)
    | graphing hb h =>
      rename_i g₀
      obtain rfl : g = g₀ := Option.some.inj (hgraph.symm.trans h.graph)
      have hpend : s.graphPending = some g.tok := h.pending
      have hseq : s.fed = prompt ++ s.generated := h.seq
      have hemit := Session.advanceTokenEmit_work hung lm env g.tok
        { s with graph := none, cache := some g.cache, graphPending := none }
      simp only at hr
      split at hr
      case h_1 hnone => exact absurd (hnone.symm.trans hpend) (by simp)
      next pend hp =>
      obtain rfl : pend = g.tok := Option.some.inj (hp.symm.trans hpend)
      split at hr
      · subst hr
        cases hf
      · next s' he =>
        rw [he] at hemit
        rcases hemit with ⟨hne, -⟩ | ⟨c, hc, hw⟩
        · exact absurd rfl hne
        · have hserved : Served lm G prompt s'.work := by
            rw [hw]
            have hs₁ : Served lm G prompt ({ s with
                graph := none, cache := some g.cache, graphPending := none } : Session σ η γ).work :=
              hs.congr rfl rfl rfl rfl
            refine hs₁.emit rfl hc fun hG => ?_
            rw [(h.greedy hG).2]
            exact congrArg (fun fed => lm.E.T.pred (lm.E.T.after fed)) hseq
          have hemitting : Emitting lm.E.T prompt g.tok s'.work := by
            rw [hw]
            refine ⟨h.spec, rfl, ⟨_, rfl, h.holds⟩, h.done, h.queue, ?_, h.device, by simp⟩
            change s.fed ++ [g.tok] = prompt ++ (s.generated ++ [g.tok])
            rw [hseq, List.append_assoc]
          subst hr
          obtain ⟨-, hs', hdec⟩ := hemitting.decodeStep hserved hf
          exact ⟨hs', (Stage.decoding (b := b) hdec).parkable, fun _ => .decoding hdec⟩

/-! ## The hand-over -/

/-- **The hand-over** takes a session whose `fed` is what its cache holds to plain decoding. -/
theorem Stage.demote {b : Bool} {nLive : ℕ} (h : Stage lm.E.T b G prompt s.work) (hs : Served lm G prompt s.work)
    (hf : (s.demote lm cfg env nLive).faults = []) :
    let r := s.demote lm cfg env nLive
    Served lm G prompt r.s.work ∧ Parkable lm.E.T r.s.work ∧
      (r.stop = .goOn → Stage lm.E.T b G prompt r.s.work) := by
  intro r
  have hr : s.demote lm cfg env nLive = r := rfl
  change r.faults = [] at hf
  clear_value r
  unfold Session.demote at hr
  split at hr
  · subst hr
    exact ⟨hs, h.parkable, fun _ => h⟩
  · next caches hspec =>
    split at hr
    · subst hr
      exact ⟨hs, h.parkable, fun _ => h⟩
    · next hdem =>
      have hne : caches.sess.committed ≠ [] := by
        have hdem : s.demotes cfg nLive caches.sess = true := by simpa using hdem
        simp only [Session.demotes, Bool.and_eq_true, Bool.not_eq_true', List.isEmpty_eq_false_iff] at hdem
        exact hdem.1.2
      cases h with
      | prefilling h => exact absurd (hspec.symm.trans h.spec) (by simp)
      | decoding h => exact absurd (hspec.symm.trans h.spec) (by simp)
      | graphing hb h => exact absurd (hspec.symm.trans h.spec) (by simp)
      | specing h =>
        rename_i caches₀
        obtain rfl : caches = caches₀ := Option.some.inj (hspec.symm.trans h.spec)
        have hcache : s.cache = none := h.cache
        split at hr
        · subst hr
          exact ⟨hs.congr rfl rfl rfl rfl, Parkable.of_none hcache rfl, fun hgo => by cases hgo⟩
        · have hsound := h.sound.flush
          obtain ⟨-, hnone, hcomm, -⟩ := specFlushPending_rows h.sound.rows
          have hseq : caches.sess.committed ++ caches.sess.pendingTok.toList ++ s.prefillQueue =
            prompt ++ s.generated := h.seq
          rw [← hcomm] at hseq
          have hfed : s.fed ++ s.prefillQueue = prompt.drop s.nCached ++ s.generated := h.fed
          unfold Session.handOver at hr
          split at hr
          · next next hp hnext =>
            subst hr
            have hsame : s.fed = (specFlushPending lm.E.T caches.sess).committed := by
              by_contra hshort
              simp only [if_neg hshort] at hf
              cases hf
            -- rows are committed, so that tokens have been generated and the queue is fed
            have hfedne : s.fed ≠ [] := by
              rw [hsame, hcomm]
              exact fun hnil => hne (List.append_eq_nil_iff.1 hnil).1
            have hgen : s.generated ≠ [] := fun hnil => hfedne (h.fresh hnil).1
            have hq : s.prefillQueue = [] := by
              by_contra hq
              exact hgen (h.waiting hq)
            rw [hq, List.append_nil, ← hsame] at hseq
            have hrows := hsound.rows
            rw [← hsame] at hrows
            have hdec : Decoding lm.E.T G prompt ({ s with
                spec := none
                cache := some { toCache := (specFlushPending lm.E.T caches.sess).cache, maxCtx := caches.maxCtx }
                deviceNext := some next
                prefillDone := true
                lastLogits := [] } : Session σ η γ).work :=
              ⟨rfl, h.graph, ⟨_, rfl, hrows.holds, .inr ⟨rfl, fun r hr => by cases hr⟩⟩, rfl, hq, hseq, fun _ => rfl,
                fun hnil => absurd hnil hgen, fun _ t ht => hrows.pred t (hnext.trans ht)⟩
            exact ⟨hs.congr rfl rfl rfl rfl, (Stage.decoding (b := b) hdec).parkable, fun _ => .decoding hdec⟩
          · subst hr
            have hstage : Specing lm.E.T prompt { caches with sess := specFlushPending lm.E.T caches.sess }
                ({ s with spec := some { caches with sess := specFlushPending lm.E.T caches.sess } } :
                  Session σ η γ).work := by
              refine ⟨rfl, h.graph, h.cache, hsound, ?_, hfed, fun hnil => ⟨(h.fresh hnil).1, hnone⟩, h.waiting,
                h.device⟩
              change (specFlushPending lm.E.T caches.sess).committed ++
                (specFlushPending lm.E.T caches.sess).pendingTok.toList ++ s.prefillQueue = prompt ++ s.generated
              rw [hnone, Option.toList_none, List.append_nil, hseq]
            exact ⟨hs.congr rfl rfl rfl rfl, (Stage.specing (b := b) (G := G) hstage).parkable, fun _ => .specing hstage⟩

/-! ## Ticks of the prompt and of the batch -/

theorem dropBoundary_work (lm : LoadedModel σ η γ) (s : Session σ η γ) :
    (dropBoundary lm s).work = s.work := by
  rw [dropBoundary_eq]
  rfl

/-- **A prefill tick.** -/
theorem Prefilling.tick (h : Prefilling lm.E.T prompt s.work) (hs : Served lm G prompt s.work) (env : TickEnv)
    (px : PrefixCache PoolKey (Snapshot σ)) (budget : ℕ) (b : Bool) :
    let r := prefillTick lm cfg env s px budget
    Served lm G prompt r.2.s.work ∧
      (∀ e, r.1 = .error e → r.2.s.spec = none ∧ r.2.s.prefillDone = false) ∧
      ∀ n, r.1 = .ok n → Stage lm.E.T b G prompt r.2.s.work := by
  have hqueue : s.prefillQueue ≠ [] := h.queue
  obtain ⟨tok, queue, hq⟩ := List.exists_cons_of_ne_nil hqueue
  have hdrop : (dropBoundary lm s).prefillQueue = tok :: queue :=
    (congrArg Work.prefillQueue (dropBoundary_work lm s)).trans hq
  rw [← dropBoundary_work lm s] at h hs
  have hout : FeedOut lm G prompt (Memra.feedTick lm cfg env (dropBoundary lm s) px budget tok queue).2 :=
    h.feedTick hs env hdrop px budget
  intro r
  have hr : prefillTick lm cfg env s px budget = r := rfl
  clear_value r
  rcases hfeed : Memra.feedTick lm cfg env (dropBoundary lm s) px budget tok queue with ⟨n, err, t⟩
  rw [hfeed] at hout
  cases err with
  | some e =>
    rw [prefillTick_err hq hfeed] at hr
    subst hr
    exact ⟨hout.served, fun _ _ => ⟨hout.spec, hout.done⟩, fun n hn => by cases hn⟩
  | none =>
    rw [prefillTick_ok_eq hq hfeed] at hr
    subst hr
    obtain ⟨hserved, hstage⟩ : Served lm G prompt (t.settle cfg env).s.work ∧
      Stage lm.E.T b G prompt (t.settle cfg env).s.work := (hout.primed rfl).settle hout.served env b
    exact ⟨hserved, fun e he => (by cases he), fun _ _ => hstage⟩

theorem stageGrammarMask_work (lm : LoadedModel σ η γ) (cfg : Config) (env : VisitEnv σ η)
    (s : Session σ η γ) : (s.stageGrammarMask lm cfg env).2.work = s.work := by
  unfold Session.stageGrammarMask
  split
  · rfl
  · split <;> rfl

end

end Memra
