import Memra.Server.Proof.SchedulerVisit
import Memra.Server.Proof.SchedulerPools

/-!
# A tick keeps every session on track

`Session.OnTrack` is the invariant of a session on a board, `TickVisit.keeps` says that every visit outside batched
decode keeps it unless the visit leaves a fault, and `DecodeRows` carries the sessions whose token waits for its
chunk through batched decode. `phases_onTrack` puts the phases together, and `run_pools` the ticks of a run.
-/

namespace Memra

open Lib Session

variable {σ η γ : Type}

/-- A session on a board, in a worker that batches or not: at a stage while it runs; when it has left, the pools
may take what it holds. -/
def Session.OnTrack (H : Host σ η γ) (b : Bool) (s : Session σ η γ) (e : Option Exit) : Prop :=
  ∃ prompt, Served (H.loaded s.model) (H.ArgmaxChain ∧ s.replay.Greedy) prompt s.work ∧
    Parkable (H.loaded s.model).E.T s.work ∧
    (e = none → Stage (H.loaded s.model).E.T b (H.ArgmaxChain ∧ s.replay.Greedy) prompt s.work)

/-- The session is on track, and the prefix cache holds what it files. -/
def Tracks (H : Host σ η γ) (b : Bool) (sh : Shared σ) (s : Session σ η γ) (e : Option Exit) : Prop :=
  sh.px.Stores (SnapshotOk H) ∧ s.OnTrack H b e

/-- A visit to `s` keeps the session on track, unless it leaves a fault. -/
def Visit.Keeps (H : Host σ η γ) (b : Bool) (f : Visit σ η γ) (s : Session σ η γ) : Prop :=
  ∀ sh, (f sh s).1.faults = [] → sh.faults = [] ∧
    (Tracks H b sh s none → Tracks H b (f sh s).1 (f sh s).2.1 (f sh s).2.2)

section

variable {H : Host σ η γ} {cfg : SchedConfig} {hung : ℕ → ℕ → Bool} {b : Bool} {s s' : Session σ η γ}
  {e : Option Exit} {sh : Shared σ}

theorem Session.OnTrack.of_info (hinfo : s'.toSessionInfo = s.toSessionInfo) {prompt : List Tok}
    (h : Served (H.loaded s.model) (H.ArgmaxChain ∧ s.replay.Greedy) prompt s'.work ∧
      Parkable (H.loaded s.model).E.T s'.work ∧
      (e = none → Stage (H.loaded s.model).E.T b (H.ArgmaxChain ∧ s.replay.Greedy) prompt s'.work)) :
    s'.OnTrack H b e := by
  have hmodel : s'.model = s.model := congrArg SessionInfo.model hinfo
  have hreplay : s'.replay = s.replay := congrArg SessionInfo.replay hinfo
  unfold Session.OnTrack
  rw [hmodel, hreplay]
  exact ⟨prompt, h⟩

/-- A step that keeps what the session was admitted with keeps it on track, if it does so for every prompt. -/
theorem Session.OnTrack.step (h : s.OnTrack H b none) (hinfo : s'.toSessionInfo = s.toSessionInfo)
    (hstep : ∀ prompt, Served (H.loaded s.model) (H.ArgmaxChain ∧ s.replay.Greedy) prompt s.work →
      Stage (H.loaded s.model).E.T b (H.ArgmaxChain ∧ s.replay.Greedy) prompt s.work →
      Served (H.loaded s.model) (H.ArgmaxChain ∧ s.replay.Greedy) prompt s'.work ∧
        Parkable (H.loaded s.model).E.T s'.work ∧
        (e = none → Stage (H.loaded s.model).E.T b (H.ArgmaxChain ∧ s.replay.Greedy) prompt s'.work)) :
    s'.OnTrack H b e := by
  obtain ⟨prompt, hs, -, hstage⟩ := h
  exact .of_info hinfo (hstep prompt hs (hstage rfl))

theorem Shared.note_faults {faults : List StepFault} (h : (sh.note faults).faults = []) :
    sh.faults = [] ∧ faults = [] := List.append_eq_nil_iff.1 h

/-- The work of a settled step. -/
theorem Session.OnTrack.settled {G : Prop} {prompt : List Tok} {lm : LoadedModel σ η γ} {pre : String}
    {r : Stepped σ η γ} (h : Served lm G prompt r.s.work ∧ Parkable lm.E.T r.s.work ∧
      (r.stop = .goOn → Stage lm.E.T b G prompt r.s.work)) :
    Served lm G prompt (Session.settle hung pre r).1.work ∧ Parkable lm.E.T (Session.settle hung pre r).1.work ∧
      ((Session.settle hung pre r).2 = none → Stage lm.E.T b G prompt (Session.settle hung pre r).1.work) := by
  rw [settle_work]
  exact ⟨h.1, h.2.1, fun hnone => h.2.2 (settle_none hung hnone)⟩

/-- A stage that is no graph session's, in a worker that does not batch. -/
theorem Stage.graph_none {T : Trunk σ η} {G : Prop} {prompt : List Tok} {w : Work σ η γ}
    (h : Stage T false G prompt w) : w.graph = none := by
  cases h with
  | prefilling h => exact h.graph
  | decoding h => exact h.graph
  | graphing hb h => cases hb
  | specing h => exact h.graph

/-- A stage with something speculative or plain at hand is no graph session's. -/
theorem Stage.graph_none_of {T : Trunk σ η} {G : Prop} {prompt : List Tok} {w : Work σ η γ}
    (h : Stage T b G prompt w) (hat : w.spec.isSome ∨ w.cache.isSome) : w.graph = none := by
  cases h with
  | prefilling h => exact h.graph
  | decoding h => exact h.graph
  | graphing hb h =>
    rw [h.spec, h.cache] at hat
    simp at hat
  | specing h => exact h.graph

/-- The step of a session without a graph, settled or parked. -/
theorem Session.OnTrack.stepped {env : VisitEnv σ η} {out : Session σ η γ × Option Exit}
    (h : s.OnTrack H b none) (hinfo : out.1.toSessionInfo = s.toSessionInfo)
    (hgraph : ∀ {G : Prop} {prompt : List Tok}, Stage (H.loaded s.model).E.T b G prompt s.work → s.graph = none)
    (hf : (s.step hung H (H.loaded s.model) cfg.toConfig env).faults = [])
    (hwork : out.1.work = (s.step hung H (H.loaded s.model) cfg.toConfig env).s.work)
    (hgo : out.2 = none → (s.step hung H (H.loaded s.model) cfg.toConfig env).stop = .goOn) :
    out.1.OnTrack H b out.2 := by
  refine h.step hinfo fun prompt hs hstage => ?_
  rw [hwork]
  have hout := hstage.step (fun hG => hG.1) hs (hgraph hstage) hf
  exact ⟨hout.1, hout.2.1, fun hnone => hout.2.2 (hgo hnone)⟩

theorem parkOrFail_work (err : String) :
    (s.parkOrFail hung cfg.toConfig err).1.work = s.work ∧ (s.parkOrFail hung cfg.toConfig err).2 ≠ none := by
  unfold Session.parkOrFail
  split
  · simp only
    split
    · exact ⟨rfl, by simp⟩
    · exact ⟨rfl, by simp⟩
  · exact ⟨rfl, by simp⟩

/-- A stage that still has something to prime is the prompt's. -/
theorem Stage.prefilling_of {T : Trunk σ η} {G : Prop} {prompt : List Tok} {w : Work σ η γ}
    (h : Stage T b G prompt w) (hspec : w.spec = none) (hdone : w.prefillDone = false) : Prefilling T prompt w := by
  cases h with
  | prefilling h => exact h
  | decoding h => exact absurd (hdone.symm.trans h.done) (by simp)
  | graphing hb h => exact absurd (hdone.symm.trans h.done) (by simp)
  | specing h => exact absurd (hspec.symm.trans h.spec) (by simp)

theorem Visit.prefill_px (budget : ℕ) (env : VisitEnv σ η) (sh : Shared σ) (s : Session σ η γ) :
    (Visit.prefill H cfg hung budget env sh s).1.px =
      (prefillTick (H.loaded s.model) cfg.toConfig env.tick s sh.px budget).2.px := by
  unfold Visit.prefill
  simp only
  split <;> rfl

theorem Visit.prefill_faults (budget : ℕ) (env : VisitEnv σ η) (sh : Shared σ) (s : Session σ η γ) :
    (Visit.prefill H cfg hung budget env sh s).1.faults = sh.faults := by
  unfold Visit.prefill
  simp only
  split <;> rfl

theorem Visit.graph_same (env : VisitEnv σ η) (sh : Shared σ) (s : Session σ η γ) :
    (Visit.graph H cfg hung env sh s).1.faults = sh.faults ∧ (Visit.graph H cfg hung env sh s).1.px = sh.px := by
  unfold Visit.graph
  simp only
  split <;> exact ⟨rfl, rfl⟩

theorem Visit.eager_same (env : VisitEnv σ η) (sh : Shared σ) (s : Session σ η γ) :
    (Visit.eager H cfg hung env sh s).1.faults =
        (sh.note (s.step hung H (H.loaded s.model) cfg.toConfig env).faults).faults ∧
      (Visit.eager H cfg hung env sh s).1.px = sh.px := by
  unfold Visit.eager
  simp only
  split
  · split <;> exact ⟨rfl, rfl⟩
  · exact ⟨rfl, rfl⟩

/-- The prefill tick of a session that still has something to prime. -/
theorem Visit.prefill_keeps (budget : ℕ) (env : VisitEnv σ η) (hspec : s.spec = none)
    (hdone : s.prefillDone = false)
    (hinfo : (Visit.prefill H cfg hung budget env sh s).2.1.toSessionInfo = s.toSessionInfo)
    (ht : Tracks H b sh s none) :
    Tracks H b (Visit.prefill H cfg hung budget env sh s).1 (Visit.prefill H cfg hung budget env sh s).2.1
      (Visit.prefill H cfg hung budget env sh s).2.2 := by
  refine ⟨?_, ht.2.step hinfo fun prompt hs hstage => ?_⟩
  · rw [Visit.prefill_px]
    obtain ⟨prompt, hs, -, hstage⟩ := ht.2
    exact ((hstage rfl).prefilling_of hspec hdone).tick_stores hs ht.1 budget
  · obtain ⟨hserved, herr, hok⟩ : Served (H.loaded s.model) (H.ArgmaxChain ∧ s.replay.Greedy) prompt
        (prefillTick (H.loaded s.model) cfg.toConfig env.tick s sh.px budget).2.s.work ∧ _ :=
      (hstage.prefilling_of hspec hdone).tick hs env.tick sh.px budget b
    unfold Visit.prefill
    simp only
    split
    · next err he =>
      obtain ⟨hspec', hdone'⟩ := herr err he
      refine ⟨hserved.congr rfl rfl rfl rfl, ⟨fun _ hd => absurd (hd.symm.trans hdone') (by simp), ?_⟩,
        fun hnone => by cases hnone⟩
      exact fun caches hc => absurd (hspec'.symm.trans hc) (by simp)
    · next n hn => exact ⟨hserved, (hok n hn).parkable, fun _ => hok n hn⟩

/-- One token of an eager-only model. -/
theorem Visit.eager_keeps (env : VisitEnv σ η) (hcache : s.cache.isSome)
    (hf : (Visit.eager H cfg hung env sh s).1.faults = [])
    (hinfo : (Visit.eager H cfg hung env sh s).2.1.toSessionInfo = s.toSessionInfo) :
    sh.faults = [] ∧ (Tracks H b sh s none → Tracks H b (Visit.eager H cfg hung env sh s).1
      (Visit.eager H cfg hung env sh s).2.1 (Visit.eager H cfg hung env sh s).2.2) := by
  rw [(Visit.eager_same env sh s).1] at hf
  obtain ⟨hsh, hf⟩ := Shared.note_faults hf
  refine ⟨hsh, fun ht => ⟨?_, ?_⟩⟩
  · rw [(Visit.eager_same env sh s).2]
    exact ht.1
  · exact ht.2.stepped hinfo (fun hstage => hstage.graph_none_of (.inr hcache)) hf (settle_work hung _ _)
      (settle_none hung)

/-- **Every visit** outside batched decode keeps its session on track, unless it leaves a fault. -/
theorem TickVisit.keeps {f : Visit σ η γ} {Q : Session σ η γ → Prop} (h : TickVisit H cfg hung f Q) (hQ : Q s) :
    f.Keeps H cfg.batching s := by
  intro sh hf
  have hinfo := (h.left sh s).info
  cases h with
  | abort gone =>
    unfold Visit.abort at hf hinfo ⊢
    split at hf
    · next hgone =>
      rw [if_pos hgone] at hinfo ⊢
      exact ⟨hf, fun ht => ⟨ht.1, ht.2.step hinfo fun prompt hs hstage =>
        ⟨hs, hstage.parkable, fun hnone => by cases hnone⟩⟩⟩
    · next hgone =>
      rw [if_neg hgone] at hinfo ⊢
      exact ⟨hf, fun ht => ht⟩
  | legacy env hb =>
    obtain ⟨hsh, hf⟩ := Shared.note_faults hf
    refine ⟨hsh, fun ht => ⟨ht.1, ht.2.stepped hinfo (fun hstage => ?_) hf (settle_work hung _ _)
      fun hnone => settle_none hung hnone⟩⟩
    rw [hb] at hstage
    exact hstage.graph_none
  | degrade env =>
    obtain ⟨hsh, hf⟩ := Shared.note_faults hf
    refine ⟨hsh, fun ht => ⟨ht.1, ht.2.step hinfo fun prompt hs hstage => ?_⟩⟩
    exact Session.OnTrack.settled (hstage.degrade hs hf)
  | graph env hb =>
    rw [(Visit.graph_same env sh s).1] at hf
    refine ⟨hf, fun ht => ⟨?_, ht.2.step hinfo fun prompt hs hstage => ?_⟩⟩
    · rw [(Visit.graph_same env sh s).2]
      exact ht.1
    · rw [hb] at hstage ⊢
      exact hstage.graphTick hs
  | demote nLive env =>
    obtain ⟨hsh, hf⟩ := Shared.note_faults hf
    refine ⟨hsh, fun ht => ⟨ht.1, ht.2.step hinfo fun prompt hs hstage => ?_⟩⟩
    exact Session.OnTrack.settled (hstage.demote hs hf)
  | burst env =>
    obtain ⟨hsh, hf⟩ : sh.faults = [] ∧ (s.step hung H (H.loaded s.model) cfg.toConfig env).faults = [] :=
      Shared.note_faults hf
    refine ⟨hsh, fun ht => ⟨ht.1, ht.2.stepped hinfo (fun hstage => hstage.graph_none_of (.inl hQ)) hf ?_ ?_⟩⟩
    · unfold Visit.burst
      simp only
      split
      · exact (parkOrFail_work _).1
      · exact settle_work hung _ _
    · unfold Visit.burst
      simp only
      split
      · exact fun hnone => absurd hnone (parkOrFail_work _).2
      · exact settle_none hung
  | primeRow seed env =>
    have hrow : ∀ prompt, Served (H.loaded s.model) (H.ArgmaxChain ∧ s.replay.Greedy) prompt s.work →
        Stage (H.loaded s.model).E.T cfg.batching (H.ArgmaxChain ∧ s.replay.Greedy) prompt s.work →
        Served (H.loaded s.model) (H.ArgmaxChain ∧ s.replay.Greedy) prompt (s.primeRow (H.loaded s.model)).work ∧
          Parkable (H.loaded s.model).E.T (s.primeRow (H.loaded s.model)).work ∧ _ := fun prompt hs hstage =>
      ⟨(hstage.primeRow hs).1, (hstage.primeRow hs).2.parkable, (hstage.primeRow hs).2⟩
    unfold Visit.primeRow at hf hinfo ⊢
    cases seed with
    | true =>
      have hwork := Prefill.maybePrefixSeed_work cfg.toConfig env.tick
        { s := s.primeRow (H.loaded s.model), px := sh.px }
      refine ⟨hf, fun ht => ⟨?_, ht.2.step hinfo fun prompt hs hstage => ?_⟩⟩
      · obtain ⟨prompt, -, -, hstage⟩ := ht.2
        exact (hstage rfl).primeRow_stores ht.1
      · simp only [if_true]
        rw [hwork]
        exact ⟨(hrow prompt hs hstage).1, (hrow prompt hs hstage).2.1, fun _ => (hrow prompt hs hstage).2.2⟩
    | false =>
      exact ⟨hf, fun ht => ⟨ht.1, ht.2.step hinfo fun prompt hs hstage =>
        ⟨(hrow prompt hs hstage).1, (hrow prompt hs hstage).2.1, fun _ => (hrow prompt hs hstage).2.2⟩⟩⟩
  | tear spoil => exact absurd (List.append_eq_nil_iff.1 hf).2 (by simp)
  | prefill p budget env =>
    unfold Visit.guarded at hf hinfo ⊢
    split at hf
    · next hp =>
      rw [if_pos hp] at hinfo ⊢
      obtain ⟨hspec, hdone⟩ := hQ hp
      rw [Visit.prefill_faults] at hf
      exact ⟨hf, Visit.prefill_keeps budget env hspec hdone hinfo⟩
    · next hp =>
      rw [if_neg hp] at hinfo ⊢
      exact ⟨hf, fun ht => ht⟩
  | eager env =>
    unfold Visit.guarded at hf hinfo ⊢
    split at hf
    · next hp =>
      rw [if_pos hp] at hinfo ⊢
      simp only [Bool.and_eq_true] at hp
      exact Visit.eager_keeps env hp.2 hf hinfo
    · next hp =>
      rw [if_neg hp] at hinfo ⊢
      exact ⟨hf, fun ht => ht⟩

theorem TickVisit.ready {f : Visit σ η γ} {Q : Session σ η γ → Prop} (h : TickVisit H cfg hung f Q) (sh : Shared σ)
    (s : Session σ η γ) : (f sh s).1.ready = sh.ready := by
  cases h with
  | abort gone =>
    unfold Visit.abort
    split <;> rfl
  | legacy env hb => rfl
  | degrade env => rfl
  | graph env hb =>
    unfold Visit.graph
    simp only
    split <;> rfl
  | demote nLive env => rfl
  | burst env => rfl
  | primeRow seed env => cases seed <;> rfl
  | tear spoil => rfl
  | prefill p budget env =>
    unfold Visit.guarded
    split
    · unfold Visit.prefill
      simp only
      split <;> rfl
    · rfl
  | eager env =>
    unfold Visit.guarded
    split
    · unfold Visit.eager
      simp only
      split
      · split <;> rfl
      · rfl
    · rfl

/-! ## Batched decode -/

/-- The token of the session is drawn and waits to be fed. -/
def Session.Waits (H : Host σ η γ) (tok : Tok) (s : Session σ η γ) : Prop :=
  ∃ prompt, Served (H.loaded s.model) (H.ArgmaxChain ∧ s.replay.Greedy) prompt s.work ∧
    Emitting (H.loaded s.model).E.T prompt tok s.work

/-- A stage with the prompt fed and a plain cache is plain decoding. -/
theorem Stage.decoding_of {T : Trunk σ η} {G : Prop} {prompt : List Tok} {w : Work σ η γ}
    (h : Stage T b G prompt w) (hspec : w.spec = none) (hdone : w.prefillDone = true) (hcache : w.cache.isSome) :
    Decoding T G prompt w := by
  cases h with
  | prefilling h => exact absurd (hdone.symm.trans h.done) (by simp)
  | decoding h => exact h
  | graphing hb h =>
    rw [h.cache] at hcache
    cases hcache
  | specing h => exact absurd (hspec.symm.trans h.spec) (by simp)

/-- The host half of a batched step: the session leaves, or its token waits. -/
theorem Visit.decode_waits (i : ℕ) (env : VisitEnv σ η) (hdec : Scheduler.decodes H s = true)
    (h : s.OnTrack H b none) :
    let r := Visit.decode H cfg hung i env sh s
    r.1.px = sh.px ∧
      ((r.1.ready = sh.ready ∧ r.2.1.OnTrack H b r.2.2) ∨
        ∃ t, r.1.ready = sh.ready ++ [(i, t)] ∧ r.2.2 = none ∧ r.2.1.Waits H t) := by
  intro r
  have hrow : RowVisit H cfg hung (Visit.decode H cfg hung i env) := .decode i env
  have hinfo : r.2.1.toSessionInfo = s.toSessionInfo := (hrow.left sh s).info
  have hr : Visit.decode H cfg hung i env sh s = r := rfl
  clear_value r
  obtain ⟨prompt, hs, -, hstage⟩ := h
  simp only [Scheduler.decodes, Bool.and_eq_true, Option.isNone_iff_eq_none] at hdec
  obtain ⟨⟨⟨hspec, hdone⟩, hcache⟩, -⟩ := hdec
  have hdrawn : Decoding (H.loaded s.model).E.T _ prompt s.work := (hstage rfl).decoding_of hspec hdone hcache
  generalize hout : s.drawEmit hung H (H.loaded s.model) env = out
  obtain ⟨hserved, hpark, hgo⟩ : Served (H.loaded s.model) (H.ArgmaxChain ∧ s.replay.Greedy) prompt out.1.s.work ∧
      Parkable (H.loaded s.model).E.T out.1.s.work ∧ (out.1.stop = .goOn → ∃ next, out.2 = some next ∧
        Emitting (H.loaded s.model).E.T prompt next out.1.s.work) := by
    rw [← hout]
    exact hdrawn.drawEmit (fun hG => hG.1) hs
  have hadvance : s.advanceSampleEmit hung H (H.loaded s.model) env = (Session.settle hung "" out.1, out.2) := by
    rw [← hout]
    rfl
  have hwork := settle_work hung "" out.1
  unfold Visit.decode at hr
  rw [hadvance] at hr
  split at hr
  · next s' t heq =>
    obtain ⟨hsettle, hnext⟩ := Prod.mk.inj heq
    rw [hsettle] at hwork
    have hstop : out.1.stop = .goOn := settle_none hung (congrArg Prod.snd hsettle)
    obtain ⟨next, hnext', hemit⟩ := hgo hstop
    obtain rfl : next = t := Option.some.inj (hnext'.symm.trans hnext)
    rw [← hwork] at hserved hpark hemit
    have hmask := stageGrammarMask_work (H.loaded s'.model) cfg.toConfig env s'
    split at hr
    · next err s'' hq =>
      rw [hq] at hmask
      rw [← hmask] at hserved hpark
      subst hr
      exact ⟨rfl, .inl ⟨rfl, .of_info hinfo ⟨hserved, hpark, fun hnone => by cases hnone⟩⟩⟩
    · next s'' hq =>
      rw [hq] at hmask
      rw [← hmask] at hserved hemit
      subst hr
      have hmodel : s''.model = s.model := congrArg SessionInfo.model hinfo
      have hreplay : s''.replay = s.replay := congrArg SessionInfo.replay hinfo
      refine ⟨rfl, .inr ⟨next, rfl, rfl, prompt, ?_⟩⟩
      rw [hmodel, hreplay]
      exact ⟨hserved, hemit⟩
  · next s' e o hno heq =>
    obtain ⟨hsettle, hnext⟩ := Prod.mk.inj heq
    rw [hsettle] at hwork
    rw [← hwork] at hserved hpark
    subst hr
    refine ⟨rfl, .inl ⟨rfl, .of_info hinfo ⟨hserved, hpark, fun hnone => ?_⟩⟩⟩
    have hstop : out.1.stop = .goOn := settle_none hung ((congrArg Prod.snd hsettle).trans hnone)
    obtain ⟨next, hnext', -⟩ := hgo hstop
    have hnone : e = none := hnone
    exact (hno next (hnext.symm.trans hnext') hnone).elim

/-- The sessions of `rows` wait for their token to be fed; the others are on track. -/
structure Waiting (H : Host σ η γ) (b : Bool) (rows : List (ℕ × Tok)) (B : TickBoard σ η γ) : Prop where
  px : B.shared.px.Stores (SnapshotOk H)
  once : (rows.map Prod.fst).Nodup
  slots : ∀ i x, B.slots[i]? = some x → i ∉ rows.map Prod.fst → x.val.OnTrack H b x.exit
  rows : ∀ row ∈ rows, ∀ x, B.slots[row.1]? = some x → x.exit = none ∧ x.val.Waits H row.2

/-- The visit that feeds the first of the rows. -/
theorem Waiting.feed {B : TickBoard σ η γ} {row : ℕ × Tok} {rows : List (ℕ × Tok)} {f : Visit σ η γ}
    (hfeed : ∀ sh s, (f sh s).1.faults = [] → sh.faults = [] ∧ (s.Waits H row.2 →
      (f sh s).1.px = sh.px ∧ (f sh s).2.1.OnTrack H b (f sh s).2.2))
    (h : B.shared.faults = [] → Waiting H b (row :: rows) B) (hf : (B.visit f row.1).shared.faults = []) :
    Waiting H b rows (B.visit f row.1) := by
  by_cases hslot : ∃ s, B.slots[row.1]? = some ⟨s, none⟩
  · obtain ⟨s, hs⟩ := hslot
    rw [Board.visit_running hs] at hf ⊢
    obtain ⟨hf, hfeed⟩ := hfeed B.shared s hf
    have h := h hf
    obtain ⟨hrow, honce⟩ := List.nodup_cons.1 h.once
    obtain ⟨hpx, htrack⟩ := hfeed (h.rows row (List.mem_cons_self ..) _ hs).2
    have hlt := (List.getElem?_eq_some_iff.1 hs).1
    refine ⟨hpx ▸ h.px, honce, fun i x hx hi => ?_, fun r hr x hx => ?_⟩
    · by_cases hri : row.1 = i
      · subst hri
        rw [List.getElem?_set_self hlt] at hx
        obtain rfl := Option.some.inj hx
        exact htrack
      · rw [List.getElem?_set_ne hri] at hx
        refine h.slots i x hx fun hmem => ?_
        rcases List.mem_cons.1 hmem with rfl | hmem
        · exact hri rfl
        · exact hi hmem
    · have hne : row.1 ≠ r.1 := fun heq => hrow (heq ▸ List.mem_map_of_mem hr)
      rw [List.getElem?_set_ne hne] at hx
      exact h.rows r (List.mem_cons_of_mem _ hr) x hx
  · have hidle : ∀ s, B.slots[row.1]? ≠ some ⟨s, none⟩ := not_exists.1 hslot
    rw [Board.visit_idle hidle] at hf ⊢
    have h := h hf
    refine ⟨h.px, (List.nodup_cons.1 h.once).2, fun i x hx hi => ?_,
      fun r hr x hx => h.rows r (List.mem_cons_of_mem _ hr) x hx⟩
    refine h.slots i x hx fun hmem => ?_
    rcases List.mem_cons.1 hmem with rfl | hmem
    · obtain ⟨s, e⟩ := x
      obtain rfl : e = none := (h.rows row (List.mem_cons_self ..) _ hx).1
      exact hidle s hx
    · exact hi hmem

/-- The visit that draws the token of a session. -/
theorem Waiting.draw {B : TickBoard σ η γ} {i : ℕ} {env : VisitEnv σ η} (h : Waiting H b B.shared.ready B)
    (hi : i ∉ B.shared.ready.map Prod.fst)
    (hdec : ∀ s, B.slots[i]? = some ⟨s, none⟩ → Scheduler.decodes H s = true) :
    Waiting H b (B.visit (Visit.decode H cfg hung i env) i).shared.ready
        (B.visit (Visit.decode H cfg hung i env) i) ∧
      ∀ j, j ≠ i → j ∈ (B.visit (Visit.decode H cfg hung i env) i).shared.ready.map Prod.fst →
        j ∈ B.shared.ready.map Prod.fst := by
  by_cases hslot : ∃ s, B.slots[i]? = some ⟨s, none⟩
  · obtain ⟨s, hs⟩ := hslot
    have hlt := (List.getElem?_eq_some_iff.1 hs).1
    obtain ⟨hpx, hout⟩ : (Visit.decode H cfg hung i env B.shared s).1.px = B.shared.px ∧ _ :=
      Visit.decode_waits i env (hdec s hs) (h.slots i _ hs hi)
    rw [Board.visit_running hs]
    -- the other rows are other slots
    have hrows : ∀ row ∈ B.shared.ready, ∀ x,
        (B.slots.set i ⟨(Visit.decode H cfg hung i env B.shared s).2.1,
          (Visit.decode H cfg hung i env B.shared s).2.2⟩)[row.1]? = some x →
        x.exit = none ∧ x.val.Waits H row.2 := by
      intro row hrow x hx
      have hne : i ≠ row.1 := fun heq => hi (heq ▸ List.mem_map_of_mem hrow)
      rw [List.getElem?_set_ne hne] at hx
      exact h.rows row hrow x hx
    rcases hout with ⟨hready, htrack⟩ | ⟨t, hready, hexit, hwaits⟩
    · rw [hready]
      refine ⟨⟨hpx ▸ h.px, h.once, fun j x hx hj => ?_, hrows⟩, fun j _ hj => hj⟩
      by_cases hij : i = j
      · subst hij
        rw [List.getElem?_set_self hlt] at hx
        obtain rfl := Option.some.inj hx
        exact htrack
      · rw [List.getElem?_set_ne hij] at hx
        exact h.slots j x hx hj
    · rw [hready]
      simp only [List.map_append, List.map_cons, List.map_nil, List.mem_append, List.mem_singleton]
      refine ⟨⟨hpx ▸ h.px, ?_, fun j x hx hj => ?_, fun row hrow x hx => ?_⟩, fun j hne hj => ?_⟩
      · rw [List.map_append, List.nodup_append]
        refine ⟨h.once, by simp, fun j hj k hk => ?_⟩
        obtain rfl : k = i := by simpa using hk
        exact fun heq => hi (heq ▸ hj)
      · simp only [List.map_append, List.map_cons, List.map_nil, List.mem_append, List.mem_singleton, not_or] at hj
        rw [List.getElem?_set_ne (Ne.symm hj.2)] at hx
        exact h.slots j x hx hj.1
      · rcases List.mem_append.1 hrow with hrow | hrow
        · exact hrows row hrow x hx
        · obtain rfl := List.mem_singleton.1 hrow
          rw [List.getElem?_set_self hlt] at hx
          obtain rfl := Option.some.inj hx
          exact ⟨hexit, hwaits⟩
      · exact hj.resolve_right hne
  · rw [Board.visit_idle (not_exists.1 hslot)]
    exact ⟨h, fun j _ hj => hj⟩

theorem Visit.decode_faults (i : ℕ) (env : VisitEnv σ η) (sh : Shared σ) (s : Session σ η γ) :
    (Visit.decode H cfg hung i env sh s).1.faults = sh.faults := by
  unfold Visit.decode
  split
  · split <;> rfl
  · rfl

/-- What a board is, unless a fault is on record. -/
def BoardOk (H : Host σ η γ) (b : Bool) (B : TickBoard σ η γ) : Prop :=
  B.shared.faults = [] → B.Inv (fun sh => sh.px.Stores (SnapshotOk H)) fun _ s e => s.OnTrack H b e

/-- The host halves of batched decode. -/
theorem decodeSweep_waiting {B : TickBoard σ η γ} {order : List ℕ} (env : World σ η) (h : BoardOk H b B)
    (hready : B.shared.ready = []) (hnodup : order.Nodup)
    (hdec : ∀ i ∈ order, ∀ s, B.slots[i]? = some ⟨s, none⟩ → Scheduler.decodes H s = true) :
    let B' := B.sweep (fun i => Visit.decode H cfg hung i (env.visit .decode i)) id order
    B'.shared.faults = [] → Waiting H b B'.shared.ready B' := by
  intro B'
  have hrun : B'.shared.faults = [] → Waiting H b B'.shared.ready B' ∧ ([] : List ℕ).Nodup ∧
      (∀ i ∈ ([] : List ℕ), i ∉ B'.shared.ready.map Prod.fst) ∧
      ∀ i ∈ ([] : List ℕ), ∀ s, B'.slots[i]? = some ⟨s, none⟩ → Scheduler.decodes H s = true := by
    refine Board.sweep_induction_rest (P := fun rest B' => B'.shared.faults = [] →
      Waiting H b B'.shared.ready B' ∧ rest.Nodup ∧ (∀ i ∈ rest, i ∉ B'.shared.ready.map Prod.fst) ∧
        ∀ i ∈ rest, ∀ s, B'.slots[i]? = some ⟨s, none⟩ → Scheduler.decodes H s = true)
      (fun hf => ⟨⟨(h hf).shared, by simp [hready], fun i x hx _ => (h hf).slots i x hx, by simp [hready]⟩, hnodup,
        by simp [hready], hdec⟩) fun B' i rest hP hf => ?_
    have hfaults : (B'.visit (Visit.decode H cfg hung i (env.visit .decode i)) i).shared.faults =
        B'.shared.faults :=
      Board.visit_shared (P := fun sh : Shared σ => sh.faults = B'.shared.faults) rfl fun s _ =>
        Visit.decode_faults i _ _ s
    obtain ⟨hw, hnodup, hnew, hdec⟩ := hP (hfaults.symm.trans hf)
    obtain ⟨hi, hrest⟩ := List.nodup_cons.1 hnodup
    obtain ⟨hw', hold⟩ := hw.draw (hnew i (List.mem_cons_self ..)) (hdec i (List.mem_cons_self ..))
    refine ⟨hw', hrest, fun j hj hmem => ?_, fun j hj s hs => ?_⟩
    · exact hnew j (List.mem_cons_of_mem _ hj) (hold j (fun heq => hi (heq ▸ hj)) hmem)
    · have hne : i ≠ j := fun heq => hi (heq ▸ hj)
      exact hdec j (List.mem_cons_of_mem _ hj) s ((Board.visit_other hne).symm.trans hs)
  exact fun hf => (hrun hf).1

/-- A row of a batched step. -/
theorem Visit.batchRow_feeds {tok : Tok} (sh : Shared σ) (s : Session σ η γ)
    (hf : (Visit.batchRow H cfg tok sh s).1.faults = []) :
    sh.faults = [] ∧ (s.Waits H tok → (Visit.batchRow H cfg tok sh s).1.px = sh.px ∧
      (Visit.batchRow H cfg tok sh s).2.1.OnTrack H b (Visit.batchRow H cfg tok sh s).2.2) := by
  have hrow : RowVisit H cfg (fun _ _ => false) (Visit.batchRow H cfg tok) := .batchRow tok
  refine ⟨hf, fun hw => ⟨rfl, ?_⟩⟩
  obtain ⟨prompt, hs, hemit⟩ := hw
  obtain ⟨hserved, hdec⟩ : Served (H.loaded s.model) _ prompt (s.batchRow (H.loaded s.model) cfg.toConfig tok).work ∧
    Decoding (H.loaded s.model).E.T _ prompt (s.batchRow (H.loaded s.model) cfg.toConfig tok).work := hemit.batchRow hs
  exact .of_info (hrow.left sh s).info ⟨hserved, (Stage.decoding (b := b) hdec).parkable, fun _ => .decoding hdec⟩

theorem groupRow_flatten (model : ℕ → Option String) (cap : ℕ → ℕ) (chunks : List (List (ℕ × Tok)))
    (row : ℕ × Tok) : (Scheduler.groupRow model cap chunks row).flatten = chunks.flatten ++ [row] := by
  unfold Scheduler.groupRow
  split
  · next c hc =>
    obtain ⟨cs, rfl⟩ := List.getLast?_eq_some_iff.1 hc
    split <;> simp
  · next hc =>
    obtain rfl := List.getLast?_eq_none_iff.1 hc
    rfl

/-- The chunks are the rows, in order. -/
theorem groupChunks_flatten (model : ℕ → Option String) (cap : ℕ → ℕ) (ready : List (ℕ × Tok)) :
    (Scheduler.groupChunks model cap ready).flatten = ready := by
  have hfold : ∀ (rows : List (ℕ × Tok)) (chunks : List (List (ℕ × Tok))),
      (rows.foldl (Scheduler.groupRow model cap) chunks).flatten = chunks.flatten ++ rows := by
    intro rows
    induction rows with
    | nil => exact fun chunks => (List.append_nil _).symm
    | cons row rows ih =>
      intro chunks
      rw [List.foldl_cons, ih, groupRow_flatten, List.append_assoc, List.singleton_append]
  exact hfold ready []

/-- The batched step of a chunk feeds its rows. -/
theorem chunkStep_waiting {B : TickBoard σ η γ} {env : World σ η} {k : ℕ} {chunk rows : List (ℕ × Tok)}
    (h : B.shared.faults = [] → Waiting H b (chunk ++ rows) B)
    (hf : (Scheduler.chunkStep H cfg hung env B k chunk).shared.faults = []) :
    Waiting H b rows (Scheduler.chunkStep H cfg hung env B k chunk) := by
  unfold Scheduler.chunkStep at hf ⊢
  split at hf
  · have hrun : (B.sweep (fun row => Visit.batchRow H cfg row.2) Prod.fst chunk).shared.faults = [] →
        Waiting H b ([] ++ rows) (B.sweep (fun row => Visit.batchRow H cfg row.2) Prod.fst chunk) :=
      Board.sweep_induction_rest (P := fun rest B' => B'.shared.faults = [] → Waiting H b (rest ++ rows) B') h
        fun B' row rest hP hf => Waiting.feed Visit.batchRow_feeds hP hf
    exact hrun hf
  · next err herr =>
    have hrun : (B.sweep (fun row => Visit.batchFail hung (env.spoilRow .batch k row.1) err) Prod.fst
          chunk).shared.faults = [] → Waiting H b ([] ++ rows)
        (B.sweep (fun row => Visit.batchFail hung (env.spoilRow .batch k row.1) err) Prod.fst chunk) :=
      Board.sweep_induction_rest (P := fun rest B' => B'.shared.faults = [] → Waiting H b (rest ++ rows) B') h
        fun B' row rest hP hf => Waiting.feed (fun sh s hfail =>
          absurd (List.append_eq_nil_iff.1 hfail).2 (by simp)) hP hf
    exact hrun hf

theorem chunkSteps_waiting {env : World σ η} : ∀ (chunks : List (List (ℕ × Tok))) (k : ℕ) {B : TickBoard σ η γ},
    (B.shared.faults = [] → Waiting H b chunks.flatten B) →
    (Scheduler.chunkSteps H cfg hung env k chunks B).shared.faults = [] →
      Waiting H b [] (Scheduler.chunkSteps H cfg hung env k chunks B)
  | [], _, _, h, hf => h hf
  | _ :: chunks, k, _, h, hf => chunkSteps_waiting chunks (k + 1) (chunkStep_waiting h) hf

theorem mem_decoding {B : TickBoard σ η γ} {i : ℕ} (h : i ∈ Scheduler.decoding H B) :
    ∃ s, B.slots[i]? = some ⟨s, none⟩ ∧ Scheduler.decodes H s = true := by
  obtain ⟨l, -, hi⟩ := List.mem_flatMap.1 h
  obtain ⟨s, hs, hp⟩ := Board.mem_running.1 hi
  exact ⟨s, hs, (Bool.and_eq_true _ _ ▸ hp).1⟩

theorem decoding_nodup (B : TickBoard σ η γ) : (Scheduler.decoding H B).Nodup := by
  refine List.nodup_flatMap.2 ⟨fun l _ => List.nodup_range.filter _, ?_⟩
  refine List.Pairwise.imp_of_mem ?_ (show Lane.all.Nodup by decide)
  intro l l' _ _ hne i hi hi'
  obtain ⟨s, hs, hp⟩ := Board.mem_running.1 hi
  obtain ⟨s', hs', hp'⟩ := Board.mem_running.1 hi'
  obtain rfl : s = s' := congrArg Berth.val (Option.some.inj (hs.symm.trans hs'))
  simp only [Bool.and_eq_true, decide_eq_true_eq] at hp hp'
  exact hne (hp.2.symm.trans hp'.2)

/-- **Batched decode.** -/
theorem decodePhase_ok {B : TickBoard σ η γ} (env : World σ η) (h : BoardOk H b B) (hready : B.shared.ready = []) :
    BoardOk H b (Scheduler.decodePhase H cfg hung env B) := by
  have hdraw : ∀ i ∈ Scheduler.decoding H B, ∀ s, B.slots[i]? = some ⟨s, none⟩ → Scheduler.decodes H s = true := by
    intro i hi s hs
    obtain ⟨s', hs', hp⟩ := mem_decoding hi
    obtain rfl : s' = s := congrArg Berth.val (Option.some.inj (hs'.symm.trans hs))
    exact hp
  have hwait : (B.sweep (fun i => Visit.decode H cfg hung i (env.visit .decode i)) id
      (Scheduler.decoding H B)).shared.faults = [] → Waiting H b _ _ :=
    decodeSweep_waiting env h hready (decoding_nodup B) hdraw
  have hchunks : ∀ {B' : TickBoard σ η γ}, (B'.shared.faults = [] → Waiting H b B'.shared.ready B') →
      BoardOk H b (Scheduler.chunkSteps H cfg hung env 0 (Scheduler.chunksOf H B') B') := by
    intro B' hw hf
    have hdone : Waiting H b [] _ := chunkSteps_waiting (Scheduler.chunksOf H B') 0
      (fun hf => by rw [Scheduler.chunksOf, groupChunks_flatten]; exact hw hf) hf
    exact ⟨hdone.px, fun i x hx => hdone.slots i x hx (by simp)⟩
  have hok : BoardOk H b (Scheduler.chunkSteps H cfg hung env 0 _ _) := hchunks hwait
  unfold Scheduler.decodePhase
  simp only
  split
  · exact fun hf => ⟨(hok hf).shared, (hok hf).slots⟩
  · exact hok

/-! ## A tick -/

theorem BoardOk.visit {B : TickBoard σ η γ} {f : Visit σ η γ} {Q : Session σ η γ → Prop} {i : ℕ}
    (h : BoardOk H cfg.batching B) (hf : TickVisit H cfg hung f Q)
    (hQ : ∀ s, B.slots[i]? = some ⟨s, none⟩ → Q s) : BoardOk H cfg.batching (B.visit f i) := by
  intro hfaults
  by_cases hslot : ∃ s, B.slots[i]? = some ⟨s, none⟩
  · obtain ⟨s, hs⟩ := hslot
    have hkeep := hf.keeps (hQ s hs) B.shared
    have hafter : (f B.shared s).1.faults = [] := by
      rw [Board.visit_running hs] at hfaults
      exact hfaults
    obtain ⟨hbefore, hkeep⟩ := hkeep hafter
    refine (h hbefore).visit fun s' hs' hpx htrack => ?_
    obtain rfl : s = s' := congrArg Berth.val (Option.some.inj (hs.symm.trans hs'))
    exact hkeep ⟨hpx, htrack⟩
  · have hidle := not_exists.1 hslot
    rw [Board.visit_idle hidle] at hfaults ⊢
    exact h hfaults

theorem ready_visit {B : TickBoard σ η γ} {f : Visit σ η γ} {Q : Session σ η γ → Prop} {i : ℕ}
    (hf : TickVisit H cfg hung f Q) : (B.visit f i).shared.ready = B.shared.ready :=
  Board.visit_shared (P := fun sh : Shared σ => sh.ready = B.shared.ready) rfl fun s _ => hf.ready B.shared s

/-- **The phases of a tick** keep every session on track. -/
theorem phases_ok {B : TickBoard σ η γ} (env : World σ η) (h : BoardOk H cfg.batching B)
    (hready : B.shared.ready = []) : BoardOk H cfg.batching (Scheduler.phases H cfg hung env B) := by
  have hvisit : ∀ i f Q, TickVisit H cfg hung f Q → ∀ B, BoardOk H cfg.batching B →
      (∀ s, B.slots[i]? = some ⟨s, none⟩ → Q s) → BoardOk H cfg.batching (B.visit f i) :=
    fun i f Q hf B h hQ => h.visit hf hQ
  -- before batched decode no row is ready
  have hvisit' : ∀ i f Q, TickVisit H cfg hung f Q → ∀ B : TickBoard σ η γ,
      (BoardOk H cfg.batching B ∧ B.shared.ready = []) → (∀ s, B.slots[i]? = some ⟨s, none⟩ → Q s) →
      (BoardOk H cfg.batching (B.visit f i) ∧ (B.visit f i).shared.ready = []) :=
    fun i f Q hf B h hQ => ⟨h.1.visit hf hQ, (ready_visit hf).trans h.2⟩
  have habort : BoardOk H cfg.batching
        (B.sweep (fun i => Visit.abort (env.gone i)) id (Scheduler.positions B)) ∧
      (B.sweep (fun i => Visit.abort (env.gone i)) id (Scheduler.positions B)).shared.ready = [] :=
    Board.sweep_induction (P := fun B => BoardOk H cfg.batching B ∧ B.shared.ready = []) ⟨h, hready⟩
      fun B hB i _ => hvisit' i _ _ (.abort _) B hB fun _ _ => trivial
  unfold Scheduler.phases
  simp only
  split
  · next hb =>
    have h₁ : BoardOk H cfg.batching (Scheduler.graphPhase H cfg hung env _) ∧ _ :=
      Scheduler.graphPhase_keeps hvisit' hb habort
    have h₂ : BoardOk H cfg.batching (Scheduler.demotePhase H cfg hung env _) ∧ _ :=
      Scheduler.demotePhase_keeps hvisit' h₁
    have h₃ : BoardOk H cfg.batching (Scheduler.burstPhase H cfg hung env _) ∧ _ :=
      Scheduler.burstPhase_keeps hvisit' h₂
    have h₄ : BoardOk H cfg.batching (Scheduler.interactivePrefill H cfg hung env _) ∧ _ :=
      Scheduler.interactivePrefill_keeps hvisit' h₃
    have h₅ : BoardOk H cfg.batching (Scheduler.eagerPhase H cfg hung env _) ∧ _ :=
      Scheduler.sweepPhase_keeps hvisit' .eager h₄
    have h₆ : BoardOk H cfg.batching (Scheduler.decodePhase H cfg hung env _) := decodePhase_ok env h₅.1 h₅.2
    refine Scheduler.recordTick_keeps (fun B sh hst hB hf => ?_) (Scheduler.darkPrefill_keeps hvisit h₆)
    have hB := hB (hst.faults.symm.trans hf)
    exact ⟨hst.px ▸ hB.shared, hB.slots⟩
  · next hb => exact Scheduler.sweepPhase_keeps hvisit (fun v => .legacy v (by simpa using hb)) habort.1

/-- A fault stays on record. -/
theorem phases_faults {B : TickBoard σ η γ} (env : World σ η)
    (hf : (Scheduler.phases H cfg hung env B).shared.faults = []) : B.shared.faults = [] := by
  have hstep : ∀ {B' : TickBoard σ η γ} {f : Visit σ η γ} {i : ℕ},
      (∀ s, B'.slots[i]? = some ⟨s, none⟩ → (f B'.shared s).1.faults = [] → B'.shared.faults = []) →
      (B'.shared.faults = [] → B.shared.faults = []) → (B'.visit f i).shared.faults = [] → B.shared.faults = [] := by
    intro B' f i hmore hB'
    exact Board.visit_shared (P := fun sh : Shared σ => sh.faults = [] → B.shared.faults = []) hB' fun s hs hf' =>
      hB' (hmore s hs hf')
  refine Scheduler.phases_induction (P := fun B' => B'.shared.faults = [] → B.shared.faults = [])
    (fun i f Q hf B' hB' hQ => hstep (fun s hs hf' => (hf.keeps (hQ s hs) B'.shared hf').1) hB') (fun B' hB' => ?_)
    (fun B' sh hst hB' hf' => hB' (hst.faults.symm.trans hf')) id hf
  refine Scheduler.decodePhase_keeps (fun i f hrow B' hB' => hstep (fun s _ hf' => ?_) hB')
    (fun B' sh hst hB' hf' => hB' (hst.faults.symm.trans hf')) hB'
  cases hrow with
  | decode i env => exact (Visit.decode_faults i env B'.shared s).symm.trans hf'
  | batchRow tok => exact hf'
  | batchFail spoil err => exact absurd (List.append_eq_nil_iff.1 hf').2 (by simp)

/-! ## A run -/

namespace Scheduler

/-- The worker on which a tick's phases start: the commands taken, the queue admitted. -/
def opened (H : Host σ η γ) (cfg : SchedConfig) (hung : ℕ → ℕ → Bool) (w : Scheduler σ η γ) (env : World σ η) :
    Scheduler σ η γ := (env.cmds.foldl (handleCmd H hung) w).admission H cfg hung env.admits

/-- The board behind the phases of a tick. -/
def turned (H : Host σ η γ) (cfg : SchedConfig) (hung : ℕ → ℕ → Bool) (w : Scheduler σ η γ) (env : World σ η) :
    TickBoard σ η γ := phases H cfg hung env (w.opened H cfg hung env).board

/-- The worker between two ticks, unless a fault is on record: the pools hold what they file, and every active
session is on track. -/
def Ok (H : Host σ η γ) (b : Bool) (w : Scheduler σ η γ) : Prop :=
  w.faults = [] → w.pools.Sound H ∧ ∀ s ∈ w.active, s.OnTrack H b none

variable {w : Scheduler σ η γ}

theorem Ok.congr {w' : Scheduler σ η γ} (h : w.Ok H b) (hf : w'.faults = w.faults) (hp : w'.pools = w.pools)
    (ha : w'.active = w.active) : w'.Ok H b := by
  intro hf'
  rw [hp, ha]
  exact h (hf.symm.trans hf')

theorem Ok.commands {cmds : List Request} (h : w.Ok H b) : (cmds.foldl (handleCmd H hung) w).Ok H b := by
  induction cmds generalizing w with
  | nil => exact h
  | cons req cmds ih =>
    refine ih ?_
    unfold handleCmd
    split
    · exact h.congr rfl rfl rfl
    · exact h.congr rfl rfl rfl

/-- One request of the queue. -/
theorem Ok.admitOne {env : AdmitEnv} {req : Request} (h : w.Ok H b) : (w.admitOne H cfg hung env req).1.Ok H b := by
  unfold Scheduler.admitOne
  split
  · exact h.congr rfl rfl rfl
  · split
    · split
      · exact h
      · exact h.congr rfl rfl rfl
    · simp only
      split
      · exact h.congr rfl rfl rfl
      · split
        · exact h.congr rfl rfl rfl
        · split
          · next s pools hq =>
            intro hf
            obtain ⟨hp, ha⟩ := h hf
            obtain ⟨a⟩ := admitRequest_stages hq
            obtain ⟨prompt, hs, hstage⟩ := a.tracked hp b
            refine ⟨(congrArg (fun r => Pools.Sound H r.2) hq).mp (admitRequest_sound hp), fun s' hs' => ?_⟩
            rcases List.mem_append.1 hs' with hs' | hs'
            · exact ha s' hs'
            · obtain rfl := List.mem_singleton.1 hs'
              exact ⟨prompt, hs, hstage.parkable, fun _ => hstage⟩
          · next e pools hq =>
            intro hf
            obtain ⟨hp, ha⟩ := h hf
            exact ⟨(congrArg (fun r => Pools.Sound H r.2) hq).mp (admitRequest_sound hp), ha⟩

theorem Ok.admitAll {admits : ℕ → AdmitEnv} : ∀ (reqs : List Request) (i : ℕ) {w : Scheduler σ η γ}, w.Ok H b →
    (w.admitAll H cfg hung admits i reqs).1.Ok H b
  | [], _, _, h => h
  | _ :: reqs, i, _, h => Ok.admitAll reqs (i + 1) h.admitOne

theorem Ok.opened {env : World σ η} (h : w.Ok H b) : (w.opened H cfg hung env).Ok H b :=
  (Ok.admitAll _ 0 h.commands).congr rfl rfl rfl

/-- **The board behind a tick** is on track. -/
theorem Ok.turned {env : World σ η} (h : w.Ok H cfg.batching) :
    BoardOk H cfg.batching (w.turned H cfg hung env) := by
  refine phases_ok env (fun hf => ?_) rfl
  obtain ⟨hp, ha⟩ : (w.opened H cfg hung env).pools.Sound H ∧ _ := h.opened hf
  exact Board.start_inv hp.px fun i s hs => ha s (List.mem_of_getElem? hs)

/-- The finished sessions leave. -/
theorem retireSlots_sound (env : World σ η) : ∀ (slots : List (Berth (Session σ η γ) Exit)) (i : ℕ)
    {w : Scheduler σ η γ}, w.pools.Sound H → (∀ s ∈ w.active, s.OnTrack H b none) →
    (∀ x ∈ slots, x.val.OnTrack H b x.exit) →
    (retireSlots H cfg env slots i w).pools.Sound H ∧
      ∀ s ∈ (retireSlots H cfg env slots i w).active, s.OnTrack H b none
  | [], _, _, hp, ha, _ => ⟨hp, ha⟩
  | x :: xs, i, w, hp, ha, hx => by
    obtain ⟨hp', ha'⟩ := retireSlots_sound env xs (i + 1) hp ha fun y hy => hx y (List.mem_cons_of_mem _ hy)
    have hx := hx x (List.mem_cons_self ..)
    unfold retireSlots
    simp only
    split
    · next he =>
      rw [he] at hx
      refine ⟨hp', fun s hs => ?_⟩
      rcases List.mem_cons.1 hs with rfl | hs
      · exact hx
      · exact ha' s hs
    · next e he =>
      obtain ⟨prompt, -, hpark, -⟩ := hx
      exact ⟨parkSession_sound hp' hpark, ha'⟩

theorem retireSlots_faults (env : World σ η) : ∀ (slots : List (Berth (Session σ η γ) Exit)) (i : ℕ)
    (w : Scheduler σ η γ), (retireSlots H cfg env slots i w).faults = w.faults
  | [], _, _ => rfl
  | x :: xs, i, w => by
    unfold retireSlots
    simp only
    split
    · exact retireSlots_faults env xs (i + 1) w
    · exact retireSlots_faults env xs (i + 1) w

/-- **A tick** keeps what the worker is. -/
theorem Ok.tick {env : World σ η} (h : w.Ok H cfg.batching) : (w.tick H cfg hung env).Ok H cfg.batching := by
  intro hf
  have hboard : (w.turned H cfg hung env).shared.faults = [] :=
    (retireSlots_faults env (w.turned H cfg hung env).slots 0 _).symm.trans hf
  have hopened : (w.opened H cfg hung env).pools.Sound H := (h.opened (phases_faults env hboard)).1
  have hok := h.turned hboard
  exact retireSlots_sound env _ 0 ⟨hopened.reuse, hopened.spec, hok.shared⟩ (fun s hs => by cases hs) fun x hx =>
    (List.getElem?_of_mem hx).elim fun i hi => hok.slots i x hi

theorem Ok.start : (Scheduler.Ok H b ({} : Scheduler σ η γ)) :=
  fun _ => ⟨Pools.sound_empty H, fun s hs => by cases hs⟩

theorem Ok.run {envs : List (World σ η)} (h : w.Ok H cfg.batching) : (run H cfg hung envs w).Ok H cfg.batching := by
  induction envs generalizing w with
  | nil => exact h
  | cons env envs ih => exact ih h.tick

end Scheduler

end

/-! ## What the pools and the sessions hold -/

/-- What a running session holds: a plain cache, a graph or a speculative session, and only one of them, fed with
the prompt and the tokens generated, up to what waits. -/
structure Session.Coherent (T : Trunk σ η) (prompt : List Tok) (s : Session σ η γ) : Prop where
  one : [s.cache.isSome, s.graph.isSome, s.spec.isSome].count true = 1
  plain : ∀ c, s.cache = some c → c.Holds T s.fed ∧ s.fed ++ s.prefillQueue = prompt ++ s.generated
  graph : ∀ g, s.graph = some g → g.cache.Holds T s.fed ∧ s.fed = prompt ++ s.generated
  spec : ∀ caches, s.spec = some caches → caches.sess.cache.Holds T caches.sess.committed ∧
    caches.sess.committed ++ caches.sess.pendingTok.toList ++ s.prefillQueue = prompt ++ s.generated

theorem Stage.coherent {T : Trunk σ η} {b : Bool} {G : Prop} {prompt : List Tok} {s : Session σ η γ}
    (h : Stage T b G prompt s.work) : s.Coherent T prompt := by
  cases h with
  | prefilling h =>
    obtain ⟨c, hc, hholds⟩ := h.cache
    have hc : s.cache = some c := hc
    have hgraph : s.graph = none := h.graph
    have hspec : s.spec = none := h.spec
    have hgen : s.generated = [] := h.generated
    refine ⟨by simp [hc, hgraph, hspec], fun c' hc' => ?_, by simp [hgraph], by simp [hspec]⟩
    obtain rfl := Option.some.inj (hc.symm.trans hc')
    rw [hgen, List.append_nil]
    exact ⟨hholds, h.seq⟩
  | decoding h =>
    obtain ⟨c, hc, hholds, -⟩ := h.cache
    have hc : s.cache = some c := hc
    have hgraph : s.graph = none := h.graph
    have hspec : s.spec = none := h.spec
    have hq : s.prefillQueue = [] := h.queue
    refine ⟨by simp [hc, hgraph, hspec], fun c' hc' => ?_, by simp [hgraph], by simp [hspec]⟩
    obtain rfl := Option.some.inj (hc.symm.trans hc')
    rw [hq, List.append_nil]
    exact ⟨hholds, h.seq⟩
  | graphing hb h =>
    have hc : s.cache = none := h.cache
    have hgraph : s.graph = some _ := h.graph
    have hspec : s.spec = none := h.spec
    refine ⟨by simp [hc, hgraph, hspec], by simp [hc], fun g hg => ?_, by simp [hspec]⟩
    obtain rfl := Option.some.inj (hgraph.symm.trans hg)
    exact ⟨h.holds, h.seq⟩
  | specing h =>
    have hc : s.cache = none := h.cache
    have hgraph : s.graph = none := h.graph
    have hspec : s.spec = some _ := h.spec
    refine ⟨by simp [hc, hgraph, hspec], by simp [hc], by simp [hgraph], fun caches hcaches => ?_⟩
    obtain rfl := Option.some.inj (hspec.symm.trans hcaches)
    exact ⟨h.sound.rows.holds, h.seq⟩

/-- Five raw prompts at once: the speculative sessions among them are handed over. -/
def crowdWorld : World (List Tok) (List Tok) where
  cmds := (List.range 5).map fun i => { abcRequest false with params := { maxNew := 70 }, tx := { id := i } }

/-- The board behind the tick after the one in which they arrive. -/
def crowdBoard : TickBoard (List Tok) (List Tok) Unit :=
  (({} : Scheduler (List Tok) (List Tok) Unit).run charHost {} (fun _ _ => false) [crowdWorld]).turned charHost {}
    (fun _ _ => false) {}

theorem crowdBoard_faults : crowdBoard.shared.faults = [] := by decide +kernel

theorem crowdBoard_running : ∀ x ∈ crowdBoard.slots, x.exit = none := by decide +kernel

/-- **What a session holds.** At the end of every tick of a run without a fault, every running session answers a
prompt of its own request, and holds exactly that prompt and the tokens generated, up to what waits. -/
theorem turned_coherent (H : Host σ η γ) (cfg : SchedConfig) (hung : ℕ → ℕ → Bool) (envs : List (World σ η))
    (env : World σ η)
    (hf : ((({} : Scheduler σ η γ).run H cfg hung envs).turned H cfg hung env).shared.faults = []) :
    ∀ x ∈ ((({} : Scheduler σ η γ).run H cfg hung envs).turned H cfg hung env).slots, x.exit = none →
      ∃ prompt, Prompted (H.loaded x.val.model) x.val.replay prompt ∧ x.val.nPrompt = prompt.length ∧
        x.val.nCached ≤ x.val.nPrompt ∧ x.val.Coherent (H.loaded x.val.model).E.T prompt := by
  intro x hx he
  obtain ⟨i, hi⟩ := List.getElem?_of_mem hx
  have hboard := (Scheduler.Ok.run Scheduler.Ok.start).turned hf
  obtain ⟨prompt, hs, -, hstage⟩ := hboard.slots i x hi
  exact ⟨prompt, hs.prompted, hs.nPrompt, hs.nCached, (hstage he).coherent⟩

theorem turned_coherent_crowd : crowdBoard.slots.length = 5 ∧ ∀ x ∈ crowdBoard.slots, ∃ prompt,
    Prompted charModel x.val.replay prompt ∧ x.val.nPrompt = prompt.length ∧ x.val.nCached ≤ x.val.nPrompt ∧
      x.val.Coherent charModel.E.T prompt :=
  ⟨by decide +kernel, fun x hx => turned_coherent charHost {} (fun _ _ => false) [crowdWorld] {} crowdBoard_faults x
    hx (crowdBoard_running x hx)⟩

end Memra
