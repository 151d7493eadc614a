import Memra.Server.Scheduler
import Memra.Server.Proof.SessionStep

/-!
# The visits of a tick

`TickVisit` lists every visit that the phases of a tick make to a session, and `phases_induction` is
the induction over a tick: what each of these visits keeps, at any position and with any answers, and what the two
time stamps keep, a tick's phases keep. Every visit is a step in the sense of `Session.Left`
(`TickVisit.left`) and parks what its exit says (`TickVisit.parks`), and so does a tick (`board_ran`).
-/

namespace Memra

open Lib Session

variable {σ η γ : Type}

/-- The visits that a tick makes to the session at a position outside batched decode, each with what holds
of the session it is made to. -/
inductive TickVisit (H : Host σ η γ) (cfg : SchedConfig) (hung : ℕ → ℕ → Bool) :
    Visit σ η γ → (Session σ η γ → Prop) → Prop
  | abort (gone : Bool) : TickVisit H cfg hung (Visit.abort gone) fun _ => True
  | legacy (env : VisitEnv σ η) (hb : cfg.batching = false) :
    TickVisit H cfg hung (Visit.legacy H cfg hung env) fun _ => True
  | degrade (env : VisitEnv σ η) : TickVisit H cfg hung (Visit.degrade H hung env) fun _ => True
  | graph (env : VisitEnv σ η) (hb : cfg.batching = true) :
    TickVisit H cfg hung (Visit.graph H cfg hung env) fun _ => True
  | demote (nLive : ℕ) (env : VisitEnv σ η) :
    TickVisit H cfg hung (Visit.demote H cfg hung nLive env) fun _ => True
  | burst (env : VisitEnv σ η) :
    TickVisit H cfg hung (Visit.burst H cfg hung env) fun s => s.spec.isSome
  | primeRow (seed : Bool) (env : VisitEnv σ η) :
    TickVisit H cfg hung (Visit.primeRow H cfg seed env) fun _ => True
  | tear (spoil : KvCache σ → KvCache σ) : TickVisit H cfg hung (Visit.tear spoil) fun _ => True
  | prefill (p : Session σ η γ → Bool) (budget : ℕ) (env : VisitEnv σ η) :
    TickVisit H cfg hung (Visit.guarded p (Visit.prefill H cfg hung budget env))
      fun s => p s = true → s.spec = none ∧ s.prefillDone = false
  | eager (env : VisitEnv σ η) :
    TickVisit H cfg hung (Visit.guarded
      (fun s => (H.loaded s.model).eagerOnly && s.spec.isNone && s.prefillDone && s.cache.isSome)
      (Visit.eager H cfg hung env)) fun _ => True

/-- The visits of batched decode. -/
inductive RowVisit (H : Host σ η γ) (cfg : SchedConfig) (hung : ℕ → ℕ → Bool) : Visit σ η γ → Prop
  | decode (i : ℕ) (env : VisitEnv σ η) : RowVisit H cfg hung (Visit.decode H cfg hung i env)
  | batchRow (tok : Tok) : RowVisit H cfg hung (Visit.batchRow H cfg tok)
  | batchFail (spoil : KvCache σ → KvCache σ) (err : String) :
    RowVisit H cfg hung (Visit.batchFail hung spoil err)

variable {H : Host σ η γ} {cfg : SchedConfig} {hung : ℕ → ℕ → Bool} {env : World σ η}

namespace Scheduler

/-- The shared value with its stamps moved. -/
structure Stamped (sh sh' : Shared σ) : Prop where
  px : sh'.px = sh.px
  tokensOut : sh'.tokensOut = sh.tokensOut
  laneTokens : sh'.laneTokens = sh.laneTokens
  faults : sh'.faults = sh.faults
  requeueOom : sh'.requeueOom = sh.requeueOom

section

variable {P : TickBoard σ η γ → Prop}
  (hvisit : ∀ i f G, TickVisit H cfg hung f G → ∀ b, P b →
    (∀ s, b.slots[i]? = some ⟨s, none⟩ → G s) → P (b.visit f i))

include hvisit

theorem sweepPhase_keeps {phase : Phase} {f : VisitEnv σ η → Visit σ η γ} {order : List ℕ}
    {b : TickBoard σ η γ} (hf : ∀ v, TickVisit H cfg hung (f v) fun _ => True) (h : P b) :
    P (sweepPhase env phase f order b) :=
  Board.sweep_induction h fun b hb i _ => hvisit i _ _ (hf _) b hb fun _ _ => trivial

theorem tears_keep {spoil : ℕ → KvCache σ → KvCache σ} {order : List ℕ} {b : TickBoard σ η γ}
    (h : P b) : P (b.sweep (fun i => Visit.tear (spoil i)) id order) :=
  Board.sweep_induction h fun b hb i _ => hvisit i _ _ (.tear _) b hb fun _ _ => trivial

theorem primeRounds_keeps (fuel : ℕ) {k : ℕ} {b : TickBoard σ η γ} (h : P b) :
    P (primeRounds H cfg env fuel k b).1 := by
  induction fuel generalizing k b with
  | zero => exact h
  | succ fuel ih =>
    unfold primeRounds
    simp only
    split
    · exact h
    · split
      · exact tears_keep hvisit h
      · exact ih (sweepPhase_keeps hvisit (.primeRow true) h)

theorem darkChunk_keeps {b : TickBoard σ η γ} (h : P b) : P (darkChunk H cfg hung env b) := by
  unfold darkChunk
  split
  · exact h
  · next i is hrun =>
    simp only
    split
    · exact h
    · have hi : i ∈ b.running (darkPrefills cfg) := hrun ▸ List.mem_cons_self ..
      obtain ⟨s, hs, hdark⟩ := Board.mem_running.1 hi
      refine hvisit i _ _ (.prefill (fun _ => true) _ _) b h fun s' hs' _ => ?_
      obtain rfl : s' = s := by simpa using hs'.symm.trans hs
      simp only [darkPrefills, Bool.and_eq_true, Option.isNone_iff_eq_none, Bool.not_eq_true'] at hdark
      exact ⟨hdark.1.1.1, hdark.1.1.2⟩

theorem darkPrefill_keeps {b : TickBoard σ η γ} (h : P b) : P (darkPrefill H cfg hung env b) := by
  unfold darkPrefill
  simp only
  split
  · exact darkChunk_keeps hvisit h
  · split
    · exact darkChunk_keeps hvisit (tears_keep hvisit h)
    · exact sweepPhase_keeps hvisit (.primeRow false) h

theorem graphPhase_keeps (hb : cfg.batching = true) {b : TickBoard σ η γ} (h : P b) :
    P (graphPhase H cfg hung env b) := by
  unfold graphPhase
  split
  · exact h
  · split
    · exact sweepPhase_keeps hvisit .degrade h
    · exact sweepPhase_keeps hvisit (fun v => .graph v hb) h

theorem demotePhase_keeps {b : TickBoard σ η γ} (h : P b) : P (demotePhase H cfg hung env b) := by
  unfold demotePhase
  split
  · simp only
    split
    · exact sweepPhase_keeps hvisit (.demote _) h
    · exact h
  · exact h

omit hvisit in
/-- The bursts come to each speculative session once. -/
theorem specOrder_once (b : TickBoard σ η γ) :
    (specOrder cfg b).Nodup ∧ ∀ i ∈ specOrder cfg b, ∀ s, b.slots[i]? = some ⟨s, none⟩ → s.spec.isSome := by
  have hnodup : (positions b).Nodup := List.nodup_range
  have hspec : ∀ (p : Session σ η γ → Bool) i, i ∈ ((positions b).filter fun i =>
      (b.slots[i]?).any fun x => x.val.spec.isSome && p x.val) →
      ∀ s, b.slots[i]? = some ⟨s, none⟩ → s.spec.isSome ∧ p s = true := by
    intro p i hi s hs
    have hany := (List.mem_filter.1 hi).2
    rw [hs] at hany
    simpa using hany
  unfold specOrder
  simp only
  split
  · refine ⟨List.nodup_append.2 ⟨hnodup.filter _, hnodup.filter _, fun i hi j hj hij => ?_⟩, ?_⟩
    · subst hij
      have hi := (List.mem_filter.1 hi).2
      have hj := (List.mem_filter.1 hj).2
      cases hx : b.slots[i]? with
      | none => rw [hx] at hi; cases hi
      | some x =>
        rw [hx] at hi hj
        simp only [Option.any_some, Bool.and_eq_true, Bool.not_eq_true'] at hi hj
        rw [hi.2] at hj
        cases hj.2
    · intro i hi s hs
      rcases List.mem_append.1 hi with hi | hi
      · exact (hspec (·.generated.isEmpty) i hi s hs).1
      · exact (hspec (!·.generated.isEmpty) i hi s hs).1
  · exact ⟨hnodup.filter _, fun i hi s hs => (hspec (fun _ => true) i hi s hs).1⟩

theorem burstPhase_keeps {b : TickBoard σ η γ} (h : P b) : P (burstPhase H cfg hung env b) := by
  obtain ⟨hnodup, hspec⟩ := specOrder_once b
  refine Board.sweep_induction_once (G := fun _ s => s.spec.isSome) (by simpa using hnodup) h hspec ?_
  intro b hb i _ hG
  exact hvisit i _ _ (.burst _) b hb hG

theorem interactivePrefill_keeps {b : TickBoard σ η γ} (h : P b) :
    P (interactivePrefill H cfg hung env b) := by
  refine Board.sweep_induction (primeRounds_keeps hvisit _ h) fun b hb i _ => ?_
  refine hvisit i _ _ (.prefill _ _ _) b hb fun s _ hp => ?_
  simp only [Bool.and_eq_true, Option.isNone_iff_eq_none, Bool.not_eq_true'] at hp
  exact ⟨hp.1.1, hp.1.2⟩

variable (hdecode : ∀ b, P b → P (decodePhase H cfg hung env b))
  (hstamp : ∀ b sh, Stamped b.shared sh → P b → P { b with shared := sh })

omit hvisit in
include hstamp in
theorem recordTick_keeps {b : TickBoard σ η γ} (h : P b) : P (recordTick env b) := by
  unfold recordTick
  split
  · exact hstamp _ _ ⟨rfl, rfl, rfl, rfl, rfl⟩ h
  · exact h

include hdecode hstamp

theorem batchedPhases_keeps (hb : cfg.batching = true) {b : TickBoard σ η γ} (h : P b) :
    P (batchedPhases H cfg hung env b) := by
  have h₁ : P (graphPhase H cfg hung env b) := graphPhase_keeps hvisit hb h
  have h₂ : P (demotePhase H cfg hung env _) := demotePhase_keeps hvisit h₁
  have h₃ : P (burstPhase H cfg hung env _) := burstPhase_keeps hvisit h₂
  have h₄ : P (interactivePrefill H cfg hung env _) := interactivePrefill_keeps hvisit h₃
  have h₅ : P (eagerPhase H cfg hung env _) := sweepPhase_keeps hvisit .eager h₄
  exact recordTick_keeps hstamp (darkPrefill_keeps hvisit (hdecode _ h₅))

/-- **The induction over a tick**: what its visits, batched decode and the stamps keep. -/
theorem phases_induction {b : TickBoard σ η γ} (h : P b) : P (phases H cfg hung env b) := by
  have habort : P (b.sweep (fun i => Visit.abort (env.gone i)) id (positions b)) :=
    Board.sweep_induction h fun b hb i _ => hvisit i _ _ (.abort _) b hb fun _ _ => trivial
  unfold phases
  simp only
  split
  · next hb => exact batchedPhases_keeps hvisit hdecode hstamp hb habort
  · next hb => exact sweepPhase_keeps hvisit (fun v => .legacy v (by simpa using hb)) habort

end

/-- Batched decode, visit by visit. -/
theorem decodePhase_keeps {P : TickBoard σ η γ → Prop}
    (hrow : ∀ i f, RowVisit H cfg hung f → ∀ b, P b → P (b.visit f i))
    (hstamp : ∀ b sh, Stamped b.shared sh → P b → P { b with shared := sh })
    {b : TickBoard σ η γ} (h : P b) : P (decodePhase H cfg hung env b) := by
  have hdec : P (b.sweep (fun i => Visit.decode H cfg hung i (env.visit .decode i)) id
      (decoding H b)) :=
    Board.sweep_induction h fun b hb i _ => hrow i _ (.decode i _) b hb
  have hchunks : ∀ (chunks : List (List (ℕ × Tok))) k b, P b →
      P (chunkSteps H cfg hung env k chunks b) := by
    intro chunks
    induction chunks with
    | nil => exact fun k b hb => hb
    | cons chunk chunks ih =>
      intro k b hb
      refine ih _ _ ?_
      unfold chunkStep
      split
      · exact Board.sweep_induction hb fun b hb row _ => hrow row.1 _ (.batchRow row.2) b hb
      · exact Board.sweep_induction hb fun b hb row _ => hrow row.1 _ (.batchFail _ _) b hb
  unfold decodePhase
  simp only
  split
  · exact hstamp _ _ ⟨rfl, rfl, rfl, rfl, rfl⟩ (hchunks _ _ _ hdec)
  · exact hchunks _ _ _ hdec

end Scheduler

/-! ## Every visit is a step -/

/-- **Every visit** keeps what the session was admitted with and the events already sent. -/
theorem TickVisit.left {f : Visit σ η γ} {G : Session σ η γ → Prop} (h : TickVisit H cfg hung f G) (sh : Shared σ)
    (s : Session σ η γ) : Left cfg.stepOomRetries s (f sh s).2.1 (f sh s).2.2 := by
  cases h with
  | abort gone =>
    unfold Visit.abort
    split
    · exact ⟨rfl, rfl, ⟨Tx.More.rfl, rfl⟩, fun h => h, fun _ h => by cases h⟩
    · exact Left.of_card rfl
  | legacy env hb => exact settle_left hung _ (step_follows hung H _ cfg.toConfig env s)
  | degrade env => exact settle_left hung _ (degrade_follows hung _ env s)
  | graph env hb => exact (graphTick_left hung _ cfg.toConfig env s).1
  | demote nLive env => exact settle_left hung _ (demote_follows _ cfg.toConfig env nLive s)
  | burst env =>
    have hstep := step_follows (n := cfg.stepOomRetries) hung H (H.loaded s.model) cfg.toConfig env s
    unfold Visit.burst
    simp only
    split
    · next err herr =>
      refine parkOrFail_left hung cfg.toConfig err ?_
      simpa only [Stepped.Follows, herr] using hstep
    · exact settle_left hung _ hstep
  | primeRow seed env =>
    unfold Visit.primeRow
    simp only
    split
    · exact Left.of_card (by rw [Prefill.maybePrefixSeed_card, primeRow_card])
    · exact Left.of_card (primeRow_card _ s)
  | tear spoil => exact Left.of_card rfl
  | prefill p budget env =>
    unfold Visit.guarded
    split
    · have hcard := prefillTick_card (H.loaded s.model) cfg.toConfig env.tick s sh.px budget
      unfold Visit.prefill
      simp only
      split
      · refine (Left.of_card ?_).trans (sendError_ends hung _)
        exact hcard
      · exact Left.of_card hcard
    · exact Left.of_card rfl
  | eager env =>
    unfold Visit.guarded
    split
    · exact settle_left hung _ (step_follows hung H _ cfg.toConfig env s)
    · exact Left.of_card rfl

theorem RowVisit.left {f : Visit σ η γ} (h : RowVisit H cfg hung f) (sh : Shared σ)
    (s : Session σ η γ) : Left cfg.stepOomRetries s (f sh s).2.1 (f sh s).2.2 := by
  cases h with
  | decode i env =>
    have hleft := advanceSampleEmit_left (n := cfg.stepOomRetries) hung H (H.loaded s.model) env s
    unfold Visit.decode
    split
    · next s' t heq =>
      rw [heq] at hleft
      have hcard := stageGrammarMask_card (H.loaded s'.model) cfg.toConfig env s'
      split
      · next err s'' hstage =>
        rw [hstage] at hcard
        exact (hleft.card_right hcard).trans (sendError_ends hung _)
      · next s'' hstage =>
        rw [hstage] at hcard
        exact hleft.card_right hcard
    · rename_i heq
      rw [heq] at hleft
      exact hleft
  | batchRow tok => exact Left.of_card (batchRow_card _ cfg.toConfig tok s)
  | batchFail spoil err =>
    refine (Left.of_card ?_).trans (sendError_ends hung _)
    rfl

theorem requeue_none (sh : Shared σ) (e : Option Exit) (he : e.bind Exit.request? = none) :
    sh.requeueOom = sh.requeueOom ++ (e.bind Exit.request?).toList := by
  rw [he, Option.toList_none, List.append_nil]

/-- A request is put back exactly when its session is parked. -/
theorem TickVisit.parks {f : Visit σ η γ} {G : Session σ η γ → Prop} (h : TickVisit H cfg hung f G) (sh : Shared σ)
    (s : Session σ η γ) : (f sh s).1.requeueOom =
      sh.requeueOom ++ ((f sh s).2.2.bind Exit.request?).toList := by
  have hnone := requeue_none sh
  cases h with
  | abort gone =>
    unfold Visit.abort
    split <;> exact hnone _ rfl
  | legacy env hb =>
    exact hnone _ (settle_request hung _ (step_follows (n := 0) hung H _ cfg.toConfig env s))
  | degrade env => exact hnone _ (settle_request hung _ (degrade_follows (n := 0) hung _ env s))
  | graph env hb =>
    have hout := (graphTick_left (n := 0) hung (H.loaded s.model) cfg.toConfig env s).2
    unfold Visit.graph
    simp only
    split <;> exact hnone _ hout
  | demote nLive env =>
    exact hnone _ (settle_request hung _ (demote_follows (n := 0) _ cfg.toConfig env nLive s))
  | burst env => rfl
  | primeRow seed env =>
    unfold Visit.primeRow
    simp only
    split <;> exact hnone _ rfl
  | tear spoil => exact hnone _ rfl
  | prefill p budget env =>
    unfold Visit.guarded
    split
    · unfold Visit.prefill
      simp only
      split <;> exact hnone _ rfl
    · exact hnone _ rfl
  | eager env =>
    unfold Visit.guarded
    split
    · have hout := settle_request hung "step error: "
        (step_follows (n := 0) hung H (H.loaded s.model) cfg.toConfig env s)
      unfold Visit.eager
      simp only
      split
      · split <;> exact hnone _ hout
      · exact hnone _ hout
    · exact hnone _ rfl

theorem RowVisit.parks {f : Visit σ η γ} (h : RowVisit H cfg hung f) (sh : Shared σ)
    (s : Session σ η γ) : (f sh s).1.requeueOom =
      sh.requeueOom ++ ((f sh s).2.2.bind Exit.request?).toList := by
  have hnone := requeue_none sh
  cases h with
  | decode i env =>
    have hout := settle_request hung "" (drawEmit_follows (n := 0) hung H (H.loaded s.model) env s)
    unfold Visit.decode
    split
    · split <;> exact hnone _ rfl
    · rename_i heq
      refine hnone _ ?_
      have he := congrArg (fun r => r.1.2) heq
      exact he ▸ hout
  | batchRow tok => exact hnone _ rfl
  | batchFail spoil err => exact hnone _ rfl

/-! ## What a tick makes of the sessions -/

/-- The slots as steps from the sessions that the tick started with; the parked requests are to be
queued again. -/
structure Ran (n : ℕ) (ss : List (Session σ η γ)) (b : TickBoard σ η γ) : Prop where
  length : b.slots.length = ss.length
  slots : b.Inv (fun _ => True) fun i s' e => ∀ s, ss[i]? = some s → Left n s s' e
  requeued : b.shared.requeueOom.Perm (b.tags Exit.request?)

theorem Ran.visit {n i : ℕ} {ss : List (Session σ η γ)} {b : TickBoard σ η γ} {f : Visit σ η γ}
    (hleft : ∀ sh s, Left n s (f sh s).2.1 (f sh s).2.2)
    (hparks : ∀ sh s, (f sh s).1.requeueOom =
      sh.requeueOom ++ ((f sh s).2.2.bind Exit.request?).toList) (h : Ran n ss b) :
    Ran n ss (b.visit f i) := by
  refine ⟨by rw [Board.visit_length, h.length], ?_, ?_⟩
  · exact h.slots.visit fun s' _ _ hj => ⟨trivial, fun s hs => (hj s hs).trans (hleft b.shared s')⟩
  · by_cases hi : ∃ a, b.slots[i]? = some ⟨a, none⟩
    · obtain ⟨s, hs⟩ := hi
      refine List.Perm.trans ?_ (Board.tags_visit Exit.request? hs).symm
      rw [Board.visit_running hs]
      simp only
      rw [hparks b.shared s]
      exact (h.requeued.append_right _).trans List.perm_append_comm
    · rw [Board.visit_idle (not_exists.1 hi)]
      exact h.requeued

theorem Ran.forall₂ {n : ℕ} {ss : List (Session σ η γ)} {b : TickBoard σ η γ} (h : Ran n ss b) :
    List.Forall₂ (fun s x => Left n s x.val x.exit) ss b.slots := by
  refine List.forall₂_iff_get.2 ⟨h.length.symm, fun i hi hi' => ?_⟩
  exact h.slots.slots i _ (List.getElem?_eq_getElem hi') _ (List.getElem?_eq_getElem hi)

/-- **A tick** takes every session one step. -/
theorem board_ran (w : Scheduler σ η γ) :
    Ran cfg.stepOomRetries w.active (Scheduler.phases H cfg hung env w.board) := by
  have hstart : Ran cfg.stepOomRetries w.active w.board := by
    refine ⟨by simp [Scheduler.board, Board.start], ?_, ?_⟩
    · refine Board.start_inv trivial fun i s' hs' s hs => ?_
      obtain rfl : s' = s := Option.some.inj (hs'.symm.trans hs)
      exact Left.of_card rfl
    · have htags : (w.board.tags Exit.request?) = [] := by
        simp [Board.tags, Scheduler.board, Board.start]
      rw [htags]
      exact List.Perm.refl _
  have hstamp : ∀ (b : TickBoard σ η γ) (sh : Shared σ), Scheduler.Stamped b.shared sh →
      Ran cfg.stepOomRetries w.active b → Ran cfg.stepOomRetries w.active { b with shared := sh } :=
    fun b sh hst hb => ⟨hb.length, ⟨trivial, hb.slots.slots⟩, hst.requeueOom ▸ hb.requeued⟩
  refine Scheduler.phases_induction (fun i f G hf b hb _ => hb.visit hf.left hf.parks) (fun b hb => ?_)
    hstamp hstart
  exact Scheduler.decodePhase_keeps (fun i f hf b hb => hb.visit hf.left hf.parks) hstamp hb

end Memra
