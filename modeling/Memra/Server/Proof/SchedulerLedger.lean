import Memra.Server.Proof.Admission
import Memra.Server.Proof.SchedulerVisit

/-!
# The ledger of requests

`Ledger cap arrived waiting active ended`: every request that has arrived is in exactly one of the queue,
the active list and the list of those that have left, with the same content; the channels of the first two carry
tokens only, and a channel that was left carries one terminal event, the last, or belongs to a client that is gone.
Admission (`Ledger.admitAll`), the phases with the retiring behind them (`Ledger.finishTick`) and so every
run (`run_ledger`) keep it.
-/

namespace Memra

open Lib Session

variable {σ η γ : Type}

/-- A request without what its stay changes: the retries and the events. -/
def Request.core (r : Request) : Request := { r with oomRetries := 0, tx := { id := r.tx.id } }

/-- A request as the handler sends it. -/
structure Request.Fresh (r : Request) : Prop where
  sent : r.tx.sent = []
  retries : r.oomRetries = 0

/-- A request that has been sent tokens only, and was parked at most `cap` times. -/
structure Request.Waiting (cap : ℕ) (r : Request) : Prop where
  streams : ∀ ev ∈ r.tx.sent, ev.Streams
  retries : r.oomRetries ≤ cap

/-- A request that has left: behind tokens only, one terminal event, a shed only for a dark lane; or its
client is gone. -/
def Request.Answered (r : Request) : Exit → Prop
  | .ended => ∃ ts ev, r.tx.sent = ts ++ [ev] ∧ (∀ ev ∈ ts, ev.Streams) ∧ ev.terminal = true ∧
      (r.lane = .interactive → ev.Final)
  | .aborted => (∀ ev ∈ r.tx.sent, ev.Streams) ∧ r.tx.closed = true
  | .parked _ => False

/-- Where the arrived requests are, and what their channels carry. -/
structure Ledger (cap : ℕ) (arrived waiting : List Request) (active : List (Session σ η γ))
    (ended : List (Request × Exit)) : Prop where
  conserved : ((waiting ++ active.map (·.request) ++ ended.map (·.1)).map Request.core).Perm
    (arrived.map Request.core)
  waiting : ∀ r ∈ waiting, r.Waiting cap
  active : ∀ s ∈ active, s.request.Waiting cap
  ended : ∀ x ∈ ended, x.1.Answered x.2

theorem Event.Final.terminal {ev : Event} (h : ev.Final) : ev.terminal = true := by
  cases ev with
  | token id text => cases h
  | done r n p c => rfl
  | error e => rfl

theorem Request.Waiting.more {cap : ℕ} {r : Request} (r' : Request) (h : r.Waiting cap) (hm : r.tx.More r'.tx)
    (hr : r'.oomRetries ≤ cap) : r'.Waiting cap := by
  obtain ⟨ts, hsent, hts⟩ := hm
  refine ⟨fun ev hev => ?_, hr⟩
  rw [hsent] at hev
  rcases List.mem_append.1 hev with hev | hev
  · exact h.streams ev hev
  · exact hts ev hev

/-! ## One session -/

namespace Session

variable {cap : ℕ} {s s' : Session σ η γ} {e : Option Exit}

theorem Left.core (h : Left cap s s' e) : s'.request.core = s.request.core := by
  simp only [Request.core, request, h.info, h.id]

/-- A session that goes on is still waiting for its answer. -/
theorem Left.waiting (h : Left cap s s' none) (hs : s.request.Waiting cap) :
    s'.request.Waiting cap :=
  Request.Waiting.more s'.request hs h.went (h.retries hs.retries)

theorem Left.parked_waiting {e : Exit} {req : Request} (h : Left cap s s' (some e))
    (he : e.request? = some req) (hs : s.request.Waiting cap) : s'.request.Waiting cap := by
  have hwent := h.went
  cases e with
  | ended => cases he
  | aborted => cases he
  | parked req => exact Request.Waiting.more s'.request hs hwent (h.retries hs.retries)

/-- A session that leaves has been answered. -/
theorem Left.answered {e : Exit} (h : Left cap s s' (some e)) (he : e.request? = none)
    (hs : s.request.Waiting cap) : s'.request.Answered e := by
  match e, h.went with
  | .ended, ⟨t, hm, ev, hsent, hev⟩ =>
    have ht : ({ s.request with tx := t } : Request).Waiting cap := hs.more _ hm hs.retries
    exact ⟨t.sent, ev, hsent, ht.streams, hev.terminal, fun _ => hev⟩
  | .aborted, ⟨hm, hclosed⟩ =>
    have hw := Request.Waiting.more s'.request hs hm (h.retries hs.retries)
    exact ⟨hw.streams, hclosed⟩
  | .parked req, _ => cases he

end Session

/-! ## Moves between the lists -/

namespace Ledger

variable {cap : ℕ} {arrived waiting waiting' : List Request} {active : List (Session σ η γ)}
  {ended : List (Request × Exit)} {r r' : Request}

theorem perm (h : Ledger cap arrived waiting active ended) (hp : waiting.Perm waiting') :
    Ledger cap arrived waiting' active ended where
  conserved := (((hp.append_right _).append_right _).map _).symm.trans h.conserved
  waiting r hr := h.waiting r (hp.mem_iff.2 hr)
  active := h.active
  ended := h.ended

/-- A request arrives. -/
theorem arrive (h : Ledger cap arrived waiting active ended) (hr : r.Fresh) :
    Ledger cap (r :: arrived) (r :: waiting) active ended where
  conserved := h.conserved.cons _
  waiting x hx := by
    rcases List.mem_cons.1 hx with rfl | hx
    · exact ⟨fun ev hev => by simp [hr.sent] at hev, by simp [hr.retries]⟩
    · exact h.waiting x hx
  active := h.active
  ended := h.ended

/-- The first waiting request leaves with an answer. -/
theorem leave {e : Exit} (h : Ledger cap arrived (r :: waiting) active ended)
    (hcore : r'.core = r.core) (ha : r.Waiting cap → r'.Answered e) :
    Ledger cap arrived waiting active (ended ++ [(r', e)]) where
  conserved := by
    refine List.perm_iff_count.2 fun a => ?_
    have hc := h.conserved.count_eq a
    simp only [List.map_append, List.map_cons, List.map_nil, List.count_append, List.count_cons,
      List.count_nil, hcore] at hc ⊢
    omega
  waiting r hr := h.waiting r (List.mem_cons_of_mem _ hr)
  active := h.active
  ended x hx := by
    rcases List.mem_append.1 hx with hx | hx
    · exact h.ended x hx
    · obtain rfl := List.mem_singleton.1 hx
      exact ha (h.waiting r (List.mem_cons_self ..))

/-- The first waiting request becomes a session. -/
theorem join {s : Session σ η γ} {active' : List (Session σ η γ)}
    (h : Ledger cap arrived (r :: waiting) active ended) (hp : active'.Perm (s :: active))
    (hcore : s.request.core = r.core) (hs : r.Waiting cap → s.request.Waiting cap) :
    Ledger cap arrived waiting active' ended where
  conserved := by
    refine List.perm_iff_count.2 fun a => ?_
    have hc := h.conserved.count_eq a
    have hactive := ((hp.map (·.request)).map Request.core).count_eq a
    simp only [List.map_append, List.map_cons, List.count_append, List.count_cons, hcore] at hc hactive ⊢
    omega
  waiting r hr := h.waiting r (List.mem_cons_of_mem _ hr)
  active x hx := by
    rcases List.mem_cons.1 (hp.mem_iff.1 hx) with rfl | hx
    · exact hs (h.waiting r (List.mem_cons_self ..))
    · exact h.active x hx
  ended := h.ended

/-- The first waiting request waits on as another. -/
theorem replace (h : Ledger cap arrived (r :: waiting) active ended) (hcore : r'.core = r.core)
    (hr : r.Waiting cap → r'.Waiting cap) : Ledger cap arrived (r' :: waiting) active ended where
  conserved := by
    have hc := h.conserved
    simp only [List.cons_append, List.map_cons, hcore] at hc ⊢
    exact hc
  waiting x hx := by
    rcases List.mem_cons.1 hx with rfl | hx
    · exact hr (h.waiting r (List.mem_cons_self ..))
    · exact h.waiting x (List.mem_cons_of_mem _ hx)
  active := h.active
  ended := h.ended

end Ledger

/-! ## Admission -/

namespace Ledger

variable {H : Host σ η γ} {cfg : SchedConfig} {hung : ℕ → ℕ → Bool} {cap : ℕ}
  {arrived waiting : List Request} {w : Scheduler σ η γ} {req : Request}

theorem refuse {e : EngineError} (h : Ledger cap arrived (req :: waiting) w.active w.ended)
    (he : req.lane = .interactive → e.Firm) :
    Ledger cap arrived waiting (w.refuse hung req e).active (w.refuse hung req e).ended :=
  h.leave rfl fun hw => ⟨req.tx.sent, .error e, rfl, hw.streams, rfl, he⟩

theorem handleCmd (h : Ledger cap arrived w.queue w.active w.ended) (hr : req.Fresh) :
    Ledger cap (req :: arrived) (w.handleCmd H hung req).queue (w.handleCmd H hung req).active
      (w.handleCmd H hung req).ended := by
  have harrive := h.arrive hr
  unfold Scheduler.handleCmd
  split
  · exact harrive.perm (List.perm_append_singleton req w.queue).symm
  · refine harrive.refuse fun _ => ?_
    simp [EngineError.Firm, unknownModel, EngineError.modelNotFound]

theorem handleCmds {cmds : List Request} (h : Ledger cap arrived w.queue w.active w.ended)
    (hcmds : ∀ r ∈ cmds, r.Fresh) :
    Ledger cap (cmds.reverse ++ arrived) (cmds.foldl (Scheduler.handleCmd H hung) w).queue
      (cmds.foldl (Scheduler.handleCmd H hung) w).active
      (cmds.foldl (Scheduler.handleCmd H hung) w).ended := by
  induction cmds generalizing w arrived with
  | nil => exact h
  | cons r cmds ih =>
    rw [List.reverse_cons, List.append_assoc]
    exact ih (h.handleCmd (hcmds r (List.mem_cons_self ..))) fun x hx =>
      hcmds x (List.mem_cons_of_mem _ hx)

theorem admitOne {env : AdmitEnv} (h : Ledger cap arrived (req :: waiting) w.active w.ended) :
    Ledger cap arrived
      (if (w.admitOne H cfg hung env req).2 then req :: waiting else waiting)
      (w.admitOne H cfg hung env req).1.active (w.admitOne H cfg hung env req).1.ended := by
  unfold Scheduler.admitOne
  split
  · exact h.leave rfl fun hw => ⟨hw.streams, rfl⟩
  · split
    · split
      · exact h
      · next hlane =>
        exact h.refuse fun hl => absurd hl hlane
    · simp only
      split
      · next hgate =>
        have hlane : req.lane ≠ .interactive := by
          intro hl
          simp [Scheduler.laneGate, laneAdmit, hl] at hgate
        exact h.refuse fun hl => absurd hl hlane
      · split
        · exact h
        · split
          · next s pools hs =>
            have hreq := admitRequest_request hs
            exact h.join (s := s) (List.perm_append_singleton s w.active)
              (congrArg Request.core hreq) fun hw => hreq ▸ hw
          · next e pools he => exact h.refuse fun _ => admitRequest_firm he

theorem admitAll {admits : ℕ → AdmitEnv} (reqs : List Request) {i : ℕ}
    (h : Ledger cap arrived (reqs ++ waiting) w.active w.ended) :
    Ledger cap arrived ((w.admitAll H cfg hung admits i reqs).2 ++ waiting)
      (w.admitAll H cfg hung admits i reqs).1.active
      (w.admitAll H cfg hung admits i reqs).1.ended := by
  induction reqs generalizing w i waiting with
  | nil => exact h
  | cons req reqs ih =>
    have hone : Ledger cap arrived _ (w.admitOne H cfg hung (admits i) req).1.active _ := admitOne h
    unfold Scheduler.admitAll
    simp only
    split
    · next hkeep =>
      rw [if_pos hkeep] at hone
      exact (ih (hone.perm List.perm_middle.symm)).perm List.perm_middle
    · next hkeep =>
      rw [if_neg hkeep] at hone
      exact ih hone

theorem admission {admits : ℕ → AdmitEnv} (h : Ledger cap arrived w.queue w.active w.ended) :
    Ledger cap arrived (w.admission H cfg hung admits).queue (w.admission H cfg hung admits).active
      (w.admission H cfg hung admits).ended := by
  have hall : Ledger cap arrived ((w.admitAll H cfg hung admits 0 w.queue).2 ++ []) _ _ :=
    admitAll w.queue (by simpa using h)
  rwa [List.append_nil] at hall

end Ledger

/-! ## The phases and the retiring -/

theorem Scheduler.retireSlots_queue {H : Host σ η γ} {cfg : SchedConfig} {env : World σ η}
    (xs : List (Berth (Session σ η γ) Exit)) (i : ℕ) (w : Scheduler σ η γ) :
    (Scheduler.retireSlots H cfg env xs i w).queue = w.queue := by
  induction xs generalizing i with
  | nil => rfl
  | cons x xs ih =>
    unfold Scheduler.retireSlots
    simp only
    split
    · exact ih (i + 1)
    · exact ih (i + 1)

/-- The retiring of the finished slots: the running ones stay active, in order, the others leave. -/
theorem Ledger.retireSlots {H : Host σ η γ} {cfg : SchedConfig} {env : World σ η} {cap : ℕ}
    {arrived waiting : List Request} {ss : List (Session σ η γ)}
    {xs : List (Berth (Session σ η γ) Exit)} {i : ℕ} {w : Scheduler σ η γ}
    (hx : List.Forall₂ (fun s x => Left cap s x.val x.exit) ss xs)
    (h : Ledger cap arrived (ss.map Session.request ++ waiting) w.active w.ended) :
    Ledger cap arrived (xs.filterMap (fun x => x.exit.bind Exit.request?) ++ waiting)
      (Scheduler.retireSlots H cfg env xs i w).active
      (Scheduler.retireSlots H cfg env xs i w).ended := by
  induction hx generalizing i waiting with
  | nil => exact h
  | @cons s x ss xs hl hls ih =>
    have htail := (ih (i := i + 1) (h.perm List.perm_middle.symm)).perm List.perm_middle
    unfold Scheduler.retireSlots
    simp only
    split
    · next hnone =>
      rw [hnone] at hl
      rw [List.filterMap_cons_none (by simp [hnone])]
      exact htail.join (List.Perm.refl _) hl.core hl.waiting
    · next e he =>
      rw [he] at hl
      unfold Scheduler.retire
      cases hreq : e.request? with
      | none =>
        rw [List.filterMap_cons_none (by simp [he, hreq])]
        exact htail.leave hl.core (hl.answered hreq)
      | some req =>
        obtain rfl := hl.parked req hreq
        rw [List.filterMap_cons_some (b := x.val.request) (by simp [he, hreq])]
        exact htail.replace hl.core (hl.parked_waiting hreq)

namespace Ledger

variable {H : Host σ η γ} {cfg : SchedConfig} {hung : ℕ → ℕ → Bool} {arrived : List Request}
  {w : Scheduler σ η γ} {env : World σ η}

/-- The active sessions count as waiting again. -/
theorem vacate {cap : ℕ} {waiting : List Request} {active : List (Session σ η γ)}
    {ended : List (Request × Exit)} (h : Ledger cap arrived waiting active ended) :
    Ledger (η := η) (γ := γ) (σ := σ) cap arrived (active.map Session.request ++ waiting) [] ended where
  conserved := by
    refine List.perm_iff_count.2 fun a => ?_
    have hc := h.conserved.count_eq a
    simp only [List.map_append, List.map_map, List.map_nil, List.count_append, List.count_nil] at hc ⊢
    have hmap : List.map (Request.core ∘ fun s : Session σ η γ => s.request) active =
      List.map (Request.core ∘ Session.request) active := rfl
    rw [hmap] at hc
    omega
  waiting r hr := by
    rcases List.mem_append.1 hr with hr | hr
    · obtain ⟨s, hs, rfl⟩ := List.mem_map.1 hr
      exact h.active s hs
    · exact h.waiting r hr
  active s hs := by cases hs
  ended := h.ended

theorem finishTick {b : TickBoard σ η γ}
    (h : Ledger cfg.stepOomRetries arrived w.queue w.active w.ended)
    (hb : Ran cfg.stepOomRetries w.active b) :
    Ledger cfg.stepOomRetries arrived (w.finishTick H cfg env b).queue
      (w.finishTick H cfg env b).active (w.finishTick H cfg env b).ended := by
  let w₀ : Scheduler σ η γ := { w with
    toProgress := b.shared.toProgress
    active := []
    pools := { w.pools with px := b.shared.px } }
  have hret : Ledger cfg.stepOomRetries arrived _ (Scheduler.retireSlots H cfg env b.slots 0 w₀).active _ :=
    Ledger.retireSlots hb.forall₂ h.vacate
  unfold Scheduler.finishTick
  simp only [Scheduler.retireSlots_queue]
  exact hret.perm (hb.requeued.symm.append_right _)

/-- **One turn of the loop** keeps the ledger. -/
theorem tick (h : Ledger cfg.stepOomRetries arrived w.queue w.active w.ended)
    (hcmds : ∀ r ∈ env.cmds, r.Fresh) :
    Ledger cfg.stepOomRetries (env.cmds.reverse ++ arrived) (w.tick H cfg hung env).queue
      (w.tick H cfg hung env).active (w.tick H cfg hung env).ended := by
  have hadm : Ledger cfg.stepOomRetries (env.cmds.reverse ++ arrived) _
      ((env.cmds.foldl (Scheduler.handleCmd H hung) w).admission H cfg hung env.admits).active _ :=
    (h.handleCmds hcmds).admission
  exact hadm.finishTick (board_ran _)

end Ledger

/-- The requests that have arrived, the last first. -/
def arrivals (envs : List (World σ η)) : List Request := (envs.flatMap World.cmds).reverse

/-- **Every run from an idle worker keeps the ledger**, whatever the clients, the engine and the driver do. -/
theorem run_ledger (H : Host σ η γ) (cfg : SchedConfig) (hung : ℕ → ℕ → Bool) (envs : List (World σ η))
    (hcmds : ∀ env ∈ envs, ∀ r ∈ env.cmds, r.Fresh) :
    let w := ({} : Scheduler σ η γ).run H cfg hung envs
    Ledger cfg.stepOomRetries (arrivals envs) w.queue w.active w.ended := by
  have hrun : ∀ (envs : List (World σ η)) (arrived : List Request) (w : Scheduler σ η γ),
      (∀ env ∈ envs, ∀ r ∈ env.cmds, r.Fresh) →
      Ledger cfg.stepOomRetries arrived w.queue w.active w.ended →
      Ledger cfg.stepOomRetries (arrivals envs ++ arrived) (w.run H cfg hung envs).queue
        (w.run H cfg hung envs).active (w.run H cfg hung envs).ended := by
    intro envs
    induction envs with
    | nil =>
      intro arrived w _ h
      exact h
    | cons env envs ih =>
      intro arrived w hfresh h
      have htick : Ledger cfg.stepOomRetries _ (w.tick H cfg hung env).queue _ _ :=
        h.tick (hfresh env (List.mem_cons_self ..))
      have hrest := ih _ _ (fun e he => hfresh e (List.mem_cons_of_mem _ he)) htick
      have harr : arrivals (env :: envs) ++ arrived = arrivals envs ++ (env.cmds.reverse ++ arrived) := by
        simp [arrivals]
      rw [harr]
      exact hrest
  have h := hrun envs [] {} hcmds ⟨List.Perm.refl _, by simp, by simp, by simp⟩
  rwa [List.append_nil] at h

/-- **No request is lost or taken twice**: at every turn of the loop, the queue, the active sessions and those
that have left are together the requests that have arrived, each once. -/
theorem run_conserves (H : Host σ η γ) (cfg : SchedConfig) (hung : ℕ → ℕ → Bool)
    (envs : List (World σ η)) (hcmds : ∀ env ∈ envs, ∀ r ∈ env.cmds, r.Fresh) :
    let w := ({} : Scheduler σ η γ).run H cfg hung envs
    ((w.queue ++ w.active.map (·.request) ++ w.ended.map (·.1)).map Request.core).Perm
      ((envs.flatMap World.cmds).map Request.core) := by
  have h := (run_ledger H cfg hung envs hcmds).conserved
  exact h.trans ((List.reverse_perm _).map _)

/-- **Every request is answered once**: a waiting one has been sent tokens only, and was parked at most as
often as the retries allow; one that has left has been sent one terminal event behind its tokens, or its
client is gone. An interactive request is never shed. -/
theorem run_answers_once (H : Host σ η γ) (cfg : SchedConfig) (hung : ℕ → ℕ → Bool)
    (envs : List (World σ η)) (hcmds : ∀ env ∈ envs, ∀ r ∈ env.cmds, r.Fresh) :
    let w := ({} : Scheduler σ η γ).run H cfg hung envs
    (∀ r ∈ w.queue, r.Waiting cfg.stepOomRetries) ∧
      (∀ s ∈ w.active, s.request.Waiting cfg.stepOomRetries) ∧
      ∀ x ∈ w.ended, x.1.Answered x.2 := by
  have h := run_ledger H cfg hung envs hcmds
  exact ⟨h.waiting, h.active, h.ended⟩

/-! ## A raw prompt by example -/

/-- A raw prompt arrives, and a turn later one for a model that is not loaded. -/
def rawWorlds : List (World (List Tok) (List Tok)) :=
  [{ cmds := [abcRequest false] }, { cmds := [{ abcRequest true with model := "n", tx := { id := 1 } }] }]

theorem rawWorlds_fresh : ∀ env ∈ rawWorlds, ∀ r ∈ env.cmds, r.Fresh := by
  intro env henv r hr
  simp only [rawWorlds, List.mem_cons, List.not_mem_nil, or_false] at henv
  rcases henv with rfl | rfl
  · obtain rfl := List.mem_singleton.1 hr
    exact ⟨rfl, rfl⟩
  · obtain rfl := List.mem_singleton.1 hr
    exact ⟨rfl, rfl⟩

theorem run_conserves_raw :
    let w := ({} : Scheduler (List Tok) (List Tok) Unit).run charHost {} (fun _ _ => false) rawWorlds
    ((w.queue ++ w.active.map (·.request) ++ w.ended.map (·.1)).map Request.core).Perm
      ((rawWorlds.flatMap World.cmds).map Request.core) :=
  run_conserves charHost {} (fun _ _ => false) rawWorlds rawWorlds_fresh

theorem run_answers_once_raw :
    let w := ({} : Scheduler (List Tok) (List Tok) Unit).run charHost {} (fun _ _ => false) rawWorlds
    (∀ r ∈ w.queue, r.Waiting 3) ∧ (∀ s ∈ w.active, s.request.Waiting 3) ∧
      ∀ x ∈ w.ended, x.1.Answered x.2 :=
  run_answers_once charHost {} (fun _ _ => false) rawWorlds rawWorlds_fresh

end Memra
