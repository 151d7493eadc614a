import Memra.Server.Proof.Admission
import Memra.Server.Proof.SchedulerVisit

/-!
# The lane caps and the serving counters

`Books cfg active c ended`: no lane holds more sessions than its cap, every admitted session is either
active or counted as completed, the shed counters count the retryable refusals that were sent, and the
meter rows add up to the prompt and cached tokens (`MeterRows.Sums`). Admission, the retiring of a tick and
so every run keep it (`run_books`).
-/

namespace Memra

open Lib Session

variable {σ η γ : Type}

/-! ## The meter rows -/

/-- The rows add up to `n` prompt and `c` cached tokens; a row a tenant, and one for those beyond the cap. -/
structure MeterRows.Sums (rows : MeterRows) (n c : ℕ) : Prop where
  prompt : (rows.map (·.2.1)).sum = n
  cached : (rows.map (·.2.2)).sum = c
  keys : (rows.map (·.1)).Nodup
  bounded : rows.length ≤ meterTenantCap ∨
    rows.length = meterTenantCap + 1 ∧ "(other)" ∈ rows.map (·.1)

namespace MeterRows

variable {rows : MeterRows} {key : String} {n c : ℕ}

theorem credit_prompt (rows : MeterRows) :
    ((rows.credit key n c).map (·.2.1)).sum = (rows.map (·.2.1)).sum + n := by
  induction rows with
  | nil => simp [credit]
  | cons row rows ih =>
    obtain ⟨k, n', c'⟩ := row
    unfold credit
    split
    · simp only [List.map_cons, List.sum_cons]
      omega
    · simp only [List.map_cons, List.sum_cons, ih]
      omega

theorem credit_cached (rows : MeterRows) :
    ((rows.credit key n c).map (·.2.2)).sum = (rows.map (·.2.2)).sum + c := by
  induction rows with
  | nil => simp [credit]
  | cons row rows ih =>
    obtain ⟨k, n', c'⟩ := row
    unfold credit
    split
    · simp only [List.map_cons, List.sum_cons]
      omega
    · simp only [List.map_cons, List.sum_cons, ih]
      omega

/-- A key that is there keeps its place, a new one comes last. -/
theorem credit_keys (rows : MeterRows) :
    (rows.credit key n c).map (·.1) =
      if key ∈ rows.map (·.1) then rows.map (·.1) else rows.map (·.1) ++ [key] := by
  induction rows with
  | nil => simp [credit]
  | cons row rows ih =>
    obtain ⟨k, n', c'⟩ := row
    unfold credit
    by_cases hk : k = key
    · simp [hk]
    · have hk' : ¬ key = k := fun h => hk h.symm
      rw [if_neg hk, List.map_cons, ih]
      simp only [List.map_cons, List.mem_cons, hk', false_or]
      split <;> rfl

theorem credit_nodup (h : (rows.map (·.1)).Nodup) : ((rows.credit key n c).map (·.1)).Nodup := by
  rw [credit_keys]
  split
  · exact h
  · next hk => exact List.nodup_append.2 ⟨h, by simp, by
      intro a ha b hb
      obtain rfl := List.mem_singleton.1 hb
      exact fun hab => hk (hab ▸ ha)⟩

theorem credit_length (rows : MeterRows) :
    (rows.credit key n c).length =
      if key ∈ rows.map (·.1) then rows.length else rows.length + 1 := by
  have h : ((rows.credit key n c).map (·.1)).length = _ := congrArg List.length (credit_keys rows)
  rw [List.length_map] at h
  rw [h]
  split <;> simp

/-- An account is credited in full, to its tenant or to the common row. -/
theorem Sums.account {cacheNs : String} {n' c' : ℕ} (h : rows.Sums n c) :
    Sums (meterAccount rows cacheNs n' c') (n + n') (c + c') := by
  have hcredit : ∀ key : String, (key ∈ rows.map (·.1) ∨ rows.length < meterTenantCap ∨
      key = "(other)") → Sums (rows.credit key n' c') (n + n') (c + c') := by
    intro key hkey
    refine ⟨by rw [credit_prompt, h.prompt], by rw [credit_cached, h.cached], credit_nodup h.keys, ?_⟩
    rw [credit_length, credit_keys]
    have hb := h.bounded
    by_cases hmem : key ∈ rows.map (·.1)
    · rwa [if_pos hmem, if_pos hmem]
    · rw [if_neg hmem, if_neg hmem]
      rcases hkey.resolve_left hmem with hlt | rfl
      · exact .inl hlt
      · rcases hb with hb | hb
        · rcases Nat.lt_or_eq_of_le hb with hlt | heq
          · exact .inl hlt
          · exact .inr ⟨by rw [heq], by simp⟩
        · exact absurd hb.2 hmem
  unfold meterAccount
  simp only
  split
  · next hin =>
    refine hcredit _ ?_
    simp only [Bool.or_eq_true, List.any_eq_true, decide_eq_true_eq] at hin
    rcases hin with ⟨row, hrow, hkey⟩ | hlt
    · exact .inl (List.mem_map.2 ⟨row, hrow, hkey⟩)
    · exact .inr (.inl hlt)
  · exact hcredit _ (.inr (.inr rfl))

end MeterRows

/-! ## The counters -/

/-- A request that left with a retryable refusal. -/
def wasShed (x : Request × Exit) : Bool :=
  match x.1.tx.sent.getLast?, x.2 with
  | some (.error e), .ended => e.cls = .rateLimit
  | _, _ => false

/-- The retryable refusals of a lane. -/
def shedCount (lane : Lane) (ended : List (Request × Exit)) : ℕ :=
  ended.countP fun x => x.1.lane = lane && wasShed x

/-- The lane caps and the counters (module doc). -/
structure Books (cfg : Config) (active : List (Session σ η γ)) (c : ServeCounters)
    (ended : List (Request × Exit)) : Prop where
  lanes : ∀ lane, laneCount lane active ≤ laneCap cfg lane
  laneAdmitted : ∀ lane, c.laneAdmitted lane = c.laneCompleted lane + laneCount lane active
  admitted : c.admitted = c.completed + active.length
  shed : ∀ lane, c.laneShed lane = shedCount lane ended
  spared : c.laneShed .interactive = 0
  meter : c.nsTokens.Sums c.promptIn c.cachedIn
  cached : c.cachedIn ≤ c.promptIn

theorem countLane_apply (count : Lane → ℕ) (lane l : Lane) :
    countLane count lane l = count l + if lane = l then 1 else 0 := by
  unfold countLane
  by_cases h : lane = l
  · subst h
    simp
  · rw [Function.update_of_ne (Ne.symm h), if_neg h, Nat.add_zero]

@[simp] theorem laneCount_cons (l : Lane) (s : Session σ η γ) (active : List (Session σ η γ)) :
    laneCount l (s :: active) = laneCount l active + if s.lane = l then 1 else 0 := by
  simp [laneCount, List.countP_cons]

@[simp] theorem shedCount_append (l : Lane) (ended : List (Request × Exit)) (x : Request × Exit) :
    shedCount l (ended ++ [x]) =
      shedCount l ended + if x.1.lane = l ∧ wasShed x = true then 1 else 0 := by
  simp [shedCount, List.countP_append, List.countP_cons]

namespace Books

variable {cfg : Config} {active active' : List (Session σ η γ)} {c : ServeCounters}
  {ended : List (Request × Exit)} {s s' : Session σ η γ} {x : Request × Exit}

theorem perm (h : Books cfg active c ended) (hp : active.Perm active') : Books cfg active' c ended where
  lanes l := (hp.countP_eq _).symm.le.trans (h.lanes l)
  laneAdmitted l := (h.laneAdmitted l).trans (congrArg _ (hp.countP_eq _))
  admitted := h.admitted.trans (congrArg _ hp.length_eq)
  shed := h.shed
  spared := h.spared
  meter := h.meter
  cached := h.cached

/-- A session in place of another of its lane. -/
theorem replace (h : Books cfg (s :: active) c ended) (hl : s'.lane = s.lane) :
    Books cfg (s' :: active) c ended where
  lanes l := by
    have hlane := h.lanes l
    rwa [laneCount_cons, ← hl, ← laneCount_cons] at hlane
  laneAdmitted l := by
    have hlane := h.laneAdmitted l
    rwa [laneCount_cons, ← hl, ← laneCount_cons] at hlane
  admitted := h.admitted
  shed := h.shed
  spared := h.spared
  meter := h.meter
  cached := h.cached

/-- A request leaves without a shed. -/
theorem left (h : Books cfg active c ended) (hx : wasShed x = false) :
    Books cfg active c (ended ++ [x]) where
  lanes := h.lanes
  laneAdmitted := h.laneAdmitted
  admitted := h.admitted
  shed l := by rw [shedCount_append, h.shed l, hx]; simp
  spared := h.spared
  meter := h.meter
  cached := h.cached

/-- A dark request is shed. -/
theorem shedOne (h : Books cfg active c ended) (hx : wasShed x = true)
    (hl : x.1.lane ≠ .interactive) :
    Books cfg active { c with laneShed := countLane c.laneShed x.1.lane } (ended ++ [x]) where
  lanes := h.lanes
  laneAdmitted := h.laneAdmitted
  admitted := h.admitted
  shed l := by
    change countLane c.laneShed x.1.lane l = _
    rw [shedCount_append, countLane_apply, h.shed l, hx]
    simp
  spared := by
    change countLane c.laneShed x.1.lane .interactive = 0
    rw [countLane_apply, if_neg hl, h.spared]
  meter := h.meter
  cached := h.cached

/-- A session is completed. -/
theorem completed (h : Books cfg (s :: active) c ended) (hl : s'.lane = s.lane) :
    Books cfg active { c with
      completed := c.completed + 1
      laneCompleted := countLane c.laneCompleted s'.lane } ended where
  lanes l := by
    have hlane := h.lanes l
    rw [laneCount_cons] at hlane
    omega
  laneAdmitted l := by
    have hlane := h.laneAdmitted l
    rw [laneCount_cons, ← hl] at hlane
    simp only [countLane_apply]
    omega
  admitted := by
    have hadm := h.admitted
    rw [List.length_cons] at hadm
    simp only
    omega
  shed := h.shed
  spared := h.spared
  meter := h.meter
  cached := h.cached

end Books

/-! ## Admission -/

/-- Only an answer can be a shed. -/
theorem wasShed_exit (req : Request) {e : Exit} (he : e ≠ .ended) :
    wasShed (req, e) = false := by
  unfold wasShed
  split
  · next hended => exact absurd hended he
  · rfl

theorem wasShed_rateLimit (req : Request) (hung : ℕ → Bool) (message : String) :
    wasShed ({ req with tx := (req.tx.send hung (.error (.rateLimit message))).2 }, .ended) =
      true := by
  simp [wasShed, Tx.send, EngineError.rateLimit]

theorem wasShed_firm (req : Request) (hung : ℕ → Bool) {e : EngineError} (he : e.Firm) :
    wasShed ({ req with tx := (req.tx.send hung (.error e)).2 }, .ended) = false := by
  simpa [wasShed, Tx.send, EngineError.Firm] using he

section

variable {H : Host σ η γ} {cfg : SchedConfig} {hung : ℕ → ℕ → Bool} {w : Scheduler σ η γ}
  {req : Request}

/-- The books of a worker. -/
def Scheduler.Booked (cfg : Config) (w : Scheduler σ η γ) : Prop := Books cfg w.active w.counters w.ended

theorem Scheduler.Booked.handleCmd (h : w.Booked cfg.toConfig) :
    (w.handleCmd H hung req).Booked cfg.toConfig := by
  unfold Scheduler.handleCmd
  split
  · exact h
  · exact Books.left h (wasShed_firm req _ (by simp [EngineError.Firm, unknownModel, EngineError.modelNotFound]))

theorem Scheduler.Booked.join {env : AdmitEnv} {s : Session σ η γ} (h : w.Booked cfg.toConfig)
    (hroom : laneCount s.lane w.active < laneCap cfg.toConfig s.lane) (hs : s.nCached ≤ s.nPrompt) :
    (w.join env s).Booked cfg.toConfig := by
  have hperm : (w.active ++ [s]).Perm (s :: w.active) := List.perm_append_singleton s w.active
  have hcount : ∀ l, laneCount l (w.active ++ [s]) = laneCount l w.active + if s.lane = l then 1 else 0 := by
    intro l
    rw [← laneCount_cons]
    exact hperm.countP_eq _
  refine ⟨fun l => ?_, fun l => ?_, ?_, h.shed, h.spared, h.meter.account, ?_⟩
  · change laneCount l (w.active ++ [s]) ≤ _
    rw [hcount l]
    by_cases hl : s.lane = l
    · subst hl
      rw [if_pos rfl]
      exact hroom
    · rw [if_neg hl]
      exact h.lanes l
  · change countLane w.counters.laneAdmitted s.lane l = _ + laneCount l (w.active ++ [s])
    rw [hcount l, countLane_apply, h.laneAdmitted l]
    exact Nat.add_assoc ..
  · change w.counters.admitted + 1 = w.counters.completed + (w.active ++ [s]).length
    rw [h.admitted, List.length_append]
    rfl
  · exact Nat.add_le_add h.cached hs

theorem Scheduler.Booked.admitOne {env : AdmitEnv} (h : w.Booked cfg.toConfig) :
    (w.admitOne H cfg hung env req).1.Booked cfg.toConfig := by
  unfold Scheduler.admitOne
  split
  · exact Books.left h (wasShed_exit _ (by simp))
  · split
    · split
      · exact h
      · next hlane => exact Books.shedOne h (wasShed_rateLimit req _ _) hlane
    · next hroom =>
      simp only
      split
      · next hgate =>
        have hlane : req.lane ≠ .interactive := by
          intro hl
          simp [Scheduler.laneGate, laneAdmit, hl] at hgate
        exact Books.shedOne h (wasShed_rateLimit req _ _) hlane
      · split
        · exact h
        · split
          · next s pools hs =>
            obtain ⟨stages⟩ := admitRequest_stages hs
            have hreq : s.lane = req.lane := congrArg Request.lane (admitRequest_request hs)
            refine Scheduler.Booked.join (w := { w with
              stats := (w.laneGate cfg.toConfig env req.lane).2, pools }) h ?_ stages.cached_le
            rw [hreq]
            exact not_le.1 hroom
          · next e pools he => exact Books.left h (wasShed_firm req _ (admitRequest_firm he))

theorem Scheduler.Booked.admitAll {admits : ℕ → AdmitEnv} (reqs : List Request) {i : ℕ}
    (h : w.Booked cfg.toConfig) : (w.admitAll H cfg hung admits i reqs).1.Booked cfg.toConfig := by
  induction reqs generalizing w i with
  | nil => exact h
  | cons req reqs ih => exact ih h.admitOne

/-! ## Retiring -/

theorem Session.Left.not_shed {n : ℕ} {s s' : Session σ η γ} {e : Exit} (h : Left n s s' (some e)) :
    wasShed (s'.request, e) = false := by
  have hwent := h.went
  cases e with
  | ended =>
    obtain ⟨t, -, ev, hsent, hev⟩ := hwent
    have hlast : s'.request.tx.sent.getLast? = some ev := by
      change s'.tx.sent.getLast? = _
      rw [hsent, List.getLast?_concat]
    unfold wasShed
    rw [hlast]
    cases ev with
    | token id text => rfl
    | done r n p c => rfl
    | error e => simpa [Event.Final] using hev
  | aborted => exact wasShed_exit _ (by simp)
  | parked req => exact wasShed_exit _ (by simp)

theorem Books.retireSlots {env : World σ η} {n : ℕ} {ss : List (Session σ η γ)}
    (extra : List (Session σ η γ)) {xs : List (Berth (Session σ η γ) Exit)} {i : ℕ} {w : Scheduler σ η γ}
    (hx : List.Forall₂ (fun s x => Left n s x.val x.exit) ss xs)
    (h : Books cfg.toConfig (ss ++ (extra ++ w.active)) w.counters w.ended) :
    Books cfg.toConfig (extra ++ (Scheduler.retireSlots H cfg env xs i w).active)
      (Scheduler.retireSlots H cfg env xs i w).counters
      (Scheduler.retireSlots H cfg env xs i w).ended := by
  induction hx generalizing i extra with
  | nil => exact h
  | @cons s x ss xs hl hls ih =>
    have htail := @ih (s :: extra) (i + 1) (h.perm List.perm_middle.symm)
    have hlane : x.val.lane = s.lane := congrArg SessionInfo.lane hl.info
    unfold Scheduler.retireSlots
    simp only
    split
    · exact (htail.replace hlane).perm List.perm_middle.symm
    · next e he =>
      rw [he] at hl
      have hdone := htail.completed hlane
      unfold Scheduler.retire
      simp only
      split
      · exact hdone
      · exact hdone.left hl.not_shed

/-- **One turn of the loop** keeps the books. -/
theorem Scheduler.Booked.tick {env : World σ η} (h : w.Booked cfg.toConfig) :
    (w.tick H cfg hung env).Booked cfg.toConfig := by
  have hcmds : (env.cmds.foldl (Scheduler.handleCmd H hung) w).Booked cfg.toConfig := by
    generalize env.cmds = cmds
    induction cmds generalizing w with
    | nil => exact h
    | cons r cmds ih => exact ih h.handleCmd
  have hadm : ((env.cmds.foldl (Scheduler.handleCmd H hung) w).admission H cfg hung env.admits).Booked
      cfg.toConfig := hcmds.admitAll _
  have hran : Ran cfg.stepOomRetries _ (phases H cfg hung env (Scheduler.board _)) :=
    board_ran ((env.cmds.foldl (Scheduler.handleCmd H hung) w).admission H cfg hung env.admits)
  refine Books.retireSlots [] hran.forall₂ ?_
  rw [List.nil_append, List.append_nil]
  exact hadm

end

/-- **The lane caps hold and the counters add up** in every run, whatever is asked, fails or is shed. -/
theorem run_books (H : Host σ η γ) (cfg : SchedConfig) (hung : ℕ → ℕ → Bool)
    (envs : List (World σ η)) :
    let w := ({} : Scheduler σ η γ).run H cfg hung envs
    Books cfg.toConfig w.active w.counters w.ended := by
  have hrun : ∀ (envs : List (World σ η)) (w : Scheduler σ η γ), w.Booked cfg.toConfig →
      (w.run H cfg hung envs).Booked cfg.toConfig := by
    intro envs
    induction envs with
    | nil => exact fun w h => h
    | cons env envs ih => exact fun w h => ih _ h.tick
  refine hrun envs {} ⟨fun l => Nat.zero_le _, fun l => rfl, rfl, fun l => rfl, rfl, ?_, le_rfl⟩
  exact ⟨rfl, rfl, List.nodup_nil, .inl (Nat.zero_le _)⟩

end Memra
