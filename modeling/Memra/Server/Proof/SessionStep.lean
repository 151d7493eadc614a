import Memra.Server.SessionStep

/-!
# What a step leaves of a session's channel

`Session.Left n s s' e`: the step from `s` to `s'` keeps what the session was admitted with and the events
already sent, adds tokens only, and behind them one final event where the session ends (`e`). Every
step of `SessionStep` has such a lemma, from `send_left` up; `Left.trans` chains two steps that do not end
the session in between. `Session.card` is the part that the engine's steps do not touch at all.
-/

namespace Memra

variable {σ η γ : Type}

/-- Not a terminal event. -/
def Event.Streams (ev : Event) : Prop := ev.terminal = false

/-- A terminal event other than a shed. -/
def Event.Final : Event → Prop
  | .token .. => False
  | .done .. => True
  | .error e => e.cls ≠ .rateLimit

theorem Event.token_streams (id : Tok) (text : String) : (Event.token id text).Streams := rfl

theorem EngineError.engine_final (message : String) : (Event.error (.engine message)).Final := by
  simp only [Event.Final, EngineError.engine]
  split <;> simp

/-- `t'` is `t` with more tokens sent. -/
def Tx.More (t t' : Tx) : Prop := ∃ ts, t'.sent = t.sent ++ ts ∧ ∀ ev ∈ ts, ev.Streams

/-- What the channel `t` has become when the session has left as `e`. -/
def Tx.Went (t t' : Tx) : Option Exit → Prop
  | none => t.More t'
  | some .ended => ∃ t₁ : Tx, t.More t₁ ∧ ∃ ev, t'.sent = t₁.sent ++ [ev] ∧ ev.Final
  | some .aborted => t.More t' ∧ t'.closed = true
  | some (.parked _) => t.More t'

theorem Tx.More.rfl {t : Tx} : t.More t := ⟨[], by simp, by simp⟩

theorem Tx.More.trans {t t' t'' : Tx} (h : t.More t') (h' : t'.More t'') : t.More t'' := by
  obtain ⟨ts, hs, hts⟩ := h
  obtain ⟨ts', hs', hts'⟩ := h'
  refine ⟨ts ++ ts', by rw [hs', hs, List.append_assoc], fun ev hev => ?_⟩
  rcases List.mem_append.1 hev with hev | hev
  · exact hts ev hev
  · exact hts' ev hev

theorem Tx.More.went {t t' t'' : Tx} {e : Option Exit} (h : t.More t') (h' : t'.Went t'' e) :
    t.Went t'' e := by
  match e, h' with
  | none, h' => exact h.trans h'
  | some .ended, ⟨t₁, ht₁, hev⟩ => exact ⟨t₁, h.trans ht₁, hev⟩
  | some .aborted, ⟨ht, hc⟩ => exact ⟨h.trans ht, hc⟩
  | some (.parked _), h' => exact h.trans h'

namespace Session

/-- What was admitted, the retries and the channel. -/
def card (s : Session σ η γ) : SessionInfo × ℕ × Tx := (s.toSessionInfo, s.oomRetries, s.tx)

theorem request_of_card {s s' : Session σ η γ} (h : s'.card = s.card) : s'.request = s.request := by
  simp only [card, Prod.mk.injEq] at h
  obtain ⟨hinfo, hretries, htx⟩ := h
  simp only [request, hinfo, hretries, htx]

/-- The step from `s` to `s'`, which leaves the active list as `e`. -/
structure Left (n : ℕ) (s s' : Session σ η γ) (e : Option Exit) : Prop where
  info : s'.toSessionInfo = s.toSessionInfo
  id : s'.tx.id = s.tx.id
  went : s.tx.Went s'.tx e
  retries : s.oomRetries ≤ n → s'.oomRetries ≤ n
  parked : ∀ req, e.bind Exit.request? = some req → req = s'.request

variable {n : ℕ} {s s' s'' : Session σ η γ} {e : Option Exit}

theorem Left.trans (h : Left n s s' none) (h' : Left n s' s'' e) : Left n s s'' e where
  info := h'.info.trans h.info
  id := h'.id.trans h.id
  went := Tx.More.went h.went h'.went
  retries hr := h'.retries (h.retries hr)
  parked := h'.parked

theorem Left.of_card (h : s'.card = s.card) : Left n s s' none := by
  simp only [card, Prod.mk.injEq] at h
  obtain ⟨hinfo, hretries, htx⟩ := h
  exact ⟨hinfo, congrArg Tx.id htx, htx ▸ Tx.More.rfl, fun h => hretries ▸ h, fun _ h => by cases h⟩

/-- What a step did to the card is what it did. -/
theorem Left.card_right (h : Left n s s' e) (hc : s''.card = s'.card) : Left n s s'' e := by
  have hreq := request_of_card hc
  simp only [card, Prod.mk.injEq] at hc
  obtain ⟨hinfo, hretries, htx⟩ := hc
  exact ⟨hinfo.trans h.info, (congrArg Tx.id htx).trans h.id, htx ▸ h.went,
    fun hr => hretries ▸ h.retries hr, fun req hr => (h.parked req hr).trans hreq.symm⟩

/-! ## Sends -/

variable (hung : ℕ → ℕ → Bool)

theorem send_sent (s : Session σ η γ) (ev : Event) :
    (s.send hung ev).2.tx.sent = s.tx.sent ++ [ev] := rfl

theorem send_left {ev : Event} (hev : ev.Streams) : Left n s (s.send hung ev).2 none :=
  ⟨rfl, rfl, ⟨[ev], send_sent hung s ev, by simpa using hev⟩, fun h => h, fun _ h => by cases h⟩

/-- A send that fails finds the client gone. -/
theorem send_aborts {ev : Event} (hev : ev.Streams) (h : (s.send hung ev).1 = false) :
    Left n s (s.send hung ev).2 (some .aborted) := by
  have hl := send_left (n := n) (s := s) hung hev
  refine ⟨hl.info, hl.id, ⟨hl.went, ?_⟩, hl.retries, fun _ h => by cases h⟩
  change (s.tx.closed || hung s.tx.id s.tx.sent.length) = true
  simpa only [send, Tx.send, Bool.not_eq_false'] using h

theorem send_ends {ev : Event} (hev : ev.Final) : Left n s (s.send hung ev).2 (some .ended) :=
  ⟨rfl, rfl, ⟨s.tx, Tx.More.rfl, ev, send_sent hung s ev, hev⟩, fun h => h, fun _ h => by cases h⟩

theorem finish_ends (r : StopReason) : Left n s (s.finish hung r) (some .ended) :=
  send_ends hung trivial

theorem sendError_ends (message : String) :
    Left n s (s.sendError hung message) (some .ended) :=
  send_ends hung (EngineError.engine_final message)

end Session

/-- What a step comes to agrees with what it did to the session. -/
def Stepped.Follows (n : ℕ) (s : Session σ η γ) (r : Stepped σ η γ) : Prop :=
  match r.stop with
  | .goOn => Session.Left n s r.s none
  | .leave e => Session.Left n s r.s (some e) ∧ e.request? = none
  | .fail _ => Session.Left n s r.s none

namespace Session

variable {n : ℕ} {s s' : Session σ η γ} {r : Stepped σ η γ}

theorem follows_trans (h : Left n s s' none) (h' : r.Follows n s') : r.Follows n s := by
  unfold Stepped.Follows at h' ⊢
  split at h'
  · exact h.trans h'
  · exact ⟨h.trans h'.1, h'.2⟩
  · exact h.trans h'

theorem finish_follows (hung : ℕ → ℕ → Bool) (h : Left n s s' none) (reason : StopReason)
    (faults : List StepFault) :
    Stepped.Follows n s { s := s'.finish hung reason, stop := .leave .ended, faults } :=
  ⟨h.trans (finish_ends hung reason), rfl⟩

theorem settle_left (hung : ℕ → ℕ → Bool) (pre : String) (h : r.Follows n s) :
    Left n s (settle hung pre r).1 (settle hung pre r).2 := by
  unfold Stepped.Follows at h
  unfold settle
  split at h
  · next hstop => simpa only [hstop] using h
  · next e hstop => simpa only [hstop] using h.1
  · next err hstop => simpa only [hstop] using h.trans (sendError_ends hung (pre ++ err))

/-- Only `parkOrFail` parks. -/
theorem settle_request (hung : ℕ → ℕ → Bool) (pre : String) (h : r.Follows n s) :
    (settle hung pre r).2.bind Exit.request? = none := by
  unfold Stepped.Follows at h
  unfold settle
  split at h
  · next hstop => simp only [hstop, Option.bind_none]
  · next e hstop => simpa only [hstop, Option.bind_some] using h.2
  · next err hstop => simp only [hstop, Option.bind_some, Exit.request?]

/-! ## Emission -/

variable (hung : ℕ → ℕ → Bool) (H : Host σ η γ) (lm : LoadedModel σ η γ) (cfg : Config)
  (env : VisitEnv σ η)

theorem stopBattery_follows (guard : Bool) (s : Session σ η γ) :
    (s.stopBattery hung lm guard).Follows n s := by
  unfold stopBattery
  split
  · exact ⟨finish_ends hung _, rfl⟩
  · split
    · exact ⟨finish_ends hung _, rfl⟩
    · exact Left.of_card rfl

theorem emitNext_follows (guard : Bool) (next : Tok) (s : Session σ η γ) :
    (s.emitNext hung lm env guard next).Follows n s := by
  unfold emitNext
  extract_lets s₁
  have hs : Left n s s₁ none := Left.of_card rfl
  split
  · exact finish_follows hung hs _ _
  · split
    · exact hs
    · next c hc =>
      have hd : Left n s { s₁ with
          constraint := c
          emittedBytes := (lm.deltaText s₁.generated s₁.emittedBytes).2 } none := Left.of_card rfl
      refine follows_trans hd ?_
      simp only
      split
      · exact follows_trans (send_left hung (Event.token_streams ..)) (stopBattery_follows hung lm guard _)
      · next hsend => exact ⟨send_aborts hung (Event.token_streams ..) (by simpa using hsend), rfl⟩

theorem drawNext_card (s : Session σ η γ) : (s.drawNext H lm env).2.card = s.card := by
  unfold drawNext
  split
  · rfl
  · split <;> rfl
  · rfl

theorem drawEmit_follows (s : Session σ η γ) : (s.drawEmit hung H lm env).1.Follows n s := by
  unfold drawEmit
  split
  · exact ⟨finish_ends hung _, rfl⟩
  · have hcard := drawNext_card H lm env s
    split
    · next err s' h => exact Left.of_card (by rw [h] at hcard; exact hcard)
    · next next s' h =>
      exact follows_trans (Left.of_card (by rw [h] at hcard; exact hcard))
        (emitNext_follows hung lm env true next s')

theorem advanceSampleEmit_left (s : Session σ η γ) :
    Left n s (s.advanceSampleEmit hung H lm env).1.1 (s.advanceSampleEmit hung H lm env).1.2 :=
  settle_left hung "" (drawEmit_follows hung H lm env s)

theorem advanceTokenEmit_left (tok : Tok) (s : Session σ η γ) :
    Left n s (s.advanceTokenEmit hung lm env tok).1 (s.advanceTokenEmit hung lm env tok).2 ∧
      (s.advanceTokenEmit hung lm env tok).2.bind Exit.request? = none := by
  unfold advanceTokenEmit
  split
  · exact ⟨finish_ends hung _, rfl⟩
  · exact ⟨settle_left hung "" (emitNext_follows hung lm env false tok s),
      settle_request hung "" (emitNext_follows (n := n) hung lm env false tok s)⟩

theorem stageGrammarMask_card (s : Session σ η γ) :
    (s.stageGrammarMask lm cfg env).2.card = s.card := by
  unfold stageGrammarMask
  split
  · rfl
  · split <;> rfl

/-! ## Engine steps -/

theorem decodeStep_follows (tok : Tok) (s : Session σ η γ) :
    (s.decodeStep lm env tok).Follows n s := by
  unfold decodeStep
  split
  · exact Left.of_card rfl
  · split <;> exact Left.of_card rfl

theorem batchRow_card (tok : Tok) (s : Session σ η γ) : (s.batchRow lm cfg tok).card = s.card := by
  unfold batchRow
  split
  · rfl
  · simp only
    split
    · rfl
    · split <;> rfl

theorem primeRow_card (s : Session σ η γ) : (s.primeRow lm).card = s.card := by
  unfold primeRow
  split <;> rfl

end Session

namespace Prefill

variable (lm : LoadedModel σ η γ) (cfg : Config) (env : TickEnv)

theorem prefixInsert_s (t : Prefill σ η γ) (why : String) :
    (t.prefixInsertFromSession cfg env why).s = t.s := by
  unfold prefixInsertFromSession
  split
  · rfl
  · split <;> rfl

theorem maybePrefixSeed_card (t : Prefill σ η γ) :
    (t.maybePrefixSeed cfg env).s.card = t.s.card := by
  unfold maybePrefixSeed
  split
  · simp only
    split
    · rfl
    · split
      · rfl
      · rw [prefixInsert_s]
        rfl
  · rfl

theorem primeChunk_card (take : ℕ) (t : Prefill σ η γ) :
    (primeChunk lm env take t).2.s.card = t.s.card := by
  unfold primeChunk
  simp only
  split
  · rfl
  · split <;> rfl

theorem stepToken_card (tok : Tok) (queue : List Tok) (t : Prefill σ η γ) :
    (stepToken lm cfg env tok queue t).2.s.card = t.s.card := by
  unfold stepToken
  simp only
  split
  · rfl
  · split
    · rfl
    · split <;> rfl

theorem settle_card (t : Prefill σ η γ) : (t.settle cfg env).s.card = t.s.card := by
  unfold settle
  extract_lets _ t' _
  have h : t'.s.card = t.s.card := by
    simp only [t']
    split
    · rw [prefixInsert_s]
      rfl
    · rfl
  split
  · rw [maybePrefixSeed_card]
    exact h
  · exact h

end Prefill

namespace Session

variable {n : ℕ} (hung : ℕ → ℕ → Bool) (H : Host σ η γ) (lm : LoadedModel σ η γ) (cfg : Config)
  (env : VisitEnv σ η)

theorem prefillTick_card (env : TickEnv) (s : Session σ η γ)
    (px : PrefixCache PoolKey (Snapshot σ)) (budget : ℕ) :
    (prefillTick lm cfg env s px budget).2.s.card = s.card := by
  unfold prefillTick
  split
  · rw [Prefill.maybePrefixSeed_card]
    rfl
  · next tok queue hq =>
    have h : ∀ s' : Session σ η γ, s'.card = s.card →
        (feedTick lm cfg env s' px budget tok queue).2.2.s.card = s.card := by
      intro s' hs
      unfold feedTick
      simp only
      split
      · rw [Prefill.primeChunk_card]
        exact hs
      · rw [Prefill.stepToken_card]
        exact hs
    simp only
    split
    · next err herr => exact h _ (by split <;> rfl)
    · next herr =>
      rw [Prefill.settle_card]
      exact h _ (by split <;> rfl)

theorem stepPrefill_follows (s : Session σ η γ) : (s.stepPrefill lm cfg env).Follows n s := by
  unfold stepPrefill
  extract_lets q carried t take take' r _
  have h : r.2.s.card = s.card := by
    simp only [r]
    split
    · rw [Prefill.primeChunk_card]
    · split
      · rfl
      · rw [Prefill.stepToken_card]
  split
  · exact Left.of_card h
  · refine Left.of_card ?_
    simp only
    split
    · exact h
    · exact h

theorem stepDecode_follows (s : Session σ η γ) : (s.stepDecode hung H lm env).Follows n s := by
  have h := drawEmit_follows (n := n) hung H lm env s
  unfold stepDecode
  simp only
  split
  · next next hstop hnext =>
    refine follows_trans ?_ (decodeStep_follows lm env next _)
    simpa only [Stepped.Follows, hstop] using h
  · exact h

end Session

/-! ## The speculative arm -/

/-- The callback has sent tokens only, and a failed send found the client gone. -/
structure BurstSend.From (t : Tx) (f : BurstSend) : Prop where
  more : t.More f.tx
  id : f.tx.id = t.id
  closed : f.sendOk = false → f.tx.closed = true

namespace BurstSend

variable {t : Tx} (hung : ℕ → ℕ → Bool) (lm : LoadedModel σ η γ) (eos : List Tok)

theorem From.sendText {f : BurstSend} (h : f.From t) (ids : List Tok) (id : Tok) :
    (f.sendText hung lm ids id).From t := by
  unfold BurstSend.sendText
  simp only
  split
  · exact ⟨h.more, h.id, h.closed⟩
  · refine ⟨h.more.trans ⟨[.token id (lm.deltaText ids f.cursor).1], rfl, by simp [Event.token_streams]⟩,
      h.id, fun hok => ?_⟩
    change (f.tx.closed || hung f.tx.id f.tx.sent.length) = true
    simpa only [Tx.send, Bool.not_eq_false'] using hok

theorem From.flush {f : BurstSend} (h : f.From t) (slice : List Tok) :
    (f.flush hung lm eos slice).From t := by
  unfold BurstSend.flush
  split
  · exact h
  · simp only
    split
    · exact BurstSend.From.sendText hung lm (f := { f with
        vis := (pushVisible eos f.vis 0 slice).1, eosSeen := (pushVisible eos f.vis 0 slice).2.2 })
        ⟨h.more, h.id, h.closed⟩ _ _
    · exact ⟨h.more, h.id, h.closed⟩

end BurstSend

namespace Session

variable {n : ℕ} (hung : ℕ → ℕ → Bool) (H : Host σ η γ) (lm : LoadedModel σ η γ) (cfg : Config)
  (env : VisitEnv σ η)

theorem flushes_from (slices : List (List Tok)) (s : Session σ η γ) :
    (s.flushes hung lm cfg slices).From s.tx := by
  unfold flushes
  generalize (if cfg.ssePerBurst then [] else slices) = slices
  have h : BurstSend.From s.tx { vis := s.generated, cursor := s.emittedBytes, tx := s.tx } :=
    ⟨Tx.More.rfl, rfl, fun h => by cases h⟩
  revert h
  generalize ({ vis := s.generated, cursor := s.emittedBytes, tx := s.tx } : BurstSend) = f
  intro h
  induction slices generalizing f with
  | nil => exact h
  | cons slice slices ih => exact ih _ (h.flush hung lm s.params.eos slice)

/-- A session with the callback's channel in place of its own. -/
theorem left_of_from {s s' : Session σ η γ} {f : BurstSend} (hf : f.From s.tx)
    (hinfo : s'.toSessionInfo = s.toSessionInfo) (hret : s'.oomRetries = s.oomRetries)
    (htx : s'.tx = f.tx) : Left n s s' none :=
  ⟨hinfo, by rw [htx, hf.id], htx ▸ hf.more, fun h => hret ▸ h, fun _ h => by cases h⟩

theorem aborted_of_from {s s' : Session σ η γ} {f : BurstSend} (hf : f.From s.tx)
    (hinfo : s'.toSessionInfo = s.toSessionInfo) (hret : s'.oomRetries = s.oomRetries)
    (htx : s'.tx = f.tx) (hok : ¬ f.sendOk = true) : Left n s s' (some .aborted) :=
  ⟨hinfo, by rw [htx, hf.id], htx ▸ ⟨hf.more, hf.closed (by simpa using hok)⟩, fun h => hret ▸ h,
    fun _ h => by cases h⟩

theorem acceptSpec_follows (caches : SpecCaches σ η) (r : BurstOut σ η γ) (s : Session σ η γ) :
    (s.acceptSpec hung lm cfg caches r).Follows n s := by
  unfold acceptSpec
  extract_lets faults f acc suffix kept s' f' s''
  have hf : f.From s.tx := flushes_from hung lm cfg r.calls s
  have hf' : f'.From s.tx := hf.sendText hung lm _ _
  split
  · next hok => exact ⟨aborted_of_from hf rfl rfl rfl (by simpa using hok), rfl⟩
  · split
    · next hok => exact ⟨aborted_of_from hf' rfl rfl rfl (by simpa using hok), rfl⟩
    · split
      · refine finish_follows hung ?_ _ _
        exact left_of_from hf' rfl rfl rfl
      · exact left_of_from hf' rfl rfl rfl

theorem stepSpec_follows (caches : SpecCaches σ η) (s : Session σ η γ) :
    (s.stepSpec hung lm cfg env caches).Follows n s := by
  unfold stepSpec
  simp only
  split
  · exact ⟨finish_ends hung _, rfl⟩
  · split
    · refine finish_follows hung ?_ _ _
      exact Left.of_card rfl
    · split
      · exact left_of_from (flushes_from hung lm cfg env.slices s) rfl rfl rfl
      · exact acceptSpec_follows hung lm cfg caches _ s

/-- **Every arm of `step_session`** agrees with what it did. -/
theorem step_follows (s : Session σ η γ) : (s.step hung H lm cfg env).Follows n s := by
  unfold step
  split
  · exact stepSpec_follows hung lm cfg env _ s
  · split
    · exact stepDecode_follows hung H lm env s
    · exact stepPrefill_follows lm cfg env s

theorem parkOrFail_left {s s' : Session σ η γ} (err : String)
    (h : Left cfg.stepOomRetries s s' none) :
    Left cfg.stepOomRetries s (s'.parkOrFail hung cfg err).1 (s'.parkOrFail hung cfg err).2 := by
  unfold parkOrFail
  split
  · next hpark =>
    have hup : Left cfg.stepOomRetries s { s' with oomRetries := s'.oomRetries + 1 } none :=
      ⟨h.info, h.id, h.went, fun _ => hpark.2.2.2, fun _ h => by cases h⟩
    simp only
    split
    · next req hreq =>
      refine ⟨hup.info, hup.id, hup.went, hup.retries, fun req' h' => ?_⟩
      obtain rfl : req = req' := by simpa [Exit.request?] using h'
      unfold parkRequeue at hreq
      split at hreq
      · cases hreq
      · exact (Option.some.inj hreq).symm
    · exact hup.trans (sendError_ends hung _)
  · exact h.trans (sendError_ends hung _)

/-! ## The graph path and the hand-over -/

theorem promote_follows (s : Session σ η γ) : (s.promote lm cfg env).Follows n s := by
  unfold promote
  split
  · exact Left.of_card rfl
  · split
    · exact Left.of_card rfl
    · split
      · exact Left.of_card rfl
      · simp only
        split <;> exact Left.of_card rfl

theorem graphReplay_follows (g : GraphSession σ) (s : Session σ η γ) :
    (s.graphReplay hung lm env g).Follows n s := by
  unfold graphReplay
  extract_lets g'
  split
  · refine finish_follows hung ?_ _ _
    exact Left.of_card rfl
  · split <;> exact Left.of_card rfl

theorem graphStep_left (s : Session σ η γ) :
    Left n s (s.graphStep hung lm env).s (s.graphStep hung lm env).exit ∧
      (s.graphStep hung lm env).exit.bind Exit.request? = none := by
  unfold graphStep
  split
  · next pend g hp hg =>
    have h := advanceTokenEmit_left (n := n) hung lm env pend { s with graphPending := none }
    have hs : Left n s { s with graphPending := none } none := Left.of_card rfl
    split
    · next s' e he =>
      rw [he] at h
      exact ⟨hs.trans h.1, h.2⟩
    · next s' he =>
      rw [he] at h
      have hfed : Left n s { s' with fed := s'.fed ++ [pend] } none :=
        (hs.trans h.1).trans (Left.of_card rfl)
      simp only
      split
      · exact ⟨hfed.trans (sendError_ends hung _), rfl⟩
      · have hr := graphReplay_follows (n := n) hung lm env g { s' with fed := s'.fed ++ [pend] }
        exact ⟨hfed.trans (settle_left hung "" hr), settle_request hung "" hr⟩
  · exact ⟨Left.of_card rfl, rfl⟩

theorem graphTick_left (s : Session σ η γ) :
    Left n s (s.graphTick hung lm cfg env).s (s.graphTick hung lm cfg env).exit ∧
      (s.graphTick hung lm cfg env).exit.bind Exit.request? = none := by
  have h := promote_follows (n := n) lm cfg env s
  have hl := settle_left hung "" h
  have hr := settle_request hung "" h
  unfold graphTick
  split
  · next s' he =>
    rw [he] at hl
    have hstep := graphStep_left (n := n) hung lm env s'
    exact ⟨hl.trans hstep.1, hstep.2⟩
  · next s' e he =>
    rw [he] at hl hr
    exact ⟨hl, hr⟩

theorem degrade_follows (s : Session σ η γ) : (s.degrade hung lm env).Follows n s := by
  unfold degrade
  split
  · exact Left.of_card rfl
  · next g hg =>
    simp only
    split
    · exact Left.of_card rfl
    · next pend hp =>
      have h := advanceTokenEmit_left (n := n) hung lm env pend
        { s with graph := none, cache := some g.cache, graphPending := none }
      have hs : Left n s { s with graph := none, cache := some g.cache, graphPending := none } none :=
        Left.of_card rfl
      split
      · next s' e he =>
        rw [he] at h
        exact ⟨hs.trans h.1, h.2⟩
      · next s' he =>
        rw [he] at h
        exact follows_trans (hs.trans h.1) (decodeStep_follows lm env pend s')

theorem demote_follows (nLive : ℕ) (s : Session σ η γ) :
    (s.demote lm cfg env nLive).Follows n s := by
  unfold demote
  split
  · exact Left.of_card rfl
  · split
    · exact Left.of_card rfl
    · split
      · exact Left.of_card rfl
      · unfold handOver
        split <;> exact Left.of_card rfl

end Session

end Memra
