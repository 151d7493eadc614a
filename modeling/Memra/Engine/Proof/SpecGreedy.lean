import Memra.Engine.Proof.SpecSession

/-!
# Greedy speculative decoding is plain greedy decoding

Under the round loop's invariant the accept walk compares each draft with the trunk's own
prediction at its slot, so what a round emits is a segment of the greedy continuation
(`acceptGreedy_spec`, `greedy_round`), for every drafter. `greedy_burst` carries this through a
burst that may be cut at any round, `greedy_bursts` through any split into bursts, and
`greedy_single` through the single-shot call, whose last round may be cut by the budget. All they
ask of a round is that what it settles on is greedy (`SettlesGreedy`), along whatever outcomes are
looked at.
-/

namespace Memra

open Lib Lib.Prog

variable {σ η γ : Type} {E : SpecEngine σ η} {B : Burst} {start fed : List Tok}
  {st : RoundState σ η γ}

/-- The accept walk against the trunk's own predictions: the accepted drafts and the bonus are a
greedy segment. Induction on the drafts. -/
theorem acceptGreedy_spec (T : Trunk σ η) (pred : ℕ → Tok) (s : σ) (j : ℕ) (ds : List Tok)
    (h : ∀ i ≤ ds.length, pred (j + i) = T.pred (T.feed s (ds.take i))) :
    ds.take (acceptGreedy pred j ds) ++ [pred (j + acceptGreedy pred j ds)] =
      T.greedy s (acceptGreedy pred j ds + 1) := by
  induction ds generalizing j s with
  | nil =>
    have h0 := h 0 le_rfl
    simp only [acceptGreedy, List.take_nil, List.nil_append, Trunk.greedy]
    rw [h0]
    rfl
  | cons d ds ih =>
    have h0 : pred j = T.pred s := h 0 (Nat.zero_le _)
    unfold acceptGreedy
    split
    · rename_i hd
      have hrest : ∀ i ≤ ds.length, pred (j + 1 + i) = T.pred (T.feed (T.step s d) (ds.take i)) := by
        intro i hi
        have := h (i + 1) (by rw [List.length_cons]; omega)
        rwa [← Nat.add_assoc, Nat.add_right_comm, List.take_succ_cons, T.feed_cons] at this
      have := ih (T.step s d) (j + 1) hrest
      rw [List.take_succ_cons, List.cons_append, Trunk.greedy, ← h0, hd, ← this]
      congr 4
      omega
    · simp only [List.take_zero, List.nil_append, Trunk.greedy]
      rw [Nat.add_zero, h0]

theorem accept_greedy (hs : B.sampled = none) (rows : List Row) (ch : Chain γ) :
    accept E B st rows ch =
      Pure.pure (acceptGreedy (tPred st.base st.lastPred (rows.map argmax)) 0 ch.draft,
        tPred st.base st.lastPred (rows.map argmax)
          (acceptGreedy (tPred st.base st.lastPred (rows.map argmax)) 0 ch.draft),
        ch.sctr, st.uctr) := by
  unfold accept
  rw [hs]

/-- What a greedy walk settles on, under the invariant: a segment of the greedy continuation. -/
theorem RoundInv.settles_greedy (h : RoundInv E B start fed st) (draft : List Tok) :
    let rows := (E.T.cols st.cache.st (st.pending.toList ++ draft)).map E.T.row
    let n := acceptGreedy (Memra.tPred st.base st.lastPred (rows.map argmax)) 0 draft
    draft.take n ++ [Memra.tPred st.base st.lastPred (rows.map argmax) n] =
      E.T.greedy (E.T.after (start ++ st.out)) (n + 1) := by
  intro rows n
  have := acceptGreedy_spec E.T (Memra.tPred st.base st.lastPred (rows.map argmax))
    (E.T.after (start ++ st.out)) 0 draft fun i hi => by
      rw [Nat.zero_add, h.tPred draft hi, ← E.T.after_append]
  rwa [Nat.zero_add] at this

/-- What the budget leaves of a round's tokens. -/
theorem emit_eq (sessionMode : Bool) (out draft : List Tok) (bonus : Tok)
    (h : out.length < B.maxNew) :
    emit B sessionMode out draft bonus =
      if sessionMode then out ++ draft ++ [bonus]
      else (out ++ draft ++ [bonus]).take B.maxNew := by
  unfold emit
  split
  · rfl
  · simp only
    by_cases hd : out.length + draft.length < B.maxNew
    · have htake : draft.take (B.maxNew - out.length) = draft :=
        List.take_of_length_le (by omega)
      rw [htake, if_pos (by rw [List.length_append]; exact hd),
        List.take_of_length_le (by simp only [List.length_append, List.length_singleton]; omega)]
    · have hlen : (out ++ draft.take (B.maxNew - out.length)).length = B.maxNew := by
        rw [List.length_append, List.length_take]; omega
      rw [if_neg (by omega), List.append_assoc, List.take_append, List.take_append,
        List.take_of_length_le (Nat.le_of_lt h)]
      have h0 : B.maxNew - out.length - draft.length = 0 := by omega
      rw [h0, List.take_zero, List.append_nil]

/-- The invariant of a greedy burst: what is out is greedy, and the loop can go on. -/
structure GreedyInv (E : SpecEngine σ η) (B : Burst) (sessionMode : Bool) (start : List Tok)
    (st : RoundState σ η γ) : Prop where
  greedy : st.out = E.T.greedy (E.T.after start) st.out.length
  inv : (sessionMode = true ∨ st.out.length < B.maxNew) → ∃ fed, RoundInv E B start fed st
  gram : st.gram = none
  keep : (∀ cs, B.onCommit cs = true) → st.keepGoing = true
  begun : B.sampled.isSome → st.out ≠ []

/-- What a burst from `start` settles on is a segment of the greedy continuation. -/
def SettlesGreedy (V : Via) (γ : Type) (E : SpecEngine σ η) (B : Burst) (start : List Tok) : Prop :=
  ∀ (st : RoundState σ η γ) (fed : List Tok), RoundInv E B start fed st →
    st.out = E.T.greedy (E.T.after start) st.out.length → st.out.length < B.maxNew →
    (B.sampled.isSome → st.out ≠ []) → ∀ ch : Chain γ, ch.gram = none →
    Along V (Ends (fun _ => False) fun a => a.gram = none ∧ a.nAcc ≤ ch.draft.length ∧
      ch.draft.take a.nAcc ++ [a.bonus] = E.T.greedy (E.T.after (start ++ st.out)) (a.nAcc + 1))
      (settle E B st ((E.T.cols st.cache.st (st.pending.toList ++ ch.draft)).map E.T.row) ch)

/-- A greedy burst does, for every drafter. -/
theorem settlesGreedy_of_greedy {V : Via} (hs : B.sampled = none) (start : List Tok) :
    SettlesGreedy V γ E B start := by
  intro st fed hinv _ _ _ ch hch
  unfold settle
  rw [accept_greedy hs, pure_bind', hch]
  exact ⟨rfl, acceptGreedy_le _ _ _, hinv.settles_greedy ch.draft⟩

/-- **A greedy round emits a greedy segment**, for every drafter. -/
theorem greedy_round {V : Via} (hset : SettlesGreedy V γ E B start) {sessionMode graphS : Bool}
    (h : GreedyInv E B sessionMode start st) (hlen : st.out.length < B.maxNew) :
    Along V (Ends (fun _ => False) fun st' => GreedyInv E B sessionMode start st' ∧
      st.out.length < st'.out.length) (round E B sessionMode graphS st) := by
  obtain ⟨fed, hinv⟩ := h.inv (.inr hlen)
  refine round_along fun ch hch => ?_
  have hg : ch.gram = none := by
    rw [h.gram, Option.map_none, Option.map_eq_none_iff] at hch
    exact hch
  refine (hset st fed hinv h.greedy hlen h.begun ch hg).mono fun r hr => ?_
  cases r with
  | error e => exact hr.elim
  | ok a =>
    obtain ⟨hgram, hn, hseg⟩ := hr
    have hall : st.out ++ ch.draft.take a.nAcc ++ [a.bonus] =
        E.T.greedy (E.T.after start) (st.out.length + (a.nAcc + 1)) := by
      rw [E.T.greedy_add, ← h.greedy, ← E.T.after_append, ← hseg, List.append_assoc]
    have hout := emit_eq (B := B) sessionMode st.out (ch.draft.take a.nAcc) a.bonus hlen
    rw [hall] at hout
    refine ⟨⟨?_, fun hgo => ?_, hgram, fun hk => hk _, fun hs => ?_⟩, ?_⟩
    · rw [finishRound_out, hout]
      split
      · rw [E.T.greedy_length]
      · rw [List.length_take, E.T.greedy_length, E.T.greedy_take]
    · refine hinv.finish hn (fun hs' => by rw [hgram] at hs'; cases hs') ?_
      rw [finishRound_out] at hgo
      rw [hout] at hgo ⊢
      rw [hall]
      split
      · rfl
      · rename_i hmode
        have hlt := hgo.resolve_left (by simpa using hmode)
        rw [if_neg hmode, List.length_take, E.T.greedy_length] at hlt
        exact List.take_of_length_le (by rw [E.T.greedy_length]; omega)
    · rw [finishRound_out, emit]
      split
      · simp
      · simp only
        split <;> simp [h.begun hs]
    · rw [finishRound_out, hout]
      split
      · rw [E.T.greedy_length]; omega
      · rw [List.length_take, E.T.greedy_length]; omega

/-! ## Bursts -/

/-- A session that an empty-suffix burst accepts. -/
structure Resumable (T : Trunk σ η) (s : SpecSession σ η) (fed : List Tok) : Prop where
  rows : Rows T s fed
  committed : s.committed ≠ []
  lastH : s.lastH.isSome
  next : s.nextPred.isSome ∨ s.pendingTok.isSome

variable {s : SpecSession σ η}

/-- A greedy burst opens without refusal, and has emitted the first greedy token or carries it. -/
theorem openBurst_greedy (h : Rows E.T s fed) (hready : B.suffix = [] → Resumable E.T s fed)
    (hcarry : s.pendingTok.isSome → B.suffix = [] ∧ B.sampled = none) :
    ∃ st : RoundState σ η γ, openBurst E B s none = .ok st ∧
      GreedyInv E B true (fed ++ B.suffix ++ s.pendingTok.toList) st := by
  have hopen : ∃ st : RoundState σ η γ, openBurst E B s none = .ok st := by
    unfold openBurst
    rw [if_neg (by simp), if_neg, if_neg (by simp)]
    · simp only
      split <;> exact ⟨_, rfl⟩
    · rintro ⟨hsuf, hn⟩
      obtain ⟨-, hc, hl, hx⟩ := hready hsuf
      exact hn ⟨hc, hl, hx⟩
  obtain ⟨st, hst⟩ := hopen
  obtain ⟨hinv, hnil⟩ := openBurst_inv h hcarry hst
  refine ⟨st, hst, ⟨?_, fun _ => hinv, ?_, fun hk => ?_, fun hs ho => ?_⟩⟩
  · obtain ⟨-, -, ⟨hp, rfl⟩ | ⟨hp, gram', -, rfl⟩⟩ := openBurst_ok hst
    · rfl
    · -- the first token is the prediction at the end of what was fed
      have htok : firstTok (γ := γ) E B s none = E.T.pred (E.T.after (fed ++ B.suffix)) := by
        unfold firstTok
        split
        · rename_i hsuf
          obtain ⟨t, ht⟩ := Option.isSome_iff_exists.1
            ((hready hsuf).next.resolve_right (by simp [hp]))
          rw [ht, Option.getD_some, h.pred t ht, hsuf, List.append_nil]
        · simp only
          rw [(h.holds.feed E.T B.suffix).1]
          rfl
      rw [hp, Option.toList_none, List.append_nil]
      change [firstTok (γ := γ) E B s none] = [E.T.pred (E.T.after (fed ++ B.suffix))]
      rw [htok]
  · obtain ⟨-, -, ⟨-, rfl⟩ | ⟨-, gram', hg, rfl⟩⟩ := openBurst_ok hst
    · rfl
    · change gram' = none
      cases gram' with
      | none => rfl
      | some g => exact absurd (hg rfl) (by simp)
  · obtain ⟨-, -, ⟨-, rfl⟩ | ⟨-, gram', -, rfl⟩⟩ := openBurst_ok hst <;> exact hk _
  · rw [(hcarry (hnil ho).1).2] at hs
    cases hs

/-- The end of a greedy round loop. -/
theorem roundLoop_greedy {V : Via} (hset : SettlesGreedy V γ E B start)
    {sessionMode graphS : Bool} (h : GreedyInv E B sessionMode start st) :
    Along V (Ends (fun _ => False) fun st' => GreedyInv E B sessionMode start st' ∧
        st.out.length ≤ st'.out.length ∧
        ((∀ cs, B.onCommit cs = true) → B.maxNew ≤ st'.out.length))
      (roundLoop E B sessionMode graphS B.maxNew st) := by
  have hloop := roundLoop_along (E := E) (fun _ => False)
    (fun st' => GreedyInv E B sessionMode start st' ∧ st.out.length ≤ st'.out.length)
    sessionMode graphS
    (fun st₁ hst₁ _ hlt => (greedy_round hset hst₁.1 hlt).mono fun r hr => hr.mono fun st' hst' =>
      ⟨⟨hst'.1, le_trans hst₁.2 (Nat.le_of_lt hst'.2)⟩, hst'.2⟩)
    B.maxNew st ⟨h, le_rfl⟩ (Nat.le_add_right _ _)
  refine hloop.mono fun r hr => hr.mono fun st' hst' => ⟨hst'.1.1, hst'.1.2, fun hk => ?_⟩
  exact not_lt.1 fun hlt => hst'.2 ⟨hst'.1.1.keep hk, hlt⟩

/-- What a greedy burst returns from a session that has fed `fed` and emitted what is pending. -/
structure GreedyOut (E : SpecEngine σ η) (B : Burst) (done : List Tok) (r : BurstOut σ η γ) :
    Prop where
  greedy : r.out = E.T.greedy (E.T.after done) r.out.length
  slices : r.calls.flatten = r.out
  length : (∀ cs, B.onCommit cs = true) → B.maxNew ≤ r.out.length
  gram : r.gram = none
  ready : ∃ fed, Resumable E.T r.sess fed ∧ fed ++ r.sess.pendingTok.toList = done ++ r.out

theorem generateSpecInner_greedy {V : Via} (h : Rows E.T s fed)
    (hready : B.suffix = [] → Resumable E.T s fed)
    (hcarry : s.pendingTok.isSome → B.suffix = [] ∧ B.sampled = none)
    (hset : SettlesGreedy V γ E B (fed ++ B.suffix ++ s.pendingTok.toList)) :
    Along V (Ends (fun _ => False)
      (GreedyOut (γ := γ) E B (fed ++ B.suffix ++ s.pendingTok.toList)))
      (generateSpecInner E B true s none) := by
  obtain ⟨st, hopen, hinv⟩ := openBurst_greedy (γ := γ) h hready hcarry
  unfold generateSpecInner
  rw [hopen]
  refine (roundLoop_greedy hset hinv).andThen fun st' hst' => ?_
  obtain ⟨hinv', hlen, hmax⟩ := hst'
  obtain ⟨fed₁, hr⟩ := hinv'.inv (.inl rfl)
  have hr' : RoundInv E B (fed ++ B.suffix ++ s.pendingTok.toList) fed₁ (flushCommit B st') :=
    ⟨hr.holds, hr.seq, hr.fill, hr.pred, hr.col, hr.init, hr.replay,
      by simp [flushCommit, hr.flushed, hr.slices], rfl⟩
  obtain ⟨fed₂, hrows, hseq, -, hpred, hlast⟩ := closeBurst_rows (s := s) hr'
  obtain ⟨ys, hys⟩ := closeBurst_committed (E := E) (B := B) (s := s) (flushCommit B st')
  refine ⟨hinv'.greedy, ?_, hmax, hinv'.gram, fed₂, ⟨hrows, ?_, ?_, ?_⟩, hseq⟩
  · simp [flushCommit, hr.flushed, hr.slices]
  · change (closeBurst E B s (flushCommit B st')).committed ≠ []
    rw [hys]
    by_cases hsuf : B.suffix = []
    · simp [(hready hsuf).committed]
    · simp [hsuf]
  · change (closeBurst E B s (flushCommit B st')).lastH.isSome
    rw [hlast]
    rfl
  · change (closeBurst E B s (flushCommit B st')).nextPred.isSome ∨
      (closeBurst E B s (flushCommit B st')).pendingTok.isSome
    cases hp : (closeBurst E B s (flushCommit B st')).pendingTok with
    | none => exact .inl (by rw [hpred hp]; rfl)
    | some b => exact .inr rfl

theorem Resumable.flush (h : Resumable E.T s fed) :
    Resumable E.T (specFlushPending E.T s) (fed ++ s.pendingTok.toList) := by
  refine ⟨(specFlushPending_rows h.rows).1, ?_, ?_, ?_⟩
  · rw [(specFlushPending_rows h.rows).2.2.1]
    simp [h.committed]
  · unfold specFlushPending
    split
    · exact h.lastH
    · rfl
  · unfold specFlushPending
    split
    · exact h.next
    · exact .inl rfl

/-- **A greedy burst emits the greedy continuation** of everything fed and emitted before it. -/
theorem greedy_burst {V : Via} (h : Rows E.T s fed) (hready : B.suffix = [] → Resumable E.T s fed)
    (hset : SettlesGreedy V γ E B (fed ++ s.pendingTok.toList ++ B.suffix)) :
    Along V (Ends (fun _ => False)
      (GreedyOut (γ := γ) E B (fed ++ s.pendingTok.toList ++ B.suffix)))
      (generateSpecSession E B s none) := by
  unfold generateSpecSession
  rw [if_neg (by simp)]
  simp only
  split
  · rename_i hflush
    obtain ⟨hrows, hnone, -⟩ := specFlushPending_rows h
    have hready' : B.suffix = [] →
        Resumable E.T (specFlushPending E.T s) (fed ++ s.pendingTok.toList) :=
      fun hsuf => (hready hsuf).flush
    have := generateSpecInner_greedy (γ := γ) (V := V) (B := B) hrows hready'
      (fun hp => by rw [hnone] at hp; cases hp)
    rw [hnone, Option.toList_none, List.append_nil] at this
    exact this hset
  · rename_i hride
    have hcarry : s.pendingTok.isSome → B.suffix = [] ∧ B.sampled = none := by
      intro hp
      rw [not_and, not_or] at hride
      obtain ⟨h1, h2⟩ := hride hp
      exact ⟨Decidable.not_not.1 h1, Option.not_isSome_iff_eq_none.1 h2⟩
    have hcomm : fed ++ B.suffix ++ s.pendingTok.toList = fed ++ s.pendingTok.toList ++ B.suffix := by
      cases hp : s.pendingTok with
      | none => simp
      | some b => rw [(hcarry (by rw [hp]; rfl)).1]; simp
    have := generateSpecInner_greedy (γ := γ) (V := V) h hready hcarry
    rw [hcomm] at this
    exact this hset

/-! ## Sequences of bursts -/

/-- The bursts of one generation: their tokens in order are the greedy continuation of `done`. -/
structure GreedyRun (E : SpecEngine σ η) (done : List Tok) (Bs : List Burst)
    (rs : List (BurstOut σ η γ)) : Prop where
  greedy : outputs rs = E.T.greedy (E.T.after done) (outputs rs).length
  each : List.Forall₂ (fun B r => r.calls.flatten = r.out ∧
    ((∀ cs, B.onCommit cs = true) → B.maxNew ≤ r.out.length)) Bs rs

theorem GreedyRun.cons {done : List Tok} {Bs : List Burst} {r : BurstOut σ η γ}
    {rs : List (BurstOut σ η γ)} (hr : GreedyOut E B done r)
    (hrs : GreedyRun E (done ++ r.out) Bs rs) : GreedyRun E done (B :: Bs) (r :: rs) := by
  refine ⟨?_, .cons ⟨hr.slices, hr.length⟩ hrs.each⟩
  rw [outputs_cons, List.length_append, E.T.greedy_add, ← hr.greedy, ← E.T.after_append, ← hrs.greedy]

/-- Continuation bursts, from a session that is ready. -/
theorem greedy_continuations {V : Via} (Bs : List Burst) {done : List Tok}
    (hBs : ∀ B ∈ Bs, B.suffix = [] ∧
      ∀ n, SettlesGreedy V γ E B (done ++ E.T.greedy (E.T.after done) n))
    {s : SpecSession σ η} (h : Resumable E.T s fed) (hseq : fed ++ s.pendingTok.toList = done) :
    Along V (Ends (fun _ => False) (GreedyRun (γ := γ) E done Bs)) (runBursts E Bs s none) := by
  induction Bs generalizing s fed done with
  | nil => exact ⟨rfl, .nil⟩
  | cons B Bs ih =>
    obtain ⟨hsuf, hset⟩ := hBs B List.mem_cons_self
    unfold runBursts
    have hset0 := hset 0
    rw [Trunk.greedy, List.append_nil, ← hseq] at hset0
    have hburst := greedy_burst (γ := γ) (V := V) (B := B) h.rows fun _ => h
    rw [hsuf, List.append_nil] at hburst
    refine (hburst hset0).andThen fun r hr => ?_
    rw [hseq] at hr
    obtain ⟨fed', hready, hseq'⟩ := hr.ready
    have hrest := ih (fun B' hB' => ⟨(hBs B' (List.mem_cons_of_mem _ hB')).1, fun n => by
      have := (hBs B' (List.mem_cons_of_mem _ hB')).2 (r.out.length + n)
      rwa [E.T.greedy_add, ← hr.greedy, ← E.T.after_append, ← List.append_assoc] at this⟩)
      hready hseq'
    rw [hr.gram]
    exact hrest.andThen fun rs hrs => GreedyRun.cons hr hrs

/-- A generation cut into bursts. -/
theorem greedy_bursts {V : Via} (cold : Burst) (hprompt : cold.suffix ≠ [])
    (hcold : SettlesGreedy V γ E cold cold.suffix) (Bs : List Burst)
    (hBs : ∀ B ∈ Bs, B.suffix = [] ∧
      ∀ n, SettlesGreedy V γ E B (cold.suffix ++ E.T.greedy (E.T.after cold.suffix) n)) :
    Along V (Ends (fun _ => False) (GreedyRun (γ := γ) E cold.suffix (cold :: Bs)))
      (runBursts E (cold :: Bs) (newSession E.T) none) := by
  unfold runBursts
  have hfirst := greedy_burst (γ := γ) (V := V) (B := cold) (newSession_rows E.T)
    (fun hn => absurd hn hprompt) hcold
  refine hfirst.andThen fun r hr => ?_
  have hr : GreedyOut E cold cold.suffix r := hr
  obtain ⟨fed', hready, hseq⟩ := hr.ready
  have hrest := greedy_continuations (γ := γ) (V := V) Bs (fun B hB => ⟨(hBs B hB).1, fun n => by
    have := (hBs B hB).2 (r.out.length + n)
    rwa [E.T.greedy_add, ← hr.greedy, ← E.T.after_append, ← List.append_assoc] at this⟩)
    hready hseq
  rw [hr.gram]
  exact hrest.andThen fun rs hrs => GreedyRun.cons hr hrs

/-- The single-shot call: exactly the first `max_new` greedy tokens. -/
theorem greedy_single (hprompt : B.suffix ≠ []) (hs : B.sampled = none)
    (hkeep : ∀ cs, B.onCommit cs = true) :
    Always (Ends (fun _ => False) fun out => out = E.T.greedy (E.T.after B.suffix) B.maxNew)
      (generateSpec E B) := by
  have hrows := newSession_rows E.T
  obtain ⟨st, hopen, hinv⟩ := openBurst_greedy (γ := Unit) (B := B) hrows
    (fun hn => absurd hn hprompt) (fun hp => by cases hp)
  have hnew : (newSession E.T).pendingTok = none := rfl
  rw [List.nil_append, hnew, Option.toList_none, List.append_nil] at hinv
  have hinv : GreedyInv E B false B.suffix st :=
    ⟨hinv.greedy, fun _ => hinv.inv (.inl rfl), hinv.gram, hinv.keep, hinv.begun⟩
  unfold generateSpec generateSpecInner
  rw [hopen]
  have hset : SettlesGreedy .any Unit E B B.suffix := settlesGreedy_of_greedy hs _
  refine ((roundLoop_greedy hset hinv).andThen fun st' hst' => ?_ : Always (Ends (fun _ => False)
    fun r : BurstOut σ η Unit => r.out = E.T.greedy (E.T.after B.suffix) r.out.length ∧
      B.maxNew ≤ r.out.length) _).andThen fun r hr => ?_
  · exact ⟨hst'.1.greedy, hst'.2.2 hkeep⟩
  · change r.out.take B.maxNew = _
    rw [hr.1, E.T.greedy_take, Nat.min_eq_left hr.2]

/-- **Greedy speculative decoding equals plain greedy decoding**: for every drafter, depth and
split into bursts with any verdicts, the tokens of the bursts in order are the greedy continuation
of the prompt; each burst's slices concatenate to its tokens, and unless a verdict ends it a burst
reaches its budget. The single-shot call returns exactly the first `max_new` greedy tokens. -/
theorem spec_eq_greedy (E : SpecEngine σ η) (rng : Rng) (cold : Burst) (Bs : List Burst)
    (hprompt : cold.suffix ≠ []) (hcold : cold.sampled = none)
    (hBs : ∀ B ∈ Bs, B.suffix = [] ∧ B.sampled = none) :
    (∃ rs : List (BurstOut σ η γ),
      (runBursts E (cold :: Bs) (newSession E.T) none).run rng = .ok rs ∧
      GreedyRun E cold.suffix (cold :: Bs) rs) ∧
    (generateSpec E { cold with onCommit := fun _ => true }).run rng =
      .ok (E.T.greedy (E.T.after cold.suffix) cold.maxNew) := by
  constructor
  · have hall : Always _ (runBursts E (cold :: Bs) (newSession E.T) none) :=
      greedy_bursts (γ := γ) cold hprompt (settlesGreedy_of_greedy hcold _) Bs
        fun B hB => ⟨(hBs B hB).1, fun n => settlesGreedy_of_greedy (hBs B hB).2 _⟩
    have := hall.run rng
    cases hr : (runBursts E (cold :: Bs) (newSession E.T) none).run rng with
    | error e => rw [hr] at this; exact this.elim
    | ok rs => rw [hr] at this; exact ⟨rs, rfl, this⟩
  · have hall := greedy_single (E := E) (B := { cold with onCommit := fun _ => true }) hprompt hcold
      fun _ => rfl
    have := Always.run hall rng
    cases hr : (generateSpec E { cold with onCommit := fun _ => true }).run rng with
    | error e => rw [hr] at this; exact this.elim
    | ok out => rw [hr] at this; rw [this]

theorem spec_eq_greedy_demo :
    (∃ rs : List (BurstOut (List Tok) (List Tok) Unit),
      (runBursts listEngine [demoBurst [0] 1 true, demoBurst [] 2 true] (newSession listEngine.T)
        none).run zeroRng = .ok rs ∧
      GreedyRun listEngine [0] [demoBurst [0] 1 true, demoBurst [] 2 true] rs) ∧
    (generateSpec listEngine { demoBurst [0] 1 true with onCommit := fun _ => true }).run zeroRng =
      .ok (listEngine.T.greedy (listEngine.T.after [0]) 1) :=
  spec_eq_greedy listEngine zeroRng (demoBurst [0] 1 true) [demoBurst [] 2 true] (by decide) rfl
    fun B hB => by
      obtain rfl := List.mem_singleton.1 hB
      exact ⟨rfl, rfl⟩

end Memra
