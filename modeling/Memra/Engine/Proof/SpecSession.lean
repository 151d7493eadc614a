import Memra.Engine.SpecHistory
import Memra.Engine.Proof.SpecRound

/-!
# The session invariant

`Rows T s fed`: the session's cache holds exactly `fed`, and what it keeps for the next burst are
the prediction and the hidden row of that state. A burst turns `Rows` into the round loop's
`RoundInv` (`openBurst_inv`) and back (`closeBurst_rows`). `SessionInv` adds that `fed` is the
session's own `committed` and accounts for every token of a history; `reachable_sessionInv` proves
it along every history in which a carried bonus always reaches a round.
-/

namespace Memra

open Lib Lib.Prog

variable {σ η γ : Type} {E : SpecEngine σ η} {B : Burst} {s : SpecSession σ η}

/-- The session's cache holds exactly `fed`, and its side values belong to that state. -/
structure Rows (T : Trunk σ η) (s : SpecSession σ η) (fed : List Tok) : Prop where
  holds : s.cache.Holds T fed
  pred : ∀ t, s.nextPred = some t → t = T.pred (T.after fed)
  carry : s.pendingTok.isSome → s.nextPred = none
  lastH : ∀ h, s.lastH = some h → h = T.hidden (T.after fed)

/-- A fresh session. -/
theorem newSession_rows (T : Trunk σ η) : Rows T (newSession T) [] :=
  ⟨⟨rfl, rfl⟩, (fun t ht => by cases ht), (fun hp => by cases hp), fun x hx => by cases hx⟩

/-! ## Entering and leaving the round loop -/

theorem startRounds_inv {start fed out : List Tok} {gram : Option (SpecGrammar γ)}
    {cache : Cache σ} {h : η} (holds : cache.Holds E.T fed)
    (seq : fed ++ s.pendingTok.toList = start ++ out) (fill : h = E.T.hidden (E.T.after fed))
    (replay : gram.isSome → E.specReplay = false) :
    RoundInv E B start fed (startRounds E B s out gram cache h) := by
  refine ⟨holds, seq, fill, fun hp => ?_, fun hp hs => ?_, fun hp hg => ?_, replay, ?_, rfl⟩
  · have hp : s.pendingTok = none := hp
    change (if s.pendingTok = none then E.T.pred cache.st else 0) = _
    rw [if_pos hp, holds.1]
  · have hp : s.pendingTok = none := hp
    change (if s.pendingTok = none ∧ B.sampled.isSome then some (E.T.row cache.st) else none) = _
    rw [if_pos ⟨hp, hs⟩, holds.1]
  · have hp : s.pendingTok = none := hp
    change (if s.pendingTok = none ∧ gram.isSome then some (E.T.row cache.st) else none) = _
    rw [if_pos ⟨hp, hg⟩, holds.1]
  · simp [startRounds, flushCommit]

theorem kCap_pos : 1 ≤ kCap E B := le_max_right _ _

/-- What `openBurst` returns, when it returns. -/
theorem openBurst_ok {gram : Option (SpecGrammar γ)} {st : RoundState σ η γ}
    (hopen : openBurst E B s gram = .ok st) :
    (gram.isSome → E.specReplay = false) ∧
    (B.suffix = [] → s.committed ≠ [] ∧ s.lastH.isSome ∧
      (s.nextPred.isSome ∨ s.pendingTok.isSome)) ∧
    ((s.pendingTok.isSome ∧ st = startRounds E B s [] gram (s.cache.feed E.T B.suffix)
        (s.lastH.getD (E.T.hidden (s.cache.feed E.T B.suffix).st))) ∨
      (s.pendingTok = none ∧ ∃ gram', (gram'.isSome → gram.isSome) ∧
        st = startRounds E B s [firstTok E B s gram] gram'
          ((s.cache.feed E.T B.suffix).feed E.T [firstTok E B s gram])
          (E.T.hidden ((s.cache.feed E.T B.suffix).feed E.T [firstTok E B s gram]).st))) := by
  unfold openBurst at hopen
  split at hopen
  · cases hopen
  · rename_i hreplay
    split at hopen
    · cases hopen
    · rename_i hprimed
      split at hopen
      · cases hopen
      · refine ⟨fun hg => by simpa [hg] using hreplay,
          fun hs => Decidable.not_not.1 fun hn => hprimed ⟨hs, hn⟩, ?_⟩
        simp only at hopen
        split at hopen
        · rename_i b hb
          exact .inl ⟨by simp [hb], (Except.ok.inj hopen).symm⟩
        · rename_i hb
          refine .inr ⟨hb, ?_⟩
          split at hopen
          · exact ⟨none, fun h => h, (Except.ok.inj hopen).symm⟩
          · split at hopen
            · cases hopen
            · rename_i g' hg'
              exact ⟨some g', fun _ => rfl, (Except.ok.inj hopen).symm⟩

/-- A burst enters the loop with the invariant. A carried bonus must come with no suffix and no
sampling, as `generate_spec_session_constrained` arranges. -/
theorem openBurst_inv {fed : List Tok} {gram : Option (SpecGrammar γ)} {st : RoundState σ η γ}
    (h : Rows E.T s fed) (hcarry : s.pendingTok.isSome → B.suffix = [] ∧ B.sampled = none)
    (hopen : openBurst E B s gram = .ok st) :
    (∃ fed', RoundInv E B (fed ++ B.suffix ++ s.pendingTok.toList) fed' st) ∧
    (st.out = [] → s.pendingTok.isSome ∧ st.keepGoing = B.onCommit [[]]) := by
  obtain ⟨hreplay, hprimed, hst⟩ := openBurst_ok hopen
  have hfeed := h.holds.feed E.T B.suffix
  rcases hst with ⟨hp, rfl⟩ | ⟨hp, gram', hg, rfl⟩
  · obtain ⟨hsuf, hsam⟩ := hcarry hp
    rw [hsuf, List.append_nil] at hfeed
    rw [hsuf]
    refine ⟨⟨fed, startRounds_inv hfeed ?_ ?_ hreplay⟩, fun _ => ⟨hp, rfl⟩⟩
    · simp
    · obtain ⟨hl, hlast⟩ := Option.isSome_iff_exists.1 (hprimed hsuf).2.1
      rw [hlast, Option.getD_some, h.lastH hl hlast]
  · have hfed := hfeed.feed E.T [firstTok E B s gram]
    rw [hp]
    refine ⟨⟨_, startRounds_inv hfed ?_ ?_ fun hs => hreplay (hg hs)⟩, ?_⟩
    · simp [hp]
    · rw [hfed.1]
    · intro hout
      simp [startRounds, flushCommit] at hout

/-- The tail: the cache again holds exactly what the session will resume from, and `committed` has
grown by everything but a bonus that stays pending. -/
theorem closeBurst_rows {start fed : List Tok} {st : RoundState σ η γ}
    (h : RoundInv E B start fed st) :
    ∃ fed', Rows E.T (closeBurst E B s st) fed' ∧
      fed' ++ (closeBurst E B s st).pendingTok.toList = start ++ st.out ∧
      (st.out ≠ [] → start = s.committed ++ B.suffix ++ s.pendingTok.toList →
        (closeBurst E B s st).committed = fed') ∧
      ((closeBurst E B s st).pendingTok = none →
        (closeBurst E B s st).nextPred = some (E.T.pred (E.T.after fed'))) ∧
      (closeBurst E B s st).lastH = some (E.T.hidden (E.T.after fed')) := by
  unfold closeBurst
  cases hp : st.pending with
  | none =>
    have hseq : fed = start ++ st.out := by
      have := h.seq
      rwa [hp, Option.toList_none, List.append_nil] at this
    refine ⟨fed, ⟨h.holds, ?_, ?_, ?_⟩, ?_, ?_, ?_, ?_⟩
    · rintro t ⟨⟩
      exact h.pred hp
    · intro hs; cases hs
    · rintro x ⟨⟩
      exact h.fill
    · simpa using hseq
    · rintro - rfl
      exact hseq.symm
    · intro _
      simp only [h.pred hp]
    · simp only [h.fill]
  | some b =>
    have hseq : fed ++ [b] = start ++ st.out := by
      have := h.seq
      rwa [hp, Option.toList_some] at this
    cases hs : B.sampled with
    | none =>
      have hfed : st.out ≠ [] → fed = start ++ st.out.take (st.out.length - 1) := fun hout => by
        rw [← List.dropLast_eq_take, ← List.dropLast_append_of_ne_nil hout, ← hseq]
        simp
      refine ⟨fed, ⟨h.holds, ?_, fun _ => rfl, ?_⟩, hseq, ?_, ?_, ?_⟩
      · intro t ht; cases ht
      · rintro x ⟨⟩
        exact h.fill
      · rintro hout rfl
        exact (hfed hout).symm
      · intro hn; cases hn
      · simp only [h.fill]
    | some sp =>
      have hfeed := h.holds.feed E.T [b]
      refine ⟨fed ++ [b], ⟨hfeed, ?_, ?_, ?_⟩, ?_, ?_, ?_, ?_⟩
      · rintro t ⟨⟩
        rw [hfeed.1]
      · intro hn; cases hn
      · rintro x ⟨⟩
        rw [hfeed.1]
      · simpa using hseq
      · rintro - rfl
        exact hseq.symm
      · intro _
        simp only [hfeed.1]
      · simp only [hfeed.1]

/-! ## A burst -/

/-- A carried bonus does not reach a round: no budget, or a first verdict against it. -/
def Burst.Idle (B : Burst) : Prop := B.maxNew = 0 ∨ B.onCommit [[]] = false

/-- How a burst ran: the round loop's last state, from which the session was left. -/
structure BurstRun (E : SpecEngine σ η) (B : Burst) (s : SpecSession σ η) (fed : List Tok)
    (r : BurstOut σ η γ) (st : RoundState σ η γ) : Prop where
  inv : ∃ fed', RoundInv E B (fed ++ B.suffix ++ s.pendingTok.toList) fed' st
  sess : r.sess = closeBurst E B s st
  out : r.out = st.out
  slices : r.calls.flatten = r.out
  idle : r.out = [] → s.pendingTok.isSome ∧ B.Idle
  primed : B.suffix = [] → s.committed ≠ []

theorem generateSpecInner_run {fed : List Tok} {gram : Option (SpecGrammar γ)}
    (h : Rows E.T s fed) (hcarry : s.pendingTok.isSome → B.suffix = [] ∧ B.sampled = none) :
    Always (Ends (fun _ => True) fun r => ∃ st, BurstRun E B s fed r st)
      (generateSpecInner E B true s gram) := by
  unfold generateSpecInner
  split
  · trivial
  · rename_i st hopen
    obtain ⟨hinv, hout⟩ := openBurst_inv h hcarry hopen
    let Inv : RoundState σ η γ → Prop := fun st =>
      (∃ fed', RoundInv E B (fed ++ B.suffix ++ s.pendingTok.toList) fed' st) ∧
        (st.out = [] → s.pendingTok.isSome ∧ st.keepGoing = B.onCommit [[]])
    have hloop := roundLoop_along (fun _ => True) Inv true (sampledGraph E B s).graphS.isSome
      (fun st hst _ _ => by
        obtain ⟨fed', hf⟩ := hst.1
        refine (round_inv hf _).mono fun r hr => hr.mono fun st' hst' => ⟨⟨hst'.1, ?_⟩, hst'.2⟩
        intro hnil
        have := hst'.2
        rw [hnil] at this
        exact absurd this (Nat.not_lt_zero _))
      B.maxNew st ⟨hinv, hout⟩ (Nat.le_add_right _ _)
    refine hloop.andThen fun st' hst' => ?_
    obtain ⟨⟨⟨fed', hf⟩, hnil⟩, hstop⟩ := hst'
    refine ⟨flushCommit B st', ⟨fed', ?_⟩, rfl, rfl, ?_, fun ho => ?_,
      fun hs => ((openBurst_ok hopen).2.1 hs).1⟩
    · exact ⟨hf.holds, hf.seq, hf.fill, hf.pred, hf.col, hf.init, hf.replay,
        by simp [flushCommit, hf.flushed, hf.slices], rfl⟩
    · simp [flushCommit, hf.flushed, hf.slices]
    · obtain ⟨hp, hkeep⟩ := hnil ho
      refine ⟨hp, ?_⟩
      have ho : st'.out = [] := ho
      rw [ho, hkeep, List.length_nil, not_and, not_lt, Nat.le_zero] at hstop
      cases hv : B.onCommit [[]] with
      | false => exact .inr hv
      | true => exact .inl (hstop hv)

/-! ## Flush and rewind -/

theorem specFlushPending_rows {fed : List Tok} (h : Rows E.T s fed) :
    Rows E.T (specFlushPending E.T s) (fed ++ s.pendingTok.toList) ∧
      (specFlushPending E.T s).pendingTok = none ∧
      (specFlushPending E.T s).committed = s.committed ++ s.pendingTok.toList ∧
      (specFlushPending E.T s).turnCkpt = s.turnCkpt := by
  unfold specFlushPending
  cases hp : s.pendingTok with
  | none =>
    exact ⟨by simpa using h, hp, by simp, rfl⟩
  | some b =>
    have hfeed := h.holds.feed E.T [b]
    refine ⟨⟨hfeed, ?_, ?_, ?_⟩, rfl, rfl, rfl⟩
    · rintro t ⟨⟩
      simp only [hfeed.1]
      rfl
    · intro hn; cases hn
    · rintro x ⟨⟩
      simp only [hfeed.1]
      rfl

/-- The session a burst call works on: a carried bonus that cannot ride is flushed first. -/
theorem generateSpecSession_run {fed : List Tok} {gram : Option (SpecGrammar γ)}
    (h : Rows E.T s fed) :
    Always (Ends (fun _ => True) fun r => ∃ s' fed' st,
        BurstRun E B s' fed' r st ∧ Rows E.T s' fed' ∧
        (s' = s ∧ fed' = fed ∧ (s.pendingTok.isSome → B.suffix = [] ∧ B.sampled = none) ∨
          s' = specFlushPending E.T s ∧ fed' = fed ++ s.pendingTok.toList ∧
            s.pendingTok.isSome))
      (generateSpecSession E B s gram) := by
  unfold generateSpecSession
  split
  · trivial
  · simp only
    split
    · rename_i hflush
      obtain ⟨hrows, hnone, -⟩ := specFlushPending_rows h
      refine (generateSpecInner_run (B := B) hrows ?_).mono fun r hr =>
        hr.mono fun a ⟨st, hst⟩ => ⟨_, _, st, hst, hrows, .inr ⟨rfl, rfl, hflush.1⟩⟩
      intro hs
      rw [hnone] at hs
      cases hs
    · rename_i hride
      have hcarry : s.pendingTok.isSome → B.suffix = [] ∧ B.sampled = none := by
        intro hp
        rw [not_and, not_or] at hride
        obtain ⟨h1, h2⟩ := hride hp
        exact ⟨Decidable.not_not.1 h1, Option.not_isSome_iff_eq_none.1 h2⟩
      exact (generateSpecInner_run (B := B) h hcarry).mono fun r hr =>
        hr.mono fun a ⟨st, hst⟩ => ⟨s, fed, st, hst, h, .inl ⟨rfl, rfl, hcarry⟩⟩

/-! ## Histories -/

/-- A checkpoint is the exact state at its own boundary of `committed`. -/
def CkptOk (T : Trunk σ η) (committed : List Tok) (ck : SpecCheckpoint σ η) : Prop :=
  0 < ck.pos ∧ ck.pos ≤ committed.length ∧ ck.snap.Holds T (committed.take ck.pos) ∧
    ck.lastH = T.hidden (T.after (committed.take ck.pos))

/-- The invariant of a history: the cache is the state after exactly `committed`; what was fed and
emitted since the last rewind is what `committed` grew by, followed by the pending bonus; the side
values belong to that state. -/
structure SessionInv (T : Trunk σ η) (h : History σ η) : Prop where
  holds : h.sess.cache.Holds T h.sess.committed
  seq : h.sess.committed ++ h.sess.pendingTok.toList = h.base ++ h.log
  pending : ∀ b, h.sess.pendingTok = some b → h.log.getLast? = some b ∧ h.sess.nextPred = none
  pred : h.sess.pendingTok = none → h.sess.nextPred =
    if h.log = [] then none else some (T.pred (T.after h.sess.committed))
  lastH : h.sess.lastH =
    if h.sess.committed = [] then none else some (T.hidden (T.after h.sess.committed))
  ckpt : ∀ ck, h.sess.turnCkpt = some ck → CkptOk T h.sess.committed ck

theorem CkptOk.grow {T : Trunk σ η} {xs : List Tok} {ck : SpecCheckpoint σ η}
    (h : CkptOk T xs ck) (ys : List Tok) : CkptOk T (xs ++ ys) ck := by
  obtain ⟨h0, h1, h2, h3⟩ := h
  have htake : (xs ++ ys).take ck.pos = xs.take ck.pos := List.take_append_of_le_length h1
  refine ⟨h0, by rw [List.length_append]; omega, ?_, ?_⟩
  · rwa [htake]
  · rwa [htake]

theorem SessionInv.rows {T : Trunk σ η} {h : History σ η} (hi : SessionInv T h) :
    Rows T h.sess h.sess.committed := by
  refine ⟨hi.holds, fun t ht => ?_, fun hp => ?_, fun x hx => ?_⟩
  · cases hp : h.sess.pendingTok with
    | none =>
      rw [hi.pred hp] at ht
      split at ht
      · cases ht
      · exact (Option.some.inj ht).symm
    | some b => rw [(hi.pending b hp).2] at ht; cases ht
  · obtain ⟨b, hb⟩ := Option.isSome_iff_exists.1 hp
    exact (hi.pending b hb).2
  · rw [hi.lastH] at hx
    split at hx
    · cases hx
    · exact (Option.some.inj hx).symm

theorem SessionInv.new (T : Trunk σ η) : SessionInv T (History.new T) where
  holds := ⟨rfl, rfl⟩
  seq := rfl
  pending b hb := by cases hb
  pred _ := rfl
  lastH := rfl
  ckpt ck hc := by cases hc

theorem SessionInv.flush {T : Trunk σ η} {h : History σ η} (hi : SessionInv T h) :
    SessionInv T { h with sess := specFlushPending T h.sess } := by
  cases hp : h.sess.pendingTok with
  | none =>
    have : specFlushPending T h.sess = h.sess := by simp only [specFlushPending, hp]
    rw [this]
    exact hi
  | some b =>
    have hfeed := hi.holds.feed T [b]
    have heq : specFlushPending T h.sess = { h.sess with
        cache := h.sess.cache.feed T [b]
        committed := h.sess.committed ++ [b]
        lastH := some (T.hidden (T.after (h.sess.committed ++ [b])))
        nextPred := some (T.pred (T.after (h.sess.committed ++ [b])))
        pendingTok := none } := by
      simp only [specFlushPending, hp, hfeed.1]
    have hlog : h.log ≠ [] := by
      intro hnil
      have := (hi.pending b hp).1
      rw [hnil] at this
      cases this
    rw [heq]
    refine ⟨hfeed, ?_, fun b' hb' => (by cases hb'), fun _ => ?_, ?_, fun ck hck => ?_⟩
    · have := hi.seq
      rw [hp, Option.toList_some] at this
      rw [← this]
      simp
    · rw [if_neg hlog]
    · rw [if_neg (by simp)]
    · exact (hi.ckpt ck hck).grow [b]

theorem SessionInv.rewind {T : Trunk σ η} {h : History σ η} (hi : SessionInv T h)
    {ck : SpecCheckpoint σ η} (hck : h.sess.turnCkpt = some ck) :
    SessionInv T ⟨specRewindToCheckpoint h.sess, (specRewindToCheckpoint h.sess).committed, []⟩ := by
  obtain ⟨h0, h1, h2, h3⟩ := hi.ckpt ck hck
  simp only [specRewindToCheckpoint, hck]
  refine ⟨h2, by simp, fun b hb => (by cases hb), fun _ => rfl, ?_, fun ck' hck' => by cases hck'⟩
  have hne : h.sess.committed.take ck.pos ≠ [] := by
    intro hnil
    have := congrArg List.length hnil
    rw [List.length_take, List.length_nil] at this
    omega
  simp only [if_neg hne, h3]

theorem closeBurst_committed (st : RoundState σ η γ) :
    ∃ ys, (closeBurst E B s st).committed =
      s.committed ++ B.suffix ++ s.pendingTok.toList ++ ys := by
  unfold closeBurst
  split
  · exact ⟨_, rfl⟩
  · split
    · exact ⟨_, rfl⟩
    · exact ⟨_, rfl⟩

theorem closeBurst_turnCkpt (st : RoundState σ η γ) :
    (closeBurst E B s st).turnCkpt = checkpoint E B s := by
  unfold closeBurst
  split
  · rfl
  · split <;> rfl

/-- **A burst that emits keeps the invariant.** -/
theorem SessionInv.burst {h : History σ η} {r : BurstOut σ η γ} {st : RoundState σ η γ}
    (hi : SessionInv E.T h) (hrun : BurstRun E B h.sess h.sess.committed r st)
    (hcarry : h.sess.pendingTok.isSome → B.suffix = []) (hout : r.out ≠ []) :
    SessionInv E.T { h with sess := r.sess, log := h.log ++ B.suffix ++ r.out } := by
  obtain ⟨⟨fed, hinv⟩, hsess, ho, -, -, hprimed⟩ := hrun
  have hne : st.out ≠ [] := ho ▸ hout
  obtain ⟨fed', hrows, hseq, hcomm, hpred, hlast⟩ := closeBurst_rows (s := h.sess) hinv
  have hcomm := hcomm hne rfl
  obtain ⟨ys, hys⟩ := closeBurst_committed (E := E) (B := B) (s := h.sess) st
  have hcomm_ne : (closeBurst E B h.sess st).committed ≠ [] := by
    rw [hys]
    by_cases hsuf : B.suffix = []
    · simp [hprimed hsuf]
    · simp [hsuf]
  have hlog : h.log ++ B.suffix ++ r.out ≠ [] := by simp [hout]
  have hall : h.sess.committed ++ B.suffix ++ h.sess.pendingTok.toList =
      h.base ++ h.log ++ B.suffix := by
    rw [← hi.seq]
    cases hp : h.sess.pendingTok with
    | none => simp
    | some b => rw [hcarry (by rw [hp]; rfl)]; simp
  rw [hsess]
  refine ⟨hcomm ▸ hrows.holds, ?_, fun b hb => ⟨?_, ?_⟩, fun hp => ?_, ?_, fun ck hck => ?_⟩
  · change (closeBurst E B h.sess st).committed ++ _ = _
    rw [hcomm, hseq, hall, ho]
    simp
  · have hb : (closeBurst E B h.sess st).pendingTok = some b := hb
    rw [hb, Option.toList_some] at hseq
    have := congrArg List.getLast? hseq
    rw [List.getLast?_concat, List.getLast?_append_of_ne_nil _ hne] at this
    change (h.log ++ B.suffix ++ r.out).getLast? = some b
    rw [ho, List.getLast?_append_of_ne_nil _ hne, ← this]
  · exact hrows.carry (by rw [hb]; rfl)
  · rw [if_neg hlog, hcomm]
    exact hpred hp
  · rw [if_neg hcomm_ne, hcomm]
    exact hlast
  · have hck : (closeBurst E B h.sess st).turnCkpt = some ck := hck
    rw [closeBurst_turnCkpt, checkpoint] at hck
    rw [hys]
    split at hck
    · rename_i hsuf
      rw [hsuf, List.append_nil, List.append_assoc]
      exact (hi.ckpt ck hck).grow _
    · rename_i hsuf
      split at hck
      · obtain rfl := Option.some.inj hck
        have hp : h.sess.pendingTok = none :=
          Option.not_isSome_iff_eq_none.1 fun hp => hsuf (hcarry hp)
        have hfeed := hi.holds.feed E.T B.suffix
        have hpos : 0 < B.suffix.length := List.length_pos_iff.2 hsuf
        have hck : CkptOk E.T (h.sess.committed ++ B.suffix)
            { snap := h.sess.cache.feed E.T B.suffix, pos := (h.sess.cache.feed E.T B.suffix).pos,
              lastH := E.T.hidden (h.sess.cache.feed E.T B.suffix).st } := by
          have htake : (h.sess.committed ++ B.suffix).take (h.sess.cache.feed E.T B.suffix).pos =
              h.sess.committed ++ B.suffix := by rw [hfeed.2, List.take_length]
          refine ⟨?_, le_of_eq hfeed.2, ?_, ?_⟩
          · change 0 < (h.sess.cache.feed E.T B.suffix).pos
            rw [hfeed.2, List.length_append]
            omega
          · rw [htake]; exact hfeed
          · rw [htake, hfeed.1]
        rw [hp, Option.toList_none, List.append_nil]
        exact hck.grow ys
      · cases hck

/-- The operations that reach a round keep the invariant. -/
theorem SessionInv.step {rng : Rng} {h h' : History σ η} (hi : SessionInv E.T h) (op : SpecOp γ)
    (hrounds : op.Rounds h.sess) (hok : h.step E rng op = .ok h') : SessionInv E.T h' := by
  cases op with
  | flush =>
    obtain rfl := Except.ok.inj hok
    exact hi.flush
  | rewind =>
    obtain rfl := Except.ok.inj hok
    cases hck : h.sess.turnCkpt with
    | none =>
      have : specRewindToCheckpoint h.sess = h.sess := by simp only [specRewindToCheckpoint, hck]
      simp only [Option.isSome_none, Bool.false_eq_true, if_false, this]
      exact hi
    | some ck =>
      simp only [Option.isSome_some, if_true]
      exact hi.rewind hck
  | burst B gram =>
    have hburst : Always _ (generateSpecSession E B h.sess gram) := generateSpecSession_run hi.rows
    have hrun := Always.run hburst rng
    simp only [History.step] at hok
    cases hr : (generateSpecSession E B h.sess gram).run rng with
    | error e => rw [hr] at hok; cases hok
    | ok r =>
      rw [hr] at hok hrun
      obtain rfl := Except.ok.inj hok
      obtain ⟨s', fed', st, hb, -, ⟨rfl, rfl, hcarry⟩ | ⟨rfl, rfl, -⟩⟩ := hrun
      · refine hi.burst hb (fun hp => (hcarry hp).1) fun hout => ?_
        obtain ⟨hp, hidle⟩ := hb.idle hout
        obtain ⟨hsuf, hsam⟩ := hcarry hp
        obtain ⟨hmax, hver⟩ := hrounds hp hsuf hsam
        rcases hidle with h0 | hf
        · omega
        · rw [hver] at hf; cases hf
      · have hflush := hi.flush
        obtain ⟨-, hnone, hcomm, -⟩ := specFlushPending_rows hi.rows
        rw [← hcomm] at hb
        refine hflush.burst hb (fun hp => ?_) fun hout => ?_
        · rw [hnone] at hp; cases hp
        · obtain ⟨hp, -⟩ := hb.idle hout
          rw [hnone] at hp; cases hp

/-- **The session invariant over every history** in which a carried bonus always reaches a round:
induction on the history. -/
theorem reachable_sessionInv (E : SpecEngine σ η) (rng : Rng) {h : History σ η}
    (hr : Reachable E rng γ h) : SessionInv E.T h := by
  induction hr with
  | new => exact SessionInv.new E.T
  | step op _ hrounds hok ih => exact ih.step op hrounds hok

/-- A carried bonus that reaches no round: the burst counts it into `committed` although no row of
the cache holds it, and carries it on. -/
theorem idle_burst_overcounts {rng : Rng} {h h' : History σ η} {b : Tok}
    (hp : h.sess.pendingTok = some b) (hsuf : B.suffix = []) (hsam : B.sampled = none)
    (hidle : B.Idle) (hok : h.step (γ := γ) E rng (.burst B none) = .ok h') :
    h'.sess.cache = h.sess.cache ∧ h'.sess.committed = h.sess.committed ++ [b] ∧
      h'.sess.pendingTok = some b := by
  have hride : ¬ (h.sess.pendingTok.isSome ∧ (B.suffix ≠ [] ∨ B.sampled.isSome)) := by
    simp [hsuf, hsam]
  have hgreedy : ¬ ((none : Option (SpecGrammar γ)).isSome ∧ B.sampled.isSome) := by simp
  have hst : ∀ st : RoundState σ η γ, st.out = [] → st.keepGoing = B.onCommit [[]] →
      roundLoop E B true (sampledGraph E B h.sess).graphS.isSome B.maxNew st =
        Pure.pure (Except.ok st) := by
    intro st hout hkeep
    cases hn : B.maxNew with
    | zero => rfl
    | succ n =>
      have hf : B.onCommit [[]] = false := hidle.resolve_left (by omega)
      unfold roundLoop
      rw [if_neg (by rw [hkeep, hf]; simp)]
  simp only [History.step, generateSpecSession, if_neg hgreedy, if_neg hride,
    generateSpecInner] at hok
  cases hopen : openBurst (γ := γ) E B h.sess none with
  | error e => rw [hopen] at hok; cases hok
  | ok st =>
    rw [hopen] at hok
    obtain ⟨-, -, ⟨-, hstart⟩ | ⟨hn, -⟩⟩ := openBurst_ok hopen
    · have hout : st.out = [] := by rw [hstart]; rfl
      have hkeep : st.keepGoing = B.onCommit [[]] := by rw [hstart]; rfl
      have hpend : st.pending = some b := by rw [hstart]; exact hp
      have hcache : st.cache = h.sess.cache.feed E.T B.suffix := by rw [hstart]; rfl
      simp only at hok
      rw [hst st hout hkeep] at hok
      obtain rfl := Except.ok.inj hok
      have hpend' : (flushCommit B st).pending = some b := hpend
      have hout' : (flushCommit B st).out = [] := hout
      have hcache' : (flushCommit B st).cache = h.sess.cache := by
        change st.cache = _
        rw [hcache, hsuf]
        rfl
      change (closeBurst E B h.sess (flushCommit B st)).cache = _ ∧
        (closeBurst E B h.sess (flushCommit B st)).committed = _ ∧
        (closeBurst E B h.sess (flushCommit B st)).pendingTok = _
      simp [closeBurst, hpend', hsam, hout', hcache', hsuf, hp]
    · rw [hp] at hn; cases hn

/-! ## Two histories by example -/

/-- A trunk whose state is its own history and that always predicts token 1. -/
def listTrunk : Trunk (List Tok) (List Tok) where
  vocab := 2
  init := []
  step s x := s ++ [x]
  logits _ := [0, 1]
  hidden s := s
  logits_length _ := rfl

/-- An engine over `listTrunk`, every distribution a point mass. -/
def listEngine : SpecEngine (List Tok) (List Tok) where
  T := listTrunk
  dVocab := 2
  d2t := none
  softmax _ row := Pmf.point (argmax row)
  headProb _ _ := 1

/-- A source of outcomes. -/
def zeroRng : Rng := { pick := fun _ _ => 0, flip := fun _ _ => true }

/-- A greedy burst whose drafter always proposes token 1. -/
def demoBurst (suffix : List Tok) (maxNew : ℕ) (verdict : Bool) : Burst where
  suffix
  maxNew
  k := 1
  head _ _ _ := [0, 1]
  onCommit _ := verdict

theorem reachable_sessionInv_demo : ∃ h, Reachable listEngine zeroRng Unit h ∧
    h.sess.pendingTok = some 1 ∧ SessionInv listEngine.T h :=
  ⟨_, .step (.burst (demoBurst [0] 2 true) none) .new (fun h => by cases h) rfl, rfl,
    reachable_sessionInv listEngine zeroRng
      (.step (γ := Unit) (.burst (demoBurst [0] 2 true) none) .new (fun h => by cases h) rfl)⟩

/-- Unqualified, the invariant fails twice: right after a rewind there is no prediction, and a
carried bonus that reaches no round is counted as committed without a row. -/
theorem sessionInv_unqualified_fails :
    (∃ h, (History.new listTrunk).run (γ := Unit) listEngine zeroRng
        [.burst (demoBurst [0] 2 true) none, .rewind] = .ok h ∧
      h.sess.pendingTok = none ∧
      h.sess.nextPred ≠ some (listTrunk.pred (listTrunk.after h.sess.committed))) ∧
    ∃ h, (History.new listTrunk).run (γ := Unit) listEngine zeroRng
        [.burst (demoBurst [0] 2 true) none, .burst (demoBurst [] 8 false) none] = .ok h ∧
      h.sess.cache.pos ≠ h.sess.committed.length :=
  ⟨⟨_, rfl, rfl, by decide⟩, ⟨_, rfl, by decide⟩⟩

end Memra
