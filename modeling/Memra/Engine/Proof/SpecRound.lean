import Memra.Engine.Spec

/-!
# The invariant of the round loop

`RoundInv E B start fed st`: between rounds the cache holds exactly `fed`, `fed` and the pending
bonus spell what the burst started from and emitted (`start ++ st.out`), and the predictions kept
on the side are those of `fed`. `RoundInv.tRow` reads the target row of every slot of a verify
batch, `RoundInv.finish` shows that all four commit arms keep the invariant whatever was drafted
and accepted (`round_inv`), and `roundLoop_along` carries an invariant of one round through the
loop, which ends within its fuel because every round emits.
-/

namespace Memra

open Lib Lib.Prog

variable {σ η γ : Type} {E : SpecEngine σ η} {B : Burst} {start fed : List Tok}
  {st : RoundState σ η γ}

/-- The invariant between rounds (module doc). -/
structure RoundInv (E : SpecEngine σ η) (B : Burst) (start fed : List Tok)
    (st : RoundState σ η γ) : Prop where
  holds : st.cache.Holds E.T fed
  seq : fed ++ st.pending.toList = start ++ st.out
  fill : st.fillPrev = E.T.hidden (E.T.after fed)
  pred : st.pending = none → st.lastPred = E.T.pred (E.T.after fed)
  col : st.pending = none → B.sampled.isSome → st.lastCol = some (E.T.row (E.T.after fed))
  init : st.pending = none → st.gram.isSome → st.initLogits = some (E.T.row (E.T.after fed))
  replay : st.gram.isSome → E.specReplay = false
  slices : st.calls.flatten = st.out
  flushed : st.flushed = st.out.length

theorem RoundState.base_eq (st : RoundState σ η γ) : st.base = st.pending.toList.length := by
  unfold RoundState.base
  cases st.pending <;> rfl

/-! ## The slots of a verify batch -/

namespace RoundInv

variable (h : RoundInv E B start fed st)
include h

/-- The state of the column that predicts the slot of `draft[j]`. -/
theorem slot (draft : List Tok) {j : ℕ} (hj : j ≤ draft.length) (hb : 1 ≤ st.base + j) :
    (E.T.cols st.cache.st (st.pending.toList ++ draft))[st.base + j - 1]? =
      some (E.T.after (start ++ st.out ++ draft.take j)) := by
  have hlen : st.base + j - 1 < (st.pending.toList ++ draft).length := by
    rw [List.length_append, ← st.base_eq]; omega
  rw [E.T.cols_getElem? _ _ hlen, show st.base + j - 1 + 1 = st.base + j by omega, h.holds.1,
    st.base_eq, List.take_length_add_append, ← E.T.after_append, ← List.append_assoc, h.seq]

/-- The state of the slot of `draft[0]` when nothing is pending. -/
theorem after_start (hp : st.pending = none) : E.T.after fed = E.T.after (start ++ st.out) := by
  have := h.seq
  rw [hp, Option.toList_none, List.append_nil] at this
  rw [this]

theorem tPred (draft : List Tok) {j : ℕ} (hj : j ≤ draft.length) :
    Memra.tPred st.base st.lastPred
        (((E.T.cols st.cache.st (st.pending.toList ++ draft)).map E.T.row).map argmax) j =
      E.T.pred (E.T.after (start ++ st.out ++ draft.take j)) := by
  unfold Memra.tPred
  split
  · rename_i h0
    obtain ⟨rfl, hb⟩ := h0
    have hp : st.pending = none := by
      unfold RoundState.base at hb
      cases hp : st.pending <;> simp_all
    rw [h.pred hp, h.after_start hp, List.take_zero, List.append_nil]
  · rw [List.getD_eq_getElem?_getD, List.getElem?_map, List.getElem?_map,
      h.slot draft hj (by omega)]
    rfl

theorem tRow (hs : B.sampled.isSome) (draft : List Tok) {j : ℕ} (hj : j ≤ draft.length) :
    Memra.tRow st.base (st.lastCol.getD [])
        ((E.T.cols st.cache.st (st.pending.toList ++ draft)).map E.T.row) j =
      E.T.row (E.T.after (start ++ st.out ++ draft.take j)) := by
  unfold Memra.tRow
  split
  · rename_i h0
    obtain ⟨rfl, hb⟩ := h0
    have hp : st.pending = none := by
      unfold RoundState.base at hb
      cases hp : st.pending <;> simp_all
    rw [h.col hp hs, h.after_start hp, List.take_zero, List.append_nil]
    rfl
  · rw [List.getD_eq_getElem?_getD, List.getElem?_map, h.slot draft hj (by omega)]
    rfl

end RoundInv

/-! ## The commit arms -/

/-- What is committed of a verify batch keeps the cache exact: the rows up to the bonus. -/
structure Committed (E : SpecEngine σ η) (B : Burst) (seq : List Tok) (bonus : Tok)
    (st : RoundState σ η γ) (fed : List Tok) : Prop where
  holds : st.cache.Holds E.T fed
  fill : st.fillPrev = E.T.hidden (E.T.after fed)
  arm : (st.pending = some bonus ∧ fed = seq) ∨
    (E.specReplay = true ∧ st.pending = none ∧ fed = seq ++ [bonus] ∧
      st.lastPred = E.T.pred (E.T.after fed) ∧
      (B.sampled.isSome → st.lastCol = some (E.T.row (E.T.after fed))))

/-- Whatever was drafted and accepted, the arm taken commits exactly the accepted prefix. -/
theorem RoundInv.commit (h : RoundInv E B start fed st) {draft : List Tok} {nAcc : ℕ}
    (hn : nAcc ≤ draft.length) (bonus : Tok) :
    ∃ fed', Committed E B (start ++ st.out ++ draft.take nAcc) bonus
      (commitArm E B st (E.T.cols st.cache.st (st.pending.toList ++ draft))
        (st.cache.feed E.T (st.pending.toList ++ draft)) draft nAcc bonus) fed' := by
  have hfeed : ∀ xs, (st.cache.feed E.T (st.pending.toList ++ xs)).Holds E.T
      (start ++ st.out ++ xs) := fun xs => by
    have := h.holds.feed E.T (st.pending.toList ++ xs)
    rwa [← List.append_assoc, h.seq] at this
  unfold commitArm
  split
  · -- full accept: the verify's own cache stands
    rename_i hfull
    rw [hfull, List.take_length]
    refine ⟨_, hfeed draft, ?_, .inl ⟨rfl, rfl⟩⟩
    unfold commitFull
    simp only
    rcases Nat.eq_zero_or_pos (st.base + draft.length) with h0 | h1
    · have hnil : st.pending.toList ++ draft = [] := by
        rw [← List.length_eq_zero_iff, List.length_append, ← st.base_eq, h0]
      obtain ⟨hp, rfl⟩ := List.append_eq_nil_iff.1 hnil
      have hp : st.pending = none := Option.toList_eq_nil_iff.1 hp
      rw [hp, List.append_nil, List.append_nil, ← h.after_start hp, ← h.fill]
      rfl
    · have hslot := h.slot draft (le_refl draft.length) h1
      rw [List.getLast?_eq_getElem?, E.T.cols_length, List.length_append, ← st.base_eq, hslot,
        List.take_length]
      rfl
  · split
    · -- partial accept: the first `base + nAcc` columns stand
      rename_i hpart hrep
      have hslot := h.slot draft hn hrep.2
      refine ⟨_, ⟨?_, ?_⟩, ?_, .inl ⟨rfl, rfl⟩⟩
      · simp only [commitVerifiedPrefix, hslot, Option.getD_some]
      · simp only [commitVerifiedPrefix]
        rw [h.holds.2, ← h.seq, st.base_eq]
        simp only [List.length_append, List.length_take]
        omega
      · simp only [commitVerifiedPrefix, hslot, Option.map_some, Option.getD_some]
    · split
      · -- zero-round fold: nothing was pending and nothing accepted, so the snapshot is exact
        rename_i hne hle hrep
        have h0 : st.base + nAcc = 0 := by
          rw [not_and, not_le] at hle
          have := hle hrep
          omega
        have hp : st.pending = none := by
          rw [st.base_eq] at h0
          exact Option.toList_eq_nil_iff.1 (List.length_eq_zero_iff.1 (by omega))
        have hfed : start ++ st.out ++ draft.take nAcc = fed := by
          rw [← h.seq, hp, show nAcc = 0 by omega]
          simp
        exact ⟨fed, h.holds, h.fill, .inl ⟨rfl, hfed.symm⟩⟩
      · -- legacy replay: the committed prefix and the bonus are fed again from the snapshot
        rename_i hrep
        have := hfeed (draft.take nAcc ++ [bonus])
        rw [← List.append_assoc, ← List.append_assoc] at this
        have hst := this.1
        refine ⟨_, this, ?_, .inr ⟨?_, rfl, rfl, ?_, fun hs => ?_⟩⟩
        · simp only [commitReplay, hst]
        · simpa using hrep
        · simp only [commitReplay, hst]
        · simp only [commitReplay, hst, hs, if_true]

/-! ## One round and the loop -/

theorem commitArm_gram (st : RoundState σ η γ) (cols : List σ) (cache : Cache σ)
    (draft : List Tok) (nAcc : ℕ) (bonus : Tok) :
    (commitArm E B st cols cache draft nAcc bonus).calls = st.calls ∧
      (commitArm E B st cols cache draft nAcc bonus).flushed = st.flushed := by
  unfold commitArm
  split
  · exact ⟨rfl, rfl⟩
  · split
    · exact ⟨rfl, rfl⟩
    · split <;> exact ⟨rfl, rfl⟩

@[simp] theorem finishRound_out (sessionMode : Bool) (draft : List Tok) (a : Settled γ) :
    (finishRound E B sessionMode st draft a).out =
      emit B sessionMode st.out (draft.take a.nAcc) a.bonus := rfl

/-- **A finished round keeps the invariant**, whatever was drafted and accepted, as long as it
emitted everything it committed. -/
theorem RoundInv.finish (h : RoundInv E B start fed st) {sessionMode : Bool} {draft : List Tok}
    {a : Settled γ} (hn : a.nAcc ≤ draft.length) (hg : a.gram.isSome → E.specReplay = false)
    (hout : emit B sessionMode st.out (draft.take a.nAcc) a.bonus =
      st.out ++ draft.take a.nAcc ++ [a.bonus]) :
    ∃ fed', RoundInv E B start fed' (finishRound E B sessionMode st draft a) := by
  obtain ⟨fed', hc⟩ := h.commit hn a.bonus
  obtain ⟨hcalls, hflushed⟩ := commitArm_gram (E := E) (B := B) st
    (E.T.cols st.cache.st (st.pending.toList ++ draft))
    (st.cache.feed E.T (st.pending.toList ++ draft)) draft a.nAcc a.bonus
  refine ⟨fed', ⟨hc.holds, ?_, hc.fill, ?_, ?_, ?_, hg, ?_, rfl⟩⟩
  · rw [finishRound_out, hout]
    rcases hc.arm with ⟨hp, hf⟩ | ⟨-, hp, hf, -, -⟩
    · change fed' ++ Option.toList (commitArm E B st _ _ draft a.nAcc a.bonus).pending = _
      rw [hp, hf]
      simp
    · change fed' ++ Option.toList (commitArm E B st _ _ draft a.nAcc a.bonus).pending = _
      rw [hp, hf]
      simp
  · intro hp
    rcases hc.arm with ⟨hp', -⟩ | ⟨-, -, -, hpred, -⟩
    · exact absurd (hp'.symm.trans hp) (Option.some_ne_none _)
    · exact hpred
  · intro hp hs
    rcases hc.arm with ⟨hp', -⟩ | ⟨-, -, -, -, hcol⟩
    · exact absurd (hp'.symm.trans hp) (Option.some_ne_none _)
    · exact hcol hs
  · intro hp hgs
    rcases hc.arm with ⟨hp', -⟩ | ⟨hrep, -⟩
    · exact absurd (hp'.symm.trans hp) (Option.some_ne_none _)
    · rw [hg hgs] at hrep
      cases hrep
  · change ((commitArm E B st _ _ draft a.nAcc a.bonus).calls ++
      [List.drop (commitArm E B st _ _ draft a.nAcc a.bonus).flushed
        (emit B sessionMode st.out (draft.take a.nAcc) a.bonus)]).flatten =
      emit B sessionMode st.out (draft.take a.nAcc) a.bonus
    rw [hcalls, hflushed, hout, h.flushed, List.flatten_append, h.slices]
    simp

/-- The committed part of a grammar hook: what only `consume` moves. -/
def SpecGrammar.core (g : SpecGrammar γ) : Grammar γ × Tok × γ := (g.G, g.eos, g.c)

theorem draftAdvance_core (g : SpecGrammar γ) (tok : Tok) :
    (g.draftAdvance tok).2.core = g.core := by
  unfold SpecGrammar.draftAdvance
  split
  · split
    · rfl
    · split <;> rfl
  · rfl

/-- Drafting moves the speculative grammar state only. -/
theorem draftChain_core (graphS : Bool) (base round : ℕ) (out : List Tok) (n : ℕ) (ch : Chain γ) :
    Always (fun ch' => ch'.gram.map SpecGrammar.core = ch.gram.map SpecGrammar.core)
      (draftChain E B graphS base round out n ch) := by
  induction n generalizing ch with
  | zero => exact rfl
  | succ n ih =>
    unfold draftChain
    refine (Always.triv _).bind fun r _ => ?_
    obtain ⟨idx, sctr⟩ := r
    simp only
    split
    · exact rfl
    · split
      · rename_i g hlive hg
        have hcore := draftAdvance_core g (mapDraft E idx)
        have hg : ch.gram = some g := hg
        split
        · rename_i g' hadv
          rw [hadv] at hcore
          refine (ih _).mono fun ch' hch' => ?_
          rw [hch', hg, Option.map_some, Option.map_some, hcore]
        · rename_i g' hadv
          rw [hadv] at hcore
          change Option.map SpecGrammar.core (some g') = Option.map SpecGrammar.core ch.gram
          rw [hg, Option.map_some, Option.map_some, hcore]
      · exact (ih _).mono fun ch' hch' => hch'

theorem draftRound_core (graphS : Bool) :
    Always (fun ch => ch.gram.map SpecGrammar.core = st.gram.map SpecGrammar.core)
      (draftRound E B graphS st) := by
  unfold draftRound
  refine (draftChain_core _ _ _ _ _ _).mono fun ch hch => ?_
  rw [hch]
  simp only
  split
  · cases st.gram <;> rfl
  · rfl

/-- A round is its chain, however drafted, and its settlement. -/
theorem round_along {V : Via} {Q : Except SpecErr (RoundState σ η γ) → Prop}
    {sessionMode graphS : Bool}
    (hsettle : ∀ ch : Chain γ, ch.gram.map SpecGrammar.core = st.gram.map SpecGrammar.core →
      Along V (fun r => Q (r.map (finishRound E B sessionMode st ch.draft)))
        (settle E B st ((E.T.cols st.cache.st (st.pending.toList ++ ch.draft)).map E.T.row) ch)) :
    Along V Q (round E B sessionMode graphS st) := by
  refine (Always.along (draftRound_core graphS)).bind fun ch hch => ?_
  refine (hsettle ch hch).bind fun r hr => ?_
  cases r with
  | error e => exact hr
  | ok a => exact hr

/-! ## Settlement -/

theorem acceptGreedy_le (pred : ℕ → Tok) (j : ℕ) (ds : List Tok) :
    acceptGreedy pred j ds ≤ ds.length := by
  induction ds generalizing j with
  | nil => exact le_rfl
  | cons d ds ih =>
    unfold acceptGreedy
    split
    · exact Nat.succ_le_succ (ih _)
    · exact Nat.zero_le _

theorem acceptSampled_le (sp : SpecSampling) (row : ℕ → Row) (j uctr : ℕ)
    (l : List (Tok × ℕ × Row)) :
    Always (fun r => r.1 ≤ j + l.length) (acceptSampled E sp row j uctr l) := by
  induction l generalizing j uctr with
  | nil => exact le_rfl
  | cons x l ih =>
    obtain ⟨d, i, qrow⟩ := x
    unfold acceptSampled
    refine (Always.triv _).bind fun ok _ => ?_
    cases ok with
    | true =>
      refine (ih (j + 1) (bump uctr)).mono fun r hr => ?_
      rw [List.length_cons]; omega
    | false => exact Nat.le_add_right _ _

theorem accept_le (rows : List Row) (ch : Chain γ) :
    Always (fun r => r.1 ≤ ch.draft.length) (accept E B st rows ch) := by
  unfold accept
  split
  · exact acceptGreedy_le _ _ _
  · refine (acceptSampled_le _ _ _ _ _).bind fun r hr => ?_
    refine (Always.triv _).bind fun bonus _ => ?_
    rw [List.length_zip] at hr
    exact le_trans hr (by omega)

theorem grammarWalk_le {g g' : SpecGrammar γ} {ds : List Tok} {j na : ℕ} {cut : Bool}
    (h : grammarWalk j g ds = .ok (na, cut, g')) : na ≤ j + ds.length := by
  induction ds generalizing j g with
  | nil =>
    obtain ⟨rfl, -⟩ := Prod.mk.inj (Except.ok.inj h)
    exact le_rfl
  | cons d ds ih =>
    unfold grammarWalk at h
    split at h
    · split at h
      · have := ih h
        rw [List.length_cons]; omega
      · cases h
    · obtain ⟨rfl, -⟩ := Prod.mk.inj (Except.ok.inj h)
      exact Nat.le_add_right _ _

theorem grammarTruncate_le {rows : List Row} {g g' : SpecGrammar γ} {draft : List Tok}
    {nAcc na : ℕ} {bonus bo : Tok}
    (h : grammarTruncate st rows g draft nAcc bonus = .ok (na, bo, g')) :
    na ≤ (draft.take nAcc).length := by
  unfold grammarTruncate at h
  split at h
  · cases h
  · rename_i na' cut g'' hwalk
    have hle := grammarWalk_le hwalk
    simp only at h
    split at h
    · cases h
    · split at h
      · obtain ⟨rfl, -⟩ := Prod.mk.inj (Except.ok.inj h)
        omega
      · cases h

/-- However a round is settled, it accepts a prefix of its draft. -/
theorem settle_le (rows : List Row) (ch : Chain γ) :
    Always (Ends (fun _ => True) fun a => a.nAcc ≤ ch.draft.length ∧
      (a.gram.isSome → ch.gram.isSome)) (settle E B st rows ch) := by
  unfold settle
  refine (accept_le rows ch).bind fun r hr => ?_
  obtain ⟨nAcc, bonus, sctr, uctr⟩ := r
  simp only
  cases hg : ch.gram with
  | none => exact ⟨hr, fun h => h⟩
  | some g =>
    simp only
    cases ht : grammarTruncate st rows g ch.draft nAcc bonus with
    | error e => trivial
    | ok x =>
      obtain ⟨na, bo, g'⟩ := x
      have := grammarTruncate_le ht
      rw [List.length_take] at this
      exact ⟨by change na ≤ _; omega, fun _ => rfl⟩

/-! ## The loop -/

/-- The loop rule: an invariant of one round holds at the end of the loop, which the fuel never
cuts short since every round emits. -/
theorem roundLoop_along {V : Via} (err : SpecErr → Prop) (Inv : RoundState σ η γ → Prop)
    (sessionMode graphS : Bool)
    (hround : ∀ st, Inv st → st.keepGoing → st.out.length < B.maxNew →
      Along V (Ends err fun st' => Inv st' ∧ st.out.length < st'.out.length)
        (round E B sessionMode graphS st))
    (fuel : ℕ) (st : RoundState σ η γ) (h : Inv st) (hf : B.maxNew ≤ fuel + st.out.length) :
    Along V (Ends err fun st' => Inv st' ∧ ¬ (st'.keepGoing ∧ st'.out.length < B.maxNew))
      (roundLoop E B sessionMode graphS fuel st) := by
  induction fuel generalizing st with
  | zero => exact ⟨h, fun hgo => by omega⟩
  | succ fuel ih =>
    unfold roundLoop
    split
    · rename_i hgo
      refine (hround st h hgo.1 hgo.2).andThen fun st' hst' => ?_
      exact ih st' hst'.1 (by omega)
    · rename_i hstop
      exact ⟨h, hstop⟩

/-- **One round of a session burst keeps the invariant**, for every chain and every outcome. -/
theorem round_inv (h : RoundInv E B start fed st) (graphS : Bool) :
    Always (Ends (fun _ => True) fun st' => (∃ fed', RoundInv E B start fed' st') ∧
      st.out.length < st'.out.length) (round E B true graphS st) := by
  refine round_along fun ch hch => ?_
  refine (settle_le _ ch).mono fun r hr => ?_
  cases r with
  | error e => trivial
  | ok a =>
    have hg : a.gram.isSome → E.specReplay = false := fun ha => by
      refine h.replay ?_
      have := congrArg Option.isSome hch
      rw [Option.isSome_map, Option.isSome_map] at this
      rw [← this]
      exact hr.2 ha
    refine ⟨h.finish hr.1 hg rfl, ?_⟩
    rw [finishRound_out]
    simp only [emit, if_true, List.length_append, List.length_singleton]
    omega

end Memra
