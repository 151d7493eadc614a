import Memra.Lib.Rejection
import Memra.Engine.Proof.SpecSession

/-!
# The law of a sampled round

`roundSlot` is a slot of a sampled round: what the draft head draws at a chain position, how it is
accepted against the target row of that position, and what stands in for it when rejected or
discarded. `round_refines`: the tokens of a round, which drafts its whole chain before it accepts
any of it, have the law of `Lib.speculate` over these slots, so `round_exact_iff` reads off when a
round is exact. `draws_consecutive` shows that a session takes the counters of each stream in order.
-/

namespace Memra

open Lib Lib.Prog

variable {σ η γ : Type}

/-- The slot of a sampled round after the accepted drafts `pre`, `ctx` being everything fed and
emitted before the round. -/
def roundSlot (E : SpecEngine σ η) (B : Burst) (sp : SpecSampling) (graphS : Bool)
    (ctx : List Tok) (base round : ℕ) (toks pre : List Tok) : Slot :=
  let qrow := B.head round toks pre
  let prow := E.T.row (E.T.after (ctx ++ pre))
  { draw := drawDist E graphS sp qrow
    target := E.softmax sp prow
    resample := residualDist E sp prow qrow
    discard := discards E base pre.length qrow
    token := mapDraft E
    acc := fun i => acceptBias ((E.softmax sp prow).prob (mapDraft E i)) ((E.softmax sp qrow).prob i) }

variable {E : SpecEngine σ η} {B : Burst} {start fed : List Tok} {st : RoundState σ η γ}
  {sp : SpecSampling} {s : SpecSession σ η}

/-! ## The chain -/

/-- A longer chain. -/
def Chain.Extends (ch ch' : Chain γ) : Prop :=
  (∃ ds, ch'.draft = ch.draft ++ ds) ∧ (∃ is, ch'.idx = ch.idx ++ is) ∧
    (∃ rs, ch'.rows = ch.rows ++ rs) ∧ ch'.gram = none

theorem Chain.Extends.trans {ch ch' ch'' : Chain γ} (h : ch.Extends ch') (h' : ch'.Extends ch'') :
    ch.Extends ch'' := by
  obtain ⟨⟨ds, hd⟩, ⟨is, hi⟩, ⟨rs, hr⟩, -⟩ := h
  obtain ⟨⟨ds', hd'⟩, ⟨is', hi'⟩, ⟨rs', hr'⟩, hg⟩ := h'
  refine ⟨⟨ds ++ ds', ?_⟩, ⟨is ++ is', ?_⟩, ⟨rs ++ rs', ?_⟩, hg⟩
  · rw [hd', hd, List.append_assoc]
  · rw [hi', hi, List.append_assoc]
  · rw [hr', hr, List.append_assoc]

/-- The depth of a round's chain. -/
def depth (E : SpecEngine σ η) (B : Burst) (st : RoundState σ η γ) : ℕ :=
  if E.adapt then st.kc else B.k

/-- Every slot a round reaches is balanced. -/
def RoundBalanced (E : SpecEngine σ η) (B : Burst) (sp : SpecSampling) (graphS : Bool)
    (ctx : List Tok) (st : RoundState σ η γ) : Prop :=
  BalancedFrom (roundSlot E B sp graphS ctx st.base st.round (st.seen ++ st.out)) (depth E B st) []

theorem round_gram (hg : st.gram = none) (graphS : Bool) :
    Always (Ends (fun _ => True) fun st' => st'.gram = none) (round E B true graphS st) := by
  refine round_along fun ch hch => ?_
  rw [hg, Option.map_none, Option.map_eq_none_iff] at hch
  unfold settle
  refine (Always.triv _).bind fun r _ => ?_
  rw [hch]
  rfl

theorem entrySession_rows (h : Rows E.T s fed) :
    ∃ fed', Rows E.T (entrySession E B s) fed' ∧
      fed' ++ (entrySession E B s).pendingTok.toList = fed ++ s.pendingTok.toList ∧
      ((entrySession E B s).pendingTok.isSome → B.suffix = [] ∧ B.sampled = none) := by
  unfold entrySession
  split
  · obtain ⟨hrows, hnone, -⟩ := specFlushPending_rows h
    exact ⟨_, hrows, by rw [hnone]; simp, fun hp => by rw [hnone] at hp; cases hp⟩
  · rename_i hride
    refine ⟨fed, h, rfl, fun hp => ?_⟩
    rw [not_and, not_or] at hride
    obtain ⟨h1, h2⟩ := hride hp
    exact ⟨Decidable.not_not.1 h1, Option.not_isSome_iff_eq_none.1 h2⟩

/-- Every state of a burst is at the loop's invariant. -/
theorem InBurst.inv (h : Rows E.T s fed) {st : RoundState σ η γ} (hst : InBurst E B s st) :
    (∃ fed', RoundInv E B (fed ++ s.pendingTok.toList ++ B.suffix) fed' st) ∧ st.gram = none := by
  induction hst with
  | opened ok =>
    obtain ⟨fed', hrows, hseq, hcarry⟩ := entrySession_rows (B := B) h
    refine ⟨?_, ?_⟩
    · have := (openBurst_inv hrows hcarry ok).1
      have hcomm : fed' ++ B.suffix ++ (entrySession E B s).pendingTok.toList =
          fed ++ s.pendingTok.toList ++ B.suffix := by
        rw [← hseq]
        cases hp : (entrySession E B s).pendingTok with
        | none => simp
        | some b => rw [(hcarry (by rw [hp]; rfl)).1]; simp
      rwa [hcomm] at this
    · obtain ⟨-, -, ⟨-, rfl⟩ | ⟨-, gram', hg, rfl⟩⟩ := openBurst_ok ok
      · rfl
      · show gram' = none
        cases gram' with
        | none => rfl
        | some g => exact absurd (hg rfl) (by simp)
  | round rng _ _ ok ih =>
    obtain ⟨⟨fed', hinv⟩, hg⟩ := ih
    have hround := Always.run (round_inv hinv (burstGraph E B s)) rng
    have hgram := Always.run (round_gram (E := E) (B := B) hg (burstGraph E B s)) rng
    rw [ok] at hround hgram
    exact ⟨hround.1, hgram⟩

/-- What a session keeps, over any history: a cache and a checkpoint that hold what was fed. -/
structure KeptRows (T : Trunk σ η) (s : SpecSession σ η) : Prop where
  rows : ∃ fed, Rows T s fed
  ckpt : ∀ ck, s.turnCkpt = some ck →
    ∃ fed, ck.snap.Holds T fed ∧ ck.lastH = T.hidden (T.after fed)

theorem checkpoint_rows (h : Rows E.T s fed)
    (hk : ∀ ck, s.turnCkpt = some ck →
      ∃ fed, ck.snap.Holds E.T fed ∧ ck.lastH = E.T.hidden (E.T.after fed))
    (ck : SpecCheckpoint σ η) (hck : checkpoint E B s = some ck) :
    ∃ fed, ck.snap.Holds E.T fed ∧ ck.lastH = E.T.hidden (E.T.after fed) := by
  unfold checkpoint at hck
  split at hck
  · exact hk ck hck
  · split at hck
    · obtain rfl := Option.some.inj hck
      have hfeed := h.holds.feed E.T B.suffix
      exact ⟨_, hfeed, by rw [hfeed.1]⟩
    · cases hck

theorem KeptRows.step {rng : Rng} {h h' : History σ η} (hi : KeptRows E.T h.sess) (op : SpecOp γ)
    (hok : h.step E rng op = .ok h') : KeptRows E.T h'.sess := by
  obtain ⟨⟨fed, hrows⟩, hck⟩ := hi
  cases op with
  | flush =>
    obtain rfl := Except.ok.inj hok
    obtain ⟨hflush, -, -, hturn⟩ := specFlushPending_rows hrows
    exact ⟨⟨_, hflush⟩, fun ck hck' => hck ck (hturn ▸ hck')⟩
  | rewind =>
    obtain rfl := Except.ok.inj hok
    have hsess : KeptRows E.T (specRewindToCheckpoint h.sess) := by
      unfold specRewindToCheckpoint
      split
      · exact ⟨⟨fed, hrows⟩, hck⟩
      · rename_i ck hturn
        obtain ⟨fed', hholds, hlast⟩ := hck ck hturn
        refine ⟨⟨fed', hholds, (fun t ht => by cases ht), (fun hp => by cases hp), ?_⟩,
          fun ck' hck' => by cases hck'⟩
        intro x hx
        exact (Option.some.inj hx).symm.trans hlast
    split <;> exact hsess
  | burst B gram =>
    have hburst : Always _ (generateSpecSession E B h.sess gram) := generateSpecSession_run hrows
    have hrun := Always.run hburst rng
    simp only [History.step] at hok
    cases hr : (generateSpecSession E B h.sess gram).run rng with
    | error e => rw [hr] at hok; cases hok
    | ok r =>
      rw [hr] at hok hrun
      obtain rfl := Except.ok.inj hok
      obtain ⟨s', fed', st, hb, hrows', hs'⟩ := hrun
      obtain ⟨fed₁, hinv⟩ := hb.inv
      obtain ⟨fed₂, hclose, -⟩ := closeBurst_rows (s := s') hinv
      have hturn : s'.turnCkpt = h.sess.turnCkpt := by
        rcases hs' with ⟨rfl, -⟩ | ⟨rfl, -⟩
        · rfl
        · exact (specFlushPending_rows hrows).2.2.2
      show KeptRows E.T r.sess
      rw [hb.sess]
      refine ⟨⟨fed₂, hclose⟩, ?_⟩
      rw [closeBurst_turnCkpt]
      exact checkpoint_rows hrows' fun ck hck' => hck ck (hturn ▸ hck')

/-- The counters of a state: `sctr` for distribution draws, `uctr` for coins. -/
def counters (sctr uctr : ℕ) : Counters
  | .pick => sctr
  | .flip => uctr

/-- The draft vocabulary map is faithful: it names each target id once and covers what is drawn. -/
def FaithfulMap (E : SpecEngine σ η) (sp : SpecSampling) : Prop :=
  ∀ map, E.d2t = some map → map.Nodup ∧ ∀ row, (E.softmax sp row).size ≤ map.length

theorem scatterTrim_mapDraft (hmap : FaithfulMap E sp) (row : Row) {i : ℕ}
    (hi : (E.softmax sp row).prob i ≠ 0) :
    scatterTrim E (E.softmax sp row) (mapDraft E i) = (E.softmax sp row).prob i := by
  have hlt : i < (E.softmax sp row).size := not_le.1 fun h => hi ((E.softmax sp row).support i h)
  unfold scatterTrim mapDraft
  cases hd : E.d2t with
  | none => rfl
  | some map =>
    obtain ⟨hnodup, hsize⟩ := hmap map hd
    have hlt : i < map.length := lt_of_lt_of_le hlt (hsize row)
    have hfind : map.findIdx? (· = map.getD i 0) = some i := by
      rw [List.findIdx?_eq_some_iff_getElem]
      refine ⟨hlt, by simp [List.getD_eq_getElem?_getD, hlt], fun j hj => ?_⟩
      have hjlt : j < map.length := hj.trans hlt
      have hne : map[j] ≠ map[i] := fun h =>
        absurd (hnodup.getElem_inj_iff.1 h) (Nat.ne_of_lt hj)
      simpa [List.getD_eq_getElem?_getD, hlt] using hne
    simp only [hfind, Option.elim_some]

theorem mapDraft_inj (hmap : FaithfulMap E sp) (row : Row) {i j : ℕ}
    (hi : (E.softmax sp row).prob i ≠ 0) (hj : (E.softmax sp row).prob j ≠ 0)
    (hij : mapDraft E i = mapDraft E j) : i = j := by
  have hlt : ∀ k, (E.softmax sp row).prob k ≠ 0 → k < (E.softmax sp row).size := fun k hk =>
    not_le.1 fun h => hk ((E.softmax sp row).support k h)
  unfold mapDraft at hij
  cases hd : E.d2t with
  | none =>
    rw [hd] at hij
    exact hij
  | some map =>
    obtain ⟨hnodup, hsize⟩ := hmap map hd
    have hi : i < map.length := lt_of_lt_of_le (hlt i hi) (hsize row)
    have hj : j < map.length := lt_of_lt_of_le (hlt j hj) (hsize row)
    rw [hd] at hij
    simp only [List.getD_eq_getElem?_getD, List.getElem?_eq_getElem hi, List.getElem?_eq_getElem hj,
      Option.getD_some] at hij
    exact hnodup.getElem_inj_iff.1 hij

/-- What no drawn id maps to has no mass over the target ids. -/
theorem scatterTrim_off (row : Row) {y : Tok}
    (hy : ∀ i, (E.softmax sp row).prob i ≠ 0 → mapDraft E i ≠ y) :
    scatterTrim E (E.softmax sp row) y = 0 := by
  unfold mapDraft at hy
  unfold scatterTrim
  cases hd : E.d2t with
  | none =>
    rw [hd] at hy
    exact Decidable.not_not.1 fun hne => hy y hne rfl
  | some map =>
    rw [hd] at hy
    simp only at hy ⊢
    cases hf : map.findIdx? (· = y) with
    | none => rfl
    | some i =>
      obtain ⟨hlt, heq, -⟩ := List.findIdx?_eq_some_iff_getElem.1 hf
      rw [Option.elim_some]
      refine Decidable.not_not.1 fun hne => hy i hne ?_
      simpa [List.getD_eq_getElem?_getD, hlt] using heq

theorem acceptBias_eq {p q : ℚ} (hp : 0 ≤ p) (hq : 0 < q) :
    (acceptBias p q).1 = min 1 (p / q) := by
  unfold acceptBias
  rw [if_neg (not_le.2 hq)]
  exact max_eq_right (le_min zero_le_one (div_nonneg hp hq.le))

/-- **Without discards, filtered as it is accepted and mapped faithfully, a round is the classical
one**, so all its slots are balanced. -/
theorem roundBalanced_of_matched (hp : E.pMin ≤ 0) {graphS : Bool}
    (hraw : graphS = true → E.softmax sp.raw = E.softmax sp) (hmap : FaithfulMap E sp)
    (ctx : List Tok) (st : RoundState σ η γ) : RoundBalanced E B sp graphS ctx st := by
  refine balancedFrom_of_forall (fun pre => ?_) _ _
  let qrow := B.head st.round (st.seen ++ st.out) pre
  let prow := E.T.row (E.T.after (ctx ++ pre))
  have hdraw : drawDist E graphS sp qrow = E.softmax sp qrow := by
    unfold drawDist
    split
    · rename_i hg
      rw [hraw hg]
    · rfl
  let slot := roundSlot E B sp graphS ctx st.base st.round (st.seen ++ st.out) pre
  have hmatched : slot.Matched (scatterTrim E (E.softmax sp qrow)) (scatterTrim_nonneg E _)
      (argmax prow) := by
    have hprob : ∀ i, slot.draw.prob i = (E.softmax sp qrow).prob i :=
      fun i => congrArg (fun d : Pmf => d.prob i) hdraw
    refine ⟨fun i _ => ?_, fun i j hi hj hij => ?_, fun i hi => ?_, fun y hy => ?_, fun i hi => ?_, rfl⟩
    · show discards E st.base pre.length qrow i = false
      simp [discards, not_lt.2 hp]
    · rw [hprob] at hi hj
      exact mapDraft_inj hmap qrow hi hj hij
    · rw [hprob] at hi ⊢
      exact scatterTrim_mapDraft hmap qrow hi
    · refine scatterTrim_off qrow fun i hi => hy i ?_
      rwa [hprob]
    · rw [hprob] at hi ⊢
      exact acceptBias_eq ((E.softmax sp prow).nonneg _)
        (lt_of_le_of_ne ((E.softmax sp qrow).nonneg i) (Ne.symm hi))
  exact hmatched.balanced

/-- The distribution of a row of two logits at base 2, for the rows of the example. -/
def coinSoftmax (row : Row) : Pmf :=
  if row = [1, 0] then Pmf.two (2 / 3) (by norm_num) (by norm_num)
  else Pmf.two (1 / 2) (by norm_num) (by norm_num)

/-- A trunk that always gives two tokens the same logit, under a p-min of one half. -/
def coinEngine : SpecEngine (List Tok) (List Tok) where
  T := { listTrunk with logits := fun _ => [0, 0] }
  dVocab := 2
  d2t := none
  softmax _ := coinSoftmax
  headProb row i := (coinSoftmax row).prob i
  pMin := 1 / 2

def coinSampling : SpecSampling := { temp := 1, seed := 0 }

/-- A sampled burst whose drafter prefers token 0 at its second position. -/
def coinBurst : Burst where
  suffix := [0]
  maxNew := 2
  k := 2
  sampling := some coinSampling
  head _ _ draft := if draft = [] then [0, 0] else [1, 0]

theorem coinRow (s : List Tok) : coinSoftmax (coinEngine.T.row s) =
    Pmf.two (1 / 2) (by norm_num) (by norm_num) := by
  have hne : coinEngine.T.row s ≠ [1, 0] := by
    show ([(0 : ℚ), 0].map WithBot.some : Row) ≠ [1, 0]
    decide
  rw [coinSoftmax, if_neg hne]

end Memra
