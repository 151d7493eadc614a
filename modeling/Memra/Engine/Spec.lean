import Memra.Engine.Constraint
import Memra.Lib.Draw

/-!
# Speculative decoding

`generate_spec_inner2` of `spec.rs` with its callers and the session operations around it, over
the trunk model. A burst opens (`openBurst`: entry checks, prime, first token, checkpoint, init
feed), runs rounds (`round`: draft a chain, verify it in one batched forward, accept, cut by the
grammar, commit or roll back) while the caller's verdict and the budget allow, and leaves the
session by `closeBurst`. The drafter is the parameter `head`: the raw draft-head row at each chain
position. Every random draw goes through `Lib.Prog` under the stream counters `sctr` and `uctr`.

The draft KV (`scratch`), the greedy draft graph and the telemetry decide no token and are not
modelled; of the sampled draft graph only what it draws from is.
-/

namespace Memra

open Lib

/-- `SpecSampling`, without penalties. -/
structure SpecSampling where
  temp : ℚ
  seed : ℕ
  topK : ℤ := 0
  topP : ℚ := 1
  minP : ℚ := 0
  deriving DecidableEq

/-- The pure-temperature setting of a request: no filter. -/
def SpecSampling.raw (sp : SpecSampling) : SpecSampling := { sp with topK := 0, topP := 1, minP := 0 }

/-- `pure_temp`. -/
def SpecSampling.pureTemp (sp : SpecSampling) : Bool := sp.topK = 0 && 1 ≤ sp.topP && sp.minP ≤ 0

/-- The key of a captured sampled draft graph, `s_key`. -/
abbrev SKey := ℕ × ℚ × ℕ

/-- The sampled half of `DraftGraphCtx`. -/
structure DraftGraphCtx where
  graphS : Option SKey := none
  failedS : Bool := false
  deriving DecidableEq

/-- `SpecCheckpoint`: the prompt-end boundary a later turn can rewind to. -/
structure SpecCheckpoint (σ η : Type) where
  snap : Cache σ
  pos : ℕ
  lastH : η

/-- `SpecSession`. -/
structure SpecSession (σ η : Type) where
  cache : Cache σ
  committed : List Tok := []
  lastH : Option η := none
  nextPred : Option Tok := none
  sctr : ℕ := 0
  uctr : ℕ := 0
  draftCtx : Option DraftGraphCtx := none
  pendingTok : Option Tok := none
  turnCkpt : Option (SpecCheckpoint σ η) := none

/-- The engine: the trunk, the draft head's vocabulary, the process-wide settings, and the
distribution `softmax sp row` that temperature and filters make of a row. -/
structure SpecEngine (σ η : Type) where
  T : Trunk σ η
  dVocab : ℕ
  d2t : Option (List Tok)
  softmax : SpecSampling → Row → Pmf
  headProb : Row → ℕ → ℚ
  specReplay : Bool := false
  graphDraft : Bool := true
  pMin : ℚ := 0
  pmin0 : Bool := false
  adapt : Bool := false
  adaptFloor : ℕ := 1
  adaptFloorPinned : Bool := false
  floorCtx : ℕ := 1024
  capMax : ℕ := 7

/-- One burst call. `head round toks draft` is the raw draft-head row of a chain position, after all
tokens of the session so far; `onCommit` the continue-verdict on the slices handed out so far. -/
structure Burst where
  suffix : List Tok
  maxNew : ℕ
  k : ℕ
  sampling : Option SpecSampling := none
  head : ℕ → List Tok → List Tok → Row
  onCommit : List (List Tok) → Bool := fun _ => true
  captureOk : Bool := true
  ckptOk : Bool := true
  k_pos : 1 ≤ k := by decide

/-- What a burst refuses. -/
inductive SpecErr
  | greedyOnly
  | noReplay
  | notPrimed
  | needsCarry
  | constraint (tok : Tok)
  | initLogits
  deriving DecidableEq

/-- The texts of the refusals; the grammar's own text under `constraint` is the hook's. -/
def SpecErr.message : SpecErr → String
  | .greedyOnly => "constrained spec decode is greedy-only (worker routes sampled " ++
      "constrained to plain decode)"
  | .noReplay => "constrained spec decode does not support MEMRA_SPEC_REPLAY=1 " ++
      "(legacy replay commits an unmasked bonus)"
  | .notPrimed => "empty-suffix continuation needs a primed session " ++
      "(committed + last_h + next_pred|pending)"
  | .needsCarry => "constrained spec continuation requires a carried pending " ++
      "(pool resume is unconstrained-only)"
  | .constraint _ => "constraint: "
  | .initLogits => "constraint: init logits missing (round-0 cut)"

/-- A `u32` counter after one more draw. -/
def bump (ctr : ℕ) : ℕ := (ctr + 1) % 2 ^ 32

namespace Burst

/-- The sampling of a sampled burst (`temp > 0`). -/
def sampled (B : Burst) : Option SpecSampling := B.sampling.filter fun sp => 0 < sp.temp

end Burst

section
variable {σ η γ : Type}

/-! ## Session operations -/

/-- `new_session`. -/
def newSession (T : Trunk σ η) : SpecSession σ η := { cache := { st := T.init, pos := 0 } }

/-- `spec_rewind_to_checkpoint`; `none` leaves the session as it is (no checkpoint). -/
def specRewindToCheckpoint (s : SpecSession σ η) : SpecSession σ η :=
  match s.turnCkpt with
  | none => s
  | some ckpt =>
    { s with
      cache := ckpt.snap
      committed := s.committed.take ckpt.pos
      lastH := some ckpt.lastH
      nextPred := none
      pendingTok := none
      turnCkpt := none }

/-- `spec_flush_pending`: commit a carried bonus by one trunk step. -/
def specFlushPending (T : Trunk σ η) (s : SpecSession σ η) : SpecSession σ η :=
  match s.pendingTok with
  | none => s
  | some b =>
    let cache := s.cache.feed T [b]
    { s with
      cache
      committed := s.committed ++ [b]
      lastH := some (T.hidden cache.st)
      nextPred := some (T.pred cache.st)
      pendingTok := none }

/-! ## The draft chain -/

/-- What a chain has drafted: the target ids, and when sampled the draft-vocab ids and the rows
they were drawn from. -/
structure Chain (γ : Type) where
  draft : List Tok := []
  idx : List ℕ := []
  rows : List Row := []
  sctr : ℕ
  gram : Option (SpecGrammar γ)
  live : Bool

/-- The draft mask of the next position, and whether masking goes on. -/
def draftMask (E : SpecEngine σ η) (ch : Chain γ) : Option (List Bool) :=
  match ch.live, ch.gram with
  | true, some g => uploadDraftMask g E.d2t E.dVocab
  | _, _ => none

/-- The draft-head row under the mask. -/
def maskedRow (mask : Option (List Bool)) (row : Row) : Row :=
  match mask with
  | some buf => applyMask (fun i => buf.getD i false) row
  | none => row

/-- The draft vocabulary to target ids. -/
def mapDraft (E : SpecEngine σ η) (idx : ℕ) : Tok :=
  match E.d2t with
  | some map => map.getD idx 0
  | none => idx

/-- What a sampled chain draws from: the captured graph samples the raw softmax. -/
def drawDist (E : SpecEngine σ η) (graphS : Bool) (sp : SpecSampling) (row : Row) : Pmf :=
  E.softmax (if graphS then sp.raw else sp) row

/-- The draft head's pick from a row, with the draw counter after it. -/
def propose (E : SpecEngine σ η) (B : Burst) (graphS : Bool) (sctr : ℕ) (row : Row) :
    Prog (ℕ × ℕ) :=
  match B.sampled with
  | some sp => do
    let idx ← Prog.pick sctr (drawDist E graphS sp row)
    pure (idx, bump sctr)
  | none => pure (argmax row, sctr)

/-- The p-min gate at chain position `j` of a round with `base` pending tokens. -/
def discards (E : SpecEngine σ η) (base j : ℕ) (row : Row) (idx : ℕ) : Bool :=
  0 < E.pMin && E.headProb row idx < E.pMin && (0 < j || (E.pmin0 && base == 1))

/-- The chain, at most `n` more positions. -/
def draftChain (E : SpecEngine σ η) (B : Burst) (graphS : Bool) (base round : ℕ) (toks : List Tok) :
    ℕ → Chain γ → Prog (Chain γ)
  | 0, ch => pure ch
  | n + 1, ch => do
    let mask := draftMask E ch
    let row := maskedRow mask (B.head round toks ch.draft)
    let (idx, sctr) ← propose E B graphS ch.sctr row
    let d := mapDraft E idx
    let ch := { ch with
      live := mask.isSome
      sctr
      idx := if B.sampled.isSome then ch.idx ++ [idx] else ch.idx
      rows := if B.sampled.isSome then ch.rows ++ [row] else ch.rows }
    if discards E base ch.draft.length row idx then pure ch
    else
      let ch := { ch with draft := ch.draft ++ [d] }
      match ch.live, ch.gram with
      | true, some g =>
        match g.draftAdvance d with
        | (true, g) => draftChain E B graphS base round toks n { ch with gram := some g }
        | (false, g) => pure { ch with gram := some g }
      | _, _ => draftChain E B graphS base round toks n ch

/-! ## Acceptance -/

/-- The state of the round loop; `seen` are the session's tokens before `out`. -/
structure RoundState (σ η γ : Type) where
  cache : Cache σ
  seen : List Tok
  out : List Tok
  calls : List (List Tok)
  flushed : ℕ
  keepGoing : Bool
  pending : Option Tok
  lastPred : Tok
  lastCol : Option Row
  initLogits : Option Row
  fillPrev : η
  sctr : ℕ
  uctr : ℕ
  kc : ℕ
  round : ℕ
  gram : Option (SpecGrammar γ)

/-- `base`: the pending bonus rides as verify column 0. -/
def RoundState.base (st : RoundState σ η γ) : ℕ := if st.pending.isSome then 1 else 0

/-- `t_pred`: the target's prediction for the slot of `draft[j]`. -/
def tPred (base : ℕ) (lastPred : Tok) (preds : List Tok) (j : ℕ) : Tok :=
  if j = 0 ∧ base = 0 then lastPred else preds.getD (base + j - 1) 0

/-- The target row of the slot of `draft[j]`. -/
def tRow (base : ℕ) (lastCol : Row) (rows : List Row) (j : ℕ) : Row :=
  if j = 0 ∧ base = 0 then lastCol else rows.getD (base + j - 1) []

/-- The greedy accept walk: the longest drafted prefix that `pred` agrees with. -/
def acceptGreedy (pred : ℕ → Tok) : ℕ → List Tok → ℕ
  | _, [] => 0
  | j, d :: ds => if pred j = d then acceptGreedy pred (j + 1) ds + 1 else 0

/-- The probability that `u * q < p` for a uniform `u`. -/
def acceptBias (p q : ℚ) : Bias :=
  if q ≤ 0 then (if 0 < p then ⟨1, by norm_num⟩ else ⟨0, by norm_num⟩)
  else ⟨max 0 (min 1 (p / q)), le_max_left _ _, max_le (by norm_num) (min_le_left _ _)⟩

/-- The rejection walk from chain position `j`: accept `draft[j]` at `u * q < p`. -/
def acceptSampled (E : SpecEngine σ η) (sp : SpecSampling) (row : ℕ → Row) :
    ℕ → ℕ → List (Tok × ℕ × Row) → Prog (ℕ × ℕ)
  | j, uctr, [] => pure (j, uctr)
  | j, uctr, (d, i, qrow) :: rest => do
    let ok ← Prog.flip uctr (acceptBias ((E.softmax sp (row j)).prob d) ((E.softmax sp qrow).prob i))
    if ok then acceptSampled E sp row (j + 1) (bump uctr) rest else pure (j, bump uctr)

/-- `scatter_trim_logits`: the draft distribution over target ids. -/
def scatterTrim (E : SpecEngine σ η) (q : Pmf) (t : Tok) : ℚ :=
  match E.d2t with
  | some map => (map.findIdx? (· = t)).elim 0 q.prob
  | none => q.prob t

theorem scatterTrim_nonneg (E : SpecEngine σ η) (q : Pmf) (t : Tok) : 0 ≤ scatterTrim E q t := by
  unfold scatterTrim
  split
  · cases List.findIdx? _ _ with
    | none => exact le_rfl
    | some i => exact q.nonneg i
  · exact q.nonneg t

/-- `residual_sample_filtered`: the resampling distribution at a rejected slot. -/
def residualDist (E : SpecEngine σ η) (sp : SpecSampling) (prow qrow : Row) : Pmf :=
  Pmf.residual (E.softmax sp prow) (scatterTrim E (E.softmax sp qrow))
    (scatterTrim_nonneg E _) (argmax prow)

/-- The accept walk and the bonus of one round, with the counters after it. -/
def accept (E : SpecEngine σ η) (B : Burst) (st : RoundState σ η γ) (rows : List Row)
    (ch : Chain γ) : Prog (ℕ × Tok × ℕ × ℕ) :=
  match B.sampled with
  | none =>
    let pred := tPred st.base st.lastPred (rows.map argmax)
    let nAcc := acceptGreedy pred 0 ch.draft
    pure (nAcc, pred nAcc, ch.sctr, st.uctr)
  | some sp => do
    let row := tRow st.base (st.lastCol.getD []) rows
    let (nAcc, uctr) ← acceptSampled E sp row 0 st.uctr (ch.draft.zip (ch.idx.zip ch.rows))
    let bonus ← Prog.pick ch.sctr
      (if nAcc = ch.draft.length then E.softmax sp (row nAcc)
       else residualDist E sp (row nAcc) (ch.rows.getD nAcc []))
    pure (nAcc, bonus, bump ch.sctr, uctr)

/-- The accepted drafts that the grammar lets through, from position `j`, and whether it cut. -/
def grammarWalk : ℕ → SpecGrammar γ → List Tok → Except SpecErr (ℕ × Bool × SpecGrammar γ)
  | j, g, [] => .ok (j, false, g)
  | j, g, d :: ds =>
    if g.isAllowed d then
      match g.consume d with
      | some g => grammarWalk (j + 1) g ds
      | none => .error (.constraint d)
    else .ok (j, true, g)

/-- The target row of the slot after `na` accepted drafts. -/
def cutRow (st : RoundState σ η γ) (rows : List Row) (na : ℕ) : Except SpecErr Row :=
  if na = 0 ∧ st.base = 0 then
    match st.initLogits with
    | some row => .ok row
    | none => .error .initLogits
  else .ok (rows.getD (st.base + na - 1) [])

/-- Grammar truncation: cut at the first illegal accepted token, and replace the bonus of a cut
slot, or an illegal bonus, by the masked argmax of the slot's own column. -/
def grammarTruncate (st : RoundState σ η γ) (rows : List Row) (g : SpecGrammar γ)
    (draft : List Tok) (nAcc : ℕ) (bonus : Tok) : Except SpecErr (ℕ × Tok × SpecGrammar γ) :=
  match grammarWalk 0 g (draft.take nAcc) with
  | .error e => .error e
  | .ok (na, cut, g) =>
    let bo : Except SpecErr Tok :=
      if cut || !g.isAllowed bonus then
        (cutRow st rows na).map fun row => argmax (g.maskLogits row)
      else .ok bonus
    match bo with
    | .error e => .error e
    | .ok bo =>
      match g.consume bo with
      | some g => .ok (na, bo, g)
      | none => .error (.constraint bo)

/-! ## Commit and roll back -/

/-- `flush_commit`: hand out what was not yet handed out and take the verdict. -/
def flushCommit (B : Burst) (st : RoundState σ η γ) : RoundState σ η γ :=
  let calls := st.calls ++ [st.out.drop st.flushed]
  { st with calls, flushed := st.out.length, keepGoing := B.onCommit calls }

/-- What a round appends to `out`: a single-shot call stops at `max_new`. -/
def emit (B : Burst) (sessionMode : Bool) (out draft : List Tok) (bonus : Tok) : List Tok :=
  if sessionMode then out ++ draft ++ [bonus]
  else
    let out := out ++ draft.take (B.maxNew - out.length)
    if out.length < B.maxNew then out ++ [bonus] else out

/-- Full accept: every verify column is committed, the bonus stays pending. -/
def commitFull (E : SpecEngine σ η) (st : RoundState σ η γ) (cols : List σ) (cache : Cache σ)
    (bonus : Tok) : RoundState σ η γ :=
  { st with
    cache
    fillPrev := (cols.getLast?.map E.T.hidden).getD st.fillPrev
    pending := some bonus }

/-- Partial accept, replay-free: `commit_verified_prefix` truncates the rows to the first `j`
columns and rebuilds the recurrent state of column `j - 1`; the bonus stays pending. -/
def commitVerifiedPrefix (E : SpecEngine σ η) (st : RoundState σ η γ) (cols : List σ) (j : ℕ)
    (bonus : Tok) : RoundState σ η γ :=
  { st with
    cache := { st := (cols[j - 1]?).getD st.cache.st, pos := st.cache.pos + j }
    fillPrev := ((cols[j - 1]?).map E.T.hidden).getD st.fillPrev
    pending := some bonus }

/-- Zero-round fold: back to the snapshot, the bonus rides the next verify. -/
def commitFold (st : RoundState σ η γ) (bonus : Tok) : RoundState σ η γ :=
  { st with pending := some bonus }

/-- Legacy replay: back to the snapshot, then the committed prefix and the bonus in one forward. -/
def commitReplay (E : SpecEngine σ η) (B : Burst) (st : RoundState σ η γ) (accepted : List Tok)
    (bonus : Tok) : RoundState σ η γ :=
  let cache := st.cache.feed E.T (st.pending.toList ++ accepted ++ [bonus])
  { st with
    cache
    lastPred := E.T.pred cache.st
    lastCol := if B.sampled.isSome then some (E.T.row cache.st) else st.lastCol
    fillPrev := E.T.hidden cache.st
    pending := none }

/-- The commit arm of a round. `st.cache` is the snapshot before the verify, `cols` the states of
the verify columns and `cache` the cache after it. -/
def commitArm (E : SpecEngine σ η) (B : Burst) (st : RoundState σ η γ) (cols : List σ)
    (cache : Cache σ) (draft : List Tok) (nAcc : ℕ) (bonus : Tok) : RoundState σ η γ :=
  if nAcc = draft.length then commitFull E st cols cache bonus
  else if E.specReplay = false ∧ 1 ≤ st.base + nAcc then
    commitVerifiedPrefix E st cols (st.base + nAcc) bonus
  else if E.specReplay = false then commitFold st bonus
  else commitReplay E B st (draft.take nAcc) bonus

/-- `floor_at`. -/
def floorAt (E : SpecEngine σ η) (pos : ℕ) : ℕ :=
  if E.adaptFloorPinned || pos < E.floorCtx then E.adaptFloor
  else if 4 ≤ E.adaptFloor then 1
  else E.adaptFloor

/-- `k_cap`. -/
def kCap (E : SpecEngine σ η) (B : Burst) : ℕ := max (min B.k E.capMax) 1

/-- The adaptive depth after a round that accepted `nAcc`. -/
def nextDepth (E : SpecEngine σ η) (B : Burst) (pos nAcc : ℕ) : ℕ :=
  max (min (floorAt E pos) (kCap E B)) (min (nAcc + 1) (kCap E B))

/-- How a round is settled: accepted drafts, bonus, counters and grammar state. -/
structure Settled (γ : Type) where
  nAcc : ℕ
  bonus : Tok
  sctr : ℕ
  uctr : ℕ
  gram : Option (SpecGrammar γ)

/-- Acceptance, then the grammar's cut. -/
def settle (E : SpecEngine σ η) (B : Burst) (st : RoundState σ η γ) (rows : List Row)
    (ch : Chain γ) : Prog (Except SpecErr (Settled γ)) := do
  let (nAcc, bonus, sctr, uctr) ← accept E B st rows ch
  match ch.gram with
  | none => pure (.ok { nAcc, bonus, sctr, uctr, gram := none })
  | some g => pure <| (grammarTruncate st rows g ch.draft nAcc bonus).map fun (nAcc, bonus, g) =>
      { nAcc, bonus, sctr, uctr, gram := some g }

/-- The end of a round: commit, adapt the depth, hand out. -/
def finishRound (E : SpecEngine σ η) (B : Burst) (sessionMode : Bool) (st : RoundState σ η γ)
    (draft : List Tok) (a : Settled γ) : RoundState σ η γ :=
  let verifyTokens := st.pending.toList ++ draft
  let out := emit B sessionMode st.out (draft.take a.nAcc) a.bonus
  let st := commitArm E B st (E.T.cols st.cache.st verifyTokens)
    (st.cache.feed E.T verifyTokens) draft a.nAcc a.bonus
  flushCommit B { st with
    out
    sctr := a.sctr
    uctr := a.uctr
    gram := a.gram
    kc := if E.adapt then nextDepth E B st.cache.pos a.nAcc else st.kc
    round := st.round + 1 }

/-- The draft phase of a round. -/
def draftRound (E : SpecEngine σ η) (B : Burst) (graphS : Bool) (st : RoundState σ η γ) :
    Prog (Chain γ) :=
  let masking := st.gram.any (·.on)
  let gram := if masking then st.gram.map (·.draftBegin) else st.gram
  draftChain E B graphS st.base st.round (st.seen ++ st.out) (if E.adapt then st.kc else B.k)
    { sctr := st.sctr, gram, live := masking }

/-- One round: draft, verify in one batched forward, settle, finish. -/
def round (E : SpecEngine σ η) (B : Burst) (sessionMode graphS : Bool) (st : RoundState σ η γ) :
    Prog (Except SpecErr (RoundState σ η γ)) := do
  let ch ← draftRound E B graphS st
  let rows := (E.T.cols st.cache.st (st.pending.toList ++ ch.draft)).map E.T.row
  (settle E B st rows ch).andThen fun a => pure (.ok (finishRound E B sessionMode st ch.draft a))

/-- The round loop; `fuel` bounds the number of rounds. -/
def roundLoop (E : SpecEngine σ η) (B : Burst) (sessionMode graphS : Bool) :
    ℕ → RoundState σ η γ → Prog (Except SpecErr (RoundState σ η γ))
  | 0, st => pure (.ok st)
  | fuel + 1, st =>
    if st.keepGoing ∧ st.out.length < B.maxNew then
      (round E B sessionMode graphS st).andThen (roundLoop E B sessionMode graphS fuel)
    else pure (.ok st)

/-! ## A burst -/

/-- The round loop's first state: `out` is already emitted, `cache` holds what was fed, `fillPrev`
is the hidden row of its last row. -/
def startRounds (E : SpecEngine σ η) (B : Burst) (s : SpecSession σ η) (out : List Tok)
    (gram : Option (SpecGrammar γ)) (cache : Cache σ) (fillPrev : η) : RoundState σ η γ :=
  flushCommit B
    { cache, seen := s.committed ++ B.suffix ++ s.pendingTok.toList, out, calls := [], flushed := 0, keepGoing := true
      pending := s.pendingTok
      lastPred := if s.pendingTok = none then E.T.pred cache.st else 0
      lastCol := if s.pendingTok = none ∧ B.sampled.isSome then some (E.T.row cache.st) else none
      initLogits := if s.pendingTok = none ∧ gram.isSome then some (E.T.row cache.st) else none
      fillPrev
      sctr := s.sctr, uctr := s.uctr
      kc := kCap E B, round := 0, gram }

/-- The first token of a burst without a carry: the stashed prediction of a continuation, else the
argmax of the (masked) logits at the prompt's end. -/
def firstTok (E : SpecEngine σ η) (B : Burst) (s : SpecSession σ η) (gram : Option (SpecGrammar γ)) :
    Tok :=
  if B.suffix = [] then s.nextPred.getD 0
  else
    let row := E.T.row (s.cache.feed E.T B.suffix).st
    argmax (match gram with
      | some g => g.maskLogits row
      | none => row)

/-- Entry to the round loop: checks, prime, first token and init feed. A carried bonus is the last
token without being emitted again, and rides round 0 as pending. -/
def openBurst (E : SpecEngine σ η) (B : Burst) (s : SpecSession σ η)
    (gram : Option (SpecGrammar γ)) : Except SpecErr (RoundState σ η γ) :=
  if gram.isSome ∧ E.specReplay then .error .noReplay
  else if B.suffix = [] ∧ ¬ (s.committed ≠ [] ∧ s.lastH.isSome ∧
      (s.nextPred.isSome ∨ s.pendingTok.isSome)) then .error .notPrimed
  else if gram.isSome ∧ B.suffix = [] ∧ s.pendingTok = none then .error .needsCarry
  else
    let cache := s.cache.feed E.T B.suffix
    match s.pendingTok with
    | some _ => .ok (startRounds E B s [] gram cache (s.lastH.getD (E.T.hidden cache.st)))
    | none =>
      let t := firstTok E B s gram
      let fed := cache.feed E.T [t]
      match gram with
      | none => .ok (startRounds E B s [t] none fed (E.T.hidden fed.st))
      | some g =>
        match g.consume t with
        | none => .error (.constraint t)
        | some g => .ok (startRounds E B s [t] (some g) fed (E.T.hidden fed.st))

/-- The turn checkpoint a burst leaves: a prompt end replaces it, a continuation keeps it. -/
def checkpoint (E : SpecEngine σ η) (B : Burst) (s : SpecSession σ η) :
    Option (SpecCheckpoint σ η) :=
  if B.suffix = [] then s.turnCkpt
  else if B.ckptOk then
    let cache := s.cache.feed E.T B.suffix
    some { snap := cache, pos := cache.pos, lastH := E.T.hidden cache.st }
  else none

/-- The sampled draft graph of a burst: a parked one is kept under its key, else captured. -/
def sampledGraph (E : SpecEngine σ η) (B : Burst) (s : SpecSession σ η) : DraftGraphCtx :=
  let d := s.draftCtx.getD {}
  match B.sampled with
  | none => d
  | some sp =>
    let key : SKey := (sp.seed, sp.temp, B.k)
    let d := if d.graphS.any (· ≠ key) then {} else d
    if E.graphDraft && B.k + 2 < 96 && sp.pureTemp && d.graphS.isNone && !d.failedS then
      if B.captureOk then { d with graphS := some key } else { d with failedS := true }
    else d

/-- The session tail: a greedy burst carries its pending bonus, a sampled one commits it. -/
def closeBurst (E : SpecEngine σ η) (B : Burst) (s : SpecSession σ η) (st : RoundState σ η γ) :
    SpecSession σ η :=
  let s' : SpecSession σ η := { s with
    sctr := st.sctr, uctr := st.uctr
    draftCtx := some (sampledGraph E B s)
    turnCkpt := checkpoint E B s }
  let committed := s.committed ++ B.suffix ++ s.pendingTok.toList
  match st.pending with
  | none =>
    { s' with
      cache := st.cache
      nextPred := some st.lastPred
      lastH := some st.fillPrev
      pendingTok := none
      committed := committed ++ st.out }
  | some b =>
    match B.sampled with
    | none =>
      { s' with
        cache := st.cache
        nextPred := none
        lastH := some st.fillPrev
        pendingTok := some b
        committed := committed ++ st.out.take (st.out.length - 1) }
    | some _ =>
      let cache := st.cache.feed E.T [b]
      { s' with
        cache
        nextPred := some (E.T.pred cache.st)
        lastH := some (E.T.hidden cache.st)
        pendingTok := none
        committed := committed ++ st.out }

/-- What a burst returns: the session after it, the tokens, the slices handed to `on_commit` and
the grammar. -/
structure BurstOut (σ η γ : Type) where
  sess : SpecSession σ η
  out : List Tok
  calls : List (List Tok)
  gram : Option (SpecGrammar γ)

/-- `generate_spec_inner2` on a session. -/
def generateSpecInner (E : SpecEngine σ η) (B : Burst) (sessionMode : Bool) (s : SpecSession σ η)
    (gram : Option (SpecGrammar γ)) : Prog (Except SpecErr (BurstOut σ η γ)) :=
  match openBurst E B s gram with
  | .error e => pure (.error e)
  | .ok st =>
    (roundLoop E B sessionMode (sampledGraph E B s).graphS.isSome B.maxNew st).andThen fun st =>
      let st := flushCommit B st
      pure (.ok { sess := closeBurst E B s st, out := st.out, calls := st.calls, gram := st.gram })

/-- `generate_spec_session_constrained`: flush a carried bonus that cannot ride, then burst. -/
def generateSpecSession (E : SpecEngine σ η) (B : Burst) (s : SpecSession σ η)
    (gram : Option (SpecGrammar γ)) : Prog (Except SpecErr (BurstOut σ η γ)) :=
  if gram.isSome ∧ B.sampled.isSome then pure (.error .greedyOnly)
  else
    let flush := s.pendingTok.isSome ∧ (B.suffix ≠ [] ∨ B.sampled.isSome)
    generateSpecInner E B true (if flush then specFlushPending E.T s else s) gram

/-- `generate_spec`: the single-shot call, on a session of its own, cut to `max_new`. -/
def generateSpec (E : SpecEngine σ η) (B : Burst) : Prog (Except SpecErr (List Tok)) :=
  (generateSpecInner (γ := Unit) E B false (newSession E.T) none).andThen fun r =>
    pure (.ok (r.out.take B.maxNew))

end

end Memra
