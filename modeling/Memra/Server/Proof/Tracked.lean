import Memra.Server.Proof.SessionStep
import Memra.Server.Proof.Admission
import Memra.Server.Proof.SpecResume

/-!
# What a session holds

`Stage T b G prompt w`: the session stands at one of four stages. It is feeding its prompt, decoding from a plain
cache, decoding from a captured graph, or speculating; at each the cache holds exactly the tokens fed, these with
the queue are the prompt and the tokens generated, and the row or the prediction at hand is the one of that state.
`Served` adds what holds at every stage: which prompt is answered, and that a plainly greedy request (`G`) has
been given its greedy continuation. A session that has left is `Parkable`: what it leaves for the pools is as it
says.

The predicates are about `Session.work`, the session without its channel and text cursor. This file has the
emission and the steps of a plain cache; `TrackedSpec` has the speculative arm, the graph path and the hand-over.
-/

namespace Memra

open Lib

variable {σ η γ : Type}

/-! ## The predicates -/

/-- A session without its channel and what only the emission of text reads. -/
structure Work (σ η γ : Type) extends SessionInfo where
  cfg : SamplerConfig
  constraint : Option γ
  cache : Option (KvCache σ)
  spec : Option (SpecCaches σ η)
  graph : Option (GraphSession σ)
  graphPending : Option Tok
  lastLogits : Row
  deviceNext : Option Tok
  fed : List Tok
  prefillQueue : List Tok
  prefillDone : Bool
  generated : List Tok

def Session.work (s : Session σ η γ) : Work σ η γ where
  toSessionInfo := s.toSessionInfo
  cfg := s.sampler.cfg
  constraint := s.constraint
  cache := s.cache
  spec := s.spec
  graph := s.graph
  graphPending := s.graphPending
  lastLogits := s.lastLogits
  deviceNext := s.deviceNext
  fed := s.fed
  prefillQueue := s.prefillQueue
  prefillDone := s.prefillDone
  generated := s.generated

/-- A request that plain greedy decoding answers. -/
def ReplayPlan.Greedy (p : ReplayPlan) : Prop :=
  p.samplerCfg.isGreedy = true ∧ p.samplerCfg.noPen = true ∧ p.grammar = none

/-- A greedy sampler without penalties takes the argmax. -/
def Host.ArgmaxChain (H : Host σ η γ) : Prop :=
  ∀ smp row, smp.cfg.isGreedy = true → smp.cfg.noPen = true → row ≠ [] → H.chain smp row = argmax row

/-- The text of committed tokens, without a leading BOS. -/
def committedText (lm : LoadedModel σ η γ) (toks : List Tok) : String :=
  lm.decodeSpecial (toks.drop (if lm.bosId.isSome ∧ toks.head? = lm.bosId then 1 else 0))

/-- The tokens a request is answered on: its tokenized prompt, or parked tokens whose text its text goes on
from, and the rest tokenized. -/
def Prompted (lm : LoadedModel σ η γ) (p : ReplayPlan) (prompt : List Tok) : Prop :=
  promptOf lm p = .ok prompt ∨
    ∃ head rest, prompt = head ++ lm.encode rest false ∧ p.promptText = committedText lm head ++ rest

/-- The row at hand is the one behind `fed`, on the host, or on the device if it is kept at all. -/
def RowKept (T : Trunk σ η) (fed : List Tok) (row : Row) (dev : Option Row) : Prop :=
  row = T.row (T.after fed) ∨ row = [] ∧ ∀ r, dev = some r → r = T.row (T.after fed)

/-- A speculative session that holds what it counts as committed. -/
def SpecSound (T : Trunk σ η) (sess : SpecSession σ η) : Prop :=
  ∃ base log, SessionInv T ⟨sess, base, log⟩

/-- What holds of a session at every stage; `G` says that the request is plainly greedy. -/
structure Served (lm : LoadedModel σ η γ) (G : Prop) (prompt : List Tok) (w : Work σ η γ) : Prop where
  prompted : Prompted lm w.replay prompt
  nonempty : prompt ≠ []
  nPrompt : w.nPrompt = prompt.length
  nCached : w.nCached ≤ w.nPrompt
  plain : G → w.cfg.isGreedy = true ∧ w.cfg.noPen = true ∧ w.constraint = none
  greedy : G → w.generated = lm.E.T.greedy (lm.E.T.after prompt) w.generated.length

/-- The prompt is being fed. -/
structure Prefilling (T : Trunk σ η) (prompt : List Tok) (w : Work σ η γ) : Prop where
  spec : w.spec = none
  graph : w.graph = none
  cache : ∃ c, w.cache = some c ∧ c.Holds T w.fed
  done : w.prefillDone = false
  queue : w.prefillQueue ≠ []
  seq : w.fed ++ w.prefillQueue = prompt
  generated : w.generated = []
  device : w.deviceNext = none

/-- Tokens are decoded from a plain cache. -/
structure Decoding (T : Trunk σ η) (G : Prop) (prompt : List Tok) (w : Work σ η γ) : Prop where
  spec : w.spec = none
  graph : w.graph = none
  cache : ∃ c, w.cache = some c ∧ c.Holds T w.fed ∧ RowKept T w.fed w.lastLogits c.lastLogitsDev
  done : w.prefillDone = true
  queue : w.prefillQueue = []
  seq : w.fed = prompt ++ w.generated
  next : w.lastLogits = [] → w.deviceNext.isSome
  first : w.generated = [] → w.deviceNext = none
  greedy : G → ∀ t, w.deviceNext = some t → t = T.pred (T.after w.fed)

/-- The last token generated, `tok`, is yet to be fed. -/
structure Emitting (T : Trunk σ η) (prompt : List Tok) (tok : Tok) (w : Work σ η γ) : Prop where
  spec : w.spec = none
  graph : w.graph = none
  cache : ∃ c, w.cache = some c ∧ c.Holds T w.fed
  done : w.prefillDone = true
  queue : w.prefillQueue = []
  seq : w.fed ++ [tok] = prompt ++ w.generated
  device : w.deviceNext = none
  begun : w.generated ≠ []

/-- Tokens are decoded from a captured graph. -/
structure Graphing (T : Trunk σ η) (G : Prop) (prompt : List Tok) (g : GraphSession σ)
    (w : Work σ η γ) : Prop where
  spec : w.spec = none
  graph : w.graph = some g
  cache : w.cache = none
  pending : w.graphPending = some g.tok
  done : w.prefillDone = true
  queue : w.prefillQueue = []
  holds : g.cache.Holds T w.fed
  seq : w.fed = prompt ++ w.generated
  device : w.deviceNext = none
  greedy : G → g.mask = none ∧ g.tok = T.pred (T.after w.fed)

/-- Tokens come in speculative bursts; the first primes what is queued. -/
structure Specing (T : Trunk σ η) (prompt : List Tok) (caches : SpecCaches σ η) (w : Work σ η γ) : Prop where
  spec : w.spec = some caches
  graph : w.graph = none
  cache : w.cache = none
  sound : SpecSound T caches.sess
  seq : caches.sess.committed ++ caches.sess.pendingTok.toList ++ w.prefillQueue = prompt ++ w.generated
  fed : w.fed ++ w.prefillQueue = prompt.drop w.nCached ++ w.generated
  fresh : w.generated = [] → w.fed = [] ∧ caches.sess.pendingTok = none
  waiting : w.prefillQueue ≠ [] → w.generated = []
  device : w.deviceNext = none

/-- The stages; `b` says that the worker batches. -/
inductive Stage (T : Trunk σ η) (b : Bool) (G : Prop) (prompt : List Tok) (w : Work σ η γ) : Prop
  | prefilling (h : Prefilling T prompt w)
  | decoding (h : Decoding T G prompt w)
  | graphing {g : GraphSession σ} (hb : b = true) (h : Graphing T G prompt g w)
  | specing {caches : SpecCaches σ η} (h : Specing T prompt caches w)

/-- What a session that has left may leave to the pools. -/
structure Parkable (T : Trunk σ η) (w : Work σ η γ) : Prop where
  plain : w.spec = none → w.prefillDone = true → ∀ c, w.cache = some c →
    c.Holds T w.fed ∧ RowKept T w.fed w.lastLogits c.lastLogitsDev
  spec : ∀ caches, w.spec = some caches → SpecSound T caches.sess

theorem Stage.parkable {T : Trunk σ η} {b : Bool} {G : Prop} {prompt : List Tok} {w : Work σ η γ}
    (h : Stage T b G prompt w) : Parkable T w := by
  cases h with
  | prefilling h =>
    exact ⟨fun _ hdone => absurd (hdone.symm.trans h.done) (by simp),
      fun caches hs => absurd (h.spec.symm.trans hs) (by simp)⟩
  | decoding h =>
    obtain ⟨c, hc, hrow⟩ := h.cache
    refine ⟨fun _ _ c' hc' => ?_, fun caches hs => absurd (h.spec.symm.trans hs) (by simp)⟩
    obtain rfl := Option.some.inj (hc.symm.trans hc')
    exact hrow
  | graphing hb h =>
    exact ⟨fun _ _ c hc => absurd (h.cache.symm.trans hc) (by simp),
      fun caches hs => absurd (h.spec.symm.trans hs) (by simp)⟩
  | specing h =>
    refine ⟨fun hs => absurd (h.spec.symm.trans hs) (by simp), fun caches hs => ?_⟩
    obtain rfl := Option.some.inj (h.spec.symm.trans hs)
    exact h.sound

/-! ## Emission -/

namespace Session

variable (hung : ℕ → ℕ → Bool) (H : Host σ η γ) (lm : LoadedModel σ η γ) (cfg : Config)
  (env : VisitEnv σ η)

@[simp] theorem finish_work (s : Session σ η γ) (r : StopReason) : (s.finish hung r).work = s.work := rfl

@[simp] theorem sendError_work (s : Session σ η γ) (m : String) : (s.sendError hung m).work = s.work := rfl

@[simp] theorem send_work (s : Session σ η γ) (ev : Event) : (s.send hung ev).2.work = s.work := rfl

@[simp] theorem settle_work (pre : String) (r : Stepped σ η γ) : (settle hung pre r).1.work = r.s.work := by
  unfold settle
  split <;> rfl

theorem settle_none {pre : String} {r : Stepped σ η γ} (h : (settle hung pre r).2 = none) :
    r.stop = .goOn := by
  unfold settle at h
  split at h
  · next hstop => exact hstop
  · cases h
  · cases h

theorem stopBattery_work (guard : Bool) (s : Session σ η γ) :
    (s.stopBattery hung lm guard).s.work = s.work := by
  unfold stopBattery
  split
  · rfl
  · split <;> rfl

/-- An emission generates the token and advances the grammar. -/
theorem emitNext_work (guard : Bool) (next : Tok) (s : Session σ η γ) :
    ∃ c, (s.constraint = none → c = none) ∧ (s.emitNext hung lm env guard next).s.work =
      { s.work with generated := s.generated ++ [next], constraint := c } := by
  unfold emitNext
  extract_lets s₁
  split
  · exact ⟨s.constraint, id, rfl⟩
  · split
    · exact ⟨s.constraint, id, rfl⟩
    · next c hc =>
      refine ⟨c, fun hnone => ?_, ?_⟩
      · have hs₁ : s₁.constraint = none := hnone
        rw [hs₁] at hc
        exact (Option.some.inj hc).symm
      · simp only
        split
        · rw [stopBattery_work]
          rfl
        · rfl

theorem drawNext_work (s : Session σ η γ) :
    (s.drawNext H lm env).2.work = { s.work with deviceNext := none } := by
  unfold drawNext
  split
  · rfl
  · split <;> rfl
  · rfl

/-- What a draw and its emission do. -/
theorem drawEmit_work (s : Session σ η γ) :
    ((s.drawEmit hung H lm env).2 = none ∧ (s.drawEmit hung H lm env).1.stop ≠ .goOn ∧
      ((s.drawEmit hung H lm env).1.s.work = s.work ∨
        (s.drawEmit hung H lm env).1.s.work = { s.work with deviceNext := none })) ∨
    ∃ next c, (s.drawNext H lm env).1 = .ok next ∧ (s.drawEmit hung H lm env).2 = some next ∧
      (s.constraint = none → c = none) ∧
      (s.drawEmit hung H lm env).1.s.work =
        { s.work with deviceNext := none, generated := s.generated ++ [next], constraint := c } := by
  unfold drawEmit
  split
  · exact .inl ⟨rfl, by simp, .inl rfl⟩
  · have hwork := drawNext_work H lm env s
    split
    · next err s' h =>
      rw [h] at hwork
      exact .inl ⟨rfl, by simp, .inr hwork⟩
    · next next s' h =>
      rw [h] at hwork
      have hcon : s'.constraint = s.constraint := congrArg Work.constraint hwork
      have hgen : s'.generated = s.generated := congrArg Work.generated hwork
      obtain ⟨c, hc, he⟩ := emitNext_work hung lm env true next s'
      refine .inr ⟨next, c, by rw [h], rfl, fun hnone => hc (hcon.trans hnone), ?_⟩
      rw [he, hwork, hgen]

/-- A plainly greedy session draws the prediction of what it has fed. -/
theorem drawNext_greedy {s : Session σ η γ} {prompt : List Tok} {G : Prop} {next : Tok}
    (hchain : H.ArgmaxChain) (h : Decoding lm.E.T G prompt s.work) (hs : Served lm G prompt s.work)
    (hG : G) (hnext : (s.drawNext H lm env).1 = .ok next) : next = lm.E.T.pred (lm.E.T.after s.fed) := by
  obtain ⟨hgreedy, hnopen, hcon⟩ := hs.plain hG
  have hcon : s.constraint = none := hcon
  unfold drawNext at hnext
  split at hnext
  · next t ht =>
    obtain rfl := Except.ok.inj hnext
    exact h.greedy hG t ht
  · next c _ hc => exact absurd (hcon.symm.trans hc) (by simp)
  · next hdev hnone =>
    obtain rfl := Except.ok.inj hnext
    obtain ⟨c, -, -, hrow⟩ := h.cache
    have hne : s.lastLogits ≠ [] := fun hnil => by
      have hsome : s.deviceNext.isSome := h.next hnil
      rw [hdev] at hsome
      cases hsome
    rcases hrow with hrow | ⟨hnil, -⟩
    · change H.chain s.sampler s.lastLogits = _
      rw [hchain s.sampler s.lastLogits hgreedy hnopen hne]
      exact congrArg argmax hrow
    · exact absurd hnil hne

end Session

theorem Served.emit {lm : LoadedModel σ η γ} {G : Prop} {prompt : List Tok} {w w' : Work σ η γ} {next : Tok}
    {c : Option γ} (h : Served lm G prompt w) (hw : w' = { w with
      deviceNext := w'.deviceNext, generated := w.generated ++ [next], constraint := c })
    (hc : w.constraint = none → c = none)
    (hnext : G → next = lm.E.T.pred (lm.E.T.after (prompt ++ w.generated))) : Served lm G prompt w' := by
  rw [hw]
  refine ⟨h.prompted, h.nonempty, h.nPrompt, h.nCached, fun hG => ?_, fun hG => ?_⟩
  · obtain ⟨hgreedy, hnopen, hcon⟩ := h.plain hG
    exact ⟨hgreedy, hnopen, hc hcon⟩
  · change w.generated ++ [next] = _
    rw [List.length_append, List.length_singleton, Trunk.greedy_succ, ← h.greedy hG, hnext hG,
      lm.E.T.after_append]

theorem Served.congr {lm : LoadedModel σ η γ} {G : Prop} {prompt : List Tok} {w w' : Work σ η γ}
    (h : Served lm G prompt w) (hinfo : w'.toSessionInfo = w.toSessionInfo) (hcfg : w'.cfg = w.cfg)
    (hcon : w'.constraint = w.constraint) (hgen : w'.generated = w.generated) :
    Served lm G prompt w' := by
  refine ⟨?_, h.nonempty, ?_, ?_, fun hG => ?_, fun hG => ?_⟩
  · exact (congrArg SessionInfo.replay hinfo) ▸ h.prompted
  · exact (congrArg SessionInfo.nPrompt hinfo).trans h.nPrompt
  · rw [hinfo]
    exact h.nCached
  · rw [hcfg, hcon]
    exact h.plain hG
  · rw [hgen]
    exact h.greedy hG

/-! ## The steps of a plain cache -/

section

variable {hung : ℕ → ℕ → Bool} {H : Host σ η γ} {lm : LoadedModel σ η γ} {cfg : Config}
  {env : VisitEnv σ η} {G : Prop} {prompt : List Tok} {s : Session σ η γ} {tok : Tok}

/-- A draw leaves a session whose token is yet to be fed, or ends it. -/
theorem Decoding.drawEmit (hchain : G → H.ArgmaxChain) (h : Decoding lm.E.T G prompt s.work)
    (hs : Served lm G prompt s.work) :
    let r := s.drawEmit hung H lm env
    Served lm G prompt r.1.s.work ∧ Parkable lm.E.T r.1.s.work ∧
      (r.1.stop = .goOn → ∃ next, r.2 = some next ∧ Emitting lm.E.T prompt next r.1.s.work) := by
  have hpark := (Stage.decoding (b := true) h).parkable
  intro r
  rcases Session.drawEmit_work hung H lm env s with ⟨-, hstop, hw⟩ | ⟨next, c, hnext, hr, hc, hw⟩
  · refine ⟨?_, ?_, fun hgo => absurd hgo hstop⟩
    · rcases hw with hw | hw
      · exact hw ▸ hs
      · exact hw ▸ hs.congr rfl rfl rfl rfl
    · rcases hw with hw | hw
      · exact hw ▸ hpark
      · exact hw ▸ ⟨hpark.plain, hpark.spec⟩
  · refine ⟨?_, hw ▸ ⟨hpark.plain, hpark.spec⟩, fun _ => ⟨next, hr, ?_⟩⟩
    · rw [hw]
      refine hs.emit rfl hc fun hG => ?_
      rw [Session.drawNext_greedy H lm env (hchain hG) h hs hG hnext]
      exact congrArg (fun fed => lm.E.T.pred (lm.E.T.after fed)) h.seq
    · rw [hw]
      obtain ⟨c, hc, hholds, -⟩ := h.cache
      refine ⟨h.spec, h.graph, ⟨c, hc, hholds⟩, h.done, h.queue, ?_, rfl, by simp⟩
      change s.fed ++ [next] = prompt ++ (s.generated ++ [next])
      have hseq : s.fed = prompt ++ s.generated := h.seq
      rw [hseq, List.append_assoc]

theorem KvCache.feed_holds {T : Trunk σ η} {c : KvCache σ} {fed : List Tok} (h : c.Holds T fed)
    (toks : List Tok) : (c.feed T toks).Holds T (fed ++ toks) :=
  Cache.Holds.feed T h toks

/-- The row behind a feed. -/
theorem KvCache.feed_row {T : Trunk σ η} {c : KvCache σ} {fed : List Tok} (h : c.Holds T fed)
    (toks : List Tok) : T.row (c.feed T toks).st = T.row (T.after (fed ++ toks)) :=
  congrArg T.row (KvCache.feed_holds h toks).1

/-- A decode step feeds the token. -/
theorem Emitting.decodeStep (h : Emitting lm.E.T prompt tok s.work) (hs : Served lm G prompt s.work)
    (hf : (s.decodeStep lm env tok).faults = []) :
    (s.decodeStep lm env tok).stop = .goOn ∧ Served lm G prompt (s.decodeStep lm env tok).s.work ∧
      Decoding lm.E.T G prompt (s.decodeStep lm env tok).s.work := by
  obtain ⟨c, hc, hholds⟩ := h.cache
  have hc : s.cache = some c := hc
  unfold Session.decodeStep at hf ⊢
  simp only [hc] at hf ⊢
  split at hf
  · cases hf
  · refine ⟨rfl, hs.congr rfl rfl rfl rfl, h.spec, h.graph,
      ⟨_, rfl, KvCache.feed_holds hholds [tok], .inl (KvCache.feed_row hholds [tok])⟩, h.done, h.queue,
      h.seq, fun hnil => absurd hnil (row_ne_nil lm _), fun _ => h.device, fun _ t ht => ?_⟩
    exact absurd (h.device.symm.trans ht) (by simp)

/-- A plainly greedy row is drawn by its argmax. -/
theorem Session.rowMeta_greedy (hs : Served lm G prompt s.work) (hG : G) {m : ℚ × ℕ × ℕ}
    (hm : s.rowMeta cfg = some m) (row : Row) : deviceDraw lm m (s.maskedRow lm row) = argmax row := by
  obtain ⟨hgreedy, -, hcon⟩ := hs.plain hG
  have hcon : s.constraint = none := hcon
  have hgreedy : s.sampler.cfg.isGreedy = true := hgreedy
  have hmask : s.maskedRow lm row = row := by simp [Session.maskedRow, hcon]
  have hzero : m = (0, 0, 0) := by
    simp only [Session.rowMeta, hcon, Option.isSome_none, Bool.false_and, Bool.false_eq_true, if_false,
      Session.devsampleMeta] at hm
    split at hm
    · cases hm
    · exact (Option.some.inj hm).symm
  rw [hmask, hzero]
  simp [deviceDraw]

/-- A row of the batch feeds the token. -/
theorem Emitting.batchRow (h : Emitting lm.E.T prompt tok s.work) (hs : Served lm G prompt s.work) :
    Served lm G prompt (s.batchRow lm cfg tok).work ∧
      Decoding lm.E.T G prompt (s.batchRow lm cfg tok).work := by
  obtain ⟨c, hc, hholds⟩ := h.cache
  have hc : s.cache = some c := hc
  have hfeed := KvCache.feed_holds hholds [tok]
  have hrow := KvCache.feed_row hholds [tok]
  have hbegun : s.generated ≠ [] := h.begun
  unfold Session.batchRow
  simp only [hc]
  split
  · refine ⟨hs.congr rfl rfl rfl rfl, h.spec, h.graph, ⟨_, rfl, hfeed, .inl hrow⟩, h.done, h.queue, h.seq,
      fun hnil => absurd hnil (row_ne_nil lm _), fun _ => rfl, fun _ t ht => by cases ht⟩
  · next m hm =>
    have hnext : G → ∀ t, some (Session.deviceDraw lm m (s.maskedRow lm (lm.E.T.row (c.feed lm.E.T [tok]).st))) =
        some t → t = lm.E.T.pred (lm.E.T.after (s.fed ++ [tok])) := by
      intro hG t ht
      obtain rfl := Option.some.inj ht
      rw [Session.rowMeta_greedy hs hG hm]
      exact congrArg argmax hrow
    split
    · exact ⟨hs.congr rfl rfl rfl rfl, h.spec, h.graph,
        ⟨_, rfl, hfeed, .inr ⟨rfl, fun r hr => (Option.some.inj hr).symm.trans hrow⟩⟩, h.done, h.queue, h.seq,
        fun _ => rfl, fun hnil => absurd hnil hbegun, hnext⟩
    · exact ⟨hs.congr rfl rfl rfl rfl, h.spec, h.graph, ⟨_, rfl, hfeed, .inl hrow⟩, h.done, h.queue, h.seq,
        fun hnil => absurd hnil (row_ne_nil lm _), fun hnil => absurd hnil hbegun, hnext⟩

/-! ## The steps of a prompt -/

/-- A chunk of the prompt has just been fed. -/
structure Primed (T : Trunk σ η) (prompt : List Tok) (w : Work σ η γ) : Prop where
  spec : w.spec = none
  graph : w.graph = none
  cache : ∃ c, w.cache = some c ∧ c.Holds T w.fed
  row : w.lastLogits = T.row (T.after w.fed)
  done : w.prefillDone = false
  seq : w.fed ++ w.prefillQueue = prompt
  generated : w.generated = []
  device : w.deviceNext = none

/-- The end of the prompt. -/
theorem Primed.decoding {w : Work σ η γ} (h : Primed lm.E.T prompt w) (hq : w.prefillQueue = []) :
    Decoding lm.E.T G prompt { w with prefillDone := true } := by
  obtain ⟨c, hc, hholds⟩ := h.cache
  have hseq := h.seq
  rw [hq, List.append_nil] at hseq
  have hrow := h.row
  refine ⟨h.spec, h.graph, ⟨c, hc, hholds, .inl hrow⟩, rfl, hq, ?_, fun hnil => ?_, fun _ => h.device,
    fun _ t ht => absurd (h.device.symm.trans ht) (by simp)⟩
  · change w.fed = prompt ++ w.generated
    rw [h.generated, List.append_nil, hseq]
  · exact absurd (hrow.symm.trans hnil) (row_ne_nil lm _)

theorem Primed.prefilling {w : Work σ η γ} (h : Primed lm.E.T prompt w) (hq : w.prefillQueue ≠ []) :
    Prefilling lm.E.T prompt w :=
  ⟨h.spec, h.graph, h.cache, h.done, hq, h.seq, h.generated, h.device⟩

/-- What the feed of a chunk comes to. -/
structure FeedOut (lm : LoadedModel σ η γ) (G : Prop) (prompt : List Tok)
    (r : Option String × Prefill σ η γ) : Prop where
  served : Served lm G prompt r.2.s.work
  spec : r.2.s.spec = none
  done : r.2.s.prefillDone = false
  primed : r.1 = none → Primed lm.E.T prompt r.2.s.work

theorem FeedOut.parkable {r : Option String × Prefill σ η γ} (h : FeedOut lm G prompt r) :
    Parkable lm.E.T r.2.s.work :=
  ⟨fun _ hdone => absurd (hdone.symm.trans h.done) (by simp),
    fun caches hs => absurd (h.spec.symm.trans hs) (by simp)⟩

theorem Prefilling.primeChunk (h : Prefilling lm.E.T prompt s.work) (hs : Served lm G prompt s.work)
    (env : TickEnv) (take : ℕ) (px : PrefixCache PoolKey (Snapshot σ)) :
    FeedOut lm G prompt (Prefill.primeChunk lm env take { s, px }) := by
  obtain ⟨c, hc, hholds⟩ := h.cache
  have hc : s.cache = some c := hc
  have hgen : s.generated = [] := h.generated
  unfold Prefill.primeChunk
  simp only [hc]
  split
  · next herr =>
    refine ⟨hs.congr rfl rfl rfl rfl, h.spec, h.done, fun hnone => ?_⟩
    have hnone : env.primeErr = none := hnone
    rw [hnone] at herr
    cases herr
  · refine ⟨hs.congr rfl rfl rfl rfl, h.spec, h.done, fun _ => ⟨h.spec, h.graph,
      ⟨_, rfl, KvCache.feed_holds hholds _⟩, KvCache.feed_row hholds _, h.done, ?_, hgen, h.device⟩⟩
    change s.fed ++ s.prefillQueue.take take ++ s.prefillQueue.drop take = prompt
    rw [List.append_assoc, List.take_append_drop]
    exact h.seq

theorem Prefilling.stepToken (h : Prefilling lm.E.T prompt s.work) (hs : Served lm G prompt s.work)
    (env : TickEnv) {queue : List Tok} (hq : s.prefillQueue = tok :: queue)
    (px : PrefixCache PoolKey (Snapshot σ)) :
    FeedOut lm G prompt (Prefill.stepToken lm cfg env tok queue { s, px }) := by
  obtain ⟨c, hc, hholds⟩ := h.cache
  have hc : s.cache = some c := hc
  have hgen : s.generated = [] := h.generated
  unfold Prefill.stepToken
  simp only [hc]
  split
  · next herr =>
    refine ⟨hs.congr rfl rfl rfl rfl, h.spec, h.done, fun hnone => ?_⟩
    have hnone : env.stepErr = none := hnone
    rw [hnone] at herr
    cases herr
  · split
    · next herr =>
      refine ⟨hs.congr rfl rfl rfl rfl, h.spec, h.done, fun hnone => ?_⟩
      have hnone : env.traceErr = none := hnone
      rw [hnone] at herr
      cases herr.2.2
    · refine ⟨hs.congr rfl rfl rfl rfl, h.spec, h.done, fun _ => ⟨h.spec, h.graph,
        ⟨_, rfl, KvCache.feed_holds hholds [tok]⟩, KvCache.feed_row hholds [tok], h.done, ?_, hgen,
        h.device⟩⟩
      have hseq : s.fed ++ s.prefillQueue = prompt := h.seq
      change s.fed ++ [tok] ++ queue = prompt
      rw [← hseq, hq, List.append_assoc]
      rfl

/-- `feed_tick`. -/
theorem Prefilling.feedTick (h : Prefilling lm.E.T prompt s.work) (hs : Served lm G prompt s.work)
    (env : TickEnv) {queue : List Tok} (hq : s.prefillQueue = tok :: queue)
    (px : PrefixCache PoolKey (Snapshot σ)) (budget : ℕ) :
    FeedOut lm G prompt (Memra.feedTick lm cfg env s px budget tok queue).2 := by
  unfold Memra.feedTick
  simp only
  split
  · exact h.primeChunk hs env _ px
  · exact h.stepToken hs env hq px

/-- The snapshot and the seed of the prefix cache leave the session as it is, up to `prefill_done`. -/
theorem Prefill.settle_work (cfg : Config) (env : TickEnv) (t : Prefill σ η γ) :
    (t.settle cfg env).s.work =
      { t.s.work with prefillDone := t.s.prefillDone || t.s.prefillQueue.isEmpty } := by
  obtain ⟨seed, hseed⟩ := settle_s cfg env t
  rw [hseed]
  rfl

theorem Prefill.maybePrefixSeed_work (cfg : Config) (env : TickEnv) (t : Prefill σ η γ) :
    (t.maybePrefixSeed cfg env).s.work = t.s.work := by
  obtain ⟨seed, hseed⟩ := maybePrefixSeed_s cfg env t
  rw [hseed]
  rfl

theorem Primed.settle {t : Prefill σ η γ} (h : Primed lm.E.T prompt t.s.work)
    (hs : Served lm G prompt t.s.work) (env : TickEnv) (b : Bool) :
    Served lm G prompt (t.settle cfg env).s.work ∧ Stage lm.E.T b G prompt (t.settle cfg env).s.work := by
  rw [Prefill.settle_work]
  refine ⟨hs.congr rfl rfl rfl rfl, ?_⟩
  have hdone : t.s.prefillDone = false := h.done
  by_cases hq : t.s.prefillQueue = []
  · rw [hq, List.isEmpty_nil, Bool.or_true]
    exact .decoding (h.decoding hq)
  · rw [hdone, List.isEmpty_eq_false_iff.2 hq, Bool.or_false]
    have hpre := h.prefilling hq
    exact .prefilling ⟨hpre.spec, hpre.graph, hpre.cache, rfl, hpre.queue, hpre.seq, hpre.generated,
      hpre.device⟩

/-- A row of a batched prime. -/
theorem Stage.primeRow {b : Bool} (h : Stage lm.E.T b G prompt s.work) (hs : Served lm G prompt s.work) :
    Served lm G prompt (s.primeRow lm).work ∧ Stage lm.E.T b G prompt (s.primeRow lm).work := by
  cases h with
  | prefilling h =>
    obtain ⟨c, hc, hholds⟩ := h.cache
    have hc : s.cache = some c := hc
    have hseq : s.fed ++ s.prefillQueue = prompt := h.seq
    have hgen : s.generated = [] := h.generated
    unfold Session.primeRow
    simp only [hc]
    refine ⟨hs.congr rfl rfl rfl rfl, .decoding ⟨h.spec, h.graph,
      ⟨_, rfl, KvCache.feed_holds hholds _, .inl (KvCache.feed_row hholds _)⟩, rfl, rfl, ?_,
      fun hnil => absurd hnil (row_ne_nil lm _), fun _ => h.device,
      fun _ t ht => absurd (h.device.symm.trans ht) (by simp)⟩⟩
    change s.fed ++ s.prefillQueue = prompt ++ s.generated
    rw [hseq, hgen, List.append_nil]
  | decoding h =>
    obtain ⟨c, hc, hholds, -⟩ := h.cache
    have hc : s.cache = some c := hc
    have hq : s.prefillQueue = [] := h.queue
    have hfed : s.fed ++ s.prefillQueue = s.fed := by rw [hq, List.append_nil]
    have hseq : s.fed = prompt ++ s.generated := h.seq
    unfold Session.primeRow
    simp only [hc]
    refine ⟨hs.congr rfl rfl rfl rfl, .decoding ⟨h.spec, h.graph,
      ⟨_, rfl, KvCache.feed_holds hholds _, .inl (KvCache.feed_row hholds _)⟩, rfl, rfl, ?_,
      fun hnil => absurd hnil (row_ne_nil lm _), h.first, fun hG t ht => ?_⟩⟩
    · exact hfed.trans hseq
    · change t = lm.E.T.pred (lm.E.T.after (s.fed ++ s.prefillQueue))
      rw [hfed]
      exact h.greedy hG t ht
  | graphing hb h =>
    have hc : s.cache = none := h.cache
    have hsame : s.primeRow lm = s := by simp only [Session.primeRow, hc]
    rw [hsame]
    exact ⟨hs, .graphing hb h⟩
  | specing h =>
    have hc : s.cache = none := h.cache
    have hsame : s.primeRow lm = s := by simp only [Session.primeRow, hc]
    rw [hsame]
    exact ⟨hs, .specing h⟩

/-- The prefill arm of `step_session`. -/
theorem Prefilling.stepPrefill (h : Prefilling lm.E.T prompt s.work) (hs : Served lm G prompt s.work)
    (b : Bool) :
    let r := s.stepPrefill lm cfg env
    Served lm G prompt r.s.work ∧ Parkable lm.E.T r.s.work ∧
      (r.stop = .goOn → Stage lm.E.T b G prompt r.s.work) := by
  intro r
  have hr : r = s.stepPrefill lm cfg env := rfl
  clear_value r
  unfold Session.stepPrefill at hr
  extract_lets q carried t take take' out t' at hr
  have hout : FeedOut lm G prompt out := by
    simp only [out]
    split
    · exact h.primeChunk hs env.tick _ _
    · split
      · next hnil => exact absurd hnil h.queue
      · next tok queue hq => exact h.stepToken hs env.tick hq _
  cases herr : out.1 with
  | some err =>
    rw [herr] at hr
    rw [hr]
    refine ⟨hout.served.congr rfl rfl rfl rfl, ⟨fun _ hdone => ?_, hout.parkable.spec⟩, fun hgo => ?_⟩
    · exact absurd (hdone.symm.trans hout.done) (by simp)
    · cases hgo
  | none =>
    have hprimed := hout.primed herr
    rw [herr] at hr
    simp only at hr
    rw [hr]
    by_cases hq : out.2.s.prefillQueue = []
    · rw [if_pos hq]
      have hdec : Decoding lm.E.T G prompt ({ out.2.s with prefillDone := true } : Session σ η γ).work :=
        hprimed.decoding hq
      exact ⟨hout.served.congr rfl rfl rfl rfl, (Stage.decoding (b := b) hdec).parkable, fun _ => .decoding hdec⟩
    · rw [if_neg hq]
      exact ⟨hout.served, hout.parkable, fun _ => .prefilling (hprimed.prefilling hq)⟩

/-- The decode arm of `step_session`. -/
theorem Decoding.stepDecode (hchain : G → H.ArgmaxChain) (h : Decoding lm.E.T G prompt s.work)
    (hs : Served lm G prompt s.work) (hf : (s.stepDecode hung H lm env).faults = []) (b : Bool) :
    let r := s.stepDecode hung H lm env
    Served lm G prompt r.s.work ∧ Parkable lm.E.T r.s.work ∧
      (r.stop = .goOn → Stage lm.E.T b G prompt r.s.work) := by
  obtain ⟨hserved, hpark, hgo⟩ := h.drawEmit hchain hs
  unfold Session.stepDecode at hf ⊢
  simp only at hf ⊢
  split at hf
  · next next hstop hnext =>
    obtain ⟨next', hnext', hemit⟩ := hgo hstop
    obtain rfl : next' = next := Option.some.inj (hnext'.symm.trans hnext)
    obtain ⟨-, hs', hdec⟩ := hemit.decodeStep hserved hf
    exact ⟨hs', (Stage.decoding (b := b) hdec).parkable, fun _ => .decoding hdec⟩
  · next hno =>
    refine ⟨hserved, hpark, fun hstop => ?_⟩
    obtain ⟨next, hnext, -⟩ := hgo hstop
    exact absurd hnext (hno next hstop)

end

end Memra
