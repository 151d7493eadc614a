import Memra.Engine.GemmaSpec

/-!
# Gemma speculative decoding is greedy but for one more token

A round accepts a prefix of the greedy continuation and hands on the token after it (`accept_spec`), on
the device (`RoundAt.round`) as on the host. `GemmaInv` is the invariant of the loop's heads and
`pass_spec` one pass: it goes on to the next head, or leaves with the whole decoding. The one exception
is an eager pass with one token to go (`Overshoots`), which emits an accepted draft past `max_new`
(`pass_overshoots`).
-/

namespace Memra

open Lib

variable {σ η : Type} {T : Trunk σ η} {D : GemmaDrafter} {cfg : GemmaSpecCfg} {prompt : List Tok}

/-! ## Acceptance -/

/-- The argmaxes of a verify of `t :: ds`. -/
def verifyPreds (T : Trunk σ η) (s : σ) (t : Tok) (ds : List Tok) : List Tok :=
  (T.cols s (t :: ds)).map T.pred

/-- **Acceptance**: the accepted drafts are the greedy continuation, and the prediction after them is its
next token. -/
theorem accept_spec (s : σ) (t : Tok) (ds : List Tok) (b : ℕ) :
    acceptLen (ds.take b) (verifyPreds T s t ds) ≤ min b ds.length ∧
      ds.take (acceptLen (ds.take b) (verifyPreds T s t ds)) =
        T.greedy (T.step s t) (acceptLen (ds.take b) (verifyPreds T s t ds)) ∧
      (verifyPreds T s t ds).getD (acceptLen (ds.take b) (verifyPreds T s t ds)) 0 =
        T.nth (T.step s t) (acceptLen (ds.take b) (verifyPreds T s t ds)) := by
  induction ds generalizing s t b with
  | nil => simp [acceptLen, verifyPreds, Trunk.cols, Trunk.greedy, Trunk.nth]
  | cons d ds ih =>
    cases b with
    | zero => simp [acceptLen, verifyPreds, Trunk.cols, Trunk.greedy, Trunk.nth]
    | succ b =>
      have hp : verifyPreds T s t (d :: ds) =
          T.pred (T.step s t) :: verifyPreds T (T.step s t) d ds := rfl
      rw [hp, List.take_succ_cons, acceptLen]
      split
      · rename_i heq
        obtain ⟨h1, h2, h3⟩ := ih (T.step s t) d b
        refine ⟨by simp only [List.length_cons]; omega, ?_, ?_⟩
        · rw [List.take_succ_cons, h2, Trunk.greedy, ← heq]
        · rw [List.getD_cons_succ, h3, Trunk.nth, Trunk.nth, Trunk.greedy, T.feed_cons, ← heq]
      · simp [Trunk.greedy, Trunk.nth]

/-- Something is accepted exactly when the first draft is the token after `t`. -/
theorem acceptLen_pos (s : σ) (t d : Tok) (ds : List Tok) :
    0 < acceptLen (d :: ds) (verifyPreds T s t (d :: ds)) ↔ d = T.pred (T.step s t) := by
  have hp : verifyPreds T s t (d :: ds) =
      T.pred (T.step s t) :: verifyPreds T (T.step s t) d ds := rfl
  rw [hp, acceptLen]
  split <;> simp_all

/-- The rows that an accept keeps: what was fed, the pending token and the accepted drafts. -/
theorem accept_rows {n m : ℕ} {ds : List Tok}
    (h : ds.take m = T.greedy (T.feed (T.after prompt) (T.greedy (T.after prompt) (n + 1))) m) :
    (prompt ++ T.greedy (T.after prompt) n ++ T.nth (T.after prompt) n :: ds).take
        (prompt.length + (n + 1 + m)) = prompt ++ T.greedy (T.after prompt) (n + 1 + m) := by
  have hsplit : prompt ++ T.greedy (T.after prompt) n ++ T.nth (T.after prompt) n :: ds =
      prompt ++ T.greedy (T.after prompt) (n + 1) ++ ds := by
    rw [T.greedy_concat]
    simp
  have hlen : prompt.length + (n + 1 + m) =
      (prompt ++ T.greedy (T.after prompt) (n + 1)).length + m := by
    simp only [List.length_append, Trunk.greedy_length]
    omega
  rw [hsplit, hlen, List.take_length_add_append, h, T.greedy_add _ (n + 1) m, List.append_assoc]

/-- Emitting a stretch of the greedy continuation: all of it, or the whole decoding. -/
theorem emitUntil_spec {maxNew : ℕ} {eos : List Tok} {s : σ} {n : ℕ} {ts out : List Tok}
    (h : out ++ ts = T.greedy s n) (hno : ∀ t ∈ out, t ∉ eos) (hlt : out.length < maxNew) :
    emitUntil maxNew eos ts out = (false, T.greedy s n) ∧ (∀ t ∈ T.greedy s n, t ∉ eos) ∧
        n < maxNew ∨
      emitUntil maxNew eos ts out = (true, T.greedyUntil eos maxNew s) := by
  induction ts generalizing out with
  | nil =>
    rw [List.append_nil] at h
    refine .inl ⟨by rw [emitUntil, h], h ▸ hno, ?_⟩
    rw [h, T.greedy_length] at hlt
    exact hlt
  | cons t ts ih =>
    have hpre : out ++ [t] = T.greedy s (out.length + 1) := by
      have := congrArg (List.take (out.length + 1)) h
      rw [T.greedy_take] at this
      have hlen := congrArg List.length h
      simp only [List.length_append, List.length_cons, T.greedy_length] at hlen
      rw [Nat.min_eq_left (by omega)] at this
      have hsplit : out ++ t :: ts = out ++ [t] ++ ts := by simp
      rw [hsplit, List.take_left' (by simp)] at this
      exact this
    have hout : out = T.greedy s out.length ∧ t = T.nth s out.length := by
      rw [T.greedy_concat] at hpre
      obtain ⟨h1, h2⟩ := List.append_inj' hpre rfl
      exact ⟨h1, by simpa using h2⟩
    rw [emitUntil]
    split
    · rename_i hend
      refine .inr ?_
      rw [hpre]
      congr 1
      refine (T.greedyUntil_eq (by omega) (fun t ht => hno t (hout.1 ▸ ht)) ?_).symm
      rw [← hout.2]
      rcases hend with he | he
      · exact .inl he
      · simp only [List.length_append, List.length_singleton] at he
        exact .inr (by omega)
    · rename_i hend
      simp only [not_or, Nat.not_le] at hend
      refine ih (by simpa using h) (fun x hx => ?_) hend.2
      rcases List.mem_append.1 hx with hx | hx
      · exact hno x hx
      · exact List.mem_singleton.1 hx ▸ hend.1

/-! ## A round on the device -/

section

variable {n0 n : ℕ} {d : SpecDev}

/-- The proposals of chain `c`, to depth `kr`. -/
def GemmaDrafter.chain (D : GemmaDrafter) (c kr : ℕ) : List Tok := (List.range kr).map (D.token c)

@[simp] theorem GemmaDrafter.chain_length (D : GemmaDrafter) (c kr : ℕ) :
    (D.chain c kr).length = kr := by
  simp [chain]

/-- The slots after a draft chain. -/
theorem draftChain_slots (kr : ℕ) (d : SpecDev) :
    (d.draftChain D kr).slots 0 (kr + 1) = d.batch 0 :: D.chain d.chains kr ∧
      ∀ b ≤ kr, (d.draftChain D kr).slots 1 b = (D.chain d.chains kr).take b := by
  constructor
  · rw [SpecDev.slots, List.range_succ_eq_map, List.map_cons, List.map_map]
    congr 1
    refine List.map_congr_left fun j hj => ?_
    have := List.mem_range.1 hj
    simp only [Function.comp, SpecDev.draftChain]
    rw [if_pos (by omega)]
    congr 1
    omega
  · intro b hb
    rw [SpecDev.slots, GemmaDrafter.chain, ← List.map_take, List.take_range, Nat.min_eq_left hb]
    refine List.map_congr_left fun j hj => ?_
    have := List.mem_range.1 hj
    simp only [SpecDev.draftChain]
    rw [if_pos (by omega)]
    congr 1
    omega

/-- What a round accepts. -/
def roundLen (T : Trunk σ η) (D : GemmaDrafter) (kCap : ℕ) (d : SpecDev) : ℕ :=
  acceptLen ((D.chain d.chains kCap).take d.brk)
    (verifyPreds T (T.after (d.rows.take d.posCtr)) d.pend (D.chain d.chains kCap))

/-- What a round does to the device. -/
structure Round (T : Trunk σ η) (D : GemmaDrafter) (kCap : ℕ) (d d' : SpecDev) : Prop where
  counters : d'.toStreamKv.At (d.posCtr + 1 + roundLen T D kCap d)
  rows : d'.rows = d.rows.take d.posCtr ++ d.pend :: D.chain d.chains kCap
  high : d'.high = max d.high (d.posCtr + (kCap + 1))
  ring : d'.ring = d.ring ++ (D.chain d.chains kCap).take (roundLen T D kCap d) ++ [d'.pend]
  pend : d'.pend = (verifyPreds T (T.after (d.rows.take d.posCtr)) d.pend
    (D.chain d.chains kCap)).getD (roundLen T D kCap d) 0
  nAcc : d'.nAcc = roundLen T D kCap d
  brk : d'.brk = d.brk
  base : d'.brkBase = 1

theorem runOps_roundOps {kCap : ℕ} (hbase : d.brkBase = 1) (hbrk : d.brk ≤ kCap) :
    Round T D kCap d
      (WorkStream.runOps (SpecDev.roundOps T [SpecDev.draftChain D kCap] kCap) d) := by
  -- the device after the chain, with the batch to verify
  obtain ⟨d1, hd1⟩ : ∃ d1 : SpecDev, d1 = SpecDev.draftChain D kCap
      { d with toStreamKv := d.toStreamKv.copyPos, batch := Function.update d.batch 0 d.pend } :=
    ⟨_, rfl⟩
  have hs := draftChain_slots (D := D) kCap
    { d with toStreamKv := d.toStreamKv.copyPos, batch := Function.update d.batch 0 d.pend }
  rw [← hd1] at hs
  obtain ⟨hall, hdrafts⟩ := hs
  simp only [Function.update_self] at hall hdrafts
  have hrun : WorkStream.runOps (SpecDev.roundOps T [SpecDev.draftChain D kCap] kCap) d =
      (d1.verifyBatch T (kCap + 1)).acceptDc.rollback.ringCommit := by
    rw [hd1]
    rfl
  have hacc : (d1.verifyBatch T (kCap + 1)).acceptDc.nAcc = roundLen T D kCap d ∧
      (d1.verifyBatch T (kCap + 1)).acceptDc.bonus =
        (verifyPreds T (T.after (d.rows.take d.posCtr)) d.pend (D.chain d.chains kCap)).getD
          (roundLen T D kCap d) 0 := by
    have hv : (d1.verifyBatch T (kCap + 1)).vam =
        verifyPreds T (T.after (d.rows.take d.posCtr)) d.pend (D.chain d.chains kCap) := by
      simp only [SpecDev.verifyBatch, StreamKv.verifyStream, StreamKv.verifyAt, hall, verifyPreds]
      rw [hd1]
      rfl
    have hb : (d1.verifyBatch T (kCap + 1)).brkBase = 1 := by
      rw [← hbase, hd1]
      rfl
    have hw : (d1.verifyBatch T (kCap + 1)).brk = d.brk := by
      rw [hd1]
      rfl
    have hsl : (d1.verifyBatch T (kCap + 1)).slots 1 d.brk = (D.chain d.chains kCap).take d.brk :=
      hdrafts d.brk hbrk
    simp [SpecDev.acceptDc, hb, hw, hsl, hv, roundLen]
  obtain ⟨hn, hbonus⟩ := hacc
  have hle : roundLen T D kCap d ≤ kCap := by
    have := (accept_spec (T := T) (T.after (d.rows.take d.posCtr)) d.pend (D.chain d.chains kCap)
      d.brk).1
    simp only [GemmaDrafter.chain_length] at this
    unfold roundLen
    omega
  have hstart : d1.posStart = d.posCtr ∧ d1.posCtr = d.posCtr ∧ d1.rows = d.rows ∧
      d1.high = d.high ∧ d1.ring = d.ring ∧ d1.brk = d.brk ∧ d1.brkBase = 1 := by
    rw [hd1]
    exact ⟨rfl, rfl, rfl, rfl, rfl, rfl, hbase⟩
  obtain ⟨hps, hpc, hrows, hhigh, hring, hbrk1, hbase1⟩ := hstart
  rw [hrun]
  refine ⟨?_, ?_, ?_, ?_, hbonus, hn, hbrk1, hbase1⟩
  · have := StreamKv.rollbackStream_at (d1.verifyBatch T (kCap + 1)).acceptDc.toStreamKv 1
      (d1.verifyBatch T (kCap + 1)).acceptDc.nAcc
    rw [← hps, ← hn]
    exact this
  · show d1.rows.take d1.posCtr ++ d1.slots 0 (kCap + 1) = _
    rw [hrows, hpc, hall]
  · show max d1.high (d1.posCtr + (d1.slots 0 (kCap + 1)).length) = _
    rw [hhigh, hpc, hall]
    simp
  · show d1.ring ++ d1.slots d1.brkBase (d1.verifyBatch T (kCap + 1)).acceptDc.nAcc ++ _ = _
    rw [hring, hbase1, hn, hdrafts _ hle]
    rfl

/-- The device at `n` tokens in a stream arm entered at `n0`: the next token is pending, and the ring
carries the ones after the token that was pending at the entry. -/
structure RoundAt (T : Trunk σ η) (cfg : GemmaSpecCfg) (prompt : List Tok) (n0 n : ℕ) (d : SpecDev) :
    Prop where
  counters : d.toStreamKv.At (prompt.length + n)
  rows : d.rows.take (prompt.length + n) = prompt ++ T.greedy (T.after prompt) n
  pend : d.pend = T.nth (T.after prompt) n
  ring : T.greedy (T.after prompt) (n0 + 1) ++ d.ring = T.greedy (T.after prompt) (n + 1)
  brk : d.brk ≤ cfg.kCap
  base : d.brkBase = 1

theorem RoundAt.ring_length (h : RoundAt T cfg prompt n0 n d) : n0 + d.ring.length = n := by
  have := congrArg List.length h.ring
  simp only [List.length_append, Trunk.greedy_length] at this
  omega

/-- **One round.** -/
theorem RoundAt.round (h : RoundAt T cfg prompt n0 n d) {d' : SpecDev}
    (hr : Round T D cfg.kCap d d') :
    ∃ m ≤ cfg.kCap, RoundAt T cfg prompt n0 (n + 1 + m) d' ∧
      d'.high = max d.high (prompt.length + n + (cfg.kCap + 1)) := by
  have hpos := h.counters.1
  have hrows := h.rows
  rw [← hpos] at hrows
  have hstep : T.step (T.after (d.rows.take d.posCtr)) d.pend =
      T.feed (T.after prompt) (T.greedy (T.after prompt) (n + 1)) := by
    rw [hrows, T.after_append, h.pend, T.feed_greedy_succ]
  obtain ⟨hle, htake, hnext⟩ :=
    accept_spec (T := T) (T.after (d.rows.take d.posCtr)) d.pend (D.chain d.chains cfg.kCap) d.brk
  change roundLen T D cfg.kCap d ≤ _ at hle
  change (D.chain d.chains cfg.kCap).take (roundLen T D cfg.kCap d) =
    T.greedy _ (roundLen T D cfg.kCap d) at htake
  change List.getD _ (roundLen T D cfg.kCap d) 0 = T.nth _ (roundLen T D cfg.kCap d) at hnext
  rw [hstep] at htake hnext
  rw [← T.nth_add] at hnext
  rw [GemmaDrafter.chain_length] at hle
  have hpend : d'.pend = T.nth (T.after prompt) (n + 1 + roundLen T D cfg.kCap d) :=
    hr.pend.trans hnext
  have hgreedy : T.greedy (T.after prompt) (n + 1 + roundLen T D cfg.kCap d) =
      T.greedy (T.after prompt) (n + 1) ++
        (D.chain d.chains cfg.kCap).take (roundLen T D cfg.kCap d) := by
    rw [T.greedy_add, htake]
  refine ⟨roundLen T D cfg.kCap d, by omega, ⟨?_, ?_, hpend, ?_, ?_, hr.base⟩, ?_⟩
  · have := hr.counters
    rw [hpos] at this
    rw [← Nat.add_assoc, ← Nat.add_assoc]
    exact this
  · rw [hr.rows, hrows, h.pend]
    exact accept_rows htake
  · rw [hr.ring, hpend, T.greedy_concat _ (n + 1 + roundLen T D cfg.kCap d), hgreedy, ← h.ring]
    simp
  · rw [hr.brk]
    exact h.brk
  · rw [hr.high, hpos]

/-- Work that is a round to the tokens. -/
def RoundOps (T : Trunk σ η) (cfg : GemmaSpecCfg) (prompt : List Tok) (n0 : ℕ)
    (ops : List (SpecDev → SpecDev)) : Prop :=
  ∀ n d, RoundAt T cfg prompt n0 n d →
    ∃ m ≤ cfg.kCap, RoundAt T cfg prompt n0 (n + 1 + m) (WorkStream.runOps ops d) ∧
      (WorkStream.runOps ops d).high = max d.high (prompt.length + n + (cfg.kCap + 1))

theorem roundOps_round (n0 : ℕ) :
    RoundOps T cfg prompt n0 (SpecDev.roundOps T [SpecDev.draftChain D cfg.kCap] cfg.kCap) :=
  fun _ _ h => h.round (runOps_roundOps h.base h.brk)

/-- The body of the round graph is a round, whatever floor it was captured with. -/
theorem roundBodyOps_round (n0 floor : ℕ) :
    RoundOps T cfg prompt n0 (SpecDev.roundBodyOps T D cfg.kCap floor) := by
  intro n d h
  obtain ⟨m, hm, hr, hh⟩ := roundOps_round (D := D) n0 n d h
  have hrun : WorkStream.runOps (SpecDev.roundBodyOps T D cfg.kCap floor) d =
      (WorkStream.runOps (SpecDev.roundOps T [SpecDev.draftChain D cfg.kCap] cfg.kCap) d).adaptK
        floor cfg.kCap := by
    rw [SpecDev.roundBodyOps, WorkStream.runOps, List.foldl_append]
    rfl
  rw [hrun]
  exact ⟨m, hm, ⟨hr.counters, hr.rows, hr.pend, hr.ring, Nat.min_le_right _ _, hr.base⟩, hh⟩

/-- **Rounds in a row.** -/
theorem RoundAt.rounds {ops : List (SpecDev → SpecDev)} (hops : RoundOps T cfg prompt n0 ops)
    (h : RoundAt T cfg prompt n0 n d) (r : ℕ) :
    ∃ n', n + r ≤ n' ∧ n' ≤ n + r * (cfg.kCap + 1) ∧
      RoundAt T cfg prompt n0 n' ((WorkStream.runOps ops)^[r] d) ∧
      ((WorkStream.runOps ops)^[r] d).high ≤
        max d.high (prompt.length + n + r * (cfg.kCap + 1)) := by
  induction r with
  | zero => exact ⟨n, by omega, by omega, h, Nat.le_max_left _ _⟩
  | succ r ih =>
    obtain ⟨n1, hlo, hhi, h1, hh1⟩ := ih
    obtain ⟨m, hm, h2, hh2⟩ := hops n1 _ h1
    rw [Function.iterate_succ_apply']
    rw [Nat.succ_mul]
    refine ⟨n1 + 1 + m, by omega, by omega, h2, ?_⟩
    rw [hh2]
    omega

end

/-! ## The host -/

/-- What a graph under `key` replays. -/
def GraphOk (T : Trunk σ η) (D : GemmaDrafter) (cfg : GemmaSpecCfg) (key : DraftKey)
    (graph : DraftGraph) : Prop :=
  match key with
  | .round _ _ => ∃ floor, graph = SpecDev.roundBodyOps T D cfg.kCap floor
  | .chain kr _ _ => graph = [SpecDev.draftChain D kr]

/-- The invariant of the loop's heads. -/
structure GemmaInv (T : Trunk σ η) (D : GemmaDrafter) (cfg : GemmaSpecCfg) (prompt : List Tok)
    (maxNew : ℕ) (eos : List Tok) (s : GemmaSpecState) : Prop where
  idle : s.stream.recording = none
  lenD : ∀ len ∈ s.stream.dev.lenD, len = s.pos
  kvLen : ∀ len ∈ s.kvLen, len = s.pos
  pos : s.pos = prompt.length + s.out.length
  rows : s.stream.dev.rows.take s.pos = prompt ++ s.out
  out : s.out = T.greedy (T.after prompt) s.out.length
  last : s.last = T.nth (T.after prompt) s.out.length
  noEos : ∀ t ∈ s.out, t ∉ eos
  le : s.out.length ≤ maxNew
  kc : 1 ≤ s.kc ∧ s.kc ≤ cfg.kCap
  graphs : ∀ g ∈ s.graphs, GraphOk T D cfg g.1 g.2
  high : s.stream.dev.high ≤ gemmaMaxCtx cfg maxNew prompt

/-- What a pass from `n` tokens leaves. -/
def Passed (T : Trunk σ η) (D : GemmaDrafter) (cfg : GemmaSpecCfg) (prompt : List Tok)
    (maxNew : ℕ) (eos : List Tok) (n : ℕ) : Flow GemmaSpecState → Prop
  | .again u => GemmaInv T D cfg prompt maxNew eos u ∧ n < u.out.length
  | .leave u => u.out = T.greedyUntil eos maxNew (T.after prompt) ∧
      u.stream.dev.high ≤ gemmaMaxCtx cfg maxNew prompt

theorem GemmaSpecCfg.kCap_pos (cfg : GemmaSpecCfg) : 1 ≤ cfg.kCap := Nat.le_max_right _ _

section

variable {maxNew : ℕ} {eos : List Tok} {s : GemmaSpecState}

theorem GemmaInv.stream (h : GemmaInv T D cfg prompt maxNew eos s) :
    s.stream = { dev := s.stream.dev } := by
  rw [← h.idle]

/-- Work that leaves the length counters and the rows alone keeps the invariant. -/
theorem GemmaInv.frame (h : GemmaInv T D cfg prompt maxNew eos s) {d : SpecDev}
    {graphs : List (DraftKey × DraftGraph)} (hlen : d.lenD = s.stream.dev.lenD)
    (hrows : d.rows = s.stream.dev.rows) (hhigh : d.high = s.stream.dev.high)
    (hg : ∀ g ∈ graphs, GraphOk T D cfg g.1 g.2) :
    GemmaInv T D cfg prompt maxNew eos { s with stream := { dev := d }, graphs } where
  idle := rfl
  lenD := fun len hl => h.lenD len (hlen ▸ hl)
  kvLen := h.kvLen
  pos := h.pos
  rows := (congrArg (List.take s.pos) hrows).trans h.rows
  out := h.out
  last := h.last
  noEos := h.noEos
  le := h.le
  kc := h.kc
  graphs := hg
  high := hhigh.trans_le h.high

/-- The entry of a stream arm. -/
theorem GemmaInv.entry (h : GemmaInv T D cfg prompt maxNew eos s) {depth : ℕ}
    (hd : depth ≤ cfg.kCap) :
    RoundAt T cfg prompt s.out.length s.out.length (s.stream.dev.entry s.pos s.last depth) where
  counters := ⟨h.pos, fun len hl => (h.lenD len hl).trans h.pos⟩
  rows := by
    rw [← h.out, ← h.pos]
    exact h.rows
  pend := h.last
  ring := List.append_nil _
  brk := hd
  base := rfl

/-- The pending token, emitted. -/
theorem GemmaInv.push (h : GemmaInv T D cfg prompt maxNew eos s) :
    s.out ++ [s.last] = T.greedy (T.after prompt) (s.out.length + 1) := by
  rw [T.greedy_concat, ← h.out, ← h.last]

/-- It ends the decoding. -/
theorem GemmaInv.push_ends (h : GemmaInv T D cfg prompt maxNew eos s) (hlt : s.out.length < maxNew)
    (he : s.last ∈ eos ∨ s.out.length + 1 = maxNew) :
    s.out ++ [s.last] = T.greedyUntil eos maxNew (T.after prompt) := by
  rw [h.push]
  refine (T.greedyUntil_eq hlt ?_ (h.last ▸ he)).symm
  rw [← h.out]
  exact h.noEos

/-- **The drain of a stream arm.** -/
theorem streamDrain_spec {rounds n0 n : ℕ} (hidle : s.stream.recording = none)
    (hdev : RoundAt T cfg prompt n0 n s.stream.dev) (hn : n0 < n)
    (hring : n ≤ n0 + rounds * (cfg.kCap + 1))
    (hout : s.out = T.greedy (T.after prompt) (n0 + 1)) (hno : ∀ t ∈ s.out, t ∉ eos)
    (hlt : n0 + 1 < maxNew) (hgraphs : ∀ g ∈ s.graphs, GraphOk T D cfg g.1 g.2)
    (hhigh : s.stream.dev.high ≤ gemmaMaxCtx cfg maxNew prompt) :
    Passed T D cfg prompt maxNew eos n0 (streamDrain cfg maxNew eos rounds s) := by
  have hlen := hdev.ring_length
  have htake : s.stream.dev.ring.take (rounds * (cfg.kCap + 1)) = s.stream.dev.ring :=
    List.take_of_length_le (by omega)
  have hne : s.stream.dev.ring ≠ [] := by
    intro hnil
    rw [hnil] at hlen
    simp at hlen
    omega
  have hsplit : s.out ++ s.stream.dev.ring.dropLast = T.greedy (T.after prompt) n ∧
      s.stream.dev.ring.getLast hne = T.nth (T.after prompt) n := by
    have := hdev.ring
    rw [← hout, T.greedy_concat, ← List.dropLast_append_getLast hne, ← List.append_assoc] at this
    obtain ⟨h1, h2⟩ := List.append_inj' this rfl
    exact ⟨h1, by simpa using h2⟩
  obtain ⟨hemit, hlast⟩ := hsplit
  have hoLen : s.out.length = n0 + 1 := by
    rw [hout, T.greedy_length]
  unfold streamDrain
  simp only [htake]
  have hroom : s.out.length < maxNew := by omega
  rcases emitUntil_spec hemit hno hroom with ⟨he, hnoN, hN⟩ | he
  · rw [he]
    refine ⟨?_, by simpa using hn⟩
    refine ⟨hidle, ?_, ?_, ?_, ?_, ?_, ?_, hnoN, ?_, ⟨cfg.kCap_pos, Nat.le_refl _⟩, hgraphs, hhigh⟩
    · intro len hl
      exact (hdev.counters.2 len hl).trans hdev.counters.1.symm
    · intro len hl
      simp only [List.mem_map] at hl
      obtain ⟨_, _, rfl⟩ := hl
      rfl
    · simpa using hdev.counters.1
    · rw [hdev.counters.1]
      exact hdev.rows
    · simp
    · simp only [Trunk.greedy_length]
      rw [List.getLastD_eq_getLast?, List.getLast?_eq_some_getLast hne]
      exact hlast
    · simp only [Trunk.greedy_length]
      omega
  · rw [he]
    exact ⟨rfl, hhigh⟩

/-! ## The stream arms -/

theorem captureRetained_idle (key : DraftKey) (ops : List (SpecDev → SpecDev))
    (hidle : s.stream = { dev := s.stream.dev }) :
    s.captureRetained key ops =
      { s with
        stream := { dev := (WorkStream.runOps ops)^[2] s.stream.dev }
        graphs := (key, ops) :: s.graphs } := by
  have henq : WorkStream.Enqueues (WorkStream.enqueueAll ops) ops := fun _ => rfl
  rw [GemmaSpecState.captureRetained, hidle, henq.capture]

theorem enqueue_idle (ops : List (SpecDev → SpecDev)) (hidle : s.stream = { dev := s.stream.dev }) :
    s.enqueue ops = { s with stream := { dev := WorkStream.runOps ops s.stream.dev } } := by
  rw [GemmaSpecState.enqueue, hidle, WorkStream.enqueueAll_idle]

theorem enqueue_iterate (ops : List (SpecDev → SpecDev)) (n : ℕ)
    (hidle : s.stream = { dev := s.stream.dev }) :
    (GemmaSpecState.enqueue ops)^[n] s =
      { s with stream := { dev := (WorkStream.runOps ops)^[n] s.stream.dev } } := by
  induction n with
  | zero =>
    rw [Function.iterate_zero, Function.iterate_zero, id, id, ← hidle]
  | succ n ih =>
    rw [Function.iterate_succ_apply', Function.iterate_succ_apply', ih]
    exact enqueue_idle ops rfl

theorem graph_cons (key : DraftKey) (g : DraftGraph) (graphs : List (DraftKey × DraftGraph)) :
    (((key, g) :: graphs).lookup key).getD [] = g := by
  simp

theorem graph_mem {key : DraftKey} (h : (s.graphs.lookup key).isNone = false) :
    (key, s.graph key) ∈ s.graphs := by
  cases hl : s.graphs.lookup key with
  | none => simp [hl] at h
  | some g =>
    rw [GemmaSpecState.graph, hl]
    exact List.mem_of_lookup_eq_some hl

/-- A round-graph pass runs one round, or three with its capture. -/
theorem roundLaunch_spec {rung floor : ℕ} {past : Bool} (hidle : s.stream = { dev := s.stream.dev })
    (hg : ∀ g ∈ s.graphs, GraphOk T D cfg g.1 g.2) :
    ∃ floor' r graphs, 1 ≤ r ∧ r ≤ 3 ∧ (∀ g ∈ graphs, GraphOk T D cfg g.1 g.2) ∧
      roundLaunch cfg (.round rung past) (SpecDev.roundBodyOps T D cfg.kCap floor) s =
        { s with
          stream := { dev :=
            (WorkStream.runOps (SpecDev.roundBodyOps T D cfg.kCap floor'))^[r] s.stream.dev }
          graphs } := by
  unfold roundLaunch
  split
  · refine ⟨floor, 1, s.graphs, by decide, by decide, hg, ?_⟩
    rw [GemmaSpecState.enqueue, hidle, WorkStream.enqueueAll_idle]
    rfl
  · cases hl : (s.graphs.lookup (.round rung past)).isNone with
    | true =>
      refine ⟨floor, 3, (.round rung past, SpecDev.roundBodyOps T D cfg.kCap floor) :: s.graphs,
        by decide, by decide, fun g hm => ?_, ?_⟩
      · cases List.mem_cons.1 hm with
        | inl heq => exact heq ▸ ⟨floor, rfl⟩
        | inr hm => exact hg g hm
      · simp only [if_true, captureRetained_idle _ _ hidle, GemmaSpecState.graph, graph_cons,
          WorkStream.launch_idle, Function.iterate_succ_apply', Function.iterate_zero, id]
    | false =>
      obtain ⟨floor', hf⟩ := hg _ (graph_mem hl)
      refine ⟨floor', 1, s.graphs, by decide, by decide, hg, ?_⟩
      simp only at hf
      simp only [Bool.false_eq_true, if_false, hf]
      rw [hidle, WorkStream.launch_idle]
      rfl

/-- The round-graph gate leaves room for three rounds. -/
theorem roundOk_room {maxCtx : ℕ} (h : s.roundOk cfg maxCtx = true) :
    s.pos + 3 * (cfg.kCap + 1) ≤ maxCtx := by
  simp only [GemmaSpecState.roundOk, Bool.and_eq_true, decide_eq_true_eq] at h
  omega

theorem burstOk_room {maxCtx : ℕ} (h : s.burstOk cfg maxCtx maxNew = true) :
    1 ≤ cfg.burstM ∧ s.pos + cfg.burstM * (cfg.kCap + 1) ≤ maxCtx := by
  simp only [GemmaSpecState.burstOk, Bool.and_eq_true, decide_eq_true_eq] at h
  obtain ⟨⟨⟨⟨⟨⟨⟨hm, -⟩, -⟩, -⟩, -⟩, -⟩, hroom⟩, -⟩ := h
  rw [GemmaSpecCfg.horizon] at hroom
  exact ⟨hm, by omega⟩

/-- The emission of the pending token. -/
theorem pushPending_spec (h : GemmaInv T D cfg prompt maxNew eos s) (hlt : s.out.length < maxNew)
    {rest : GemmaSpecState → Flow GemmaSpecState}
    (hrest : s.last ∉ eos → s.out.length + 1 < maxNew →
      Passed T D cfg prompt maxNew eos s.out.length (rest { s with out := s.out ++ [s.last] })) :
    Passed T D cfg prompt maxNew eos s.out.length (pushPending maxNew eos s rest) := by
  unfold pushPending
  by_cases he : s.last ∈ eos
  · simp only [he, if_true]
    exact ⟨h.push_ends hlt (.inl he), h.high⟩
  · simp only [he, if_false]
    split
    · rename_i hmax
      simp only [List.length_append, List.length_singleton] at hmax
      exact ⟨h.push_ends hlt (.inr (by omega)), h.high⟩
    · rename_i hmax
      simp only [List.length_append, List.length_singleton] at hmax
      exact hrest he (by omega)

/-- The rounds of a stream arm past its entry, and their drain. -/
theorem stream_rounds (h : GemmaInv T D cfg prompt maxNew eos s) (he : s.last ∉ eos)
    (hlt : s.out.length + 1 < maxNew) {depth : ℕ} (hd : depth ≤ cfg.kCap)
    {ops : List (SpecDev → SpecDev)} (hops : RoundOps T cfg prompt s.out.length ops) {r rounds : ℕ}
    (hpos : 1 ≤ r) (hr : r ≤ rounds)
    (hroom : s.pos + rounds * (cfg.kCap + 1) ≤ gemmaMaxCtx cfg maxNew prompt)
    {graphs : List (DraftKey × DraftGraph)} (hg : ∀ g ∈ graphs, GraphOk T D cfg g.1 g.2) :
    Passed T D cfg prompt maxNew eos s.out.length
      (streamDrain cfg maxNew eos rounds
        { s with
          stream := { dev := (WorkStream.runOps ops)^[r] (s.stream.dev.entry s.pos s.last depth) }
          graphs, out := s.out ++ [s.last] }) := by
  obtain ⟨n', hlo, hhi, hround, hhigh⟩ := (h.entry hd).rounds hops r
  have hmul : r * (cfg.kCap + 1) ≤ rounds * (cfg.kCap + 1) := Nat.mul_le_mul_right _ hr
  have hdev : (s.stream.dev.entry s.pos s.last depth).high ≤ gemmaMaxCtx cfg maxNew prompt := h.high
  have hp := h.pos
  refine streamDrain_spec rfl hround (by omega) (by omega) h.push (fun t ht => ?_) hlt hg ?_
  · rcases List.mem_append.1 ht with ht | ht
    · exact h.noEos t ht
    · exact List.mem_singleton.1 ht ▸ he
  · refine hhigh.trans (Nat.max_le.2 ⟨hdev, ?_⟩)
    omega

/-- **The round-graph arm.** -/
theorem roundArm_spec (h : GemmaInv T D cfg prompt maxNew eos s) (hlt : s.out.length < maxNew)
    (hok : s.roundOk cfg (gemmaMaxCtx cfg maxNew prompt) = true) (rung : ℕ) :
    Passed T D cfg prompt maxNew eos s.out.length (roundArm T D cfg maxNew eos rung s) := by
  have hroom := roundOk_room hok
  have hdepth : (if cfg.adapt then s.kc else cfg.kCap) ≤ cfg.kCap := by
    split
    · exact h.kc.2
    · exact Nat.le_refl _
  unfold roundArm
  generalize (if cfg.adapt then s.kc else cfg.kCap) = depth at hdepth
  simp only [enqueue_idle _ h.stream, WorkStream.runOps_cons, WorkStream.runOps_nil]
  refine pushPending_spec
    (h.frame (d := s.stream.dev.entry s.pos s.last depth) rfl rfl rfl h.graphs) hlt
    fun he hlt1 => ?_
  obtain ⟨floor, r, graphs, hr1, hr3, hg, heq⟩ := roundLaunch_spec (T := T) (D := D)
    (s := { s with
      stream := { dev := s.stream.dev.entry s.pos s.last depth }, out := s.out ++ [s.last] })
    rfl h.graphs
  rw [heq]
  exact stream_rounds h he hlt1 hdepth (roundBodyOps_round _ _) hr1 hr3 hroom hg

/-- The draft chains that a capture warms up with leave the counters and rows alone. -/
theorem draftChains_kv (kr : ℕ) (n : ℕ) (d : SpecDev) :
    ((WorkStream.runOps [SpecDev.draftChain D kr])^[n] d).toStreamKv = d.toStreamKv := by
  induction n with
  | zero => rfl
  | succ n ih =>
    rw [Function.iterate_succ_apply']
    exact ih

/-- **The burst arm.** -/
theorem burstArm_spec (h : GemmaInv T D cfg prompt maxNew eos s) (hlt : s.out.length < maxNew)
    (hok : s.burstOk cfg (gemmaMaxCtx cfg maxNew prompt) maxNew = true) (rung : ℕ) :
    Passed T D cfg prompt maxNew eos s.out.length (burstArm T D cfg maxNew eos rung s) := by
  obtain ⟨hm, hroom⟩ := burstOk_room hok
  -- the graph of the draft chain, captured first where it is wanted and missing
  have hgraph : ∀ (key : DraftKey), (∃ rung past, key = .chain cfg.kCap rung past) →
      ∃ d graphs, d.lenD = s.stream.dev.lenD ∧ d.rows = s.stream.dev.rows ∧
        d.high = s.stream.dev.high ∧ (∀ g ∈ graphs, GraphOk T D cfg g.1 g.2) ∧
        (if cfg.burstGraph then (graphs.lookup key).getD [] else [SpecDev.draftChain D cfg.kCap]) =
          [SpecDev.draftChain D cfg.kCap] ∧
        (if cfg.burstGraph && (s.graphs.lookup key).isNone then
            s.captureRetained key [SpecDev.draftChain D cfg.kCap] else s) =
          { s with stream := { dev := d }, graphs } := by
    rintro key ⟨rung, past, hkey⟩
    cases hb : cfg.burstGraph with
    | false =>
      refine ⟨s.stream.dev, s.graphs, rfl, rfl, rfl, h.graphs, rfl, ?_⟩
      rw [← h.stream]
      rfl
    | true =>
      cases hl : (s.graphs.lookup key).isNone with
      | true =>
        have hkv := draftChains_kv (D := D) cfg.kCap 2 s.stream.dev
        refine ⟨_, (key, [SpecDev.draftChain D cfg.kCap]) :: s.graphs, congrArg StreamKv.lenD hkv,
          congrArg StreamKv.rows hkv, congrArg StreamKv.high hkv, fun g hm => ?_, ?_, ?_⟩
        · cases List.mem_cons.1 hm with
          | inl heq =>
            rw [heq, hkey]
            rfl
          | inr hm => exact h.graphs g hm
        · rw [if_pos rfl, graph_cons]
        · exact captureRetained_idle key _ h.stream
      | false =>
        refine ⟨s.stream.dev, s.graphs, rfl, rfl, rfl, h.graphs, ?_, ?_⟩
        · have hok := h.graphs _ (graph_mem hl)
          rw [hkey] at hok ⊢
          rw [if_pos rfl]
          exact hok
        · rw [← h.stream]
          rfl
  obtain ⟨d, graphs, hlen, hrows, hhigh, hg, hchain, heq⟩ := hgraph _ ⟨rung, s.overWin cfg, rfl⟩
  have h1 := h.frame hlen hrows hhigh hg
  unfold burstArm
  simp only [heq]
  refine pushPending_spec h1 hlt fun he hlt1 => ?_
  simp only
  rw [enqueue_idle _ rfl, enqueue_iterate _ _ rfl]
  simp only [GemmaSpecState.graph]
  have hops : RoundOps T cfg prompt s.out.length (SpecDev.roundOps T
      (if cfg.burstGraph then
        (graphs.lookup (.chain cfg.kCap rung (s.overWin cfg))).getD []
      else [SpecDev.draftChain D cfg.kCap]) cfg.kCap) := by
    rw [hchain]
    exact roundOps_round _
  exact stream_rounds h1 he hlt1 (Nat.le_refl _) hops hm (Nat.le_refl _) hroom hg

/-! ## The eager arm -/

theorem cutDepth_le (prob : ℕ → ℚ) (inround : ℚ) (kr : ℕ) :
    cutDepth prob inround kr ≤ kr ∧ (1 ≤ kr → 1 ≤ cutDepth prob inround kr) := by
  unfold cutDepth
  split
  · split
    · rename_i j hj
      have := List.mem_range.1 (List.mem_of_find?_eq_some hj)
      omega
    · exact ⟨Nat.le_refl _, id⟩
  · exact ⟨Nat.le_refl _, id⟩

theorem adaptDepth_le (pos m kr : ℕ) (prob : ℕ → ℚ) {kc : ℕ} (h : 1 ≤ kc ∧ kc ≤ cfg.kCap) :
    1 ≤ adaptDepth cfg pos m kr prob kc ∧ adaptDepth cfg pos m kr prob kc ≤ cfg.kCap := by
  have := cfg.kCap_pos
  unfold adaptDepth
  split
  · simp only
    split
    · split <;> omega
    · omega
  · exact h

/-- The number of the chain whose drafts an eager pass verifies: a capture warms up with two. -/
def verifiedChain (cfg : GemmaSpecCfg) (kr : ℕ) (bucket : Option ℕ) (s : GemmaSpecState) : ℕ :=
  match bucket with
  | some rung =>
    if cfg.graphOn && (s.graphs.lookup (.chain kr rung (s.overWin cfg))).isNone then
      s.stream.dev.chains + 2
    else s.stream.dev.chains
  | none => s.stream.dev.chains

/-- The device with the batch of an eager pass drafted. -/
structure Drafted (D : GemmaDrafter) (c kr : ℕ) (d d' : SpecDev) : Prop where
  kv : d'.toStreamKv = d.toStreamKv
  all : d'.slots 0 (kr + 1) = d.batch 0 :: D.chain c kr
  drafts : d'.slots 1 kr = D.chain c kr

theorem drafted (kr : ℕ) (d : SpecDev) : Drafted D d.chains kr d (d.draftChain D kr) := by
  obtain ⟨h1, h2⟩ := draftChain_slots (D := D) kr d
  refine ⟨rfl, h1, ?_⟩
  rw [h2 kr (Nat.le_refl _), List.take_of_length_le (by simp)]

/-- Two more chains before it do not matter. -/
theorem drafted_warm (kr : ℕ) (d : SpecDev) :
    Drafted D (d.chains + 2) kr d
      (((WorkStream.runOps [SpecDev.draftChain D kr])^[2] d).draftChain D kr) := by
  have hbatch : ((WorkStream.runOps [SpecDev.draftChain D kr])^[2] d).batch 0 = d.batch 0 := by
    simp [WorkStream.runOps, SpecDev.draftChain]
  have hd := drafted (D := D) kr ((WorkStream.runOps [SpecDev.draftChain D kr])^[2] d)
  exact ⟨draftChains_kv kr 3 d, hbatch ▸ hd.all, hd.drafts⟩

/-- **The draft of an eager pass.** -/
theorem eagerDraft_spec (hidle : s.stream = { dev := s.stream.dev })
    (hg : ∀ g ∈ s.graphs, GraphOk T D cfg g.1 g.2) (kr : ℕ) (bucket : Option ℕ) :
    ∃ kr' d graphs, eagerDraft D cfg kr bucket s =
        (kr', { s with stream := { dev := d }, graphs }) ∧ kr' ≤ kr ∧ (1 ≤ kr → 1 ≤ kr') ∧
      (∀ g ∈ graphs, GraphOk T D cfg g.1 g.2) ∧
      Drafted D (verifiedChain cfg kr bucket s) kr' s.stream.dev d := by
  have hspot : ∀ inround, ∃ kr' d graphs,
      (cutDepth (D.prob s.stream.dev.chains) inround kr,
          s.enqueue [SpecDev.draftChain D (cutDepth (D.prob s.stream.dev.chains) inround kr)]) =
        (kr', { s with stream := { dev := d }, graphs }) ∧ kr' ≤ kr ∧ (1 ≤ kr → 1 ≤ kr') ∧
      (∀ g ∈ graphs, GraphOk T D cfg g.1 g.2) ∧
      Drafted D s.stream.dev.chains kr' s.stream.dev d := by
    intro inround
    obtain ⟨h1, h2⟩ := cutDepth_le (D.prob s.stream.dev.chains) inround kr
    refine ⟨_, _, s.graphs, ?_, h1, h2, hg, drafted _ _⟩
    rw [enqueue_idle _ hidle]
    rfl
  unfold eagerDraft verifiedChain
  cases bucket with
  | none => exact hspot _
  | some rung =>
    cases hon : cfg.graphOn with
    | false => exact hspot _
    | true =>
      simp only [if_true, Bool.true_and]
      cases hl : (s.graphs.lookup (.chain kr rung (s.overWin cfg))).isNone with
      | true =>
        refine ⟨kr, _, (.chain kr rung (s.overWin cfg), [SpecDev.draftChain D kr]) :: s.graphs, ?_,
          Nat.le_refl _, id, fun g hm => ?_, drafted_warm kr s.stream.dev⟩
        · simp only [if_true, captureRetained_idle _ _ hidle, GemmaSpecState.graph, graph_cons,
            WorkStream.launch_idle, WorkStream.runOps_cons, WorkStream.runOps_nil]
        · cases List.mem_cons.1 hm with
          | inl heq => exact heq ▸ rfl
          | inr hm => exact hg g hm
      | false =>
        have hf : s.graph (.chain kr rung (s.overWin cfg)) = [SpecDev.draftChain D kr] :=
          hg _ (graph_mem hl)
        refine ⟨kr, _, s.graphs, ?_, Nat.le_refl _, id, hg, drafted kr s.stream.dev⟩
        simp only [Bool.false_eq_true, if_false, hf]
        rw [hidle, WorkStream.launch_idle]
        rfl

/-- What an eager pass accepts. -/
def eagerLen (T : Trunk σ η) (D : GemmaDrafter) (c kr : ℕ) (s : GemmaSpecState) : ℕ :=
  acceptLen (D.chain c kr)
    (verifyPreds T (T.after (s.stream.dev.rows.take s.pos)) s.last (D.chain c kr))

theorem eagerVerify_eq (hidle : s.stream = { dev := s.stream.dev }) {kr : ℕ} {ds : List Tok}
    (hall : s.stream.dev.slots 0 (kr + 1) = s.last :: ds) :
    eagerVerify T kr s =
      (verifyPreds T (T.after (s.stream.dev.rows.take s.pos)) s.last ds,
        { s with
          stream := { dev := s.stream.dev.verifyRows T s.pos (kr + 1) }
          pos := s.pos + (kr + 1), kvLen := s.kvLen.map (· + (kr + 1)) }) := by
  simp only [eagerVerify, enqueue_idle _ hidle, hall]
  rfl

/-- An eager verify stays within the cache. -/
theorem GemmaInv.verifyRows_high (h : GemmaInv T D cfg prompt maxNew eos s)
    (hlt : s.out.length < maxNew) {c kr : ℕ} (hkr : kr ≤ cfg.kCap)
    (hall : s.stream.dev.slots 0 (kr + 1) = s.last :: D.chain c kr) :
    (s.stream.dev.verifyRows T s.pos (kr + 1)).high ≤ gemmaMaxCtx cfg maxNew prompt := by
  show max s.stream.dev.high (s.pos + (s.stream.dev.slots 0 (kr + 1)).length) ≤ _
  have hp := h.pos
  have hcap : cfg.kCap ≤ max cfg.k 1 := by
    unfold GemmaSpecCfg.kCap
    omega
  refine Nat.max_le.2 ⟨h.high, ?_⟩
  simp only [hall, List.length_cons, GemmaDrafter.chain_length, gemmaMaxCtx]
  omega

theorem eagerKeep_idle (hidle : s.stream = { dev := s.stream.dev }) (kr m : ℕ) (vam : List Tok)
    (prob : ℕ → ℚ) :
    eagerKeep cfg kr m vam prob s =
      { s with
        stream := { dev := { s.stream.dev with lenD := s.kvLen.map (· - (kr + 1 - (m + 1))) } }
        kvLen := s.kvLen.map (· - (kr + 1 - (m + 1)))
        pos := s.pos - (kr + 1 - (m + 1))
        last := vam.getD m 0
        kc := adaptDepth cfg (s.pos - (kr + 1 - (m + 1))) m kr prob s.kc } := by
  simp only [eagerKeep, enqueue_idle _ hidle]
  rfl

/-- **The eager arm from its verify on**, unless it accepts a draft with one token to go. -/
theorem eagerRound_spec (h : GemmaInv T D cfg prompt maxNew eos s) (hlt : s.out.length < maxNew)
    {c kr : ℕ} (hkr : kr ≤ cfg.kCap)
    (hall : s.stream.dev.slots 0 (kr + 1) = s.last :: D.chain c kr)
    (hdrafts : s.stream.dev.slots 1 kr = D.chain c kr)
    (hfine : s.out.length + 1 = maxNew → s.last ∉ eos → eagerLen T D c kr s = 0) :
    Passed T D cfg prompt maxNew eos s.out.length (eagerRound T D cfg maxNew eos kr s) := by
  have hp := h.pos
  have hrows : s.stream.dev.rows.take s.pos =
      prompt ++ T.greedy (T.after prompt) s.out.length := by
    rw [← h.out]
    exact h.rows
  have hstep : T.step (T.after (s.stream.dev.rows.take s.pos)) s.last =
      T.feed (T.after prompt) (T.greedy (T.after prompt) (s.out.length + 1)) := by
    rw [hrows, T.after_append, h.last, T.feed_greedy_succ]
  obtain ⟨hle, htake, hnext⟩ :=
    accept_spec (T := T) (T.after (s.stream.dev.rows.take s.pos)) s.last (D.chain c kr) kr
  rw [List.take_of_length_le (by simp : (D.chain c kr).length ≤ kr)] at hle htake hnext
  change eagerLen T D c kr s ≤ _ at hle
  change (D.chain c kr).take (eagerLen T D c kr s) = T.greedy _ (eagerLen T D c kr s) at htake
  change List.getD _ (eagerLen T D c kr s) 0 = T.nth _ (eagerLen T D c kr s) at hnext
  rw [hstep] at htake hnext
  rw [← T.nth_add] at hnext
  rw [GemmaDrafter.chain_length] at hle
  have hverify := eagerVerify_eq (T := T) h.stream hall
  have hdev := h.verifyRows_high hlt hkr hall
  unfold eagerRound
  simp only [hverify, hdrafts]
  rw [show acceptLen (D.chain c kr) _ = eagerLen T D c kr s from rfl]
  by_cases he : s.last ∈ eos
  · rw [if_pos he]
    exact ⟨h.push_ends hlt (.inl he), hdev⟩
  rw [if_neg he]
  generalize hmdef : eagerLen T D c kr s = m at hle htake hnext hfine
  -- what the loop emits: the accepted drafts, or the decoding up to its end
  have hemit : emitUntil maxNew eos ((D.chain c kr).take m) (s.out ++ [s.last]) =
        (false, T.greedy (T.after prompt) (s.out.length + 1 + m)) ∧
        (∀ t ∈ T.greedy (T.after prompt) (s.out.length + 1 + m), t ∉ eos) ∧
        s.out.length + 1 + m ≤ maxNew ∨
      emitUntil maxNew eos ((D.chain c kr).take m) (s.out ++ [s.last]) =
        (true, T.greedyUntil eos maxNew (T.after prompt)) := by
    have hno : ∀ t ∈ s.out ++ [s.last], t ∉ eos := by
      intro t ht
      rcases List.mem_append.1 ht with ht | ht
      · exact h.noEos t ht
      · exact List.mem_singleton.1 ht ▸ he
    have hstretch : s.out ++ [s.last] ++ (D.chain c kr).take m =
        T.greedy (T.after prompt) (s.out.length + 1 + m) := by
      rw [h.push, htake, ← T.greedy_add]
    cases Nat.lt_or_ge (s.out.length + 1) maxNew with
    | inl hroom =>
      have hroom' : (s.out ++ [s.last]).length < maxNew := by
        simpa using hroom
      rcases emitUntil_spec hstretch hno hroom' with ⟨h1, h2, h3⟩ | h1
      · exact .inl ⟨h1, h2, h3.le⟩
      · exact .inr h1
    | inr hge =>
      obtain rfl : m = 0 := hfine (by omega) he
      refine .inl ⟨?_, ?_, by omega⟩
      · rw [← hstretch]
        simp [emitUntil]
      · rw [← hstretch]
        simpa using hno
  rcases hemit with ⟨h1, hno, hle'⟩ | h1
  · rw [h1]
    have hpos : s.pos + (kr + 1) - (kr + 1 - (m + 1)) = prompt.length + (s.out.length + 1 + m) := by
      omega
    have hkv : ∀ len ∈ (s.kvLen.map (· + (kr + 1))).map (· - (kr + 1 - (m + 1))),
        len = s.pos + (kr + 1) - (kr + 1 - (m + 1)) := by
      intro len hl
      simp only [List.mem_map, exists_exists_and_eq_and] at hl
      obtain ⟨a, ha, rfl⟩ := hl
      rw [h.kvLen a ha]
    simp only
    rw [eagerKeep_idle rfl]
    refine ⟨⟨rfl, hkv, hkv, ?_, ?_, ?_, ?_, hno, ?_, adaptDepth_le _ _ _ _ h.kc, h.graphs, hdev⟩, ?_⟩
    · simpa using hpos
    · rw [hpos]
      show (s.stream.dev.rows.take s.pos ++ s.stream.dev.slots 0 (kr + 1)).take _ = _
      rw [hall, hrows, h.last]
      exact accept_rows htake
    · simp
    · simp only [Trunk.greedy_length]
      exact hnext
    · simpa using hle'
    · simp only [Trunk.greedy_length]
      omega
  · rw [h1]
    exact ⟨rfl, hdev⟩

/-- An eager pass that accepts a draft with one token to go emits it past `max_new`. -/
theorem eagerRound_overshoots (h : GemmaInv T D cfg prompt maxNew eos s)
    (hleft : s.out.length + 1 = maxNew) (he : s.last ∉ eos) {c kr : ℕ} (hkr : kr ≤ cfg.kCap)
    (hall : s.stream.dev.slots 0 (kr + 1) = s.last :: D.chain c kr)
    (hdrafts : s.stream.dev.slots 1 kr = D.chain c kr) (hm : 0 < eagerLen T D c kr s) :
    ∃ u, eagerRound T D cfg maxNew eos kr s = .leave u ∧ u.out.length = maxNew + 1 ∧
      u.stream.dev.high ≤ gemmaMaxCtx cfg maxNew prompt := by
  have hdev := h.verifyRows_high (by omega) hkr hall
  obtain ⟨d, ds, hds⟩ : ∃ d ds, (D.chain c kr).take (eagerLen T D c kr s) = d :: ds := by
    cases hc : D.chain c kr with
    | nil =>
      rw [eagerLen, hc] at hm
      exact absurd hm (Nat.lt_irrefl 0)
    | cons d ds =>
      obtain ⟨m, hm⟩ : ∃ m, eagerLen T D c kr s = m + 1 := ⟨eagerLen T D c kr s - 1, by omega⟩
      exact ⟨d, ds.take m, by rw [hm, List.take_succ_cons]⟩
  have hemit : emitUntil maxNew eos ((D.chain c kr).take (eagerLen T D c kr s))
      (s.out ++ [s.last]) = (true, s.out ++ [s.last] ++ [d]) := by
    rw [hds, emitUntil, if_pos (.inr (by simp only [List.length_append, List.length_singleton]; omega))]
  unfold eagerRound
  simp only [eagerVerify_eq h.stream hall, hdrafts]
  rw [show acceptLen (D.chain c kr) _ = eagerLen T D c kr s from rfl]
  rw [if_neg he, hemit]
  refine ⟨_, rfl, ?_, hdev⟩
  simp only [List.length_append, List.length_singleton]
  omega

/-! ## A pass -/

/-- A pass at `s` is an eager one. -/
def GemmaSpecState.Eager (cfg : GemmaSpecCfg) (maxCtx maxNew : ℕ) (s : GemmaSpecState) : Prop :=
  s.dcBucket cfg (s.burstOk cfg maxCtx maxNew) = none ∨
    s.roundOk cfg maxCtx = false ∧ s.burstOk cfg maxCtx maxNew = false

/-- An eager pass with one token to go, whose pending token does not end the decoding and whose drafter
proposes first what the trunk predicts after it. -/
structure Overshoots (T : Trunk σ η) (D : GemmaDrafter) (cfg : GemmaSpecCfg) (prompt : List Tok)
    (maxNew : ℕ) (eos : List Tok) (s : GemmaSpecState) : Prop where
  eager : s.Eager cfg (gemmaMaxCtx cfg maxNew prompt) maxNew
  left : s.out.length + 1 = maxNew
  pending : s.last ∉ eos
  draft :
    let burstOk := s.burstOk cfg (gemmaMaxCtx cfg maxNew prompt) maxNew
    D.token (verifiedChain cfg (s.depth cfg burstOk) (s.dcBucket cfg burstOk) s) 0 =
      T.pred (T.step (T.after (prompt ++ s.out)) s.last)

/-- **An eager pass** is an eager round over a drafted batch. -/
theorem eager_pass (h : GemmaInv T D cfg prompt maxNew eos s) (hlt : s.out.length < maxNew)
    (heager : s.Eager cfg (gemmaMaxCtx cfg maxNew prompt) maxNew) :
    ∃ c kr u, gemmaPass T D cfg (gemmaMaxCtx cfg maxNew prompt) maxNew eos s =
        eagerRound T D cfg maxNew eos kr u ∧
      GemmaInv T D cfg prompt maxNew eos u ∧ u.out = s.out ∧ u.last = s.last ∧ kr ≤ cfg.kCap ∧
      u.stream.dev.slots 0 (kr + 1) = u.last :: D.chain c kr ∧
      u.stream.dev.slots 1 kr = D.chain c kr ∧
      (0 < eagerLen T D c kr u ↔
        let burstOk := s.burstOk cfg (gemmaMaxCtx cfg maxNew prompt) maxNew
        D.token (verifiedChain cfg (s.depth cfg burstOk) (s.dcBucket cfg burstOk) s) 0 =
          T.pred (T.step (T.after (prompt ++ s.out)) s.last)) := by
  unfold GemmaSpecState.Eager at heager
  generalize hb : s.burstOk cfg (gemmaMaxCtx cfg maxNew prompt) maxNew = burstOk at heager ⊢
  have hdepth : 1 ≤ s.depth cfg burstOk ∧ s.depth cfg burstOk ≤ cfg.kCap := by
    have := cfg.kCap_pos
    have := h.kc
    unfold GemmaSpecState.depth
    split
    · omega
    · split <;> omega
  -- the pass with its token in the batch
  obtain ⟨s1, hs1⟩ : ∃ s1 : GemmaSpecState, s1 = { s with
      stream := { dev := { s.stream.dev with
        batch := Function.update s.stream.dev.batch 0 s.last } } } := ⟨_, rfl⟩
  have h1 : GemmaInv T D cfg prompt maxNew eos s1 := by
    rw [hs1]
    exact h.frame rfl rfl rfl h.graphs
  obtain ⟨kr, d, graphs, heq, hle, hpos, hg, hdr⟩ :=
    eagerDraft_spec h1.stream h1.graphs (s.depth cfg burstOk) (s.dcBucket cfg burstOk)
  have hbatch : s1.stream.dev.batch 0 = s.last := by
    rw [hs1]
    exact Function.update_self (f := s.stream.dev.batch) 0 s.last
  have hchain : verifiedChain cfg (s.depth cfg burstOk) (s.dcBucket cfg burstOk) s1 =
      verifiedChain cfg (s.depth cfg burstOk) (s.dcBucket cfg burstOk) s := by
    rw [hs1]
    rfl
  have h2 : GemmaInv T D cfg prompt maxNew eos { s1 with stream := { dev := d }, graphs } :=
    h1.frame (congrArg StreamKv.lenD hdr.kv) (congrArg StreamKv.rows hdr.kv)
      (congrArg StreamKv.high hdr.kv) hg
  have hfields : s1.out = s.out ∧ s1.last = s.last ∧ s1.pos = s.pos := by
    rw [hs1]
    exact ⟨rfl, rfl, rfl⟩
  obtain ⟨hout, hlast, hp⟩ := hfields
  have hall := hdr.all
  rw [hbatch, ← hlast] at hall
  refine ⟨_, kr, _, ?_, h2, hout, hlast, by omega, hall, hdr.drafts, ?_⟩
  · unfold gemmaPass
    rw [if_pos hlt, hb]
    simp only [enqueue_idle _ h.stream, WorkStream.runOps_cons, WorkStream.runOps_nil]
    rw [← hs1]
    rcases heager with hn | ⟨hr, hbf⟩
    · rw [hn] at heq ⊢
      simp only [heq]
    · have hr1 : s1.roundOk cfg (gemmaMaxCtx cfg maxNew prompt) = false := by
        rw [hs1]
        exact hr
      cases hbk : s.dcBucket cfg burstOk with
      | none =>
        rw [hbk] at heq
        simp only [heq]
      | some rung =>
        rw [hbk] at heq
        simp only [hr1, hbf, Bool.false_eq_true, if_false]
        rw [← hbf, heq]
  · obtain ⟨k, rfl⟩ : ∃ k, kr = k + 1 := ⟨kr - 1, by omega⟩
    have hcons : ∀ c, D.chain c (k + 1) =
        D.token c 0 :: (List.range k).map (D.token c ∘ Nat.succ) := by
      intro c
      rw [GemmaDrafter.chain, List.range_succ_eq_map, List.map_cons, List.map_map]
    have hrows : d.rows.take s1.pos = prompt ++ s.out := by
      rw [← hout]
      exact h2.rows
    show 0 < acceptLen _ (verifyPreds T (T.after (d.rows.take s1.pos)) s1.last _) ↔ _
    rw [hcons, acceptLen_pos, hrows, hlast, hchain]

/-- **A pass that is not eager** is a stream arm. -/
theorem stream_pass (h : GemmaInv T D cfg prompt maxNew eos s) (hlt : s.out.length < maxNew)
    (hstream : ¬ s.Eager cfg (gemmaMaxCtx cfg maxNew prompt) maxNew) :
    Passed T D cfg prompt maxNew eos s.out.length
      (gemmaPass T D cfg (gemmaMaxCtx cfg maxNew prompt) maxNew eos s) := by
  unfold GemmaSpecState.Eager at hstream
  obtain ⟨s1, hs1⟩ : ∃ s1 : GemmaSpecState, s1 = { s with
      stream := { dev := { s.stream.dev with
        batch := Function.update s.stream.dev.batch 0 s.last } } } := ⟨_, rfl⟩
  have h1 : GemmaInv T D cfg prompt maxNew eos s1 := by
    rw [hs1]
    exact h.frame rfl rfl rfl h.graphs
  have hsame : s1.out = s.out ∧ s1.burstOk cfg (gemmaMaxCtx cfg maxNew prompt) maxNew =
      s.burstOk cfg (gemmaMaxCtx cfg maxNew prompt) maxNew ∧
      s1.roundOk cfg (gemmaMaxCtx cfg maxNew prompt) =
        s.roundOk cfg (gemmaMaxCtx cfg maxNew prompt) := by
    rw [hs1]
    exact ⟨rfl, rfl, rfl⟩
  obtain ⟨hout, hburst, hround⟩ := hsame
  unfold gemmaPass
  rw [if_pos hlt]
  simp only [enqueue_idle _ h.stream, WorkStream.runOps_cons, WorkStream.runOps_nil]
  rw [← hs1]
  cases hbk : s.dcBucket cfg (s.burstOk cfg (gemmaMaxCtx cfg maxNew prompt) maxNew) with
  | none => exact absurd (.inl hbk) hstream
  | some rung =>
    simp only
    rw [← hout] at hlt ⊢
    cases hr : s1.roundOk cfg (gemmaMaxCtx cfg maxNew prompt) with
    | true => exact roundArm_spec h1 hlt hr rung
    | false =>
      cases hb : s.burstOk cfg (gemmaMaxCtx cfg maxNew prompt) maxNew with
      | true => exact burstArm_spec h1 hlt (hburst.trans hb) rung
      | false => exact absurd (.inr ⟨hround.symm.trans hr, hb⟩) hstream

/-- **One pass**: the next head, or the whole decoding. -/
theorem gemmaPass_spec (h : GemmaInv T D cfg prompt maxNew eos s)
    (hno : ¬ Overshoots T D cfg prompt maxNew eos s) :
    Passed T D cfg prompt maxNew eos s.out.length
      (gemmaPass T D cfg (gemmaMaxCtx cfg maxNew prompt) maxNew eos s) := by
  cases Nat.lt_or_ge s.out.length maxNew with
  | inl hlt =>
    by_cases heager : s.Eager cfg (gemmaMaxCtx cfg maxNew prompt) maxNew
    · obtain ⟨c, kr, u, hpass, hu, hout, hlast, hkr, hall, hdrafts, hiff⟩ := eager_pass h hlt heager
      rw [hpass, ← hout]
      refine eagerRound_spec hu (hout ▸ hlt) hkr hall hdrafts fun hleft he => ?_
      by_contra hm
      rw [hlast] at he
      rw [hout] at hleft
      exact hno ⟨heager, hleft, he, hiff.1 (Nat.pos_of_ne_zero hm)⟩
    · exact stream_pass h hlt heager
  | inr hge =>
    have hlen : s.out.length = maxNew := Nat.le_antisymm h.le hge
    have hno := h.noEos
    have hout := h.out
    rw [hlen] at hout
    rw [hout] at hno
    unfold gemmaPass
    rw [if_neg (by omega)]
    exact ⟨hout.trans (T.greedyUntil_eq_greedy _ _ hno).symm, h.high⟩

/-- **A pass that overshoots** leaves with a token too many. -/
theorem gemmaPass_overshoots (h : GemmaInv T D cfg prompt maxNew eos s)
    (ho : Overshoots T D cfg prompt maxNew eos s) :
    ∃ u, gemmaPass T D cfg (gemmaMaxCtx cfg maxNew prompt) maxNew eos s = .leave u ∧
      u.out.length = maxNew + 1 ∧ u.stream.dev.high ≤ gemmaMaxCtx cfg maxNew prompt := by
  have hleft := ho.left
  obtain ⟨c, kr, u, hpass, hu, hout, hlast, hkr, hall, hdrafts, hiff⟩ :=
    eager_pass h (by omega) ho.eager
  rw [hpass]
  exact eagerRound_overshoots hu (hout ▸ hleft) (hlast ▸ ho.pending) hkr hall hdrafts
    (hiff.2 ho.draft)

end

/-! ## The loop -/

/-- The states `generate_spec_gemma` comes to at its loop's head. -/
def GemmaHead (T : Trunk σ η) (D : GemmaDrafter) (cfg : GemmaSpecCfg) (maxNew : ℕ) (eos : List Tok)
    (layers : ℕ) (prompt : List Tok) (s : GemmaSpecState) : Prop :=
  Loop.Reaches (gemmaPass T D cfg (gemmaMaxCtx cfg maxNew prompt) maxNew eos)
    (gemmaStart T cfg layers prompt) s

/-- Host position, host lengths and device lengths all count the prompt and the emitted tokens. -/
structure GemmaSpecState.InStep (prompt : List Tok) (s : GemmaSpecState) : Prop where
  pos : s.pos = prompt.length + s.out.length
  kvLen : ∀ len ∈ s.kvLen, len = s.pos
  lenD : ∀ len ∈ s.stream.dev.lenD, len = s.pos

section

variable {maxNew layers : ℕ} {eos : List Tok} {s : GemmaSpecState}

theorem gemmaStart_inv (layers : ℕ) :
    GemmaInv T D cfg prompt maxNew eos (gemmaStart T cfg layers prompt) := by
  refine ⟨rfl, fun len hl => List.eq_of_mem_replicate hl, fun len hl => List.eq_of_mem_replicate hl,
    rfl, ?_, rfl, rfl, ?_, Nat.zero_le _, ⟨cfg.kCap_pos, Nat.le_refl _⟩, ?_, ?_⟩
  · simp [gemmaStart]
  · intro t ht
    cases ht
  · intro g hg
    cases hg
  · simp only [gemmaStart, gemmaMaxCtx]
    omega

/-- A pass that overshoots leaves, so every head meets the invariant. -/
theorem gemmaHead_inv (hs : GemmaHead T D cfg maxNew eos layers prompt s) :
    GemmaInv T D cfg prompt maxNew eos s := by
  refine hs.invariant _ (gemmaStart_inv layers) fun t u ht hi hu => ?_
  by_cases ho : Overshoots T D cfg prompt maxNew eos t
  · obtain ⟨v, hv, -⟩ := gemmaPass_overshoots hi ho
    rw [hv] at hu
    cases hu
  · have := gemmaPass_spec hi ho
    rw [hu] at this
    exact this.1

/-- **`generate_spec_gemma` returns the greedy continuation, in step at every head and within its rows,
exactly when no pass overshoots.** -/
theorem generateSpecGemma_iff (T : Trunk σ η) (D : GemmaDrafter) (cfg : GemmaSpecCfg) (maxNew : ℕ)
    (eos : List Tok) (layers : ℕ) (prompt : List Tok) :
    ((∃ r, generateSpecGemma T D cfg maxNew eos layers prompt = some r ∧
        r.out = T.greedyUntil eos maxNew (T.after prompt)) ∧
      (∀ s, GemmaHead T D cfg maxNew eos layers prompt s → s.InStep prompt) ∧
      ∀ s, GemmaHead T D cfg maxNew eos layers prompt s →
        (gemmaPass T D cfg (gemmaMaxCtx cfg maxNew prompt) maxNew eos s).state.stream.dev.high ≤
          prompt.length + maxNew + cfg.k + 8) ↔
      ∀ s, GemmaHead T D cfg maxNew eos layers prompt s →
        ¬ Overshoots T D cfg prompt maxNew eos s := by
  constructor
  · rintro ⟨⟨r, hr, hout⟩, -, -⟩ s hs ho
    obtain ⟨u, hu, hlen, -⟩ := gemmaPass_overshoots (gemmaHead_inv hs) ho
    obtain rfl := hs.run_eq hu hr
    have : (T.greedyUntil eos maxNew (T.after prompt)).length ≤ maxNew :=
      T.greedyUntil_length_le maxNew _
    rw [← hout] at this
    omega
  · intro hno
    have hpass : ∀ s, GemmaHead T D cfg maxNew eos layers prompt s →
        Passed T D cfg prompt maxNew eos s.out.length
          (gemmaPass T D cfg (gemmaMaxCtx cfg maxNew prompt) maxNew eos s) := fun s hs =>
      gemmaPass_spec (gemmaHead_inv hs) (hno s hs)
    refine ⟨?_, fun s hs => ?_, fun s hs => ?_⟩
    · refine Loop.run_spec (fun s => maxNew - s.out.length) (fun s u hs hu => ?_)
        (fun s u hs hu => ?_) (Nat.lt_succ_of_le (Nat.sub_le _ _))
      · have := hpass s hs
        rw [hu] at this
        have hle := this.1.le
        have hgrow := this.2
        omega
      · have := hpass s hs
        rw [hu] at this
        exact this.1
    · have hi := gemmaHead_inv hs
      exact ⟨hi.pos, hi.kvLen, hi.lenD⟩
    · have := hpass s hs
      cases hf : gemmaPass T D cfg (gemmaMaxCtx cfg maxNew prompt) maxNew eos s with
      | again u =>
        rw [hf] at this
        exact this.1.high
      | leave u =>
        rw [hf] at this
        exact this.2

end

/-! ## The pass that overshoots -/

/-- A drafter that always proposes token one. -/
def onesDrafter : GemmaDrafter where
  token := fun _ _ => 1
  prob := fun _ _ => 1

/-- Depth one, everything optional off. -/
def plainSpecCfg : GemmaSpecCfg where
  k := 1
  capMax := 7
  pmin := 0
  pminIrEnv := none
  adapt := true
  adaptFloorEnv := none
  adaptFloorDefault := 1
  floorCtx := 1024
  draftDc := true
  graphOn := false
  roundGraphOn := false
  bodyCheck := false
  burstM := 0
  burstGraph := false
  winMain := 1024
  fa512MinTkv := 768
  sharedKvLayers := 0
  isE4b := false
  rowsEligible := fun _ => false
  draftSwa := false
  draftWin := 1024
  kvTarget := 0

/-- One token is asked for, and two are returned: the pending one and the accepted draft. -/
theorem generateSpecGemma_overshoots :
    (generateSpecGemma onesTrunk onesDrafter plainSpecCfg 1 [] 1 [0]).map (fun s => s.out) =
        some [1, 1] ∧
      [1, 1] ≠ onesTrunk.greedyUntil [] 1 (onesTrunk.after [0]) := by
  decide

end Memra
