import Memra.Engine.PlainGraph

/-!
# The plain-decode graph loop decodes greedily where it never captures

`DevAt n`: the device after `n` steps of the body. A step takes it to `DevAt (n + 1)`
(`DevAt.step`), so a branch that runs as many steps as it counts keeps the host and the device together
(`branch_spec`), and the drain reads what these steps wrote (`drain_spec`). `PlainInv` is the invariant
of the loop's heads and `pass_spec` one pass. A capture runs two steps and counts `servedByCapture`;
`plainGraph_exact_iff` says that this is the only way the loop goes wrong.
-/

namespace Memra

open Lib

variable {σ η : Type} {T : Trunk σ η} {cfg : PlainCfg} {prompt : List Tok} {last : Tok}

/-! ## Regimes -/

theorem nextPow2_mono {m n : ℕ} (h : m ≤ n) : nextPow2 m ≤ nextPow2 n :=
  Nat.pow_le_pow_right (by decide) (Nat.clog_mono_right 2 h)

/-- A regime at both ends of a stretch holds all along it. -/
theorem PlainCfg.regimeKey_between {p q r : ℕ} (hpq : p ≤ q) (hqr : q ≤ r)
    (h : cfg.regimeKey p = cfg.regimeKey r) : cfg.regimeKey q = cfg.regimeKey p := by
  have hlow : nextPow2 (p + cfg.drain + 2) ≤ nextPow2 (q + cfg.drain + 2) := nextPow2_mono (by omega)
  have hhigh : nextPow2 (q + cfg.drain + 2) ≤ nextPow2 (r + cfg.drain + 2) :=
    nextPow2_mono (by omega)
  simp only [regimeKey, Prod.mk.injEq, decide_eq_decide] at h ⊢
  omega

theorem PlainCfg.usesGraph_stable {pos left : ℕ} (h : cfg.usesGraph pos left = true) :
    4 ≤ min cfg.drain left ∧ ∀ j < min cfg.drain left,
      cfg.regimeKey pos = cfg.regimeKey (pos + j) := by
  simp only [usesGraph, stableFor, Bool.and_eq_true, decide_eq_true_eq] at h
  obtain ⟨⟨-, h4⟩, ⟨hkey, -⟩, -⟩ := h
  refine ⟨h4, fun j hj => ?_⟩
  exact (regimeKey_between (by omega) (by omega) hkey).symm

/-! ## The device -/

/-- The state that the loop decodes from. -/
abbrev plainFrom (T : Trunk σ η) (prompt : List Tok) (last : Tok) : σ := T.after (prompt ++ [last])

/-- The device after `n` steps of the body. -/
structure DevAt (T : Trunk σ η) (cfg : PlainCfg) (prompt : List Tok) (last : Tok) (n : ℕ)
    (d : PlainDev) : Prop where
  counters : d.toStreamKv.At (prompt.length + n)
  rows : d.rows ++ [d.tok] = prompt ++ last :: T.greedy (plainFrom T prompt last) n
  ring : ∀ j < n, n ≤ j + cfg.ringCap →
    d.ring (j % cfg.ringCap) = T.nth (plainFrom T prompt last) j ∧
      d.wrote (j % cfg.ringCap) = some (prompt.length + j)
  regimes : ∀ e ∈ d.ran, e.1 = cfg.regimeKey e.2

section

variable {n : ℕ} {d : PlainDev}

/-- What the step body does to the device. -/
theorem runOps_stepOps (hint : ℕ) (regime : Regime) (base cap : ℕ) (d : PlainDev) :
    WorkStream.runOps (PlainDev.stepOps T hint regime base cap) d =
      { posCtr := d.posCtr + 1 + 0
        posStart := d.posCtr
        lenD := d.lenD.map fun _ => d.posCtr + 1 + 0
        rows := d.rows.take d.posCtr ++ [d.tok]
        high := max d.high (d.posCtr + 1)
        tok := T.pred (T.step (T.after (d.rows.take d.posCtr)) d.tok)
        vam := T.pred (T.step (T.after (d.rows.take d.posCtr)) d.tok)
        ring := Function.update d.ring ((d.posCtr - base) % cap)
          (T.pred (T.step (T.after (d.rows.take d.posCtr)) d.tok))
        wrote := Function.update d.wrote ((d.posCtr - base) % cap) (some d.posCtr)
        ran := d.ran ++ [(regime, d.posCtr)] } := by
  simp [PlainDev.stepOps, PlainDev.verify, PlainDev.plainTokRing, StreamKv.copyPos,
    StreamKv.verifyStream, StreamKv.verifyAt, StreamKv.appendAt, StreamKv.rollbackStream, Trunk.cols]

theorem runOps_posCtr (hint : ℕ) (regime : Regime) (base cap : ℕ) (d : PlainDev) :
    (WorkStream.runOps (PlainDev.stepOps T hint regime base cap) d).posCtr = d.posCtr + 1 := by
  rw [runOps_stepOps]

/-- **One step of the body.** -/
theorem DevAt.step (h : DevAt T cfg prompt last n d) {regime : Regime} (hint : ℕ)
    (hr : regime = cfg.regimeKey (prompt.length + n)) :
    DevAt T cfg prompt last (n + 1)
      (WorkStream.runOps (PlainDev.stepOps T hint regime prompt.length cfg.ringCap) d) := by
  have hpos := h.counters.1
  have hlen : d.rows.length = d.posCtr := by
    have := congrArg List.length h.rows
    simp only [List.length_append, List.length_cons, List.length_nil, Trunk.greedy_length] at this
    omega
  have htake : d.rows.take d.posCtr = d.rows := List.take_of_length_le (by omega)
  have hpred : T.pred (T.step (T.after d.rows) d.tok) = T.nth (plainFrom T prompt last) n := by
    rw [← T.after_concat, h.rows, Trunk.nth, List.append_cons, T.after_append]
  have hslot : d.posCtr - prompt.length = n := by omega
  rw [runOps_stepOps, htake, hpred, hslot]
  refine ⟨⟨?_, fun len hl => ?_⟩, ?_, fun j hj hjn => ?_, fun e he => ?_⟩
  · show d.posCtr + 1 + 0 = _
    omega
  · simp only [List.mem_map] at hl
    obtain ⟨_, _, rfl⟩ := hl
    omega
  · show d.rows ++ [d.tok] ++ _ = _
    rw [h.rows, T.greedy_concat]
    simp
  · cases Nat.lt_or_ge j n with
    | inl hlt =>
      have hne : j % cfg.ringCap ≠ n % cfg.ringCap := by
        intro heq
        have hdvd : cfg.ringCap ∣ n - j :=
          Nat.dvd_of_mod_eq_zero (Nat.sub_mod_eq_zero_of_mod_eq heq.symm)
        have := Nat.le_of_dvd (by omega) hdvd
        omega
      simp only [Function.update_of_ne hne]
      exact h.ring j hlt (by omega)
    | inr hge =>
      obtain rfl : j = n := by omega
      simp [hpos]
  · rcases List.mem_append.1 he with he | he
    · exact h.regimes e he
    · obtain rfl := List.mem_singleton.1 he
      simpa [hpos] using hr

theorem DevAt.steps (h : DevAt T cfg prompt last n d) {regime : Regime} (hint : ℕ) {k : ℕ}
    (hr : ∀ j < k, regime = cfg.regimeKey (prompt.length + n + j)) :
    DevAt T cfg prompt last (n + k)
      ((WorkStream.runOps (PlainDev.stepOps T hint regime prompt.length cfg.ringCap))^[k] d) := by
  induction k with
  | zero => simpa using h
  | succ k ih =>
    rw [Function.iterate_succ_apply']
    have hreg : regime = cfg.regimeKey (prompt.length + (n + k)) := by
      rw [← Nat.add_assoc]
      exact hr k (by omega)
    exact (ih fun j hj => hr j (by omega)).step hint hreg

end

/-! ## The host -/

/-- What must hold after a pass: the host stands where the device does, every slot read was written by
the step of its token, and every step ran in the regime its body was built for. -/
structure PlainOk (cfg : PlainCfg) (base : ℕ) (s : PlainState) : Prop where
  counters : s.stream.dev.toStreamKv.At s.pos
  kvLen : ∀ len ∈ s.kvLen, len = s.pos
  reads : ∀ r ∈ s.reads, r.2 = some (base + r.1)
  regimes : ∀ e ∈ s.stream.dev.ran, e.1 = cfg.regimeKey e.2

/-- What holds when `n` steps are counted and `out` is read off: `PlainInv` at a head, where all of them
are. -/
structure PlainRep (T : Trunk σ η) (cfg : PlainCfg) (prompt : List Tok) (last : Tok) (n : ℕ)
    (s : PlainState) : Prop where
  idle : s.stream.recording = none
  dev : DevAt T cfg prompt last n s.stream.dev
  pos : s.pos = prompt.length + n
  kvLen : ∀ len ∈ s.kvLen, len = s.pos
  graphs : ∀ g ∈ s.graphs, ∃ hint,
    g.2 = PlainDev.stepOps T hint g.1 prompt.length cfg.ringCap
  out : s.out = T.greedy (plainFrom T prompt last) s.out.length
  drained : s.drained = s.out.length
  reads : ∀ r ∈ s.reads, r.2 = some (prompt.length + r.1)

/-- The invariant of the loop's heads. -/
structure PlainInv (T : Trunk σ η) (cfg : PlainCfg) (prompt : List Tok) (last : Tok) (maxNew : ℕ)
    (eos : List Tok) (s : PlainState) : Prop where
  rep : PlainRep T cfg prompt last s.out.length s
  noEos : ∀ t ∈ s.out, t ∉ eos
  le : s.out.length ≤ maxNew

/-- The branch of a pass at `s` captures. -/
def PlainState.captures (cfg : PlainCfg) (maxNew : ℕ) (s : PlainState) : Prop :=
  cfg.usesGraph s.pos (maxNew - s.out.length) = true ∧
    s.graphs.lookup (cfg.regimeKey s.pos) = none

section

variable {maxNew served n : ℕ} {eos : List Tok} {s : PlainState}

theorem PlainRep.ok (h : PlainRep T cfg prompt last n s) : PlainOk cfg prompt.length s where
  counters := h.pos ▸ h.dev.counters
  kvLen := h.kvLen
  reads := h.reads
  regimes := h.dev.regimes

theorem plainStep_enqueues (T : Trunk σ η) (cfg : PlainCfg) (base pos : ℕ) :
    WorkStream.Enqueues (plainStep T cfg base pos)
      (PlainDev.stepOps T (cfg.hintFor pos) (cfg.regimeKey pos) base cfg.ringCap) :=
  fun _ => rfl

theorem branch_eager {base : ℕ} (hg : cfg.usesGraph s.pos (maxNew - s.out.length) = false) :
    plainBranch T cfg served base maxNew s =
      (1, plainStep T cfg base s.pos s.stream, s.graphs) := by
  simp [plainBranch, hg]

theorem branch_capture (T : Trunk σ η) (served base : ℕ) (h : s.captures cfg maxNew) :
    plainBranch T cfg served base maxNew s =
      (served, (s.stream.capture 2 (plainStep T cfg base s.pos)).2,
        (cfg.regimeKey s.pos, (s.stream.capture 2 (plainStep T cfg base s.pos)).1) :: s.graphs) := by
  simp [plainBranch, h.1, h.2]

theorem branch_replay {base : ℕ} {graph : PlainGraph}
    (hg : cfg.usesGraph s.pos (maxNew - s.out.length) = true)
    (hl : s.graphs.lookup (cfg.regimeKey s.pos) = some graph) :
    plainBranch T cfg served base maxNew s =
      (min cfg.drain (maxNew - s.out.length),
        (WorkStream.launch graph)^[min cfg.drain (maxNew - s.out.length)] s.stream, s.graphs) := by
  simp [plainBranch, hg, hl]

/-- **A branch** runs the steps it counts, unless it captures and counts more than the warm-ups. -/
theorem branch_spec (hcap : 0 < cfg.ringCap) (hdrain : cfg.drain ≤ cfg.ringCap)
    (h : PlainInv T cfg prompt last maxNew eos s) (hlt : s.out.length < maxNew)
    (hserved : s.captures cfg maxNew → served = 2) :
    ∃ steps stream graphs,
      plainBranch T cfg served prompt.length maxNew s = (steps, stream, graphs) ∧
      0 < steps ∧ steps ≤ cfg.ringCap ∧ s.out.length + steps ≤ maxNew ∧
      PlainRep T cfg prompt last (s.out.length + steps) (plainAdvance s steps stream graphs) ∧
      (cfg.usesGraph s.pos (maxNew - s.out.length) = false → steps = 1 ∧ graphs = s.graphs) := by
  have hstream : s.stream = { dev := s.stream.dev } := by
    rw [← h.rep.idle]
  have hpos := h.rep.pos
  have hkv : ∀ steps, ∀ len ∈ s.kvLen.map fun _ => s.pos + steps, len = s.pos + steps := by
    intro steps len hl
    simp only [List.mem_map] at hl
    obtain ⟨_, _, rfl⟩ := hl
    rfl
  -- a branch that runs the body `k` times, `k` counted
  have key : ∀ (k hint : ℕ) (regime : Regime) (graphs : List (Regime × PlainGraph)),
      (∀ j < k, regime = cfg.regimeKey (s.pos + j)) →
      (∀ g ∈ graphs, ∃ hint, g.2 = PlainDev.stepOps T hint g.1 prompt.length cfg.ringCap) →
      PlainRep T cfg prompt last (s.out.length + k)
        (plainAdvance s k { dev := (WorkStream.runOps
          (PlainDev.stepOps T hint regime prompt.length cfg.ringCap))^[k] s.stream.dev } graphs) := by
    intro k hint regime graphs hr hg
    refine ⟨rfl, h.rep.dev.steps hint fun j hj => ?_, ?_, hkv k, hg, h.rep.out, h.rep.drained,
      h.rep.reads⟩
    · rw [← hpos]
      exact hr j hj
    · show s.pos + k = _
      omega
  have henq := plainStep_enqueues T cfg prompt.length s.pos
  cases hg : cfg.usesGraph s.pos (maxNew - s.out.length) with
  | false =>
    refine ⟨_, _, _, branch_eager hg, by decide, hcap, hlt, ?_, fun _ => ⟨rfl, rfl⟩⟩
    rw [hstream, henq.idle]
    refine key 1 _ _ _ (fun j hj => ?_) h.rep.graphs
    obtain rfl : j = 0 := by omega
    rfl
  | true =>
    obtain ⟨h4, hstable⟩ := PlainCfg.usesGraph_stable hg
    cases hl : s.graphs.lookup (cfg.regimeKey s.pos) with
    | none =>
      have h2 := hserved ⟨hg, hl⟩
      refine ⟨served, _, _, branch_capture T served _ ⟨hg, hl⟩, by omega, by omega, by omega, ?_, fun hf => by cases hf⟩
      rw [hstream, henq.capture, h2]
      refine key 2 _ _ _ (fun j hj => hstable j (by omega)) fun g hm => ?_
      cases List.mem_cons.1 hm with
      | inl heq => exact ⟨_, by rw [heq]⟩
      | inr hm => exact h.rep.graphs g hm
    | some graph =>
      refine ⟨_, _, _, branch_replay hg hl, by omega, by omega, by omega, ?_, fun hf => by cases hf⟩
      obtain ⟨hint, hgraph⟩ := h.rep.graphs _ (List.mem_of_lookup_eq_some hl)
      simp only at hgraph
      rw [hstream, WorkStream.launch_iterate, hgraph]
      exact key _ _ _ _ hstable h.rep.graphs

/-- What the drain leaves: everything counted, or the tokens up to the first that ends it. -/
inductive Drained (T : Trunk σ η) (cfg : PlainCfg) (prompt : List Tok) (last : Tok) (n : ℕ)
    (eos : List Tok) : Bool × PlainState → Prop
  | all {s : PlainState} (rep : PlainRep T cfg prompt last n s) (len : s.out.length = n)
      (noEos : ∀ t ∈ s.out, t ∉ eos) : Drained T cfg prompt last n eos (false, s)
  | ended {s : PlainState} (rep : PlainRep T cfg prompt last n s) (j : ℕ) (lt : j < n)
      (len : s.out.length = j + 1)
      (noEos : ∀ t ∈ T.greedy (plainFrom T prompt last) j, t ∉ eos)
      (ends : T.nth (plainFrom T prompt last) j ∈ eos) : Drained T cfg prompt last n eos (true, s)

/-- **The drain** reads the tokens of the steps that are not read yet. -/
theorem drain_spec {k : ℕ} (hk : k ≤ cfg.ringCap) (hn : n ≤ maxNew) :
    ∀ {s : PlainState}, PlainRep T cfg prompt last n s → s.out.length + k = n →
      (∀ t ∈ s.out, t ∉ eos) →
      Drained T cfg prompt last n eos (drainRing cfg maxNew eos s.stream.dev k s) ∧
        (drainRing cfg maxNew eos s.stream.dev k s).2.graphs = s.graphs := by
  induction k with
  | zero =>
    intro s h hlen hno
    exact ⟨.all h hlen hno, rfl⟩
  | succ k ih =>
    intro s h hlen hno
    obtain ⟨hring, hwrote⟩ := h.dev.ring s.out.length (by omega) (by omega)
    have hout : s.out ++ [T.nth (plainFrom T prompt last) s.out.length] =
        T.greedy (plainFrom T prompt last) (s.out.length + 1) := by
      rw [T.greedy_concat, ← h.out]
    rw [drainRing, if_pos (by omega)]
    simp only [h.drained, hring, hwrote]
    have hrep : PlainRep T cfg prompt last n
        { s with
          out := s.out ++ [T.nth (plainFrom T prompt last) s.out.length]
          drained := s.out.length + 1
          reads := s.reads ++ [(s.out.length, some (prompt.length + s.out.length))] } := by
      refine ⟨h.idle, h.dev, h.pos, h.kvLen, h.graphs, ?_, by simp, fun r hr => ?_⟩
      · simpa using hout
      · cases List.mem_append.1 hr with
        | inl hr => exact h.reads r hr
        | inr hr =>
          obtain rfl := List.mem_singleton.1 hr
          rfl
    split
    · rename_i he
      refine ⟨.ended hrep s.out.length (by omega) (by simp) ?_ he, rfl⟩
      rw [← h.out]
      exact hno
    · rename_i he
      refine ih (by omega) hrep (by simp only [List.length_append, List.length_singleton]; omega)
        fun t ht => ?_
      cases List.mem_append.1 ht with
      | inl ht => exact hno t ht
      | inr ht =>
        obtain rfl := List.mem_singleton.1 ht
        exact he

/-- **One pass** at a head: the next head, or the whole decoding. -/
theorem pass_spec (hcap : 0 < cfg.ringCap) (hdrain : cfg.drain ≤ cfg.ringCap)
    (h : PlainInv T cfg prompt last maxNew eos s)
    (hserved : s.captures cfg maxNew → served = 2) :
    (∃ u, plainPass T cfg served prompt.length maxNew eos s = .again u ∧
      PlainInv T cfg prompt last maxNew eos u ∧ s.out.length < maxNew ∧
      s.out.length < u.out.length ∧
      (cfg.usesGraph s.pos (maxNew - s.out.length) = false →
        u.out.length = s.out.length + 1 ∧ u.graphs = s.graphs)) ∨
    ∃ u, plainPass T cfg served prompt.length maxNew eos s = .leave u ∧
      PlainOk cfg prompt.length u ∧
      u.out = T.greedyUntil eos maxNew (plainFrom T prompt last) ∧
      (cfg.usesGraph s.pos (maxNew - s.out.length) = false → u.out.length ≤ s.out.length + 1) := by
  unfold plainPass
  cases Nat.lt_or_ge s.out.length maxNew with
  | inr hge =>
    refine .inr ⟨s, if_neg (by omega), h.rep.ok, ?_, fun _ => by omega⟩
    obtain hlen : s.out.length = maxNew := Nat.le_antisymm h.le hge
    have hout := h.rep.out
    have hno := h.noEos
    rw [hlen] at hout
    rw [hout] at hno ⊢
    exact (T.greedyUntil_eq_greedy _ _ hno).symm
  | inl hlt =>
    obtain ⟨steps, stream, graphs, hb, hpos, hring, hle, hrep, heager⟩ :=
      branch_spec hcap hdrain h hlt hserved
    rw [if_pos hlt, hb]
    simp only
    have hcount : (plainAdvance s steps stream graphs).pos - prompt.length -
        (plainAdvance s steps stream graphs).drained = steps := by
      have h1 := hrep.pos
      have h2 : (plainAdvance s steps stream graphs).drained = s.out.length := hrep.drained
      omega
    obtain ⟨hd, hgraphs⟩ := drain_spec hring hle hrep rfl h.noEos
    change Drained T cfg prompt last _ eos (drainRing cfg maxNew eos stream.dev steps _) at hd
    change (drainRing cfg maxNew eos stream.dev steps _).2.graphs = _ at hgraphs
    rw [hcount]
    generalize drainRing cfg maxNew eos stream.dev steps (plainAdvance s steps stream graphs) = r
      at hd hgraphs
    cases hd with
    | @all u rep len noEos =>
      refine .inl ⟨u, rfl, ⟨len ▸ rep, noEos, by omega⟩, hlt, by omega, fun hg => ?_⟩
      obtain ⟨h1, h2⟩ := heager hg
      exact ⟨by omega, hgraphs.trans h2⟩
    | @ended u rep j lt len noEos ends =>
      refine .inr ⟨u, rfl, rep.ok, ?_, fun hg => ?_⟩
      rotate_left
      · obtain ⟨h1, -⟩ := heager hg
        omega
      obtain ⟨m, hm⟩ : ∃ m, maxNew = j + 1 + m := ⟨maxNew - (j + 1), by omega⟩
      rw [rep.out, len, hm]
      exact (T.greedyUntil_ends j m _ noEos ends).symm

/-- The drain reads; it leaves the stream and the host position alone. -/
theorem drainRing_frame (cfg : PlainCfg) (maxNew : ℕ) (eos : List Tok) (d : PlainDev) (k : ℕ)
    (s : PlainState) :
    (drainRing cfg maxNew eos d k s).2.pos = s.pos ∧
      (drainRing cfg maxNew eos d k s).2.stream = s.stream := by
  induction k generalizing s with
  | zero => exact ⟨rfl, rfl⟩
  | succ k ih =>
    rw [drainRing]
    simp only
    split
    · split
      · exact ⟨rfl, rfl⟩
      · exact ih _
    · exact ⟨rfl, rfl⟩

/-- What a pass does to the host position and the stream is its branch. -/
theorem pass_frame (eos : List Tok) {base steps : ℕ} {stream : WorkStream PlainDev}
    {graphs : List (Regime × PlainGraph)} (hlt : s.out.length < maxNew)
    (hb : plainBranch T cfg served base maxNew s = (steps, stream, graphs)) :
    (plainPass T cfg served base maxNew eos s).state.pos = s.pos + steps ∧
      (plainPass T cfg served base maxNew eos s).state.stream = stream := by
  unfold plainPass
  rw [if_pos hlt, hb]
  simp only
  have hf := drainRing_frame cfg maxNew eos stream.dev
    ((plainAdvance s steps stream graphs).pos - base - (plainAdvance s steps stream graphs).drained)
    (plainAdvance s steps stream graphs)
  generalize drainRing cfg maxNew eos stream.dev _ _ = r at hf
  obtain ⟨b, u⟩ := r
  cases b <;> exact hf

/-- **A capture** runs its two warm-ups and counts `served` steps. -/
theorem capture_counts (T : Trunk σ η) (served base : ℕ) (eos : List Tok) (hidle : s.stream.recording = none)
    (hlt : s.out.length < maxNew) (h : s.captures cfg maxNew) :
    (plainPass T cfg served base maxNew eos s).state.pos = s.pos + served ∧
      (plainPass T cfg served base maxNew eos s).state.stream.dev.posCtr =
        s.stream.dev.posCtr + 2 := by
  have hstream : s.stream = { dev := s.stream.dev } := by
    rw [← hidle]
  have hcap := (plainStep_enqueues T cfg base s.pos).capture 2 s.stream.dev
  rw [← hstream] at hcap
  obtain ⟨hpos, hdev⟩ := pass_frame eos hlt (branch_capture T served base h)
  refine ⟨hpos, ?_⟩
  rw [hdev, hcap]
  show (WorkStream.runOps _ (WorkStream.runOps _ s.stream.dev)).posCtr = _
  rw [runOps_posCtr, runOps_posCtr]

end

/-! ## The loop -/

theorem PlainState.captures.lt {maxNew : ℕ} {s : PlainState} (h : s.captures cfg maxNew) :
    s.out.length < maxNew := by
  obtain ⟨h4, -⟩ := PlainCfg.usesGraph_stable h.1
  omega

/-- The loop's heads. -/
def PlainHead (T : Trunk σ η) (cfg : PlainCfg) (served layers : ℕ) (prompt : List Tok) (last : Tok)
    (maxNew : ℕ) (eos : List Tok) (s : PlainState) : Prop :=
  Loop.Reaches (plainPass T cfg served prompt.length maxNew eos) (plainStart layers prompt last) s

/-- **What the loop is for**: it returns the greedy continuation, and after every pass the host and the
device agree. -/
def PlainExact (T : Trunk σ η) (cfg : PlainCfg) (served layers : ℕ) (prompt : List Tok) (last : Tok)
    (maxNew : ℕ) (eos : List Tok) : Prop :=
  (∃ r, Loop.run (plainPass T cfg served prompt.length maxNew eos) (maxNew + 1)
      (plainStart layers prompt last) = some r ∧
    r.out = T.greedyUntil eos maxNew (plainFrom T prompt last)) ∧
  ∀ s, PlainHead T cfg served layers prompt last maxNew eos s →
    PlainOk cfg prompt.length (plainPass T cfg served prompt.length maxNew eos s).state

section

variable {maxNew served layers : ℕ} {eos : List Tok} {s : PlainState}

theorem plainStart_inv (layers : ℕ) :
    PlainInv T cfg prompt last maxNew eos (plainStart layers prompt last) := by
  refine ⟨⟨rfl, ⟨⟨rfl, fun len hl => List.eq_of_mem_replicate hl⟩, rfl, ?_, ?_⟩, rfl,
    fun len hl => List.eq_of_mem_replicate hl, ?_, rfl, rfl, ?_⟩, ?_, Nat.zero_le _⟩
  · intro j hj
    cases hj
  all_goals simp [plainStart]

section

variable (hcap : 0 < cfg.ringCap) (hdrain : cfg.drain ≤ cfg.ringCap)
include hcap hdrain

/-- The loop where a capture counts the steps it runs, if there is one. -/
theorem plainLoop_exact
    (hserved : ∀ s, PlainHead T cfg served layers prompt last maxNew eos s →
      s.captures cfg maxNew → served = 2) :
    PlainExact T cfg served layers prompt last maxNew eos := by
  have hinv : ∀ s, PlainHead T cfg served layers prompt last maxNew eos s →
      PlainInv T cfg prompt last maxNew eos s := by
    intro s hs
    refine hs.invariant _ (plainStart_inv layers) fun t u ht hi hu => ?_
    rcases pass_spec hcap hdrain hi (hserved t ht) with ⟨v, hv, hvi, -⟩ | ⟨v, hv, -⟩
    · rw [hv] at hu
      cases hu
      exact hvi
    · rw [hv] at hu
      cases hu
  constructor
  · refine Loop.run_spec (fun t => maxNew - t.out.length) (fun t u ht hu => ?_) (fun t u ht hu => ?_)
      (Nat.lt_succ_of_le (Nat.sub_le _ _))
    · rcases pass_spec hcap hdrain (hinv t ht) (hserved t ht) with
        ⟨v, hv, -, hlt, hgrow, -⟩ | ⟨v, hv, -⟩ <;> rw [hv] at hu <;> cases hu
      omega
    · rcases pass_spec hcap hdrain (hinv t ht) (hserved t ht) with ⟨v, hv, -⟩ | ⟨v, hv, -, ho, -⟩ <;>
        rw [hv] at hu <;> cases hu
      exact ho
  · intro s hs
    rcases pass_spec hcap hdrain (hinv s hs) (hserved s hs) with ⟨v, hv, hvi, -⟩ | ⟨v, hv, hok, -⟩
    · rw [hv]
      exact hvi.rep.ok
    · rw [hv]
      exact hok

/-- While no head captures, none has a graph. -/
theorem plainLoop_eager
    (heager : ∀ s, PlainHead T cfg served layers prompt last maxNew eos s →
      PlainInv T cfg prompt last maxNew eos s → s.graphs = [] →
      cfg.usesGraph s.pos (maxNew - s.out.length) = false)
    (hs : PlainHead T cfg served layers prompt last maxNew eos s) :
    PlainInv T cfg prompt last maxNew eos s ∧ s.graphs = [] := by
  refine hs.invariant (fun s => PlainInv T cfg prompt last maxNew eos s ∧ s.graphs = [])
    ⟨plainStart_inv layers, rfl⟩ fun t u ht ⟨hi, hg⟩ hu => ?_
  have hf := heager t ht hi hg
  rcases pass_spec hcap hdrain hi (fun hc => absurd hc.1 (by simp [hf])) with
    ⟨v, hv, hvi, -, -, he⟩ | ⟨v, hv, -⟩
  · rw [hv] at hu
    cases hu
    exact ⟨hvi, (he hf).2.trans hg⟩
  · rw [hv] at hu
    cases hu

/-- Then the loop comes to its head before every token. -/
theorem plainLoop_heads
    (heager : ∀ s, PlainHead T cfg served layers prompt last maxNew eos s →
      PlainInv T cfg prompt last maxNew eos s → s.graphs = [] →
      cfg.usesGraph s.pos (maxNew - s.out.length) = false) {i : ℕ}
    (hi : i < (T.greedyUntil eos maxNew (plainFrom T prompt last)).length) :
    ∃ s, PlainHead T cfg served layers prompt last maxNew eos s ∧ s.out.length = i := by
  induction i with
  | zero => exact ⟨_, .refl _, rfl⟩
  | succ i ih =>
    obtain ⟨s, hs, hlen⟩ := ih (by omega)
    obtain ⟨hinv, hg⟩ := plainLoop_eager hcap hdrain heager hs
    have hf := heager s hs hinv hg
    rcases pass_spec hcap hdrain hinv (fun hc => absurd hc.1 (by simp [hf])) with
      ⟨v, hv, -, -, -, he⟩ | ⟨v, hv, -, ho, he⟩
    · exact ⟨v, hs.tail hv, by have := (he hf).1; omega⟩
    · have := he hf
      rw [ho] at this
      omega

/-- **The loop meets what it is for exactly when it never captures**, a capture counting a step more
than it runs. -/
theorem plainExact_iff (hthree : served ≠ 2) :
    PlainExact T cfg served layers prompt last maxNew eos ↔
      ∀ i < (T.greedyUntil eos maxNew (plainFrom T prompt last)).length,
        cfg.usesGraph (prompt.length + i) (maxNew - i) = false := by
  constructor
  · intro hexact i hi
    have heager : ∀ s, PlainHead T cfg served layers prompt last maxNew eos s →
        PlainInv T cfg prompt last maxNew eos s → s.graphs = [] →
        cfg.usesGraph s.pos (maxNew - s.out.length) = false := by
      intro s hs hinv hg
      by_contra hu
      have hc : s.captures cfg maxNew := ⟨by simpa using hu, by simp [hg]⟩
      obtain ⟨hpos, hctr⟩ := capture_counts T served prompt.length eos hinv.rep.idle hc.lt hc
      have hok := (hexact.2 s hs).counters.1
      have hpre := hinv.rep.ok.counters.1
      omega
    obtain ⟨s, hs, hlen⟩ := plainLoop_heads hcap hdrain heager hi
    obtain ⟨hinv, hg⟩ := plainLoop_eager hcap hdrain heager hs
    have := heager s hs hinv hg
    rw [hinv.rep.pos, hlen] at this
    exact this
  · intro hcond
    have heager : ∀ s, PlainHead T cfg served layers prompt last maxNew eos s →
        PlainInv T cfg prompt last maxNew eos s → s.graphs = [] →
        cfg.usesGraph s.pos (maxNew - s.out.length) = false := by
      intro s _ hinv _
      by_contra hu
      have hu : cfg.usesGraph s.pos (maxNew - s.out.length) = true := by simpa using hu
      obtain ⟨h4, -⟩ := PlainCfg.usesGraph_stable hu
      have hlen : s.out.length < (T.greedyUntil eos maxNew (plainFrom T prompt last)).length := by
        have hno := hinv.noEos
        rw [hinv.rep.out] at hno
        obtain ⟨m, hm⟩ : ∃ m, maxNew = s.out.length + (m + 1) :=
          ⟨maxNew - s.out.length - 1, by omega⟩
        rw [hm, T.greedyUntil_add _ _ _ hno, List.length_append, T.greedy_length]
        refine Nat.lt_add_of_pos_right (List.length_pos_iff.2 ?_)
        rw [Trunk.greedyUntil]
        split <;> simp
      rw [hinv.rep.pos, hcond _ hlen] at hu
      cases hu
    refine plainLoop_exact hcap hdrain fun s hs hc => ?_
    obtain ⟨hinv, hg⟩ := plainLoop_eager hcap hdrain heager hs
    have := heager s hs hinv hg
    rw [hc.1] at this
    cases this

end

end

/-! ## `gemma4_generate_plain_graph` -/

/-- The loop whose captures count the two steps they run meets what it is for on every input. -/
theorem plainExact_two (T : Trunk σ η) (winMain fa512MinTkv : ℕ) (forceEager : Bool) (layers : ℕ)
    (prompt : List Tok) (last : Tok) (maxNew : ℕ) (eos : List Tok) :
    PlainExact T (.serving winMain fa512MinTkv forceEager) 2 layers prompt last maxNew eos :=
  plainLoop_exact (by simp [PlainCfg.serving]) (by simp [PlainCfg.serving]) fun _ _ _ => rfl

/-- **`gemma4_generate_plain_graph` decodes greedily, the host in step with the device, exactly when no
pass before the end of the continuation has a stretch that it would run from a graph.** -/
theorem gemma4GeneratePlainGraph_iff (T : Trunk σ η) (winMain fa512MinTkv : ℕ) (forceEager : Bool)
    (layers : ℕ) (prompt : List Tok) (last : Tok) (maxNew : ℕ) (eos : List Tok) :
    ((∃ r, gemma4GeneratePlainGraph T winMain fa512MinTkv forceEager layers prompt last maxNew eos =
          some r ∧ r.out = T.greedyUntil eos maxNew (T.after (prompt ++ [last]))) ∧
      ∀ s, PlainHead T (.serving winMain fa512MinTkv forceEager) servedByCapture layers prompt last
          maxNew eos s →
        PlainOk (.serving winMain fa512MinTkv forceEager) prompt.length
          (plainPass T (.serving winMain fa512MinTkv forceEager) servedByCapture prompt.length maxNew
            eos s).state) ↔
      ∀ i < (T.greedyUntil eos maxNew (T.after (prompt ++ [last]))).length,
        (PlainCfg.serving winMain fa512MinTkv forceEager).usesGraph (prompt.length + i) (maxNew - i) =
          false := by
  have hthree : servedByCapture ≠ 2 := by decide
  exact plainExact_iff (by simp [PlainCfg.serving]) (by simp [PlainCfg.serving]) hthree

/-- The first pass captures: two tokens are served, and the third is read off a slot that no step has
written. -/
theorem plainGraph_reads_unwritten :
    (gemma4GeneratePlainGraph onesTrunk 1024 768 false 1 [0] 1 4 []).map (fun s => s.out) =
        some [1, 1, 0, 0] ∧
      [1, 1, 0, 0] ≠ onesTrunk.greedyUntil [] 4 (onesTrunk.after ([0] ++ [1])) := by
  decide

end Memra
