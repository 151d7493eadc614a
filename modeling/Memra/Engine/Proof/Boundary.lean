import Memra.Engine.Boundary
import Mathlib

/-!
# Boundary slots neither tear nor go stale

`issue_ordered`: while the host issues its crossings, every slot stays `Chained`, and covered by its
`ev_rx` record (`Ordered.crossing` walks through one `tx` and `rx` with the rules for streams). So an
execution has done to a slot a first part of what the program does to it in order
(`Exec.opsAt_initial`), and the rest is about that order alone: `Idle` holds between crossings,
`block_good` at every point inside one, `issue_good` at every point of the whole program.
-/

namespace Memra

open Lib

variable {α : Type}

/-! ## The instructions of one crossing -/

/-- An operation of crossing `c` on slot `l`. -/
def slotOp (l : SlotId) (c : ℕ) (act : SlotAct α) : SlotOp α := { slot := l, crossing := c, act }

/-- What one crossing enqueues: `tx`, then `rx`, in slot `l`. -/
def crossingBlock (l : SlotId) (c : ℕ) (acts : List (SlotAct α)) (buf : ℕ) (x : List α) :
    List (PpInstr α) :=
  [.wait l.1 (.rx l.1 l.2)] ++
    (if acts.isEmpty then []
      else (acts.map (slotOp l c)).map (.op (l.1 + 1)) ++ [.sync (l.1 + 1)]) ++
    (x.zipIdx.map fun v => slotOp l c (.write buf v.2 v.1)).map (.op l.1) ++
    [.record l.1 (.tx l.1 l.2)] ++
    [.wait (l.1 + 1) (.tx l.1 l.2)] ++
    ((List.range x.length).map fun k => slotOp l c (.read buf k)).map (.op (l.1 + 1)) ++
    [.record (l.1 + 1) (.rx l.1 l.2)]

theorem grow_buf (sl : SlotHost) (n : ℕ) :
    ∃ len, (sl.grow α n).2.2.buf = some ((sl.grow α n).2.1, len) ∧ n ≤ len := by
  rcases hb : sl.buf with _ | ⟨buf, len⟩
  · exact ⟨n, by simp [SlotHost.grow, hb], le_rfl⟩
  · by_cases hlt : len < n
    · exact ⟨n, by simp [SlotHost.grow, hb, hlt], le_rfl⟩
    · exact ⟨len, by simp [SlotHost.grow, hb, hlt], by omega⟩

/-- The slot a crossing uses, and the slot's host state before it. -/
def txSlot (h : PpHost) (b : ℕ) (overlap : Bool) : SlotId := (b, ((h b).nextSlot overlap).1)

/-- A slot's host state. -/
def PpHost.at (h : PpHost) (l : SlotId) : SlotHost := (h l.1).slots l.2

theorem nextSlot_slots (bd : BoundaryHost) (overlap : Bool) :
    (bd.nextSlot overlap).2.slots = bd.slots := by
  unfold BoundaryHost.nextSlot
  split <;> rfl

theorem tx_slot (h : PpHost) (b : ℕ) (overlap : Bool) (c : ℕ) (x : List α) :
    (tx h b overlap c x).2.1 = (txSlot h b overlap).2 := rfl

theorem tx_host (h : PpHost) (b : ℕ) (overlap : Bool) (c : ℕ) (x : List α) (l : SlotId) :
    PpHost.at (tx h b overlap c x).2.2 l =
      if l = txSlot h b overlap then ((h.at l).grow α x.length).2.2 else h.at l := by
  obtain ⟨b', slot'⟩ := l
  by_cases hb : b' = b
  · subst hb
    by_cases hs : slot' = ((h b').nextSlot overlap).1
    · subst hs
      rw [if_pos (show (b', ((h b').nextSlot overlap).1) = txSlot h b' overlap from rfl)]
      simp [PpHost.at, tx, nextSlot_slots]
    · rw [if_neg (by simpa [txSlot] using hs)]
      simp [PpHost.at, tx, Function.update_of_ne hs, nextSlot_slots]
  · rw [if_neg (by simp [txSlot, hb])]
    simp [PpHost.at, tx, Function.update_of_ne hb]

/-- **What one crossing issues.** -/
theorem crossing_eq (h : PpHost) (b : ℕ) (overlap : Bool) (c : ℕ) (x : List α) :
    (tx h b overlap c x).1 ++ rx (tx h b overlap c x).2.2 b (tx h b overlap c x).2.1 c x.length =
      crossingBlock (txSlot h b overlap) c ((h.at (txSlot h b overlap)).grow α x.length).1
        ((h.at (txSlot h b overlap)).grow α x.length).2.1 x := by
  obtain ⟨len, hbuf, hle⟩ := grow_buf (α := α) (h.at (txSlot h b overlap)) x.length
  have hhost := tx_host h b overlap c x (txSlot h b overlap)
  rw [if_pos rfl] at hhost
  have hb : (((tx h b overlap c x).2.2 b).slots (tx h b overlap c x).2.1).buf =
      some (((h.at (txSlot h b overlap)).grow α x.length).2.1, len) := by
    rw [← hbuf, ← hhost]
    rfl
  simp only [rx, hb, if_pos hle]
  simp only [tx, crossingBlock, nextSlot_slots, List.map_map, List.append_assoc]
  rfl

/-! ## Every slot is ordered -/

/-- Every slot is chained, and its latest `ev_rx` record covers it. -/
def Ordered (p : List (PpInstr α)) : Prop :=
  ∀ l : SlotId, Chained SlotOp.slot p l ∧ Covered SlotOp.slot p l (l.1 + 1) (.rx l.1 l.2)

/-- A crossing of one slot does nothing to another, nor to its `ev_rx`. -/
theorem crossingBlock_frame {l l' : SlotId} (hne : l ≠ l') (c : ℕ) (acts : List (SlotAct α))
    (buf : ℕ) (x : List α) :
    ∀ a ∈ crossingBlock l c acts buf x,
      a.opAt SlotOp.slot l' = none ∧ a.records ≠ some (.rx l'.1 l'.2) := by
  have hop : ∀ (s : ℕ) (act : SlotAct α),
      Instr.opAt (E := BoundaryEv) SlotOp.slot l' (.op s (slotOp l c act)) = none := by
    intro s act
    exact if_neg hne
  have hev : (BoundaryEv.rx l.1 l.2) ≠ .rx l'.1 l'.2 := by
    intro he
    obtain ⟨h1, h2⟩ := BoundaryEv.rx.inj he
    exact hne (Prod.ext h1 h2)
  intro a ha
  simp only [crossingBlock, List.mem_append, List.mem_singleton, List.mem_map] at ha
  rcases ha with (((((rfl | ha) | ⟨o, ⟨v, -, rfl⟩, rfl⟩) | rfl) | rfl) | ⟨o, ⟨k, -, rfl⟩, rfl⟩) | rfl
  · exact ⟨rfl, nofun⟩
  · split at ha
    · cases ha
    · simp only [List.mem_append, List.mem_singleton, List.mem_map] at ha
      rcases ha with ⟨o, ⟨act, -, rfl⟩, rfl⟩ | rfl
      · exact ⟨hop _ _, nofun⟩
      · exact ⟨rfl, nofun⟩
  · exact ⟨hop _ _, nofun⟩
  · exact ⟨rfl, nofun⟩
  · exact ⟨rfl, nofun⟩
  · exact ⟨hop _ _, nofun⟩
  · exact ⟨rfl, fun he => hev (Option.some.inj he)⟩

/-- **One crossing keeps its slot ordered**: the wait on `ev_rx` makes the TX stream ready, a growth
runs on the RX stream, which is ready too, and is drained; the copies hand the slot over by
`ev_tx` and `ev_rx`. -/
theorem crossingBlock_ordered {p : List (PpInstr α)} {l : SlotId}
    (hc : Chained SlotOp.slot p l) (hcov : Covered SlotOp.slot p l (l.1 + 1) (.rx l.1 l.2))
    (c : ℕ) (acts : List (SlotAct α)) (buf : ℕ) (x : List α) :
    Chained SlotOp.slot (p ++ crossingBlock l c acts buf x) l ∧
      Covered SlotOp.slot (p ++ crossingBlock l c acts buf x) l (l.1 + 1) (.rx l.1 l.2) := by
  have hwait : Chained SlotOp.slot (p ++ [.wait l.1 (.rx l.1 l.2)]) l := hc.append_of_not_op rfl
  have htx : Ready SlotOp.slot (p ++ [.wait l.1 (.rx l.1 l.2)]) l l.1 := hcov.wait _
  have hrx : Ready SlotOp.slot (p ++ [.wait l.1 (.rx l.1 l.2)]) l (l.1 + 1) :=
    hcov.ready.append_of_not_op rfl
  have hgrow : ∃ g, g = (if acts.isEmpty then []
      else (acts.map (slotOp l c)).map (Instr.op (E := BoundaryEv) (l.1 + 1)) ++
        [.sync (l.1 + 1)]) ∧
      Chained SlotOp.slot (p ++ [.wait l.1 (.rx l.1 l.2)] ++ g) l ∧
      Ready SlotOp.slot (p ++ [.wait l.1 (.rx l.1 l.2)] ++ g) l l.1 := by
    refine ⟨_, rfl, ?_⟩
    split
    · rw [List.append_nil]
      exact ⟨hwait, htx⟩
    · obtain ⟨hc', hr'⟩ := Chained.ops (acts.map (slotOp l c)) hwait hrx
      rw [← List.append_assoc]
      exact ⟨hc'.append_of_not_op rfl, hr'.sync _⟩
  obtain ⟨g, hg, hcg, hrg⟩ := hgrow
  obtain ⟨hcw, hrw⟩ := Chained.ops (x.zipIdx.map fun v => slotOp l c (.write buf v.2 v.1)) hcg hrg
  have hc1 := hcw.append_of_not_op (a := .record l.1 (.tx l.1 l.2)) rfl
  have hcov1 := hrw.record (.tx l.1 l.2)
  have hc2 := hc1.append_of_not_op (a := .wait (l.1 + 1) (.tx l.1 l.2)) rfl
  have hr2 := hcov1.wait (l.1 + 1)
  obtain ⟨hc3, hr3⟩ :=
    Chained.ops ((List.range x.length).map fun k => slotOp l c (.read buf k)) hc2 hr2
  have hc4 := hc3.append_of_not_op (a := .record (l.1 + 1) (.rx l.1 l.2)) rfl
  have hcov4 := hr3.record (.rx l.1 l.2)
  have hblock : p ++ crossingBlock l c acts buf x =
      p ++ [.wait l.1 (.rx l.1 l.2)] ++ g ++
        (x.zipIdx.map fun v => slotOp l c (.write buf v.2 v.1)).map (.op l.1) ++
        [.record l.1 (.tx l.1 l.2)] ++ [.wait (l.1 + 1) (.tx l.1 l.2)] ++
        ((List.range x.length).map fun k => slotOp l c (.read buf k)).map (.op (l.1 + 1)) ++
        [.record (l.1 + 1) (.rx l.1 l.2)] := by
    rw [hg]
    simp only [crossingBlock, List.append_assoc]
  rw [hblock]
  exact ⟨hc4, hcov4⟩

theorem issue_ordered (cs : List (Crossing α)) :
    ∀ (p : List (PpInstr α)) (h : PpHost) (c : ℕ), Ordered p → Ordered (p ++ issue h c cs) := by
  induction cs with
  | nil =>
    intro p h c hp
    simpa [issue] using hp
  | cons cr cs ih =>
    intro p h c hp
    unfold issue
    simp only
    rw [crossing_eq, ← List.append_assoc]
    apply ih
    intro l
    obtain ⟨hc, hcov⟩ := hp l
    by_cases hl : txSlot h cr.b cr.overlap = l
    · subst hl
      exact crossingBlock_ordered hc hcov ..
    · have hframe := crossingBlock_frame hl c ((h.at (txSlot h cr.b cr.overlap)).grow α cr.x.length).1
        ((h.at (txSlot h cr.b cr.overlap)).grow α cr.x.length).2.1 cr.x
      exact ⟨hc.frame fun a ha => (hframe a ha).1, hcov.frame hframe⟩

theorem ppProgram_chained (cs : List (Crossing α)) (l : SlotId) :
    Chained SlotOp.slot (ppProgram cs) l :=
  (issue_ordered cs [] .new 0 (fun _ => ⟨chained_nil, covered_nil _ _⟩) l).1

/-! ## A slot's operations in order -/

/-- The operations of one crossing on its slot. -/
def blockOps (l : SlotId) (c : ℕ) (acts : List (SlotAct α)) (buf : ℕ) (x : List α) :
    List (SlotOp α) :=
  acts.map (slotOp l c) ++ (x.zipIdx.map fun v => slotOp l c (.write buf v.2 v.1)) ++
    (List.range x.length).map fun k => slotOp l c (.read buf k)

theorem crossingBlock_ops (l : SlotId) (c : ℕ) (acts : List (SlotAct α)) (buf : ℕ) (x : List α) :
    (crossingBlock l c acts buf x).filterMap (Instr.opAt SlotOp.slot l) =
      blockOps l c acts buf x := by
  have hops : ∀ (s : ℕ) {γ : Type} (f : γ → SlotAct α) (is : List γ),
      ((is.map fun a => slotOp l c (f a)).map (Instr.op (E := BoundaryEv) s)).filterMap
        (Instr.opAt SlotOp.slot l) = is.map fun a => slotOp l c (f a) := by
    intro s γ f is
    apply filterMap_ops
    simp [slotOp]
  have hgrow : (if acts.isEmpty then []
      else (acts.map (slotOp l c)).map (Instr.op (E := BoundaryEv) (l.1 + 1)) ++
        [.sync (l.1 + 1)]).filterMap (Instr.opAt SlotOp.slot l) = acts.map (slotOp l c) := by
    have h : ((acts.map (slotOp l c)).map (Instr.op (E := BoundaryEv) (l.1 + 1))).filterMap
        (Instr.opAt SlotOp.slot l) = acts.map (slotOp l c) := hops (l.1 + 1) id acts
    cases acts with
    | nil => rfl
    | cons a acts =>
      rw [if_neg (by simp), List.filterMap_append, h]
      exact List.append_nil _
  have hrecord : ∀ (s : ℕ) (e : BoundaryEv),
      ([.record s e] : List (PpInstr α)).filterMap (Instr.opAt SlotOp.slot l) = [] :=
    fun _ _ => rfl
  have hwait : ∀ (s : ℕ) (e : BoundaryEv),
      ([.wait s e] : List (PpInstr α)).filterMap (Instr.opAt SlotOp.slot l) = [] :=
    fun _ _ => rfl
  simp only [crossingBlock, List.filterMap_append, hgrow, hops, hrecord, hwait, blockOps,
    List.nil_append, List.append_nil]

section
variable [Zero α]

/-- TX of `x` from cell `k` on. -/
theorem writes_fold (l : SlotId) (c buf : ℕ) :
    ∀ (x : List α) (k : ℕ) (m : SlotMem α) (cells : List (Option α)),
      m.bufs buf = some cells → k + x.length ≤ cells.length →
      ((x.zipIdx k).map fun v => slotOp l c (.write buf v.2 v.1)).foldl SlotMem.exec m =
        { m with
          bufs := Function.update m.bufs buf
            (some (cells.take k ++ x.map some ++ cells.drop (k + x.length)))
          wrote := Function.update m.wrote c (m.wrote c + x.length) }
  | [], k, m, cells, hbuf, _ => by
    have hb : Function.update m.bufs buf (some cells) = m.bufs := by
      rw [← hbuf, Function.update_eq_self]
    simp [hb]
  | v :: x, k, m, cells, hbuf, hle => by
    rw [List.length_cons] at hle
    have hk : k < cells.length := by omega
    rw [List.zipIdx_cons, List.map_cons, List.foldl_cons]
    have hstep : m.exec (slotOp l c (.write buf k v)) =
        { m with
          bufs := Function.update m.bufs buf (some (cells.set k (some v)))
          wrote := Function.update m.wrote c (m.wrote c + 1) } := by
      simp [SlotMem.exec, slotOp, hbuf, hk]
    rw [hstep, writes_fold l c buf x (k + 1) _ (cells.set k (some v)) (by simp)
      (by rw [List.length_set]; omega)]
    have hcells : (cells.set k (some v)).take (k + 1) ++ x.map some ++
        (cells.set k (some v)).drop (k + 1 + x.length) =
        cells.take k ++ (v :: x).map some ++ cells.drop (k + (v :: x).length) := by
      rw [List.drop_set_of_lt (by omega), List.take_add_one, List.take_set_of_le le_rfl]
      simp [hk, show k + 1 + x.length = k + (x.length + 1) by omega]
    simp only [hcells, Function.update_idem, Function.update_self, List.length_cons]
    rw [show m.wrote c + 1 + x.length = m.wrote c + (x.length + 1) by omega]

/-- RX of `n` cells from `k` on. -/
theorem reads_fold (l : SlotId) (c buf : ℕ) :
    ∀ (n k : ℕ) (m : SlotMem α) (cells : List (Option α)),
      m.bufs buf = some cells → k + n ≤ cells.length →
      ((List.range' k n).map fun k => slotOp l c (.read buf k)).foldl SlotMem.exec m =
        { m with got := Function.update m.got c (m.got c ++ (cells.drop k).take n) }
  | 0, k, m, cells, _, _ => by simp
  | n + 1, k, m, cells, hbuf, hle => by
    have hk : k < cells.length := by omega
    rw [List.range'_succ, List.map_cons, List.foldl_cons]
    have hstep : m.exec (slotOp l c (.read buf k)) =
        { m with got := Function.update m.got c (m.got c ++ [cells[k]]) } := by
      simp [SlotMem.exec, slotOp, hbuf, hk]
    have hrest := reads_fold l c buf n (k + 1)
      { m with got := Function.update m.got c (m.got c ++ [cells[k]]) } cells hbuf (by omega)
    rw [hstep, hrest]
    rw [List.drop_eq_getElem_cons hk, List.take_succ_cons]
    simp [Function.update_idem]

/-- The operations of a growth: only buffers change, and afterwards the slot's buffer has room. -/
theorem grow_fold {sl : SlotHost} {m : SlotMem α} (l : SlotId) (c n : ℕ)
    (hbuf : ∀ buf len, sl.buf = some (buf, len) →
      buf < sl.allocs ∧ ∃ cells, m.bufs buf = some cells ∧ cells.length = len) :
    (∀ q, q <+: (sl.grow α n).1.map (slotOp l c) →
      ∃ bufs, q.foldl SlotMem.exec m = { m with bufs }) ∧
    ∃ bufs cells, ((sl.grow α n).1.map (slotOp l c)).foldl SlotMem.exec m = { m with bufs } ∧
      bufs (sl.grow α n).2.1 = some cells ∧ n ≤ cells.length ∧
      (sl.grow α n).2.2.buf = some ((sl.grow α n).2.1, cells.length) ∧
      (sl.grow α n).2.1 < (sl.grow α n).2.2.allocs := by
  -- the new buffer, zeroed
  have hzero : (m.exec (slotOp l c (.alloc sl.allocs n))).exec (slotOp l c (.memset sl.allocs)) =
      { m with
        bufs := Function.update m.bufs sl.allocs (some (List.replicate n (some (0 : α)))) } := by
    simp [SlotMem.exec, slotOp]
  rcases hb : sl.buf with _ | ⟨buf, len⟩
  · have hgrow : sl.grow α n = ([.alloc sl.allocs n, .memset sl.allocs], sl.allocs,
        { buf := some (sl.allocs, n), allocs := sl.allocs + 1 }) := by
      simp [SlotHost.grow, hb]
    rw [hgrow]
    refine ⟨fun q hq => ?_, _, List.replicate n (some 0), hzero, by simp, by simp, by simp, by simp⟩
    simp only [List.map_cons, List.map_nil, List.prefix_cons_iff, List.prefix_nil] at hq
    rcases hq with rfl | ⟨t, rfl, rfl | ⟨t, rfl, rfl⟩⟩
    · exact ⟨m.bufs, rfl⟩
    · exact ⟨_, rfl⟩
    · exact ⟨_, hzero⟩
  · obtain ⟨hlt, old, hold, holdlen⟩ := hbuf buf len hb
    by_cases hn : len < n
    · have hgrow : sl.grow α n = ([.alloc sl.allocs n, .memset sl.allocs, .free buf], sl.allocs,
          { buf := some (sl.allocs, n), allocs := sl.allocs + 1 }) := by
        simp [SlotHost.grow, hb, hn]
      have hne : buf ≠ sl.allocs := by omega
      have hfree : ((m.exec (slotOp l c (.alloc sl.allocs n))).exec
          (slotOp l c (.memset sl.allocs))).exec (slotOp l c (.free buf)) =
          { m with
            bufs := Function.update
              (Function.update m.bufs sl.allocs (some (List.replicate n (some (0 : α)))))
              buf none } := by
        rw [hzero]
        simp [SlotMem.exec, slotOp, Function.update_of_ne hne, hold]
      rw [hgrow]
      refine ⟨fun q hq => ?_, _, List.replicate n (some 0), hfree, ?_, by simp, by simp, by simp⟩
      · simp only [List.map_cons, List.map_nil, List.prefix_cons_iff, List.prefix_nil] at hq
        rcases hq with rfl | ⟨t, rfl, rfl | ⟨t, rfl, rfl | ⟨t, rfl, rfl⟩⟩⟩
        · exact ⟨m.bufs, rfl⟩
        · exact ⟨_, rfl⟩
        · exact ⟨_, hzero⟩
        · exact ⟨_, hfree⟩
      · rw [Function.update_of_ne (Ne.symm hne), Function.update_self]
    · have hgrow : sl.grow α n = ([], buf, sl) := by simp [SlotHost.grow, hb, hn]
      rw [hgrow]
      refine ⟨fun q hq => ?_, m.bufs, old, rfl, hold, by omega, by rw [hb, holdlen], hlt⟩
      rw [List.map_nil, List.prefix_nil] at hq
      exact ⟨m.bufs, by rw [hq]; rfl⟩

end

/-- The payload of a slot's crossings by number. -/
abbrev Wanted (α : Type) := ℕ → Option (List α)

/-- Between two crossings: those before number `c` have received their payloads, none from `c` on has
begun, and the slot's buffer is there. -/
structure Idle (want : Wanted α) (sl : SlotHost) (c : ℕ) (m : SlotMem α) : Prop where
  fault : m.fault = false
  buf : ∀ buf len, sl.buf = some (buf, len) →
    buf < sl.allocs ∧ ∃ cells, m.bufs buf = some cells ∧ cells.length = len
  past : ∀ c' < c, ∀ x, want c' = some x → m.got c' = x.map some
  later : ∀ c', c ≤ c' → m.got c' = [] ∧ m.wrote c' = 0

/-- Crossing `n` may be under way: those before it have received their payloads, it has received a
first part of its own, none after it has begun. -/
structure GoodAt (want : Wanted α) (n : ℕ) (m : SlotMem α) : Prop where
  fault : m.fault = false
  past : ∀ c < n, ∀ x, want c = some x → m.got c = x.map some
  now : ∀ x, want n = some x → m.got n <+: x.map some
  later : ∀ c, n < c → m.got c = [] ∧ m.wrote c = 0

variable {want : Wanted α} {sl : SlotHost} {c : ℕ} {m : SlotMem α}

theorem Idle.good (h : Idle want sl c m) : GoodAt want c m where
  fault := h.fault
  past := h.past
  now x _ := by
    rw [(h.later c le_rfl).1]
    exact List.nil_prefix
  later c' hc := h.later c' hc.le

/-- A first part of two lists in a row. -/
theorem prefix_append_cases {β : Type} {q a b : List β} (h : q <+: a ++ b) :
    q <+: a ∨ ∃ t, q = a ++ t ∧ t <+: b := by
  rcases Nat.le_total q.length a.length with hle | hle
  · exact .inl (List.prefix_of_prefix_length_le h (List.prefix_append _ _) hle)
  · obtain ⟨t, rfl⟩ := List.prefix_of_prefix_length_le (List.prefix_append a b) h hle
    exact .inr ⟨t, rfl, (List.prefix_append_right_inj _).1 h⟩

theorem eq_of_prefixes {β : Type} {q r a : List β} (hq : q <+: a) (hr : r <+: a)
    (hl : q.length = r.length) : q = r :=
  (List.prefix_of_prefix_length_le hq hr hl.le).eq_of_length hl

theorem zipIdx_of_take (x : List α) (j k : ℕ) : (x.take j).zipIdx k <+: x.zipIdx k := by
  conv_rhs => rw [← List.take_append_drop j x, List.zipIdx_append]
  exact List.prefix_append _ _

section
variable [Zero α]

/-- **One crossing**: every point inside it is good, and it ends idle with its payload received. -/
theorem block_good (h : Idle want sl c m) (l : SlotId) {x : List α} (hx : want c = some x) :
    (∀ q, q <+: blockOps l c (sl.grow α x.length).1 (sl.grow α x.length).2.1 x →
      GoodAt want c (q.foldl SlotMem.exec m)) ∧
    Idle want (sl.grow α x.length).2.2 (c + 1)
      ((blockOps l c (sl.grow α x.length).1 (sl.grow α x.length).2.1 x).foldl SlotMem.exec m) := by
  obtain ⟨hgrow, bufs, cells, hfull, hcells, hle, hbuf, hlt⟩ := grow_fold l c x.length h.buf
  obtain ⟨hgot, hwrote⟩ := h.later c le_rfl
  generalize (sl.grow α x.length).2.1 = buf at *
  -- after the growth, and `j` elements of the TX copy
  have hw : ∀ j ≤ x.length,
      (((x.take j).zipIdx 0).map fun v => slotOp l c (.write buf v.2 v.1)).foldl SlotMem.exec
          { m with bufs } =
        { m with
          bufs := Function.update bufs buf (some ((x.take j).map some ++ cells.drop j))
          wrote := Function.update m.wrote c j } := by
    intro j hj
    have hjl : (x.take j).length = j := by simp [hj]
    rw [writes_fold l c buf (x.take j) 0 _ cells hcells (by omega)]
    simp only [hjl, hwrote, Nat.zero_add, List.take_zero, List.nil_append]
  -- and `j` elements of the RX copy
  have hr : ∀ j ≤ x.length,
      ((List.range' 0 j).map fun k => slotOp l c (.read buf k)).foldl SlotMem.exec
          { m with
            bufs := Function.update bufs buf (some (x.map some ++ cells.drop x.length))
            wrote := Function.update m.wrote c x.length } =
        { m with
          bufs := Function.update bufs buf (some (x.map some ++ cells.drop x.length))
          wrote := Function.update m.wrote c x.length
          got := Function.update m.got c ((x.take j).map some) } := by
    intro j hj
    rw [reads_fold l c buf j 0 _ (x.map some ++ cells.drop x.length) (by simp) (by simp; omega)]
    simp only [hgot, List.nil_append, List.drop_zero]
    rw [List.take_append_of_le_length (by simp [hj]), List.map_take]
  have hwx := hw x.length le_rfl
  rw [List.take_length] at hwx
  have hother : ∀ (f : ℕ → ℕ) (v c' : ℕ), c < c' → Function.update f c v c' = f c' :=
    fun f v c' hc => Function.update_of_ne (by omega) _ _
  have hgood : ∀ bufs j k, k ≤ x.length → GoodAt want c
      { m with
        bufs, wrote := Function.update m.wrote c j
        got := Function.update m.got c ((x.take k).map some) } := by
    intro bufs j k hk
    refine ⟨h.fault, fun c' hc' y hy => ?_, fun y hy => ?_, fun c' hc' => ?_⟩
    · show Function.update m.got c _ c' = _
      rw [Function.update_of_ne (by omega)]
      exact h.past c' hc' y hy
    · show Function.update m.got c _ c <+: _
      obtain rfl : x = y := by rw [hx] at hy; exact Option.some.inj hy
      rw [Function.update_self, List.map_take]
      exact List.take_prefix _ _
    · refine ⟨?_, ?_⟩
      · show Function.update m.got c _ c' = _
        rw [Function.update_of_ne (by omega)]
        exact (h.later c' hc'.le).1
      · show Function.update m.wrote c _ c' = _
        rw [hother _ _ _ hc']
        exact (h.later c' hc'.le).2
  have hsame : ∀ bufs, { m with bufs } =
      { m with
        bufs, wrote := Function.update m.wrote c 0
        got := Function.update m.got c ((x.take 0).map some) } := by
    intro bufs
    have h1 : Function.update m.wrote c 0 = m.wrote := by rw [← hwrote, Function.update_eq_self]
    have h2 : Function.update m.got c ((x.take 0).map some) = m.got := by
      rw [List.take_zero, List.map_nil, ← hgot, Function.update_eq_self]
    rw [h1, h2]
  refine ⟨fun q hq => ?_, ?_⟩
  · rcases prefix_append_cases hq with hq | ⟨t, rfl, ht⟩
    · rcases prefix_append_cases hq with hq | ⟨t, rfl, ht⟩
      · obtain ⟨bufs', hb⟩ := hgrow q hq
        rw [hb, hsame]
        exact hgood bufs' 0 0 (Nat.zero_le _)
      · have hj : t.length ≤ x.length := by simpa using ht.length_le
        have htw : t = ((x.take t.length).zipIdx 0).map
            fun v => slotOp l c (.write buf v.2 v.1) :=
          eq_of_prefixes ht ((zipIdx_of_take x t.length 0).map _) (by simp [hj])
        have hzero : m.got = Function.update m.got c ((x.take 0).map some) := by
          rw [List.take_zero, List.map_nil, ← hgot, Function.update_eq_self]
        rw [List.foldl_append, hfull, htw, hw _ hj, hzero]
        exact hgood _ _ 0 (Nat.zero_le _)
    · have hj : t.length ≤ x.length := by simpa using ht.length_le
      have htr : t = (List.range' 0 t.length).map fun k => slotOp l c (.read buf k) := by
        rw [List.range_eq_range'] at ht
        refine eq_of_prefixes ht (List.IsPrefix.map _ ?_) (by simp)
        rw [← List.take_range'_of_length_ge hj]
        exact List.take_prefix _ _
      rw [List.foldl_append, List.foldl_append, hfull, hwx, htr, hr _ hj]
      exact hgood _ _ _ hj
  · have hall := hr x.length le_rfl
    rw [← List.range_eq_range'] at hall
    unfold blockOps
    rw [List.foldl_append, List.foldl_append, hfull, hwx, hall, List.take_length]
    refine ⟨h.fault, fun buf' len hb => ?_, fun c' hc' y hy => ?_, fun c' hc' => ?_⟩
    · rw [hbuf, Option.some.injEq, Prod.mk.injEq] at hb
      obtain ⟨rfl, rfl⟩ := hb
      exact ⟨hlt, _, Function.update_self .., by simp; omega⟩
    · show Function.update m.got c _ c' = _
      by_cases hcc : c' = c
      · subst hcc
        obtain rfl : x = y := by rw [hx] at hy; exact Option.some.inj hy
        rw [Function.update_self]
      · rw [Function.update_of_ne hcc]
        exact h.past c' (by omega) y hy
    · have hcc : c' ≠ c := by omega
      refine ⟨?_, ?_⟩
      · show Function.update m.got c _ c' = _
        rw [Function.update_of_ne hcc]
        exact (h.later c' (by omega)).1
      · show Function.update m.wrote c _ c' = _
        rw [Function.update_of_ne hcc]
        exact (h.later c' (by omega)).2

/-- **The whole program on one slot**: every point is good, and the end is idle. -/
theorem issue_good (l : SlotId) (want : Wanted α) (cs : List (Crossing α)) :
    ∀ (h : PpHost) (c : ℕ) (m : SlotMem α), Idle want (h.at l) c m →
      (∀ (i : ℕ) (cr : Crossing α) (l' : SlotId), cs[i]? = some cr →
        (slotsUsed h cs)[i]? = some l' → want (c + i) = if l' = l then some cr.x else none) →
      (∀ q, q <+: (issue h c cs).filterMap (Instr.opAt SlotOp.slot l) →
        ∃ n, GoodAt want n (q.foldl SlotMem.exec m)) ∧
      ∃ sl, Idle want sl (c + cs.length)
        (((issue h c cs).filterMap (Instr.opAt SlotOp.slot l)).foldl SlotMem.exec m) := by
  induction cs with
  | nil =>
    intro h c m hm _
    refine ⟨fun q hq => ⟨c, ?_⟩, _, hm⟩
    obtain rfl := List.prefix_nil.1 hq
    exact hm.good
  | cons cr cs ih =>
    intro h c m hm hwant
    have hhead := hwant 0 cr (txSlot h cr.b cr.overlap) rfl rfl
    have htail : ∀ (i : ℕ) (cr' : Crossing α) (l' : SlotId), cs[i]? = some cr' →
        (slotsUsed (tx h cr.b cr.overlap c cr.x).2.2 cs)[i]? = some l' →
        want (c + 1 + i) = if l' = l then some cr'.x else none := by
      intro i cr' l' hcr hl
      rw [show c + 1 + i = c + (i + 1) by omega]
      exact hwant (i + 1) cr' l' hcr hl
    have hhost := tx_host h cr.b cr.overlap c cr.x l
    unfold issue
    simp only
    rw [crossing_eq, List.filterMap_append, List.length_cons,
      show c + (cs.length + 1) = c + 1 + cs.length by omega]
    by_cases hl : txSlot h cr.b cr.overlap = l
    · rw [if_pos hl] at hhead
      rw [if_pos hl.symm] at hhost
      obtain ⟨hin, hend⟩ := block_good hm l hhead
      rw [← hhost] at hend
      obtain ⟨hgood, hfin⟩ := ih _ (c + 1) _ hend htail
      rw [hl, crossingBlock_ops, List.foldl_append]
      refine ⟨fun q hq => ?_, hfin⟩
      rcases prefix_append_cases hq with hq | ⟨t, rfl, ht⟩
      · exact ⟨c, hin q hq⟩
      · rw [List.foldl_append]
        exact hgood t ht
    · rw [if_neg hl] at hhead
      rw [if_neg (Ne.symm hl)] at hhost
      have hnil := List.filterMap_eq_nil_iff.2 fun a ha => (crossingBlock_frame hl c
        ((h.at (txSlot h cr.b cr.overlap)).grow α cr.x.length).1
        ((h.at (txSlot h cr.b cr.overlap)).grow α cr.x.length).2.1 cr.x a ha).1
      rw [hnil, List.nil_append]
      apply ih _ (c + 1) m _ htail
      rw [hhost]
      refine ⟨hm.fault, hm.buf, fun c' hc' x hx => ?_, fun c' hc' => hm.later c' (by omega)⟩
      rcases Nat.lt_succ_iff_lt_or_eq.1 hc' with hlt | rfl
      · exact hm.past c' hlt x hx
      · rw [show c' + 0 = c' from rfl] at hhead
        rw [hhead] at hx
        cases hx

/-! ## Every execution -/

/-- The payload each crossing of slot `l` publishes. -/
def wanted (cs : List (Crossing α)) (l : SlotId) : Wanted α := fun c =>
  match cs[c]?, (slotsUsed .new cs)[c]? with
  | some cr, some l' => if l' = l then some cr.x else none
  | _, _ => none

/-- What the boundaries promise of an execution so far. -/
structure BoundarySafe (cs : List (Crossing α)) (done : List ℕ) : Prop where
  /-- No copy reads or writes a buffer that is not there, has been freed, or is too short. -/
  no_fault : ∀ l, (slotMem cs l done).fault = false
  /-- What an RX copy has read so far is what its TX wrote. -/
  exact : ∀ l c x, wanted cs l c = some x → (slotMem cs l done).got c <+: x.map some
  /-- At the end it has read all of it. -/
  complete : (∀ i < (ppProgram cs).length, i ∈ done) →
    ∀ l c x, wanted cs l c = some x → (slotMem cs l done).got c = x.map some
  /-- A TX copy that has begun finds every earlier RX copy from its slot completed. -/
  guarded : ∀ l c c' x, c' < c → wanted cs l c' = some x → 0 < (slotMem cs l done).wrote c →
    (slotMem cs l done).got c' = x.map some
  /-- No wait blocks for ever. -/
  live : ∀ i < (ppProgram cs).length, i ∉ done → ∃ k, Exec (ppProgram cs) (done ++ [k])

/-- **Boundary slots neither tear nor go stale**, over any crossings, in every execution that streams
and events allow. -/
theorem boundary_safe (cs : List (Crossing α)) {done : List ℕ} (h : Exec (ppProgram cs) done) :
    BoundarySafe cs done := by
  have hinit : ∀ l, Idle (wanted cs l) (PpHost.new.at l) 0 ({} : SlotMem α) := by
    intro l
    exact ⟨rfl, nofun, nofun, fun _ _ => ⟨rfl, rfl⟩⟩
  have hwant : ∀ l (i : ℕ) (cr : Crossing α) (l' : SlotId), cs[i]? = some cr →
      (slotsUsed .new cs)[i]? = some l' →
      wanted cs l (0 + i) = if l' = l then some cr.x else none := by
    intro l i cr l' hcr hl
    simp only [wanted, Nat.zero_add, hcr, hl]
  have hops : ∀ l, opsAt SlotOp.slot (ppProgram cs) l done <+:
      (ppProgram cs).filterMap (Instr.opAt SlotOp.slot l) := by
    intro l
    rw [← opsAt_range]
    exact h.opsAt_initial (ppProgram_chained cs l)
  have hgood : ∀ l, ∃ n, GoodAt (wanted cs l) n (slotMem cs l done) := by
    intro l
    exact (issue_good l (wanted cs l) cs .new 0 {} (hinit l) (hwant l)).1 _ (hops l)
  refine ⟨fun l => ?_, fun l c x hx => ?_, fun hall l c x hx => ?_, fun l c c' x hc hx hw => ?_,
    fun i hlt hi => h.progress hlt hi⟩
  · obtain ⟨n, hn⟩ := hgood l
    exact hn.fault
  · obtain ⟨n, hn⟩ := hgood l
    rcases Nat.lt_trichotomy c n with hlt | rfl | hgt
    · rw [hn.past c hlt x hx]
    · exact hn.now x hx
    · rw [(hn.later c hgt).1]
      exact List.nil_prefix
  · obtain ⟨sl, hend⟩ :=
      (issue_good l (wanted cs l) cs .new 0 {} (hinit l) (hwant l)).2
    have hfull : opsAt SlotOp.slot (ppProgram cs) l done =
        (ppProgram cs).filterMap (Instr.opAt SlotOp.slot l) := by
      rw [h.opsAt_complete (ppProgram_chained cs l) hall, opsAt_range]
    have hlt : c < cs.length := by
      by_contra hge
      rw [wanted, List.getElem?_eq_none (by omega)] at hx
      cases hx
    rw [slotMem, hfull]
    exact hend.past c (by omega) x hx
  · obtain ⟨n, hn⟩ := hgood l
    have hcn : c ≤ n := by
      by_contra hlt
      rw [(hn.later c (by omega)).2] at hw
      omega
    exact hn.past c' (by omega) x hx

/-- Two crossings of one boundary in one slot, the second wider than the first, executed in the order
of issue. -/
theorem boundary_safe_grow :
    BoundarySafe [({ b := 0, overlap := false, x := [1] } : Crossing ℕ),
        { b := 0, overlap := false, x := [2, 3] }]
      (List.range (ppProgram [({ b := 0, overlap := false, x := [1] } : Crossing ℕ),
        { b := 0, overlap := false, x := [2, 3] }]).length) :=
  boundary_safe _ (Exec.range _ _ le_rfl)

end

end Memra
