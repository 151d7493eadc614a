import Mathlib.Data.List.Infix
import Mathlib.Data.List.Nodup
import Mathlib.Data.List.Sort
import Mathlib.Data.List.Range
import Mathlib.Logic.Relation

/-!
# Streams, events and what they order

A host issues instructions: operations, event records and event waits, each enqueued on a stream,
and synchronizations that block the host. `Needs p j i`: instruction `j` of the program `p` has to
be executed before instruction `i`. A stream is a FIFO, a wait needs the latest record of its event
issued before it (none: nothing), a synchronization needs its stream drained, and nothing issued
after a synchronization runs before it. `Exec p done`: `done` is an execution so far, any order that
`Needs` allows.

`Exec.opsAt_initial`: where all operations on a location are ordered by `Before`, an execution has
done to it a first part of what the program does to it, in the order of issue. `Ready` and `Covered` are the
assertions that prove such an order while the program is issued, one rule for each instruction.
-/

namespace Lib

variable {S E O : Type}

/-- What a host issues. -/
inductive Instr (S E O : Type) where
  | op (s : S) (o : O)
  | record (s : S) (e : E)
  | wait (s : S) (e : E)
  | sync (s : S)
  deriving DecidableEq

/-- The stream an instruction is enqueued on. -/
def Instr.queue : Instr S E O → Option S
  | op s _ => some s
  | record s _ => some s
  | wait s _ => some s
  | sync _ => none

/-- The event an instruction records. -/
def Instr.records : Instr S E O → Option E
  | record _ e => some e
  | _ => none

/-- Instruction `j` of `p` has to be executed before instruction `i`. -/
inductive Needs (p : List (Instr S E O)) (j i : ℕ) : Prop where
  | fifo {a b : Instr S E O} {s : S} : j < i → p[j]? = some a → p[i]? = some b →
      a.queue = some s → b.queue = some s → Needs p j i
  | event {a : Instr S E O} {s : S} {e : E} : j < i → p[j]? = some a → a.records = some e →
      (∀ k b, j < k → k < i → p[k]? = some b → b.records ≠ some e) →
      p[i]? = some (.wait s e) → Needs p j i
  | drained {a : Instr S E O} {s : S} : j < i → p[j]? = some a → a.queue = some s →
      p[i]? = some (.sync s) → Needs p j i
  | blocked {b : Instr S E O} {s : S} : j < i → p[j]? = some (.sync s) → p[i]? = some b →
      Needs p j i

/-- Everything an instruction comes after. -/
def Before (p : List (Instr S E O)) : ℕ → ℕ → Prop := Relation.TransGen (Needs p)

/-- An execution so far: the instructions in the order they were executed. -/
inductive Exec (p : List (Instr S E O)) : List ℕ → Prop where
  | nil : Exec p []
  | step {done : List ℕ} {i : ℕ} : Exec p done → i < p.length → i ∉ done →
      (∀ j, Needs p j i → j ∈ done) → Exec p (done ++ [i])

variable {p q : List (Instr S E O)} {i j : ℕ}

theorem Needs.lt (h : Needs p j i) : j < i := by
  cases h <;> assumption

theorem Needs.lt_length (h : Needs p j i) : i < p.length := by
  cases h with
  | fifo _ _ hi => exact (List.getElem?_eq_some_iff.1 hi).1
  | event _ _ _ _ hi => exact (List.getElem?_eq_some_iff.1 hi).1
  | drained _ _ _ hi => exact (List.getElem?_eq_some_iff.1 hi).1
  | blocked _ _ hi => exact (List.getElem?_eq_some_iff.1 hi).1

theorem getElem?_append_some {a : Instr S E O} (h : p[i]? = some a) : (p ++ q)[i]? = some a := by
  rw [List.getElem?_append_left (List.getElem?_eq_some_iff.1 h).1, h]

/-- What is issued later changes nothing about what came before. -/
theorem Needs.append (h : Needs p j i) : Needs (p ++ q) j i := by
  cases h with
  | fifo hlt hj hi ha hb =>
    exact .fifo hlt (getElem?_append_some hj) (getElem?_append_some hi) ha hb
  | event hlt hj ha hlast hi =>
    refine .event hlt (getElem?_append_some hj) ha (fun k b hk hki hb => ?_)
      (getElem?_append_some hi)
    rw [List.getElem?_append_left (hki.trans (List.getElem?_eq_some_iff.1 hi).1)] at hb
    exact hlast k b hk hki hb
  | drained hlt hj ha hi =>
    exact .drained hlt (getElem?_append_some hj) ha (getElem?_append_some hi)
  | blocked hlt hj hi => exact .blocked hlt (getElem?_append_some hj) (getElem?_append_some hi)

theorem Before.append (h : Before p j i) : Before (p ++ q) j i := by
  induction h with
  | single h => exact .single h.append
  | tail _ h ih => exact .tail ih h.append

theorem Before.lt (h : Before p j i) : j < i := by
  induction h with
  | single h => exact h.lt
  | tail _ h ih => exact ih.trans h.lt

theorem Before.lt_length (h : Before p j i) : i < p.length := by
  cases h with
  | single h => exact h.lt_length
  | tail _ h => exact h.lt_length

/-! ## Executions -/

section
variable {done : List ℕ}

theorem Exec.lt_length (h : Exec p done) (hi : i ∈ done) : i < p.length := by
  induction h with
  | nil => cases hi
  | step _ hlt _ _ ih =>
    rcases List.mem_append.1 hi with hi | hi
    · exact ih hi
    · obtain rfl := List.mem_singleton.1 hi
      exact hlt

theorem Exec.nodup (h : Exec p done) : done.Nodup := by
  induction h with
  | nil => exact List.nodup_nil
  | step _ _ hnew _ ih =>
    apply List.Nodup.append ih (List.nodup_singleton _)
    simpa using hnew

theorem Exec.needs_mem (h : Exec p done) (hi : i ∈ done) (hn : Needs p j i) : j ∈ done := by
  induction h with
  | nil => cases hi
  | step _ _ _ hneeds ih =>
    rcases List.mem_append.1 hi with hi | hi
    · exact List.mem_append_left _ (ih hi)
    · obtain rfl := List.mem_singleton.1 hi
      exact List.mem_append_left _ (hneeds _ hn)

theorem Exec.before_mem (h : Exec p done) (hi : i ∈ done) (hb : Before p j i) : j ∈ done := by
  induction hb using Relation.TransGen.head_induction_on with
  | single hn => exact h.needs_mem hi hn
  | head hn _ ih => exact h.needs_mem ih hn

/-- The execution up to the step that executed `i`. -/
theorem Exec.initial {pre post : List ℕ} (h : Exec p (pre ++ post)) : Exec p pre := by
  induction post using List.reverseRecOn with
  | nil => simpa using h
  | append_singleton post i ih =>
    rw [← List.append_assoc] at h
    generalize hd : pre ++ post ++ [i] = done at h
    cases h with
    | nil => simp at hd
    | step h _ _ _ =>
      obtain ⟨hd, -⟩ := List.append_inj' hd rfl
      exact ih (hd ▸ h)

/-- The order of issue is an execution. -/
theorem Exec.range (p : List (Instr S E O)) : ∀ n ≤ p.length, Exec p (List.range n)
  | 0, _ => .nil
  | n + 1, hn => by
    rw [List.range_succ]
    exact .step (Exec.range p n (by omega)) (by omega) (by simp)
      fun j hj => List.mem_range.2 hj.lt

/-- **No deadlock**: as long as an instruction is left, the first one left can be executed. -/
theorem Exec.progress (h : Exec p done) (hlt : i < p.length) (hi : i ∉ done) :
    ∃ k, Exec p (done ++ [k]) := by
  classical
  have hex : ∃ k, k < p.length ∧ k ∉ done := ⟨i, hlt, hi⟩
  obtain ⟨hk, hnew⟩ := Nat.find_spec hex
  refine ⟨Nat.find hex, .step h hk hnew fun j hj => ?_⟩
  by_contra hnot
  exact Nat.find_min hex hj.lt ⟨hj.lt.trans hk, hnot⟩

end

/-! ## Locations -/

section
variable {L : Type} [DecidableEq L] (loc : O → L)

/-- The operation of an instruction, if it is one on `l`. -/
def Instr.opAt (l : L) : Instr S E O → Option O
  | op _ o => if loc o = l then some o else none
  | _ => none

/-- The operations on `l` among the instructions `is`, in their order. -/
def opsAt (p : List (Instr S E O)) (l : L) (is : List ℕ) : List O :=
  is.filterMap fun i => p[i]?.bind (Instr.opAt loc l)

/-- Instruction `i` is an operation on `l`. -/
def OpAt (p : List (Instr S E O)) (l : L) (i : ℕ) : Prop :=
  ∃ a o, p[i]? = some a ∧ a.opAt loc l = some o

/-- The operations on `l` are ordered. -/
def Chained (p : List (Instr S E O)) (l : L) : Prop :=
  ∀ i j, i < j → OpAt loc p l i → OpAt loc p l j → Before p i j

variable {loc} {l : L}

theorem OpAt.lt_length (h : OpAt loc p l i) : i < p.length := by
  obtain ⟨a, -, ha, -⟩ := h
  exact (List.getElem?_eq_some_iff.1 ha).1

/-- The operations on a chained location are executed in the order they were issued. -/
theorem Exec.ops_in_order [DecidablePred (OpAt loc p l)] (hc : Chained loc p l) {done : List ℕ}
    (h : Exec p done) :
    done.filter (OpAt loc p l) <+: (List.range p.length).filter (OpAt loc p l) := by
  induction h with
  | nil => exact List.nil_prefix
  | @step done i h hlt hnew hneeds ih =>
    rw [List.filter_append]
    by_cases hop : OpAt loc p l i
    swap
    · simpa [hop] using ih
    obtain ⟨rest, hrest⟩ := ih
    have hsorted : ((List.range p.length).filter (OpAt loc p l)).Pairwise (· < ·) :=
      List.pairwise_lt_range.filter _
    have hmem : i ∈ rest := by
      have hi : i ∈ (List.range p.length).filter (OpAt loc p l) := by simp [hlt, hop]
      rw [← hrest] at hi
      rcases List.mem_append.1 hi with hi | hi
      · exact absurd (List.mem_filter.1 hi).1 hnew
      · exact hi
    cases rest with
    | nil => cases hmem
    | cons m rest =>
      have hm : m = i := by
        rcases List.mem_cons.1 hmem with rfl | hmem
        · rfl
        rw [← hrest] at hsorted
        have hlt' : m < i :=
          List.rel_of_pairwise_cons (List.pairwise_append.1 hsorted).2.1 hmem
        have hmL : m ∈ (List.range p.length).filter (OpAt loc p l) := by
          rw [← hrest]
          simp
        have hmop : OpAt loc p l m := by simpa using (List.mem_filter.1 hmL).2
        have hfull : Exec p (done ++ [i]) := .step h hlt hnew hneeds
        have hmd := hfull.before_mem (by simp) (hc m i hlt' hmop hop)
        rcases List.mem_append.1 hmd with hmd | hmd
        · have hfilter : m ∈ done.filter (OpAt loc p l) := by simp [hmd, hmop]
          have := (List.pairwise_append.1 hsorted).2.2 m hfilter m List.mem_cons_self
          omega
        · exact List.mem_singleton.1 hmd
      refine ⟨rest, ?_⟩
      rw [← hrest, hm]
      simp [hop]

theorem opsAt_filter (P : ℕ → Bool) (hP : ∀ i, OpAt loc p l i → P i = true) (is : List ℕ) :
    opsAt loc p l (is.filter P) = opsAt loc p l is := by
  unfold opsAt
  rw [List.filterMap_filter]
  apply List.filterMap_congr
  intro i _
  split
  · rfl
  · rename_i hi
    cases hp : p[i]? with
    | none => rfl
    | some a =>
      cases ho : a.opAt loc l with
      | none => simp [ho]
      | some o => exact absurd (hP i ⟨a, o, hp, ho⟩) hi

/-- **What an execution has done to a chained location** is a first part of what the program does to
it. -/
theorem Exec.opsAt_initial (hc : Chained loc p l) {done : List ℕ} (h : Exec p done) :
    opsAt loc p l done <+: opsAt loc p l (List.range p.length) := by
  classical
  have hpre := (h.ops_in_order hc).filterMap fun i => p[i]?.bind (Instr.opAt loc l)
  have hP : ∀ i, OpAt loc p l i → decide (OpAt loc p l i) = true := fun i => decide_eq_true
  have h1 : opsAt loc p l (done.filter _) = opsAt loc p l done := opsAt_filter _ hP done
  have h2 : opsAt loc p l ((List.range p.length).filter _) = opsAt loc p l (List.range p.length) :=
    opsAt_filter _ hP _
  rw [← h1, ← h2]
  exact hpre

/-- A finished execution has done all of it. -/
theorem Exec.opsAt_complete (hc : Chained loc p l) {done : List ℕ} (h : Exec p done)
    (hall : ∀ i < p.length, i ∈ done) :
    opsAt loc p l done = opsAt loc p l (List.range p.length) := by
  classical
  have hP : ∀ i, OpAt loc p l i → decide (OpAt loc p l i) = true := fun i => decide_eq_true
  obtain ⟨rest, hrest⟩ := h.ops_in_order hc
  have hnodup : ((List.range p.length).filter (OpAt loc p l)).Nodup :=
    List.nodup_range.filter _
  have hnil : rest = [] := by
    refine List.eq_nil_iff_forall_not_mem.2 fun m hm => ?_
    have hmem : m ∈ (List.range p.length).filter (OpAt loc p l) := by
      rw [← hrest]
      exact List.mem_append_right _ hm
    obtain ⟨hlt, hop⟩ := List.mem_filter.1 hmem
    have hd : m ∈ done.filter (OpAt loc p l) :=
      List.mem_filter.2 ⟨hall m (List.mem_range.1 hlt), hop⟩
    rw [← hrest] at hnodup
    exact List.disjoint_of_nodup_append hnodup hd hm
  rw [hnil, List.append_nil] at hrest
  have h1 : opsAt loc p l (done.filter _) = opsAt loc p l done := opsAt_filter _ hP done
  rw [← h1, hrest]
  exact opsAt_filter _ hP _

/-- All operations of the program on `l`. -/
theorem opsAt_range (p : List (Instr S E O)) (l : L) :
    opsAt loc p l (List.range p.length) = p.filterMap (Instr.opAt loc l) := by
  induction p using List.reverseRecOn with
  | nil => rfl
  | append_singleton p a ih =>
    unfold opsAt at ih ⊢
    rw [List.length_append, List.length_singleton, List.range_succ, List.filterMap_append,
      List.filterMap_append, ← ih]
    congr 1
    · apply List.filterMap_congr
      intro i hi
      rw [List.getElem?_append_left (List.mem_range.1 hi)]
    · simp only [List.filterMap_cons, List.getElem?_concat_length, Option.bind_some]
      rfl

/-- Operations on `l`, enqueued on one stream. -/
theorem filterMap_ops (s : S) {os : List O} (h : ∀ o ∈ os, loc o = l) :
    (os.map (Instr.op (E := E) s)).filterMap (Instr.opAt loc l) = os := by
  induction os with
  | nil => rfl
  | cons o os ih =>
    have ho : Instr.opAt loc l (Instr.op (E := E) s o) = some o := if_pos (h o (.head _))
    rw [List.map_cons, List.filterMap_cons_some ho, ih fun o' ho' => h o' (.tail _ ho')]

/-! ## Assertions about the program issued so far -/

/-- Whatever is issued next on `s` comes after every operation on `l`. -/
def Ready (loc : O → L) (p : List (Instr S E O)) (l : L) (s : S) : Prop :=
  ∀ i, OpAt loc p l i → ∃ w a, p[w]? = some a ∧ (a.queue = some s ∨ ∃ s', a = .sync s') ∧
    (i = w ∨ Before p i w)

/-- The latest record of `e`, on stream `s`, comes after every operation on `l`. -/
def Covered (loc : O → L) (p : List (Instr S E O)) (l : L) (s : S) (e : E) : Prop :=
  ∀ i, OpAt loc p l i → ∃ r, p[r]? = some (.record s e) ∧
    (∀ k b, r < k → p[k]? = some b → b.records ≠ some e) ∧ Before p i r

theorem opAt_append_singleton {a : Instr S E O} (h : OpAt loc (p ++ [a]) l i) :
    OpAt loc p l i ∨ i = p.length ∧ ∃ o, a.opAt loc l = some o := by
  obtain ⟨b, o, hb, ho⟩ := h
  rcases Nat.lt_or_ge i p.length with hlt | hge
  · rw [List.getElem?_append_left hlt] at hb
    exact .inl ⟨b, o, hb, ho⟩
  · have hi : i = p.length := by
      have := (List.getElem?_eq_some_iff.1 hb).1
      rw [List.length_append, List.length_singleton] at this
      omega
    rw [hi, List.getElem?_concat_length, Option.some.injEq] at hb
    exact .inr ⟨hi, o, hb ▸ ho⟩

/-- What comes next on a stream that is ready comes after the operations on `l`. -/
theorem Ready.before_next {s : S} {a : Instr S E O} (h : Ready loc p l s)
    (ha : a.queue = some s) (hi : OpAt loc p l i) : Before (p ++ [a]) i p.length := by
  obtain ⟨w, b, hw, hb, hiw⟩ := h i hi
  have hlt := (List.getElem?_eq_some_iff.1 hw).1
  have hlast : (p ++ [a])[p.length]? = some a := by rw [List.getElem?_concat_length]
  have hstep : Needs (p ++ [a]) w p.length := by
    rcases hb with hb | ⟨s', rfl⟩
    · exact .fifo hlt (getElem?_append_some hw) hlast hb ha
    · exact .blocked hlt (getElem?_append_some hw) hlast
  rcases hiw with rfl | hiw
  · exact .single hstep
  · exact .tail hiw.append hstep

theorem Chained.append_of_not_op {a : Instr S E O} (h : Chained loc p l)
    (ha : a.opAt loc l = none) : Chained loc (p ++ [a]) l := by
  intro i j hij hi hj
  rcases opAt_append_singleton hj with hj | ⟨-, o, ho⟩
  · rcases opAt_append_singleton hi with hi | ⟨-, o, ho⟩
    · exact (h i j hij hi hj).append
    · rw [ha] at ho
      cases ho
  · rw [ha] at ho
    cases ho

theorem Ready.append_of_not_op {a : Instr S E O} {s : S} (h : Ready loc p l s)
    (ha : a.opAt loc l = none) : Ready loc (p ++ [a]) l s := by
  intro i hi
  rcases opAt_append_singleton hi with hi | ⟨-, o, ho⟩
  · obtain ⟨w, b, hw, hb, hiw⟩ := h i hi
    exact ⟨w, b, getElem?_append_some hw, hb, hiw.imp id Before.append⟩
  · rw [ha] at ho
    cases ho

theorem Covered.append_of_not_op {a : Instr S E O} {s : S} {e : E} (h : Covered loc p l s e)
    (ha : a.opAt loc l = none) (hr : a.records ≠ some e) : Covered loc (p ++ [a]) l s e := by
  intro i hi
  rcases opAt_append_singleton hi with hi | ⟨-, o, ho⟩
  · obtain ⟨r, hr', hlast, hir⟩ := h i hi
    refine ⟨r, getElem?_append_some hr', fun k b hk hb => ?_, hir.append⟩
    rcases Nat.lt_or_ge k p.length with hlt | hge
    · rw [List.getElem?_append_left hlt] at hb
      exact hlast k b hk hb
    · have hk' : k = p.length := by
        have := (List.getElem?_eq_some_iff.1 hb).1
        rw [List.length_append, List.length_singleton] at this
        omega
      rw [hk', List.getElem?_concat_length, Option.some.injEq] at hb
      exact hb ▸ hr
  · rw [ha] at ho
    cases ho

/-- An operation on a ready stream keeps the location chained. -/
theorem Chained.op {s : S} {o : O} (h : Chained loc p l) (hr : Ready loc p l s) :
    Chained loc (p ++ [.op s o]) l := by
  intro i j hij hi hj
  rcases opAt_append_singleton hi with hi | ⟨rfl, -⟩
  · rcases opAt_append_singleton hj with hj | ⟨rfl, -⟩
    · exact (h i j hij hi hj).append
    · exact hr.before_next rfl hi
  · have := hj.lt_length
    rw [List.length_append, List.length_singleton] at this
    omega

theorem Ready.op {s : S} {o : O} (h : Ready loc p l s) : Ready loc (p ++ [.op s o]) l s := by
  intro i hi
  rcases opAt_append_singleton hi with hi | ⟨rfl, -⟩
  · obtain ⟨w, b, hw, hb, hiw⟩ := h i hi
    exact ⟨w, b, getElem?_append_some hw, hb, hiw.imp id Before.append⟩
  · exact ⟨p.length, _, List.getElem?_concat_length, .inl rfl, .inl rfl⟩

/-- A record on a ready stream covers the location. -/
theorem Ready.record {s : S} (h : Ready loc p l s) (e : E) :
    Covered loc (p ++ [.record s e]) l s e := by
  intro i hi
  rcases opAt_append_singleton hi with hi | ⟨-, o, ho⟩
  · refine ⟨p.length, List.getElem?_concat_length, fun k b hk hb => ?_, h.before_next rfl hi⟩
    have := (List.getElem?_eq_some_iff.1 hb).1
    rw [List.length_append, List.length_singleton] at this
    omega
  · cases ho

/-- Waiting on an event that covers the location makes the stream ready. -/
theorem Covered.wait {s : S} {e : E} (h : Covered loc p l s e) (s' : S) :
    Ready loc (p ++ [.wait s' e]) l s' := by
  intro i hi
  rcases opAt_append_singleton hi with hi | ⟨-, o, ho⟩
  · obtain ⟨r, hr, hlast, hir⟩ := h i hi
    have hlt := (List.getElem?_eq_some_iff.1 hr).1
    refine ⟨p.length, _, List.getElem?_concat_length, .inl rfl, .inr (.tail hir.append ?_)⟩
    refine .event hlt (getElem?_append_some hr) rfl (fun k b hk hkl hb => ?_)
      List.getElem?_concat_length
    rw [List.getElem?_append_left hkl] at hb
    exact hlast k b hk hb
  · cases ho

/-- The stream of a covering record is ready. -/
theorem Covered.ready {s : S} {e : E} (h : Covered loc p l s e) : Ready loc p l s := by
  intro i hi
  obtain ⟨r, hr, -, hir⟩ := h i hi
  exact ⟨r, _, hr, .inl rfl, .inr hir⟩

/-- After draining a ready stream every stream is ready. -/
theorem Ready.sync {s : S} (h : Ready loc p l s) (s' : S) :
    Ready loc (p ++ [.sync s]) l s' := by
  intro i hi
  rcases opAt_append_singleton hi with hi | ⟨-, o, ho⟩
  · obtain ⟨w, b, hw, hb, hiw⟩ := h i hi
    have hlt := (List.getElem?_eq_some_iff.1 hw).1
    have hlast : (p ++ [Instr.sync s])[p.length]? = some (.sync s) := List.getElem?_concat_length
    have hstep : Needs (p ++ [Instr.sync s]) w p.length := by
      rcases hb with hb | ⟨s'', rfl⟩
      · exact .drained hlt (getElem?_append_some hw) hb hlast
      · exact .blocked hlt (getElem?_append_some hw) hlast
    refine ⟨p.length, _, hlast, .inr ⟨s, rfl⟩, .inr ?_⟩
    rcases hiw with rfl | hiw
    · exact .single hstep
    · exact .tail hiw.append hstep
  · cases ho

/-! Whole lists of instructions. -/

theorem Chained.frame {q : List (Instr S E O)} (hq : ∀ a ∈ q, a.opAt loc l = none) :
    ∀ {p : List (Instr S E O)}, Chained loc p l → Chained loc (p ++ q) l := by
  induction q with
  | nil => simp
  | cons a q ih =>
    intro p h
    rw [List.append_cons]
    exact ih (fun b hb => hq b (.tail _ hb)) (h.append_of_not_op (hq a (.head _)))

theorem Ready.frame {s : S} {q : List (Instr S E O)} (hq : ∀ a ∈ q, a.opAt loc l = none) :
    ∀ {p : List (Instr S E O)}, Ready loc p l s → Ready loc (p ++ q) l s := by
  induction q with
  | nil => simp
  | cons a q ih =>
    intro p h
    rw [List.append_cons]
    exact ih (fun b hb => hq b (.tail _ hb)) (h.append_of_not_op (hq a (.head _)))

theorem Covered.frame {s : S} {e : E} {q : List (Instr S E O)}
    (hq : ∀ a ∈ q, a.opAt loc l = none ∧ a.records ≠ some e) :
    ∀ {p : List (Instr S E O)}, Covered loc p l s e → Covered loc (p ++ q) l s e := by
  induction q with
  | nil => simp
  | cons a q ih =>
    intro p h
    rw [List.append_cons]
    have ha := hq a (.head _)
    exact ih (fun b hb => hq b (.tail _ hb)) (h.append_of_not_op ha.1 ha.2)

/-- Operations on one ready stream. -/
theorem Chained.ops {s : S} (os : List O) :
    ∀ {p : List (Instr S E O)}, Chained loc p l → Ready loc p l s →
      Chained loc (p ++ os.map (.op s)) l ∧ Ready loc (p ++ os.map (.op s)) l s := by
  induction os with
  | nil =>
    intro p h hr
    simpa using ⟨h, hr⟩
  | cons o os ih =>
    intro p h hr
    rw [List.map_cons, List.append_cons]
    exact ih (h.op hr) hr.op

theorem chained_nil : Chained loc ([] : List (Instr S E O)) l := by
  rintro i j - ⟨a, -, ha, -⟩
  cases ha

theorem covered_nil (s : S) (e : E) : Covered loc ([] : List (Instr S E O)) l s e := by
  rintro i ⟨a, -, ha, -⟩
  cases ha

end

end Lib
