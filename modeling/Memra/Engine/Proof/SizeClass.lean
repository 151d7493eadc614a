import Memra.Engine.SizeClass
import Mathlib.Algebra.Order.BigOperators.Group.List
import Mathlib.Data.Nat.Cast.Order.Field
import Mathlib.Data.Rat.Floor

/-!
# The plan stays within its budget

The floors of the proportional shares cost no more than the budget (`cost_floors_le`), and a turn of the
remainder pass gives at most one slot more to a class that has not had a turn, where there is room
(`Granted.step`); so a whole pass ends with every class at its floor or one above, within the inventory and
the budget. `Fits` are the two bounds that keep every product and every sum within a width.
-/

namespace Memra

namespace SizeClass

/-- The bytes of the slots of a list of classes. -/
def cost (classes : List (ℕ × ℕ)) : ℕ := (classes.map fun p => (p.1 + 8) * p.2).sum

/-- The classes of a plan in progress. -/
def PlanEntry.pair (e : PlanEntry) : ℕ × ℕ := (e.bytes, e.count)

@[simp] theorem cost_nil : cost [] = 0 := rfl

@[simp] theorem cost_cons (p : ℕ × ℕ) (classes : List (ℕ × ℕ)) :
    cost (p :: classes) = (p.1 + 8) * p.2 + cost classes := rfl

/-! ## Checked arithmetic -/

section
variable {w : ℕ}

theorem checked_eq {x : ℕ} (h : x < 2 ^ w) : checked w x = some x := if_pos h

theorem totalBytes_go : ∀ (classes : List (ℕ × ℕ)) (acc : ℕ), (∀ p ∈ classes, p.1 + 8 < 2 ^ w) →
    acc + cost classes < 2 ^ w →
    classes.foldlM (fun acc p => do
      let slot ← checked w (p.1 + 8)
      let bytes ← checked w (slot * p.2)
      checked w (acc + bytes)) acc = some (acc + cost classes)
  | [], acc, _, _ => rfl
  | p :: classes, acc, hp, hc => by
    rw [cost_cons] at hc
    have h1 : (p.1 + 8) * p.2 < 2 ^ w := by omega
    have h2 : acc + (p.1 + 8) * p.2 < 2 ^ w := by omega
    rw [List.foldlM_cons]
    simp only [checked_eq (hp p (by simp)), checked_eq h1, checked_eq h2, Option.bind_eq_bind,
      Option.bind_some]
    have ih := totalBytes_go classes (acc + (p.1 + 8) * p.2) (fun q hq => hp q (by simp [hq]))
      (by omega)
    rw [cost_cons, ← Nat.add_assoc]
    exact ih

theorem totalBytes_eq {classes : List (ℕ × ℕ)} (hp : ∀ p ∈ classes, p.1 + 8 < 2 ^ w)
    (hc : cost classes < 2 ^ w) : totalBytes w classes = some (cost classes) := by
  have := totalBytes_go classes 0 hp (by omega)
  rwa [Nat.zero_add] at this

end

/-! ## Floors -/

/-- What `share` gives. -/
def floorEntry (total budget : ℕ) (p : ℕ × ℕ) : PlanEntry :=
  { bytes := p.1, count := min (p.2 * budget / total) p.2, rem := p.2 * budget % total }

theorem mapM_share {w : ℕ} (total : ℕ) {budget : ℕ} : ∀ {classes : List (ℕ × ℕ)},
    (∀ p ∈ classes, p.2 * budget < 2 ^ w) →
    classes.mapM (share w total budget) = some (classes.map (floorEntry total budget))
  | [], _ => rfl
  | p :: classes, h => by
    have ih := mapM_share total fun q (hq : q ∈ classes) => h q (by simp [hq])
    simp only [List.mapM_cons, share, checked_eq (h p (by simp)), ih, Option.bind_eq_bind,
      Option.bind_some, Option.pure_def, List.map_cons]
    rfl

theorem total_mul_cost_floors_le (total budget : ℕ) : ∀ classes : List (ℕ × ℕ),
    total * cost ((classes.map (floorEntry total budget)).map PlanEntry.pair) ≤ cost classes * budget
  | [] => by simp
  | p :: classes => by
    have ih := total_mul_cost_floors_le total budget classes
    have h1 : total * min (p.2 * budget / total) p.2 ≤ p.2 * budget :=
      (Nat.mul_le_mul_left _ (Nat.min_le_left _ _)).trans (Nat.mul_div_le _ _)
    have h2 : total * ((p.1 + 8) * min (p.2 * budget / total) p.2) ≤ (p.1 + 8) * p.2 * budget := by
      calc total * ((p.1 + 8) * min (p.2 * budget / total) p.2)
          = (p.1 + 8) * (total * min (p.2 * budget / total) p.2) := by ring
        _ ≤ (p.1 + 8) * (p.2 * budget) := Nat.mul_le_mul_left _ h1
        _ = (p.1 + 8) * p.2 * budget := by ring
    simp only [List.map_cons, cost_cons, Nat.mul_add, Nat.add_mul, PlanEntry.pair, floorEntry] at *
    omega

/-- **The floors cost no more than the budget.** -/
theorem cost_floors_le {classes : List (ℕ × ℕ)} (budget : ℕ) (h : 0 < cost classes) :
    cost ((classes.map (floorEntry (cost classes) budget)).map PlanEntry.pair) ≤ budget :=
  Nat.le_of_mul_le_mul_left (total_mul_cost_floors_le (cost classes) budget classes) h

/-! ## The remainder pass -/

theorem cost_set : ∀ {plan : List PlanEntry} {i : ℕ} {e : PlanEntry}, plan[i]? = some e →
    cost ((plan.set i { e with count := e.count + 1 }).map PlanEntry.pair) =
      cost (plan.map PlanEntry.pair) + (e.bytes + 8)
  | [], _, _, h => by simp at h
  | d :: plan, 0, e, h => by
    obtain rfl : d = e := by simpa using h
    simp only [List.set_cons_zero, List.map_cons, cost_cons, PlanEntry.pair, Nat.mul_add, Nat.mul_one]
    omega
  | d :: plan, i + 1, e, h => by
    have ih := cost_set (show plan[i]? = some e by simpa using h)
    simp only [List.set_cons_succ, List.map_cons, cost_cons, ih]
    omega

theorem cost_le_cost : ∀ {plan : List PlanEntry} {classes : List (ℕ × ℕ)},
    plan.length = classes.length →
    (∀ (i : ℕ) p, classes[i]? = some p → ∃ e : PlanEntry, plan[i]? = some e ∧ e.bytes = p.1 ∧
      e.count ≤ p.2) →
    cost (plan.map PlanEntry.pair) ≤ cost classes
  | [], [], _, _ => Nat.le_refl _
  | e :: plan, p :: classes, hl, h => by
    have hl' : plan.length = classes.length := by simpa using hl
    have ih := cost_le_cost hl' fun i q hq => by simpa using h (i + 1) q (by simpa using hq)
    obtain ⟨e', he, hb, hc⟩ := h 0 p rfl
    obtain rfl : e = e' := by simpa using he
    have : (e.bytes + 8) * e.count ≤ (p.1 + 8) * p.2 := by
      rw [hb]
      exact Nat.mul_le_mul_left _ hc
    simp only [List.map_cons, cost_cons, PlanEntry.pair] at *
    omega

/-- The plan before the turns of `todo`: a class is at its floor or one above, and at its floor if its turn
is still to come. -/
structure Granted (total budget : ℕ) (classes : List (ℕ × ℕ)) (todo : List ℕ) (plan : List PlanEntry)
    (used : ℕ) : Prop where
  length : plan.length = classes.length
  entry : ∀ (i : ℕ) p, classes[i]? = some p → ∃ e : PlanEntry, plan[i]? = some e ∧ e.bytes = p.1 ∧
    e.count ≤ p.2 ∧ min (p.2 * budget / total) p.2 ≤ e.count ∧
    e.count ≤ min (p.2 * budget / total) p.2 + 1 ∧
    (i ∈ todo → e.count = min (p.2 * budget / total) p.2)
  used_eq : used = cost (plan.map PlanEntry.pair)
  le_budget : used ≤ budget

section
variable {w total budget : ℕ} {classes : List (ℕ × ℕ)} {todo : List ℕ} {plan : List PlanEntry}
  {used : ℕ}

theorem Granted.mono {todo' : List ℕ} (h : Granted total budget classes todo plan used)
    (hsub : ∀ i ∈ todo', i ∈ todo) : Granted total budget classes todo' plan used := by
  refine ⟨h.length, fun i p hp => ?_, h.used_eq, h.le_budget⟩
  obtain ⟨e, he, hb, hc, hlo, hhi, ht⟩ := h.entry i p hp
  exact ⟨e, he, hb, hc, hlo, hhi, fun hi => ht (hsub i hi)⟩

/-- A slot more for a class whose turn it is. -/
theorem Granted.give {i : ℕ} {p : ℕ × ℕ} {e : PlanEntry}
    (h : Granted total budget classes (i :: todo) plan used) (hi : i ∉ todo)
    (hp : classes[i]? = some p) (he : plan[i]? = some e) (hc : e.count < p.2)
    (hroom : used + (e.bytes + 8) ≤ budget) :
    Granted total budget classes todo (plan.set i { e with count := e.count + 1 })
      (used + (e.bytes + 8)) := by
  refine ⟨by simp [h.length], fun j q hq => ?_, by rw [cost_set he, h.used_eq], hroom⟩
  obtain ⟨d, hd, hb, hcap, hlo, hhi, ht⟩ := h.entry j q hq
  by_cases hij : j = i
  · subst hij
    obtain rfl := Option.some.inj (hd.symm.trans he)
    obtain rfl := Option.some.inj (hq.symm.trans hp)
    have hfloor := ht (by simp)
    refine ⟨{ d with count := d.count + 1 },
      by rw [List.getElem?_set_self (List.getElem?_eq_some_iff.1 he).1], hb, ?_, ?_, ?_,
      fun hj => absurd hj hi⟩
    · exact hc
    · exact Nat.le_succ_of_le hlo
    · exact Nat.succ_le_succ hfloor.le
  · exact ⟨d, by rw [List.getElem?_set_ne (Ne.symm hij), hd], hb, hcap, hlo, hhi,
      fun hj => ht (by simp [hj])⟩

theorem Granted.step {i : ℕ} (hsorted : Lib.KeySorted classes) (hw : ∀ p ∈ classes, p.1 + 8 < 2 ^ w)
    (hcost : cost classes < 2 ^ w) (h : Granted total budget classes (i :: todo) plan used)
    (hi : i ∉ todo) (hlt : i < classes.length) :
    ∃ plan' used', grant w budget classes (plan, used) i = some (plan', used') ∧
      Granted total budget classes todo plan' used' := by
  have hp := List.getElem?_eq_getElem hlt
  generalize classes[i] = p at hp
  have hmem : p ∈ classes := List.mem_of_getElem? hp
  obtain ⟨e, he, hb, hcap, -⟩ := h.entry i p hp
  have hlookup : classes.lookup e.bytes = some p.2 := by
    rw [hb]
    exact hsorted.lookup_eq hmem
  have hreq : checked w (e.bytes + 8) = some (e.bytes + 8) := by
    rw [hb]
    exact checked_eq (hw p hmem)
  have hstay := h.mono fun j hj => List.mem_cons_of_mem i hj
  by_cases hc : e.count < p.2
  · -- with one slot more the plan is still within the inventory
    have hsum : used + (e.bytes + 8) < 2 ^ w := by
      have hle : cost ((plan.set i { e with count := e.count + 1 }).map PlanEntry.pair) ≤
          cost classes := by
        refine cost_le_cost (by simp [h.length]) fun j q hq => ?_
        obtain ⟨d, hd, hdb, hdc, -⟩ := h.entry j q hq
        by_cases hij : j = i
        · subst hij
          obtain rfl := Option.some.inj (hd.symm.trans he)
          obtain rfl := Option.some.inj (hq.symm.trans hp)
          exact ⟨{ d with count := d.count + 1 },
            by rw [List.getElem?_set_self (List.getElem?_eq_some_iff.1 he).1], hdb, hc⟩
        · exact ⟨d, by rw [List.getElem?_set_ne (Ne.symm hij), hd], hdb, hdc⟩
      rw [cost_set he, ← h.used_eq] at hle
      omega
    by_cases hroom : used + (e.bytes + 8) ≤ budget
    · refine ⟨_, _, ?_, h.give hi hp he hc hroom⟩
      simp [grant, he, hlookup, hreq, hc, checked_eq hsum, hroom]
    · refine ⟨plan, used, ?_, hstay⟩
      simp [grant, he, hlookup, hreq, checked_eq hsum, hroom]
  · refine ⟨plan, used, ?_, hstay⟩
    simp [grant, he, hlookup, hreq, Nat.not_lt.1 hc]

theorem Granted.run (hsorted : Lib.KeySorted classes) (hw : ∀ p ∈ classes, p.1 + 8 < 2 ^ w)
    (hcost : cost classes < 2 ^ w) (h : Granted total budget classes todo plan used)
    (hnd : todo.Nodup) (hlt : ∀ i ∈ todo, i < classes.length) :
    ∃ plan' used', todo.foldlM (grant w budget classes) (plan, used) = some (plan', used') ∧
      Granted total budget classes [] plan' used' := by
  induction todo generalizing plan used with
  | nil => exact ⟨plan, used, rfl, h⟩
  | cons i todo ih =>
    obtain ⟨hi, hnd⟩ := List.nodup_cons.1 hnd
    obtain ⟨plan₁, used₁, hgrant, h₁⟩ := h.step hsorted hw hcost hi (hlt i (by simp))
    obtain ⟨plan₂, used₂, hrun, h₂⟩ := ih h₁ hnd fun j hj => hlt j (by simp [hj])
    refine ⟨plan₂, used₂, ?_, h₂⟩
    rw [List.foldlM_cons, hgrant]
    exact hrun

end

/-! ## The plan -/

/-- The bytes of a slot for every block. -/
def inventoryBytes (blocks : List ℕ) : ℕ := ((blocks.filter (0 < ·)).map (· + 8)).sum

/-- The slots that a plan has for a size. -/
def slots (plan : List (ℕ × ℕ)) (bytes : ℕ) : ℕ := (plan.lookup bytes).getD 0

/-- What a plan promises. -/
structure Fair (blocks : List ℕ) (budget : ℕ) (plan : List (ℕ × ℕ)) : Prop where
  sorted : Lib.KeySorted plan
  inventory : ∀ b n, (b, n) ∈ plan → 0 < b ∧ 0 < n ∧ n ≤ blocks.count b
  within : cost plan ≤ budget
  full : inventoryBytes blocks ≤ budget → ∀ b ∈ blocks, 0 < b → slots plan b = blocks.count b
  share : ∀ b ∈ blocks, 0 < b → |(slots plan b : ℚ) -
    min (blocks.count b : ℚ) (blocks.count b * budget / inventoryBytes blocks)| ≤ 1

/-- The largest sum and the largest product are below `2 ^ w`. -/
structure Fits (w : ℕ) (blocks : List ℕ) (budget : ℕ) : Prop where
  total : inventoryBytes blocks < 2 ^ w
  scaled : blocks.length * budget < 2 ^ w

section
variable {blocks : List ℕ} {budget : ℕ}

theorem cost_countsOf (blocks : List ℕ) : cost (countsOf blocks) = inventoryBytes blocks :=
  Lib.sum_tally (· + 8) _

theorem mem_countsOf {b c : ℕ} :
    (b, c) ∈ countsOf blocks ↔ (b ∈ blocks ∧ 0 < b) ∧ c = blocks.count b := by
  rw [countsOf, Lib.mem_tally, List.mem_filter, decide_eq_true_eq]
  refine and_congr_right fun h => ?_
  rw [List.count_filter (by simpa using h.2)]

theorem le_cost_of_mem {classes : List (ℕ × ℕ)} {p : ℕ × ℕ} (h : p ∈ classes) :
    (p.1 + 8) * p.2 ≤ cost classes :=
  List.le_sum_of_mem (List.mem_map_of_mem h)

/-- Floor or one above, of the smaller of inventory and share. -/
theorem abs_sub_share_le {c total n : ℕ} (ht : 0 < total) (hlo : min (c * budget / total) c ≤ n)
    (hhi : n ≤ min (c * budget / total) c + 1) :
    |(n : ℚ) - min (c : ℚ) (c * budget / total)| ≤ 1 := by
  have htq : (0 : ℚ) < total := by exact_mod_cast ht
  have hfloor : ((c * budget / total : ℕ) : ℚ) ≤ c * budget / total := by
    exact_mod_cast Nat.cast_div_le (α := ℚ)
  have hceil : (c * budget / total : ℚ) < (c * budget / total : ℕ) + 1 := by
    rw [div_lt_iff₀ htq]
    exact_mod_cast Nat.lt_mul_of_div_lt (Nat.lt_succ_self _) ht
  have hlo' : ((min (c * budget / total) c : ℕ) : ℚ) ≤ n := by exact_mod_cast hlo
  have hhi' : (n : ℚ) ≤ (min (c * budget / total) c : ℕ) + 1 := by exact_mod_cast hhi
  rw [Nat.cast_min] at hlo' hhi'
  rw [abs_le]
  rcases le_total ((c * budget / total : ℕ) : ℚ) c with h | h
  · rw [min_eq_left h] at hlo' hhi'
    constructor
    · have := min_le_right (c : ℚ) (c * budget / total)
      linarith
    · have := le_min h hfloor
      linarith
  · rw [min_eq_right h] at hlo' hhi'
    rw [min_eq_left (h.trans hfloor)]
    constructor <;> linarith

theorem remainderOrder_perm (plan : List PlanEntry) :
    (remainderOrder plan).Perm (List.range plan.length) :=
  List.perm_insertionSort _ _

/-- The classes with a slot. -/
def kept (plan : List PlanEntry) : List (ℕ × ℕ) :=
  plan.filterMap fun e => if 0 < e.count then some (e.bytes, e.count) else none

theorem mem_kept {plan : List PlanEntry} {b n : ℕ} :
    (b, n) ∈ kept plan ↔ 0 < n ∧ (b, n) ∈ plan.map PlanEntry.pair := by
  simp only [kept, List.mem_filterMap, List.mem_map, PlanEntry.pair]
  constructor
  · rintro ⟨e, he, h⟩
    split at h
    · next hpos =>
      obtain ⟨rfl, rfl⟩ := Prod.mk.inj (Option.some.inj h)
      exact ⟨hpos, e, he, rfl⟩
    · cases h
  · rintro ⟨hpos, e, he, h⟩
    obtain ⟨rfl, rfl⟩ := Prod.mk.inj h
    exact ⟨e, he, if_pos hpos⟩

theorem cost_kept : ∀ plan : List PlanEntry, cost (kept plan) = cost (plan.map PlanEntry.pair)
  | [] => rfl
  | e :: plan => by
    have ih := cost_kept plan
    by_cases hpos : 0 < e.count
    · have hk : kept (e :: plan) = (e.bytes, e.count) :: kept plan := by simp [kept, hpos]
      rw [hk]
      simp [ih, PlanEntry.pair]
    · have hk : kept (e :: plan) = kept plan := by simp [kept, hpos]
      have hz : e.count = 0 := by omega
      rw [hk]
      simp [ih, PlanEntry.pair, hz]

theorem sorted_kept {plan : List PlanEntry} (h : Lib.KeySorted (plan.map PlanEntry.pair)) :
    Lib.KeySorted (kept plan) := by
  unfold Lib.KeySorted kept at *
  rw [List.pairwise_map] at h
  rw [List.pairwise_filterMap]
  refine h.imp fun hlt p hp q hq => ?_
  split at hp
  · split at hq
    · obtain rfl := Option.some.inj hp
      obtain rfl := Option.some.inj hq
      exact hlt
    · cases hq
  · cases hp

theorem slots_kept {plan : List PlanEntry} (h : Lib.KeySorted (plan.map PlanEntry.pair))
    {e : PlanEntry} (he : e ∈ plan) : slots (kept plan) e.bytes = e.count := by
  have hmem : (e.bytes, e.count) ∈ plan.map PlanEntry.pair := List.mem_map_of_mem (f := PlanEntry.pair) he
  rcases Nat.eq_zero_or_pos e.count with hz | hpos
  · have hnone : (kept plan).lookup e.bytes = none := by
      cases hl : (kept plan).lookup e.bytes with
      | none => rfl
      | some n =>
        obtain ⟨hn, hm⟩ := mem_kept.1 (Lib.mem_of_lookup hl)
        have := (h.lookup_eq hm).symm.trans (h.lookup_eq hmem)
        have := Option.some.inj this
        omega
    rw [slots, hnone, hz]
    rfl
  · rw [slots, (sorted_kept h).lookup_eq (mem_kept.2 ⟨hpos, hmem⟩)]
    rfl

/-- The pairs of a plan have the keys of the classes. -/
theorem Granted.sorted {total : ℕ} {classes : List (ℕ × ℕ)} {todo : List ℕ} {plan : List PlanEntry}
    {used : ℕ} (h : Granted total budget classes todo plan used) (hs : Lib.KeySorted classes) :
    Lib.KeySorted (plan.map PlanEntry.pair) := by
  have hkeys : (plan.map PlanEntry.pair).map Prod.fst = classes.map Prod.fst := by
    refine List.ext_getElem? fun i => ?_
    rcases Nat.lt_or_ge i classes.length with hi | hi
    · have hp := List.getElem?_eq_getElem hi
      obtain ⟨e, he, hb, -⟩ := h.entry i _ hp
      rw [List.getElem?_map, List.getElem?_map, he, List.getElem?_map, hp]
      simp [PlanEntry.pair, hb]
    · have := h.length
      rw [List.getElem?_eq_none (by simpa using by omega), List.getElem?_eq_none (by simpa using hi)]
  unfold Lib.KeySorted at *
  rw [← List.pairwise_map (f := Prod.fst) (R := (· < ·))] at *
  rwa [hkeys]

/-- What the whole pass leaves is a fair plan. -/
theorem fair_of_granted {classes : List (ℕ × ℕ)} {plan : List PlanEntry} {used : ℕ}
    (hcs : countsOf blocks = classes) (hcost0 : 0 < cost classes)
    (hdone : Granted (cost classes) budget classes [] plan used) : Fair blocks budget (kept plan) := by
  have hsorted : Lib.KeySorted classes := hcs ▸ (Lib.tally_spec _).1
  have hcost : cost classes = inventoryBytes blocks := hcs ▸ cost_countsOf blocks
  have hks := hdone.sorted hsorted
  -- the entry of a class, with its slots
  have hentry : ∀ b ∈ blocks, 0 < b → ∃ n, slots (kept plan) b = n ∧ n ≤ blocks.count b ∧
      min (blocks.count b * budget / cost classes) (blocks.count b) ≤ n ∧
      n ≤ min (blocks.count b * budget / cost classes) (blocks.count b) + 1 := by
    intro b hb hpos
    have hm : (b, blocks.count b) ∈ classes := hcs ▸ mem_countsOf.2 ⟨⟨hb, hpos⟩, rfl⟩
    obtain ⟨i, hi⟩ := List.mem_iff_getElem?.1 hm
    obtain ⟨e, he, heb, hc, hlo, hhi, -⟩ := hdone.entry i _ hi
    have hslots := slots_kept hks (List.mem_of_getElem? he)
    rw [heb] at hslots
    exact ⟨e.count, hslots, hc, hlo, hhi⟩
  refine ⟨sorted_kept hks, fun b n hbn => ?_, ?_, fun hall b hb hpos => ?_, fun b hb hpos => ?_⟩
  · obtain ⟨hn, hm⟩ := mem_kept.1 hbn
    obtain ⟨e, he, heq⟩ := List.mem_map.1 hm
    obtain ⟨rfl, rfl⟩ := Prod.mk.inj heq
    obtain ⟨i, hi⟩ := List.mem_iff_getElem?.1 he
    have hlt : i < classes.length := hdone.length ▸ (List.getElem?_eq_some_iff.1 hi).1
    obtain ⟨e', he', hb', hc', -⟩ := hdone.entry i _ (List.getElem?_eq_getElem hlt)
    obtain rfl := Option.some.inj (hi.symm.trans he')
    have hmem : classes[i] ∈ countsOf blocks := hcs ▸ List.getElem_mem hlt
    obtain ⟨⟨-, hpos⟩, hcount⟩ := mem_countsOf.1 (show (classes[i].1, classes[i].2) ∈ _ from hmem)
    rw [hb']
    exact ⟨hpos, hn, hcount ▸ hc'⟩
  · rw [cost_kept, ← hdone.used_eq]
    exact hdone.le_budget
  · obtain ⟨n, hn, hcap, hlo, -⟩ := hentry b hb hpos
    rw [hn]
    have hge : blocks.count b ≤ blocks.count b * budget / cost classes := by
      rw [Nat.le_div_iff_mul_le hcost0, hcost]
      exact Nat.mul_le_mul_left _ hall
    rw [Nat.min_eq_right hge] at hlo
    omega
  · obtain ⟨n, hn, -, hlo, hhi⟩ := hentry b hb hpos
    rw [hn, ← hcost]
    exact abs_sub_share_le hcost0 hlo hhi

/-- **The plan is fair, and nothing overflows** where the largest sum and product fit. -/
theorem sizeClassPlanIn_spec {w : ℕ} (hfits : Fits w blocks budget) :
    ∃ plan, sizeClassPlanIn w blocks budget = some plan ∧ Fair blocks budget plan := by
  have hsorted : Lib.KeySorted (countsOf blocks) := (Lib.tally_spec _).1
  have hcost := cost_countsOf blocks
  unfold sizeClassPlanIn
  by_cases hempty : countsOf blocks = [] ∨ budget = 0
  · refine ⟨[], if_pos hempty, .nil, by simp, Nat.zero_le _, fun hall b hb hpos => ?_,
      fun b hb hpos => ?_⟩
    all_goals
      have hm : (b, blocks.count b) ∈ countsOf blocks := mem_countsOf.2 ⟨⟨hb, hpos⟩, rfl⟩
      obtain hn | rfl := hempty
    · rw [hn] at hm
      cases hm
    · have hle := le_cost_of_mem hm
      have hcount : 0 < blocks.count b := List.count_pos_iff.2 hb
      have := Nat.mul_pos (show 0 < b + 8 by omega) hcount
      simp only at hle
      omega
    · rw [hn] at hm
      cases hm
    · simp [slots]
  rw [if_neg hempty]
  obtain ⟨hne, hbudget⟩ := not_or.1 hempty
  have hw : ∀ p ∈ countsOf blocks, p.1 + 8 < 2 ^ w := by
    rintro ⟨b, c⟩ hp
    have hle := le_cost_of_mem hp
    obtain ⟨⟨hb, -⟩, rfl⟩ := mem_countsOf.1 hp
    have := Nat.le_mul_of_pos_right (b + 8) (List.count_pos_iff.2 hb)
    have := hfits.total
    simp only at hle ⊢
    omega
  have hpos : 0 < cost (countsOf blocks) := by
    obtain ⟨⟨b, c⟩, hp⟩ := List.exists_mem_of_ne_nil _ hne
    have hle := le_cost_of_mem hp
    obtain ⟨⟨hb, -⟩, rfl⟩ := mem_countsOf.1 hp
    have := Nat.mul_pos (show 0 < b + 8 by omega) (List.count_pos_iff.2 hb)
    simp only at hle
    omega
  have htotal : cost (countsOf blocks) < 2 ^ w := by
    rw [hcost]
    exact hfits.total
  have hscaled : ∀ p ∈ countsOf blocks, p.2 * budget < 2 ^ w := by
    rintro ⟨b, c⟩ hp
    obtain ⟨-, rfl⟩ := mem_countsOf.1 hp
    exact (Nat.mul_le_mul_right _ List.count_le_length).trans_lt hfits.scaled
  generalize hcs : countsOf blocks = classes at *
  have hfloors := cost_floors_le budget hpos
  have hstart : Granted (cost classes) budget classes
      (remainderOrder (classes.map (floorEntry (cost classes) budget)))
      (classes.map (floorEntry (cost classes) budget))
      (cost ((classes.map (floorEntry (cost classes) budget)).map PlanEntry.pair)) := by
    refine ⟨by simp, fun i p hp => ⟨floorEntry (cost classes) budget p, by simp [hp], rfl,
      Nat.min_le_right _ _, Nat.le_refl _, Nat.le_succ _, fun _ => rfl⟩, rfl, hfloors⟩
  have hfloorCost : cost ((classes.map (floorEntry (cost classes) budget)).map PlanEntry.pair) < 2 ^ w := by
    refine (cost_le_cost hstart.length fun i p hp => ?_).trans_lt htotal
    obtain ⟨e, he, hb, hc, -⟩ := hstart.entry i p hp
    exact ⟨e, he, hb, hc⟩
  have hpairs : ∀ p ∈ (classes.map (floorEntry (cost classes) budget)).map PlanEntry.pair,
      p.1 + 8 < 2 ^ w := by
    intro p hp
    obtain ⟨e, he, rfl⟩ := List.mem_map.1 hp
    obtain ⟨q, hq, rfl⟩ := List.mem_map.1 he
    exact hw q hq
  have hperm := remainderOrder_perm (classes.map (floorEntry (cost classes) budget))
  obtain ⟨plan, used, hrun, hdone⟩ := hstart.run hsorted hw htotal
    (hperm.nodup_iff.2 List.nodup_range) fun i hi => by
      have := hperm.mem_iff.1 hi
      simpa using this
  refine ⟨kept plan, ?_, ?_⟩
  · have hused := totalBytes_eq hpairs hfloorCost
    simp only [totalBytes_eq hw htotal, mapM_share _ hscaled, Option.bind_eq_bind, Option.bind_some]
    rw [show (fun e : PlanEntry => (e.bytes, e.count)) = PlanEntry.pair from rfl, hused]
    simp only [Option.bind_some, hrun]
    rfl
  · exact fair_of_granted hcs hpos hdone

/-! ## The width of the arithmetic -/

theorem checked_mono {w w' x y : ℕ} (hw : w ≤ w') (h : checked w x = some y) :
    checked w' x = some y := by
  unfold checked at *
  split at h
  · next hlt => rwa [if_pos (hlt.trans_le (Nat.pow_le_pow_right (by decide) hw))]
  · cases h

theorem bind_mono {α β : Type} {x x' : Option α} {f f' : α → Option β}
    (hx : ∀ a, x = some a → x' = some a) (hf : ∀ a b, f a = some b → f' a = some b) {b : β}
    (h : x.bind f = some b) : x'.bind f' = some b := by
  obtain ⟨a, ha, hb⟩ := Option.bind_eq_some_iff.1 h
  exact Option.bind_eq_some_iff.2 ⟨a, hx a ha, hf a b hb⟩

theorem foldlM_mono {σ α : Type} {f f' : σ → α → Option σ}
    (hf : ∀ s a t, f s a = some t → f' s a = some t) : ∀ (xs : List α) {s t : σ},
    xs.foldlM f s = some t → xs.foldlM f' s = some t
  | [], _, _, h => h
  | x :: xs, _, _, h => by
    rw [List.foldlM_cons] at h ⊢
    exact bind_mono (fun a => hf _ x a) (fun _ _ => foldlM_mono hf xs) h

theorem mapM_mono {α β : Type} {f f' : α → Option β} (hf : ∀ a b, f a = some b → f' a = some b) :
    ∀ (xs : List α) {ys : List β}, xs.mapM f = some ys → xs.mapM f' = some ys
  | [], _, h => h
  | x :: xs, _, h => by
    rw [List.mapM_cons] at h ⊢
    exact bind_mono (hf x) (fun _ _ => bind_mono (fun _ => mapM_mono hf xs) fun _ _ hb => hb) h

theorem totalBytes_mono {w w' : ℕ} (hw : w ≤ w') {classes : List (ℕ × ℕ)} {n : ℕ}
    (h : totalBytes w classes = some n) : totalBytes w' classes = some n :=
  foldlM_mono (fun _ _ _ => bind_mono (fun _ => checked_mono hw) fun _ _ =>
    bind_mono (fun _ => checked_mono hw) fun _ _ => checked_mono hw) classes h

theorem grant_mono {w w' : ℕ} (hw : w ≤ w') (counts : List (ℕ × ℕ)) (st : List PlanEntry × ℕ) (i : ℕ)
    (t : List PlanEntry × ℕ) (h : grant w budget counts st i = some t) :
    grant w' budget counts st i = some t := by
  refine bind_mono (fun _ ha => ha) (fun e _ => bind_mono (fun _ ha => ha) fun available _ =>
    bind_mono (fun _ => checked_mono hw) fun _ _ h => ?_) h
  split at h
  · next hlt => exact (if_pos hlt).trans (bind_mono (fun _ => checked_mono hw) (fun _ _ h => h) h)
  · next hlt => exact (if_neg hlt).trans h

/-- More width changes nothing where nothing overflows. -/
theorem sizeClassPlanIn_mono {w w' : ℕ} (hw : w ≤ w') {plan : List (ℕ × ℕ)}
    (h : sizeClassPlanIn w blocks budget = some plan) : sizeClassPlanIn w' blocks budget = some plan := by
  unfold sizeClassPlanIn at *
  dsimp only at h ⊢
  split at h
  · next hempty => rwa [if_pos hempty]
  · next hempty =>
    rw [if_neg hempty]
    refine bind_mono (fun _ => totalBytes_mono hw) (fun total _ => bind_mono (fun _ => mapM_mono ?_ _)
      fun plan _ => bind_mono (fun _ => totalBytes_mono hw) fun used _ =>
        bind_mono (fun _ => foldlM_mono (grant_mono hw _) _) fun _ _ h => h) h
    exact fun p _ => bind_mono (fun _ => checked_mono hw) fun _ _ h => h

/-- Sizes and a budget of 64 bits fit in 128, for a list that fits in memory. -/
theorem fits_128 (hsize : ∀ b ∈ blocks, b < 2 ^ 64) (hlen : blocks.length < 2 ^ 61)
    (hbudget : budget < 2 ^ 64) : Fits 128 blocks budget := by
  constructor
  · have hle : inventoryBytes blocks ≤ (blocks.filter (0 < ·)).length * 2 ^ 65 := by
      have := List.sum_le_card_nsmul ((blocks.filter (0 < ·)).map (· + 8)) (2 ^ 65) fun x hx => by
        obtain ⟨b, hb, rfl⟩ := List.mem_map.1 hx
        have := hsize b (List.mem_of_mem_filter hb)
        omega
      simpa [inventoryBytes] using this
    have hf : (blocks.filter (0 < ·)).length ≤ blocks.length := List.length_filter_le _ _
    calc inventoryBytes blocks ≤ (blocks.filter (0 < ·)).length * 2 ^ 65 := hle
      _ ≤ 2 ^ 61 * 2 ^ 65 := Nat.mul_le_mul_right _ (by omega)
      _ < 2 ^ 128 := by norm_num
  · calc blocks.length * budget ≤ 2 ^ 61 * 2 ^ 64 := Nat.mul_le_mul hlen.le hbudget.le
      _ < 2 ^ 128 := by norm_num

/-- **The plan of `size_class_plan`**, in 128 bits; 64 are enough where the bytes of the whole inventory and
the number of blocks times the budget fit in 64. -/
theorem sizeClassPlan_spec (blocks : List ℕ) (budget : ℕ) (hsize : ∀ b ∈ blocks, b < 2 ^ 64)
    (hlen : blocks.length < 2 ^ 61) (hbudget : budget < 2 ^ 64) :
    ∃ plan, sizeClassPlan blocks budget = some plan ∧ Fair blocks budget plan ∧
      (Fits 64 blocks budget → sizeClassPlanIn 64 blocks budget = some plan) := by
  obtain ⟨plan, hplan, hfair⟩ := sizeClassPlanIn_spec (fits_128 hsize hlen hbudget)
  refine ⟨plan, hplan, hfair, fun hfits => ?_⟩
  obtain ⟨plan', hplan', -⟩ := sizeClassPlanIn_spec hfits
  have := sizeClassPlanIn_mono (show 64 ≤ 128 by decide) hplan'
  rw [hplan', ← this, hplan]

theorem sizeClassPlan_spec_mixed : ∃ plan,
    sizeClassPlan [100, 100, 100, 200, 200, 400] 832 = some plan ∧
    Fair [100, 100, 100, 200, 200, 400] 832 plan := by
  obtain ⟨plan, hplan, hfair, -⟩ := sizeClassPlan_spec [100, 100, 100, 200, 200, 400] 832 (by decide)
    (by decide) (by decide)
  exact ⟨plan, hplan, hfair⟩

end

end SizeClass

end Memra
