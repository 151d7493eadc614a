import Mathlib.Data.List.Infix

/-!
# Occurrences of patterns in a text

`OccursAt p t i`: the pattern `p` stands at position `i` of `t`. `findSub` is the first position of
one pattern, `earliest` the first of any of several, `borderLen` the length of the longest proper
prefix of a pattern that a text ends with. `OccursAt.append` and `OccursAt.of_append` say what an
occurrence has to do with one in a longer text. A text that ends in a held back part at least as
long as its border can be cut there: what comes next is found in the held back part as in the whole
(`findSub_held`, `borderLen_held`). `occursAt_of_not_mem` looks for a pattern piecewise around a
separator that it does not contain, so that a pattern `Absent` from the pieces is absent from the
whole (`Absent.sep`).
-/

namespace Lib

variable {α : Type}

/-- The pattern `p` stands at position `i` of the text `t`. -/
def OccursAt (p t : List α) (i : ℕ) : Prop := i ≤ t.length ∧ p <+: t.drop i

theorem OccursAt.append {p t : List α} {i : ℕ} (h : OccursAt p t i) (u : List α) :
    OccursAt p (t ++ u) i := by
  refine ⟨le_trans h.1 (by simp), ?_⟩
  rw [List.drop_append_of_le_length h.1]
  exact h.2.trans (List.prefix_append _ _)

/-- An occurrence that ends inside the shorter text is one in it. -/
theorem OccursAt.of_append {p t u : List α} {i : ℕ} (h : OccursAt p (t ++ u) i)
    (hle : i + p.length ≤ t.length) : OccursAt p t i := by
  have hi : i ≤ t.length := by omega
  refine ⟨hi, ?_⟩
  have hp := h.2
  rw [List.drop_append_of_le_length hi] at hp
  exact List.prefix_of_prefix_length_le hp (List.prefix_append _ _) (by simp; omega)

/-- An occurrence that starts in the shorter text and does not end in it. -/
theorem OccursAt.head {p t u : List α} {i : ℕ} (h : OccursAt p (t ++ u) i) (hi : i ≤ t.length)
    (hlt : t.length < i + p.length) : t.drop i <+: p := by
  have hp := h.2
  rw [List.drop_append_of_le_length hi] at hp
  exact List.prefix_of_prefix_length_le (List.prefix_append _ _) hp (by simp; omega)

/-- Positions in a text count from any cut of it. -/
theorem occursAt_append_left {p s t : List α} (i : ℕ) :
    OccursAt p (s ++ t) (s.length + i) ↔ OccursAt p t i := by
  unfold OccursAt
  rw [List.drop_append, List.drop_of_length_le (by omega), Nat.add_sub_cancel_left,
    List.nil_append, List.length_append]
  simp

/-- An occurrence in a text with a separator that the pattern lacks is on one side of it. -/
theorem occursAt_of_not_mem {p s t : List α} {c : α} (hc : c ∉ p) {i : ℕ}
    (h : OccursAt p (s ++ c :: t) i) :
    OccursAt p s i ∨ ∃ j, i = s.length + 1 + j ∧ OccursAt p t j := by
  rcases Nat.lt_or_ge s.length i with hi | hi
  · right
    refine ⟨i - (s.length + 1), by omega, ?_⟩
    have hs : s ++ c :: t = (s ++ [c]) ++ t := by simp
    have hlen : (s ++ [c]).length = s.length + 1 := by simp
    rw [hs, show i = (s ++ [c]).length + (i - (s.length + 1)) by omega, occursAt_append_left] at h
    exact h
  · left
    rcases Nat.lt_or_ge s.length (i + p.length) with hlong | hshort
    · exfalso
      apply hc
      have hp := h.2
      rw [List.drop_append_of_le_length hi] at hp
      have hget := List.prefix_iff_getElem?.1 hp (s.length - i) (by omega)
      rw [List.getElem?_append_right (by simp), List.length_drop, Nat.sub_self,
        List.getElem?_cons_zero, Option.some.injEq] at hget
      rw [hget]
      exact List.getElem_mem _
    · exact h.of_append hshort

/-! ## Absent patterns -/

/-- The pattern stands nowhere in the text. -/
def Absent (p t : List α) : Prop := ∀ i, ¬ OccursAt p t i

theorem absent_of_not_isInfix {p t : List α} (h : ¬ p <:+: t) : Absent p t := by
  intro i hi
  exact h (hi.2.isInfix.trans (List.drop_suffix i t).isInfix)

theorem absent_nil {p : List α} (h : p ≠ []) : Absent p [] := by
  intro i hi
  have hp := hi.2
  rw [List.drop_nil] at hp
  exact h (List.prefix_nil.1 hp)

/-- A pattern absent on both sides of a separator that it lacks is absent. -/
theorem Absent.sep {p s t : List α} {c : α} (hs : Absent p s) (hc : c ∉ p) (ht : Absent p t) :
    Absent p (s ++ c :: t) := by
  intro i hi
  rcases occursAt_of_not_mem hc hi with h | ⟨j, -, h⟩
  · exact hs i h
  · exact ht j h

/-- A pattern that begins with `a` is absent from a text with `a` at its beginning only, unless it
stands there. -/
theorem absent_of_head {p t : List α} {a : α} (ht : a ∉ t) (hp : ¬ p <+: t) :
    Absent (a :: p) (a :: t) := by
  rintro (_ | i) ⟨-, hi⟩
  · rw [List.drop_zero, List.cons_prefix_cons] at hi
    exact hp hi.2
  · rw [List.drop_succ_cons] at hi
    have hmem : a ∈ t.drop i := hi.subset List.mem_cons_self
    exact ht (List.mem_of_mem_drop hmem)

section
variable [DecidableEq α]

instance (p t : List α) (i : ℕ) : Decidable (OccursAt p t i) :=
  inferInstanceAs (Decidable (_ ∧ _))

/-- The first position of `p` in `t`. -/
def findSub (t p : List α) : Option ℕ := (List.range (t.length + 1)).find? fun i => OccursAt p t i

/-- The first position in `t` of any of `ps`. -/
def earliest (ps : List (List α)) (t : List α) : Option ℕ := (ps.filterMap (findSub t)).min?

/-- The length of the longest nonempty proper prefix of `p` that `t` ends with, else `0`. -/
def borderLen (t p : List α) : ℕ :=
  (List.range p.length).foldl (fun best k => if 0 < k ∧ p.take k <:+ t then k else best) 0

theorem findSub_eq_some {t p : List α} {i : ℕ} :
    findSub t p = some i ↔ OccursAt p t i ∧ ∀ j < i, ¬ OccursAt p t j := by
  unfold findSub
  rw [List.find?_range_eq_some]
  constructor
  · rintro ⟨h1, -, h2⟩
    refine ⟨by simpa using h1, fun j hj => ?_⟩
    have := h2 j hj
    simpa using this
  · rintro ⟨h1, h2⟩
    refine ⟨by simpa using h1, ?_, fun j hj => by simpa using h2 j hj⟩
    rw [List.mem_range]
    have := h1.1
    omega

theorem findSub_eq_none {t p : List α} : findSub t p = none ↔ ∀ i, ¬ OccursAt p t i := by
  unfold findSub
  rw [List.find?_range_eq_none]
  constructor
  · intro h i hi
    have := h i (by have := hi.1; omega)
    simp [hi] at this
  · intro h i _
    simpa using h i

/-- A pattern that is found stands inside the text. -/
theorem findSub_le {t p : List α} {i : ℕ} (h : findSub t p = some i) :
    i + p.length ≤ t.length := by
  obtain ⟨hi, hp⟩ := (findSub_eq_some.1 h).1
  have := hp.length_le
  rw [List.length_drop] at this
  omega

theorem earliest_eq_some {ps : List (List α)} {t : List α} {i : ℕ} :
    earliest ps t = some i ↔
      (∃ p ∈ ps, OccursAt p t i) ∧ ∀ p ∈ ps, ∀ j, OccursAt p t j → i ≤ j := by
  have hfind : ∀ p j, OccursAt p t j → ∃ k, findSub t p = some k ∧ k ≤ j := by
    intro p j hj
    cases hf : findSub t p with
    | none => exact absurd hj (findSub_eq_none.1 hf j)
    | some k =>
      refine ⟨k, rfl, ?_⟩
      by_contra hlt
      exact (findSub_eq_some.1 hf).2 j (by omega) hj
  unfold earliest
  rw [List.min?_eq_some_iff]
  constructor
  · rintro ⟨hmem, hmin⟩
    obtain ⟨p, hp, hf⟩ := List.mem_filterMap.1 hmem
    refine ⟨⟨p, hp, (findSub_eq_some.1 hf).1⟩, fun q hq j hj => ?_⟩
    obtain ⟨k, hk, hle⟩ := hfind q j hj
    exact le_trans (hmin k (List.mem_filterMap.2 ⟨q, hq, hk⟩)) hle
  · rintro ⟨⟨p, hp, hi⟩, hmin⟩
    obtain ⟨k, hk, hle⟩ := hfind p i hi
    have : i = k := le_antisymm (hmin p hp k (findSub_eq_some.1 hk).1) hle
    subst this
    refine ⟨List.mem_filterMap.2 ⟨p, hp, hk⟩, fun b hb => ?_⟩
    obtain ⟨q, hq, hf⟩ := List.mem_filterMap.1 hb
    exact hmin q hq b (findSub_eq_some.1 hf).1

theorem earliest_eq_none {ps : List (List α)} {t : List α} :
    earliest ps t = none ↔ ∀ p ∈ ps, ∀ i, ¬ OccursAt p t i := by
  unfold earliest
  rw [List.min?_eq_none_iff, List.filterMap_eq_nil_iff]
  exact forall₂_congr fun p _ => findSub_eq_none

/-- The scan of `borderLen` over the first `n` lengths bounds every border among them and ends at
one. -/
theorem borderScan (t p : List α) (n : ℕ) :
    let best := (List.range n).foldl (fun best k => if 0 < k ∧ p.take k <:+ t then k else best) 0
    (∀ k < n, 0 < k → p.take k <:+ t → k ≤ best) ∧ (best = 0 ∨ best < n ∧ p.take best <:+ t) := by
  induction n with
  | zero => simp
  | succ n ih =>
    obtain ⟨hle, hbest⟩ := ih
    rw [List.range_succ, List.foldl_append, List.foldl_cons, List.foldl_nil]
    split
    · rename_i hn
      refine ⟨fun k hk _ _ => by omega, .inr ⟨by omega, hn.2⟩⟩
    · rename_i hn
      refine ⟨fun k hk h0 hs => ?_, hbest.imp_right fun h => ⟨by omega, h.2⟩⟩
      rcases Nat.lt_succ_iff_lt_or_eq.1 hk with h | rfl
      · exact hle k h h0 hs
      · exact absurd ⟨h0, hs⟩ hn

theorem le_borderLen {t p : List α} {k : ℕ} (h0 : 0 < k) (hk : k < p.length)
    (hs : p.take k <:+ t) : k ≤ borderLen t p :=
  (borderScan t p p.length).1 k hk h0 hs

theorem borderLen_suffix (t p : List α) : p.take (borderLen t p) <:+ t := by
  rcases (borderScan t p p.length).2 with h | ⟨-, h⟩
  · have h : borderLen t p = 0 := h
    rw [h]
    exact List.nil_suffix
  · exact h

theorem borderLen_lt_or (t p : List α) : borderLen t p = 0 ∨ borderLen t p < p.length :=
  (borderScan t p p.length).2.imp_right And.left

theorem borderLen_le (t p : List α) : borderLen t p ≤ t.length := by
  have hs := (borderLen_suffix t p).length_le
  rcases borderLen_lt_or t p with h | h
  · omega
  · rw [List.length_take] at hs
    omega

theorem findSub_append_some {t p : List α} {i : ℕ} (h : findSub t p = some i) (u : List α) :
    findSub (t ++ u) p = some i := by
  obtain ⟨hi, hmin⟩ := findSub_eq_some.1 h
  rw [findSub_eq_some]
  refine ⟨hi.append u, fun j hj hocc => ?_⟩
  rcases Nat.lt_or_ge t.length (j + p.length) with hlong | hshort
  · -- an earlier occurrence that passes the end of `t` starts where the one at `i` has not ended
    have hle := hi.2.length_le
    rw [List.length_drop] at hle
    have := hi.1
    omega
  · exact hmin j hj (hocc.of_append hshort)

/-- A pattern behind a separator that it lacks and a text without it. -/
theorem findSub_sep {p s : List α} {c : α} (hs : Absent p s) (hc : c ∉ p) (r : List α) :
    findSub (s ++ c :: (p ++ r)) p = some (s.length + 1) := by
  rw [findSub_eq_some]
  constructor
  · refine ⟨by simp, ?_⟩
    have hs : s ++ c :: (p ++ r) = (s ++ [c]) ++ (p ++ r) := by simp
    rw [hs, List.drop_left' (by simp)]
    exact List.prefix_append _ _
  · intro j hj hocc
    rcases occursAt_of_not_mem hc hocc with h | ⟨k, hk, -⟩
    · exact hs j h
    · omega

theorem findSub_self (p r : List α) : findSub (p ++ r) p = some 0 :=
  findSub_eq_some.2
    ⟨⟨Nat.zero_le _, List.prefix_append _ _⟩, fun j hj => absurd hj (Nat.not_lt_zero j)⟩

/-- Behind a text without its first symbol a pattern is found first. -/
theorem findSub_cons {s : List α} {c : α} (hs : c ∉ s) (q r : List α) :
    findSub (s ++ c :: (q ++ r)) (c :: q) = some s.length := by
  rw [findSub_eq_some]
  constructor
  · exact ⟨by simp, by rw [List.drop_left]; exact ⟨r, rfl⟩⟩
  · intro j hj ⟨_, w, hw⟩
    have hget := congrArg List.head? hw
    rw [List.drop_append_of_le_length (Nat.le_of_lt hj), List.drop_eq_getElem_cons hj] at hget
    simp only [List.cons_append, List.head?_cons, Option.some.injEq] at hget
    rw [hget] at hs
    exact hs (List.getElem_mem _)

/-- The first `c` stands behind the text without it. -/
theorem findSub_char {s : List α} {c : α} (hs : c ∉ s) (r : List α) :
    findSub (s ++ c :: r) [c] = some s.length := findSub_cons hs [] r

/-- In a text without `p` whose held back end `r` covers its border, no occurrence of `p` in a longer
text starts before `r`. -/
theorem OccursAt.held {e r u p : List α} {i : ℕ} (hnone : ∀ i, ¬ OccursAt p (e ++ r) i)
    (hr : borderLen (e ++ r) p ≤ r.length) (h : OccursAt p (e ++ r ++ u) i) : e.length ≤ i := by
  by_contra hlt
  rw [not_le] at hlt
  have hlen : (e ++ r).length = e.length + r.length := List.length_append
  rcases Nat.lt_or_ge (e ++ r).length (i + p.length) with hlong | hshort
  · have hpre : (e ++ r).drop i <+: p := h.head (by omega) hlong
    have hk : ((e ++ r).drop i).length = (e ++ r).length - i := List.length_drop
    have htake : p.take ((e ++ r).length - i) = (e ++ r).drop i := by
      rw [← hk]
      exact (List.prefix_iff_eq_take.1 hpre).symm
    have := le_borderLen (t := e ++ r) (p := p) (k := (e ++ r).length - i) (by omega) (by omega)
      (by rw [htake]; exact List.drop_suffix _ _)
    omega
  · exact hnone i (h.of_append hshort)

/-- What follows is found in the held back end as in the whole text. -/
theorem findSub_held {e r p : List α} (hnone : findSub (e ++ r) p = none)
    (hr : borderLen (e ++ r) p ≤ r.length) (u : List α) :
    findSub (e ++ r ++ u) p = (findSub (r ++ u) p).map (e.length + ·) := by
  have hno := findSub_eq_none.1 hnone
  have hat : ∀ i, OccursAt p (e ++ r ++ u) (e.length + i) ↔ OccursAt p (r ++ u) i := by
    intro i
    rw [List.append_assoc]
    exact occursAt_append_left i
  cases hf : findSub (r ++ u) p with
  | none =>
    rw [Option.map_none, findSub_eq_none]
    intro i hi
    have hle := hi.held hno hr
    rw [show i = e.length + (i - e.length) by omega] at hi
    exact findSub_eq_none.1 hf _ ((hat _).1 hi)
  | some k =>
    obtain ⟨hk, hmin⟩ := findSub_eq_some.1 hf
    rw [Option.map_some, findSub_eq_some]
    refine ⟨(hat k).2 hk, fun j hj hocc => ?_⟩
    have hle := hocc.held hno hr
    rw [show j = e.length + (j - e.length) by omega] at hocc
    exact hmin _ (by omega) ((hat _).1 hocc)

/-- The border of a longer text lies in the held back end and what follows. -/
theorem borderLen_held {e r p : List α} (hr : borderLen (e ++ r) p ≤ r.length) (u : List α) :
    borderLen (e ++ r ++ u) p = borderLen (r ++ u) p := by
  have hle : borderLen (e ++ r ++ u) p ≤ (r ++ u).length := by
    by_contra hlt
    rw [not_le, List.length_append] at hlt
    have hpos : borderLen (e ++ r ++ u) p < p.length := by
      have := borderLen_lt_or (e ++ r ++ u) p
      omega
    have hsuf := borderLen_suffix (e ++ r ++ u) p
    -- cut the border at the end of `r`: a longer border of `e ++ r`
    obtain ⟨w, hw⟩ := hsuf
    have hlenw : w.length + borderLen (e ++ r ++ u) p = (e ++ r).length + u.length := by
      have := congrArg List.length hw
      rw [List.length_append, List.length_take, List.length_append] at this
      omega
    have hcut : p.take (borderLen (e ++ r ++ u) p - u.length) <:+ e ++ r := by
      refine ⟨w, ?_⟩
      have h1 := congrArg (List.take (e ++ r).length) hw
      rw [List.take_left, List.take_append, List.take_of_length_le (by omega), List.take_take,
        Nat.min_eq_left (by omega)] at h1
      rw [show borderLen (e ++ r ++ u) p - u.length = (e ++ r).length - w.length by omega]
      exact h1
    have := le_borderLen (t := e ++ r) (p := p) (k := borderLen (e ++ r ++ u) p - u.length)
      (by omega) (by omega) hcut
    omega
  apply Nat.le_antisymm
  · rcases borderLen_lt_or (e ++ r ++ u) p with h0 | hlt
    · omega
    · by_cases hz : borderLen (e ++ r ++ u) p = 0
      · omega
      · have hsuf := borderLen_suffix (e ++ r ++ u) p
        rw [List.append_assoc] at hsuf hle hlt hz ⊢
        refine le_borderLen (by omega) hlt ?_
        refine List.suffix_of_suffix_length_le hsuf (List.suffix_append _ _) ?_
        rw [List.length_take]
        omega
  · rcases borderLen_lt_or (r ++ u) p with h0 | hlt
    · omega
    · by_cases hz : borderLen (r ++ u) p = 0
      · omega
      · refine le_borderLen (by omega) hlt ?_
        rw [List.append_assoc]
        exact (borderLen_suffix (r ++ u) p).trans (List.suffix_append _ _)

end

end Lib
