import Mathlib

/-!
# Greedy merging of neighbours

`rank x y` is the rank of the pair `x, y`, if it has one. `greedyMerge` joins, of all neighbours with a
rank, the two of the lowest rank, the leftmost of these, until no neighbours have one. `IsBest`
says that a position is that of such a pair; `greedyMerge_of_best` and `greedyMerge_of_none` are the two
cases by which another way of merging is compared with this one.
-/

namespace Lib

variable {β : Type} [Append β] (rank : β → β → Option ℤ)

/-- The lowest rank of two neighbours, with the position of the leftmost pair of that rank. -/
def bestPair : List β → Option (ℤ × ℕ)
  | x :: y :: rest =>
    let later := (bestPair (y :: rest)).map fun (k, i) => (k, i + 1)
    match rank x y, later with
    | some k, some (k', i) => if k ≤ k' then some (k, 0) else some (k', i)
    | some k, none => some (k, 0)
    | none, later => later
  | _ => none

/-- The elements at `i` and behind it as one. -/
def mergeAt : ℕ → List β → List β
  | 0, x :: y :: rest => (x ++ y) :: rest
  | i + 1, x :: rest => x :: mergeAt i rest
  | _, xs => xs

/-- The neighbours at `i` and `i + 1`. -/
def rankAt (xs : List β) (i : ℕ) : Option ℤ :=
  match xs[i]?, xs[i + 1]? with
  | some x, some y => rank x y
  | _, _ => none

omit [Append β] in
theorem rankAt_succ (x : β) (xs : List β) (i : ℕ) : rankAt rank (x :: xs) (i + 1) = rankAt rank xs i :=
  rfl

omit [Append β] in
theorem rankAt_append (xs rest : List β) (x y : β) :
    rankAt rank (xs ++ x :: y :: rest) xs.length = rank x y := by
  induction xs with
  | nil => rfl
  | cons z xs ih => exact ih

omit [Append β] in
theorem rankAt_split {xs : List β} {i : ℕ} {k : ℤ} (h : rankAt rank xs i = some k) :
    ∃ A x y B, xs = A ++ x :: y :: B ∧ A.length = i ∧ rank x y = some k := by
  induction xs generalizing i with
  | nil => cases h
  | cons x xs ih =>
    cases i with
    | zero =>
      cases xs with
      | nil => cases h
      | cons y rest => exact ⟨[], x, y, rest, rfl, rfl, h⟩
    | succ i =>
      obtain ⟨A, x', y, B, rfl, rfl, hk⟩ := ih h
      exact ⟨x :: A, x', y, B, rfl, rfl, hk⟩

/-- The pair at `i` has the lowest rank, and no pair before it has the same. -/
structure IsBest (xs : List β) (k : ℤ) (i : ℕ) : Prop where
  ranked : rankAt rank xs i = some k
  least : ∀ j k', rankAt rank xs j = some k' → k < k' ∨ k = k' ∧ i ≤ j

variable {rank}

omit [Append β] in
theorem IsBest.unique {xs : List β} {k k' : ℤ} {i i' : ℕ} (h : IsBest rank xs k i)
    (h' : IsBest rank xs k' i') : k = k' ∧ i = i' := by
  have h1 := h.least i' k' h'.ranked
  have h2 := h'.least i k h.ranked
  omega

omit [Append β] in
/-- A pair in front of a list without any. -/
theorem IsBest.head {x y : β} {rest : List β} {k : ℤ} (hk : rank x y = some k)
    (hrest : ∀ j k', rankAt rank (y :: rest) j = some k' → k ≤ k') :
    IsBest rank (x :: y :: rest) k 0 := by
  refine ⟨hk, ?_⟩
  intro j k' hj
  cases j with
  | zero =>
    obtain rfl := Option.some.inj (hk.symm.trans hj)
    exact .inr ⟨rfl, le_rfl⟩
  | succ j =>
    have hle := hrest j k' hj
    omega

omit [Append β] in
/-- The best pair of the rest, where the pair in front of it is worse or none. -/
theorem IsBest.tail {x y : β} {rest : List β} {k : ℤ} {i : ℕ} (h : IsBest rank (y :: rest) k i)
    (hhead : ∀ k', rank x y = some k' → k < k') : IsBest rank (x :: y :: rest) k (i + 1) := by
  refine ⟨h.ranked, ?_⟩
  intro j k' hj
  cases j with
  | zero => exact .inl (hhead k' hj)
  | succ j =>
    have hle := h.least j k' hj
    omega

omit [Append β] in
theorem bestPair_spec : ∀ xs : List β,
    (bestPair rank xs = none → ∀ i, rankAt rank xs i = none) ∧
      ∀ k i, bestPair rank xs = some (k, i) → IsBest rank xs k i
  | [] => ⟨fun _ _ => rfl, nofun⟩
  | [x] => ⟨fun _ i => by cases i <;> rfl, nofun⟩
  | x :: y :: rest => by
    obtain ⟨hnone, hsome⟩ := bestPair_spec (y :: rest)
    unfold bestPair
    cases hk : rank x y with
    | none =>
      cases hlater : bestPair rank (y :: rest) with
      | none =>
        refine ⟨?_, nofun⟩
        intro _ i
        cases i with
        | zero => exact hk
        | succ i => exact hnone hlater i
      | some p =>
        obtain ⟨k, i⟩ := p
        refine ⟨nofun, ?_⟩
        intro k' i' h
        cases h
        refine (hsome k i hlater).tail ?_
        intro k' hk'
        rw [hk] at hk'
        cases hk'
    | some k =>
      cases hlater : bestPair rank (y :: rest) with
      | none =>
        refine ⟨nofun, ?_⟩
        intro k' i' h
        cases h
        refine IsBest.head hk ?_
        intro j k' hj
        rw [hnone hlater j] at hj
        cases hj
      | some p =>
        obtain ⟨k', i⟩ := p
        have hrest := hsome k' i hlater
        simp only [Option.map_some]
        split
        · rename_i hle
          refine ⟨nofun, ?_⟩
          intro k'' i'' h
          cases h
          refine IsBest.head hk ?_
          intro j k'' hj
          have hj' := hrest.least j k'' hj
          omega
        · rename_i hle
          refine ⟨nofun, ?_⟩
          intro k'' i'' h
          cases h
          refine hrest.tail ?_
          intro k'' hk''
          obtain rfl := Option.some.inj (hk.symm.trans hk'')
          omega

omit [Append β] in
theorem bestPair_eq_some {xs : List β} {k : ℤ} {i : ℕ} (h : IsBest rank xs k i) :
    bestPair rank xs = some (k, i) := by
  cases hb : bestPair rank xs with
  | none =>
    have hranked := h.ranked
    rw [(bestPair_spec xs).1 hb i] at hranked
    cases hranked
  | some p =>
    obtain ⟨rfl, rfl⟩ := ((bestPair_spec xs).2 _ _ hb).unique h
    rfl

omit [Append β] in
theorem bestPair_eq_none {xs : List β} (h : ∀ i, rankAt rank xs i = none) :
    bestPair rank xs = none := by
  cases hb : bestPair rank xs with
  | none => rfl
  | some p =>
    have hranked := ((bestPair_spec xs).2 _ _ hb).ranked
    rw [h] at hranked
    cases hranked

/-! ## Merging until there is nothing to merge -/

theorem mergeAt_append (A B : List β) (x y : β) :
    mergeAt A.length (A ++ x :: y :: B) = A ++ (x ++ y) :: B := by
  induction A with
  | nil => rfl
  | cons z A ih => exact congrArg (z :: ·) ih

theorem mergeAt_length {xs : List β} {i : ℕ} {k : ℤ} (h : rankAt rank xs i = some k) :
    (mergeAt i xs).length + 1 = xs.length := by
  obtain ⟨A, x, y, B, rfl, rfl, -⟩ := rankAt_split rank h
  rw [mergeAt_append]
  simp only [List.length_append, List.length_cons]
  omega

variable (rank)

/-- **The reference**: the best pair is merged as long as there is one. -/
def greedyMerge (xs : List β) : List β :=
  match _h : bestPair rank xs with
  | none => xs
  | some (_, i) => greedyMerge (mergeAt i xs)
termination_by xs.length
decreasing_by
  have hlen := mergeAt_length ((bestPair_spec xs).2 _ _ _h).ranked
  omega

variable {rank}

theorem greedyMerge_of_none {xs : List β} (h : ∀ i, rankAt rank xs i = none) :
    greedyMerge rank xs = xs := by
  have hb := bestPair_eq_none h
  rw [greedyMerge]
  split
  · rfl
  · rename_i hsome
    rw [hb] at hsome
    cases hsome

/-- A list cut around its best pair. -/
theorem greedyMerge_of_best {A B : List β} {x y : β} {k : ℤ}
    (h : IsBest rank (A ++ x :: y :: B) k A.length) :
    greedyMerge rank (A ++ x :: y :: B) = greedyMerge rank (A ++ (x ++ y) :: B) := by
  have hb := bestPair_eq_some h
  rw [greedyMerge]
  split
  · rename_i hnone
    rw [hb] at hnone
    cases hnone
  · rename_i hsome
    obtain ⟨rfl, rfl⟩ := Prod.mk.inj (Option.some.inj (hb.symm.trans hsome))
    rw [mergeAt_append]

end Lib
