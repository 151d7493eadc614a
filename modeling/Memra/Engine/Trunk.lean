import Mathlib.Algebra.Order.Ring.Rat
import Mathlib.Order.WithBot

/-!
# The trunk

The target model as the engine sees it: a state that is advanced one token at a time and read
for a logits row and a hidden row. `Trunk.after T toks` is the state reached from the empty cache
by feeding `toks`; a prefill, a decode step and a batched step are all feeds of a segment
(`Trunk.feed`). `argmax` is `forward.rs` `argmax`, `Trunk.greedy` the plain decode loop over it.
-/

namespace Memra

/-- A token id (`u32`). -/
abbrev Tok := Nat

/-- A logits row; `⊥` is `f32::NEG_INFINITY`. -/
abbrev Row := List (WithBot ℚ)

/-- The running best of `argmax`: `(best, bv)` against the values from index `i` on. -/
def argmaxFrom : ℕ → ℕ → WithBot ℚ → Row → ℕ
  | _, best, _, [] => best
  | i, best, bv, v :: row =>
    if bv < v then argmaxFrom (i + 1) i v row else argmaxFrom (i + 1) best bv row

/-- `argmax`: the first index of a maximal value above `-inf`, `0` when there is none. -/
def argmax (row : Row) : Tok := argmaxFrom 0 0 ⊥ row

/-- The target model: `σ` is the cache contents, `η` a hidden row, `vocab` the logits width. -/
structure Trunk (σ η : Type) where
  vocab : ℕ
  init : σ
  step : σ → Tok → σ
  logits : σ → List ℚ
  hidden : σ → η
  logits_length : ∀ s, (logits s).length = vocab

/-- A trunk cache: its contents and `pos`, the number of rows fed. -/
structure Cache (σ : Type) where
  st : σ
  pos : ℕ
  deriving DecidableEq

namespace Trunk

variable {σ η : Type} (T : Trunk σ η)

/-- The state after feeding the segment `toks` from `s`. -/
def feed (s : σ) (toks : List Tok) : σ := toks.foldl T.step s

/-- The state after feeding exactly `toks` to an empty cache. -/
def after (toks : List Tok) : σ := T.feed T.init toks

/-- The logits of a state as a row. -/
def row (s : σ) : Row := (T.logits s).map WithBot.some

/-- The greedy prediction of a state. -/
def pred (s : σ) : Tok := argmax (T.row s)

/-- The states after each token of a batched forward, in column order. -/
def cols (s : σ) : List Tok → List σ
  | [] => []
  | x :: xs => T.step s x :: cols (T.step s x) xs

/-- Plain greedy decoding: take the argmax, feed it, repeat (`n` tokens). -/
def greedy (s : σ) : ℕ → List Tok
  | 0 => []
  | n + 1 => T.pred s :: greedy (T.step s (T.pred s)) n

/-- Plain greedy decoding that ends with the first token of `eos`, at most `n` tokens. -/
def greedyUntil (eos : List Tok) : ℕ → σ → List Tok
  | 0, _ => []
  | n + 1, s =>
    if T.pred s ∈ eos then [T.pred s] else T.pred s :: greedyUntil eos n (T.step s (T.pred s))

@[simp] theorem feed_nil (s : σ) : T.feed s [] = s := rfl

@[simp] theorem feed_cons (s : σ) (x : Tok) (xs : List Tok) :
    T.feed s (x :: xs) = T.feed (T.step s x) xs := rfl

@[simp] theorem feed_append (s : σ) (xs ys : List Tok) :
    T.feed s (xs ++ ys) = T.feed (T.feed s xs) ys := by
  simp [feed]

theorem after_append (xs ys : List Tok) : T.after (xs ++ ys) = T.feed (T.after xs) ys := by
  simp [after]

theorem after_concat (xs : List Tok) (x : Tok) :
    T.after (xs ++ [x]) = T.step (T.after xs) x := by
  simp [after]

@[simp] theorem greedy_length (s : σ) (n : ℕ) : (T.greedy s n).length = n := by
  induction n generalizing s with
  | zero => rfl
  | succ n ih => simp [greedy, ih]

/-- A longer greedy run goes on where a shorter one stopped. -/
theorem greedy_add (s : σ) (m n : ℕ) :
    T.greedy s (m + n) = T.greedy s m ++ T.greedy (T.feed s (T.greedy s m)) n := by
  induction m generalizing s with
  | zero => simp [greedy]
  | succ m ih =>
    rw [Nat.add_right_comm]
    simp [greedy, ih]

theorem greedy_succ (s : σ) (n : ℕ) :
    T.greedy s (n + 1) = T.greedy s n ++ [T.pred (T.feed s (T.greedy s n))] := by
  rw [greedy_add]
  rfl

/-- The token that step `n` of plain greedy decoding predicts. -/
def nth (s : σ) (n : ℕ) : Tok := T.pred (T.feed s (T.greedy s n))

theorem greedy_concat (s : σ) (n : ℕ) : T.greedy s (n + 1) = T.greedy s n ++ [T.nth s n] :=
  T.greedy_succ s n

theorem nth_add (s : σ) (m n : ℕ) : T.nth s (m + n) = T.nth (T.feed s (T.greedy s m)) n := by
  rw [nth, nth, greedy_add, feed_append]

theorem feed_greedy_succ (s : σ) (n : ℕ) :
    T.feed s (T.greedy s (n + 1)) = T.step (T.feed s (T.greedy s n)) (T.nth s n) := by
  rw [greedy_concat, feed_append]
  rfl

theorem greedy_take (s : σ) (m n : ℕ) : (T.greedy s n).take m = T.greedy s (min m n) := by
  rcases Nat.le_total m n with h | h
  · obtain ⟨d, rfl⟩ := Nat.exists_eq_add_of_le h
    rw [greedy_add, List.take_left' (T.greedy_length s m), Nat.min_eq_left h]
  · rw [List.take_of_length_le (by rw [T.greedy_length]; exact h), Nat.min_eq_right h]

section

variable {eos : List Tok}

theorem greedyUntil_length_le (n : ℕ) (s : σ) : (T.greedyUntil eos n s).length ≤ n := by
  induction n generalizing s with
  | zero => simp [greedyUntil]
  | succ n ih =>
    simp only [greedyUntil]
    split
    · simp
    · simpa using ih (T.step s (T.pred s))

/-- Past tokens that do not end it, the decoding goes on from the state they lead to. -/
theorem greedyUntil_add (m n : ℕ) (s : σ) (h : ∀ t ∈ T.greedy s m, t ∉ eos) :
    T.greedyUntil eos (m + n) s =
      T.greedy s m ++ T.greedyUntil eos n (T.feed s (T.greedy s m)) := by
  induction m generalizing s with
  | zero => simp [greedy]
  | succ m ih =>
    rw [Nat.add_right_comm, greedyUntil, if_neg (h _ (by simp [greedy]))]
    simp only [greedy, feed_cons, List.cons_append, List.cons.injEq, true_and]
    exact ih _ fun t ht => h t (by simp [greedy, ht])

/-- Where nothing ends it, it is the plain decoding. -/
theorem greedyUntil_eq_greedy (n : ℕ) (s : σ) (h : ∀ t ∈ T.greedy s n, t ∉ eos) :
    T.greedyUntil eos n s = T.greedy s n := by
  have := T.greedyUntil_add n 0 s h
  simpa [greedyUntil] using this

/-- The token that ends it is its last. -/
theorem greedyUntil_ends (m n : ℕ) (s : σ) (h : ∀ t ∈ T.greedy s m, t ∉ eos)
    (he : T.pred (T.feed s (T.greedy s m)) ∈ eos) :
    T.greedyUntil eos (m + 1 + n) s = T.greedy s (m + 1) := by
  rw [Nat.add_assoc, T.greedyUntil_add m (1 + n) s h, Nat.add_comm 1 n, greedyUntil, if_pos he,
    T.greedy_succ]

/-- A decoding that comes to its end at token `j`, or has no more tokens to go there. -/
theorem greedyUntil_eq {n j : ℕ} {s : σ} (hj : j + 1 ≤ n) (h : ∀ t ∈ T.greedy s j, t ∉ eos)
    (he : T.nth s j ∈ eos ∨ j + 1 = n) : T.greedyUntil eos n s = T.greedy s (j + 1) := by
  obtain ⟨m, rfl⟩ := Nat.exists_eq_add_of_le hj
  by_cases hm : T.nth s j ∈ eos
  · exact T.greedyUntil_ends j m s h hm
  · obtain rfl : m = 0 := by
      rcases he with he | he
      · exact absurd he hm
      · omega
    refine T.greedyUntil_eq_greedy _ _ fun t ht => ?_
    rw [Nat.add_zero, T.greedy_concat] at ht
    rcases List.mem_append.1 ht with ht | ht
    · exact h t ht
    · exact List.mem_singleton.1 ht ▸ hm

/-- Before its end no token ends it. -/
theorem not_eos_of_lt_greedyUntil {n i : ℕ} {s : σ}
    (hi : i < (T.greedyUntil eos n s).length) : ∀ t ∈ T.greedy s i, t ∉ eos := by
  induction i generalizing n s with
  | zero => simp [greedy]
  | succ i ih =>
    cases n with
    | zero => simp [greedyUntil] at hi
    | succ n =>
      simp only [greedyUntil] at hi
      split at hi
      · simp at hi
      · rename_i he
        simp only [List.length_cons, Nat.add_lt_add_iff_right] at hi
        intro t ht
        simp only [greedy, List.mem_cons] at ht
        cases ht with
        | inl h => exact h ▸ he
        | inr h => exact ih hi t h

end

@[simp] theorem cols_length (s : σ) (xs : List Tok) : (T.cols s xs).length = xs.length := by
  induction xs generalizing s with
  | nil => rfl
  | cons x xs ih => simp [cols, ih]

/-- Column `j` is the state after the first `j + 1` tokens. -/
theorem cols_getElem? (s : σ) (xs : List Tok) {j : ℕ} (h : j < xs.length) :
    (T.cols s xs)[j]? = some (T.feed s (xs.take (j + 1))) := by
  induction xs generalizing s j with
  | nil => simp at h
  | cons x xs ih =>
    cases j with
    | zero => simp [cols]
    | succ j => simpa [cols] using ih (T.step s x) (by simpa using h)

end Trunk

namespace Cache

variable {σ η : Type} (T : Trunk σ η)

/-- Feed a segment: a prime, a decode step or a batched forward. -/
def feed (c : Cache σ) (toks : List Tok) : Cache σ :=
  { st := T.feed c.st toks, pos := c.pos + toks.length }

/-- The cache holds exactly the rows of `toks`. -/
def Holds (c : Cache σ) (toks : List Tok) : Prop := c.st = T.after toks ∧ c.pos = toks.length

theorem Holds.feed {c : Cache σ} {xs : List Tok} (h : c.Holds T xs) (ys : List Tok) :
    (c.feed T ys).Holds T (xs ++ ys) := by
  refine ⟨?_, ?_⟩
  · rw [Cache.feed, h.1, T.after_append]
  · rw [Cache.feed, h.2, List.length_append]

end Cache

end Memra
