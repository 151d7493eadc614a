import Memra.Lib.GreedyMerge
import Memra.Tokenizer.Proof.Merge

/-!
# The merge queue is greedy

`bpe_merge_word` keeps its bigrams in a queue, outdated ones among them. `HeapInv` is what carries it:
the links of a symbol that is left lead to the nearest symbols that are left, every pair of neighbours
with a rank is queued (`covers`), and a queued bigram whose two symbols are left still starts with the
text of the left one (`sound`): the right one can only have grown, so equal texts mean that it has not.
A bigram that is popped and merged is then the best pair of the symbols that are left, and one that is
dropped was no pair of neighbours any more. So the loop computes `greedyMerge` (`mergeLoop_greedy`).
-/

namespace Memra

open Lib

/-! ## The symbols that are left -/

/-- Their texts in order. -/
def liveTexts (symbols : List Symbol) : List (List Char) :=
  (symbols.filter fun s => s.n ≠ 0).map (·.text)

/-- A symbol that is left. -/
def LiveAt (symbols : List Symbol) (k : ℕ) (s : Symbol) : Prop := symbols[k]? = some s ∧ s.n ≠ 0

theorem LiveAt.not_dead {symbols : List Symbol} {k : ℕ} {s : Symbol} (h : LiveAt symbols k s) :
    ¬ Dead symbols k := fun hd => h.2 (hd s h.1)

theorem LiveAt.unique {symbols : List Symbol} {k : ℕ} {s s' : Symbol} (h : LiveAt symbols k s)
    (h' : LiveAt symbols k s') : s = s' := Option.some.inj (h.1.symm.trans h'.1)

theorem exists_liveAt {symbols : List Symbol} {k : ℕ} (h : ¬ Dead symbols k) :
    ∃ s, LiveAt symbols k s := by
  unfold Dead at h
  push Not at h
  exact h

theorem liveTexts_length (symbols : List Symbol) : (liveTexts symbols).length = live symbols := by
  rw [liveTexts, List.length_map, live, List.countP_eq_length_filter]

theorem liveTexts_append (A B : List Symbol) :
    liveTexts (A ++ B) = liveTexts A ++ liveTexts B := by
  rw [liveTexts, List.filter_append, List.map_append]
  rfl

theorem liveTexts_cons {s : Symbol} (h : s.n ≠ 0) (B : List Symbol) :
    liveTexts (s :: B) = s.text :: liveTexts B := by
  rw [liveTexts, List.filter_cons_of_pos (by simpa using h)]
  rfl

theorem liveTexts_cons_dead {s : Symbol} (h : s.n = 0) (B : List Symbol) :
    liveTexts (s :: B) = liveTexts B := by
  rw [liveTexts, List.filter_cons_of_neg (by simpa using h)]
  rfl

theorem liveTexts_dead {M : List Symbol} (h : ∀ s ∈ M, s.n = 0) : liveTexts M = [] := by
  rw [liveTexts, List.map_eq_nil_iff, List.filter_eq_nil_iff]
  simpa using h

/-- Symbols that agree in text and in number of characters. -/
theorem liveTexts_congr {symbols symbols' : List Symbol}
    (h : symbols'.map (fun s => (s.text, s.n)) = symbols.map fun s => (s.text, s.n)) :
    liveTexts symbols' = liveTexts symbols := by
  have heq : ∀ S : List Symbol, liveTexts S =
      ((S.map fun s => (s.text, s.n)).filter fun p => p.2 ≠ 0).map (·.1) := by
    intro S
    rw [liveTexts, List.filter_map, List.map_map]
    rfl
  rw [heq, heq, h]

/-- Two neighbours, and the chain around them. -/
structure Around (symbols A M B : List Symbol) (l r : Symbol) : Prop where
  eq : symbols = A ++ l :: (M ++ r :: B)
  left : l.n ≠ 0
  right : r.n ≠ 0
  mid : ∀ s ∈ M, s.n = 0

section
variable {symbols A M B : List Symbol} {l r : Symbol}

theorem Around.texts (h : Around symbols A M B l r) :
    liveTexts symbols = liveTexts A ++ l.text :: r.text :: liveTexts B := by
  rw [h.eq, liveTexts_append, liveTexts_cons h.left, liveTexts_append, liveTexts_dead h.mid,
    liveTexts_cons h.right]
  rfl

theorem Around.liveAt_left (h : Around symbols A M B l r) : LiveAt symbols A.length l := by
  refine ⟨?_, h.left⟩
  rw [h.eq, List.getElem?_append_right (Nat.le_refl _), Nat.sub_self]
  rfl

theorem Around.getElem?_add (h : Around symbols A M B l r) (k : ℕ) :
    symbols[A.length + 1 + k]? = (M ++ r :: B)[k]? := by
  rw [h.eq, List.getElem?_append_right (by omega),
    show A.length + 1 + k - A.length = k + 1 by omega, List.getElem?_cons_succ]

theorem Around.liveAt_right (h : Around symbols A M B l r) :
    LiveAt symbols (A.length + 1 + M.length) r := by
  refine ⟨?_, h.right⟩
  rw [h.getElem?_add, List.getElem?_append_right (Nat.le_refl _), Nat.sub_self]
  rfl

theorem Around.adjacent (h : Around symbols A M B l r) :
    Adjacent symbols A.length (A.length + 1 + M.length) := by
  refine ⟨by omega, (List.getElem?_eq_some_iff.1 h.liveAt_right.1).1, ?_⟩
  intro k hlo hhi s hs
  obtain ⟨m, rfl⟩ : ∃ m, k = A.length + 1 + m := ⟨k - (A.length + 1), by omega⟩
  rw [h.getElem?_add, List.getElem?_append_left (by omega)] at hs
  exact h.mid s (List.mem_of_getElem? hs)

theorem around_of_adjacent {i j : ℕ} (hadj : Adjacent symbols i j) (hl : LiveAt symbols i l)
    (hr : LiveAt symbols j r) :
    ∃ A M B, Around symbols A M B l r ∧ A.length = i ∧ i + 1 + M.length = j := by
  obtain ⟨A, M, B, hsymbols, hA, hM⟩ := eq_around hadj.1 hl.1 hr.1
  refine ⟨A, M, B, ⟨hsymbols, hl.2, hr.2, ?_⟩, hA, hM⟩
  intro s hs
  obtain ⟨m, hm⟩ := List.mem_iff_getElem?.1 hs
  have hlt := (List.getElem?_eq_some_iff.1 hm).1
  apply hadj.2.2 (i + 1 + m) (by omega) (by omega)
  rw [hsymbols, List.getElem?_append_right (by omega),
    show i + 1 + m - A.length = m + 1 by omega, List.getElem?_cons_succ,
    List.getElem?_append_left hlt, hm]

/-- Neighbours among the texts are neighbours in the chain. -/
theorem around_of_texts {P Q : List (List Char)} {x y : List Char}
    (h : liveTexts symbols = P ++ x :: y :: Q) :
    ∃ A M B l r, Around symbols A M B l r ∧ l.text = x ∧ r.text = y ∧ liveTexts A = P := by
  unfold liveTexts at h
  obtain ⟨F, G, hF, rfl, hG⟩ := List.map_eq_append_iff.1 h
  obtain ⟨l, G₁, rfl, rfl, hG₁⟩ := List.map_eq_cons_iff.1 hG
  obtain ⟨r, G₂, rfl, rfl, rfl⟩ := List.map_eq_cons_iff.1 hG₁
  obtain ⟨A₀, T, rfl, rfl, hT⟩ := List.filter_eq_append_iff.1 hF
  obtain ⟨A₁, T, rfl, hA₁, hl, hT⟩ := List.filter_eq_cons_iff.1 hT
  obtain ⟨M, B, rfl, hM, hr, -⟩ := List.filter_eq_cons_iff.1 hT
  have hA₁' : ∀ s ∈ A₁, s.n = 0 := by simpa using hA₁
  refine ⟨A₀ ++ A₁, M, B, l, r, ⟨?_, by simpa using hl, by simpa using hr, by simpa using hM⟩, rfl,
    rfl, ?_⟩
  · rw [List.append_assoc]
  · rw [liveTexts_append, liveTexts_dead hA₁', List.append_nil]
    rfl

end

/-! ## Neighbours -/

section
variable {symbols : List Symbol}

theorem Adjacent.right_unique {i j j' : ℕ} {s s' : Symbol} (h : Adjacent symbols i j)
    (h' : Adjacent symbols i j') (hj : LiveAt symbols j s) (hj' : LiveAt symbols j' s') : j = j' := by
  rcases Nat.lt_trichotomy j j' with hlt | heq | hgt
  · exact absurd (h'.2.2 j h.1 hlt) hj.not_dead
  · exact heq
  · exact absurd (h.2.2 j' h'.1 hgt) hj'.not_dead

theorem Adjacent.left_unique {i i' j : ℕ} {s s' : Symbol} (h : Adjacent symbols i j)
    (h' : Adjacent symbols i' j) (hi : LiveAt symbols i s) (hi' : LiveAt symbols i' s') : i = i' := by
  rcases Nat.lt_trichotomy i i' with hlt | heq | hgt
  · exact absurd (h.2.2 i' hlt h'.1) hi'.not_dead
  · exact heq
  · exact absurd (h'.2.2 i hgt h.1) hi.not_dead

end

/-- The link `m` leads to the next symbol that is left, or nowhere if there is none. -/
def NextIs (symbols : List Symbol) (i : ℕ) (m : ℤ) : Prop :=
  (m = -1 ∧ ∀ k, i < k → Dead symbols k) ∨
    ∃ (j : ℕ) (s : Symbol), m = j ∧ Adjacent symbols i j ∧ LiveAt symbols j s

/-- The link `m` leads to the last symbol before that is left, or nowhere if there is none. -/
def PrevIs (symbols : List Symbol) (i : ℕ) (m : ℤ) : Prop :=
  (m = -1 ∧ ∀ k, k < i → Dead symbols k) ∨
    ∃ (h : ℕ) (s : Symbol), m = h ∧ Adjacent symbols h i ∧ LiveAt symbols h s

/-- A bigram of two positions; where both symbols are left, its text is that of the left one and what
the right one was when it was queued. -/
def Bigram.Sound (t : Tokenizer) (symbols : List Symbol) (b : Bigram) : Prop :=
  ∃ i j : ℕ, b.left = i ∧ b.right = j ∧ Adjacent symbols i j ∧
    ∀ l r, LiveAt symbols i l → LiveAt symbols j r →
      ∃ rt, b.text = l.text ++ rt ∧ t.bpeRanks l.text rt = some b.rank

/-- Neighbours with a rank are in the queue. -/
def Covered (t : Tokenizer) (symbols : List Symbol) (queue : List Bigram) (i j : ℕ) : Prop :=
  ∀ l r rank, LiveAt symbols i l → LiveAt symbols j r → Adjacent symbols i j →
    t.bpeRanks l.text r.text = some rank → ⟨i, j, rank, l.text ++ r.text⟩ ∈ queue

/-- **The invariant** of the merge loop. -/
structure HeapInv (t : Tokenizer) (symbols : List Symbol) (queue : List Bigram) : Prop where
  next : ∀ i s, LiveAt symbols i s → NextIs symbols i s.next
  prev : ∀ i s, LiveAt symbols i s → PrevIs symbols i s.prev
  sound : ∀ b ∈ queue, b.Sound t symbols
  covers : ∀ i j, Covered t symbols queue i j

theorem Covered.mono {t : Tokenizer} {symbols : List Symbol} {queue queue' : List Bigram} {i j : ℕ}
    (h : Covered t symbols queue i j) (hsub : queue ⊆ queue') : Covered t symbols queue' i j :=
  fun l r rank hl hr hadj hrank => hsub (h l r rank hl hr hadj hrank)

/-! ## The queue -/

theorem Bigram.before_iff {a b : Bigram} :
    a.before b = true ↔ a.rank < b.rank ∨ a.rank = b.rank ∧ a.left < b.left := by
  simp [Bigram.before]

/-- Nothing in the queue goes before the bigram that is popped. -/
theorem popBigram_least {queue rest : List Bigram} {b : Bigram}
    (h : popBigram queue = some (b, rest)) :
    ∀ b' ∈ queue, b.rank < b'.rank ∨ b.rank = b'.rank ∧ b.left ≤ b'.left := by
  induction queue generalizing b rest with
  | nil => cases h
  | cons a queue ih =>
    unfold popBigram at h
    split at h
    · rename_i hnone
      cases h
      rw [popBigram_eq_none hnone]
      intro b' hb'
      rw [List.mem_singleton.1 hb']
      exact .inr ⟨rfl, le_rfl⟩
    · rename_i m others hsome
      have hleast := ih hsome
      split at h
      · rename_i hbefore
        cases h
        rw [Bigram.before_iff] at hbefore
        intro b' hb'
        rcases List.mem_cons.1 hb' with rfl | hb'
        · omega
        · exact hleast b' hb'
      · rename_i hbefore
        cases h
        rw [Bigram.before_iff] at hbefore
        intro b' hb'
        rcases List.mem_cons.1 hb' with rfl | hb'
        · exact .inr ⟨rfl, le_rfl⟩
        · have hm := hleast b' hb'
          omega

/-- No pair has the rank of an absent one: both constructors rank a merge by its index. -/
def Tokenizer.RanksFit (t : Tokenizer) : Prop := ∀ x y rank, t.bpeRanks x y = some rank → 0 ≤ rank

/-- The two symbols that `add_bigram` is called for, unless one link leads nowhere. -/
def Neighbours (symbols : List Symbol) (left right : ℤ) : Prop :=
  left = -1 ∨ right = -1 ∨ ∃ (i j : ℕ) (l r : Symbol), left = i ∧ right = j ∧
    Adjacent symbols i j ∧ LiveAt symbols i l ∧ LiveAt symbols j r

section
variable {t : Tokenizer} {symbols : List Symbol}

theorem addBigram_greedy (hranks : t.RanksFit)
    {left right : ℤ} (h : Neighbours symbols left right) {queue : List Bigram}
    (hq : ∀ b ∈ queue, b.Sound t symbols) :
    ∃ queue', t.addBigram symbols left right queue = some queue' ∧ queue ⊆ queue' ∧
      (∀ b ∈ queue', b.Sound t symbols) ∧ queue'.length ≤ queue.length + 1 ∧
      ∀ i j : ℕ, left = i → right = j → Covered t symbols queue' i j := by
  rcases h with rfl | rfl | ⟨i, j, l, r, rfl, rfl, hadj, hl, hr⟩
  · exact ⟨queue, by simp [Tokenizer.addBigram], List.Subset.refl _, hq, Nat.le_succ _,
      fun i j hi => by omega⟩
  · exact ⟨queue, by simp [Tokenizer.addBigram], List.Subset.refl _, hq, Nat.le_succ _,
      fun i j _ hj => by omega⟩
  · have hend : ¬ ((i : ℤ) = -1 ∨ (j : ℤ) = -1) := by omega
    simp only [Tokenizer.addBigram, if_neg hend, symAt_natCast, hl.1, hr.1, Option.bind_eq_bind,
      Option.bind_some]
    cases hrank : t.bpeRanks l.text r.text with
    | none =>
      refine ⟨queue, if_pos (by decide), List.Subset.refl _, hq, Nat.le_succ _, ?_⟩
      intro i' j' hi hj l' r' rank hl' hr' _ hrank'
      obtain rfl : i = i' := by omega
      obtain rfl : j = j' := by omega
      rw [hl.unique hl', hr.unique hr', hrank'] at hrank
      cases hrank
    | some rank =>
      have hpos := hranks _ _ _ hrank
      refine ⟨_, if_neg (by simpa using hpos), List.subset_append_left _ _, ?_, by simp, ?_⟩
      · intro b hb
        rcases List.mem_append.1 hb with hb | hb
        · exact hq b hb
        · rw [List.mem_singleton.1 hb]
          refine ⟨i, j, rfl, rfl, hadj, ?_⟩
          intro l' r' hl' hr'
          rw [← hl.unique hl']
          exact ⟨r.text, rfl, hrank⟩
      · intro i' j' hi hj l' r' rank' hl' hr' _ hrank'
        obtain rfl : i = i' := by omega
        obtain rfl : j = j' := by omega
        rw [← hl.unique hl', ← hr.unique hr'] at hrank' ⊢
        obtain rfl := Option.some.inj (hrank.symm.trans hrank')
        exact List.mem_append_right _ (List.mem_singleton_self _)

end

/-! ## One merge -/

/-- The chain after the merge of the symbol at `j` into the one at `i`, links back included. -/
structure Merged (symbols symbols' : List Symbol) (i j : ℕ) (l r : Symbol) : Prop where
  length : symbols'.length = symbols.length
  left : symbols'[i]? = some { l with text := l.text ++ r.text, n := l.n + r.n, next := r.next }
  right : symbols'[j]? = some { r with n := 0 }
  other : ∀ k : ℕ, k ≠ i → k ≠ j →
    symbols'[k]? = symbols[k]?.map fun s => if r.next = k then { s with prev := i } else s

section
variable {symbols symbols' : List Symbol} {i j : ℕ} {l r : Symbol}

theorem setPrev_merged (hadj : Adjacent symbols i j) (hnext : NextIs symbols j r.next) :
    ∃ symbols', setPrev (mergedChain symbols i j l r) r.next i = some symbols' ∧
      Merged symbols symbols' i j l r := by
  have hlen : (mergedChain symbols i j l r).length = symbols.length := by simp [mergedChain]
  have hij : i ≠ j := Nat.ne_of_lt hadj.1
  rcases hnext with ⟨hm, -⟩ | ⟨m, s, hm, hjm, hs⟩
  · refine ⟨_, if_neg (by omega), hlen, ?_, ?_, ?_⟩
    · rw [mergedChain_getElem? hadj, if_neg hij, if_pos rfl]
    · rw [mergedChain_getElem? hadj, if_pos rfl]
    · intro k hki hkj
      have hne : ¬ r.next = (k : ℤ) := by omega
      rw [mergedChain_getElem? hadj, if_neg hkj, if_neg hki]
      simp [hne]
  · have hmi : m ≠ i := by
      have h1 := hadj.1
      have h2 := hjm.1
      omega
    have hmj : m ≠ j := Nat.ne_of_gt hjm.1
    have hget : (mergedChain symbols i j l r)[m]? = some s := by
      rw [mergedChain_getElem? hadj, if_neg hmj, if_neg hmi, hs.1]
    have hset : setPrev (mergedChain symbols i j l r) r.next i =
        some ((mergedChain symbols i j l r).set m { s with prev := i }) := by
      rw [hm, setPrev, if_pos (by omega), symAt_natCast, hget, Int.toNat_natCast]
      rfl
    refine ⟨_, hset, ?_, ?_, ?_, ?_⟩
    · rw [List.length_set, hlen]
    · rw [List.getElem?_set_ne hmi, mergedChain_getElem? hadj, if_neg hij, if_pos rfl]
    · rw [List.getElem?_set_ne hmj, mergedChain_getElem? hadj, if_pos rfl]
    · intro k hki hkj
      by_cases hmk : m = k
      · subst hmk
        rw [List.getElem?_set_self (hlen ▸ hjm.2.1), hs.1]
        simp [hm]
      · have hne : ¬ r.next = (k : ℤ) := by omega
        rw [List.getElem?_set_ne hmk, mergedChain_getElem? hadj, if_neg hkj, if_neg hki]
        simp [hne]

/-- The symbols that are left afterwards: `i` with both texts, and the others but `j` as they were. -/
theorem Merged.liveAt (h : Merged symbols symbols' i j l r) {k : ℕ} {s : Symbol}
    (hs : LiveAt symbols' k s) :
    k = i ∧ s = { l with text := l.text ++ r.text, n := l.n + r.n, next := r.next } ∨
      k ≠ i ∧ k ≠ j ∧ ∃ s₀, LiveAt symbols k s₀ ∧ s = if r.next = k then { s₀ with prev := i } else s₀ := by
  by_cases hki : k = i
  · subst hki
    exact .inl ⟨rfl, Option.some.inj (hs.1.symm.trans h.left)⟩
  · by_cases hkj : k = j
    · subst hkj
      have heq := Option.some.inj (hs.1.symm.trans h.right)
      rw [heq] at hs
      exact absurd rfl hs.2
    · have hk := hs.1
      rw [h.other k hki hkj, Option.map_eq_some_iff] at hk
      obtain ⟨s₀, hs₀, rfl⟩ := hk
      refine .inr ⟨hki, hkj, s₀, ⟨hs₀, ?_⟩, rfl⟩
      have hn := hs.2
      split at hn
      · exact hn
      · exact hn

theorem Merged.exists_liveAt (h : Merged symbols symbols' i j l r) (hl : LiveAt symbols i l) {k : ℕ}
    {s : Symbol} (hs : LiveAt symbols k s) (hkj : k ≠ j) : ∃ s', LiveAt symbols' k s' := by
  by_cases hki : k = i
  · subst hki
    refine ⟨_, h.left, ?_⟩
    have hn := hl.2
    change l.n + r.n ≠ 0
    omega
  · refine ⟨if r.next = k then { s with prev := i } else s, ?_, ?_⟩
    · rw [h.other k hki hkj, hs.1]
      rfl
    · split
      · exact hs.2
      · exact hs.2

theorem Merged.dead_right (h : Merged symbols symbols' i j l r) : Dead symbols' j := by
  intro s hs
  rw [Option.some.inj (hs.symm.trans h.right)]

theorem Merged.dead (h : Merged symbols symbols' i j l r) (hl : LiveAt symbols i l) {k : ℕ}
    (hk : Dead symbols k) : Dead symbols' k := by
  intro s hs
  by_contra hn
  rcases h.liveAt ⟨hs, hn⟩ with ⟨rfl, -⟩ | ⟨-, -, s₀, hs₀, -⟩
  · exact hl.not_dead hk
  · exact hs₀.not_dead hk

theorem Merged.adjacent (h : Merged symbols symbols' i j l r) (hl : LiveAt symbols i l) {p q : ℕ}
    (hpq : Adjacent symbols p q) : Adjacent symbols' p q :=
  hpq.mono h.length fun _ hk => h.dead hl hk

/-- The symbol behind the merged ones is behind the new one. -/
theorem Merged.next_left (h : Merged symbols symbols' i j l r) (hadj : Adjacent symbols i j)
    (hl : LiveAt symbols i l) (hnext : NextIs symbols j r.next) : NextIs symbols' i r.next := by
  rcases hnext with ⟨hm, hdead⟩ | ⟨m, s, hm, hjm, hs⟩
  · refine .inl ⟨hm, ?_⟩
    intro k hik
    rcases Nat.lt_trichotomy k j with hkj | rfl | hjk
    · exact h.dead hl (hadj.2.2 k hik hkj)
    · exact h.dead_right
    · exact h.dead hl (hdead k hjk)
  · obtain ⟨s', hs'⟩ := h.exists_liveAt hl hs (Nat.ne_of_gt hjm.1)
    exact .inr ⟨m, s', hm, (h.adjacent hl hadj).trans (h.adjacent hl hjm) h.dead_right, hs'⟩

theorem Merged.next_other (h : Merged symbols symbols' i j l r) (hadj : Adjacent symbols i j)
    (hl : LiveAt symbols i l) (hr : LiveAt symbols j r) {k : ℕ} {s : Symbol} (hki : k ≠ i)
    (hs : LiveAt symbols k s) {m : ℤ} (hnext : NextIs symbols k m) : NextIs symbols' k m := by
  rcases hnext with ⟨hm, hdead⟩ | ⟨q, s', hm, hkq, hq⟩
  · exact .inl ⟨hm, fun q hq => h.dead hl (hdead q hq)⟩
  · have hqj : q ≠ j := by
      rintro rfl
      exact hki (hkq.left_unique hadj hs hl)
    obtain ⟨s'', hs''⟩ := h.exists_liveAt hl hq hqj
    exact .inr ⟨q, s'', hm, h.adjacent hl hkq, hs''⟩

/-- The link back of the symbol behind. -/
theorem Merged.prev_next (h : Merged symbols symbols' i j l r) (hadj : Adjacent symbols i j)
    (hl : LiveAt symbols i l) (hnext : NextIs symbols j r.next) {k : ℕ} (hk : r.next = k) :
    PrevIs symbols' k i := by
  rcases hnext with ⟨hm, -⟩ | ⟨m, s, hm, hjm, -⟩
  · omega
  · obtain rfl : k = m := by omega
    obtain ⟨s', hs'⟩ := h.exists_liveAt hl hl (Nat.ne_of_lt hadj.1)
    exact .inr ⟨i, s', rfl, (h.adjacent hl hadj).trans (h.adjacent hl hjm) h.dead_right, hs'⟩

theorem Merged.prev_other (h : Merged symbols symbols' i j l r) (hl : LiveAt symbols i l)
    (hr : LiveAt symbols j r) (hnext : NextIs symbols j r.next) {k : ℕ} {s : Symbol}
    (hs : LiveAt symbols k s) (hk : r.next ≠ k) {m : ℤ} (hprev : PrevIs symbols k m) :
    PrevIs symbols' k m := by
  rcases hprev with ⟨hm, hdead⟩ | ⟨q, s', hm, hqk, hq⟩
  · exact .inl ⟨hm, fun q hq => h.dead hl (hdead q hq)⟩
  · have hqj : q ≠ j := by
      rintro rfl
      rcases hnext with ⟨-, hdead⟩ | ⟨n, sn, hn, hjn, hsn⟩
      · exact hs.not_dead (hdead k hqk.1)
      · exact hk (by rw [hn, hjn.right_unique hqk hsn hs])
    obtain ⟨s'', hs''⟩ := h.exists_liveAt hl hq hqj
    exact .inr ⟨q, s'', hm, h.adjacent hl hqk, hs''⟩

/-- Neighbours apart from the new symbol were neighbours before. -/
theorem Merged.adjacent_back (h : Merged symbols symbols' i j l r) (hadj : Adjacent symbols i j)
    (hl : LiveAt symbols i l) {p q : ℕ} {s : Symbol} (hpi : p ≠ i) (hqj : q ≠ j)
    (hs : LiveAt symbols p s) (hpq : Adjacent symbols' p q) : Adjacent symbols p q := by
  refine ⟨hpq.1, h.length ▸ hpq.2.1, ?_⟩
  intro k hpk hkq s' hs'
  by_contra hn
  obtain ⟨si, hsi⟩ := h.exists_liveAt hl hl (Nat.ne_of_lt hadj.1)
  by_cases hkj : k = j
  · -- `p` is left, so not between `i` and `j`; then `i` is between `p` and `q`
    subst hkj
    have hpi' : ¬ i < p := fun hip => hs.not_dead (hadj.2.2 p hip hpk)
    exact hsi.not_dead (hpq.2.2 i (by omega) (by have := hadj.1; omega))
  · obtain ⟨s'', hs''⟩ := h.exists_liveAt hl ⟨hs', hn⟩ hkj
    exact hs''.not_dead (hpq.2.2 k hpk hkq)

theorem Merged.sound (h : Merged symbols symbols' i j l r) {t : Tokenizer}
    (hadj : Adjacent symbols i j) (hl : LiveAt symbols i l) (hr : LiveAt symbols j r) {b : Bigram}
    (hb : b.Sound t symbols) : b.Sound t symbols' := by
  obtain ⟨p, q, hp, hq, hpq, htext⟩ := hb
  refine ⟨p, q, hp, hq, h.adjacent hl hpq, ?_⟩
  intro x y hx hy
  rcases h.liveAt hy with ⟨rfl, -⟩ | ⟨hqi, hqj, y₀, hy₀, -⟩
  · -- the right symbol is the new one, the left one is as it was
    rcases h.liveAt hx with ⟨rfl, -⟩ | ⟨-, -, x₀, hx₀, rfl⟩
    · exact absurd hpq.1 (Nat.lt_irrefl _)
    · obtain ⟨rt, hrt, hrank⟩ := htext x₀ l hx₀ hl
      refine ⟨rt, ?_⟩
      split
      · exact ⟨hrt, hrank⟩
      · exact ⟨hrt, hrank⟩
  · rcases h.liveAt hx with ⟨rfl, -⟩ | ⟨-, -, x₀, hx₀, rfl⟩
    · exact absurd (hpq.right_unique hadj hy₀ hr) hqj
    · obtain ⟨rt, hrt, hrank⟩ := htext x₀ y₀ hx₀ hy₀
      refine ⟨rt, ?_⟩
      split
      · exact ⟨hrt, hrank⟩
      · exact ⟨hrt, hrank⟩

theorem Merged.texts (h : Merged symbols symbols' i j l r) {A M B : List Symbol}
    (hcut : Around symbols A M B l r) (hi : A.length = i) (hj : i + 1 + M.length = j) :
    liveTexts symbols' = liveTexts A ++ (l.text ++ r.text) :: liveTexts B := by
  have hadj : Adjacent symbols i j := by
    rw [← hj, ← hi]
    exact hcut.adjacent
  have hij : i ≠ j := Nat.ne_of_lt hadj.1
  have hsame : symbols'.map (fun s => (s.text, s.n)) =
      (mergedChain symbols i j l r).map fun s => (s.text, s.n) := by
    apply List.ext_getElem?
    intro k
    rw [List.getElem?_map, List.getElem?_map, mergedChain_getElem? hadj]
    by_cases hkj : k = j
    · rw [hkj, h.right, if_pos rfl]
    · by_cases hki : k = i
      · rw [hki, h.left, if_neg hij, if_pos rfl]
      · rw [h.other k hki hkj, if_neg hkj, if_neg hki]
        cases symbols[k]? with
        | none => rfl
        | some s =>
          simp only [Option.map_some]
          split <;> rfl
  have hmerged : mergedChain symbols i j l r =
      A ++ { l with text := l.text ++ r.text, n := l.n + r.n, next := r.next } ::
        (M ++ { r with n := 0 } :: B) := by
    subst hi hj
    rw [mergedChain, hcut.eq, set_around]
  have hn : l.n + r.n ≠ 0 := by
    have hl := hcut.left
    omega
  rw [liveTexts_congr hsame, hmerged, liveTexts_append, liveTexts_cons hn, liveTexts_append,
    liveTexts_dead hcut.mid, liveTexts_cons_dead rfl]
  rfl

end

/-! ## One bigram out of the queue -/

theorem NextIs.eq {symbols : List Symbol} {i q : ℕ} {m : ℤ} {s : Symbol} (h : NextIs symbols i m)
    (hadj : Adjacent symbols i q) (hq : LiveAt symbols q s) : m = q := by
  rcases h with ⟨-, hdead⟩ | ⟨j, s', rfl, hij, hs'⟩
  · exact absurd (hdead q hadj.1) hq.not_dead
  · rw [hij.right_unique hadj hs' hq]

theorem PrevIs.eq {symbols : List Symbol} {i q : ℕ} {m : ℤ} {s : Symbol} (h : PrevIs symbols i m)
    (hadj : Adjacent symbols q i) (hq : LiveAt symbols q s) : m = q := by
  rcases h with ⟨-, hdead⟩ | ⟨j, s', rfl, hji, hs'⟩
  · exact absurd (hdead q hadj.1) hq.not_dead
  · rw [hji.left_unique hadj hs' hq]

theorem NextIs.neighbours {symbols : List Symbol} {i : ℕ} {m : ℤ} {s : Symbol}
    (h : NextIs symbols i m) (hs : LiveAt symbols i s) : Neighbours symbols i m := by
  rcases h with ⟨hm, -⟩ | ⟨j, s', hm, hadj, hs'⟩
  · exact .inr (.inl hm)
  · exact .inr (.inr ⟨i, j, s, s', rfl, hm, hadj, hs, hs'⟩)

theorem PrevIs.neighbours {symbols : List Symbol} {i : ℕ} {m : ℤ} {s : Symbol}
    (h : PrevIs symbols i m) (hs : LiveAt symbols i s) : Neighbours symbols m i := by
  rcases h with ⟨hm, -⟩ | ⟨j, s', hm, hadj, hs'⟩
  · exact .inl hm
  · exact .inr (.inr ⟨j, i, s', s, hm, rfl, hadj, hs', hs⟩)

section
variable {t : Tokenizer} {symbols : List Symbol} {b : Bigram} {queue : List Bigram}

theorem HeapInv.perm {queue' : List Bigram} (h : HeapInv t symbols queue)
    (hperm : queue.Perm queue') : HeapInv t symbols queue' where
  next := h.next
  prev := h.prev
  sound b hb := h.sound b (hperm.mem_iff.2 hb)
  covers i j := (h.covers i j).mono hperm.subset

/-- **An outdated bigram** goes with nothing lost: it was no pair of neighbours. -/
theorem HeapInv.drop (h : HeapInv t symbols (b :: queue)) {i j : ℕ} {l r : Symbol}
    (hleft : b.left = i) (hright : b.right = j) (hi : symbols[i]? = some l)
    (hj : symbols[j]? = some r) (hold : l.n ≠ 0 → r.n ≠ 0 → l.text ++ r.text ≠ b.text) :
    HeapInv t symbols queue where
  next := h.next
  prev := h.prev
  sound b hb := h.sound b (List.mem_cons_of_mem _ hb)
  covers p q := by
    intro x y rank hx hy hadj hrank
    rcases List.mem_cons.1 (h.covers p q x y rank hx hy hadj hrank) with rfl | hmem
    · obtain rfl : p = i := Int.ofNat_inj.1 hleft
      obtain rfl : q = j := Int.ofNat_inj.1 hright
      obtain rfl := Option.some.inj (hi.symm.trans hx.1)
      obtain rfl := Option.some.inj (hj.symm.trans hy.1)
      exact absurd rfl (hold hx.2 hy.2)
    · exact hmem

/-- **A merge**: the links and the new pairs of neighbours. -/
theorem mergeBigram_merge (hranks : t.RanksFit)
    (h : HeapInv t symbols (b :: queue)) {i j : ℕ} {l r : Symbol} (hleft : b.left = i)
    (hright : b.right = j) (hadj : Adjacent symbols i j) (hl : LiveAt symbols i l)
    (hr : LiveAt symbols j r) (htext : l.text ++ r.text = b.text) :
    ∃ symbols' queue', t.mergeBigram symbols b queue = some (symbols', queue') ∧
      HeapInv t symbols' queue' ∧ Merged symbols symbols' i j l r ∧
      queue'.length ≤ queue.length + 2 := by
  have hnext := h.next j r hr
  obtain ⟨symbols', hset, hmerged⟩ := setPrev_merged (l := l) hadj hnext
  have hl' : LiveAt symbols' i { l with text := l.text ++ r.text, n := l.n + r.n, next := r.next } := by
    refine ⟨hmerged.left, ?_⟩
    have hn := hl.2
    change l.n + r.n ≠ 0
    omega
  have hprevI : PrevIs symbols' i l.prev :=
    hmerged.prev_other hl hr hnext hl (by
      rcases hnext with ⟨hm, -⟩ | ⟨m, s, hm, hjm, -⟩
      · omega
      · have h1 := hadj.1
        have h2 := hjm.1
        omega) (h.prev i l hl)
  have hnextI : NextIs symbols' i r.next := hmerged.next_left hadj hl hnext
  have hsound : ∀ b ∈ queue, b.Sound t symbols' := fun b hb =>
    hmerged.sound hadj hl hr (h.sound b (List.mem_cons_of_mem _ hb))
  obtain ⟨q1, hq1, hsub1, hsound1, hlen1, hcov1⟩ :=
    addBigram_greedy hranks (hprevI.neighbours hl') hsound
  obtain ⟨q2, hq2, hsub2, hsound2, hlen2, hcov2⟩ :=
    addBigram_greedy hranks (hnextI.neighbours hl') hsound1
  refine ⟨symbols', q2, ?_, ⟨?_, ?_, hsound2, ?_⟩, hmerged, by omega⟩
  · unfold mergedChain at hset
    simp only [Tokenizer.mergeBigram, hleft, hright, symAt_natCast, hl.1, hr.1, Option.bind_eq_bind,
      Option.bind_some, Int.toNat_natCast]
    rw [if_neg (by simp [hl.2, hr.2]), if_neg (by simpa using htext), hset, Option.bind_some,
      hl'.1, Option.bind_some, hq1, Option.bind_some, hq2, Option.bind_some]
  · intro k s hs
    rcases hmerged.liveAt hs with ⟨rfl, rfl⟩ | ⟨hki, -, s₀, hs₀, rfl⟩
    · exact hnextI
    · have hk := hmerged.next_other hadj hl hr hki hs₀ (h.next k s₀ hs₀)
      split
      · exact hk
      · exact hk
  · intro k s hs
    rcases hmerged.liveAt hs with ⟨rfl, rfl⟩ | ⟨-, -, s₀, hs₀, rfl⟩
    · exact hprevI
    · split
      · rename_i hk
        exact hmerged.prev_next hadj hl hnext hk
      · rename_i hk
        exact hmerged.prev_other hl hr hnext hs₀ hk (h.prev k s₀ hs₀)
  · intro p q x y rank hx hy hpq hrank
    by_cases hpi : p = i
    · subst hpi
      exact hcov2 p q rfl (hnextI.eq hpq hy) x y rank hx hy hpq hrank
    · by_cases hqi : q = i
      · subst hqi
        exact hsub2 (hcov1 p q (hprevI.eq hpq hx) rfl x y rank hx hy hpq hrank)
      · rcases hmerged.liveAt hx with ⟨hp, -⟩ | ⟨-, -, x₀, hx₀, rfl⟩
        · exact absurd hp hpi
        · rcases hmerged.liveAt hy with ⟨hq, -⟩ | ⟨-, hqj, y₀, hy₀, rfl⟩
          · exact absurd hq hqi
          · have hback := hmerged.adjacent_back hadj hl hpi hqj hx₀ hpq
            have hxt : (if r.next = (p : ℤ) then { x₀ with prev := (i : ℤ) } else x₀).text =
                x₀.text := by
              split <;> rfl
            have hyt : (if r.next = (q : ℤ) then { y₀ with prev := (i : ℤ) } else y₀).text =
                y₀.text := by
              split <;> rfl
            rw [hxt, hyt] at hrank ⊢
            rcases List.mem_cons.1 (h.covers p q x₀ y₀ rank hx₀ hy₀ hback hrank) with hbq | hmem
            · rw [← hbq] at hleft
              exact absurd (Int.ofNat_inj.1 hleft) hpi
            · exact hsub2 (hsub1 hmem)

/-- **The bigram that is merged is the best pair** of the symbols that are left. -/
theorem HeapInv.isBest (h : HeapInv t symbols queue) (hmem : b ∈ queue)
    (hleast : ∀ b' ∈ queue, b.rank < b'.rank ∨ b.rank = b'.rank ∧ b.left ≤ b'.left)
    {A M B : List Symbol} {l r : Symbol} (hcut : Around symbols A M B l r)
    (hleft : b.left = A.length) (hright : b.right = (A.length + 1 + M.length : ℕ))
    (htext : l.text ++ r.text = b.text) :
    IsBest t.bpeRanks (liveTexts symbols) b.rank (liveTexts A).length := by
  refine ⟨?_, ?_⟩
  · obtain ⟨p, q, hp, hq, -, hsound⟩ := h.sound b hmem
    obtain rfl : p = A.length := by exact_mod_cast hp.symm.trans hleft
    obtain rfl : q = A.length + 1 + M.length := by exact_mod_cast hq.symm.trans hright
    obtain ⟨rt, hrt, hrank⟩ := hsound l r hcut.liveAt_left hcut.liveAt_right
    obtain rfl := List.append_cancel_left (htext.trans hrt)
    rw [hcut.texts, rankAt_append]
    exact hrank
  · intro m k hm
    obtain ⟨P, x, y, Q, htexts, rfl, hrank⟩ := rankAt_split _ hm
    obtain ⟨A', M', B', l', r', hcut', rfl, rfl, rfl⟩ := around_of_texts htexts
    have hqueued := h.covers _ _ l' r' k hcut'.liveAt_left hcut'.liveAt_right hcut'.adjacent hrank
    have hle := hleast _ hqueued
    simp only [hleft] at hle
    rcases hle with hlt | ⟨heq, hlen⟩
    · exact .inl hlt
    · refine .inr ⟨heq, ?_⟩
      have hpre : A <+: A' := by
        have hA : A <+: symbols := by
          rw [hcut.eq]
          exact List.prefix_append _ _
        have hA' : A' <+: symbols := by
          rw [hcut'.eq]
          exact List.prefix_append _ _
        exact List.prefix_of_prefix_length_le hA hA' (by exact_mod_cast hlen)
      obtain ⟨C, rfl⟩ := hpre
      rw [liveTexts_append, List.length_append]
      exact Nat.le_add_right _ _

/-- **The step**: the bigram that is popped is merged as the reference merges, or dropped. -/
theorem mergeBigram_greedy (hranks : t.RanksFit)
    {rest : List Bigram} (h : HeapInv t symbols queue) (hpop : popBigram queue = some (b, rest)) :
    ∃ symbols' queue', t.mergeBigram symbols b rest = some (symbols', queue') ∧
      HeapInv t symbols' queue' ∧
      greedyMerge t.bpeRanks (liveTexts symbols') = greedyMerge t.bpeRanks (liveTexts symbols) ∧
      3 * live symbols' + queue'.length ≤ 3 * live symbols + rest.length := by
  have hperm := popBigram_perm hpop
  have hmem : b ∈ queue := hperm.mem_iff.2 List.mem_cons_self
  have hrest := h.perm hperm
  obtain ⟨i, j, hleft, hright, hadj, -⟩ := h.sound b hmem
  obtain ⟨l, hi⟩ : ∃ l, symbols[i]? = some l := ⟨_, List.getElem?_eq_getElem hadj.left_lt⟩
  obtain ⟨r, hj⟩ : ∃ r, symbols[j]? = some r := ⟨_, List.getElem?_eq_getElem hadj.2.1⟩
  by_cases hlive : l.n ≠ 0 ∧ r.n ≠ 0 ∧ l.text ++ r.text = b.text
  · obtain ⟨hl, hr, htext⟩ := hlive
    obtain ⟨symbols', queue', hstep, hinv, hmerged, hlen⟩ :=
      mergeBigram_merge hranks hrest hleft hright hadj ⟨hi, hl⟩ ⟨hj, hr⟩ htext
    obtain ⟨A, M, B, hcut, hA, hM⟩ := around_of_adjacent hadj ⟨hi, hl⟩ ⟨hj, hr⟩
    have hbest := h.isBest hmem (popBigram_least hpop) hcut (by rw [hleft, hA])
      (by rw [hright, ← hM, hA]) htext
    have htexts := hmerged.texts hcut hA hM
    refine ⟨symbols', queue', hstep, hinv, ?_, ?_⟩
    · rw [hcut.texts] at hbest ⊢
      rw [htexts, greedyMerge_of_best hbest]
    · have hcount := congrArg List.length htexts
      have hcount' := congrArg List.length hcut.texts
      rw [liveTexts_length] at hcount hcount'
      simp only [List.length_append, List.length_cons] at hcount hcount'
      omega
  · refine ⟨symbols, rest, ?_, ?_, rfl, Nat.le_refl _⟩
    · simp only [Tokenizer.mergeBigram, hleft, hright, symAt_natCast, hi, hj, Option.bind_eq_bind,
        Option.bind_some]
      split
      · rfl
      · rename_i hn
        rw [if_pos]
        intro htext
        rw [not_or] at hn
        exact hlive ⟨hn.1, hn.2, htext⟩
    · exact hrest.drop hleft hright hi hj fun hl hr htext => hlive ⟨hl, hr, htext⟩

/-- **The loop**: it ends, with what the reference makes of the symbols that were left. -/
theorem mergeLoop_greedy (hranks : t.RanksFit) {fuel : ℕ}
    (h : HeapInv t symbols queue) (hfuel : 3 * live symbols + queue.length < fuel) :
    ∃ symbols', t.mergeLoop fuel symbols queue = some symbols' ∧
      liveTexts symbols' = greedyMerge t.bpeRanks (liveTexts symbols) := by
  induction fuel generalizing symbols queue with
  | zero => exact absurd hfuel (Nat.not_lt_zero _)
  | succ fuel ih =>
    unfold Tokenizer.mergeLoop
    cases hpop : popBigram queue with
    | none =>
      refine ⟨symbols, rfl, (greedyMerge_of_none ?_).symm⟩
      intro m
      cases hm : rankAt t.bpeRanks (liveTexts symbols) m with
      | none => rfl
      | some k =>
        obtain ⟨P, x, y, Q, htexts, -, hrank⟩ := rankAt_split _ hm
        obtain ⟨A, M, B, l, r, hcut, rfl, rfl, -⟩ := around_of_texts htexts
        have hqueued := h.covers _ _ l r k hcut.liveAt_left hcut.liveAt_right hcut.adjacent hrank
        rw [popBigram_eq_none hpop] at hqueued
        cases hqueued
    | some top =>
      obtain ⟨b, rest⟩ := top
      have hlen : queue.length = rest.length + 1 := by
        rw [(popBigram_perm hpop).length_eq, List.length_cons]
      obtain ⟨symbols', queue', hstep, hinv, hgreedy, hle⟩ := mergeBigram_greedy hranks h hpop
      obtain ⟨final, hloop, hfinal⟩ := ih hinv (by omega)
      refine ⟨final, ?_, hfinal.trans hgreedy⟩
      simp only [hstep, Option.bind_eq_bind, Option.bind_some, hloop]

end

/-! ## The chain of a word -/

theorem symbolChain_liveAt {word : List Char} {i : ℕ} (h : i < word.length) :
    ∃ s, LiveAt (symbolChain word) i s := by
  have hget := symbolChain_getElem? word i
  rw [List.getElem?_eq_getElem h, Option.map_some] at hget
  exact ⟨_, hget, Nat.one_ne_zero⟩

/-- In a chain without gaps the neighbours are one apart. -/
theorem symbolChain_adjacent {word : List Char} {i j : ℕ}
    (h : Adjacent (symbolChain word) i j) : j = i + 1 := by
  by_contra hne
  have hij := h.1
  have hj := h.2.1
  rw [symbolChain_length] at hj
  have hi : i + 1 < word.length := by omega
  obtain ⟨s, hs⟩ := symbolChain_liveAt hi
  exact hs.not_dead (h.2.2 (i + 1) (by omega) (by omega))

theorem symbolChain_links {word : List Char} (hlen : word.length ≤ 2 ^ 31) {i : ℕ} {s : Symbol}
    (hs : LiveAt (symbolChain word) i s) :
    NextIs (symbolChain word) i s.next ∧ PrevIs (symbolChain word) i s.prev := by
  have hlt := (List.getElem?_eq_some_iff.1 hs.1).1
  rw [symbolChain_length] at hlt
  have hget := hs.1
  rw [symbolChain_getElem?, Option.map_eq_some_iff] at hget
  obtain ⟨c, -, rfl⟩ := hget
  refine ⟨?_, ?_⟩
  · by_cases hend : i + 1 = word.length
    · refine .inl ⟨if_pos hend, ?_⟩
      intro k hk s hs
      have hklt := (List.getElem?_eq_some_iff.1 hs).1
      rw [symbolChain_length] at hklt
      omega
    · have hi : i + 1 < word.length := by omega
      obtain ⟨s', hs'⟩ := symbolChain_liveAt hi
      refine .inr ⟨i + 1, s', ?_, adjacent_succ (by rw [symbolChain_length]; omega), hs'⟩
      change (if i + 1 = word.length then -1 else asI32 (asI32 i + 1)) = _
      rw [if_neg hend, asI32_of_lt (i := i) (by omega) (by omega),
        asI32_of_lt (by omega) (by omega)]
      omega
  · have hprev : asI32 (asI32 i - 1) = (i : ℤ) - 1 := by
      rw [asI32_of_lt (i := i) (by omega) (by omega), asI32_of_lt (by omega) (by omega)]
    cases i with
    | zero =>
      refine .inl ⟨?_, fun k hk => absurd hk (Nat.not_lt_zero k)⟩
      rw [hprev]
      rfl
    | succ i =>
      have hi : i < word.length := by omega
      obtain ⟨s', hs'⟩ := symbolChain_liveAt hi
      refine .inr ⟨i, s', ?_, adjacent_succ (by rw [symbolChain_length]; omega), hs'⟩
      rw [hprev]
      dsimp only
      omega

theorem liveTexts_symbolChain (word : List Char) :
    liveTexts (symbolChain word) = word.map fun c => [c] := by
  have hall : (symbolChain word).filter (fun s => s.n ≠ 0) = symbolChain word := by
    rw [List.filter_eq_self]
    intro s hs
    obtain ⟨i, hi⟩ := List.mem_iff_getElem?.1 hs
    rw [symbolChain_getElem?, Option.map_eq_some_iff] at hi
    obtain ⟨c, -, rfl⟩ := hi
    rfl
  rw [liveTexts, hall]
  apply List.ext_getElem?
  intro i
  rw [List.getElem?_map, List.getElem?_map, symbolChain_getElem?, Option.map_map]
  rfl

/-- One position of the seed. -/
theorem addBigram_seed {t : Tokenizer} (hranks : t.RanksFit) {word : List Char}
    (hlen : word.length ≤ 2 ^ 31) {m : ℕ} (hm : m + 1 < word.length) {queue : List Bigram}
    (hsound : ∀ b ∈ queue, b.Sound t (symbolChain word)) :
    ∃ queue', t.addBigram (symbolChain word) (asI32 (asI32 ((1 + m : ℕ) : ℤ) - 1))
        (asI32 ((1 + m : ℕ) : ℤ)) queue = some queue' ∧ queue ⊆ queue' ∧
      (∀ b ∈ queue', b.Sound t (symbolChain word)) ∧ queue'.length ≤ queue.length + 1 ∧
      Covered t (symbolChain word) queue' m (m + 1) := by
  obtain ⟨l, hl⟩ := symbolChain_liveAt (Nat.lt_of_succ_lt hm)
  obtain ⟨r, hr⟩ := symbolChain_liveAt hm
  have hright : asI32 ((1 + m : ℕ) : ℤ) = (m + 1 : ℕ) := by
    rw [asI32_of_lt (by omega) (by omega), Nat.add_comm]
  have hleft : asI32 (((m + 1 : ℕ) : ℤ) - 1) = m := by
    rw [asI32_of_lt (by omega) (by omega)]
    omega
  have hadj : Adjacent (symbolChain word) m (m + 1) :=
    adjacent_succ (by rw [symbolChain_length]; exact hm)
  rw [hright, hleft]
  obtain ⟨queue', hadd, hsub, hsound', hcount, hcov⟩ := addBigram_greedy hranks
    (.inr (.inr ⟨m, m + 1, l, r, rfl, rfl, hadj, hl, hr⟩)) hsound
  exact ⟨queue', hadd, hsub, hsound', hcount, hcov m (m + 1) rfl rfl⟩

theorem foldlM_concat {α β : Type} {f : β → α → Option β} {xs : List α} {x : α} {b c d : β}
    (hxs : xs.foldlM f b = some c) (hx : f c x = some d) : (xs ++ [x]).foldlM f b = some d := by
  rw [List.foldlM_append, hxs]
  simp [hx]

/-- The seed up to position `m`. -/
theorem seedQueue_upTo {t : Tokenizer} (hranks : t.RanksFit) {word : List Char}
    (hlen : word.length ≤ 2 ^ 31) (m : ℕ) (hm : m ≤ word.length - 1) :
    ∃ queue, (List.range' 1 m).foldlM (fun queue (i : ℕ) =>
        t.addBigram (symbolChain word) (asI32 (asI32 i - 1)) (asI32 i) queue) [] = some queue ∧
      (∀ b ∈ queue, b.Sound t (symbolChain word)) ∧ queue.length ≤ m ∧
      ∀ i, i < m → Covered t (symbolChain word) queue i (i + 1) := by
  induction m with
  | zero => exact ⟨[], rfl, by simp, Nat.le_refl _, fun i hi => absurd hi (Nat.not_lt_zero i)⟩
  | succ m ih =>
    obtain ⟨queue, hqueue, hsound, hcount, hcov⟩ := ih (by omega)
    obtain ⟨queue', hadd, hsub, hsound', hcount', hcov'⟩ :=
      addBigram_seed hranks hlen (m := m) (by omega) hsound
    refine ⟨queue', ?_, hsound', by omega, ?_⟩
    · rw [List.range'_1_concat]
      exact foldlM_concat hqueue hadd
    · intro i hi
      by_cases him : i = m
      · subst him
        exact hcov'
      · exact (hcov i (by omega)).mono hsub

theorem seedQueue_greedy {t : Tokenizer} (hranks : t.RanksFit) {word : List Char}
    (hlen : word.length ≤ 2 ^ 31) :
    ∃ queue, t.seedQueue (symbolChain word) = some queue ∧ HeapInv t (symbolChain word) queue ∧
      queue.length ≤ word.length := by
  obtain ⟨queue, hqueue, hsound, hcount, hcov⟩ :=
    seedQueue_upTo hranks hlen (word.length - 1) (Nat.le_refl _)
  refine ⟨queue, ?_, ⟨?_, ?_, hsound, ?_⟩, by omega⟩
  · rw [Tokenizer.seedQueue, symbolChain_length]
    exact hqueue
  · exact fun i s hs => (symbolChain_links hlen hs).1
  · exact fun i s hs => (symbolChain_links hlen hs).2
  · intro i j l r rank hl hr hadj hrank
    obtain rfl := symbolChain_adjacent hadj
    have hj := hadj.2.1
    rw [symbolChain_length] at hj
    exact hcov i (by omega) l r rank hl hr hadj hrank

/-! ## The word -/

namespace Tokenizer

/-- The symbols that `bpe_merge_word` emits. -/
def mergedSymbols (t : Tokenizer) (word : List Char) : Option (List (List Char)) := do
  let symbols := symbolChain word
  let queue ← t.seedQueue symbols
  let symbols ← t.mergeLoop (4 * word.length + 1) symbols queue
  some (liveTexts symbols)

/-- What one of them is as tokens. -/
def emitText (t : Tokenizer) (text : List Char) : List ℕ :=
  match t.tokenToId text with
  | some tok => [tok]
  | none => (utf8 text).flatMap fun b => (t.tokenToId [Char.ofNat b.toNat]).toList

theorem flatMap_emitSymbol (t : Tokenizer) (symbols : List Symbol) :
    symbols.flatMap t.emitSymbol = (liveTexts symbols).flatMap t.emitText := by
  induction symbols with
  | nil => rfl
  | cons s symbols ih =>
    rw [List.flatMap_cons, ih]
    by_cases hn : s.n = 0
    · rw [liveTexts_cons_dead hn, emitSymbol, if_pos hn]
      rfl
    · rw [liveTexts_cons hn, List.flatMap_cons, emitSymbol, if_neg hn]
      rfl

theorem bpeMergeWord_eq (t : Tokenizer) (word : List Char) :
    t.bpeMergeWord word = (t.mergedSymbols word).map (·.flatMap t.emitText) := by
  unfold bpeMergeWord mergedSymbols
  simp only [Option.bind_eq_bind]
  cases t.seedQueue (symbolChain word) with
  | none => rfl
  | some queue =>
    simp only [Option.bind_some]
    cases t.mergeLoop (4 * word.length + 1) (symbolChain word) queue with
    | none => rfl
    | some symbols => exact congrArg some (t.flatMap_emitSymbol symbols)

theorem mergedSymbols_greedy {t : Tokenizer}
    (hranks : t.RanksFit) {word : List Char}
    (hlen : word.length ≤ 2 ^ 31) :
    t.mergedSymbols word = some (greedyMerge t.bpeRanks (word.map fun c => [c])) := by
  obtain ⟨queue, hqueue, hinv, hcount⟩ := seedQueue_greedy hranks hlen
  have hlive : live (symbolChain word) = word.length := by
    rw [← liveTexts_length, liveTexts_symbolChain, List.length_map]
  obtain ⟨symbols, hloop, htexts⟩ :=
    mergeLoop_greedy hranks hinv (show _ < 4 * word.length + 1 by omega)
  rw [liveTexts_symbolChain] at htexts
  simp only [mergedSymbols, hqueue, hloop, htexts, Option.bind_eq_bind, Option.bind_some]

theorem mergedSymbols_none {t : Tokenizer} {word : List Char} (hlen : 2 ^ 31 < word.length) :
    t.mergedSymbols word = none := by
  have hseed : t.seedQueue (symbolChain word) = none :=
    seedQueue_none (by rwa [symbolChain_length])
  simp only [mergedSymbols, hseed, Option.bind_eq_bind, Option.bind_none]

/-- **The queue merges greedily**, exactly the words whose positions are `i32`. -/
theorem mergedSymbols_greedy_iff {t : Tokenizer}
    (hranks : t.RanksFit) (word : List Char) :
    t.mergedSymbols word = some (greedyMerge t.bpeRanks (word.map fun c => [c])) ∧
        t.bpeMergeWord word =
          some ((greedyMerge t.bpeRanks (word.map fun c => [c])).flatMap t.emitText) ↔
      word.length ≤ 2 ^ 31 := by
  constructor
  · intro ⟨h, _⟩
    by_contra hlen
    rw [mergedSymbols_none (Nat.lt_of_not_le hlen)] at h
    cases h
  · intro hlen
    have h := mergedSymbols_greedy hranks hlen
    refine ⟨h, ?_⟩
    rw [bpeMergeWord_eq, h]
    rfl

/-! ## A table with an overlap -/

/-- Merges `b a`, then `a b` and `ba b`. -/
def overlapping : Tokenizer where
  idToToken := []
  tokenToId _ := none
  attrs := []
  bpeRanks x y :=
    if y = ['a'] then if x = ['b'] then some 0 else none
    else if y = ['b'] then if x = ['a'] ∨ x = ['b', 'a'] then some 1 else none
    else none
  specialTokens := []
  bosId := none
  addBos := false
  pre := "qwen35"
  attrs_length := rfl
  special _ h := by cases h

theorem overlapping_ranksFit : overlapping.RanksFit := by
  intro x y rank h
  simp only [overlapping] at h
  split at h
  · split at h
    · cases h
      decide
    · cases h
  · split at h
    · split at h
      · cases h
        decide
      · cases h
    · cases h

/-- The bigram of the first two symbols is outdated when it is popped. -/
example : overlapping.mergedSymbols "abab".toList = some ["a".toList, "bab".toList] := by
  decide +kernel

theorem mergedSymbols_greedy_abab :
    overlapping.mergedSymbols "abab".toList =
        some (greedyMerge overlapping.bpeRanks ("abab".toList.map fun c => [c])) ∧
      overlapping.bpeMergeWord "abab".toList =
        some ((greedyMerge overlapping.bpeRanks ("abab".toList.map fun c => [c])).flatMap
          overlapping.emitText) :=
  (mergedSymbols_greedy_iff overlapping_ranksFit "abab".toList).2 (by decide)

theorem not_mergedSymbols_greedy : ¬ ∀ (t : Tokenizer) (word : List Char), t.RanksFit →
    t.mergedSymbols word = some (greedyMerge t.bpeRanks (word.map fun c => [c])) := by
  intro h
  have hlong : overlapping.mergedSymbols (List.replicate (2 ^ 31 + 1) 'a') = none :=
    mergedSymbols_none (by rw [List.length_replicate]; exact Nat.lt_succ_self _)
  have hgreedy := h overlapping (List.replicate (2 ^ 31 + 1) 'a') overlapping_ranksFit
  rw [hlong] at hgreedy
  cases hgreedy

end Tokenizer

end Memra
