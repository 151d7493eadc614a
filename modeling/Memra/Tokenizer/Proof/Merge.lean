import Memra.Tokenizer.Encode
import Memra.Tokenizer.Proof.Unicode
import Mathlib

/-!
# Merging a word keeps its text

`mergeBigram_spec` is the step: a bigram of the queue either is outdated or joins two symbols with
nothing left between them (`Adjacent`), so that the symbols still spell the word (`mergedChain_text`).
A link may skip positions, but only dead ones, and dead positions stay dead; that carries the links
and the queued bigrams over every step (`Adjacent.mono`). A merge takes one symbol and queues at most
two bigrams, so the loop ends (`mergeLoop_spec`). The positions are `i32`: `seedQueue_none` is the word
whose positions are not.
-/

namespace Memra

open Lib

/-! ## The queue -/

theorem popBigram_eq_none {queue : List Bigram} (h : popBigram queue = none) : queue = [] := by
  cases queue with
  | nil => rfl
  | cons b rest =>
    unfold popBigram at h
    split at h
    · cases h
    · split at h <;> cases h

theorem popBigram_perm {queue rest : List Bigram} {b : Bigram}
    (h : popBigram queue = some (b, rest)) : queue.Perm (b :: rest) := by
  induction queue generalizing b rest with
  | nil => cases h
  | cons a queue ih =>
    unfold popBigram at h
    split at h
    · rename_i hnone
      cases h
      rw [popBigram_eq_none hnone]
    · rename_i m others hsome
      split at h
      · cases h
        exact ((ih hsome).cons a).trans (List.Perm.swap _ _ _)
      · cases h
        exact List.Perm.refl _

/-! ## The chain of symbols -/

/-- The text of the symbols that are not merged away. -/
def liveText (symbols : List Symbol) : List Char :=
  symbols.flatMap fun s => if s.n = 0 then [] else s.text

/-- How many symbols are not merged away. -/
def live (symbols : List Symbol) : ℕ := symbols.countP fun s => s.n ≠ 0

/-- No symbol that is not merged away stands at `k`. -/
def Dead (symbols : List Symbol) (k : ℕ) : Prop := ∀ s, symbols[k]? = some s → s.n = 0

/-- Nothing is left between the positions `i` and `j`. -/
def Adjacent (symbols : List Symbol) (i j : ℕ) : Prop :=
  i < j ∧ j < symbols.length ∧ ∀ k, i < k → k < j → Dead symbols k

/-- Two positions of an `i32` link, each of them possibly `-1`. -/
def Linked (symbols : List Symbol) (left right : ℤ) : Prop :=
  left = -1 ∨ right = -1 ∨ ∃ i j : ℕ, left = i ∧ right = j ∧ Adjacent symbols i j

/-- A character of the byte alphabet, or two pieces that a merge joins. -/
def VocabPiece (t : Tokenizer) (text : List Char) : Prop :=
  (∃ b : UInt8, text = [byteToUnicode b]) ∨ ∃ x y rank, t.bpeRanks x y = some rank ∧ text = x ++ y

/-- A bigram that is outdated or is one of neighbours. -/
def Bigram.Fits (t : Tokenizer) (symbols : List Symbol) (b : Bigram) : Prop :=
  (∃ i j : ℕ, b.left = i ∧ b.right = j ∧ Adjacent symbols i j) ∧ VocabPiece t b.text

/-- A chain of symbols for `word`. -/
structure SymbolChain (t : Tokenizer) (word : List Char) (symbols : List Symbol) : Prop where
  text : liveText symbols = word
  next : ∀ (i : ℕ) (s : Symbol), symbols[i]? = some s → Linked symbols i s.next
  prev : ∀ (i : ℕ) (s : Symbol), symbols[i]? = some s → Linked symbols s.prev i
  piece : ∀ s ∈ symbols, s.n ≠ 0 → VocabPiece t s.text

theorem symAt_natCast (symbols : List Symbol) (i : ℕ) : symAt symbols i = symbols[i]? := by
  rw [symAt, if_neg (by omega), Int.toNat_natCast]

theorem Adjacent.left_lt {symbols : List Symbol} {i j : ℕ} (h : Adjacent symbols i j) :
    i < symbols.length := Nat.lt_trans h.1 h.2.1

/-- Adjacent positions stay so while symbols only die. -/
theorem Adjacent.mono {symbols symbols' : List Symbol} (hlen : symbols'.length = symbols.length)
    (hdead : ∀ k, Dead symbols k → Dead symbols' k) {i j : ℕ} (h : Adjacent symbols i j) :
    Adjacent symbols' i j :=
  ⟨h.1, hlen ▸ h.2.1, fun k hik hkj => hdead k (h.2.2 k hik hkj)⟩

theorem Linked.mono {symbols symbols' : List Symbol} (hlen : symbols'.length = symbols.length)
    (hdead : ∀ k, Dead symbols k → Dead symbols' k) {left right : ℤ}
    (h : Linked symbols left right) : Linked symbols' left right := by
  rcases h with h | h | ⟨i, j, hi, hj, hadj⟩
  · exact .inl h
  · exact .inr (.inl h)
  · exact .inr (.inr ⟨i, j, hi, hj, hadj.mono hlen hdead⟩)

theorem addBigram_spec {t : Tokenizer} {symbols : List Symbol} {left right : ℤ}
    (h : Linked symbols left right) {queue : List Bigram} (hq : ∀ b ∈ queue, b.Fits t symbols) :
    ∃ queue', t.addBigram symbols left right queue = some queue' ∧
      (∀ b ∈ queue', b.Fits t symbols) ∧ queue'.length ≤ queue.length + 1 := by
  by_cases hend : left = -1 ∨ right = -1
  · exact ⟨queue, by simp [Tokenizer.addBigram, hend], hq, Nat.le_succ _⟩
  · rcases h with h | h | ⟨i, j, rfl, rfl, hadj⟩
    · exact absurd (.inl h) hend
    · exact absurd (.inr h) hend
    · obtain ⟨l, hi⟩ : ∃ l, symbols[i]? = some l := ⟨_, List.getElem?_eq_getElem hadj.left_lt⟩
      obtain ⟨r, hj⟩ : ∃ r, symbols[j]? = some r := ⟨_, List.getElem?_eq_getElem hadj.2.1⟩
      simp only [Tokenizer.addBigram, if_neg hend, symAt_natCast, hi, hj, Option.bind_eq_bind,
        Option.bind_some]
      split
      · exact ⟨queue, rfl, hq, Nat.le_succ _⟩
      · rename_i hrank
        refine ⟨_, rfl, ?_, by simp⟩
        intro b hb
        rcases List.mem_append.1 hb with hb | hb
        · exact hq b hb
        · rw [List.mem_singleton.1 hb]
          refine ⟨⟨i, j, rfl, rfl, hadj⟩, ?_⟩
          cases hr : t.bpeRanks l.text r.text with
          | none => simp [hr] at hrank
          | some rank => exact .inr ⟨_, _, rank, hr, rfl⟩

/-! ## One merge -/

theorem liveText_eq (symbols : List Symbol) : liveText symbols =
    (symbols.map fun s => (s.text, s.n)).flatMap fun s => if s.2 = 0 then [] else s.1 := by
  rw [List.flatMap_map]
  rfl

theorem live_eq (symbols : List Symbol) : live symbols =
    (symbols.map fun s => (s.text, s.n)).countP fun s => s.2 ≠ 0 := by
  rw [List.countP_map]
  rfl

/-- Symbols that agree in text and in number of characters. -/
theorem liveText_congr {symbols symbols' : List Symbol}
    (h : symbols'.map (fun s => (s.text, s.n)) = symbols.map fun s => (s.text, s.n)) :
    liveText symbols' = liveText symbols ∧ live symbols' = live symbols := by
  rw [liveText_eq, liveText_eq, live_eq, live_eq, h]
  exact ⟨rfl, rfl⟩

/-- A list around two of its positions. -/
theorem eq_around {α : Type} {xs : List α} {i j : ℕ} {x y : α} (hij : i < j)
    (hi : xs[i]? = some x) (hj : xs[j]? = some y) :
    ∃ A M B, xs = A ++ x :: (M ++ y :: B) ∧ A.length = i ∧ i + 1 + M.length = j := by
  obtain ⟨hilt, rfl⟩ := List.getElem?_eq_some_iff.1 hi
  obtain ⟨hjlt, rfl⟩ := List.getElem?_eq_some_iff.1 hj
  refine ⟨xs.take i, (xs.drop (i + 1)).take (j - (i + 1)), xs.drop (j + 1), ?_, ?_, ?_⟩
  · have hmid : (xs.drop (i + 1)).take (j - (i + 1)) ++ xs[j] :: xs.drop (j + 1) =
        xs.drop (i + 1) := by
      rw [← List.drop_eq_getElem_cons hjlt]
      have hdrop : xs.drop j = (xs.drop (i + 1)).drop (j - (i + 1)) := by
        rw [List.drop_drop]
        congr 1
        omega
      rw [hdrop, List.take_append_drop]
    rw [hmid, ← List.drop_eq_getElem_cons hilt, List.take_append_drop]
  · rw [List.length_take]
    omega
  · rw [List.length_take, List.length_drop]
    omega

theorem set_around {α : Type} (A M B : List α) (x y x' y' : α) :
    ((A ++ x :: (M ++ y :: B)).set A.length x').set (A.length + 1 + M.length) y' =
      A ++ x' :: (M ++ y' :: B) := by
  rw [List.set_append_right _ _ (Nat.le_refl _), Nat.sub_self, List.set_cons_zero,
    List.set_append_right _ _ (by omega),
    show A.length + 1 + M.length - A.length = M.length + 1 by omega, List.set_cons_succ,
    List.set_append_right _ _ (Nat.le_refl _), Nat.sub_self, List.set_cons_zero]

/-- What the merge of `r` into its left neighbour `l` makes of the chain, links back aside. -/
def mergedChain (symbols : List Symbol) (i j : ℕ) (l r : Symbol) : List Symbol :=
  (symbols.set i { l with text := l.text ++ r.text, n := l.n + r.n, next := r.next }).set j
    { r with n := 0 }

section

variable {t : Tokenizer} {word : List Char} {symbols : List Symbol} {i j : ℕ} {l r : Symbol}

theorem mergedChain_getElem? (hadj : Adjacent symbols i j) (k : ℕ) :
    (mergedChain symbols i j l r)[k]? =
      if k = j then some { r with n := 0 }
      else if k = i then
        some { l with text := l.text ++ r.text, n := l.n + r.n, next := r.next }
      else symbols[k]? := by
  have hi := hadj.left_lt
  have hj := hadj.2.1
  unfold mergedChain
  rw [List.getElem?_set]
  by_cases hkj : k = j
  · subst hkj
    simp [hj]
  · rw [if_neg (Ne.symm hkj), if_neg hkj, List.getElem?_set]
    by_cases hki : k = i
    · subst hki
      simp [hi]
    · rw [if_neg (Ne.symm hki), if_neg hki]

theorem mergedChain_dead (hadj : Adjacent symbols i j) (hi : symbols[i]? = some l) (hl : l.n ≠ 0)
    {k : ℕ} (h : Dead symbols k) : Dead (mergedChain symbols i j l r) k := by
  intro s hs
  rw [mergedChain_getElem? hadj] at hs
  split at hs
  · cases hs
    rfl
  · split at hs
    · rename_i hki
      subst hki
      exact absurd (h l hi) hl
    · exact h s hs

theorem mergedChain_text (hadj : Adjacent symbols i j) (hi : symbols[i]? = some l)
    (hj : symbols[j]? = some r) (hl : l.n ≠ 0) (hr : r.n ≠ 0) :
    liveText (mergedChain symbols i j l r) = liveText symbols ∧
      live (mergedChain symbols i j l r) + 1 = live symbols := by
  obtain ⟨A, M, B, hsymbols, hA, hM⟩ := eq_around hadj.1 hi hj
  have hmid : ∀ s ∈ M, s.n = 0 := by
    intro s hs
    obtain ⟨m, hm⟩ := List.mem_iff_getElem?.1 hs
    have hlt := (List.getElem?_eq_some_iff.1 hm).1
    apply hadj.2.2 (i + 1 + m) (by omega) (by omega)
    rw [hsymbols, List.getElem?_append_right (by omega),
      show i + 1 + m - A.length = m + 1 by omega, List.getElem?_cons_succ,
      List.getElem?_append_left hlt, hm]
  have htext : liveText M = [] := by
    apply List.flatMap_eq_nil_iff.2
    intro s hs
    rw [if_pos (hmid s hs)]
  have hmerged : mergedChain symbols i j l r =
      A ++ { l with text := l.text ++ r.text, n := l.n + r.n, next := r.next } ::
        (M ++ { r with n := 0 } :: B) := by
    subst hA hM
    rw [mergedChain, hsymbols, set_around]
  have hsum : l.n + r.n ≠ 0 := by omega
  rw [hmerged, hsymbols]
  unfold liveText live at *
  constructor
  · simp [htext, hl, hr]
  · simp [hl, hr]
    omega

/-- Past a dead position. -/
theorem Adjacent.trans {symbols : List Symbol} {i j k : ℕ} (h : Adjacent symbols i j)
    (hk : Adjacent symbols j k) (hdead : Dead symbols j) : Adjacent symbols i k := by
  refine ⟨Nat.lt_trans h.1 hk.1, hk.2.1, fun m him hmk => ?_⟩
  rcases Nat.lt_trichotomy m j with hlt | rfl | hgt
  · exact h.2.2 m him hlt
  · exact hdead
  · exact hk.2.2 m hgt hmk

theorem mergedChain_next (h : SymbolChain t word symbols) (hadj : Adjacent symbols i j)
    (hi : symbols[i]? = some l) (hj : symbols[j]? = some r) (hl : l.n ≠ 0) :
    Linked (mergedChain symbols i j l r) i r.next := by
  have hlen : (mergedChain symbols i j l r).length = symbols.length := by simp [mergedChain]
  have hdead : ∀ k, Dead symbols k → Dead (mergedChain symbols i j l r) k := fun k hk =>
    mergedChain_dead hadj hi hl hk
  have hjdead : Dead (mergedChain symbols i j l r) j := by
    intro s hs
    rw [mergedChain_getElem? hadj, if_pos rfl] at hs
    cases hs
    rfl
  rcases h.next j r hj with hneg | hneg | ⟨j', k, hj', hk, hjk⟩
  · omega
  · exact .inr (.inl hneg)
  · obtain rfl : j = j' := by omega
    exact .inr (.inr ⟨i, k, rfl, hk, (hadj.mono hlen hdead).trans (hjk.mono hlen hdead) hjdead⟩)

theorem SymbolChain.merge (h : SymbolChain t word symbols) (hadj : Adjacent symbols i j)
    (hi : symbols[i]? = some l) (hj : symbols[j]? = some r) (hl : l.n ≠ 0) (hr : r.n ≠ 0)
    (hpiece : VocabPiece t (l.text ++ r.text)) : SymbolChain t word (mergedChain symbols i j l r) := by
  have hlen : (mergedChain symbols i j l r).length = symbols.length := by simp [mergedChain]
  have hdead : ∀ k, Dead symbols k → Dead (mergedChain symbols i j l r) k := fun k hk =>
    mergedChain_dead hadj hi hl hk
  constructor
  · rw [(mergedChain_text hadj hi hj hl hr).1, h.text]
  · intro k s hs
    rw [mergedChain_getElem? hadj] at hs
    split at hs
    · rename_i hkj
      cases hs
      exact ((hkj ▸ h.next j r hj).mono hlen hdead)
    · split at hs
      · rename_i hki
        cases hs
        subst hki
        exact mergedChain_next h hadj hi hj hl
      · exact (h.next k s hs).mono hlen hdead
  · intro k s hs
    rw [mergedChain_getElem? hadj] at hs
    split at hs
    · rename_i hkj
      cases hs
      exact ((hkj ▸ h.prev j r hj).mono hlen hdead)
    · split at hs
      · rename_i hki
        cases hs
        exact ((hki ▸ h.prev i l hi).mono hlen hdead)
      · exact (h.prev k s hs).mono hlen hdead
  · intro s hs hn
    obtain ⟨k, hk⟩ := List.mem_iff_getElem?.1 hs
    rw [mergedChain_getElem? hadj] at hk
    split at hk
    · cases hk
      exact absurd rfl hn
    · split at hk
      · cases hk
        exact hpiece
      · exact h.piece s (List.mem_of_getElem? hk) hn

end

/-- Setting a link back. -/
theorem SymbolChain.setPrev {t : Tokenizer} {word : List Char} {symbols : List Symbol}
    (h : SymbolChain t word symbols) {i : ℕ} {m : ℤ} (hm : Linked symbols i m) :
    ∃ symbols', setPrev symbols m i = some symbols' ∧ SymbolChain t word symbols' ∧
      live symbols' = live symbols ∧ symbols'.length = symbols.length ∧
      (∀ k, Dead symbols k → Dead symbols' k) := by
  rcases hm with hneg | rfl | ⟨i', j, hi', rfl, hadj⟩
  · omega
  · exact ⟨symbols, rfl, h, rfl, rfl, fun _ hk => hk⟩
  · obtain rfl : i = i' := by omega
    obtain ⟨s, hs⟩ : ∃ s, symbols[j]? = some s := ⟨_, List.getElem?_eq_getElem hadj.2.1⟩
    have hset : Memra.setPrev symbols j i = some (symbols.set j { s with prev := i }) := by
      rw [Memra.setPrev, if_pos (by omega), symAt_natCast, hs, Int.toNat_natCast]
      rfl
    have hget : ∀ k, (symbols.set j { s with prev := (i : ℤ) })[k]? =
        if j = k then some { s with prev := (i : ℤ) } else symbols[k]? := by
      intro k
      rw [List.getElem?_set]
      simp [hadj.2.1]
    have hsame : (symbols.set j { s with prev := (i : ℤ) }).map (fun s => (s.text, s.n)) =
        symbols.map fun s => (s.text, s.n) := by
      rw [List.map_set]
      apply List.ext_getElem?
      intro k
      rw [List.getElem?_set]
      split
      · rename_i hjk
        subst hjk
        rw [List.getElem?_map, hs]
        simp [hadj.2.1]
      · rfl
    obtain ⟨htext, hlive⟩ := liveText_congr hsame
    have hlen : (symbols.set j { s with prev := (i : ℤ) }).length = symbols.length :=
      List.length_set
    have hdead : ∀ k, Dead symbols k → Dead (symbols.set j { s with prev := (i : ℤ) }) k := by
      intro k hk s' hs'
      rw [hget] at hs'
      split at hs'
      · rename_i hjk
        subst hjk
        cases hs'
        exact hk s hs
      · exact hk s' hs'
    refine ⟨_, hset, ⟨htext.trans h.text, ?_, ?_, ?_⟩, hlive, hlen, hdead⟩
    · intro k s' hs'
      rw [hget] at hs'
      split at hs'
      · rename_i hjk
        subst hjk
        cases hs'
        exact (h.next j s hs).mono hlen hdead
      · exact (h.next k s' hs').mono hlen hdead
    · intro k s' hs'
      rw [hget] at hs'
      split at hs'
      · rename_i hjk
        subst hjk
        cases hs'
        exact .inr (.inr ⟨i, j, rfl, rfl, hadj.mono hlen hdead⟩)
      · exact (h.prev k s' hs').mono hlen hdead
    · intro s' hs' hn
      obtain ⟨k, hk⟩ := List.mem_iff_getElem?.1 hs'
      rw [hget] at hk
      split at hk
      · cases hk
        exact h.piece s (List.mem_of_getElem? hs) hn
      · exact h.piece s' (List.mem_of_getElem? hk) hn

/-! ## The merge loop -/

theorem Bigram.Fits.mono {t : Tokenizer} {symbols symbols' : List Symbol} {b : Bigram}
    (h : b.Fits t symbols) (hlen : symbols'.length = symbols.length)
    (hdead : ∀ k, Dead symbols k → Dead symbols' k) : b.Fits t symbols' := by
  obtain ⟨⟨i, j, hi, hj, hadj⟩, hpiece⟩ := h
  exact ⟨⟨i, j, hi, hj, hadj.mono hlen hdead⟩, hpiece⟩

/-- **One bigram out of the queue**: the chain keeps its text, and of the symbols left and the bigrams
queued a weighted sum does not grow. -/
theorem mergeBigram_spec {t : Tokenizer} {word : List Char} {symbols : List Symbol}
    {b : Bigram} {queue : List Bigram} (h : SymbolChain t word symbols) (hb : b.Fits t symbols)
    (hq : ∀ b ∈ queue, b.Fits t symbols) :
    ∃ symbols' queue', t.mergeBigram symbols b queue = some (symbols', queue') ∧
      SymbolChain t word symbols' ∧ (∀ b ∈ queue', b.Fits t symbols') ∧
      3 * live symbols' + queue'.length ≤ 3 * live symbols + queue.length := by
  obtain ⟨⟨i, j, hleft, hright, hadj⟩, hpiece⟩ := hb
  obtain ⟨l, hi⟩ : ∃ l, symbols[i]? = some l := ⟨_, List.getElem?_eq_getElem hadj.left_lt⟩
  obtain ⟨r, hj⟩ : ∃ r, symbols[j]? = some r := ⟨_, List.getElem?_eq_getElem hadj.2.1⟩
  unfold Tokenizer.mergeBigram
  simp only [hleft, hright, symAt_natCast, hi, hj, Option.bind_eq_bind, Option.bind_some,
    Int.toNat_natCast]
  by_cases hdead : l.n = 0 ∨ r.n = 0
  · rw [if_pos hdead]
    exact ⟨_, _, rfl, h, hq, Nat.le_refl _⟩
  · rw [if_neg hdead]
    by_cases hold : l.text ++ r.text ≠ b.text
    · rw [if_pos hold]
      exact ⟨_, _, rfl, h, hq, Nat.le_refl _⟩
    · rw [if_neg hold]
      rw [not_or] at hdead
      rw [ne_eq, not_not] at hold
      have hmerge := h.merge hadj hi hj hdead.1 hdead.2 (hold ▸ hpiece)
      have hlive := (mergedChain_text hadj hi hj hdead.1 hdead.2).2
      obtain ⟨symbols', hset, hchain, hlive', hlen', hdead'⟩ :=
        hmerge.setPrev (mergedChain_next h hadj hi hj hdead.1)
      have hlen : symbols'.length = symbols.length := by
        rw [hlen']
        simp [mergedChain]
      have hshrink : ∀ k, Dead symbols k → Dead symbols' k := fun k hk =>
        hdead' k (mergedChain_dead hadj hi hdead.1 hk)
      obtain ⟨l', hi'⟩ : ∃ l', symbols'[i]? = some l' :=
        ⟨_, List.getElem?_eq_getElem (hlen ▸ hadj.left_lt)⟩
      have hq' : ∀ b ∈ queue, b.Fits t symbols' := fun b hb => (hq b hb).mono hlen hshrink
      obtain ⟨q1, hq1, hfit1, hlen1⟩ := addBigram_spec (hchain.prev i l' hi') hq'
      obtain ⟨q2, hq2, hfit2, hlen2⟩ := addBigram_spec (hchain.next i l' hi') hfit1
      refine ⟨symbols', q2, ?_, hchain, hfit2, by omega⟩
      unfold mergedChain at hset
      rw [hset, Option.bind_some, hi', Option.bind_some, hq1, Option.bind_some, hq2,
        Option.bind_some]

theorem mergeLoop_spec {t : Tokenizer} {word : List Char} {fuel : ℕ} {symbols : List Symbol}
    {queue : List Bigram} (h : SymbolChain t word symbols) (hq : ∀ b ∈ queue, b.Fits t symbols)
    (hfuel : 3 * live symbols + queue.length < fuel) :
    ∃ symbols', t.mergeLoop fuel symbols queue = some symbols' ∧ SymbolChain t word symbols' := by
  induction fuel generalizing symbols queue with
  | zero => exact absurd hfuel (Nat.not_lt_zero _)
  | succ fuel ih =>
    unfold Tokenizer.mergeLoop
    cases hpop : popBigram queue with
    | none => exact ⟨symbols, rfl, h⟩
    | some top =>
      obtain ⟨b, rest⟩ := top
      have hperm := popBigram_perm hpop
      have hlen : queue.length = rest.length + 1 := by rw [hperm.length_eq, List.length_cons]
      have hb : b.Fits t symbols := hq b (hperm.mem_iff.2 List.mem_cons_self)
      have hrest : ∀ b ∈ rest, b.Fits t symbols := fun b hb =>
        hq b (hperm.mem_iff.2 (List.mem_cons_of_mem _ hb))
      obtain ⟨symbols', queue', hstep, hchain, hfits, hle⟩ := mergeBigram_spec h hb hrest
      obtain ⟨final, hloop, hfinal⟩ := ih hchain hfits (by omega)
      refine ⟨final, ?_, hfinal⟩
      simp only [hstep, Option.bind_eq_bind, Option.bind_some, hloop]

/-! ## The chain of a word -/

/-- The cast is the identity below `2 ^ 31`. -/
theorem asI32_of_lt {i : ℤ} (hlo : -2 ^ 31 ≤ i) (hhi : i < 2 ^ 31) : asI32 i = i := by
  unfold asI32
  apply Int.bmod_eq_of_le <;> omega

theorem symbolChain_getElem? (word : List Char) (i : ℕ) :
    (symbolChain word)[i]? = (word[i]?).map fun c =>
      { text := [c]
        prev := asI32 (asI32 i - 1)
        next := if i + 1 = word.length then -1 else asI32 (asI32 i + 1)
        n := 1 } := by
  unfold symbolChain
  rw [List.getElem?_mapIdx]

theorem symbolChain_length (word : List Char) : (symbolChain word).length = word.length := by
  simp [symbolChain]

theorem adjacent_succ {symbols : List Symbol} {i : ℕ} (h : i + 1 < symbols.length) :
    Adjacent symbols i (i + 1) := ⟨Nat.lt_succ_self i, h, fun _ h1 h2 => by omega⟩

theorem symbolChain_chain {t : Tokenizer} {bytes : List UInt8} (h : bytes.length ≤ 2 ^ 31) :
    SymbolChain t (bytes.map byteToUnicode) (symbolChain (bytes.map byteToUnicode)) where
  text := by
    have hsame : (symbolChain (bytes.map byteToUnicode)).map (fun s => (s.text, s.n)) =
        (bytes.map byteToUnicode).map fun c => ([c], 1) := by
      apply List.ext_getElem?
      intro i
      rw [List.getElem?_map, List.getElem?_map, symbolChain_getElem?, Option.map_map]
      rfl
    rw [liveText_eq, hsame, List.flatMap_map]
    simp
  next := by
    intro i s hs
    have hlt := (List.getElem?_eq_some_iff.1 hs).1
    rw [symbolChain_length, List.length_map] at hlt
    rw [symbolChain_getElem?, Option.map_eq_some_iff] at hs
    obtain ⟨c, -, rfl⟩ := hs
    simp only [List.length_map]
    by_cases hend : i + 1 = bytes.length
    · rw [if_pos hend]
      exact .inr (.inl rfl)
    · rw [if_neg hend, asI32_of_lt (i := i) (by omega) (by omega),
        asI32_of_lt (by omega) (by omega)]
      refine .inr (.inr ⟨i, i + 1, rfl, by simp, adjacent_succ ?_⟩)
      rw [symbolChain_length, List.length_map]
      omega
  prev := by
    intro i s hs
    have hlt := (List.getElem?_eq_some_iff.1 hs).1
    rw [symbolChain_length, List.length_map] at hlt
    rw [symbolChain_getElem?, Option.map_eq_some_iff] at hs
    obtain ⟨c, -, rfl⟩ := hs
    simp only
    rw [asI32_of_lt (i := i) (by omega) (by omega), asI32_of_lt (by omega) (by omega)]
    cases i with
    | zero => exact .inl rfl
    | succ i =>
      refine .inr (.inr ⟨i, i + 1, by simp, rfl, adjacent_succ ?_⟩)
      rw [symbolChain_length, List.length_map]
      exact hlt
  piece := by
    intro s hs _
    obtain ⟨i, hi⟩ := List.mem_iff_getElem?.1 hs
    rw [symbolChain_getElem?, Option.map_eq_some_iff] at hi
    obtain ⟨c, hc, rfl⟩ := hi
    rw [List.getElem?_map, Option.map_eq_some_iff] at hc
    obtain ⟨b, -, rfl⟩ := hc
    exact .inl ⟨b, rfl⟩

/-- The queue before any merge: at most one bigram for each position after the first. -/
theorem seedQueue_spec {t : Tokenizer} {symbols : List Symbol} (h : symbols.length ≤ 2 ^ 31) :
    ∃ queue, t.seedQueue symbols = some queue ∧ (∀ b ∈ queue, b.Fits t symbols) ∧
      queue.length ≤ symbols.length := by
  have hfold : ∀ (is : List ℕ), (∀ i ∈ is, 1 ≤ i ∧ i < symbols.length) → ∀ queue : List Bigram,
      (∀ b ∈ queue, b.Fits t symbols) → ∃ queue',
        is.foldlM (fun queue (i : ℕ) =>
          t.addBigram symbols (asI32 (asI32 i - 1)) (asI32 i) queue) queue = some queue' ∧
        (∀ b ∈ queue', b.Fits t symbols) ∧ queue'.length ≤ queue.length + is.length := by
    intro is
    induction is with
    | nil => exact fun _ queue hq => ⟨queue, rfl, hq, Nat.le_refl _⟩
    | cons i is ih =>
      intro his queue hq
      obtain ⟨hpos, hlt⟩ := his i List.mem_cons_self
      have hlink : Linked symbols (asI32 (asI32 i - 1)) (asI32 i) := by
        rw [asI32_of_lt (i := i) (by omega) (by omega), asI32_of_lt (by omega) (by omega)]
        obtain ⟨k, rfl⟩ : ∃ k, i = k + 1 := ⟨i - 1, by omega⟩
        exact .inr (.inr ⟨k, k + 1, by simp, rfl, adjacent_succ hlt⟩)
      obtain ⟨q1, hq1, hfit1, hlen1⟩ := addBigram_spec hlink hq
      obtain ⟨q2, hq2, hfit2, hlen2⟩ := ih (fun i hi => his i (List.mem_cons_of_mem _ hi)) q1 hfit1
      refine ⟨q2, ?_, hfit2, ?_⟩
      · rw [List.foldlM_cons, hq1]
        exact hq2
      · rw [List.length_cons]
        omega
  obtain ⟨queue, hqueue, hfit, hlen⟩ :=
    hfold (List.range' 1 (symbols.length - 1))
      (fun i hi => by rw [List.mem_range'_1] at hi; omega) [] (by simp)
  refine ⟨queue, hqueue, hfit, ?_⟩
  rw [List.length_range', List.length_nil] at hlen
  omega

/-- A step of a fold that fails whatever it is handed makes the fold fail. -/
theorem foldlM_eq_none {α β : Type} {f : β → α → Option β} {l : List α} {a : α} (ha : a ∈ l)
    (hf : ∀ b, f b a = none) (b : β) : l.foldlM f b = none := by
  induction l generalizing b with
  | nil => cases ha
  | cons x l ih =>
    rw [List.foldlM_cons]
    rcases List.mem_cons.1 ha with rfl | ha
    · rw [hf]
      rfl
    · cases f b x with
      | none => rfl
      | some b' => exact ih ha b'

/-- The bigram at position `2 ^ 31` looks behind the list. -/
theorem seedQueue_none {t : Tokenizer} {symbols : List Symbol} (h : 2 ^ 31 < symbols.length) :
    t.seedQueue symbols = none := by
  have hmem : 2 ^ 31 ∈ List.range' 1 (symbols.length - 1) := by
    rw [List.mem_range'_1]
    omega
  apply foldlM_eq_none hmem
  intro queue
  have hleft : asI32 (asI32 ((2 ^ 31 : ℕ) : ℤ) - 1) = 2 ^ 31 - 1 := by decide +kernel
  have hright : asI32 ((2 ^ 31 : ℕ) : ℤ) = -2 ^ 31 := by decide +kernel
  rw [hleft, hright, Tokenizer.addBigram, if_neg (by omega)]
  have hnone : symAt symbols (-2 ^ 31) = none := if_pos (by omega)
  rw [hnone]
  cases symAt symbols (2 ^ 31 - 1) <;> rfl

end Memra
