import Memra.Tokenizer.Patterns
import Memra.Tokenizer.Proof.Unicode

/-!
# Runs and white space as patterns

What the two splits share: a run of the code is a repetition (`drop_runEnd`), the last line end that it
finds in white space is where `\s*[\r\n]+` stops giving symbols back (`first_newline`), and the three
alternatives for white space end where the code ends (`first_spaceAlts`).
-/

namespace Memra

open Lib Lib.Regex

theorem drop_takeWhile_length {α : Type} (p : α → Bool) (xs : List α) :
    xs.drop (xs.takeWhile p).length = xs.dropWhile p := by
  induction xs with
  | nil => rfl
  | cons x xs ih =>
    by_cases hx : p x = true
    · rw [List.takeWhile_cons_of_pos hx, List.dropWhile_cons_of_pos hx, List.length_cons,
        List.drop_succ_cons, ih]
    · rw [List.takeWhile_cons_of_neg hx, List.dropWhile_cons_of_neg hx]
      rfl

/-- A run of the code, in a window of the text, is a repetition of the pattern. -/
theorem drop_runEnd (f : Char → ℕ) (p : ℕ → Bool) (text : List Char) (stop pos : ℕ) :
    (text.take stop).drop (runEnd p (text.map f) stop pos) =
      ((text.take stop).drop pos).dropWhile fun c => p (f c) := by
  have hrun : ((((text.map f).take stop).drop pos).takeWhile p).length =
      (((text.take stop).drop pos).takeWhile fun c => p (f c)).length := by
    rw [← List.map_take, ← List.map_drop, List.takeWhile_map, List.length_map]
    rfl
  unfold runEnd
  rw [hrun, ← List.drop_drop, drop_takeWhile_length]

/-! ## The last line end -/

theorem lastEndRn_foldl (ws : List ℕ) (pos last : ℕ) :
    (ws.zipIdx pos).foldl (fun last c => if isNewline c.1 then c.2 + 1 else last) last =
      if lastEndRn ws pos > 0 then lastEndRn ws pos else last := by
  unfold lastEndRn
  induction ws generalizing pos last with
  | nil => rfl
  | cons c ws ih =>
    rw [List.zipIdx_cons, List.foldl_cons, List.foldl_cons]
    dsimp only
    rw [ih, ih (pos + 1) (if isNewline c = true then pos + 1 else 0)]
    split
    · rfl
    · split <;> simp

theorem lastEndRn_cons (c : ℕ) (ws : List ℕ) (pos : ℕ) :
    lastEndRn (c :: ws) pos =
      if lastEndRn ws (pos + 1) > 0 then lastEndRn ws (pos + 1)
      else if isNewline c then pos + 1 else 0 :=
  lastEndRn_foldl ws (pos + 1) _

section
variable {f : Char → ℕ} {space newline : Char → Bool}
  (hnl : ∀ c, newline c = isNewline (f c)) (hsub : ∀ c, newline c = true → space c = true)
include hnl hsub

/-- `\s*[\r\n]+` stops behind the last line end in the white space. -/
theorem first_newline (xs : List Char) (pos : ℕ) :
    (seq (star space) (plus newline)).first xs =
      if lastEndRn ((xs.takeWhile space).map f) pos > 0 then
        some (xs.drop (lastEndRn ((xs.takeWhile space).map f) pos - pos))
      else none := by
  induction xs generalizing pos with
  | nil => rfl
  | cons x xs ih =>
    rw [first_star_seq_cons, first_plus_cons]
    by_cases hx : space x = true
    · have hlast := lastEndRn_bounds ((xs.takeWhile space).map f) (pos + 1)
      rw [if_pos hx, ih (pos + 1), List.takeWhile_cons_of_pos hx, List.map_cons, lastEndRn_cons,
        ← hnl]
      split
      · rename_i hpos
        obtain ⟨k, hk⟩ : ∃ k, lastEndRn ((xs.takeWhile space).map f) (pos + 1) = pos + 1 + k :=
          ⟨lastEndRn ((xs.takeWhile space).map f) (pos + 1) - (pos + 1), by omega⟩
        rw [hk, show pos + 1 + k - pos = k + 1 by omega, List.drop_succ_cons,
          Nat.add_sub_cancel_left]
        rfl
      · rename_i hpos
        by_cases hn : newline x = true
        · -- the next symbol is no line end: there is none in the white space behind
          have hstop : xs.dropWhile newline = xs := by
            cases xs with
            | nil => rfl
            | cons y ys =>
              apply List.dropWhile_cons_of_neg
              intro hy
              apply hpos
              rw [List.takeWhile_cons_of_pos (hsub y hy), List.map_cons, lastEndRn_cons]
              split
              · assumption
              · rw [← hnl, if_pos hy]
                exact Nat.succ_pos _
          rw [if_pos hn, if_pos hn, if_pos (Nat.succ_pos _), hstop, Nat.add_sub_cancel_left]
          rfl
        · rw [if_neg hn, if_neg hn]
          rfl
    · have hn : ¬ newline x = true := fun h => hx (hsub x h)
      rw [if_neg hx, if_neg hn, List.takeWhile_cons_of_neg hx]
      rfl

omit hnl in
/-- The alternatives for white space, at a symbol that is none. -/
theorem first_spaceAlts_neg {x : Char} {xs : List Char} (hx : ¬ space x = true) :
    (alts (spaceAlts space newline)).first (x :: xs) = none := by
  have hn : ¬ newline x = true := fun h => hx (hsub x h)
  rw [first_alts]
  unfold spaceAlts
  rw [List.findSome?_cons, first_star_seq_cons, first_plus_cons, if_neg hx, if_neg hn,
    List.findSome?_cons, plus, first_seq_assoc, first_seq_one_cons, if_neg hx, List.findSome?_cons,
    first_seq_one_cons, if_neg hx]
  rfl

/-- The alternatives for white space: the last line end, or all but the last symbol when something
follows, or all of it. -/
theorem first_spaceAlts {x : Char} {xs : List Char} (hx : space x = true) (pos : ℕ) :
    (alts (spaceAlts space newline)).first (x :: xs) =
      some ((x :: xs).drop
        (if lastEndRn (((x :: xs).takeWhile space).map f) pos > 0 then
          lastEndRn (((x :: xs).takeWhile space).map f) pos - pos
        else if 1 < ((x :: xs).takeWhile space).length ∧ (x :: xs).dropWhile space ≠ [] then
          ((x :: xs).takeWhile space).length - 1
        else ((x :: xs).takeWhile space).length)) := by
  rw [first_alts]
  unfold spaceAlts
  rw [List.findSome?_cons, first_newline hnl hsub (x :: xs) pos]
  split
  · rename_i hsome
    split at hsome
    · rename_i hpos
      rw [if_pos hpos, ← hsome]
    · cases hsome
  · rename_i hnone
    split at hnone
    · cases hnone
    · rename_i hpos
      rw [if_neg hpos, List.findSome?_cons, plus, first_seq_assoc, first_seq_one_cons, if_pos hx,
        first_star_notAhead, List.findSome?_singleton, first_seq_one_cons, if_pos hx, first_star,
        List.takeWhile_cons_of_pos hx, List.dropWhile_cons_of_pos hx, List.length_cons]
      by_cases hend : xs.dropWhile space = []
      · rw [if_pos hend, if_neg (fun h => h.2 hend), List.drop_succ_cons, drop_takeWhile_length,
          hend]
      · rw [if_neg hend]
        by_cases hone : xs.takeWhile space = []
        · rw [if_pos hone, hone, if_neg (by simp), ← hone, List.drop_succ_cons,
            drop_takeWhile_length]
        · obtain ⟨n, hn⟩ := Nat.exists_eq_succ_of_ne_zero
            fun h => hone (List.eq_nil_of_length_eq_zero h)
          rw [if_neg hone, hn, if_pos ⟨by omega, hend⟩]
          rfl

end

/-! ## Words and their lengths -/

theorem cutWords_map_length {α : Type} (words : List (List α)) :
    cutWords (words.map List.length) words.flatten = words := by
  induction words with
  | nil => rfl
  | cons word words ih =>
    rw [List.map_cons, cutWords, List.flatten_cons, List.take_left, List.drop_left, ih]

end Memra
