import Memra.Tokenizer.Proof.Patterns

/-!
# The deepseek-v3 split is its three patterns

A matcher of the code `Finds` what an expression finds in every window; a pass with it then splits each
word of the last pass by the expression (`splitPass_eq`). The lookahead of white space sees the end of
the window as the end of the text, in the code and in the pattern.
-/

namespace Memra

open Lib Lib.Regex CptFlags

/-! ## One pass -/

section
variable {text : List Char} {matcher : ℕ → ℕ → Option ℕ} {r : Regex Char}

/-- In every window of the text the matcher ends where the expression ends. -/
def Finds (text : List Char) (matcher : ℕ → ℕ → Option ℕ) (r : Regex Char) : Prop :=
  ∀ stop pos, pos < stop → stop ≤ text.length →
    r.first ((text.take stop).drop pos) =
      (matcher stop pos).map fun mEnd => (text.take stop).drop mEnd

theorem length_window {stop : ℕ} (hstop : stop ≤ text.length) (pos : ℕ) :
    ((text.take stop).drop pos).length = stop - pos := by
  rw [List.length_drop, List.length_take, Nat.min_eq_left hstop]

theorem pushLen_eq (out : List ℕ) (gap : List Char) :
    pushLen out gap.length = out ++ (gapWord gap).map List.length := by
  unfold pushLen gapWord
  by_cases h : gap = []
  · rw [if_pos h, h, if_neg (by simp), List.map_nil, List.append_nil]
  · rw [if_neg h, if_pos (List.length_pos_of_ne_nil h)]
    rfl

theorem gap_length (gap : ℕ) {pos : ℕ} (hpos : pos ≤ text.length) :
    ((text.take pos).drop gap).length = pos - gap := length_window hpos gap

/-- The scan of a window pushes the lengths of its words. -/
theorem scanWindow_eq (hf : Finds text matcher r) (hm : Bounded matcher) {stop : ℕ} {out : List ℕ}
    {gap pos : ℕ} (hgap : gap ≤ pos) (hpos : pos ≤ stop) (hstop : stop ≤ text.length) :
    scanWindow matcher stop out gap pos = out ++
      (r.splitFrom ((text.take pos).drop gap) ((text.take stop).drop pos)).map List.length := by
  -- a position that nothing matches joins the gap
  have hskip : ∀ {gap pos : ℕ}, gap ≤ pos → pos < stop → r.match? ((text.take stop).drop pos) = none →
      r.splitFrom ((text.take pos).drop gap) ((text.take stop).drop pos) =
        r.splitFrom ((text.take (pos + 1)).drop gap) ((text.take stop).drop (pos + 1)) := by
    intro gap pos hgap hlt hnone
    have hlen : pos < (text.take stop).length := by
      rw [List.length_take, Nat.min_eq_left hstop]
      exact hlt
    have hin : pos < text.length := by omega
    rw [List.drop_eq_getElem_cons hlen] at hnone ⊢
    rw [splitFrom_of_none hnone, List.getElem_take, List.take_succ_eq_append_getElem hin,
      List.drop_append_of_le_length (by rw [List.length_take, Nat.min_eq_left hin.le]; exact hgap)]
  fun_induction scanWindow matcher stop out gap pos with
  | case1 out gap pos hlt mEnd hsome hgt ih =>
    have hle : mEnd ≤ stop := hm stop pos mEnd hlt hsome
    have hfirst := hf stop pos hlt hstop
    rw [hsome, Option.map_some] at hfirst
    have hmatch := match?_of_first hfirst (by
      rw [length_window hstop, length_window hstop]
      omega)
    have hempty : (text.take mEnd).drop mEnd = [] :=
      List.drop_eq_nil_of_le (List.length_take_le _ _)
    rw [ih (Nat.le_refl _) hle, splitFrom_of_match hmatch, hempty,
      ← gap_length gap (Nat.le_trans hpos hstop), pushLen_eq, List.map_append,
      List.map_cons, List.length_take, length_window hstop, length_window hstop]
    unfold pushLen
    rw [if_pos (by omega), show min (stop - pos - (stop - mEnd)) (stop - pos) = mEnd - pos by omega,
      List.append_assoc, List.append_assoc]
    rfl
  | case2 out gap pos hlt mEnd hsome hgt ih =>
    have hfirst := hf stop pos hlt hstop
    rw [hsome, Option.map_some] at hfirst
    have hnone : r.match? ((text.take stop).drop pos) = none := by
      unfold match?
      rw [hfirst, Option.bind_some, if_neg]
      rw [length_window hstop, length_window hstop]
      omega
    rw [ih (by omega) hlt, hskip hgap hlt hnone]
  | case3 out gap pos hlt hnone ih =>
    have hfirst := hf stop pos hlt hstop
    rw [hnone] at hfirst
    rw [ih (by omega) hlt, hskip hgap hlt (match?_of_first_none hfirst)]
  | case4 out gap pos hge =>
    obtain rfl : pos = stop := by omega
    rw [List.drop_eq_nil_of_le (List.length_take_le pos text), splitFrom_nil, ← pushLen_eq,
      gap_length _ hstop]

/-- One turn of a pass, and the rest of it. -/
theorem splitPass_foldl (hf : Finds text matcher r) (hm : Bounded matcher)
    (words : List (List Char)) (out : List ℕ) (start : ℕ) (hat : text.drop start = words.flatten)
    (hstart : start ≤ text.length) :
    ((words.map List.length).foldl
      (fun (acc : List ℕ × ℕ) off =>
        (scanWindow matcher (acc.2 + off) acc.1 acc.2 acc.2, acc.2 + off)) (out, start)).1 =
      out ++ (words.flatMap r.split).map List.length := by
  induction words generalizing out start with
  | nil => exact (List.append_nil out).symm
  | cons word words ih =>
    rw [List.flatten_cons] at hat
    have hlen := congrArg List.length hat
    rw [List.length_drop, List.length_append] at hlen
    have hstop : start + word.length ≤ text.length := by omega
    have hwindow : (text.take (start + word.length)).drop start = word := by
      rw [List.drop_take, hat, Nat.add_sub_cancel_left, List.take_left]
    have hnext : text.drop (start + word.length) = words.flatten := by
      rw [← List.drop_drop, hat, List.drop_left]
    rw [List.map_cons, List.foldl_cons]
    dsimp only
    rw [ih _ _ hnext hstop, scanWindow_eq hf hm (Nat.le_refl _) (Nat.le_add_right _ _) hstop,
      hwindow, List.drop_eq_nil_of_le (List.length_take_le start text), List.flatMap_cons,
      List.map_append, List.append_assoc]
    rfl

/-- A pass splits every word by the expression. -/
theorem splitPass_eq (hf : Finds text matcher r) (hm : Bounded matcher) {words : List (List Char)}
    (hwords : words.flatten = text) :
    splitPass matcher (words.map List.length) = (words.flatMap r.split).map List.length :=
  splitPass_foldl hf hm words [] 0 hwords.symm (Nat.zero_le _)

theorem flatMap_split_flatten (r : Regex Char) (words : List (List Char)) :
    (words.flatMap r.split).flatten = words.flatten := by
  induction words with
  | nil => rfl
  | cons word words ih =>
    rw [List.flatMap_cons, List.flatten_append, ih, split, splitFrom_flatten, List.flatten_cons]
    rfl

end

/-! ## The matchers -/

section
variable {u : UnicodeData} {text : List Char} {stop pos : ℕ} {c : Char} {cs : List Char}

theorem getD_window (f : Char → ℕ) (hat : (text.take stop).drop pos = c :: cs) :
    (text.map f).getD pos 0 = f c := by
  have hget : (text.take stop)[pos]? = some c := by
    rw [← List.head?_drop, hat]
    rfl
  have hlt : pos < stop := by
    by_contra hge
    rw [List.getElem?_eq_none (Nat.le_trans (List.length_take_le stop text) (by omega))] at hget
    cases hget
  rw [List.getElem?_take_of_lt hlt] at hget
  rw [List.getD_eq_getElem?_getD, List.getElem?_map, hget]
  rfl

theorem drop_succ_window (hat : (text.take stop).drop pos = c :: cs) :
    (text.take stop).drop (pos + 1) = cs := by
  rw [← List.tail_drop, hat]
  rfl

/-- The window goes on behind `pos` when something stands there. -/
theorem succ_lt_stop (hat : (text.take stop).drop pos = c :: cs) (hstop : stop ≤ text.length) :
    pos + 1 < stop ↔ cs ≠ [] := by
  have hlen := length_window hstop pos
  rw [hat, List.length_cons] at hlen
  rw [← List.length_pos_iff]
  omega

/-- What the code asks of the symbol behind `pos`, in the window. -/
theorem next_window (f : Char → ℕ) (p : ℕ → Bool) (hat : (text.take stop).drop pos = c :: cs)
    (hstop : stop ≤ text.length) :
    (decide (pos + 1 < stop) && p ((text.map f).getD (pos + 1) 0)) =
      cs.head?.any fun d => p (f d) := by
  have hnext := succ_lt_stop hat hstop
  cases cs with
  | nil =>
    rw [decide_eq_false fun h => hnext.1 h rfl]
    rfl
  | cons d ds =>
    rw [decide_eq_true (hnext.2 (List.cons_ne_nil _ _)), getD_window f (drop_succ_window hat)]
    rfl

theorem window_cons (hlt : pos < stop) (hstop : stop ≤ text.length) :
    ∃ c cs, (text.take stop).drop pos = c :: cs := by
  apply List.exists_cons_of_ne_nil
  intro hnil
  have hlen := length_window hstop pos
  rw [hnil, List.length_nil] at hlen
  omega

/-- Pass 1. -/
theorem matchNumber_finds (u : UnicodeData) (text : List Char) :
    Finds text (matchNumber (text.map fun c => collapseCpt u c.toNat)) (numberRegex u) := by
  intro stop pos hlt hstop
  obtain ⟨c, cs, hat⟩ := window_cons hlt hstop
  have hrun : ((text.take (min stop (pos + 3))).drop (pos + 1)) = cs.take 2 := by
    rw [Nat.min_comm, ← List.take_take, List.drop_take, drop_succ_window hat,
      show pos + 3 - (pos + 1) = 2 by omega]
  unfold matchNumber numberRegex
  rw [hat, first_seq_one_cons, getD_window (fun c => collapseCpt u c.toNat) hat, first_opt]
  by_cases hc : cIsNumber (collapseCpt u c.toNat) = true
  · rw [if_pos hc, if_pos (by exact hc), Option.map_some]
    unfold runEnd
    rw [← List.map_take, ← List.map_drop, hrun, ← List.drop_drop, drop_succ_window hat,
      List.takeWhile_map, List.length_map]
    cases cs with
    | nil => rfl
    | cons d ds =>
      rw [first_seq_one_cons, first_opt]
      by_cases hd : cIsNumber (collapseCpt u d.toNat) = true
      · rw [if_pos (by exact hd), List.take_succ_cons, List.takeWhile_cons_of_pos (by exact hd)]
        cases ds with
        | nil => rfl
        | cons e es =>
          rw [first_one_cons]
          by_cases he : cIsNumber (collapseCpt u e.toNat) = true
          · rw [if_pos (by exact he), List.take_succ_cons, List.takeWhile_cons_of_pos (by exact he)]
            rfl
          · rw [if_neg (by exact he), List.take_succ_cons, List.takeWhile_cons_of_neg (by exact he)]
            rfl
      · rw [if_neg (by exact hd), List.take_succ_cons, List.takeWhile_cons_of_neg (by exact hd)]
        rfl
  · rw [if_neg hc, if_neg (by exact hc)]
    rfl

/-- Pass 2. -/
theorem matchCjk_finds (text : List Char) :
    Finds text (matchCjk (text.map Char.toNat)) cjkRegex := by
  intro stop pos hlt hstop
  obtain ⟨c, cs, hat⟩ := window_cons hlt hstop
  unfold matchCjk
  rw [hat, cjkRegex, first_plus_cons, getD_window Char.toNat hat]
  split
  · rw [Option.map_some, drop_runEnd, drop_succ_window hat]
  · rfl

/-- The bytes that the collapsed classes are about. -/
theorem cIsSpace_of_newline {b : ℕ} (h : isNewline b = true) : cIsSpace b = true := by
  unfold isNewline at h
  unfold cIsSpace
  simp only [Bool.or_eq_true, beq_iff_eq, Bool.and_eq_true, decide_eq_true_eq] at h ⊢
  omega

/-- `\s*[\r\n]+|\s+(?!\S)|\s+`. -/
theorem first_matchSpace (hat : (text.take stop).drop pos = c :: cs) (hstop : stop ≤ text.length)
    (hsp : cIsSpace (collapseCpt u c.toNat) = true) :
    (alts (spaceAlts (collapsed u cIsSpace) (collapsed u isNewline))).first (c :: cs) =
      some ((text.take stop).drop
        (matchSpace (text.map fun c => collapseCpt u c.toNat) stop pos)) := by
  have hws : (((text.map fun c => collapseCpt u c.toNat).take stop).drop pos).takeWhile cIsSpace =
      ((c :: cs).takeWhile (collapsed u cIsSpace)).map fun c => collapseCpt u c.toNat := by
    rw [← List.map_take, ← List.map_drop, hat, List.takeWhile_map]
    rfl
  have hdrop : ∀ k, (text.take stop).drop (pos + k) = (c :: cs).drop k := by
    intro k
    rw [← hat, List.drop_drop]
  have hpos : 0 < ((c :: cs).takeWhile (collapsed u cIsSpace)).length := by
    rw [List.takeWhile_cons_of_pos (by exact hsp)]
    exact Nat.succ_pos _
  have hrest : (c :: cs).dropWhile (collapsed u cIsSpace) ≠ [] ↔
      pos + ((c :: cs).takeWhile (collapsed u cIsSpace)).length < stop := by
    rw [← drop_takeWhile_length, ← hdrop, ← List.length_pos_iff, length_window hstop]
    omega
  have hlast := lastEndRn_bounds (((c :: cs).takeWhile (collapsed u cIsSpace)).map
    fun c => collapseCpt u c.toNat) pos
  have hsub : ∀ c, collapsed u isNewline c = true → collapsed u cIsSpace c = true :=
    fun c h => cIsSpace_of_newline h
  have hx : collapsed u cIsSpace c = true := hsp
  have hnl : ∀ c, collapsed u isNewline c = isNewline (collapseCpt u c.toNat) := fun _ => rfl
  rw [first_spaceAlts (f := fun c => collapseCpt u c.toNat) hnl hsub hx pos]
  unfold matchSpace
  simp only [hws, List.length_map, hrest]
  rw [← hdrop]
  congr 2
  split
  · omega
  · by_cases hlt : pos + ((c :: cs).takeWhile (collapsed u cIsSpace)).length < stop
    · rw [if_pos hlt]
      by_cases hone : 1 < ((c :: cs).takeWhile (collapsed u cIsSpace)).length
      · rw [if_pos ⟨hone, hlt⟩, if_pos (by omega)]
        omega
      · rw [if_neg fun h => hone h.1, if_neg (by omega)]
        omega
    · rw [if_neg hlt, if_neg fun h => hlt h.2]

/-- A run in the window is not empty when it has its first symbol. -/
theorem lt_runEnd_window (f : Char → ℕ) (p : ℕ → Bool) (hat : (text.take stop).drop pos = c :: cs) :
    pos < runEnd p (text.map f) stop pos ↔ p (f c) = true := by
  unfold runEnd
  rw [← List.map_take, ← List.map_drop, hat, List.map_cons]
  by_cases hp : p (f c) = true
  · rw [List.takeWhile_cons_of_pos hp, List.length_cons]
    exact ⟨fun _ => hp, fun _ => by omega⟩
  · rw [List.takeWhile_cons_of_neg hp]
    exact ⟨fun h => absurd h (Nat.lt_irrefl _), fun h => absurd h hp⟩

/-- The end of the second alternative of the third pass. -/
def letterEnd (coll : List ℕ) (stop pos : ℕ) : Option ℕ :=
  ((letterStart coll stop pos).filter fun start =>
    start < runEnd (fun b => cIsLetter b || cIsMark b) coll stop start).map fun start =>
      runEnd (fun b => cIsLetter b || cIsMark b) coll stop start

/-- The end of the third alternative. -/
def punctEnd (coll : List ℕ) (stop pos : ℕ) : Option ℕ :=
  let start := if coll.getD pos 0 = 0x20 then pos + 1 else pos
  let e := runEnd (fun b => cIsPunct b || cIsSymbol b) coll stop start
  if e > start then some (runEnd isNewline coll stop e) else none

theorem matchWord_eq (coll : List ℕ) (stop pos : ℕ) :
    matchWord coll stop pos =
      if cIsAsciiPunctLit (coll.getD pos 0) &&
          (decide (pos + 1 < stop) && isAsciiAlphabetic (coll.getD (pos + 1) 0)) then
        some (runEnd isAsciiAlphabetic coll stop (pos + 2))
      else (letterEnd coll stop pos).or ((punctEnd coll stop pos).or
        (if cIsSpace (coll.getD pos 0) then some (matchSpace coll stop pos) else none)) := by
  unfold matchWord letterEnd punctEnd
  dsimp only
  rw [Bool.and_assoc]
  split
  · rfl
  · split
    · rename_i hstart
      rw [hstart]
      rfl
    · rename_i hnone
      rw [hnone]
      generalize (if coll.getD pos 0 = 0x20 then pos + 1 else pos) = start
      split <;> rfl

/-- `[^\r\n\p{L}\p{P}\p{S}]?[\p{L}\p{M}]+`. -/
theorem first_letterEnd (hat : (text.take stop).drop pos = c :: cs) (hstop : stop ≤ text.length) :
    (seq (opt (one (collapsed u deepseekLead)))
        (plus (collapsed u fun b => cIsLetter b || cIsMark b))).first (c :: cs) =
      (letterEnd (text.map fun c => collapseCpt u c.toNat) stop pos).map
        ((text.take stop).drop ·) := by
  have hnext := next_window (fun c => collapseCpt u c.toNat) (fun b => cIsLetter b || cIsMark b) hat
    hstop
  have hstart : letterStart (text.map fun c => collapseCpt u c.toNat) stop pos =
      if (deepseekLead (collapseCpt u c.toNat) &&
          cs.head?.any fun d => cIsLetter (collapseCpt u d.toNat) || cIsMark (collapseCpt u d.toNat))
          = true then some (pos + 1)
      else if (cIsLetter (collapseCpt u c.toNat) || cIsMark (collapseCpt u c.toNat)) = true then
        some pos
      else none := by
    unfold letterStart
    rw [getD_window (fun c => collapseCpt u c.toNat) hat, ← hnext, ← Bool.and_assoc]
    rfl
  -- without a lead the run begins here
  have hhere : (plus (collapsed u fun b => cIsLetter b || cIsMark b)).first (c :: cs) =
      (Option.filter (fun start => decide (start < runEnd (fun b => cIsLetter b || cIsMark b)
          (text.map fun c => collapseCpt u c.toNat) stop start))
        (if (cIsLetter (collapseCpt u c.toNat) || cIsMark (collapseCpt u c.toNat)) = true then
          some pos else none)).map fun start =>
        (text.take stop).drop (runEnd (fun b => cIsLetter b || cIsMark b)
          (text.map fun c => collapseCpt u c.toNat) stop start) := by
    have hrun := lt_runEnd_window (fun c => collapseCpt u c.toNat)
      (fun b => cIsLetter b || cIsMark b) hat
    rw [first_plus]
    by_cases hp : (cIsLetter (collapseCpt u c.toNat) || cIsMark (collapseCpt u c.toNat)) = true
    · rw [if_pos (by exact hp), if_pos hp, Option.filter_some, if_pos (decide_eq_true (hrun.2 hp)),
        Option.map_some, drop_runEnd, hat]
      rfl
    · rw [if_neg (by exact hp), if_neg hp]
      rfl
  rw [letterEnd, Option.map_map, hstart, first_seq_opt_cons, first_plus]
  by_cases hlead : deepseekLead (collapseCpt u c.toNat) = true
  · rw [if_pos (by exact hlead), hlead, Bool.true_and]
    cases cs with
    | nil => exact hhere
    | cons d ds =>
      rw [List.head?_cons, Option.any_some, Option.any_some]
      by_cases hd : (cIsLetter (collapseCpt u d.toNat) || cIsMark (collapseCpt u d.toNat)) = true
      · have hrun := (lt_runEnd_window (fun c => collapseCpt u c.toNat)
          (fun b => cIsLetter b || cIsMark b) (drop_succ_window hat)).2 hd
        rw [if_pos (by exact hd), if_pos hd, Option.filter_some, if_pos (decide_eq_true hrun),
          Option.map_some, Function.comp_apply, drop_runEnd, drop_succ_window hat]
        rfl
      · rw [if_neg (by exact hd), if_neg hd]
        exact hhere
  · rw [if_neg (by exact hlead)]
    rw [Bool.not_eq_true] at hlead
    rw [hlead, Bool.false_and, if_neg Bool.false_ne_true]
    exact hhere

/-- ` ?[\p{P}\p{S}]+[\r\n]*`. -/
theorem first_punctEnd (hat : (text.take stop).drop pos = c :: cs) :
    (seq (opt (one (collapsed u fun b => b == 0x20)))
        (seq (plus (collapsed u fun b => cIsPunct b || cIsSymbol b))
          (star (collapsed u isNewline)))).first (c :: cs) =
      (punctEnd (text.map fun c => collapseCpt u c.toNat) stop pos).map
        ((text.take stop).drop ·) := by
  have hdrop : ∀ start, (text.take stop).drop (runEnd isNewline
      (text.map fun c => collapseCpt u c.toNat) stop (runEnd (fun b => cIsPunct b || cIsSymbol b)
        (text.map fun c => collapseCpt u c.toNat) stop start)) =
      (((text.take stop).drop start).dropWhile
        (collapsed u fun b => cIsPunct b || cIsSymbol b)).dropWhile (collapsed u isNewline) := by
    intro start
    rw [drop_runEnd, drop_runEnd]
    rfl
  unfold punctEnd
  rw [getD_window (fun c => collapseCpt u c.toNat) hat, first_seq_opt_cons, first_seq_star,
    first_seq_star, first_plus, first_plus]
  by_cases hsp : collapseCpt u c.toNat = 0x20
  · have hnot : ¬ collapsed u (fun b => cIsPunct b || cIsSymbol b) c = true := by
      unfold collapsed
      rw [hsp]
      decide
    rw [if_pos (by exact beq_iff_eq.2 hsp), if_pos hsp, List.head?_cons, Option.any_some,
      if_neg hnot, Option.map_none, Option.or_none]
    cases cs with
    | nil =>
      have hrun : runEnd (fun b => cIsPunct b || cIsSymbol b)
          (text.map fun c => collapseCpt u c.toNat) stop (pos + 1) = pos + 1 := by
        unfold runEnd
        rw [← List.map_take, ← List.map_drop, drop_succ_window hat]
        rfl
      dsimp only
      rw [hrun, if_neg (Nat.lt_irrefl _)]
      rfl
    | cons d ds =>
      have hrun := lt_runEnd_window (fun c => collapseCpt u c.toNat)
        (fun b => cIsPunct b || cIsSymbol b) (drop_succ_window hat)
      by_cases hd : (cIsPunct (collapseCpt u d.toNat) || cIsSymbol (collapseCpt u d.toNat)) = true
      · rw [List.head?_cons, Option.any_some, if_pos (by exact hd)]
        dsimp only
        rw [if_pos (hrun.2 hd), Option.map_some, Option.map_some, hdrop, drop_succ_window hat]
      · rw [List.head?_cons, Option.any_some, if_neg (by exact hd)]
        dsimp only
        rw [if_neg fun h => hd (hrun.1 h)]
        rfl
  · have hrun := lt_runEnd_window (fun c => collapseCpt u c.toNat)
      (fun b => cIsPunct b || cIsSymbol b) hat
    rw [if_neg (by simpa [collapsed] using hsp), if_neg hsp, List.head?_cons, Option.any_some]
    dsimp only
    by_cases hc : (cIsPunct (collapseCpt u c.toNat) || cIsSymbol (collapseCpt u c.toNat)) = true
    · rw [if_pos (by exact hc), if_pos (hrun.2 hc), Option.map_some, Option.map_some, hdrop, hat]
    · rw [if_neg (by exact hc), if_neg fun h => hc (hrun.1 h)]
      rfl

/-- Pass 3. -/
theorem matchWord_finds (u : UnicodeData) (text : List Char) :
    Finds text (matchWord (text.map fun c => collapseCpt u c.toNat)) (wordRegex u) := by
  intro stop pos hlt hstop
  obtain ⟨c, cs, hat⟩ := window_cons hlt hstop
  have hnext := next_window (fun c => collapseCpt u c.toNat) isAsciiAlphabetic hat hstop
  rw [matchWord_eq, getD_window (fun c => collapseCpt u c.toNat) hat, hnext, hat, wordRegex,
    first_alts, List.findSome?_append, ← first_alts (spaceAlts _ _), List.findSome?_cons,
    first_seq_one_cons, first_plus, List.findSome?_cons, first_letterEnd hat hstop,
    List.findSome?_cons, first_punctEnd hat, List.findSome?_nil]
  have hrest : ((letterEnd (text.map fun c => collapseCpt u c.toNat) stop pos).map
        ((text.take stop).drop ·)).or
      (((punctEnd (text.map fun c => collapseCpt u c.toNat) stop pos).map
        ((text.take stop).drop ·)).or
      ((alts (spaceAlts (collapsed u cIsSpace) (collapsed u isNewline))).first (c :: cs))) =
      ((letterEnd (text.map fun c => collapseCpt u c.toNat) stop pos).or
        ((punctEnd (text.map fun c => collapseCpt u c.toNat) stop pos).or
          (if cIsSpace (collapseCpt u c.toNat) then
            some (matchSpace (text.map fun c => collapseCpt u c.toNat) stop pos)
          else none))).map ((text.take stop).drop ·) := by
    rw [Option.map_or, Option.map_or]
    congr 2
    by_cases hsp : cIsSpace (collapseCpt u c.toNat) = true
    · rw [if_pos hsp, first_matchSpace hat hstop hsp]
      rfl
    · rw [if_neg hsp]
      exact first_spaceAlts_neg (fun c h => cIsSpace_of_newline h) hsp
  by_cases hlit : (cIsAsciiPunctLit (collapseCpt u c.toNat) &&
      cs.head?.any fun d => isAsciiAlphabetic (collapseCpt u d.toNat)) = true
  · -- an ASCII punctuation character and `[A-Za-z]+`
    obtain ⟨hc, hany⟩ := Bool.and_eq_true .. ▸ hlit
    rw [if_pos hlit, if_pos (by exact hc), if_pos (by exact hany), Option.map_some, drop_runEnd]
    cases cs with
    | nil => cases hany
    | cons d ds =>
      rw [drop_succ_window (drop_succ_window hat), List.dropWhile_cons_of_pos (by exact hany)]
      rfl
  · rw [if_neg hlit, ← hrest]
    have hnone : (if collapsed u cIsAsciiPunctLit c = true then
        if cs.head?.any (collapsed u isAsciiAlphabetic) = true then
          some (cs.dropWhile (collapsed u isAsciiAlphabetic))
        else none
      else none) = none := by
      split
      · rename_i hc
        rw [if_neg]
        intro hany
        exact hlit (Bool.and_eq_true .. ▸ ⟨hc, hany⟩)
      · rfl
    rw [hnone]
    cases letterEnd (text.map fun c => collapseCpt u c.toNat) stop pos with
    | some e => rfl
    | none =>
      cases punctEnd (text.map fun c => collapseCpt u c.toNat) stop pos <;> rfl

/-! ## The three passes -/

/-- **The deepseek-v3 split is its three patterns**, each inside the words of the last one; the words
make up the text and none is empty. -/
theorem splitDeepseekV3_eq (u : UnicodeData) (text : List Char) :
    splitDeepseekV3 u text = splitPasses [numberRegex u, cjkRegex, wordRegex u] text ∧
      (splitDeepseekV3 u text).flatten = text ∧ ∀ word ∈ splitDeepseekV3 u text, word ≠ [] := by
  have hwords : splitDeepseekV3 u text = splitPasses [numberRegex u, cjkRegex, wordRegex u] text := by
    have h0 : [text].flatten = text := List.flatten_singleton
    have h1 := (flatMap_split_flatten (numberRegex u) [text]).trans h0
    have h2 := (flatMap_split_flatten cjkRegex _).trans h1
    have h3 := (flatMap_split_flatten (wordRegex u) _).trans h2
    have hcoll : (text.map Char.toNat).map (collapseCpt u) =
        text.map fun c => collapseCpt u c.toNat := List.map_map
    have hlen : [(text.map Char.toNat).length] = [text].map List.length := by
      rw [List.length_map]
      rfl
    unfold splitDeepseekV3
    dsimp only
    rw [hcoll, hlen, splitPass_eq (matchNumber_finds u text) (matchNumber_bounded _) h0,
      splitPass_eq (matchCjk_finds text) (matchCjk_bounded _) h1,
      splitPass_eq (matchWord_finds u text) (matchWord_bounded _) h2]
    have hcut := cutWords_map_length (((([text].flatMap (numberRegex u).split).flatMap
      cjkRegex.split)).flatMap (wordRegex u).split)
    rw [h3] at hcut
    exact hcut
  refine ⟨hwords, splitDeepseekV3_flatten u text, fun word hword => ?_⟩
  rw [hwords] at hword
  obtain ⟨window, -, hmem⟩ := List.mem_flatMap.1 hword
  exact ne_nil_of_mem_splitFrom hmem

end

end Memra
