import Memra.Lib.Cursor
import Memra.Tokenizer.Proof.Patterns

/-!
# The qwen35 split is its pattern
-/

namespace Memra

open Lib Lib.Regex CptFlags
open Lib.Cursor (getElem?_of_drop drop_succ_of_drop)

/-! ## What the split reads at a position -/

section
variable {text : List Char} {pos : ℕ} {c : Char} {cs : List Char}

theorem getElem?_succ_of_drop (hat : text.drop pos = c :: cs) : text[pos + 1]? = cs.head? := by
  rw [← List.head?_drop, drop_succ_of_drop hat]

theorem length_of_drop_cons (hat : text.drop pos = c :: cs) :
    text.length = pos + 1 + cs.length := by
  have hlen := congrArg List.length hat
  rw [List.length_drop, List.length_cons] at hlen
  omega

theorem getCpt_map (text : List Char) (pos : ℕ) :
    getCpt (text.map Char.toNat) pos = (text[pos]?).elim 0xffffffff Char.toNat := by
  unfold getCpt
  rw [List.getD_eq_getElem?_getD, List.getElem?_map]
  cases text[pos]? <;> rfl

theorem getFlags_map (u : UnicodeData) (text : List Char) (pos : ℕ) :
    getFlags u (text.map Char.toNat) pos = (text[pos]?).elim 0 fun c => u.flags c.toNat := by
  unfold getFlags
  rw [List.getElem?_map]
  cases text[pos]? <;> rfl

end

/-- A run of the code, to the end of the text. -/
theorem drop_runEnd_length (p : ℕ → Bool) (text : List Char) (pos : ℕ) :
    text.drop (runEnd p (text.map Char.toNat) (text.map Char.toNat).length pos) =
      (text.drop pos).dropWhile fun c => p c.toNat := by
  have hrun := drop_runEnd Char.toNat p text text.length pos
  rwa [List.take_length, ← List.length_map] at hrun

/-! ## The alternatives, one by one -/

section
variable {u : UnicodeData} {text : List Char} {pos : ℕ} {c : Char} {cs : List Char}

/-- What may follow the apostrophe. -/
def contractionLetters (u : UnicodeData) : List (Regex Char) :=
  [folded u 0x73, folded u 0x74, seq (folded u 0x72) (folded u 0x65),
    seq (folded u 0x76) (folded u 0x65), folded u 0x6d, seq (folded u 0x6c) (folded u 0x6c),
    folded u 0x64]

theorem first_letters_nil : (alts (contractionLetters u)).first [] = none := rfl

theorem first_letters_one (d : Char) : (alts (contractionLetters u)).first [d] =
    if u.tolower d.toNat = 0x73 ∨ u.tolower d.toNat = 0x74 ∨ u.tolower d.toNat = 0x6d ∨
      u.tolower d.toNat = 0x64 then some [] else none := by
  rw [first_alts]
  unfold contractionLetters folded
  simp only [List.findSome?_cons, List.findSome?_nil, first_one_cons, first_seq_one_cons,
    first_one_nil, beq_iff_eq, ite_self]
  generalize u.tolower d.toNat = t
  by_cases h1 : t = 0x73
  · simp [h1]
  by_cases h2 : t = 0x74
  · simp [h2]
  by_cases h3 : t = 0x6d
  · simp [h3]
  by_cases h4 : t = 0x64
  · simp [h4]
  simp [h1, h2, h3, h4]

theorem first_letters_two (d e : Char) (es : List Char) :
    (alts (contractionLetters u)).first (d :: e :: es) =
      if u.tolower d.toNat = 0x73 ∨ u.tolower d.toNat = 0x74 ∨ u.tolower d.toNat = 0x6d ∨
        u.tolower d.toNat = 0x64 then some (e :: es)
      else if u.tolower d.toNat = 0x72 ∧ u.tolower e.toNat = 0x65 ∨
        u.tolower d.toNat = 0x76 ∧ u.tolower e.toNat = 0x65 ∨
        u.tolower d.toNat = 0x6c ∧ u.tolower e.toNat = 0x6c then some es
      else none := by
  rw [first_alts]
  unfold contractionLetters folded
  simp only [List.findSome?_cons, List.findSome?_nil, first_one_cons, first_seq_one_cons,
    beq_iff_eq]
  generalize u.tolower d.toNat = t
  generalize u.tolower e.toNat = n
  by_cases h1 : t = 0x73
  · simp [h1]
  by_cases h2 : t = 0x74
  · simp [h2]
  by_cases h3 : t = 0x6d
  · simp [h3]
  by_cases h4 : t = 0x64
  · simp [h4]
  by_cases h5 : t = 0x72
  · by_cases hn : n = 0x65 <;> simp [h5, hn]
  by_cases h6 : t = 0x76
  · by_cases hn : n = 0x65 <;> simp [h6, hn]
  by_cases h7 : t = 0x6c
  · by_cases hn : n = 0x6c <;> simp [h7, hn]
  simp [h1, h2, h3, h4, h5, h6, h7]

/-- `(?i:'s|'t|'re|'ve|'m|'ll|'d)`. -/
theorem first_contraction (hat : text.drop pos = c :: cs) :
    (contractionRegex u).first (c :: cs) =
      (contraction u (text.map Char.toNat) pos).map (text.drop ·) := by
  have hlen := length_of_drop_cons hat
  have hdrop := drop_succ_of_drop hat
  have hregex : contractionRegex u = alts ((contractionLetters u).map (seq apostrophe)) := rfl
  unfold contraction
  rw [hregex, apostrophe, first_alts_seq_one_cons, getCpt_map, getElem?_of_drop hat, List.length_map,
    Option.elim_some]
  simp only [beq_iff_eq]
  by_cases hq : c.toNat = 0x27
  · rw [if_pos hq]
    cases cs with
    | nil =>
      rw [if_neg fun h => absurd h.2 (by rw [hlen]; simp)]
      rfl
    | cons d ds =>
      have hd : text.drop (pos + 1) = d :: ds := hdrop
      rw [if_pos ⟨hq, by rw [hlen, List.length_cons]; omega⟩]
      simp only [getCpt_map, getElem?_of_drop hd, Option.elim_some]
      cases ds with
      | nil =>
        have hend : ¬ pos + 2 < text.length := by
          rw [hlen]
          simp
        rw [first_letters_one, if_neg hend]
        split
        · rw [Option.map_some, drop_succ_of_drop hd]
        · rfl
      | cons e es =>
        have he : text.drop (pos + 2) = e :: es := drop_succ_of_drop hd
        have hin : pos + 2 < text.length := by
          rw [hlen, List.length_cons, List.length_cons]
          omega
        simp only [first_letters_two, if_pos hin, getElem?_of_drop he, Option.elim_some]
        split
        · rw [Option.map_some, he]
        · split
          · rw [Option.map_some, drop_succ_of_drop he]
          · rfl
  · rw [if_neg hq, if_neg fun h => hq h.1]
    rfl

/-- `[^\r\n\p{L}\p{N}]?[\p{L}\p{M}]+`. -/
theorem first_letterRun (hu : Classified u) (c : Char) (cs : List Char) :
    (seq (opt (one (qwenLead u))) (plus (qwenLetter u))).first (c :: cs) =
      if (!(isNewline c.toNat || isNumber (u.flags c.toNat)) &&
          (qwenLetter u c || cs.head?.any (qwenLetter u))) = true then
        some (cs.dropWhile (qwenLetter u))
      else none := by
  have h1 := hu.letter_number c
  have h2 := hu.mark_number c
  have h3 := hu.space c
  have h4 := hu.newline c
  have hhead : (c :: cs).head?.any (qwenLetter u) = qwenLetter u c := rfl
  rw [first_seq_opt_cons, first_plus, first_plus, hhead]
  by_cases hl : qwenLetter u c = true
  · -- a letter is no lead, a mark may be one
    have hfree : (isNewline c.toNat || isNumber (u.flags c.toNat)) = false := by
      rw [Bool.or_eq_false_iff]
      unfold qwenLetter at hl
      constructor
      · by_contra hn
        have hsp := h3 (h4 (by simpa using hn))
        rw [Bool.or_eq_true] at hl
        tauto
      · by_contra hn
        rw [Bool.or_eq_true] at hl
        have hn' : isNumber (u.flags c.toNat) = true := by simpa using hn
        tauto
    rw [if_pos hl, List.dropWhile_cons_of_pos hl, hfree, hl]
    by_cases hlead : qwenLead u c = true
    · rw [if_pos hlead]
      split <;> rfl
    · rw [if_neg hlead]
      rfl
  · have hlead : qwenLead u c = !(isNewline c.toNat || isNumber (u.flags c.toNat)) := by
      have hnot : isLetter (u.flags c.toNat) = false := by
        rw [Bool.not_eq_true, qwenLetter, Bool.or_eq_false_iff] at hl
        exact hl.1
      rw [qwenLead, hnot, Bool.or_false]
    rw [if_neg hl, hlead, Bool.not_eq_true] at *
    rw [hl, Bool.false_or]
    cases isNewline c.toNat || isNumber (u.flags c.toNat) with
    | true => rfl
    | false =>
      cases cs.head?.any (qwenLetter u) <;> rfl

/-- ` ?[^\s\p{L}\p{M}\p{N}]+[\r\n]*`, where the space is white space. -/
theorem first_otherRun (hblank : ∀ c : Char, c.toNat = 0x20 → qwenSpace u c = true) (c : Char)
    (cs : List Char) :
    (seq (opt (one fun c => c.toNat == 0x20))
        (seq (plus (qwenOther u)) (star fun c => isNewline c.toNat))).first (c :: cs) =
      if (if c.toNat = 0x20 then cs.head?.any (qwenOther u) else qwenOther u c) = true then
        some ((cs.dropWhile (qwenOther u)).dropWhile fun c => isNewline c.toNat)
      else none := by
  have hhead : (c :: cs).head?.any (qwenOther u) = qwenOther u c := rfl
  rw [first_seq_opt_cons, first_seq_star, first_seq_star, first_plus, first_plus, hhead]
  simp only [beq_iff_eq]
  by_cases hsp : c.toNat = 0x20
  · have hnot : ¬ qwenOther u c = true := by
      have hs := hblank c hsp
      unfold qwenSpace at hs
      simp [qwenOther, hs]
    rw [if_pos hsp, if_pos hsp, if_neg hnot]
    split <;> rfl
  · rw [if_neg hsp, if_neg hsp]
    split
    · rename_i ho
      rw [List.dropWhile_cons_of_pos ho]
      rfl
    · rfl

/-- `\s*[\r\n]+|\s+(?!\S)|\s+`. -/
theorem first_space (hu : Classified u) (hat : text.drop pos = c :: cs)
    (hsp : qwenSpace u c = true) :
    (alts (spaceAlts (qwenSpace u) fun c => isNewline c.toNat)).first (c :: cs) =
      some (text.drop (spaceEnd u (text.map Char.toNat) pos)) := by
  have hws : ((text.map Char.toNat).drop pos).takeWhile (fun c => CptFlags.isWhitespace (u.flags c)) =
      ((c :: cs).takeWhile (qwenSpace u)).map Char.toNat := by
    rw [← List.map_drop, hat, List.takeWhile_map]
    rfl
  have hdrop : ∀ k, text.drop (pos + k) = (c :: cs).drop k := by
    intro k
    rw [← hat, List.drop_drop]
  have hrest : (c :: cs).dropWhile (qwenSpace u) ≠ [] ↔
      getCpt (text.map Char.toNat) (pos + ((c :: cs).takeWhile (qwenSpace u)).length) ≠
        0xffffffff := by
    rw [getCpt_map, ← List.head?_drop, hdrop, drop_takeWhile_length]
    cases (c :: cs).dropWhile (qwenSpace u) with
    | nil => simp
    | cons d ds =>
      have hd : d.toNat ≠ 0xffffffff := by
        intro h
        rcases d.valid with hv | hv <;> simp only [Char.toNat] at h <;> omega
      simp [hd]
  have hpos : 0 < ((c :: cs).takeWhile (qwenSpace u)).length := by
    rw [List.takeWhile_cons_of_pos hsp]
    exact Nat.succ_pos _
  have hlast := lastEndRn_bounds (((c :: cs).takeWhile (qwenSpace u)).map Char.toNat) pos
  have hsub : ∀ c : Char, isNewline c.toNat = true → qwenSpace u c = true := hu.newline
  rw [first_spaceAlts (f := Char.toNat) (fun _ => rfl) hsub hsp pos]
  unfold spaceEnd
  simp only [hws, List.length_map, ← hrest]
  rw [← hdrop]
  congr 2
  split
  · omega
  · split
    · rfl
    · rfl

/-- What the code asks of the flags at `pos` and behind it before it looks for punctuation. At the end
of the text the flags behind a space are none. -/
theorem other_eq (hu : Classified u) (hat : text.drop pos = c :: cs) :
    (!(CptFlags.isWhitespace (flags2 u (text.map Char.toNat) pos) ||
        isLetter (flags2 u (text.map Char.toNat) pos) ||
        isAccentMark (flags2 u (text.map Char.toNat) pos) ||
        isNumber (flags2 u (text.map Char.toNat) pos)) && u.flags c.toNat != 0) =
      if c.toNat = 0x20 then cs.head?.all (qwenOther u) else qwenOther u c := by
  have hflags : (u.flags c.toNat != 0) = true := bne_iff_ne.2 (hu.flagged c)
  unfold flags2
  rw [getCpt_map, getElem?_of_drop hat, Option.elim_some, hflags, Bool.and_true]
  split
  · rw [getFlags_map, getElem?_succ_of_drop hat]
    cases cs with
    | nil =>
      show (!(CptFlags.isWhitespace 0 || isLetter 0 || isAccentMark 0 || isNumber 0)) = true
      decide
    | cons d ds => rfl
  · rw [getFlags_map, getElem?_of_drop hat]
    rfl

theorem isOther_flags (hu : Classified u) :
    (fun c : Char => isOther (u.flags c.toNat)) = qwenOther u := by
  funext c
  have hflags : (u.flags c.toNat != 0) = true := bne_iff_ne.2 (hu.flagged c)
  unfold isOther qwenOther
  rw [hflags, Bool.and_true]

/-- Where the code looks for punctuation, it ends where the pattern ends. -/
theorem drop_otherEnd (hu : Classified u) (hat : text.drop pos = c :: cs)
    (hother : qwenOther u c = true ∨ c.toNat = 0x20) :
    text.drop (otherEnd u (text.map Char.toNat) pos) =
      (cs.dropWhile (qwenOther u)).dropWhile fun c => isNewline c.toNat := by
  unfold otherEnd
  rw [getCpt_map, getElem?_of_drop hat, Option.elim_some, drop_runEnd_length, drop_runEnd_length,
    isOther_flags hu]
  by_cases hsp : c.toNat = 0x20
  · rw [if_pos hsp, drop_succ_of_drop hat]
  · rw [if_neg hsp, hat, List.dropWhile_cons_of_pos (hother.resolve_right hsp)]

/-- The other alternatives, where no contraction matches. -/
theorem first_word (hu : Classified u)
    (hblank : ∀ c : Char, c.toNat = 0x20 → qwenSpace u c = true) (hat : text.drop pos = c :: cs) :
    (alts ([
      seq (opt (one (qwenLead u))) (plus (qwenLetter u)),
      one fun c => isNumber (u.flags c.toNat),
      seq (opt (one fun c => c.toNat == 0x20))
        (seq (plus (qwenOther u)) (star fun c => isNewline c.toNat))] ++
      spaceAlts (qwenSpace u) fun c => isNewline c.toNat)).first (c :: cs) =
        some (text.drop (wordEnd u (text.map Char.toNat) pos)) := by
  have hflags : getFlags u (text.map Char.toNat) pos = u.flags c.toNat := by
    rw [getFlags_map, getElem?_of_drop hat]
    rfl
  have hcpt : getCpt (text.map Char.toNat) pos = c.toNat := by
    rw [getCpt_map, getElem?_of_drop hat]
    rfl
  have hnext : (isAccentMark (getFlags u (text.map Char.toNat) (pos + 1)) ||
      isLetter (getFlags u (text.map Char.toNat) (pos + 1))) = cs.head?.any (qwenLetter u) := by
    rw [getFlags_map, getElem?_succ_of_drop hat, Bool.or_comm]
    cases cs with
    | nil =>
      show (isLetter 0 || isAccentMark 0) = false
      decide
    | cons d ds => rfl
  have hfold : (isLetter (u.flags c.toNat) || isAccentMark (u.flags c.toNat)) = qwenLetter u c :=
    rfl
  rw [first_alts, List.findSome?_append, ← first_alts (spaceAlts _ _), List.findSome?_cons,
    first_letterRun hu, List.findSome?_cons, first_one_cons, List.findSome?_cons,
    first_otherRun hblank, List.findSome?_nil]
  unfold wordEnd
  simp only [hflags, hcpt]
  rw [Bool.or_assoc (isLetter (u.flags c.toNat) || isAccentMark (u.flags c.toNat)), hnext, hfold,
    other_eq hu hat]
  by_cases hletter : (!(isNewline c.toNat || isNumber (u.flags c.toNat)) &&
      (qwenLetter u c || cs.head?.any (qwenLetter u))) = true
  · -- `[^\r\n\p{L}\p{N}]?[\p{L}\p{M}]+`
    rw [if_pos hletter, if_pos hletter, drop_runEnd_length, drop_succ_of_drop hat]
    rfl
  rw [if_neg hletter, if_neg hletter]
  by_cases hnumber : isNumber (u.flags c.toNat) = true
  · -- `\p{N}`
    rw [if_pos hnumber, if_pos hnumber, drop_succ_of_drop hat]
    rfl
  rw [if_neg hnumber, if_neg hnumber]
  by_cases hsp : c.toNat = 0x20
  · -- a space, in front of punctuation or not
    have hspace := first_space hu hat (hblank c hsp)
    rw [if_pos hsp, if_pos hsp]
    cases cs with
    | nil =>
      -- the code takes the last space of a text for one that has punctuation behind it
      have hlen : (text.map Char.toNat).length = pos + 1 := by
        rw [List.length_map, length_of_drop_cons hat]
        rfl
      have hlt : pos < (text.map Char.toNat).length := by omega
      obtain ⟨hlo, hhi⟩ := otherEnd_bounds (u := u) hlt (.inr (hcpt.trans hsp))
      obtain ⟨hlo', hhi'⟩ := spaceEnd_bounds (u := u) hlt
      have hend : spaceEnd u (text.map Char.toNat) pos = otherEnd u (text.map Char.toNat) pos := by
        omega
      rw [hend] at hspace
      rw [List.head?_nil, Option.any_none, Option.all_none, if_neg Bool.false_ne_true, if_pos rfl]
      exact hspace
    | cons d ds =>
      rw [List.head?_cons, Option.any_some, Option.all_some]
      by_cases ho : qwenOther u d = true
      · rw [if_pos ho, if_pos ho, drop_otherEnd hu hat (.inr hsp)]
        rfl
      · rw [if_neg ho, if_neg ho]
        exact hspace
  · rw [if_neg hsp, if_neg hsp]
    by_cases hother : qwenOther u c = true
    · rw [if_pos hother, if_pos hother, drop_otherEnd hu hat (.inl hother)]
      rfl
    · -- nothing is left but white space
      have hspace : qwenSpace u c = true := by
        have hstop : ¬ qwenLetter u c = true := by
          intro hl
          apply hletter
          have hn : ¬ isNewline c.toNat = true := by
            intro hn
            have hnot := hu.space c (hu.newline c hn)
            rw [qwenLetter, Bool.or_eq_true] at hl
            tauto
          rw [Bool.not_eq_true] at hn hnumber
          rw [hn, hnumber, hl]
          rfl
        unfold qwenLetter at hstop
        unfold qwenOther at hother
        unfold qwenSpace
        rw [Bool.not_eq_true] at hstop hnumber hother
        rw [Bool.or_assoc (CptFlags.isWhitespace _), hstop, hnumber] at hother
        simpa using hother
      rw [if_neg hother, if_neg hother]
      exact first_space hu hat hspace

/-- Where the word at `pos` ends. -/
def nextEnd (u : UnicodeData) (cpts : List ℕ) (pos : ℕ) : ℕ :=
  (contraction u cpts pos).getD (wordEnd u cpts pos)

theorem nextEnd_bounds {u : UnicodeData} {cpts : List ℕ} {pos : ℕ} (h : pos < cpts.length) :
    pos < nextEnd u cpts pos ∧ nextEnd u cpts pos ≤ cpts.length := by
  unfold nextEnd
  cases hc : contraction u cpts pos with
  | none => exact wordEnd_bounds h
  | some e => exact contraction_bounds hc

/-- The word that the code cuts off is the match of the pattern. -/
theorem match?_qwen35 (hu : Classified u)
    (hblank : ∀ c : Char, c.toNat = 0x20 → qwenSpace u c = true) (hat : text.drop pos = c :: cs) :
    (qwen35Regex u).match? (text.drop pos) =
      some ((text.drop pos).take (nextEnd u (text.map Char.toNat) pos - pos),
        text.drop (nextEnd u (text.map Char.toNat) pos)) := by
  have hlen := length_of_drop_cons hat
  have hlt : pos < (text.map Char.toNat).length := by
    rw [List.length_map]
    omega
  obtain ⟨hlo, hhi⟩ := nextEnd_bounds (u := u) hlt
  rw [List.length_map] at hhi
  have hfirst : (qwen35Regex u).first (text.drop pos) =
      some (text.drop (nextEnd u (text.map Char.toNat) pos)) := by
    rw [qwen35Regex, List.cons_append, alts, first_alt, hat, first_contraction hat,
      first_word hu hblank hat]
    unfold nextEnd
    cases contraction u (text.map Char.toNat) pos <;> rfl
  have hmatch := match?_of_first hfirst (by rw [List.length_drop, List.length_drop]; omega)
  rw [List.length_drop, List.length_drop] at hmatch
  rwa [show text.length - pos - (text.length - nextEnd u (text.map Char.toNat) pos) =
    nextEnd u (text.map Char.toNat) pos - pos by omega] at hmatch

end

/-! ## The words -/

section
variable {u : UnicodeData} {text : List Char}

theorem Splitter.At.qwenStep_eq {cpts : List ℕ} {s : Splitter} (h : s.At cpts)
    (hlt : s.pos < cpts.length) :
    s.qwenStep u cpts =
      { pos := nextEnd u cpts s.pos
        prevEnd := nextEnd u cpts s.pos
        lens := s.lens ++ [nextEnd u cpts s.pos - s.pos] } := by
  obtain ⟨hlo, -⟩ := nextEnd_bounds (u := u) hlt
  have hpos : nextEnd u cpts s.pos - s.pos > 0 := by omega
  unfold Splitter.qwenStep Splitter.addToken
  rw [h.prevEnd]
  unfold nextEnd at hlo hpos ⊢
  cases hc : contraction u cpts s.pos with
  | none =>
    rw [hc, Option.getD_none] at hpos
    simp [hpos]
  | some e =>
    rw [hc, Option.getD_some] at hpos hlo
    simp only [Option.getD_some, if_pos hpos, Nat.add_sub_cancel' (Nat.le_of_lt hlo)]

/-- The loop cuts off the matches of what is ahead. -/
theorem qwenLoop_lens (hu : Classified u)
    (hblank : ∀ c : Char, c.toNat = 0x20 → qwenSpace u c = true) {fuel : ℕ} {s : Splitter}
    (h : s.At (text.map Char.toNat)) (hfuel : text.length ≤ s.pos + fuel) :
    (Splitter.qwenLoop u (text.map Char.toNat) fuel s).lens =
      s.lens ++ ((qwen35Regex u).findAll (text.drop s.pos)).map List.length := by
  have hend : ∀ {s : Splitter}, text.length ≤ s.pos →
      s.lens = s.lens ++ ((qwen35Regex u).findAll (text.drop s.pos)).map List.length := by
    intro s hle
    rw [List.drop_eq_nil_of_le hle, findAll_nil, List.map_nil, List.append_nil]
  induction fuel generalizing s with
  | zero => exact hend hfuel
  | succ fuel ih =>
    rw [Splitter.qwenLoop]
    split
    · rename_i hlt
      obtain ⟨hnext, hlo⟩ := h.step (u := u) hlt
      obtain ⟨-, hhi⟩ := nextEnd_bounds (u := u) hlt
      obtain ⟨c, cs, hat⟩ := List.exists_cons_of_ne_nil (l := text.drop s.pos) (by
        rw [List.length_map] at hlt
        intro hnil
        have hle := List.drop_eq_nil_iff.1 hnil
        omega)
      rw [ih hnext (by omega), h.qwenStep_eq hlt, findAll_of_match (match?_qwen35 hu hblank hat),
        List.map_cons, List.append_assoc, List.singleton_append, List.length_take,
        List.length_drop]
      rw [List.length_map] at hhi
      rw [Nat.min_eq_left (by omega)]
    · rename_i hlt
      rw [List.length_map, Nat.not_lt] at hlt
      exact hend hlt

theorem match?_qwen35_isSome (hu : Classified u)
    (hblank : ∀ c : Char, c.toNat = 0x20 → qwenSpace u c = true) (c : Char) (cs : List Char) :
    ((qwen35Regex u).match? (c :: cs)).isSome := by
  have hmatch := match?_qwen35 hu hblank (show (c :: cs).drop 0 = c :: cs from rfl)
  rw [List.drop_zero] at hmatch
  rw [hmatch]
  rfl

/-- **The qwen35 split is its pattern**: when the space is white space, the words of a text are the
successive matches of `qwen35Regex`; they make up the text and none is empty. -/
theorem splitQwen35_eq_findAll (u : UnicodeData) (hu : Classified u)
    (hblank : CptFlags.isWhitespace (u.flags 0x20) = true) (text : List Char) :
    splitQwen35 u text = (qwen35Regex u).findAll text ∧ (splitQwen35 u text).flatten = text ∧
      ∀ word ∈ splitQwen35 u text, word ≠ [] := by
  have hspace : ∀ c : Char, c.toNat = 0x20 → qwenSpace u c = true := by
    intro c hc
    rw [qwenSpace, hc, hblank]
  have h0 : Splitter.At (text.map Char.toNat) {} := ⟨rfl, rfl, Nat.zero_le _⟩
  have hwords : splitQwen35 u text = (qwen35Regex u).findAll text := by
    have hlens := qwenLoop_lens hu hspace h0 (Nat.le_add_left text.length 0)
    have hcut := cutWords_map_length ((qwen35Regex u).findAll text)
    rw [findAll_flatten (match?_qwen35_isSome hu hspace)] at hcut
    rw [List.nil_append, List.drop_zero] at hlens
    show cutWords (Splitter.qwenLoop u (text.map Char.toNat) (text.map Char.toNat).length {}).lens
      text = _
    rw [List.length_map, hlens, hcut]
  refine ⟨hwords, splitQwen35_flatten u text, fun word hword => ?_⟩
  rw [hwords] at hword
  exact ne_nil_of_mem_findAll hword

/-- Letters, digits, the white space of ASCII; everything else is a symbol. -/
def plainData : UnicodeData where
  flags c :=
    if 0x41 ≤ c ∧ c ≤ 0x5a ∨ 0x61 ≤ c ∧ c ≤ 0x7a then flagLetter
    else if 0x30 ≤ c ∧ c ≤ 0x39 then flagNumber
    else if c = 0x20 ∨ 0x09 ≤ c ∧ c ≤ 0x0d then flagWhitespace
    else flagSymbol
  tolower c := if 0x41 ≤ c ∧ c ≤ 0x5a then c + 0x20 else c

theorem plainData_classified : Classified plainData := by
  have hcases : ∀ c, plainData.flags c = flagLetter ∨ plainData.flags c = flagNumber ∨
      plainData.flags c = flagWhitespace ∨ plainData.flags c = flagSymbol := by
    intro c
    unfold plainData
    dsimp only
    split
    · exact .inl rfl
    · split
      · exact .inr (.inl rfl)
      · split
        · exact .inr (.inr (.inl rfl))
        · exact .inr (.inr (.inr rfl))
  constructor
  case newline =>
    intro c hc
    rcases Bool.or_eq_true .. ▸ hc with h | h <;> rw [beq_iff_eq.1 h] <;> decide
  all_goals
    intro c
    rcases hcases c.toNat with h | h | h | h <;> rw [h] <;> decide

theorem splitQwen35_eq_findAll_sample :
    splitQwen35 plainData "It'S 3 a\n\n b".toList =
      (qwen35Regex plainData).findAll "It'S 3 a\n\n b".toList ∧
    (splitQwen35 plainData "It'S 3 a\n\n b".toList).flatten = "It'S 3 a\n\n b".toList ∧
      ∀ word ∈ splitQwen35 plainData "It'S 3 a\n\n b".toList, word ≠ [] :=
  splitQwen35_eq_findAll plainData plainData_classified (by decide) _

/-- The space is punctuation, everything else white space. -/
def spacePunctData : UnicodeData where
  flags c := if c = 0x20 then flagPunctuation else flagWhitespace
  tolower c := c

/-- Where the space is no white space, the code does not take a lone space for punctuation, as the
pattern does. -/
theorem not_splitQwen35_eq_findAll :
    Classified spacePunctData ∧
      (qwen35Regex spacePunctData).findAll [' ', '\n'] = [[' ', '\n']] ∧
      splitQwen35 spacePunctData [' ', '\n'] = [[' '], ['\n']] := by
  refine ⟨?_, by decide +kernel, by decide +kernel⟩
  have hcases : ∀ c, spacePunctData.flags c = flagPunctuation ∨
      spacePunctData.flags c = flagWhitespace := by
    intro c
    unfold spacePunctData
    dsimp only
    split
    · exact .inl rfl
    · exact .inr rfl
  constructor
  case newline =>
    intro c hc
    rcases Bool.or_eq_true .. ▸ hc with h | h <;> rw [beq_iff_eq.1 h] <;> decide
  all_goals
    intro c
    rcases hcases c.toNat with h | h <;> rw [h] <;> decide

end

end Memra
