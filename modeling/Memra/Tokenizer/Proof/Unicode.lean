import Memra.Tokenizer.Unicode
import Mathlib

/-!
# No split drops text, and the byte alphabet is one

Each turn of a splitter moves from one end of a word to the next (`wordEnd_bounds`,
`contraction_bounds`), so the lengths add up to the text (`qwenLoop_sum`, `scanWindow_sum`) and the
words are it (`splitQwen35_flatten`, `splitDeepseekV3_flatten`). `unicodeToByte_byteToUnicode`: a
character of the alphabet spells one byte.
-/

namespace Memra

open CptFlags

/-! ## Cuts and runs -/

theorem cutWords_flatten {α : Type} {lens : List ℕ} {text : List α} (h : lens.sum = text.length) :
    (cutWords lens text).flatten = text := by
  induction lens generalizing text with
  | nil =>
    have hnil : text = [] := List.length_eq_zero_iff.1 h.symm
    simp [cutWords, hnil]
  | cons len lens ih =>
    rw [List.sum_cons] at h
    have hrest : lens.sum = (text.drop len).length := by
      rw [List.length_drop]
      omega
    rw [cutWords, List.flatten_cons, ih hrest, List.take_append_drop]

theorem le_runEnd (p : ℕ → Bool) (xs : List ℕ) (stop pos : ℕ) : pos ≤ runEnd p xs stop pos :=
  Nat.le_add_right _ _

theorem runEnd_le {p : ℕ → Bool} {xs : List ℕ} {stop pos : ℕ} (h : pos ≤ stop) :
    runEnd p xs stop pos ≤ stop := by
  have hlen := (List.takeWhile_sublist p (l := (xs.take stop).drop pos)).length_le
  have htake := List.length_take_le stop xs
  rw [List.length_drop] at hlen
  unfold runEnd
  omega

/-- A run that finds its kind at `pos` moves. -/
theorem lt_runEnd {p : ℕ → Bool} {xs : List ℕ} {stop pos : ℕ} (h : pos < stop) {c : ℕ}
    (hc : xs[pos]? = some c) (hp : p c = true) : pos < runEnd p xs stop pos := by
  have hcons : (xs.take stop).drop pos = c :: (xs.take stop).drop (pos + 1) := by
    have hget : (xs.take stop)[pos]? = some c := by rw [List.getElem?_take_of_lt h, hc]
    obtain ⟨hlt, rfl⟩ := List.getElem?_eq_some_iff.1 hget
    exact List.drop_eq_getElem_cons hlt
  unfold runEnd
  rw [hcons, List.takeWhile_cons_of_pos hp, List.length_cons]
  omega

/-- The end of the last newline, if there is one, is behind a codepoint of the run. -/
theorem lastEndRn_bounds (ws : List ℕ) (pos : ℕ) :
    lastEndRn ws pos = 0 ∨ pos < lastEndRn ws pos ∧ lastEndRn ws pos ≤ pos + ws.length := by
  have hfold : ∀ (l : List (ℕ × ℕ)) (last : ℕ),
      (∀ c ∈ l, pos ≤ c.2 ∧ c.2 < pos + ws.length) →
      (last = 0 ∨ pos < last ∧ last ≤ pos + ws.length) →
      let e := l.foldl (fun last c => if isNewline c.1 then c.2 + 1 else last) last
      e = 0 ∨ pos < e ∧ e ≤ pos + ws.length := by
    intro l
    induction l with
    | nil => exact fun _ _ h => h
    | cons c l ih =>
      intro last hmem hlast
      have hc := hmem c List.mem_cons_self
      rw [List.foldl_cons]
      apply ih
      · exact fun c hc => hmem c (List.mem_cons_of_mem _ hc)
      · split
        · omega
        · exact hlast
  apply hfold
  · intro c hc
    have hidx := List.mem_zipIdx hc
    omega
  · exact .inl rfl

/-! ## qwen35 -/

section Qwen

variable {u : UnicodeData} {cpts : List ℕ}

theorem contraction_bounds {pos e : ℕ} (h : contraction u cpts pos = some e) :
    pos < e ∧ e ≤ cpts.length := by
  unfold contraction at h
  split at h
  · rename_i hq
    simp only at h
    split at h
    · cases h
      omega
    · split at h
      · rename_i hn
        split at h
        · cases h
          omega
        · cases h
      · cases h
  · cases h

theorem otherEnd_bounds {pos : ℕ} (h : pos < cpts.length)
    (hother : isOther (flags2 u cpts pos) = true ∨ getCpt cpts pos = 0x20) :
    pos < otherEnd u cpts pos ∧ otherEnd u cpts pos ≤ cpts.length := by
  unfold otherEnd
  by_cases hsp : getCpt cpts pos = 0x20
  · -- the space itself
    simp only [if_pos hsp]
    have hle := le_runEnd (fun c => isOther (u.flags c)) cpts cpts.length (pos + 1)
    have hmid : runEnd (fun c => isOther (u.flags c)) cpts cpts.length (pos + 1) ≤ cpts.length :=
      runEnd_le h
    have hend := le_runEnd isNewline cpts cpts.length
      (runEnd (fun c => isOther (u.flags c)) cpts cpts.length (pos + 1))
    exact ⟨by omega, runEnd_le hmid⟩
  · -- the codepoint at `pos`
    simp only [if_neg hsp]
    have hget : cpts[pos]? = some cpts[pos] := List.getElem?_eq_getElem h
    have hflags : flags2 u cpts pos = u.flags cpts[pos] := by simp [flags2, hsp, getFlags, hget]
    have hrun : pos < runEnd (fun c => isOther (u.flags c)) cpts cpts.length pos := by
      apply lt_runEnd h hget
      rw [← hflags]
      exact hother.resolve_right hsp
    have hmid : runEnd (fun c => isOther (u.flags c)) cpts cpts.length pos ≤ cpts.length :=
      runEnd_le (Nat.le_of_lt h)
    have hend := le_runEnd isNewline cpts cpts.length
      (runEnd (fun c => isOther (u.flags c)) cpts cpts.length pos)
    exact ⟨by omega, runEnd_le hmid⟩

theorem spaceEnd_bounds {pos : ℕ} (h : pos < cpts.length) :
    pos < spaceEnd u cpts pos ∧ spaceEnd u cpts pos ≤ cpts.length := by
  unfold spaceEnd
  simp only
  generalize hws : (cpts.drop pos).takeWhile (fun c => isWhitespace (u.flags c)) = ws
  have hlen := (List.takeWhile_sublist (fun c => isWhitespace (u.flags c))
    (l := cpts.drop pos)).length_le
  rw [List.length_drop, hws] at hlen
  have hlast := lastEndRn_bounds ws pos
  split
  · omega
  · split
    · omega
    · split <;> omega

theorem wordEnd_bounds {pos : ℕ} (h : pos < cpts.length) :
    pos < wordEnd u cpts pos ∧ wordEnd u cpts pos ≤ cpts.length := by
  unfold wordEnd
  simp only
  split
  · have hle := le_runEnd (fun c => isLetter (u.flags c) || isAccentMark (u.flags c)) cpts
      cpts.length (pos + 1)
    exact ⟨by omega, runEnd_le h⟩
  · split
    · exact ⟨Nat.lt_succ_self pos, h⟩
    · split
      · rename_i hother
        apply otherEnd_bounds h
        by_cases hsp : getCpt cpts pos = 0x20
        · exact .inr hsp
        · left
          simpa [isOther, flags2, hsp] using hother
      · exact spaceEnd_bounds h

/-- The splitter is between two words, `lens` behind it. -/
structure Splitter.At (cpts : List ℕ) (s : Splitter) : Prop where
  prevEnd : s.prevEnd = s.pos
  sum : s.lens.sum = s.pos
  le : s.pos ≤ cpts.length

theorem Splitter.At.addToken {s : Splitter} (h : s.At cpts) {e : ℕ} (he : s.pos < e)
    (hle : e ≤ cpts.length) : Splitter.At cpts { s.addToken e with pos := e } where
  prevEnd := rfl
  sum := by
    have hpos : e - s.pos > 0 := by omega
    simp only [Splitter.addToken, h.prevEnd, if_pos hpos, List.sum_append, List.sum_singleton, h.sum]
    exact Nat.add_sub_cancel' (Nat.le_of_lt he)
  le := hle

theorem Splitter.At.step {s : Splitter} (h : s.At cpts) (hlt : s.pos < cpts.length) :
    (s.qwenStep u cpts).At cpts ∧ s.pos < (s.qwenStep u cpts).pos := by
  unfold Splitter.qwenStep
  split
  · rename_i e he
    obtain ⟨hpos, hle⟩ := contraction_bounds he
    have hend : s.pos + (e - s.prevEnd) = e := by rw [h.prevEnd]; omega
    rw [hend]
    exact ⟨h.addToken hpos hle, hpos⟩
  · obtain ⟨hpos, hle⟩ := wordEnd_bounds (u := u) hlt
    exact ⟨h.addToken hpos hle, hpos⟩

theorem qwenLoop_sum {fuel : ℕ} {s : Splitter} (h : s.At cpts)
    (hfuel : cpts.length ≤ s.pos + fuel) :
    (Splitter.qwenLoop u cpts fuel s).lens.sum = cpts.length := by
  induction fuel generalizing s with
  | zero =>
    rw [Splitter.qwenLoop, h.sum]
    exact Nat.le_antisymm h.le hfuel
  | succ fuel ih =>
    rw [Splitter.qwenLoop]
    split
    · rename_i hlt
      obtain ⟨hat, hpos⟩ := h.step (u := u) hlt
      exact ih hat (by omega)
    · rw [h.sum]
      have hle := h.le
      omega

theorem splitQwen35_flatten (u : UnicodeData) (text : List Char) :
    (splitQwen35 u text).flatten = text := by
  apply cutWords_flatten
  have h0 : Splitter.At (text.map Char.toNat) {} := ⟨rfl, rfl, Nat.zero_le _⟩
  rw [qwenLoop_sum h0 (Nat.le_add_left _ _), List.length_map]

end Qwen

/-! ## deepseek-v3 -/

theorem pushLen_sum (lens : List ℕ) (len : ℕ) : (pushLen lens len).sum = lens.sum + len := by
  unfold pushLen
  split
  · simp
  · omega

/-- A matcher stays in its window. -/
def Bounded (matcher : ℕ → ℕ → Option ℕ) : Prop :=
  ∀ stop pos mEnd, pos < stop → matcher stop pos = some mEnd → mEnd ≤ stop

theorem scanWindow_sum {matcher : ℕ → ℕ → Option ℕ} (hm : Bounded matcher) {stop : ℕ}
    {out : List ℕ} {gap pos : ℕ} (hgap : gap ≤ pos) (hpos : pos ≤ stop) :
    (scanWindow matcher stop out gap pos).sum = out.sum + (stop - gap) := by
  fun_induction scanWindow matcher stop out gap pos with
  | case1 out gap pos hlt mEnd hsome hgt ih =>
    have hle : mEnd ≤ stop := hm stop pos mEnd hlt hsome
    rw [ih (Nat.le_refl _) hle, pushLen_sum, pushLen_sum]
    omega
  | case2 out gap pos hlt mEnd hsome hgt ih => exact ih (by omega) hlt
  | case3 out gap pos hlt hnone ih => exact ih (by omega) hlt
  | case4 out gap pos hge => exact pushLen_sum out _

theorem splitPass_sum {matcher : ℕ → ℕ → Option ℕ} (hm : Bounded matcher) (offsets : List ℕ) :
    (splitPass matcher offsets).sum = offsets.sum := by
  have hfold : ∀ (l : List ℕ) (acc : List ℕ × ℕ),
      (l.foldl (fun (acc : List ℕ × ℕ) off =>
        (scanWindow matcher (acc.2 + off) acc.1 acc.2 acc.2, acc.2 + off)) acc).1.sum =
        acc.1.sum + l.sum := by
    intro l
    induction l with
    | nil => intro acc; simp
    | cons off l ih =>
      intro acc
      rw [List.foldl_cons, ih, List.sum_cons]
      simp only
      rw [scanWindow_sum hm (Nat.le_refl _) (Nat.le_add_right _ _)]
      omega
  exact (hfold offsets ([], 0)).trans (Nat.zero_add _)

theorem matchNumber_bounded (coll : List ℕ) : Bounded (matchNumber coll) := by
  intro stop pos mEnd hlt h
  unfold matchNumber at h
  split at h
  · cases h
    have hle : runEnd cIsNumber coll (min stop (pos + 3)) (pos + 1) ≤ min stop (pos + 3) :=
      runEnd_le (by omega)
    omega
  · cases h

theorem matchCjk_bounded (cpts : List ℕ) : Bounded (matchCjk cpts) := by
  intro stop pos mEnd hlt h
  unfold matchCjk at h
  split at h
  · cases h
    exact runEnd_le hlt
  · cases h

theorem letterStart_le {coll : List ℕ} {stop pos start : ℕ} (hlt : pos < stop)
    (h : letterStart coll stop pos = some start) : start ≤ stop := by
  unfold letterStart at h
  simp only at h
  split at h
  · cases h
    omega
  · split at h
    · cases h
      omega
    · cases h

theorem matchSpace_le {coll : List ℕ} {stop pos : ℕ} (hlt : pos < stop) :
    matchSpace coll stop pos ≤ stop := by
  have hrun : pos + (((coll.take stop).drop pos).takeWhile cIsSpace).length ≤ stop :=
    runEnd_le (p := cIsSpace) (Nat.le_of_lt hlt)
  have hlast := lastEndRn_bounds (((coll.take stop).drop pos).takeWhile cIsSpace) pos
  unfold matchSpace
  simp only
  split
  · omega
  · split
    · split <;> omega
    · exact hrun

theorem matchWord_bounded (coll : List ℕ) : Bounded (matchWord coll) := by
  intro stop pos mEnd hlt h
  unfold matchWord at h
  simp only at h
  split at h
  · rename_i hlit
    cases h
    apply runEnd_le
    simp only [Bool.and_eq_true, decide_eq_true_eq] at hlit
    omega
  · split at h
    · rename_i start hstart
      cases h
      exact runEnd_le (letterStart_le hlt (Option.eq_some_of_filter_eq_some hstart))
    · have hstart : (if coll.getD pos 0 = 0x20 then pos + 1 else pos) ≤ stop := by
        split <;> omega
      generalize (if coll.getD pos 0 = 0x20 then pos + 1 else pos) = start at h hstart
      split at h
      · cases h
        exact runEnd_le (runEnd_le hstart)
      · split at h
        · cases h
          exact matchSpace_le hlt
        · cases h

theorem splitDeepseekV3_flatten (u : UnicodeData) (text : List Char) :
    (splitDeepseekV3 u text).flatten = text := by
  apply cutWords_flatten
  rw [splitPass_sum (matchWord_bounded _), splitPass_sum (matchCjk_bounded _),
    splitPass_sum (matchNumber_bounded _)]
  simp

/-! ## The byte alphabet -/

theorem utf8_append (a b : List Char) : utf8 (a ++ b) = utf8 a ++ utf8 b := List.flatMap_append

/-- The byte that a character of the alphabet spells, by the three gaps in the printable bytes. -/
def spelled (c : ℕ) : ℕ :=
  if c < 256 then c else if c < 289 then c - 256 else if c < 323 then c - 162 else 0xad

theorem spelled_byteToUnicode (b : UInt8) : spelled (byteToUnicode b).toNat = b.toNat := by
  have hall : ∀ n < 256, spelled (byteToUnicode (UInt8.ofNat n)).toNat = n := by decide +kernel
  have hb := hall b.toNat b.toNat_lt
  rwa [UInt8.ofNat_toNat] at hb

theorem byteToUnicode_injective {a b : UInt8} (h : byteToUnicode a = byteToUnicode b) : a = b := by
  apply UInt8.toNat_inj.1
  rw [← spelled_byteToUnicode a, h, spelled_byteToUnicode]

theorem unicodeToByte_byteToUnicode (b : UInt8) : unicodeToByte (byteToUnicode b) = some b := by
  have hmem : b ∈ (List.range 256).map UInt8.ofNat :=
    List.mem_map.2 ⟨b.toNat, List.mem_range.2 b.toNat_lt, UInt8.ofNat_toNat⟩
  cases hf : unicodeToByte (byteToUnicode b) with
  | none =>
    have hnone := List.find?_eq_none.1 hf b hmem
    simp at hnone
  | some a =>
    have hsame : byteToUnicode a = byteToUnicode b := by
      unfold unicodeToByte at hf
      simpa using List.find?_some hf
    rw [byteToUnicode_injective hsame]

end Memra
