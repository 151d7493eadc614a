import Memra.Lib.Utf8
import Mathlib

/-!
# UTF-8 against the characters

`utf8Head` is the table of well-formed sequences; here it is said in terms of the encodings of
characters: a sequence is a character exactly where an encoding begins the bytes
(`utf8Head_char_iff`), cut off exactly where the bytes begin an encoding (`utf8Head_incomplete_iff`),
and else invalid up to its maximal subpart (`utf8Head_invalid_iff`).
-/

namespace Lib

open String (utf8EncodeChar)

/-! ## The table in numbers -/

theorem utf8Width_eq (b : UInt8) : utf8Width b =
    if b.toNat < 0x80 then 1
    else if 0xc2 ≤ b.toNat ∧ b.toNat ≤ 0xdf then 2
    else if 0xe0 ≤ b.toNat ∧ b.toNat ≤ 0xef then 3
    else if 0xf0 ≤ b.toNat ∧ b.toNat ≤ 0xf4 then 4
    else 0 := by
  unfold utf8Width
  simp only [UInt8.lt_iff_toNat_lt, UInt8.le_iff_toNat_le, UInt8.reduceToNat]

theorem isCont_iff {b : UInt8} : isCont b = true ↔ 0x80 ≤ b.toNat ∧ b.toNat ≤ 0xbf := by
  simp [isCont, UInt8.le_iff_toNat_le]

theorem secondOk_iff {a b : UInt8} : secondOk a b = true ↔ 0x80 ≤ b.toNat ∧ b.toNat ≤ 0xbf ∧
    (a.toNat = 0xe0 → 0xa0 ≤ b.toNat) ∧ (a.toNat = 0xed → b.toNat ≤ 0x9f) ∧
    (a.toNat = 0xf0 → 0x90 ≤ b.toNat) ∧ (a.toNat = 0xf4 → b.toNat ≤ 0x8f) := by
  unfold secondOk
  simp only [← UInt8.toNat_inj, UInt8.reduceToNat]
  split
  · simp [UInt8.le_iff_toNat_le]
    omega
  · split
    · simp [UInt8.le_iff_toNat_le]
      omega
    · split
      · simp [UInt8.le_iff_toNat_le]
        omega
      · split
        · simp [UInt8.le_iff_toNat_le]
          omega
        · rw [isCont_iff]
          omega

theorem utf8Head_one {b : UInt8} (h : utf8Width b = 1) (bs : List UInt8) :
    utf8Head (b :: bs) = .char 1 := by
  rw [utf8Head_cons, h]
  rfl

theorem utf8Head_two {b b1 : UInt8} (h : utf8Width b = 2) (h1 : secondOk b b1 = true) :
    utf8Head [b, b1] = .char 2 := by
  rw [utf8Head_cons, h]
  simp [utf8Tail, h1]

theorem utf8Head_three {b b1 b2 : UInt8} (h : utf8Width b = 3) (h1 : secondOk b b1 = true)
    (h2 : isCont b2 = true) : utf8Head [b, b1, b2] = .char 3 := by
  rw [utf8Head_cons, h]
  simp [utf8Tail, h1, h2]

theorem utf8Head_four {b b1 b2 b3 : UInt8} (h : utf8Width b = 4) (h1 : secondOk b b1 = true)
    (h2 : isCont b2 = true) (h3 : isCont b3 = true) : utf8Head [b, b1, b2, b3] = .char 4 := by
  rw [utf8Head_cons, h]
  simp [utf8Tail, h1, h2, h3]

/-! ## Characters -/

/-- The encoding of a scalar value. -/
def utf8EncodeNat (v : ℕ) : List UInt8 :=
  if v ≤ 0x7f then [UInt8.ofNat v]
  else if v ≤ 0x7ff then [UInt8.ofNat (v / 64 % 0x20 + 0xc0), UInt8.ofNat (v % 0x40 + 0x80)]
  else if v ≤ 0xffff then
    [UInt8.ofNat (v / 4096 % 0x10 + 0xe0), UInt8.ofNat (v / 64 % 0x40 + 0x80),
      UInt8.ofNat (v % 0x40 + 0x80)]
  else
    [UInt8.ofNat (v / 262144 % 0x08 + 0xf0), UInt8.ofNat (v / 4096 % 0x40 + 0x80),
      UInt8.ofNat (v / 64 % 0x40 + 0x80), UInt8.ofNat (v % 0x40 + 0x80)]

theorem utf8EncodeChar_eq (c : Char) : utf8EncodeChar c = utf8EncodeNat c.val.toNat := rfl

theorem utf8EncodeChar_ofNat {v : ℕ} (h : v.isValidChar) :
    utf8EncodeChar (Char.ofNat v) = utf8EncodeNat v := by
  rw [utf8EncodeChar_eq]
  congr 1
  unfold Char.ofNat
  simp [h, Char.ofNatAux]

theorem utf8Head_encodeChar (c : Char) :
    utf8Head (utf8EncodeChar c) = .char (utf8EncodeChar c).length := by
  have hv : c.val.toNat < 0xd800 ∨ 0xdfff < c.val.toNat ∧ c.val.toNat < 0x110000 := c.valid
  rw [utf8EncodeChar_eq]
  generalize c.val.toNat = v at hv
  unfold utf8EncodeNat
  split
  · apply utf8Head_one
    rw [utf8Width_eq, UInt8.toNat_ofNat']
    rw [if_pos (by omega)]
  · split
    · apply utf8Head_two
      · rw [utf8Width_eq, UInt8.toNat_ofNat', if_neg (by omega), if_pos (by omega)]
      · rw [secondOk_iff, UInt8.toNat_ofNat', UInt8.toNat_ofNat']
        omega
    · split
      · apply utf8Head_three
        · rw [utf8Width_eq, UInt8.toNat_ofNat', if_neg (by omega), if_neg (by omega),
            if_pos (by omega)]
        · rw [secondOk_iff, UInt8.toNat_ofNat', UInt8.toNat_ofNat']
          omega
        · rw [isCont_iff, UInt8.toNat_ofNat']
          omega
      · apply utf8Head_four
        · rw [utf8Width_eq, UInt8.toNat_ofNat', if_neg (by omega), if_neg (by omega),
            if_neg (by omega), if_pos (by omega)]
        · rw [secondOk_iff, UInt8.toNat_ofNat', UInt8.toNat_ofNat']
          omega
        · rw [isCont_iff, UInt8.toNat_ofNat']
          omega
        · rw [isCont_iff, UInt8.toNat_ofNat']
          omega

theorem encode_one {b : UInt8} (h : utf8Width b = 1) : ∃ c, utf8EncodeChar c = [b] := by
  rw [utf8Width_eq] at h
  have hb : b.toNat < 0x80 := by
    by_contra hb
    split_ifs at h <;> omega
  have hv : b.toNat.isValidChar := .inl (by omega)
  refine ⟨Char.ofNat b.toNat, ?_⟩
  rw [utf8EncodeChar_ofNat hv, utf8EncodeNat, if_pos (by omega), UInt8.ofNat_toNat]

theorem encode_two {b b1 : UInt8} (h : utf8Width b = 2) (h1 : secondOk b b1 = true) :
    ∃ c, utf8EncodeChar c = [b, b1] := by
  rw [utf8Width_eq] at h
  rw [secondOk_iff] at h1
  have hb : 0xc2 ≤ b.toNat ∧ b.toNat ≤ 0xdf := by
    split_ifs at h <;> omega
  obtain ⟨v, hveq⟩ : ∃ v, v = (b.toNat - 0xc0) * 64 + (b1.toNat - 0x80) := ⟨_, rfl⟩
  have hv : v.isValidChar := .inl (by omega)
  have h0 : v / 64 % 0x20 + 0xc0 = b.toNat := by omega
  have h2 : v % 0x40 + 0x80 = b1.toNat := by omega
  refine ⟨Char.ofNat v, ?_⟩
  rw [utf8EncodeChar_ofNat hv, utf8EncodeNat, if_neg (by omega), if_pos (by omega), h0, h2,
    UInt8.ofNat_toNat, UInt8.ofNat_toNat]

theorem encode_three {b b1 b2 : UInt8} (h : utf8Width b = 3) (h1 : secondOk b b1 = true)
    (h2 : isCont b2 = true) : ∃ c, utf8EncodeChar c = [b, b1, b2] := by
  rw [utf8Width_eq] at h
  rw [secondOk_iff] at h1
  rw [isCont_iff] at h2
  have hb : 0xe0 ≤ b.toNat ∧ b.toNat ≤ 0xef := by
    split_ifs at h <;> omega
  obtain ⟨v, hveq⟩ : ∃ v, v = (b.toNat - 0xe0) * 4096 + (b1.toNat - 0x80) * 64 +
    (b2.toNat - 0x80) := ⟨_, rfl⟩
  have hv : v.isValidChar := by
    unfold Nat.isValidChar
    omega
  have h0 : v / 4096 % 0x10 + 0xe0 = b.toNat := by omega
  have h3 : v / 64 % 0x40 + 0x80 = b1.toNat := by omega
  have h4 : v % 0x40 + 0x80 = b2.toNat := by omega
  refine ⟨Char.ofNat v, ?_⟩
  rw [utf8EncodeChar_ofNat hv, utf8EncodeNat, if_neg (by omega), if_neg (by omega),
    if_pos (by omega), h0, h3, h4, UInt8.ofNat_toNat, UInt8.ofNat_toNat, UInt8.ofNat_toNat]

theorem encode_four {b b1 b2 b3 : UInt8} (h : utf8Width b = 4) (h1 : secondOk b b1 = true)
    (h2 : isCont b2 = true) (h3 : isCont b3 = true) : ∃ c, utf8EncodeChar c = [b, b1, b2, b3] := by
  rw [utf8Width_eq] at h
  rw [secondOk_iff] at h1
  rw [isCont_iff] at h2 h3
  have hb : 0xf0 ≤ b.toNat ∧ b.toNat ≤ 0xf4 := by
    split_ifs at h <;> omega
  obtain ⟨v, hveq⟩ : ∃ v, v = (b.toNat - 0xf0) * 262144 + (b1.toNat - 0x80) * 4096 +
    (b2.toNat - 0x80) * 64 + (b3.toNat - 0x80) := ⟨_, rfl⟩
  have hv : v.isValidChar := by
    unfold Nat.isValidChar
    omega
  have h0 : v / 262144 % 0x08 + 0xf0 = b.toNat := by omega
  have h4 : v / 4096 % 0x40 + 0x80 = b1.toNat := by omega
  have h5 : v / 64 % 0x40 + 0x80 = b2.toNat := by omega
  have h6 : v % 0x40 + 0x80 = b3.toNat := by omega
  refine ⟨Char.ofNat v, ?_⟩
  rw [utf8EncodeChar_ofNat hv, utf8EncodeNat, if_neg (by omega), if_neg (by omega),
    if_neg (by omega), h0, h4, h5, h6]
  simp only [UInt8.ofNat_toNat]

theorem utf8Width_le (b : UInt8) : utf8Width b ≤ 4 := by
  rw [utf8Width_eq]
  split_ifs <;> omega

/-- One more byte of a character. -/
theorem utf8Tail_char {ok : UInt8 → Bool} {k n m : ℕ} {x : List UInt8}
    (h : utf8Tail ok (k + 1) n x = .char m) :
    ∃ b y, x = b :: y ∧ ok b = true ∧ utf8Tail isCont k (n + 1) y = .char m := by
  cases x with
  | nil => cases h
  | cons b y =>
    unfold utf8Tail at h
    split at h
    · rename_i hb
      exact ⟨b, y, rfl, hb, h⟩
    · cases h

/-- What the table takes for a character encodes one. -/
theorem exists_encodeChar {x : List UInt8} {n : ℕ} (h : utf8Head x = .char n) :
    ∃ c, utf8EncodeChar c = x.take n := by
  cases x with
  | nil => cases h
  | cons b x =>
    rw [utf8Head_cons] at h
    have hle := utf8Width_le b
    obtain hw | hw | hw | hw | hw : utf8Width b = 0 ∨ utf8Width b = 1 ∨ utf8Width b = 2 ∨
      utf8Width b = 3 ∨ utf8Width b = 4 := by omega
    · rw [if_pos hw] at h
      cases h
    · rw [hw, if_neg (by decide)] at h
      cases h
      exact encode_one hw
    · rw [hw, if_neg (by decide)] at h
      obtain ⟨b1, y, rfl, h1, h⟩ := utf8Tail_char h
      cases h
      exact encode_two hw h1
    · rw [hw, if_neg (by decide)] at h
      obtain ⟨b1, y, rfl, h1, h⟩ := utf8Tail_char h
      obtain ⟨b2, z, rfl, h2, h⟩ := utf8Tail_char h
      cases h
      exact encode_three hw h1 h2
    · rw [hw, if_neg (by decide)] at h
      obtain ⟨b1, y, rfl, h1, h⟩ := utf8Tail_char h
      obtain ⟨b2, z, rfl, h2, h⟩ := utf8Tail_char h
      obtain ⟨b3, z', rfl, h3, h⟩ := utf8Tail_char h
      cases h
      exact encode_four hw h1 h2 h3

/-- A character stands in front exactly where the encoding of one does. -/
theorem utf8Head_char_iff {x : List UInt8} {n : ℕ} :
    utf8Head x = .char n ↔ ∃ c, utf8EncodeChar c <+: x ∧ n = (utf8EncodeChar c).length := by
  constructor
  · intro h
    obtain ⟨c, hc⟩ := exists_encodeChar h
    have hle := (utf8Head_char h).2
    refine ⟨c, hc ▸ List.take_prefix n x, ?_⟩
    rw [hc, List.length_take_of_le hle]
  · intro ⟨c, ⟨y, hx⟩, hn⟩
    have hc := utf8Head_encodeChar c
    rw [← hx, utf8Head_append (by rw [hc]; nofun), hc, hn]

/-! ## Cut off characters -/

/-- The beginning of a character, cut off. -/
def Truncated (x : List UInt8) : Prop := x ≠ [] ∧ ∃ c, x <+: utf8EncodeChar c ∧ x ≠ utf8EncodeChar c

/-- A byte that may follow: for each first byte there is a second one. -/
theorem exists_second {b : UInt8} : ∃ b1, secondOk b b1 = true := by
  by_cases h0 : b.toNat = 0xe0
  · exact ⟨0xa0, by rw [secondOk_iff]; simp [h0]⟩
  · by_cases h1 : b.toNat = 0xf0
    · exact ⟨0x90, by rw [secondOk_iff]; simp [h1]⟩
    · exact ⟨0x80, by rw [secondOk_iff]; simp [h0, h1]⟩

theorem utf8Tail_fill (k n : ℕ) :
    utf8Tail isCont k n (List.replicate k 0x80) = .char (n + k) := by
  induction k generalizing n with
  | zero => rfl
  | succ k ih =>
    rw [List.replicate_succ, utf8Tail, if_pos (by decide), ih]
    congr 1
    omega

/-- What is cut off can be completed. -/
theorem utf8Tail_complete {ok : UInt8 → Bool} (hok : ∃ b, ok b = true) {k n : ℕ} {x : List UInt8}
    (h : utf8Tail ok k n x = .incomplete) :
    ∃ y, y ≠ [] ∧ utf8Tail ok k n (x ++ y) = .char (n + (x ++ y).length) := by
  induction k generalizing ok n x with
  | zero => cases x <;> cases h
  | succ k ih =>
    cases x with
    | nil =>
      obtain ⟨b, hb⟩ := hok
      refine ⟨b :: List.replicate k 0x80, List.cons_ne_nil _ _, ?_⟩
      rw [List.nil_append, utf8Tail, if_pos hb, utf8Tail_fill, List.length_cons,
        List.length_replicate]
      congr 1
      omega
    | cons b x =>
      unfold utf8Tail at h
      split at h
      · rename_i hb
        obtain ⟨y, hy, hrest⟩ := ih ⟨0x80, by decide⟩ h
        refine ⟨y, hy, ?_⟩
        rw [List.cons_append, utf8Tail, if_pos hb, hrest, List.length_cons]
        congr 1
        omega
      · cases h

theorem utf8Head_incomplete_iff {x : List UInt8} :
    utf8Head x = .incomplete ↔ x = [] ∨ Truncated x := by
  constructor
  · intro h
    cases x with
    | nil => exact .inl rfl
    | cons b x =>
      rw [utf8Head_cons] at h
      by_cases hw : utf8Width b = 0
      · rw [if_pos hw] at h
        cases h
      · rw [if_neg hw] at h
        obtain ⟨y, hy, hfull⟩ := utf8Tail_complete exists_second h
        have hchar : utf8Head (b :: (x ++ y)) = .char (b :: (x ++ y)).length := by
          rw [utf8Head_cons, if_neg hw, hfull, List.length_cons, Nat.add_comm]
        obtain ⟨c, hc⟩ := exists_encodeChar hchar
        rw [List.take_length, ← List.cons_append] at hc
        refine .inr ⟨List.cons_ne_nil _ _, c, hc ▸ List.prefix_append _ _, ?_⟩
        rw [hc]
        exact fun heq => hy (List.self_eq_append_right.1 heq)
  · intro h
    rcases h with hx | ⟨-, c, ⟨y, hy⟩, hne⟩
    · rw [hx]
      rfl
    · by_contra hhead
      have hc := utf8Head_encodeChar c
      rw [← hy, utf8Head_append hhead] at hc
      have hle := (utf8Head_char hc).2
      rw [List.length_append] at hle
      have hnil : y = [] := List.length_eq_zero_iff.1 (by omega)
      rw [hnil, List.append_nil] at hy
      exact hne hy

/-! ## Invalid bytes -/

/-- The maximal subpart `w` of bytes that begin no character: the longest beginning of a character, or
the one byte that begins none. -/
structure MaximalSubpart (w x : List UInt8) : Prop where
  isPrefix : w <+: x
  noChar : ∀ c, ¬ utf8EncodeChar c <+: x
  notCut : ¬ Truncated x
  subpart : Truncated w ∨ w.length = 1
  longest : ∀ w', w' <+: x → Truncated w' → w'.length ≤ w.length

theorem utf8Tail_invalid {ok : UInt8 → Bool} {k n m : ℕ} {x : List UInt8}
    (h : utf8Tail ok k n x = .invalid m) : ∃ w b y, x = w ++ b :: y ∧ m = n + w.length ∧
      utf8Tail ok k n w = .incomplete ∧ utf8Tail ok k n (w ++ [b]) = .invalid m := by
  induction k generalizing ok n x with
  | zero => cases x <;> cases h
  | succ k ih =>
    cases x with
    | nil => cases h
    | cons b x =>
      unfold utf8Tail at h
      split at h
      · rename_i hb
        obtain ⟨w, b', y, hx, hm, hw, hwb⟩ := ih h
        refine ⟨b :: w, b', y, by rw [hx]; rfl, by rw [hm, List.length_cons]; omega, ?_, ?_⟩
        · rw [utf8Tail, if_pos hb, hw]
        · rw [List.cons_append, utf8Tail, if_pos hb, hwb]
      · rename_i hb
        cases h
        refine ⟨[], b, x, rfl, rfl, rfl, ?_⟩
        rw [List.nil_append, utf8Tail, if_neg hb]

theorem utf8Head_invalid_maximal {x : List UInt8} {n : ℕ} (h : utf8Head x = .invalid n) :
    ∃ w, MaximalSubpart w x ∧ n = w.length := by
  have hnoChar : ∀ c, ¬ utf8EncodeChar c <+: x := by
    intro c hc
    rw [utf8Head_char_iff.2 ⟨c, hc, rfl⟩] at h
    cases h
  have hnotCut : ¬ Truncated x := by
    intro hcut
    rw [utf8Head_incomplete_iff.2 (.inr hcut)] at h
    cases h
  cases x with
  | nil => cases h
  | cons b x =>
    rw [utf8Head_cons] at h
    by_cases hw : utf8Width b = 0
    · rw [if_pos hw] at h
      cases h
      refine ⟨[b], ⟨by simp, hnoChar, hnotCut, .inr rfl, ?_⟩, rfl⟩
      intro w' hw' hcut
      have hhead := utf8Head_incomplete_iff.2 (.inr hcut)
      cases w' with
      | nil => exact absurd rfl hcut.1
      | cons b' w' =>
        obtain rfl : b' = b := (List.cons_prefix_cons.1 hw').1
        rw [utf8Head_cons, if_pos hw] at hhead
        cases hhead
    · rw [if_neg hw] at h
      obtain ⟨w, b', y, hx, hn, hcut, hbad⟩ := utf8Tail_invalid h
      have hwcut : utf8Head (b :: w) = .incomplete := by rw [utf8Head_cons, if_neg hw, hcut]
      have hwbad : utf8Head (b :: w ++ [b']) = .invalid n := by
        rw [List.cons_append, utf8Head_cons, if_neg hw, hbad]
      have hpre : b :: w ++ [b'] <+: b :: x := by
        rw [hx]
        exact ⟨y, by simp⟩
      refine ⟨b :: w, ⟨(List.prefix_append _ _).trans hpre, hnoChar, hnotCut, .inl ?_, ?_⟩, ?_⟩
      · exact (utf8Head_incomplete_iff.1 hwcut).resolve_left (List.cons_ne_nil _ _)
      · intro w' hw' hcut'
        by_contra hlt
        rw [Nat.not_le] at hlt
        obtain ⟨z, hz⟩ := List.prefix_of_prefix_length_le hpre hw' (by simpa using hlt)
        have hhead := utf8Head_incomplete_iff.2 (.inr hcut')
        rw [← hz, utf8Head_append (by rw [hwbad]; nofun), hwbad] at hhead
        cases hhead
      · rw [hn, List.length_cons, Nat.add_comm]

theorem MaximalSubpart.length_unique {w w' x : List UInt8} (h : MaximalSubpart w x)
    (h' : MaximalSubpart w' x) (hne : w' ≠ []) : w.length ≤ w'.length := by
  rcases h.subpart with hcut | hone
  · exact h'.longest w h.isPrefix hcut
  · rw [hone]
    exact List.length_pos_iff.2 hne

theorem MaximalSubpart.ne_nil {w x : List UInt8} (h : MaximalSubpart w x) : w ≠ [] := by
  rcases h.subpart with hcut | hone
  · exact hcut.1
  · exact List.ne_nil_of_length_pos (by omega)

/-- Bytes are invalid up to their maximal subpart. -/
theorem utf8Head_invalid_iff {x : List UInt8} {n : ℕ} :
    utf8Head x = .invalid n ↔ ∃ w, MaximalSubpart w x ∧ n = w.length := by
  constructor
  · exact utf8Head_invalid_maximal
  · intro ⟨w, hw, hn⟩
    cases hhead : utf8Head x with
    | char m =>
      obtain ⟨c, hc, -⟩ := utf8Head_char_iff.1 hhead
      exact absurd hc (hw.noChar c)
    | incomplete =>
      rcases utf8Head_incomplete_iff.1 hhead with hx | hcut
      · exact absurd (List.prefix_nil.1 (hx ▸ hw.isPrefix)) hw.ne_nil
      · exact absurd hcut hw.notCut
    | invalid m =>
      obtain ⟨w', hw', hm⟩ := utf8Head_invalid_maximal hhead
      have h1 := hw.length_unique hw' hw'.ne_nil
      have h2 := hw'.length_unique hw hw.ne_nil
      congr 1
      omega

/-- More bytes do not change the subpart. -/
theorem MaximalSubpart.append {w x : List UInt8} (h : MaximalSubpart w x) (y : List UInt8) :
    MaximalSubpart w (x ++ y) := by
  have hhead := utf8Head_invalid_iff.2 ⟨w, h, rfl⟩
  have happ : utf8Head (x ++ y) = .invalid w.length := by
    rw [utf8Head_append (by rw [hhead]; nofun), hhead]
  obtain ⟨w', hw', hlen⟩ := utf8Head_invalid_iff.1 happ
  have hw : w <+: x ++ y := h.isPrefix.trans (List.prefix_append _ _)
  rwa [(List.prefix_of_prefix_length_le hw hw'.isPrefix hlen.le).eq_of_length hlen]

theorem Truncated.of_prefix {x y : List UInt8} (h : Truncated y) (hne : x ≠ []) (hxy : x <+: y) :
    Truncated x := by
  obtain ⟨-, c, hpre, hneq⟩ := h
  refine ⟨hne, c, hxy.trans hpre, ?_⟩
  intro heq
  subst heq
  exact hneq (hpre.eq_of_length (Nat.le_antisymm hpre.length_le hxy.length_le))

/-- The subpart ends before the first byte that no character has there, whatever follows that byte. -/
theorem MaximalSubpart.of_next {w x : List UInt8} {b : UInt8} (h : MaximalSubpart w (w ++ b :: x))
    (y : List UInt8) : MaximalSubpart w (w ++ b :: y) := by
  have hnext : w ++ [b] <+: w ++ b :: x := ⟨x, by simp⟩
  have hnext' : w ++ [b] <+: w ++ b :: y := ⟨y, by simp⟩
  have hcut : ¬ Truncated (w ++ [b]) := by
    intro hcut
    have hle := h.longest _ hnext hcut
    simp at hle
  have hlong : ∀ w', w' <+: w ++ b :: y → Truncated w' → w'.length ≤ w.length := by
    intro w' hw' htrunc
    by_contra hlt
    rw [Nat.not_le] at hlt
    have hpre := List.prefix_of_prefix_length_le hnext' hw' (by simpa using hlt)
    exact hcut (htrunc.of_prefix (by simp) hpre)
  refine ⟨List.prefix_append _ _, ?_, ?_, h.subpart, hlong⟩
  · intro c hc
    rcases Nat.lt_or_ge (w ++ [b]).length (utf8EncodeChar c).length with hlt | hge
    · have hpre := List.prefix_of_prefix_length_le hnext' hc hlt.le
      refine hcut ⟨by simp, c, hpre, ?_⟩
      intro heq
      rw [heq] at hlt
      exact absurd hlt (Nat.lt_irrefl _)
    · exact h.noChar c ((List.prefix_of_prefix_length_le hc hnext' hge).trans hnext)
  · intro htrunc
    have hle := hlong _ (List.prefix_refl _) htrunc
    simp at hle

/-- Nothing behind the subpart. -/
theorem MaximalSubpart.alone {w x : List UInt8} (h : MaximalSubpart w (w ++ x))
    (hcut : ¬ Truncated w) : MaximalSubpart w w :=
  ⟨List.prefix_refl _, fun c hc => h.noChar c (hc.trans (List.prefix_append _ _)), hcut, h.subpart,
    fun _ hw' _ => hw'.length_le⟩

/-! ## Lossy decoding -/

/-- A part of the decoded bytes: a character, or bytes that are replaced. -/
structure Part where
  bytes : List UInt8
  replaced : Bool

def Part.text (p : Part) : List UInt8 := if p.replaced then replacement else p.bytes

/-- Lossy decoding: characters, maximal subparts that are replaced, and a character cut off by the
end. -/
inductive Lossy : List UInt8 → List Part → List UInt8 → Prop
  | done : Lossy [] [] []
  | cut {x : List UInt8} (h : Truncated x) : Lossy x [] x
  | char {x e : List UInt8} {ps : List Part} (c : Char) (tail : Lossy x ps e) :
      Lossy (utf8EncodeChar c ++ x) (⟨utf8EncodeChar c, false⟩ :: ps) e
  | bad {w x e : List UInt8} {ps : List Part} (h : MaximalSubpart w (w ++ x))
      (tail : Lossy x ps e) : Lossy (w ++ x) (⟨w, true⟩ :: ps) e

namespace Lossy

variable {x y e : List UInt8} {ps : List Part}

theorem bytes_append (h : Lossy x ps e) : x = ps.flatMap Part.bytes ++ e := by
  induction h with
  | done => rfl
  | cut => rfl
  | char c _ ih => rw [List.flatMap_cons, List.append_assoc, ← ih]
  | bad _ _ ih => rw [List.flatMap_cons, List.append_assoc, ← ih]

theorem end_cut (h : Lossy x ps e) : e = [] ∨ Truncated e := by
  induction h with
  | done => exact .inl rfl
  | cut h => exact .inr h
  | char _ _ ih => exact ih
  | bad _ _ ih => exact ih

/-- What the end left is decoded with the bytes behind it. -/
theorem append (h : Lossy x ps e) {ps' : List Part} {e' : List UInt8} (h' : Lossy (e ++ y) ps' e') :
    Lossy (x ++ y) (ps ++ ps') e' := by
  induction h with
  | done => exact h'
  | cut => exact h'
  | char c _ ih =>
    rw [List.append_assoc]
    exact .char c (ih h')
  | bad hw _ ih =>
    have hmax := hw.append y
    rw [List.append_assoc] at hmax ⊢
    exact .bad hmax (ih h')

/-- The decoder computes it. -/
theorem exists_scan (x : List UInt8) : ∃ ps e, Lossy x ps e ∧
    utf8Scan x = (ps.flatMap Part.text, (ps.flatMap Part.bytes).length) := by
  induction hl : x.length using Nat.strongRecOn generalizing x with
  | ind l ih =>
    cases hhead : utf8Head x with
    | incomplete =>
      rw [utf8Scan_incomplete hhead]
      rcases utf8Head_incomplete_iff.1 hhead with rfl | hcut
      · exact ⟨[], [], .done, rfl⟩
      · exact ⟨[], x, .cut hcut, rfl⟩
    | char n =>
      obtain ⟨hpos, hle⟩ := utf8Head_char hhead
      obtain ⟨c, ⟨y, rfl⟩, rfl⟩ := utf8Head_char_iff.1 hhead
      rw [List.length_append] at hl
      obtain ⟨ps, e, hps, hscan⟩ := ih y.length (by omega) y rfl
      refine ⟨_, e, .char c hps, ?_⟩
      rw [utf8Scan_char hhead, List.drop_left, List.take_left, hscan]
      simp [Part.text]
    | invalid n =>
      obtain ⟨hpos, hle⟩ := utf8Head_invalid hhead
      obtain ⟨w, hw, rfl⟩ := utf8Head_invalid_iff.1 hhead
      obtain ⟨y, rfl⟩ := hw.isPrefix
      rw [List.length_append] at hl
      obtain ⟨ps, e, hps, hscan⟩ := ih y.length (by omega) y rfl
      refine ⟨_, e, .bad hw hps, ?_⟩
      rw [utf8Scan_invalid hhead, List.drop_left, hscan]
      simp [Part.text]

theorem head_eq (h : Lossy x ps e) : utf8Head x =
    ps.head?.elim .incomplete fun p =>
      if p.replaced then .invalid p.bytes.length else .char p.bytes.length := by
  cases h with
  | done => rfl
  | cut h => exact utf8Head_incomplete_iff.2 (.inr h)
  | char c _ => exact utf8Head_char_iff.2 ⟨c, List.prefix_append _ _, rfl⟩
  | bad h _ => exact utf8Head_invalid_iff.2 ⟨_, h, rfl⟩

theorem of_cons {p : Part} (h : Lossy x (p :: ps) e) : ∃ y, x = p.bytes ++ y ∧ Lossy y ps e := by
  cases h with
  | char c tail => exact ⟨_, rfl, tail⟩
  | bad hw tail => exact ⟨_, rfl, tail⟩

theorem of_nil (h : Lossy x [] e) : e = x := h.bytes_append.symm

/-- Two decodings begin alike. -/
theorem cons_unique {y : List UInt8} {p : Part} (h : Lossy x (p :: ps) e) (hx : x = p.bytes ++ y)
    {ps' : List Part} {e' : List UInt8} (h' : Lossy x ps' e') :
    ∃ ps'', ps' = p :: ps'' ∧ Lossy y ps'' e' := by
  have hhead := h.head_eq
  rw [h'.head_eq] at hhead
  cases ps' with
  | nil =>
    simp only [List.head?_nil, List.head?_cons, Option.elim_none, Option.elim_some] at hhead
    split at hhead <;> cases hhead
  | cons p' ps' =>
    obtain ⟨y', hx', htail⟩ := h'.of_cons
    have hkind : p'.replaced = p.replaced ∧ p'.bytes.length = p.bytes.length := by
      simp only [List.head?_cons, Option.elim_some] at hhead
      split at hhead <;> split at hhead <;> simp_all
    have hbytes : p'.bytes = p.bytes ∧ y' = y := by
      rw [hx] at hx'
      exact List.append_inj hx'.symm hkind.2
    refine ⟨ps', ?_, hbytes.2 ▸ htail⟩
    cases p
    cases p'
    simp_all

theorem nil_unique (h : Lossy x [] e) {ps' : List Part} {e' : List UInt8} (h' : Lossy x ps' e') :
    [] = ps' ∧ e = e' := by
  cases ps' with
  | nil => exact ⟨rfl, h.of_nil.trans h'.of_nil.symm⟩
  | cons p ps' =>
    obtain ⟨y, hx, -⟩ := h'.of_cons
    obtain ⟨_, hnil, -⟩ := h'.cons_unique hx h
    cases hnil

/-- There is one way to decode. -/
theorem unique (h : Lossy x ps e) {ps' : List Part} {e' : List UInt8} (h' : Lossy x ps' e') :
    ps = ps' ∧ e = e' := by
  induction h generalizing ps' with
  | done => exact Lossy.done.nil_unique h'
  | cut hcut => exact (Lossy.cut hcut).nil_unique h'
  | char c tail ih =>
    obtain ⟨ps'', rfl, htail⟩ := (Lossy.char c tail).cons_unique rfl h'
    obtain ⟨rfl, rfl⟩ := ih htail
    exact ⟨rfl, rfl⟩
  | bad hw tail ih =>
    obtain ⟨ps'', rfl, htail⟩ := (Lossy.bad hw tail).cons_unique rfl h'
    obtain ⟨rfl, rfl⟩ := ih htail
    exact ⟨rfl, rfl⟩

/-- More bytes add parts. -/
theorem parts_prefix (h : Lossy x ps e) {ps' : List Part} {e' : List UInt8}
    (h' : Lossy (x ++ y) ps' e') : ps <+: ps' := by
  obtain ⟨ps'', e'', hend, -⟩ := exists_scan (e ++ y)
  exact ⟨ps'', ((h.append hend).unique h').1⟩

/-- Replaced bytes begin no character. -/
theorem replaced (h : Lossy x ps e) {pre post : List Part} {w : List UInt8}
    (hps : ps = pre ++ ⟨w, true⟩ :: post) (c : Char) :
    ¬ utf8EncodeChar c <+: x.drop (pre.flatMap Part.bytes).length := by
  induction h generalizing pre with
  | done => simp at hps
  | cut => simp at hps
  | char c' _ ih =>
    cases pre with
    | nil => cases hps
    | cons p pre =>
      obtain ⟨rfl, rfl⟩ := List.cons.inj hps
      have hrest := ih rfl
      rwa [List.flatMap_cons, List.length_append, ← List.drop_drop, List.drop_left]
  | bad hw _ ih =>
    cases pre with
    | nil => exact hw.noChar c
    | cons p pre =>
      obtain ⟨rfl, rfl⟩ := List.cons.inj hps
      have hrest := ih rfl
      rwa [List.flatMap_cons, List.length_append, ← List.drop_drop, List.drop_left]

/-- The text of a whole byte string, also of a character cut off by its end. -/
def endText (e : List UInt8) : List UInt8 := if e = [] then [] else replacement

/-- Without the cut off end the bytes decode to the same text. -/
theorem strip (h : Lossy x ps e) : ∃ ps' e', Lossy (ps.flatMap Part.bytes) ps' e' ∧
    ps'.flatMap Part.text ++ endText e' = ps.flatMap Part.text := by
  induction h with
  | done => exact ⟨[], [], .done, rfl⟩
  | cut => exact ⟨[], [], .done, rfl⟩
  | char c _ ih =>
    obtain ⟨ps', e', hps, htext⟩ := ih
    refine ⟨_, e', .char c hps, ?_⟩
    rw [List.flatMap_cons, List.flatMap_cons, List.append_assoc, htext]
  | @bad w x e ps hw tail ih =>
    obtain ⟨ps', e', hps, htext⟩ := ih
    have hx := tail.bytes_append
    cases hrest : ps.flatMap Part.bytes with
    | nil =>
      rw [hrest] at hps
      have hnil : ps.flatMap Part.text = [] := by
        rw [← htext]
        obtain ⟨rfl, rfl⟩ := Lossy.done.unique hps
        rfl
      rw [List.flatMap_cons, List.flatMap_cons, hrest, hnil, List.append_nil]
      by_cases hcut : Truncated w
      · exact ⟨[], w, .cut hcut, by simp [endText, hcut.1, Part.text]⟩
      · have hbad := Lossy.bad (x := []) (w := w) (by
          rw [List.append_nil]
          exact hw.alone hcut) .done
        rw [List.append_nil] at hbad
        exact ⟨_, [], hbad, by simp [endText]⟩
    | cons b y =>
      rw [hx, hrest, List.cons_append] at hw
      have hbad := hw.of_next y
      rw [hrest] at hps
      refine ⟨_, e', by
        rw [List.flatMap_cons, hrest]
        exact .bad hbad hps, ?_⟩
      rw [List.flatMap_cons, List.flatMap_cons, List.append_assoc, htext]

end Lossy

/-! ## The end of the bytes -/

theorem Truncated.exists_cons {x : List UInt8} (h : Truncated x) :
    ∃ b y, x = b :: y ∧ utf8Width b ≠ 0 := by
  have hhead := utf8Head_incomplete_iff.2 (.inr h)
  cases x with
  | nil => exact absurd rfl h.1
  | cons b y =>
    refine ⟨b, y, rfl, fun hw => ?_⟩
    rw [utf8Head_cons, if_pos hw] at hhead
    cases hhead

/-- A byte that begins a character continues none. -/
theorem not_cont {a b : UInt8} (h : utf8Width b ≠ 0) : isCont b = false ∧ secondOk a b = false := by
  have hb : ¬ (0x80 ≤ b.toNat ∧ b.toNat ≤ 0xbf) := by
    intro hb
    rw [utf8Width_eq] at h
    split_ifs at h <;> omega
  constructor
  · rw [← Bool.not_eq_true, isCont_iff]
    exact hb
  · rw [← Bool.not_eq_true, secondOk_iff]
    omega

theorem utf8Tail_stop {ok : UInt8 → Bool} {b : UInt8} (hok : ok b = false) (hcont : isCont b = false)
    {k n : ℕ} {x : List UInt8} (h : utf8Tail ok k n x = .incomplete) (y : List UInt8) :
    utf8Tail ok k n (x ++ b :: y) = .invalid (n + x.length) := by
  induction k generalizing ok n x with
  | zero => cases x <;> cases h
  | succ k ih =>
    cases x with
    | nil =>
      rw [List.nil_append, utf8Tail, hok]
      rfl
    | cons b' x =>
      unfold utf8Tail at h
      split at h
      · rename_i hb
        rw [List.cons_append, utf8Tail, if_pos hb, ih hcont h, List.length_cons]
        congr 1
        omega
      · cases h

/-- A cut off character is invalid when another one begins behind it. -/
theorem Truncated.maximalSubpart {x s : List UInt8} (h : Truncated x) (hs : Truncated s) :
    MaximalSubpart x (x ++ s) := by
  obtain ⟨b, y, rfl, hb⟩ := hs.exists_cons
  have hhead := utf8Head_incomplete_iff.2 (.inr h)
  have hbad : utf8Head (x ++ b :: y) = .invalid x.length := by
    obtain ⟨a, x, rfl, ha⟩ := h.exists_cons
    rw [utf8Head_cons, if_neg ha] at hhead
    obtain ⟨hcont, hok⟩ := not_cont (a := a) hb
    rw [List.cons_append, utf8Head_cons, if_neg ha, utf8Tail_stop hok hcont hhead, List.length_cons,
      Nat.add_comm]
  obtain ⟨w, hw, hlen⟩ := utf8Head_invalid_iff.1 hbad
  have hpre := List.prefix_of_prefix_length_le (List.prefix_append x (b :: y)) hw.isPrefix hlen.le
  rwa [← hpre.eq_of_length hlen] at hw

/-- A cut off character at the end of the bytes is what decoding leaves. -/
theorem Lossy.end_of_suffix {x e s : List UInt8} {ps : List Part} (h : Lossy x ps e) (hx : s <:+ x)
    (hs : Truncated s) : e = s := by
  obtain ⟨q, rfl⟩ := hx
  obtain ⟨ps', e', hq, -⟩ := Lossy.exists_scan q
  rcases hq.end_cut with rfl | hcut
  · exact (h.unique (hq.append (.cut hs))).2
  · exact (h.unique (hq.append (.bad (hcut.maximalSubpart hs) (.cut hs)))).2

/-- The character that the bytes end in, cut off, or nothing where there is none. -/
def CutEnd (x e : List UInt8) : Prop :=
  e <:+ x ∧ (Truncated e ∨ e = [] ∧ ∀ s, s <:+ x → ¬ Truncated s)

theorem Lossy.cutEnd {x e : List UInt8} {ps : List Part} (h : Lossy x ps e) : CutEnd x e := by
  refine ⟨⟨_, h.bytes_append.symm⟩, ?_⟩
  rcases h.end_cut with rfl | hcut
  · refine .inr ⟨rfl, fun s hs hcut => ?_⟩
    exact hcut.1 (h.end_of_suffix hs hcut).symm
  · exact .inl hcut

end Lib
