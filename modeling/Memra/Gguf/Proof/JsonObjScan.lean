import Memra.Gguf.JsonObj
import Memra.Lib.Utf8Char
import Memra.Tokenizer.Proof.JsonBytes

/-!
# The scanners of the JSON reader

What each loop of the reader does on what is ahead: it passes what stands in a string or in a block, and
ends behind the closing sign, at the end of the text, or, behind a backslash, one byte further.
-/

namespace Memra

namespace JsonObj

open Lib Lib.Cursor
open Json (byte asChar isWs fromUtf8 utf8_cons fromUtf8_utf8)

variable {b : List UInt8} {i : ℕ} {u rest : List UInt8}

/-! ## Text -/

theorem utf8Scan_utf8 (s : List Char) : utf8Scan (utf8 s) = (utf8 s, (utf8 s).length) := by
  induction s with
  | nil => exact utf8Scan_nil
  | cons c s ih =>
    have hhead : utf8Head (utf8 (c :: s)) = .char (String.utf8EncodeChar c).length :=
      utf8Head_char_iff.2 ⟨c, List.prefix_append _ _, rfl⟩
    rw [utf8Scan_char hhead, utf8_cons, List.take_left, List.drop_left, ih, List.length_append]

/-- A text is taken out of its bytes as it is. -/
theorem lossy_utf8 (s : List Char) : lossy (utf8 s) = s := by
  have h : fromUtf8Lossy (utf8 s) = utf8 s := by
    unfold fromUtf8Lossy
    rw [utf8Scan_utf8]
    simp
  unfold lossy
  rw [h, fromUtf8_utf8]
  rfl

/-! ## Skipping -/

theorem skipWs_of_drop {w : List UInt8} (h : b.drop i = w ++ rest) (hw : ∀ c ∈ w, isWs c = true)
    (hrest : ∀ c ∈ rest.head?, isWs c = false) : skipWs b i = .ok (i + w.length) :=
  skip_of_drop h hw hrest

/-! ## Strings -/

theorem length_of_end {s : List UInt8} (h : b.drop i = s) (hi : i ≤ b.length) :
    i + s.length = b.length := by
  rw [← h, List.length_drop]
  omega

theorem stringEnd_cons {x : UInt8} (h : b.drop i = x :: rest) : stringEnd b i =
    if x = byte '\\' then stringEnd b (i + 2)
    else if x = byte '"' then .ok (i + 1)
    else stringEnd b (i + 1) := by
  rw [stringEnd, if_pos (lt_of_drop h), index_of_drop h]
  rfl

theorem stringEnd_end (h : b.length ≤ i) : stringEnd b i = .ok i := by
  rw [stringEnd, if_neg (by omega)]
  rfl

theorem stringEnd_inside {r : List UInt8} (hu : InString u) (h : b.drop i = u ++ r) :
    stringEnd b i = stringEnd b (i + u.length) := by
  induction hu generalizing i with
  | nil => rfl
  | @plain x t hq he _ ih =>
    rw [stringEnd_cons h, if_neg he, if_neg hq, ih (drop_succ_of_drop h), List.length_cons,
      Nat.add_assoc, Nat.add_comm 1]
  | @escaped x t _ ih =>
    have hnext := ih (drop_succ_of_drop (drop_succ_of_drop h))
    rw [stringEnd_cons h, if_pos rfl, hnext, List.length_cons, List.length_cons]
    congr 1
    omega

theorem stringEnd_quote (h : b.drop i = byte '"' :: rest) : stringEnd b i = .ok (i + 1) := by
  rw [stringEnd_cons h, if_neg (by decide), if_pos rfl]

theorem length_of_last {x : UInt8} (h : b.drop i = [x]) : b.length = i + 1 := by
  have hlt := lt_of_drop h
  have hlen := congrArg List.length h
  rw [List.length_drop, List.length_singleton] at hlen
  omega

/-- Behind a backslash the loop goes out of the text. -/
theorem stringEnd_backslash (h : b.drop i = [byte '\\']) : stringEnd b i = .ok (b.length + 1) := by
  have hlen := length_of_last h
  rw [stringEnd_cons h, if_pos rfl, stringEnd_end (by omega), hlen]

/-! ## Keys -/

section
variable {s : List Char}

theorem readStringLoop_cons {x : UInt8} (h : b.drop i = x :: rest) : readStringLoop b s i =
    if x = byte '"' then .ok (s, i + 1)
    else if x = byte '\\' then
      if i + 1 < b.length then do
        let e ← index b (i + 1)
        readStringLoop b (s ++ [unescape e]) (i + 2)
      else readStringLoop b s (i + 1)
    else readStringLoop b (s ++ [asChar x]) (i + 1) := by
  rw [readStringLoop, if_pos (lt_of_drop h), index_of_drop h]
  rfl

theorem readStringLoop_end (h : b.length ≤ i) : readStringLoop b s i = .ok (s, i) := by
  rw [readStringLoop, if_neg (by omega)]
  rfl

theorem readStringLoop_plain (hu : ∀ x ∈ u, x ≠ byte '"' ∧ x ≠ byte '\\')
    (h : b.drop i = u ++ rest) :
    readStringLoop b s i = readStringLoop b (s ++ u.map asChar) (i + u.length) := by
  induction u generalizing i s with
  | nil =>
    rw [List.map_nil, List.append_nil]
    rfl
  | cons x t ih =>
    obtain ⟨⟨hq, he⟩, ht⟩ := List.forall_mem_cons.1 hu
    rw [readStringLoop_cons h, if_neg hq, if_neg he, ih ht (drop_succ_of_drop h), List.append_assoc,
      List.length_cons, Nat.add_assoc, Nat.add_comm 1]
    rfl

theorem readStringLoop_inside {r : List UInt8} (hu : InString u) (h : b.drop i = u ++ r) :
    ∃ s', readStringLoop b s i = readStringLoop b s' (i + u.length) := by
  induction hu generalizing i s with
  | nil => exact ⟨s, rfl⟩
  | @plain x t hq he _ ih =>
    obtain ⟨s', hs'⟩ := ih (drop_succ_of_drop h)
    refine ⟨s', ?_⟩
    rw [readStringLoop_cons h, if_neg hq, if_neg he, hs', List.length_cons, Nat.add_assoc,
      Nat.add_comm 1]
  | @escaped x t _ ih =>
    have hx := drop_succ_of_drop h
    obtain ⟨s', hs'⟩ := ih (drop_succ_of_drop hx)
    refine ⟨s', ?_⟩
    rw [readStringLoop_cons h, if_neg (by decide), if_pos rfl, if_pos (lt_of_drop hx),
      index_of_drop hx]
    refine hs'.trans ?_
    rw [List.length_cons, List.length_cons]
    congr 1
    omega

theorem readStringLoop_backslash (h : b.drop i = [byte '\\']) :
    readStringLoop b s i = .ok (s, b.length) := by
  have hlen := length_of_last h
  rw [readStringLoop_cons h, if_neg (by decide), if_pos rfl, if_neg (by omega),
    readStringLoop_end (by omega), hlen]

theorem readString_inside (hu : InString u) (h : b.drop i = byte '"' :: (u ++ byte '"' :: rest)) :
    ∃ s, readString b i = .ok (s, i + u.length + 2) := by
  have hrest := drop_succ_of_drop h
  obtain ⟨s', hs'⟩ := readStringLoop_inside (s := []) hu hrest
  refine ⟨s', ?_⟩
  unfold readString
  rw [hs', readStringLoop_cons (drop_add_of_drop hrest), if_pos rfl]
  congr 2
  omega

/-- A key ends behind its quote or at the end of the text. -/
theorem readString_cases (h : b.drop i = byte '"' :: rest) :
    (∃ s, readString b i = .ok (s, b.length)) ∨
      ∃ s u rest', readString b i = .ok (s, i + u.length + 2) ∧ InString u ∧
        rest = u ++ byte '"' :: rest' := by
  have hrest := drop_succ_of_drop h
  have hlen := length_of_end h (lt_of_drop h).le
  rw [List.length_cons] at hlen
  obtain ⟨u, hu, ⟨rest', rfl⟩ | rfl | rfl⟩ := inside_cases (byte '"') (byte '\\') rest
  · obtain ⟨s', hs'⟩ := readString_inside hu h
    exact .inr ⟨s', u, rest', hs', hu, rfl⟩
  · obtain ⟨s', hs'⟩ := readStringLoop_inside (s := []) (r := []) hu (by rwa [List.append_nil])
    refine .inl ⟨s', ?_⟩
    unfold readString
    rw [hs', readStringLoop_end (by omega)]
    congr 2
    omega
  · obtain ⟨s', hs'⟩ := readStringLoop_inside (s := []) hu hrest
    refine .inl ⟨s', ?_⟩
    unfold readString
    rw [hs', readStringLoop_backslash (drop_add_of_drop hrest)]

theorem readString_plain (hu : ∀ x ∈ u, x ≠ byte '"' ∧ x ≠ byte '\\')
    (h : b.drop i = byte '"' :: (u ++ byte '"' :: rest)) :
    readString b i = .ok (u.map asChar, i + u.length + 2) := by
  have hrest := drop_succ_of_drop h
  unfold readString
  rw [readStringLoop_plain hu hrest, readStringLoop_cons (drop_add_of_drop hrest), if_pos rfl]
  congr 2
  omega

end

/-! ## Blocks -/

section
variable {o c : UInt8} {d d' : ℕ} {D : ℤ}

theorem blockEnd_inStr {x : UInt8} (h : b.drop i = x :: rest) : blockEnd b o c D true i =
    if x = byte '\\' then blockEnd b o c D true (i + 2)
    else if x = byte '"' then blockEnd b o c D false (i + 1)
    else blockEnd b o c D true (i + 1) := by
  rw [blockEnd, if_pos (lt_of_drop h), index_of_drop h]
  rfl

theorem blockEnd_outside {x : UInt8} (h : b.drop i = x :: rest) : blockEnd b o c D false i =
    if x = byte '"' then blockEnd b o c D true (i + 1)
    else if x = o then blockEnd b o c (D + 1) false (i + 1)
    else if x = c then
      if D - 1 = 0 then .ok (i + 1) else blockEnd b o c (D - 1) false (i + 1)
    else blockEnd b o c D false (i + 1) := by
  rw [blockEnd, if_pos (lt_of_drop h), index_of_drop h]
  rfl

theorem blockEnd_end {inStr : Bool} (h : b.length ≤ i) : blockEnd b o c D inStr i = .ok i := by
  rw [blockEnd, if_neg (by omega)]
  rfl

theorem blockEnd_inside {r : List UInt8} (hu : InString u) (h : b.drop i = u ++ r) :
    blockEnd b o c D true i = blockEnd b o c D true (i + u.length) := by
  induction hu generalizing i with
  | nil => rfl
  | @plain x t hq he _ ih =>
    rw [blockEnd_inStr h, if_neg he, if_neg hq, ih (drop_succ_of_drop h), List.length_cons,
      Nat.add_assoc, Nat.add_comm 1]
  | @escaped x t _ ih =>
    have hnext := ih (drop_succ_of_drop (drop_succ_of_drop h))
    rw [blockEnd_inStr h, if_pos rfl, hnext, List.length_cons, List.length_cons]
    congr 1
    omega

theorem blockEnd_quote (h : b.drop i = byte '"' :: rest) :
    blockEnd b o c D false i = blockEnd b o c D true (i + 1) := by
  rw [blockEnd_outside h, if_pos rfl]

theorem blockEnd_unquote (h : b.drop i = byte '"' :: rest) :
    blockEnd b o c D true i = blockEnd b o c D false (i + 1) := by
  rw [blockEnd_inStr h, if_neg (by decide), if_pos rfl]

theorem blockEnd_backslash (h : b.drop i = [byte '\\']) :
    blockEnd b o c D true i = .ok (b.length + 1) := by
  have hlen := length_of_last h
  rw [blockEnd_inStr h, if_pos rfl, blockEnd_end (by omega), hlen]

theorem Brackets.ne (hb : Brackets o c) : o ≠ byte '"' ∧ c ≠ byte '"' ∧ c ≠ o := by
  rcases hb with ⟨rfl, rfl⟩ | ⟨rfl, rfl⟩ <;> decide

theorem blockEnd_opening (hb : Brackets o c) (h : b.drop i = o :: rest) :
    blockEnd b o c D false i = blockEnd b o c (D + 1) false (i + 1) := by
  rw [blockEnd_outside h, if_neg hb.ne.1, if_pos rfl]

theorem blockEnd_closing (hb : Brackets o c) (h : b.drop i = c :: rest) :
    blockEnd b o c D false i =
      if D - 1 = 0 then .ok (i + 1) else blockEnd b o c (D - 1) false (i + 1) := by
  rw [blockEnd_outside h, if_neg hb.ne.2.1, if_neg hb.ne.2.2, if_pos rfl]

/-- The loop goes from depth to depth. -/
theorem blockEnd_within {t : List UInt8} (hb : Brackets o c)
    (ht : Within (byte '"') (byte '\\') o c d t d') (h : b.drop i = t ++ rest) :
    blockEnd b o c d false i = blockEnd b o c d' false (i + t.length) := by
  induction ht generalizing i with
  | nil => rfl
  | @plain x t d d' hq ho hc _ ih =>
    rw [blockEnd_outside h, if_neg hq, if_neg ho, if_neg hc, ih (drop_succ_of_drop h),
      List.length_cons, Nat.add_assoc, Nat.add_comm 1]
  | @string s t d d' hs _ ih =>
    have hstring : b.drop (i + 1) = s ++ (byte '"' :: (t ++ rest)) :=
      (drop_succ_of_drop h).trans (List.append_assoc _ _ _)
    have hquote := drop_add_of_drop hstring
    rw [blockEnd_quote h, blockEnd_inside hs hstring, blockEnd_unquote hquote,
      ih (drop_succ_of_drop hquote)]
    congr 1
    rw [List.length_cons, List.length_append, List.length_cons]
    omega
  | opens _ ih =>
    rw [blockEnd_opening hb h, ← Nat.cast_succ, ih (drop_succ_of_drop h), List.length_cons,
      Nat.add_assoc, Nat.add_comm 1]
  | @closes t d d' _ ih =>
    rw [blockEnd_closing hb h, if_neg (by push_cast; omega)]
    have hdepth : ((d + 2 : ℕ) : ℤ) - 1 = ((d + 1 : ℕ) : ℤ) := by
      push_cast
      omega
    rw [hdepth, ih (drop_succ_of_drop h), List.length_cons, Nat.add_assoc, Nat.add_comm 1]

end

/-! ## Values -/

section
variable {o c : UInt8}

theorem slice_out {k : ℕ} : (slice b k (b.length + 1) : Res (List UInt8)) = .error .panic := by
  unfold slice
  rw [if_neg (by omega)]

/-- A value copied up to the end that a loop finds. -/
def copy (b : List UInt8) (i : ℕ) (r : Res ℕ) : Res (List Char × ℕ) := do
  let j ← r
  let s ← slice b i j
  pure (lossy s, j)

theorem copy_ok {s r : List UInt8} (h : b.drop i = s ++ r) (hi : i ≤ b.length) :
    copy b i (.ok (i + s.length)) = .ok (lossy s, i + s.length) := by
  show (slice b i (i + s.length) >>= fun s' => pure (lossy s', i + s.length) : Res _) = _
  rw [slice_of_drop h hi]
  rfl

theorem copy_end (hi : i ≤ b.length) :
    copy b i (.ok b.length) = .ok (lossy (b.drop i), b.length) := by
  have h := copy_ok (b := b) (r := []) (List.append_nil (b.drop i)).symm hi
  rwa [List.length_drop, Nat.add_sub_cancel' hi] at h

theorem copy_out : copy b i (.ok (b.length + 1)) = .error .panic := by
  show (slice b i (b.length + 1) >>= fun s => pure (lossy s, b.length + 1) : Res _) = _
  rw [slice_out]
  rfl

theorem skipWs_here (h : ∀ c ∈ (b.drop i).head?, isWs c = false) : skipWs b i = .ok i :=
  skipWs_of_drop (w := []) rfl (List.forall_mem_nil _) h

theorem readValueRaw_string (h : b.drop i = byte '"' :: rest) :
    readValueRaw b i = copy b i (stringEnd b (i + 1)) := by
  have hws : skipWs b i = .ok i := by
    apply skipWs_here
    rw [h]
    intro c hc
    rw [← Option.some.inj hc]
    decide
  unfold readValueRaw
  rw [hws]
  exact if_pos (getElem?_of_drop h)

theorem Brackets.isWs (hb : Brackets o c) : isWs o = false := by
  rcases hb with ⟨rfl, rfl⟩ | ⟨rfl, rfl⟩ <;> decide

theorem readValueRaw_block (hb : Brackets o c) (h : b.drop i = o :: rest) :
    readValueRaw b i = copy b i (blockEnd b o c 1 false (i + 1)) := by
  have hws : skipWs b i = .ok i := by
    apply skipWs_here
    rw [h]
    intro x hx
    rw [← Option.some.inj hx]
    exact hb.isWs
  have hopen : b[i]? = some (byte '{') ∨ b[i]? = some (byte '[') := by
    rw [getElem?_of_drop h]
    rcases hb with ⟨rfl, -⟩ | ⟨rfl, -⟩
    · exact .inl rfl
    · exact .inr rfl
  have hclose : (if o = byte '{' then byte '}' else byte ']') = c := by
    rcases hb with ⟨rfl, rfl⟩ | ⟨rfl, rfl⟩
    · exact if_pos rfl
    · exact if_neg (by decide)
  have hquote : b[i]? ≠ some (byte '"') := by
    rw [getElem?_of_drop h]
    exact fun hq => hb.ne.1 (Option.some.inj hq)
  have hstep : blockEnd b o c 0 false i = blockEnd b o c 1 false (i + 1) := blockEnd_opening hb h
  unfold readValueRaw
  rw [hws]
  refine (if_neg hquote).trans ((if_pos hopen).trans ?_)
  rw [index_of_drop h]
  show copy b i (blockEnd b o (if o = byte '{' then byte '}' else byte ']') 0 false i) = _
  rw [hclose, hstep]

theorem readValueRaw_scalar {j : ℕ} {t : List UInt8} (h : b.drop i = t ++ b.drop j)
    (hi : i ≤ b.length) (hj : j = i + t.length)
    (hhead : ∀ c ∈ (b.drop i).head?, isWs c = false ∧ c ≠ byte '"' ∧ c ≠ byte '{' ∧ c ≠ byte '[')
    (ht : ∀ c ∈ t, isScalar c = true) (hrest : ∀ c ∈ (b.drop j).head?, isScalar c = false) :
    readValueRaw b i = .ok (trim (lossy t), j) := by
  have hws : skipWs b i = .ok i := skipWs_here fun c hc => (hhead c hc).1
  rw [List.head?_drop] at hhead
  have hquote : b[i]? ≠ some (byte '"') := fun hq => (hhead _ hq).2.1 rfl
  have hopen : ¬ (b[i]? = some (byte '{') ∨ b[i]? = some (byte '[')) := by
    rintro (hq | hq)
    · exact (hhead _ hq).2.2.1 rfl
    · exact (hhead _ hq).2.2.2 rfl
  have hskip : (skip isScalar b i : Res ℕ) = .ok j := by
    rw [hj]
    exact skip_of_drop h ht hrest
  have hslice : (slice b i j : Res (List UInt8)) = .ok t := by
    rw [hj]
    exact slice_of_drop h hi
  unfold readValueRaw
  rw [hws]
  refine (if_neg hquote).trans ((if_neg hopen).trans ?_)
  rw [hskip]
  show (slice b i j >>= fun s => pure (trim (lossy s), j) : Res _) = _
  rw [hslice]
  rfl

theorem readValueRaw_closed (hu : InString u) (h : b.drop i = byte '"' :: (u ++ byte '"' :: rest)) :
    readValueRaw b i = .ok (lossy (byte '"' :: (u ++ [byte '"'])), i + u.length + 2) := by
  have hrest := drop_succ_of_drop h
  have htext : b.drop i = (byte '"' :: (u ++ [byte '"'])) ++ rest := by
    rw [h, List.cons_append, List.append_assoc]
    rfl
  have hcopy := copy_ok htext (lt_of_drop h).le
  rw [readValueRaw_string h, stringEnd_inside hu hrest, stringEnd_quote (drop_add_of_drop hrest)]
  rw [List.length_cons, List.length_append, List.length_singleton] at hcopy
  convert hcopy using 3 <;> omega

theorem readValueRaw_balanced {t : List UInt8} (hb : Brackets o c)
    (ht : Within (byte '"') (byte '\\') o c 1 t 1) (h : b.drop i = o :: (t ++ c :: rest)) :
    readValueRaw b i = .ok (lossy (o :: (t ++ [c])), i + t.length + 2) := by
  have hrest := drop_succ_of_drop h
  have htext : b.drop i = (o :: (t ++ [c])) ++ rest := by
    rw [h, List.cons_append, List.append_assoc]
    rfl
  have hcopy := copy_ok htext (lt_of_drop h).le
  have hwithin := blockEnd_within hb ht hrest
  rw [Nat.cast_one] at hwithin
  rw [readValueRaw_block hb h, hwithin, blockEnd_closing hb (drop_add_of_drop hrest), if_pos (by omega)]
  rw [List.length_cons, List.length_append, List.length_singleton] at hcopy
  convert hcopy using 3 <;> omega

/-- A value that is cut. -/
theorem readValueRaw_cut (h : CutValue (b.drop i)) : readValueRaw b i = .error .panic := by
  generalize hd : b.drop i = v at h
  cases h with
  | @string u hu =>
    have hrest := drop_succ_of_drop hd
    rw [readValueRaw_string hd, stringEnd_inside hu hrest, stringEnd_backslash (drop_add_of_drop hrest),
      copy_out]
  | @block o c t u d hb ht hu =>
    have hrest := drop_succ_of_drop hd
    have hquote := drop_add_of_drop hrest
    have hin := drop_succ_of_drop hquote
    have hwithin := blockEnd_within hb ht hrest
    rw [Nat.cast_one] at hwithin
    rw [readValueRaw_block hb hd, hwithin, blockEnd_quote hquote, blockEnd_inside hu hin,
      blockEnd_backslash (drop_add_of_drop hin), copy_out]

end

end JsonObj

end Memra
