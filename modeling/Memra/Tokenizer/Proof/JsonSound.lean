import Memra.Tokenizer.Proof.JsonBytes

/-!
# What the JSON parser accepts

From wherever a part of the parser starts, it stays inside the text and its turns do not run out; what it
takes is a spelling, in the dialect `accepted`, of what it returns (`value_takes`, one induction over the
turns). A value takes three turns at most for each byte: one for itself, one for the array or the object
that it is, one for an element.
-/

namespace Memra

namespace Json

open Lib Lib.Cursor

variable {F α γ : Type} {b : List UInt8} {i : ℕ} {P : List Char → α → Prop}
  {Q : List Char → γ → Prop}

/-- What was taken is the text of something that is related to the result. -/
def Txt (P : List Char → α → Prop) (bs : List UInt8) (a : α) : Prop := ∃ t, bs = utf8 t ∧ P t a

theorem takes_shift {t : List Char} {j : ℕ} {r : Res (γ × ℕ)} (h : b.drop i = utf8 t ++ b.drop j)
    (hr : Takes b j (Txt fun t' c => Q (t ++ t') c) r) : Takes b i (Txt Q) r := by
  apply Takes.shift h
  apply hr.imp
  rintro bs c ⟨t', rfl, hQ⟩
  exact ⟨t ++ t', (utf8_append t t').symm, hQ⟩

theorem takes_bind {x : Res (α × ℕ)} {f : α × ℕ → Res (γ × ℕ)} (h : Takes b i (Txt P) x)
    (hf : ∀ t a j, b.drop i = utf8 t ++ b.drop j → j ≤ b.length → P t a →
      Takes b j (Txt fun t' c => Q (t ++ t') c) (f (a, j))) :
    Takes b i (Txt Q) (x >>= f) := by
  apply Takes.bind h
  rintro bs a j hbs hj ⟨t, rfl, hP⟩
  apply (hf t a j hbs hj hP).imp
  rintro bs c ⟨t', rfl, hQ⟩
  exact ⟨t ++ t', (utf8_append t t').symm, hQ⟩

theorem takes_imp {r : Res (α × ℕ)} {P' : List Char → α → Prop} (h : Takes b i (Txt P) r)
    (himp : ∀ t a, P t a → P' t a) : Takes b i (Txt P') r := by
  apply h.imp
  rintro bs a ⟨t, rfl, hP⟩
  exact ⟨t, rfl, himp t a hP⟩

/-- Nothing is taken. -/
theorem takes_pure {c : γ} (hi : i ≤ b.length) (hQ : Q [] c) :
    Takes b i (Txt Q) (pure (c, i) : Res (γ × ℕ)) :=
  Takes.ok hi (List.nil_append _).symm ⟨[], rfl, hQ⟩

/-! ## The small readers -/

theorem ws_spec (hi : i ≤ b.length) : ∃ w j, ws b i = .ok j ∧ Ws w ∧
    b.drop i = utf8 w ++ b.drop j ∧ i ≤ j ∧ j ≤ b.length := by
  have hrun : ∀ c ∈ (b.drop i).takeWhile isWs, isWs c = true := fun c hc => List.mem_takeWhile_imp hc
  obtain ⟨w, hw, hws⟩ := exists_ws hrun
  have hsplit : b.drop i = (b.drop i).takeWhile isWs ++ (b.drop i).dropWhile isWs :=
    List.takeWhile_append_dropWhile.symm
  have hlen := length_of_drop hsplit hi
  refine ⟨w, i + ((b.drop i).takeWhile isWs).length, skip_eq _ _ _, hws, ?_, Nat.le_add_right _ _,
    by omega⟩
  rw [drop_add_of_drop hsplit, ← hw]
  exact hsplit

theorem peek_spec (b : List UInt8) (i : ℕ) :
    (∃ c, peek b i = .ok c ∧ b.drop i = c :: b.drop (i + 1)) ∨ ∃ e, peek b i = .error (.err e) := by
  unfold peek
  cases h : b[i]? with
  | none => exact .inr ⟨_, rfl⟩
  | some c =>
    obtain ⟨hlt, hget⟩ := List.getElem?_eq_some_iff.1 h
    refine .inl ⟨c, rfl, ?_⟩
    rw [List.drop_eq_getElem_cons hlt, hget]

theorem expect_spec (b : List UInt8) (i : ℕ) (c : UInt8) :
    (expect b i c = .ok (i + 1) ∧ b.drop i = c :: b.drop (i + 1)) ∨
      ∃ e, expect b i c = .error (.err e) := by
  unfold expect
  rcases peek_spec b i with ⟨d, hd, hat⟩ | ⟨e, he⟩
  · rw [hd]
    by_cases hdc : d = c
    · left
      rw [← hdc]
      exact ⟨if_neg fun h => h rfl, hat⟩
    · right
      simp only [Bind.bind, Except.bind, if_pos hdc, index_of_drop hat]
      exact ⟨_, rfl⟩
  · rw [he]
    exact .inr ⟨e, rfl⟩

/-- A byte of ASCII is the text of its character. -/
theorem drop_char {c : Char} (hc : c.toNat < 0x80) {rest : List UInt8}
    (h : b.drop i = byte c :: rest) : b.drop i = utf8 [c] ++ rest := by
  rw [h, utf8_cons, encode_ascii hc]
  rfl

theorem lt_length_of_drop {c : UInt8} (h : b.drop i = c :: b.drop (i + 1)) : i + 1 ≤ b.length :=
  lt_of_drop h

theorem lit_takes {D : Dialect F} (hi : i ≤ b.length) {word : List Char} {v : Value F}
    (hword : ∀ c ∈ word, c.toNat < 0x80) (hv : ValueText D word v) :
    Takes b i (Txt (ValueText D)) (lit b i (word.map byte) v) := by
  unfold lit
  rw [if_neg (Nat.not_lt.2 hi)]
  by_cases hlen : b.length - i ≥ (word.map byte).length
  · have htake : ((b.drop i).take (word.map byte).length).length = (word.map byte).length := by
      rw [List.length_take, List.length_drop, Nat.min_eq_left hlen]
    have hsplit := (List.take_append_drop (word.map byte).length (b.drop i)).symm
    have hslice : (slice b i (i + (word.map byte).length) : Res _) =
        .ok ((b.drop i).take (word.map byte).length) := by
      have hs := slice_of_drop (ε := String) hsplit hi
      rwa [htake] at hs
    rw [if_pos hlen, hslice]
    show Takes b i _ (if _ then _ else _)
    split
    · rename_i hs
      rw [hs] at hsplit
      have hdrop := drop_add_of_drop hsplit
      refine Takes.ok (by omega) ?_ ⟨word, (utf8_ascii hword).symm, hv⟩
      rw [hdrop]
      exact hsplit
    · exact Takes.err _
  · rw [if_neg hlen]
    exact Takes.err _

theorem hexValue_ascii {s : List Char} {v : ℕ} (h : hexValue s = some v) :
    ∀ c ∈ s, c.toNat < 0x80 := by
  have hfold : ∀ (s : List Char) (o : Option ℕ) (v : ℕ),
      s.foldl (fun v c => v.bind fun v => (hexDigit c).map fun d => 16 * v + d) o = some v →
        o.isSome ∧ ∀ c ∈ s, c.toNat < 0x80 := by
    intro s
    induction s with
    | nil =>
      intro o v h
      exact ⟨Option.isSome_iff_exists.2 ⟨v, h⟩, fun c hc => absurd hc List.not_mem_nil⟩
    | cons c s ih =>
      intro o v h
      obtain ⟨hsome, hs⟩ := ih _ v h
      obtain ⟨w, hw⟩ := Option.isSome_iff_exists.1 hsome
      obtain ⟨x, hx, hd⟩ := Option.bind_eq_some_iff.1 hw
      obtain ⟨d, hd, -⟩ := Option.map_eq_some_iff.1 hd
      refine ⟨Option.isSome_iff_exists.2 ⟨x, hx⟩, fun e he => ?_⟩
      rcases List.mem_cons.1 he with rfl | he
      · unfold hexDigit at hd
        split at hd
        · omega
        · split at hd
          · omega
          · split at hd
            · omega
            · cases hd
      · exact hs e he
  exact (hfold s (some 0) v h).2

theorem fromStrRadix16_ascii {s : List Char} {v : ℕ} (h : fromStrRadix16 s = some v) :
    ∀ c ∈ s, c.toNat < 0x80 := by
  have hdigits : ∀ t : List Char,
      (if t = [] then none else (hexValue t).filter (· < 2 ^ 32)) = some v →
        ∀ c ∈ t, c.toNat < 0x80 := by
    intro t ht
    split at ht
    · cases ht
    · exact hexValue_ascii (Option.eq_some_of_filter_eq_some ht)
  unfold fromStrRadix16 at h
  dsimp only at h
  by_cases hplus : s.head? = some '+'
  · rw [if_pos hplus] at h
    obtain ⟨t, rfl⟩ := List.head?_eq_some_iff.1 hplus
    intro c hc
    rcases List.mem_cons.1 hc with rfl | hc
    · decide
    · exact hdigits t h c hc
  · rw [if_neg hplus] at h
    exact hdigits s h

theorem hex4_takes (parseF64 : List Char → Option F) (b : List UInt8) (i : ℕ) :
    Takes b i (Txt (accepted parseF64).quad) (hex4 b i) := by
  unfold hex4
  by_cases hend : i + 4 > b.length
  · rw [if_pos hend]
    exact Takes.err _
  · have hlen : ((b.drop i).take 4).length = 4 := by
      rw [List.length_take, List.length_drop]
      omega
    have hsplit := (List.take_append_drop 4 (b.drop i)).symm
    have hslice : (slice b i (i + 4) : Res _) = .ok ((b.drop i).take 4) := by
      have hs := slice_of_drop (ε := String) hsplit (by omega)
      rwa [hlen] at hs
    rw [if_neg hend, hslice]
    simp only [Bind.bind, Except.bind]
    split
    · rename_i v hv
      obtain ⟨h, hutf, hradix⟩ := Option.bind_eq_some_iff.1 hv
      have hbytes := fromUtf8_iff.1 hutf
      have hquad : h.length = 4 := by
        rw [← utf8_length_ascii (fromStrRadix16_ascii hradix), ← hbytes, hlen]
      have hdrop := drop_add_of_drop hsplit
      rw [hlen] at hdrop
      refine Takes.ok (by omega) ?_ ⟨h, hbytes, hquad, hradix⟩
      rw [hdrop]
      exact hsplit
    · exact Takes.err _

/-! ## Strings -/

/-- Where a reader stops, by what it took. -/
theorem eq_add_of_drop {bs : List UInt8} {j : ℕ} (h : b.drop i = bs ++ b.drop j) (hi : i ≤ b.length)
    (hj : j ≤ b.length) : j = i + bs.length := by
  have hlen := length_of_drop h hi
  rw [List.length_drop] at hlen
  omega

section
variable {parseF64 : List Char → Option F}

theorem codepoint_takes (parseF64 : List Char → Option F) {hi : ℕ} (hile : i ≤ b.length) :
    Takes b i (Txt fun t cp => (¬ HighSurrogate hi ∧ t = [] ∧ cp = hi) ∨
      (HighSurrogate hi ∧ ∃ l lo, t = '\\' :: 'u' :: l ∧ (accepted parseF64).quad l lo ∧
        LowSurrogate lo ∧ cp = 0x10000 + (hi - 0xd800) * 2 ^ 10 + (lo - 0xdc00)))
      (codepoint b hi i) := by
  unfold codepoint
  by_cases hhigh : HighSurrogate hi
  · rw [if_pos (by exact hhigh)]
    by_cases hend : i + 2 > b.length
    · rw [if_pos hend]
      exact Takes.err _
    · rw [if_neg hend]
      have hat : b.drop i = b[i] :: b.drop (i + 1) := List.drop_eq_getElem_cons (by omega)
      have hat' : b.drop (i + 1) = b[i + 1] :: b.drop (i + 2) := List.drop_eq_getElem_cons (by omega)
      rw [index_of_drop hat, index_of_drop hat']
      simp only [Bind.bind, Except.bind]
      by_cases hc : b[i] = byte '\\'
      · rw [if_neg (fun h => h hc)]
        by_cases hd : b[i + 1] = byte 'u'
        · rw [if_neg (fun h => h hd)]
          rw [hc] at hat
          rw [hd] at hat'
          apply takes_shift (drop_char (by decide) hat)
          apply takes_shift (drop_char (by decide) hat')
          refine takes_bind (hex4_takes parseF64 b (i + 2)) ?_
          intro l lo j hbs hj hquad
          by_cases hlo : LowSurrogate lo
          · simp only
            rw [if_neg (show ¬ ¬ (0xdc00 ≤ lo ∧ lo < 0xe000) from fun h => h hlo)]
            exact takes_pure hj (.inr ⟨hhigh, l, lo, by simp, hquad, hlo, rfl⟩)
          · simp only
            rw [if_pos (show ¬ (0xdc00 ≤ lo ∧ lo < 0xe000) from hlo)]
            exact Takes.err _
        · rw [if_pos hd]
          exact Takes.err _
      · rw [if_pos hc]
        exact Takes.err _
  · rw [if_neg (by exact hhigh)]
    exact takes_pure hile (.inl ⟨hhigh, rfl, rfl⟩)

theorem shortEscape_some {e : UInt8} {c : Char} (h : shortEscape e = some c) :
    ∃ d : Char, d.toNat < 0x80 ∧ e = byte d ∧ (d, c) ∈ shortEscapes := by
  unfold shortEscape at h
  repeat' split at h
  all_goals first
    | (obtain rfl := Option.some.inj h
       refine ⟨_, ?_, by assumption, ?_⟩ <;> decide)
    | cases h

theorem charFromU32_some {cp : ℕ} {c : Char} (h : charFromU32 cp = some c) :
    cp.isValidChar ∧ c = Char.ofNat cp := by
  unfold charFromU32 at h
  split at h
  · rename_i hv
    exact ⟨hv, (Option.some.inj h).symm⟩
  · cases h

theorem escape_takes (parseF64 : List Char → Option F) (b : List UInt8) (i : ℕ) :
    Takes b i (Txt fun t c => UnitText (accepted parseF64) ('\\' :: t) c) (escape b i) := by
  unfold escape
  rcases peek_spec b i with ⟨e, he, hat⟩ | ⟨e, he⟩
  · rw [he]
    simp only [Bind.bind, Except.bind]
    split
    · rename_i c hc
      obtain ⟨d, hd, rfl, hmem⟩ := shortEscape_some hc
      apply takes_shift (drop_char hd hat)
      exact takes_pure (lt_length_of_drop hat) (.short hmem)
    · by_cases hu : e = byte 'u'
      · rw [if_pos hu]
        rw [hu] at hat
        apply takes_shift (drop_char (by decide) hat)
        refine takes_bind (hex4_takes parseF64 b (i + 1)) ?_
        intro h hi j hbs hj hquad
        refine takes_bind (codepoint_takes parseF64 hj) ?_
        intro t cp k hbs' hk hcp
        simp only
        split
        · rename_i c hc
          obtain ⟨hvalid, rfl⟩ := charFromU32_some hc
          refine takes_pure hk ?_
          rcases hcp with ⟨-, rfl, rfl⟩ | ⟨hhigh, l, lo, ht, hl, hlo, hval⟩
          · rw [List.append_nil, List.append_nil]
            exact .hex hquad hvalid
          · rw [List.append_nil, ht, hval]
            exact .pair hquad hl hhigh hlo
        · exact Takes.err _
      · rw [if_neg hu]
        exact Takes.err _
  · rw [he]
    exact Takes.err _

theorem spelled_raw {D : Dialect F} {s u s' : List Char} (hs : ∀ c ∈ s, D.raw c)
    (hu : Spelled (UnitText D) u s') : Spelled (UnitText D) (s ++ u) (s ++ s') := by
  induction s with
  | nil => exact hu
  | cons c s ih =>
    show Spelled _ ([c] ++ (s ++ u)) (c :: (s ++ s'))
    exact .cons (.raw (hs c List.mem_cons_self)) (ih fun c hc => hs c (List.mem_cons_of_mem _ hc))

/-- The loop of a string; it takes one byte at least in each turn. -/
theorem stringLoop_takes (parseF64 : List Char → Option F) {fuel : ℕ} {out : List Char}
    (hi : i ≤ b.length) (hfuel : b.length - i + 1 ≤ fuel) :
    Takes b i (Txt fun t s => ∃ u s', t = u ++ ['"'] ∧
      Spelled (UnitText (accepted parseF64)) u s' ∧ s = out ++ s') (stringLoop b fuel out i) := by
  induction fuel generalizing out i with
  | zero => omega
  | succ fuel ih =>
    unfold stringLoop
    rcases peek_spec b i with ⟨c, hc, hat⟩ | ⟨e, he⟩
    · rw [hc]
      simp only [Bind.bind, Except.bind]
      have hlt := lt_length_of_drop hat
      by_cases hq : c = byte '"'
      · rw [if_pos hq]
        rw [hq] at hat
        apply takes_shift (drop_char (by decide) hat)
        exact takes_pure hlt ⟨[], [], rfl, .nil, (List.append_nil out).symm⟩
      · rw [if_neg hq]
        by_cases hb : c = byte '\\'
        · rw [if_pos hb]
          rw [hb] at hat
          apply takes_shift (drop_char (by decide) hat)
          refine takes_bind (escape_takes parseF64 b (i + 1)) ?_
          intro t d j hbs hj hunit
          have hjeq := eq_add_of_drop hbs hlt hj
          apply takes_imp (ih hj (by omega))
          rintro t' s ⟨u, s', rfl, hu, rfl⟩
          exact ⟨'\\' :: t ++ u, d :: s', by simp, .cons hunit hu, by simp⟩
        · rw [if_neg hb, skip_eq]
          have hrun : 1 ≤ ((b.drop i).takeWhile isPlain).length := by
            have hp : isPlain c = true := by
              simp only [isPlain, Bool.and_eq_true, bne_iff_ne, ne_eq]
              exact ⟨hq, hb⟩
            rw [hat, List.takeWhile_cons_of_pos hp]
            exact Nat.succ_le_succ (Nat.zero_le _)
          have hsplit : b.drop i = (b.drop i).takeWhile isPlain ++ (b.drop i).dropWhile isPlain :=
            List.takeWhile_append_dropWhile.symm
          have hlen := length_of_drop hsplit hi
          have hdrop := drop_add_of_drop hsplit
          simp only
          rw [slice_of_drop hsplit hi]
          simp only
          split
          · rename_i s hs
            have hbytes := fromUtf8_iff.1 hs
            have hraw : ∀ c ∈ s, (accepted parseF64).raw c := by
              apply plain_text_iff.1
              rw [← hbytes]
              exact fun c hc => List.mem_takeWhile_imp hc
            apply takes_shift (t := s) (by rw [hdrop, ← hbytes]; exact hsplit)
            apply takes_imp (ih (by omega) (by omega))
            rintro t' s'' ⟨u, s', rfl, hu, rfl⟩
            exact ⟨s ++ u, s ++ s', by simp, spelled_raw hraw hu, by simp⟩
          · exact Takes.err _
    · rw [he]
      exact Takes.err _

theorem string_takes (parseF64 : List Char → Option F) (b : List UInt8) (i : ℕ) :
    Takes b i (Txt (StringText (accepted parseF64))) (string b i) := by
  unfold string
  rcases expect_spec b i (byte '"') with ⟨hq, hat⟩ | ⟨e, he⟩
  · rw [hq]
    apply takes_shift (drop_char (by decide) hat)
    apply takes_imp (stringLoop_takes parseF64 (lt_length_of_drop hat) (by omega))
    rintro t s ⟨u, s', rfl, hu, rfl⟩
    exact ⟨u, rfl, hu⟩
  · rw [he]
    exact Takes.err _

/-! ## Values -/

theorem number_takes (hi : i ≤ b.length) :
    Takes b i (Txt (ValueText (accepted parseF64))) (number b parseF64 i) := by
  unfold number
  have hsplit : b.drop i = (b.drop i).takeWhile isNumberByte ++ (b.drop i).dropWhile isNumberByte :=
    List.takeWhile_append_dropWhile.symm
  have hlen := length_of_drop hsplit hi
  have hdrop := drop_add_of_drop hsplit
  rw [skip_eq]
  simp only [Bind.bind, Except.bind]
  split
  · exact Takes.err _
  · rename_i hne
    rw [slice_of_drop hsplit hi]
    simp only
    split
    · rename_i x hx
      obtain ⟨s, hutf, hparse⟩ := Option.bind_eq_some_iff.1 hx
      have hbytes := fromUtf8_iff.1 hutf
      have hchars := number_chars (fun c hc => List.mem_takeWhile_imp hc) hbytes
      have hs : s ≠ [] := by
        rintro rfl
        apply hne
        rw [hbytes]
        rfl
      refine Takes.ok (by omega) ?_ ⟨s, hbytes, .num ⟨hs, hchars, hparse⟩⟩
      rw [hdrop]
      exact hsplit
    · exact Takes.err _

theorem commas_cons (t : List Char) {ts : List (List Char)} (h : ts ≠ []) :
    commas (t :: ts) = t ++ ',' :: commas ts := by
  obtain ⟨t', ts', rfl⟩ := List.exists_cons_of_ne_nil h
  rfl

theorem commas_singleton (t : List Char) : commas [t] = t := List.append_nil t

/-- What the loop of an array takes and returns. -/
def ElementsText (D : Dialect F) (out : List (Value F)) (t : List Char) (v : Value F) : Prop :=
  ∃ es : List (Element F), es ≠ [] ∧ (∀ e ∈ es, Ws e.before ∧ Ws e.after) ∧
    (∀ e ∈ es, ValueText D e.text e.value) ∧ t = commas (es.map Element.spell) ++ [']'] ∧
    v = .arr (out ++ es.map Element.value)

/-- What the loop of an object takes and returns. -/
def MembersText (D : Dialect F) (out : List Char → Option (Value F)) (t : List Char) (v : Value F) :
    Prop :=
  ∃ ms : List (Member F), ms ≠ [] ∧
    (∀ m ∈ ms, Ws m.before ∧ Ws m.beforeColon ∧ Ws m.afterColon ∧ Ws m.after) ∧
    (∀ m ∈ ms, StringText D m.keyText m.key) ∧ (∀ m ∈ ms, ValueText D m.text m.value) ∧
    t = commas (ms.map Member.spell) ++ ['}'] ∧
    v = .obj (ms.foldl (fun o m => insert o m.key m.value) out)

theorem ElementsText.last {D : Dialect F} {out : List (Value F)} {e : Element F}
    (hws : Ws e.before ∧ Ws e.after) (hv : ValueText D e.text e.value) :
    ElementsText D out (e.spell ++ [']']) (.arr (out ++ [e.value])) :=
  ⟨[e], List.cons_ne_nil _ _, fun _ h => List.mem_singleton.1 h ▸ hws,
    fun _ h => List.mem_singleton.1 h ▸ hv, by rw [List.map_singleton, commas_singleton], rfl⟩

theorem ElementsText.cons {D : Dialect F} {out : List (Value F)} {e : Element F}
    (hws : Ws e.before ∧ Ws e.after) (hv : ValueText D e.text e.value) {t : List Char} {v : Value F}
    (h : ElementsText D (out ++ [e.value]) t v) : ElementsText D out (e.spell ++ ',' :: t) v := by
  obtain ⟨es, hne, hes, hvs, rfl, rfl⟩ := h
  refine ⟨e :: es, List.cons_ne_nil _ _, List.forall_mem_cons.2 ⟨hws, hes⟩,
    List.forall_mem_cons.2 ⟨hv, hvs⟩, ?_, ?_⟩
  · rw [List.map_cons, commas_cons _ (by simpa using hne), List.append_assoc, List.cons_append]
  · rw [List.map_cons, List.append_assoc, List.singleton_append]

theorem MembersText.last {D : Dialect F} {out : List Char → Option (Value F)} {m : Member F}
    (hws : Ws m.before ∧ Ws m.beforeColon ∧ Ws m.afterColon ∧ Ws m.after)
    (hk : StringText D m.keyText m.key) (hv : ValueText D m.text m.value) :
    MembersText D out (m.spell ++ ['}']) (.obj (insert out m.key m.value)) :=
  ⟨[m], List.cons_ne_nil _ _, fun _ h => List.mem_singleton.1 h ▸ hws,
    fun _ h => List.mem_singleton.1 h ▸ hk, fun _ h => List.mem_singleton.1 h ▸ hv,
    by rw [List.map_singleton, commas_singleton], rfl⟩

theorem MembersText.cons {D : Dialect F} {out : List Char → Option (Value F)} {m : Member F}
    (hws : Ws m.before ∧ Ws m.beforeColon ∧ Ws m.afterColon ∧ Ws m.after)
    (hk : StringText D m.keyText m.key) (hv : ValueText D m.text m.value) {t : List Char}
    {v : Value F} (h : MembersText D (insert out m.key m.value) t v) :
    MembersText D out (m.spell ++ ',' :: t) v := by
  obtain ⟨ms, hne, hms, hks, hvs, rfl, rfl⟩ := h
  refine ⟨m :: ms, List.cons_ne_nil _ _, List.forall_mem_cons.2 ⟨hws, hms⟩,
    List.forall_mem_cons.2 ⟨hk, hks⟩, List.forall_mem_cons.2 ⟨hv, hvs⟩, ?_, rfl⟩
  rw [List.map_cons, commas_cons _ (by simpa using hne), List.append_assoc, List.cons_append]

theorem Ws.append {w w' : List Char} (h : Ws w) (h' : Ws w') : Ws (w ++ w') :=
  fun c hc => (List.mem_append.1 hc).elim (h c) (h' c)

theorem commas_map_cons {β : Type} (f : β → List Char) (x : β) (xs : List β) (w : List Char)
    {y : β} (hy : f y = w ++ f x) : commas ((y :: xs).map f) = w ++ commas ((x :: xs).map f) := by
  cases xs with
  | nil => simp only [List.map_cons, List.map_nil, commas_singleton, hy]
  | cons z zs =>
    have hcons : ∀ t, commas (t :: (z :: zs).map f) = t ++ ',' :: commas ((z :: zs).map f) :=
      fun t => commas_cons t (List.cons_ne_nil _ _)
    show commas (f y :: (z :: zs).map f) = w ++ commas (f x :: (z :: zs).map f)
    rw [hcons, hcons, hy, List.append_assoc]

/-- White space in front joins that of the first element. -/
theorem ElementsText.pad {D : Dialect F} {out : List (Value F)} {w t : List Char} {v : Value F}
    (hw : Ws w) (h : ElementsText D out t v) : ElementsText D out (w ++ t) v := by
  obtain ⟨es, hne, hes, hvs, rfl, rfl⟩ := h
  obtain ⟨e, es, rfl⟩ := List.exists_cons_of_ne_nil hne
  obtain ⟨he, hes⟩ := List.forall_mem_cons.1 hes
  obtain ⟨hv, hvs⟩ := List.forall_mem_cons.1 hvs
  have hspell : Element.spell { e with before := w ++ e.before } = w ++ e.spell :=
    List.append_assoc _ _ _
  refine ⟨{ e with before := w ++ e.before } :: es, List.cons_ne_nil _ _,
    List.forall_mem_cons.2 ⟨⟨hw.append he.1, he.2⟩, hes⟩, List.forall_mem_cons.2 ⟨hv, hvs⟩, ?_, rfl⟩
  rw [commas_map_cons Element.spell e es w hspell, List.append_assoc]

theorem MembersText.pad {D : Dialect F} {out : List Char → Option (Value F)} {w t : List Char}
    {v : Value F} (hw : Ws w) (h : MembersText D out t v) : MembersText D out (w ++ t) v := by
  obtain ⟨ms, hne, hms, hks, hvs, rfl, rfl⟩ := h
  obtain ⟨m, ms, rfl⟩ := List.exists_cons_of_ne_nil hne
  obtain ⟨hm, hms⟩ := List.forall_mem_cons.1 hms
  obtain ⟨hk, hks⟩ := List.forall_mem_cons.1 hks
  obtain ⟨hv, hvs⟩ := List.forall_mem_cons.1 hvs
  have hspell : Member.spell { m with before := w ++ m.before } = w ++ m.spell :=
    List.append_assoc _ _ _
  refine ⟨{ m with before := w ++ m.before } :: ms, List.cons_ne_nil _ _,
    List.forall_mem_cons.2 ⟨⟨hw.append hm.1, hm.2⟩, hms⟩, List.forall_mem_cons.2 ⟨hk, hks⟩,
    List.forall_mem_cons.2 ⟨hv, hvs⟩, ?_, rfl⟩
  rw [commas_map_cons Member.spell m ms w hspell, List.append_assoc]

/-- Later members overwrite earlier ones. -/
theorem foldl_insert (ms : List (Member F)) :
    ms.foldl (fun o m => insert o m.key m.value) (fun _ => none) = lastOf ms := by
  have hfold : ∀ (ms : List (Member F)) (o : List Char → Option (Value F)) (k : List Char),
      ms.foldl (fun o m => insert o m.key m.value) o k = (lastOf ms k).or (o k) := by
    intro ms
    induction ms with
    | nil => intro o k; rfl
    | cons m ms ih =>
      intro o k
      rw [List.foldl_cons, ih]
      unfold lastOf insert
      rw [List.reverse_cons, List.find?_append]
      by_cases hk : m.key = k
      · cases ms.reverse.find? fun m => m.key = k <;> simp [hk]
      · have hk' : ¬ k = m.key := fun h => hk h.symm
        cases ms.reverse.find? fun m => m.key = k <;> simp [hk, hk']
  funext k
  rw [hfold, Option.or_none]

theorem ElementsText.value {D : Dialect F} {t : List Char} {v : Value F}
    (h : ElementsText D [] t v) : ValueText D ('[' :: t) v := by
  obtain ⟨es, hne, hes, hvs, rfl, rfl⟩ := h
  exact .arr es hne hes hvs

theorem MembersText.value {D : Dialect F} {t : List Char} {v : Value F}
    (h : MembersText D (fun _ => none) t v) : ValueText D ('{' :: t) v := by
  obtain ⟨ms, hne, hms, hks, hvs, rfl, rfl⟩ := h
  rw [foldl_insert]
  exact .obj ms hne hms hks hvs

/-! ## One turn of each part -/

variable {fuel : ℕ}

theorem array_step
    (hloop : ∀ j, i < j → j ≤ b.length →
      Takes b j (Txt (ElementsText (accepted parseF64) [])) (arrayLoop b parseF64 fuel [] j)) :
    Takes b i (Txt (ValueText (accepted parseF64))) (array b parseF64 (fuel + 1) i) := by
  unfold array
  rcases expect_spec b i (byte '[') with ⟨hq, hat⟩ | ⟨e, he⟩
  · have hlt := lt_length_of_drop hat
    obtain ⟨w, j, hj, hw, hbs, hij, hjle⟩ := ws_spec hlt
    rw [hq]
    simp only [Bind.bind, Except.bind, hj]
    apply takes_shift (drop_char (by decide) hat)
    apply takes_shift hbs
    rcases peek_spec b j with ⟨c, hc, hat'⟩ | ⟨e, he⟩
    · rw [hc]
      simp only
      by_cases hclose : c = byte ']'
      · rw [if_pos hclose]
        rw [hclose] at hat'
        apply takes_shift (drop_char (by decide) hat')
        exact takes_pure (lt_length_of_drop hat') (.arrNil hw)
      · rw [if_neg hclose]
        exact takes_imp (hloop j hij hjle) fun t v h => (h.pad hw).value
    · rw [he]
      exact Takes.err _
  · rw [he]
    exact Takes.err _

theorem object_step
    (hloop : ∀ j, i < j → j ≤ b.length →
      Takes b j (Txt (MembersText (accepted parseF64) fun _ => none))
        (objectLoop b parseF64 fuel (fun _ => none) j)) :
    Takes b i (Txt (ValueText (accepted parseF64))) (object b parseF64 (fuel + 1) i) := by
  unfold object
  rcases expect_spec b i (byte '{') with ⟨hq, hat⟩ | ⟨e, he⟩
  · have hlt := lt_length_of_drop hat
    obtain ⟨w, j, hj, hw, hbs, hij, hjle⟩ := ws_spec hlt
    rw [hq]
    simp only [Bind.bind, Except.bind, hj]
    apply takes_shift (drop_char (by decide) hat)
    apply takes_shift hbs
    rcases peek_spec b j with ⟨c, hc, hat'⟩ | ⟨e, he⟩
    · rw [hc]
      simp only
      by_cases hclose : c = byte '}'
      · rw [if_pos hclose]
        rw [hclose] at hat'
        apply takes_shift (drop_char (by decide) hat')
        exact takes_pure (lt_length_of_drop hat') (.objNil hw)
      · rw [if_neg hclose]
        exact takes_imp (hloop j hij hjle) fun t v h => (h.pad hw).value
    · rw [he]
      exact Takes.err _
  · rw [he]
    exact Takes.err _

theorem arrayLoop_step {out : List (Value F)} (hi : i ≤ b.length)
    (hvalue : ∀ j, i ≤ j → j ≤ b.length →
      Takes b j (Txt (ValueText (accepted parseF64))) (value b parseF64 fuel j))
    (hloop : ∀ j out, i < j → j ≤ b.length →
      Takes b j (Txt (ElementsText (accepted parseF64) out)) (arrayLoop b parseF64 fuel out j)) :
    Takes b i (Txt (ElementsText (accepted parseF64) out))
      (arrayLoop b parseF64 (fuel + 1) out i) := by
  obtain ⟨w, j, hj, hw, hbs, hij, hjle⟩ := ws_spec hi
  unfold arrayLoop
  rw [hj]
  apply takes_shift hbs
  refine takes_bind (hvalue j hij hjle) ?_
  intro t v k hbs' hk hv
  have hjk := eq_add_of_drop hbs' hjle hk
  obtain ⟨w', l, hl, hw', hbs'', hkl, hlle⟩ := ws_spec hk
  simp only [Bind.bind, Except.bind, hl]
  apply takes_shift hbs''
  rcases peek_spec b l with ⟨c, hc, hat⟩ | ⟨e, he⟩
  · rw [hc]
    have hlt := lt_length_of_drop hat
    simp only
    by_cases hcomma : c = byte ','
    · rw [if_pos hcomma]
      rw [hcomma] at hat
      apply takes_shift (drop_char (by decide) hat)
      apply takes_imp (hloop (l + 1) (out ++ [v]) (by omega) hlt)
      intro t' v' h
      have hcons := ElementsText.cons (e := ⟨w, t, w', v⟩) ⟨hw, hw'⟩ hv h
      simpa [Element.spell] using hcons
    · rw [if_neg hcomma]
      by_cases hclose : c = byte ']'
      · rw [if_pos hclose]
        rw [hclose] at hat
        apply takes_shift (drop_char (by decide) hat)
        refine takes_pure hlt ?_
        have hlast : ElementsText (accepted parseF64) out _ _ :=
          ElementsText.last (e := ⟨w, t, w', v⟩) ⟨hw, hw'⟩ hv
        simpa [Element.spell] using hlast
      · rw [if_neg hclose]
        exact Takes.err _
  · rw [he]
    exact Takes.err _

theorem objectLoop_step {out : List Char → Option (Value F)} (hi : i ≤ b.length)
    (hvalue : ∀ j, i ≤ j → j ≤ b.length →
      Takes b j (Txt (ValueText (accepted parseF64))) (value b parseF64 fuel j))
    (hloop : ∀ j out, i < j → j ≤ b.length →
      Takes b j (Txt (MembersText (accepted parseF64) out)) (objectLoop b parseF64 fuel out j)) :
    Takes b i (Txt (MembersText (accepted parseF64) out))
      (objectLoop b parseF64 (fuel + 1) out i) := by
  obtain ⟨w, i₁, h₁, hw, hbs, hi₁, hle₁⟩ := ws_spec hi
  unfold objectLoop
  rw [h₁]
  apply takes_shift hbs
  refine takes_bind (string_takes parseF64 b i₁) ?_
  intro kt k i₂ hbs₂ hle₂ hk
  have hi₂ := eq_add_of_drop hbs₂ hle₁ hle₂
  obtain ⟨w₂, i₃, h₃, hw₂, hbs₃, hi₃, hle₃⟩ := ws_spec hle₂
  simp only [Bind.bind, Except.bind, h₃]
  apply takes_shift hbs₃
  rcases expect_spec b i₃ (byte ':') with ⟨hcolon, hat⟩ | ⟨e, he⟩
  · rw [hcolon]
    have hle₄ := lt_length_of_drop hat
    obtain ⟨w₃, i₄, h₄, hw₃, hbs₄, hi₄, hle₄⟩ := ws_spec hle₄
    simp only [h₄]
    apply takes_shift (drop_char (by decide) hat)
    apply takes_shift hbs₄
    refine takes_bind (hvalue i₄ (by omega) hle₄) ?_
    intro t v i₅ hbs₅ hle₅ hv
    have hi₅ := eq_add_of_drop hbs₅ hle₄ hle₅
    obtain ⟨w₄, l, hl, hw₄, hbs₆, hi₆, hlle⟩ := ws_spec hle₅
    simp only [hl]
    apply takes_shift hbs₆
    rcases peek_spec b l with ⟨c, hc, hat'⟩ | ⟨e, he⟩
    · rw [hc]
      have hlt := lt_length_of_drop hat'
      simp only
      by_cases hcomma : c = byte ','
      · rw [if_pos hcomma]
        rw [hcomma] at hat'
        apply takes_shift (drop_char (by decide) hat')
        apply takes_imp (hloop (l + 1) (insert out k v) (by omega) hlt)
        intro t' v' h
        have hcons := MembersText.cons (m := ⟨w, kt, k, w₂, w₃, t, w₄, v⟩) ⟨hw, hw₂, hw₃, hw₄⟩ hk hv h
        simpa [Member.spell] using hcons
      · rw [if_neg hcomma]
        by_cases hclose : c = byte '}'
        · rw [if_pos hclose]
          rw [hclose] at hat'
          apply takes_shift (drop_char (by decide) hat')
          refine takes_pure hlt ?_
          have hlast : MembersText (accepted parseF64) out _ _ :=
            MembersText.last (m := ⟨w, kt, k, w₂, w₃, t, w₄, v⟩) ⟨hw, hw₂, hw₃, hw₄⟩ hk hv
          simpa [Member.spell] using hlast
        · rw [if_neg hclose]
          exact Takes.err _
    · rw [he]
      exact Takes.err _
  · rw [he]
    exact Takes.err _

theorem value_step (hi : i ≤ b.length)
    (harray : i < b.length →
      Takes b i (Txt (ValueText (accepted parseF64))) (array b parseF64 fuel i))
    (hobject : i < b.length →
      Takes b i (Txt (ValueText (accepted parseF64))) (object b parseF64 fuel i)) :
    Takes b i (Txt (ValueText (accepted parseF64))) (value b parseF64 (fuel + 1) i) := by
  unfold value
  rcases peek_spec b i with ⟨c, hc, hat⟩ | ⟨e, he⟩
  · rw [hc]
    have hlt := lt_of_drop hat
    simp only [Bind.bind, Except.bind]
    split
    · exact hobject hlt
    · split
      · exact harray hlt
      · split
        · refine takes_bind (string_takes parseF64 b i) ?_
          intro t s j hbs hj hs
          refine takes_pure hj ?_
          rw [List.append_nil]
          exact .str hs
        · split
          · exact lit_takes hi (by simp) .tt
          · split
            · exact lit_takes hi (by simp) .ff
            · split
              · exact lit_takes hi (by simp) .null
              · exact number_takes hi
  · rw [he]
    exact Takes.err _

/-! ## All turns -/

/-- **What a value takes is one of its spellings**, and its turns do not run out. -/
theorem value_takes (parseF64 : List Char → Option F) (b : List UInt8) (fuel : ℕ) :
    (∀ i, i ≤ b.length → 3 * (b.length - i) + 1 ≤ fuel →
      Takes b i (Txt (ValueText (accepted parseF64))) (value b parseF64 fuel i)) ∧
    (∀ i, i < b.length → 3 * (b.length - i) ≤ fuel →
      Takes b i (Txt (ValueText (accepted parseF64))) (array b parseF64 fuel i) ∧
      Takes b i (Txt (ValueText (accepted parseF64))) (object b parseF64 fuel i)) ∧
    (∀ i, i ≤ b.length → 3 * (b.length - i) + 2 ≤ fuel →
      (∀ out, Takes b i (Txt (ElementsText (accepted parseF64) out))
        (arrayLoop b parseF64 fuel out i)) ∧
      ∀ out, Takes b i (Txt (MembersText (accepted parseF64) out))
        (objectLoop b parseF64 fuel out i)) := by
  induction fuel with
  | zero =>
    refine ⟨fun i hi hfuel => ?_, fun i hi hfuel => ?_, fun i hi hfuel => ?_⟩ <;> omega
  | succ fuel ih =>
    obtain ⟨hvalue, hbracket, hloop⟩ := ih
    refine ⟨fun i hi hfuel => ?_, fun i hi hfuel => ⟨?_, ?_⟩,
      fun i hi hfuel => ⟨fun out => ?_, fun out => ?_⟩⟩
    · exact value_step hi (fun hlt => (hbracket i hlt (by omega)).1)
        fun hlt => (hbracket i hlt (by omega)).2
    · exact array_step fun j hij hj => (hloop j hj (by omega)).1 []
    · exact object_step fun j hij hj => (hloop j hj (by omega)).2 fun _ => none
    · exact arrayLoop_step hi (fun j hij hj => hvalue j hj (by omega))
        fun j out hij hj => (hloop j hj (by omega)).1 out
    · exact objectLoop_step hi (fun j hij hj => hvalue j hj (by omega))
        fun j out hij hj => (hloop j hj (by omega)).2 out

end

end Json

end Memra
