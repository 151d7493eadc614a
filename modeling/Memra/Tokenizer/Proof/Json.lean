import Memra.Tokenizer.Proof.JsonComplete

/-!
# The JSON parser

The texts that the parser takes are those of the dialect `accepted` (`parse_eq_ok_iff`), which has those of
RFC 8259 among them. In such a text nothing is left open and no half of a surrogate pair is alone; any other
text is an error of the parser, neither a panic nor a loop without end.
-/

namespace Memra

namespace Json

open Lib Lib.Cursor String

variable {F : Type}

/-! ## The standard within the parser -/

/-- What one dialect takes, another one takes too. -/
structure Dialect.Sub (D D' : Dialect F) : Prop where
  raw : ∀ c, D.raw c → D'.raw c
  quad : ∀ h v, D.quad h v → D'.quad h v
  number : ∀ t x, D.number t x → D'.number t x

theorem UnitText.mono {D D' : Dialect F} (h : D.Sub D') {t : List Char} {c : Char}
    (ht : UnitText D t c) : UnitText D' t c := by
  cases ht with
  | raw hr => exact .raw (h.raw _ hr)
  | short hs => exact .short hs
  | hex hq hv => exact .hex (h.quad _ _ hq) hv
  | pair hh hl hhi hlo => exact .pair (h.quad _ _ hh) (h.quad _ _ hl) hhi hlo

theorem StringText.mono {D D' : Dialect F} (h : D.Sub D') {t s : List Char}
    (ht : StringText D t s) : StringText D' t s := by
  obtain ⟨u, rfl, hu⟩ := ht
  exact ⟨u, rfl, hu.imp fun _ _ => UnitText.mono h⟩

theorem ValueText.mono {D D' : Dialect F} (h : D.Sub D') {t : List Char} {v : Value F}
    (ht : ValueText D t v) : ValueText D' t v := by
  induction ht with
  | null => exact .null
  | tt => exact .tt
  | ff => exact .ff
  | num hn => exact .num (h.number _ _ hn)
  | str hs => exact .str (hs.mono h)
  | arrNil hw => exact .arrNil hw
  | arr es hne hws _ ih => exact .arr es hne hws ih
  | objNil hw => exact .objNil hw
  | obj ms hne hws hk _ ih => exact .obj ms hne hws (fun m hm => (hk m hm).mono h) ih

theorem JsonText.mono {D D' : Dialect F} (h : D.Sub D') {t : List Char} {v : Value F}
    (ht : JsonText D t v) : JsonText D' t v := by
  obtain ⟨w, t, w', hw, hv, hw', rfl⟩ := ht
  exact ⟨w, t, w', hw, hv.mono h, hw', rfl⟩

/-- One more digit. -/
def pushDigit (v : Option ℕ) (c : Char) : Option ℕ :=
  v.bind fun v => (hexDigit c).map fun d => 16 * v + d

theorem foldl_pushDigit_none (s : List Char) : s.foldl pushDigit none = none := by
  induction s with
  | nil => rfl
  | cons c s ih => exact ih

theorem hexDigit_lt {c : Char} {d : ℕ} (h : hexDigit c = some d) : d < 16 := by
  unfold hexDigit at h
  split at h
  · have hd := Option.some.inj h
    omega
  · split at h
    · have hd := Option.some.inj h
      omega
    · split at h
      · have hd := Option.some.inj h
        omega
      · cases h

theorem foldl_pushDigit_lt {s : List Char} {a v : ℕ} (h : s.foldl pushDigit (some a) = some v) :
    v < (a + 1) * 16 ^ s.length := by
  induction s generalizing a with
  | nil =>
    have hv : a = v := Option.some.inj h
    simp [← hv]
  | cons c s ih =>
    rw [List.foldl_cons] at h
    cases hd : hexDigit c with
    | none =>
      have hnone : pushDigit (some a) c = none := by simp [pushDigit, hd]
      rw [hnone, foldl_pushDigit_none] at h
      cases h
    | some d =>
      have hsome : pushDigit (some a) c = some (16 * a + d) := by simp [pushDigit, hd]
      rw [hsome] at h
      have hlt := hexDigit_lt hd
      calc v < (16 * a + d + 1) * 16 ^ s.length := ih h
        _ ≤ ((a + 1) * 16) * 16 ^ s.length := Nat.mul_le_mul_right _ (by omega)
        _ = (a + 1) * 16 ^ (c :: s).length := by rw [List.length_cons, pow_succ]; ring

/-- Four digits are read as they are. -/
theorem fromStrRadix16_of_hexValue {h : List Char} {v : ℕ} (hlen : h.length = 4)
    (hv : hexValue h = some v) : fromStrRadix16 h = some v := by
  have hlt := foldl_pushDigit_lt (s := h) (a := 0) hv
  rw [hlen] at hlt
  have hplus : h.head? ≠ some '+' := by
    intro hp
    obtain ⟨t, rfl⟩ := List.head?_eq_some_iff.1 hp
    have hnone : hexValue ('+' :: t) = none := foldl_pushDigit_none t
    rw [hnone] at hv
    cases hv
  have hne : h ≠ [] := List.ne_nil_of_length_pos (by omega)
  unfold fromStrRadix16
  simp only [if_neg hplus, if_neg hne, hv]
  exact Option.filter_eq_some_iff.2 ⟨rfl, decide_eq_true (by omega)⟩

theorem NumberText.chars {t : List Char} (h : NumberText t) : t ≠ [] ∧ ∀ c ∈ t, IsNumberChar c := by
  obtain ⟨minus, int, frac, exp, rfl, hminus, hint, hfrac, hexp⟩ := h
  have hintne : int ≠ [] := by
    rcases hint with rfl | ⟨d, ds, rfl, -, -⟩ <;> exact List.cons_ne_nil _ _
  refine ⟨by simp [hintne], fun c hc => ?_⟩
  rcases List.mem_append.1 hc with hc | hc
  · rcases hminus with rfl | rfl
    · cases hc
    · exact .inr (.inl (List.mem_singleton.1 hc))
  · rcases List.mem_append.1 hc with hc | hc
    · rcases hint with rfl | ⟨d, ds, -, -, hall⟩
      · rw [List.mem_singleton.1 hc]
        exact .inl (by decide)
      · exact .inl (hall c hc)
    · rcases List.mem_append.1 hc with hc | hc
      · rcases hfrac with rfl | ⟨ds, rfl, -, hall⟩
        · cases hc
        · rcases List.mem_cons.1 hc with rfl | hc
          · exact .inr (.inr (.inr (.inl rfl)))
          · exact .inl (hall c hc)
      · rcases hexp with rfl | ⟨e, sign, ds, rfl, he, hsign, -, hall⟩
        · cases hc
        · rcases List.mem_cons.1 hc with rfl | hc
          · exact .inr (.inr (.inr (.inr he)))
          · rcases List.mem_append.1 hc with hc | hc
            · rcases hsign with rfl | rfl | rfl
              · cases hc
              · exact .inr (.inr (.inl (List.mem_singleton.1 hc)))
              · exact .inr (.inl (List.mem_singleton.1 hc))
            · exact .inl (hall c hc)

theorem rfc8259_sub (parseF64 : List Char → Option F) :
    (rfc8259 parseF64).Sub (accepted parseF64) where
  raw _ h := h.2
  quad _ _ h := ⟨h.1, fromStrRadix16_of_hexValue h.1 h.2⟩
  number _ _ h := ⟨h.1.chars.1, h.1.chars.2, h.2⟩

/-! ## The whole text -/

section
variable (parseF64 : List Char → Option F) {text : List Char} {v : Value F}

theorem parse_spec (text : List Char) :
    (∃ v, parse parseF64 text = .ok v ∧ JsonText (accepted parseF64) text v) ∨
      ∃ e, parse parseF64 text = .error (.err e) := by
  unfold parse
  obtain ⟨w, i, hi, hw, hbs, -, hile⟩ := ws_spec (b := utf8 text) (Nat.zero_le _)
  rw [List.drop_zero] at hbs
  simp only [hi, Bind.bind, Except.bind]
  have hvalue := (value_takes parseF64 (utf8 text) (3 * (utf8 text).length + 1)).1 i hile (by omega)
  rcases hvalue.exists_or with ⟨v, j, _, hv, hj, hbs', t, rfl, hvt⟩ | ⟨e, he⟩
  · rw [hv]
    obtain ⟨w', k, hk, hw', hbs'', -, -⟩ := ws_spec hj
    simp only [hk]
    split
    · exact .inr ⟨_, rfl⟩
    · rename_i hend
      refine .inl ⟨v, rfl, w, t, w', hw, hvt, hw', utf8_injective ?_⟩
      rw [hbs, hbs', hbs'', not_not.1 hend, List.drop_length, List.append_nil, utf8_append, utf8_append]
  · rw [he]
    exact .inr ⟨e, rfl⟩

/-- From a value in front of something that neither white space nor a number goes on with, the parser
comes to that. -/
theorem parse_of_text {w t w' : List Char} {post : List UInt8} (hw : Ws w)
    (hv : ValueText (accepted parseF64) t v) (hw' : Ws w')
    (htext : utf8 text = utf8 (w ++ (t ++ w')) ++ post) (hstop : Stops isWs post)
    (hnum : (∀ c ∈ t, IsNumberChar c) → Stops isNumberByte (utf8 w' ++ post)) :
    parse parseF64 text = if (utf8 (w ++ (t ++ w'))).length ≠ (utf8 text).length
      then .error (.err ("json: trailing bytes at " ++ toString (utf8 (w ++ (t ++ w'))).length))
      else .ok v := by
  have hat : (utf8 text).drop 0 = utf8 (w ++ (t ++ w')) ++ post := htext
  obtain ⟨hat₁, hat₂⟩ := append_of_drop hat
  obtain ⟨hat₃, hat₄⟩ := append_of_drop hat₂
  have hlen₁ := length_of_drop hat₁ (Nat.zero_le _)
  have hlen₂ := length_of_drop hat₃ (by omega)
  unfold parse
  dsimp only
  rw [ws_complete hw hat₁ (hv.begins.stops_append _)]
  simp only [Bind.bind, Except.bind]
  rw [value_complete hv _ _ _ _ (by omega) hat₃ hnum (by omega)]
  simp only
  rw [ws_complete hw' hat₄ hstop, size_append, size_append, Nat.zero_add, ← Nat.add_assoc]
  rfl

theorem parse_of_jsonText (h : JsonText (accepted parseF64) text v) :
    parse parseF64 text = .ok v := by
  obtain ⟨w, t, w', hw, hv, hw', rfl⟩ := h
  have hnil : ∀ p, Stops p [] := fun p c hc => by cases hc
  have htext : utf8 (w ++ (t ++ w')) = utf8 (w ++ (t ++ w')) ++ [] := (List.append_nil _).symm
  rw [parse_of_text parseF64 hw hv hw' htext (hnil _) fun _ => ?_]
  · exact if_neg fun h => h rfl
  · cases w' with
    | nil => exact hnil _
    | cons c w' =>
      rw [utf8_cons, encode_ascii (hw'.ascii c List.mem_cons_self)]
      have hc := ws_char_iff.1 (hw' c List.mem_cons_self)
      apply stops_cons
      rw [← Bool.not_eq_true, isNumberByte_iff, byte_toNat (hw'.ascii c List.mem_cons_self)]
      omega

/-- **The parser takes the texts of its dialect**, with the values that they spell. -/
theorem parse_eq_ok_iff : parse parseF64 text = .ok v ↔ JsonText (accepted parseF64) text v := by
  refine ⟨fun h => ?_, parse_of_jsonText parseF64⟩
  rcases parse_spec parseF64 text with ⟨v', hv', htext⟩ | ⟨e, he⟩
  · rw [h] at hv'
    rwa [Except.ok.inj hv']
  · rw [h] at he
    cases he

/-- The first byte of a character that is not of a class of ASCII is not of the class. -/
theorem exists_first_byte (c : Char) : ∃ d bs, utf8EncodeChar c = d :: bs ∧
    (c.toNat < 0x80 ∧ d = byte c ∨ 0x80 ≤ d.toNat) := by
  by_cases hc : c.toNat < 0x80
  · exact ⟨byte c, [], encode_ascii hc, .inl ⟨hc, rfl⟩⟩
  · obtain ⟨d, bs, hd⟩ := List.exists_cons_of_ne_nil (l := utf8EncodeChar c) utf8EncodeChar_ne_nil
    have hmem : d ∈ utf8EncodeChar c := by
      rw [hd]
      exact List.mem_cons_self
    exact ⟨d, bs, hd, .inr (encode_high (Nat.not_lt.1 hc) hmem)⟩

theorem stops_of_not_ws {c : Char} (h : ¬ Ws [c]) (rest : List Char) :
    Stops isWs (utf8 (c :: rest)) := by
  obtain ⟨d, bs, hd, hc⟩ := exists_first_byte c
  rw [utf8_cons, hd]
  apply stops_cons
  rw [← Bool.not_eq_true, isWs_iff]
  rcases hc with ⟨hlt, rfl⟩ | hhigh
  · rw [byte_toNat hlt, ← ws_char_iff]
    exact fun hw => h fun e he => List.mem_singleton.1 he ▸ hw
  · omega

theorem stops_of_not_number {c : Char} (h : ¬ IsNumberChar c) (rest : List Char) :
    Stops isNumberByte (utf8 (c :: rest)) := by
  obtain ⟨d, bs, hd, hc⟩ := exists_first_byte c
  rw [utf8_cons, hd]
  apply stops_cons
  rw [← Bool.not_eq_true, isNumberByte_iff]
  rcases hc with ⟨hlt, rfl⟩ | hhigh
  · rw [byte_toNat hlt, ← isNumberChar_iff]
    exact h
  · omega

/-- What stands behind a value is an error. -/
theorem parse_trailing (h : Trailing (accepted parseF64) text) :
    ∃ e, parse parseF64 text = .error (.err e) := by
  obtain ⟨w, t, v, w', c, rest, hw, hv, hw', rfl, hc, hnum⟩ := h
  have hpos : 0 < (utf8 (c :: rest)).length :=
    Nat.lt_of_lt_of_le (Nat.succ_pos _) (utf8_length_le (c :: rest))
  have htext : utf8 (w ++ (t ++ (w' ++ c :: rest))) = utf8 (w ++ (t ++ w')) ++ utf8 (c :: rest) := by
    rw [← utf8_append, List.append_assoc, List.append_assoc]
  rw [parse_of_text parseF64 hw hv hw' htext (stops_of_not_ws hc rest) fun hall => ?_]
  · rw [if_pos (by rw [htext, List.length_append]; omega)]
    exact ⟨_, rfl⟩
  · cases w' with
    | nil => exact stops_of_not_number (hnum rfl hall) rest
    | cons d w' =>
      rw [← utf8_append]
      apply stops_of_not_number
      have hd := ws_char_iff.1 (hw' d List.mem_cons_self)
      rw [isNumberChar_iff]
      omega

end

/-! ## Nothing left open -/

section
variable {stack t u rest : List Char} {parseF64 : List Char → Option F}

/-- Characters that are passed over outside of strings. -/
def Inert (t : List Char) : Prop :=
  ∀ c ∈ t, c ≠ '"' ∧ c ≠ '[' ∧ c ≠ '{' ∧ c ≠ ']' ∧ c ≠ '}'

theorem scan_inert (h : Inert t) : scan false 0 stack (t ++ rest) = scan false 0 stack rest := by
  induction t with
  | nil => rfl
  | cons c t ih =>
    obtain ⟨⟨h₁, h₂, h₃, h₄, h₅⟩, ht⟩ := List.forall_mem_cons.1 h
    rw [List.cons_append, scan, if_neg h₁, if_neg (by simp [h₂, h₃]), if_neg (by simp [h₄, h₅])]
    exact ih ht

theorem scan_inert_cons {c : Char} (h : Inert [c]) :
    scan false 0 stack (c :: rest) = scan false 0 stack rest := scan_inert (t := [c]) h

theorem inert_singleton {c : Char}
    (h : c ≠ '"' ∧ c ≠ '[' ∧ c ≠ '{' ∧ c ≠ ']' ∧ c ≠ '}') : Inert [c] :=
  fun _ hd => List.mem_singleton.1 hd ▸ h

theorem Ws.inert {w : List Char} (h : Ws w) : Inert w := by
  intro c hc
  rcases h c hc with rfl | rfl | rfl | rfl <;> decide

theorem inert_number (h : ∀ c ∈ t, IsNumberChar c) : Inert t := by
  intro c hc
  have hn := isNumberChar_iff.1 (h c hc)
  refine ⟨?_, ?_, ?_, ?_, ?_⟩ <;> rintro rfl <;> revert hn <;> decide

theorem scan_skip (n : ℕ) (t rest : List Char) (ht : t.length = n) :
    scan true n stack (t ++ rest) = scan true 0 stack rest := by
  induction n generalizing t with
  | zero => rw [List.length_eq_zero_iff.1 ht, List.nil_append]
  | succ n ih =>
    cases t with
    | nil => cases ht
    | cons c t => exact ih t (Nat.succ.inj ht)

theorem quadAt_append {h : List Char} {v : ℕ} (hq : (accepted parseF64).quad h v)
    (rest : List Char) : quadAt (h ++ rest) = some v := by
  obtain ⟨hlen, hradix⟩ := hq
  unfold quadAt
  rw [if_pos (by rw [List.length_append]; omega), List.take_append_of_le_length (by omega),
    List.take_of_length_le (by omega), hradix]

theorem escapeLength_u {v : ℕ} (hq : quadAt t = some v) :
    escapeLength ('u' :: t) = if LowSurrogate v then none
      else if HighSurrogate v then
        if (t.drop 4).take 2 = ['\\', 'u'] then
          match quadAt (t.drop 6) with
          | some lo => if LowSurrogate lo then some 11 else none
          | none => none
        else none
      else some 5 := by
  unfold escapeLength
  rw [if_pos (show ('u' :: t).head? = some 'u' from rfl), List.tail_cons, hq]
  rfl

/-- An escape takes what it spells. -/
theorem escapeLength_append {c : Char} (h : UnitText (accepted parseF64) ('\\' :: t) c)
    (rest : List Char) : escapeLength (t ++ rest) = some t.length := by
  cases h with
  | raw h => exact absurd rfl h.2
  | @short e _ h =>
    have hu : e ≠ 'u' := by
      rintro rfl
      simp [shortEscapes] at h
    exact if_neg fun hhead => hu (Option.some.inj hhead)
  | @hex h v hq hv =>
    have hlow : ¬ LowSurrogate v := by
      unfold LowSurrogate
      rcases hv with hv | hv <;> omega
    have hhigh : ¬ HighSurrogate v := by
      unfold HighSurrogate
      rcases hv with hv | hv <;> omega
    rw [List.cons_append, escapeLength_u (quadAt_append hq rest), if_neg hlow, if_neg hhigh,
      List.length_cons, hq.1]
  | @pair h l hi lo hh hl hhi hlo =>
    have hlow : ¬ LowSurrogate hi := by
      unfold LowSurrogate HighSurrogate at *
      omega
    have hdrop : (h ++ ('\\' :: 'u' :: (l ++ rest))).drop 4 = '\\' :: 'u' :: (l ++ rest) := by
      rw [← hh.1, List.drop_left]
    have hdrop' : (h ++ ('\\' :: 'u' :: (l ++ rest))).drop 6 = l ++ rest := by
      rw [show 6 = 4 + 2 from rfl, ← List.drop_drop, hdrop]
      rfl
    rw [List.cons_append, List.append_assoc, List.cons_append, List.cons_append,
      escapeLength_u (quadAt_append hh _), if_neg hlow, if_pos hhi, hdrop, if_pos (by rfl), hdrop',
      quadAt_append hl]
    simp only
    rw [if_pos hlo, List.length_cons, List.length_append, hh.1, List.length_cons, List.length_cons,
      hl.1]

theorem scan_unit {c : Char} (h : UnitText (accepted parseF64) t c) :
    scan true 0 stack (t ++ rest) = scan true 0 stack rest := by
  have hescape : ∀ t, UnitText (accepted parseF64) ('\\' :: t) c →
      scan true 0 stack ('\\' :: (t ++ rest)) = scan true 0 stack rest := by
    intro t ht
    rw [scan, if_neg (by decide), if_pos rfl, escapeLength_append ht]
    exact scan_skip _ t rest rfl
  cases h with
  | raw h =>
    rw [List.singleton_append, scan, if_neg h.1, if_neg h.2]
  | short h => exact hescape _ (.short h)
  | hex hq hv => exact hescape _ (.hex hq hv)
  | pair hh hl hhi hlo => exact hescape _ (.pair hh hl hhi hlo)

theorem scan_string {s : List Char} (h : StringText (accepted parseF64) t s) :
    scan false 0 stack (t ++ rest) = scan false 0 stack rest := by
  obtain ⟨u, rfl, hu⟩ := h
  rw [List.cons_append, scan, if_pos rfl, List.append_assoc]
  induction hu with
  | nil => rw [List.nil_append, List.singleton_append, scan, if_pos rfl]
  | cons head tail ih => rw [List.append_assoc, scan_unit head, ih]

/-- Texts between commas are passed over one by one. -/
theorem scan_commas {β : Type} {f : β → List Char} {xs : List β}
    (h : ∀ x ∈ xs, ∀ rest, scan false 0 stack (f x ++ rest) = scan false 0 stack rest) :
    scan false 0 stack (commas (xs.map f) ++ rest) = scan false 0 stack rest := by
  induction xs with
  | nil => rfl
  | cons x xs ih =>
    obtain ⟨hx, hxs⟩ := List.forall_mem_cons.1 h
    by_cases hne : xs = []
    · rw [hne, List.map_singleton, commas_singleton, hx]
    · rw [List.map_cons, commas_cons _ (by simpa using hne), List.append_assoc, hx, List.cons_append,
        scan_inert_cons (inert_singleton (by decide)), ih hxs]

theorem scan_array (h : ∀ rest, scan false 0 ('[' :: stack) (u ++ rest) =
      scan false 0 ('[' :: stack) rest) :
    scan false 0 stack ('[' :: (u ++ [']']) ++ rest) = scan false 0 stack rest := by
  rw [List.cons_append, scan, if_neg (by decide), if_pos (.inl rfl), List.append_assoc, h]
  rfl

theorem scan_object (h : ∀ rest, scan false 0 ('{' :: stack) (u ++ rest) =
      scan false 0 ('{' :: stack) rest) :
    scan false 0 stack ('{' :: (u ++ ['}']) ++ rest) = scan false 0 stack rest := by
  rw [List.cons_append, scan, if_neg (by decide), if_pos (.inr rfl), List.append_assoc, h]
  rfl

/-- A value leaves nothing open. -/
theorem scan_value {v : Value F} (h : ValueText (accepted parseF64) t v) :
    scan false 0 stack (t ++ rest) = scan false 0 stack rest := by
  induction h generalizing stack rest with
  | null => exact scan_inert (by simp [Inert])
  | tt => exact scan_inert (by simp [Inert])
  | ff => exact scan_inert (by simp [Inert])
  | num h => exact scan_inert (inert_number h.2.1)
  | str h => exact scan_string h
  | arrNil hw => exact scan_array fun _ => scan_inert hw.inert
  | arr es hne hws hv ih =>
    refine scan_array fun rest => scan_commas fun e he rest => ?_
    unfold Element.spell
    rw [List.append_assoc, scan_inert (hws e he).1.inert, List.append_assoc, ih e he,
      scan_inert (hws e he).2.inert]
  | objNil hw => exact scan_object fun _ => scan_inert hw.inert
  | obj ms hne hws hk hv ih =>
    refine scan_object fun rest => scan_commas fun m hm rest => ?_
    obtain ⟨hbefore, hbc, hac, hafter⟩ := hws m hm
    unfold Member.spell
    rw [List.append_assoc, scan_inert hbefore.inert, List.append_assoc, scan_string (hk m hm),
      List.append_assoc, scan_inert hbc.inert, List.cons_append,
      scan_inert_cons (inert_singleton (by decide)), List.append_assoc, scan_inert hac.inert, List.append_assoc, ih m hm,
      scan_inert hafter.inert]

theorem verdict_of_jsonText {text : List Char} {v : Value F}
    (h : JsonText (accepted parseF64) text v) : verdict text = .fine := by
  obtain ⟨w, t, w', hw, hv, hw', rfl⟩ := h
  unfold verdict
  rw [scan_inert hw.inert, scan_value hv, ← List.append_nil w', scan_inert hw'.inert]
  rfl

theorem parse_verdict {text : List Char} (h : verdict text ≠ .fine) :
    ∃ e, parse parseF64 text = .error (.err e) := by
  rcases parse_spec parseF64 text with ⟨v, -, htext⟩ | he
  · exact absurd (verdict_of_jsonText htext) h
  · exact he

end

/-! ## The parser -/

/-- **The parser.** A text of RFC 8259 gives the value that it spells; a lone half of a surrogate pair,
something left open and something behind the value are errors; every text is taken or is an error, which a
panic is not. -/
theorem parse_correct (parseF64 : List Char → Option F) (text : List Char) :
    (∀ v, JsonText (rfc8259 parseF64) text v → parse parseF64 text = .ok v) ∧
      (verdict text ≠ .fine ∨ Trailing (accepted parseF64) text →
        ∃ e, parse parseF64 text = .error (.err e)) ∧
      ((∃ v, parse parseF64 text = .ok v) ∨ ∃ e, parse parseF64 text = .error (.err e)) := by
  refine ⟨fun v h => ?_, fun h => ?_, ?_⟩
  · exact parse_of_jsonText parseF64 (h.mono (rfc8259_sub parseF64))
  · exact h.elim parse_verdict (parse_trailing parseF64)
  · exact (parse_spec parseF64 text).imp (fun ⟨v, hv, _⟩ => ⟨v, hv⟩) id

end Json

end Memra
