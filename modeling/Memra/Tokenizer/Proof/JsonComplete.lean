import Memra.Tokenizer.Proof.JsonSound

/-!
# What the JSON parser takes in

Wherever a spelling of the dialect `accepted` stands in the bytes, the part of the parser for it ends
behind it and returns what it spells (`value_complete`, by induction on the grammar). A number has to end
where its characters end; in an array, an object or a text on its own it does.
-/

namespace Memra

namespace Json

open Lib Lib.Cursor

variable {F : Type} {b post : List UInt8} {i : ℕ}

theorem utf8_nil : utf8 [] = [] := rfl

theorem size_append (s t : List Char) :
    (utf8 (s ++ t)).length = (utf8 s).length + (utf8 t).length := by
  rw [utf8_append, List.length_append]

theorem size_cons {c : Char} (hc : c.toNat < 0x80) (t : List Char) :
    (utf8 (c :: t)).length = (utf8 t).length + 1 := by
  rw [utf8_cons, encode_ascii hc]
  rfl

theorem cons_of_drop {c : Char} (hc : c.toNat < 0x80) {t : List Char}
    (h : b.drop i = utf8 (c :: t) ++ post) :
    b.drop i = byte c :: (utf8 t ++ post) ∧ b.drop (i + 1) = utf8 t ++ post := by
  rw [utf8_cons, encode_ascii hc] at h
  exact ⟨h, drop_succ_of_drop h⟩

theorem append_of_drop {s t : List Char} (h : b.drop i = utf8 (s ++ t) ++ post) :
    b.drop i = utf8 s ++ (utf8 t ++ post) ∧ b.drop (i + (utf8 s).length) = utf8 t ++ post := by
  rw [utf8_append, List.append_assoc] at h
  exact ⟨h, drop_add_of_drop h⟩

/-! ## The small readers -/

theorem peek_of_drop {c : UInt8} {rest : List UInt8} (h : b.drop i = c :: rest) :
    peek b i = .ok c := by
  unfold peek
  rw [getElem?_of_drop h]

theorem expect_of_drop {c : UInt8} {rest : List UInt8} (h : b.drop i = c :: rest) :
    expect b i c = .ok (i + 1) := by
  unfold expect
  rw [peek_of_drop h]
  exact if_neg fun hne => hne rfl

/-- Nothing of the class is ahead. -/
def Stops (p : UInt8 → Bool) (post : List UInt8) : Prop := ∀ c ∈ post.head?, p c = false

theorem stops_cons {p : UInt8 → Bool} {c : UInt8} (h : p c = false) (rest : List UInt8) :
    Stops p (c :: rest) := by
  intro d hd
  rwa [← Option.some.inj hd]

/-- White space, and a character behind it, end a number. -/
theorem stops_ws {w : List Char} (hw : Ws w) {c : UInt8} (h : isNumberByte c = false)
    (rest : List UInt8) : Stops isNumberByte (utf8 w ++ c :: rest) := by
  cases w with
  | nil => exact stops_cons h rest
  | cons d w =>
    have hd := ws_char_iff.1 (hw d List.mem_cons_self)
    rw [utf8_cons, encode_ascii (hw.ascii d List.mem_cons_self)]
    apply stops_cons
    rw [← Bool.not_eq_true, isNumberByte_iff, byte_toNat (hw.ascii d List.mem_cons_self)]
    omega

theorem ws_complete {w : List Char} (hw : Ws w) (h : b.drop i = utf8 w ++ post)
    (hpost : Stops isWs post) : ws b i = .ok (i + (utf8 w).length) :=
  skip_of_drop h hw.isWs hpost

theorem lit_complete {word : List Char} (hword : ∀ c ∈ word, c.toNat < 0x80) {v : Value F}
    (hi : i ≤ b.length) (h : b.drop i = utf8 word ++ post) :
    lit b i (word.map byte) v = .ok (v, i + (utf8 word).length) := by
  have hlen := length_of_drop h hi
  rw [utf8_ascii hword] at h hlen ⊢
  unfold lit
  rw [if_neg (by omega), if_pos (by omega), slice_of_drop h hi]
  exact if_pos rfl

variable {parseF64 : List Char → Option F}

theorem number_complete {t : List Char} {x : F} (hx : (accepted parseF64).number t x)
    (hi : i ≤ b.length) (h : b.drop i = utf8 t ++ post) (hpost : Stops isNumberByte post) :
    number b parseF64 i = .ok (.num x, i + (utf8 t).length) := by
  obtain ⟨hne, hchars, hparse⟩ := hx
  have hbytes : ∀ c ∈ utf8 t, isNumberByte c = true := by
    rw [utf8_ascii fun c hc => (hchars c hc).ascii]
    intro c hc
    obtain ⟨d, hd, rfl⟩ := List.mem_map.1 hc
    exact (hchars d hd).isNumberByte
  have hpos : 0 < (utf8 t).length :=
    Nat.lt_of_lt_of_le (List.length_pos_of_ne_nil hne) (utf8_length_le t)
  unfold number
  rw [skip_of_drop h hbytes hpost]
  simp only [Bind.bind, Except.bind]
  rw [if_neg (by omega), slice_of_drop h hi]
  simp only
  rw [fromUtf8_utf8, Option.bind_some, hparse]
  rfl

theorem hex4_complete {h : List Char} {v : ℕ} (hv : (accepted parseF64).quad h v)
    (hi : i ≤ b.length) (hat : b.drop i = utf8 h ++ post) :
    hex4 b i = .ok (v, i + (utf8 h).length) := by
  obtain ⟨hlen, hradix⟩ := hv
  have hsize : (utf8 h).length = 4 := by
    rw [utf8_length_ascii (fromStrRadix16_ascii hradix), hlen]
  have htotal := length_of_drop hat hi
  have hslice : (slice b i (i + 4) : Res _) = .ok (utf8 h) := by
    have hs := slice_of_drop (ε := String) hat hi
    rwa [hsize] at hs
  unfold hex4
  rw [if_neg (by omega), hslice]
  simp only [Bind.bind, Except.bind]
  rw [fromUtf8_utf8, Option.bind_some, hradix, hsize]
  rfl

/-! ## Strings -/

theorem shortEscape_mem {e c : Char} (h : (e, c) ∈ shortEscapes) :
    e.toNat < 0x80 ∧ shortEscape (byte e) = some c := by
  fin_cases h <;> exact ⟨by decide, by decide⟩

theorem charFromU32_ofNat {cp : ℕ} (h : cp.isValidChar) :
    charFromU32 cp = some (Char.ofNat cp) := if_pos h

theorem pair_valid {hi lo : ℕ} (hhi : HighSurrogate hi) (hlo : LowSurrogate lo) :
    (0x10000 + (hi - 0xd800) * 2 ^ 10 + (lo - 0xdc00)).isValidChar := by
  unfold HighSurrogate at hhi
  unfold LowSurrogate at hlo
  exact .inr ⟨by omega, by omega⟩

theorem codepoint_complete {l : List Char} {hi lo : ℕ} (hl : (accepted parseF64).quad l lo)
    (hhi : HighSurrogate hi) (hlo : LowSurrogate lo)
    (hat : b.drop i = utf8 ('\\' :: 'u' :: l) ++ post) {cp : ℕ}
    (hcp : cp = 0x10000 + (hi - 0xd800) * 2 ^ 10 + (lo - 0xdc00)) :
    codepoint b hi i = .ok (cp, i + (utf8 ('\\' :: 'u' :: l)).length) := by
  obtain ⟨hslash, hrest⟩ := cons_of_drop (by decide) hat
  obtain ⟨hletter, hrest⟩ := cons_of_drop (by decide) hrest
  have hin := lt_of_drop hletter
  unfold codepoint
  rw [if_pos (by exact hhi), if_neg (by omega), index_of_drop hslash, index_of_drop hletter]
  simp only [Bind.bind, Except.bind, ne_eq, not_true_eq_false, if_false]
  rw [hex4_complete hl hin hrest]
  simp only
  rw [if_neg (by exact fun h => h hlo), ← hcp, size_cons (by decide), size_cons (by decide)]
  show Except.ok (cp, _) = _
  congr 2
  omega

theorem escape_unicode {h t : List Char} {hi cp : ℕ} (hq : (accepted parseF64).quad h hi)
    (hcode : ∀ j, j ≤ b.length → b.drop j = utf8 t ++ post →
      codepoint b hi j = .ok (cp, j + (utf8 t).length)) (hvalid : cp.isValidChar)
    (hat : b.drop i = utf8 ('u' :: (h ++ t)) ++ post) :
    escape b i = .ok (Char.ofNat cp, i + (utf8 ('u' :: (h ++ t))).length) := by
  have hu : shortEscape (byte 'u') = none := by decide
  obtain ⟨hcons, hrest⟩ := cons_of_drop (c := 'u') (by decide) hat
  obtain ⟨hquad, hrest⟩ := append_of_drop hrest
  have hlt := lt_of_drop hcons
  have hlen := length_of_drop hquad hlt
  unfold escape
  rw [peek_of_drop hcons]
  simp only [Bind.bind, Except.bind]
  rw [hu]
  simp only
  rw [if_pos trivial, hex4_complete hq hlt hquad]
  simp only
  rw [hcode _ (by omega) hrest]
  simp only
  rw [charFromU32_ofNat hvalid, size_cons (c := 'u') (by decide), size_append]
  simp only [pure, Except.pure]
  congr 2
  omega

theorem escape_complete {t : List Char} {c : Char}
    (hc : UnitText (accepted parseF64) ('\\' :: t) c) (hat : b.drop i = utf8 t ++ post) :
    escape b i = .ok (c, i + (utf8 t).length) := by
  cases hc with
  | raw h => exact absurd rfl h.2
  | @short e _ h =>
    obtain ⟨he, hshort⟩ := shortEscape_mem h
    obtain ⟨hcons, -⟩ := cons_of_drop he hat
    unfold escape
    rw [peek_of_drop hcons]
    simp only [Bind.bind, Except.bind]
    rw [hshort, size_cons he]
    rfl
  | @hex h v hq hv =>
    have hnot : ¬ HighSurrogate v := by
      unfold HighSurrogate
      rcases hv with hv | hv <;> omega
    rw [← List.append_nil h] at hat ⊢
    exact escape_unicode hq (fun j _ _ => if_neg hnot) hv hat
  | @pair h l hi lo hh hl hhi hlo =>
    exact escape_unicode hh (fun j _ hj => codepoint_complete hl hhi hlo hj rfl)
      (pair_valid hhi hlo) hat

/-- The characters in front that stand for themselves, up to an escape or the end. -/
theorem exists_raw {D : Dialect F} {u s : List Char} (hs : Spelled (UnitText D) u s) :
    ∃ p u' s', u = p ++ u' ∧ s = p ++ s' ∧ (∀ c ∈ p, D.raw c) ∧ Spelled (UnitText D) u' s' ∧
      (u' = [] ∨ u'.head? = some '\\') := by
  induction hs with
  | nil => exact ⟨[], [], [], rfl, rfl, fun c hc => absurd hc List.not_mem_nil, .nil, .inl rfl⟩
  | @cons x xs c cs head tail ih =>
    obtain ⟨p, u', s', hu, hs', hraw, hspelled, hend⟩ := ih
    have hself : Spelled (UnitText D) (x ++ xs) (c :: cs) := .cons head tail
    cases head with
    | raw h =>
      refine ⟨c :: p, u', s', ?_, ?_, List.forall_mem_cons.2 ⟨h, hraw⟩, hspelled, hend⟩
      · rw [hu]
        rfl
      · rw [hs']
        rfl
    | short h => exact ⟨[], _, _, rfl, rfl, fun c hc => absurd hc List.not_mem_nil, hself, .inr rfl⟩
    | hex hq hv => exact ⟨[], _, _, rfl, rfl, fun c hc => absurd hc List.not_mem_nil, hself, .inr rfl⟩
    | pair hh hl hhi hlo =>
      exact ⟨[], _, _, rfl, rfl, fun c hc => absurd hc List.not_mem_nil, hself, .inr rfl⟩

/-- An escape in front. -/
theorem exists_escape {u s : List Char} (hs : Spelled (UnitText (accepted parseF64)) u s)
    (hu : u.head? = some '\\') :
    ∃ t u' c s', u = '\\' :: (t ++ u') ∧ s = c :: s' ∧
      UnitText (accepted parseF64) ('\\' :: t) c ∧ Spelled (UnitText (accepted parseF64)) u' s' := by
  cases hs with
  | nil => cases hu
  | @cons x xs c cs head tail =>
    cases head with
    | raw h => exact absurd (Option.some.inj hu) h.2
    | @short e _ h => exact ⟨[e], xs, _, _, rfl, rfl, .short h, tail⟩
    | @hex h v hq hv => exact ⟨'u' :: h, xs, _, _, rfl, rfl, .hex hq hv, tail⟩
    | @pair h l hi lo hh hl hhi hlo => exact ⟨_, xs, _, _, rfl, rfl, .pair hh hl hhi hlo, tail⟩

theorem Spelled.eq_nil {D : Dialect F} {s : List Char} (hs : Spelled (UnitText D) [] s) : s = [] := by
  generalize hu : ([] : List Char) = u at hs
  cases hs with
  | nil => rfl
  | cons head tail =>
    cases head <;> cases hu

theorem stringLoop_complete {fuel : ℕ} {u s out : List Char}
    (hs : Spelled (UnitText (accepted parseF64)) u s) (hi : i ≤ b.length)
    (hat : b.drop i = utf8 (u ++ ['"']) ++ post) (hfuel : u.length + 1 ≤ fuel) :
    stringLoop b fuel out i = .ok (out ++ s, i + (utf8 (u ++ ['"'])).length) := by
  induction fuel generalizing u s out i with
  | zero => omega
  | succ fuel ih =>
    obtain ⟨p, u', s', rfl, rfl, hraw, hs', hend⟩ := exists_raw hs
    unfold stringLoop
    by_cases hp : p = []
    · subst hp
      rcases hend with rfl | hslash
      · -- the closing quote
        obtain rfl := Spelled.eq_nil hs'
        obtain ⟨hcons, -⟩ := cons_of_drop (c := '"') (by decide) hat
        rw [peek_of_drop hcons, List.append_nil, List.append_nil]
        simp only [Bind.bind, Except.bind]
        rw [if_pos trivial]
        rfl
      · obtain ⟨t, u'', c, s'', rfl, rfl, hunit, htail⟩ := exists_escape hs' hslash
        rw [List.nil_append, List.cons_append, List.append_assoc] at hat
        obtain ⟨hcons, hrest⟩ := cons_of_drop (c := '\\') (by decide) hat
        obtain ⟨hescape, hrest⟩ := append_of_drop hrest
        have hlt := lt_of_drop hcons
        have hlen := length_of_drop hescape hlt
        rw [peek_of_drop hcons]
        simp only [Bind.bind, Except.bind]
        rw [if_neg (by decide), if_pos trivial, escape_complete hunit hescape]
        simp only
        rw [ih htail (by omega) hrest (by simp at hfuel; omega)]
        simp only [List.nil_append, List.cons_append, List.append_assoc]
        rw [size_cons (c := '\\') (by decide), size_append t (u'' ++ ['"'])]
        congr 2
        omega
    · have hplain : ∀ c ∈ utf8 p, isPlain c = true := plain_text_iff.2 hraw
      rw [List.append_assoc] at hat
      obtain ⟨hrun, hrest⟩ := append_of_drop hat
      have hpos : 1 ≤ p.length := List.length_pos_of_ne_nil hp
      obtain ⟨d, ds, hd⟩ := List.exists_cons_of_ne_nil (l := utf8 p) (by
        intro hnil
        have hle := utf8_length_le p
        rw [hnil, List.length_nil] at hle
        omega)
      have hdp : isPlain d = true := hplain d (by rw [hd]; exact List.mem_cons_self)
      obtain ⟨hq, hb⟩ := isPlain_iff.1 hdp
      have hstop : Stops isPlain (utf8 (u' ++ ['"']) ++ post) := by
        rcases hend with rfl | hslash
        · exact stops_cons (by decide) _
        · obtain ⟨t, rfl⟩ := List.head?_eq_some_iff.1 hslash
          exact stops_cons (by decide) _
      have hlen := length_of_drop hrun hi
      have hpeek : b.drop i = d :: (ds ++ (utf8 (u' ++ ['"']) ++ post)) := by
        rw [hrun, hd]
        rfl
      rw [peek_of_drop hpeek, skip_of_drop hrun hplain hstop]
      simp only [Bind.bind, Except.bind]
      rw [if_neg (by rintro rfl; exact hq rfl), if_neg (by rintro rfl; exact hb rfl),
        slice_of_drop hrun hi]
      simp only
      rw [fromUtf8_utf8]
      simp only
      rw [ih hs' (by omega) hrest (by rw [List.length_append] at hfuel; omega), List.append_assoc,
        List.append_assoc, size_append p (u' ++ ['"']), Nat.add_assoc]

theorem string_complete {t s : List Char} (hs : StringText (accepted parseF64) t s)
    (hat : b.drop i = utf8 t ++ post) :
    string b i = .ok (s, i + (utf8 t).length) := by
  obtain ⟨u, rfl, hu⟩ := hs
  obtain ⟨hcons, hrest⟩ := cons_of_drop (c := '"') (by decide) hat
  have hlt := lt_of_drop hcons
  have hlen := length_of_drop hrest hlt
  have hsize := utf8_length_le (u ++ ['"'])
  rw [List.length_append, List.length_singleton] at hsize
  unfold string
  rw [expect_of_drop hcons]
  refine (stringLoop_complete hu hlt hrest (by omega)).trans ?_
  rw [List.nil_append, size_cons (by decide)]
  congr 2
  omega

/-! ## Values -/

/-- Wherever the text stands in bytes, the parser reads the value off it. -/
def Parses (parseF64 : List Char → Option F) (t : List Char) (v : Value F) : Prop :=
  ∀ (b post : List UInt8) (i fuel : ℕ), i ≤ b.length → b.drop i = utf8 t ++ post →
    ((∀ c ∈ t, IsNumberChar c) → Stops isNumberByte post) → 3 * (utf8 t).length + 1 ≤ fuel →
      value b parseF64 fuel i = .ok (v, i + (utf8 t).length)

/-- What a value begins with. -/
def Begins (t : List Char) : Prop :=
  ∃ c t', t = c :: t' ∧ c.toNat < 0x80 ∧ isWs (byte c) = false ∧ byte c ≠ byte ']'

theorem ValueText.begins {t : List Char} {v : Value F} (h : ValueText (accepted parseF64) t v) :
    Begins t := by
  cases h with
  | null => exact ⟨'n', _, rfl, by decide, by decide, by decide⟩
  | tt => exact ⟨'t', _, rfl, by decide, by decide, by decide⟩
  | ff => exact ⟨'f', _, rfl, by decide, by decide, by decide⟩
  | num h =>
    obtain ⟨c, t, rfl⟩ := List.exists_cons_of_ne_nil h.1
    have hc := h.2.1 c List.mem_cons_self
    have hnum := isNumberChar_iff.1 hc
    have hclose : (byte ']').toNat = 0x5d := rfl
    refine ⟨c, t, rfl, hc.ascii, ?_, fun heq => ?_⟩
    · rw [← Bool.not_eq_true, isWs_iff, byte_toNat hc.ascii]
      omega
    · rw [← UInt8.toNat_inj, byte_toNat hc.ascii, hclose] at heq
      omega
  | str h =>
    obtain ⟨u, rfl, -⟩ := h
    exact ⟨'"', _, rfl, by decide, by decide, by decide⟩
  | arrNil => exact ⟨'[', _, rfl, by decide, by decide, by decide⟩
  | arr => exact ⟨'[', _, rfl, by decide, by decide, by decide⟩
  | objNil => exact ⟨'{', _, rfl, by decide, by decide, by decide⟩
  | obj => exact ⟨'{', _, rfl, by decide, by decide, by decide⟩

theorem StringText.begins {D : Dialect F} {t s : List Char} (h : StringText D t s) :
    ∃ t', t = '"' :: t' := by
  obtain ⟨u, rfl, -⟩ := h
  exact ⟨_, rfl⟩

theorem Begins.stops {t : List Char} (h : Begins t) : Stops isWs (utf8 t ++ post) := by
  obtain ⟨c, t, rfl, hc, hws, -⟩ := h
  rw [utf8_cons, encode_ascii hc]
  exact stops_cons hws _

theorem Begins.pos {t : List Char} (h : Begins t) : 1 ≤ (utf8 t).length := by
  obtain ⟨c, t, rfl, hc, -, -⟩ := h
  rw [size_cons hc]
  exact Nat.succ_le_succ (Nat.zero_le _)

theorem Begins.stops_append {t : List Char} (h : Begins t) (rest : List Char) :
    Stops isWs (utf8 (t ++ rest) ++ post) := by
  rw [utf8_append, List.append_assoc]
  exact h.stops

theorem stops_text {p : UInt8 → Bool} {c : Char} (hc : c.toNat < 0x80) (h : p (byte c) = false)
    (rest : List Char) : Stops p (utf8 (c :: rest) ++ post) := by
  rw [utf8_cons, encode_ascii hc]
  exact stops_cons h _

/-- A number is over where white space, or what may follow it, begins. -/
theorem stops_number {w : List Char} (hw : Ws w) {c : Char} (hc : c.toNat < 0x80)
    (h : isNumberByte (byte c) = false) (rest : List Char) :
    Stops isNumberByte (utf8 (w ++ c :: rest) ++ post) := by
  rw [utf8_append, utf8_cons, encode_ascii hc, List.append_assoc]
  exact stops_ws hw h _

/-- The first of some texts, what stands behind it, and the rest. -/
theorem commas_front {β : Type} (f : β → List Char) (close : Char) (x : β) (xs : List β) :
    ∃ c rest, commas ((x :: xs).map f) ++ [close] = f x ++ c :: rest ∧
      ((c = close ∧ xs = [] ∧ rest = []) ∨
        (c = ',' ∧ xs ≠ [] ∧ rest = commas (xs.map f) ++ [close])) := by
  cases xs with
  | nil => exact ⟨close, [], by rw [List.map_singleton, commas_singleton], .inl ⟨rfl, rfl, rfl⟩⟩
  | cons y ys =>
    refine ⟨',', _, ?_, .inr ⟨rfl, List.cons_ne_nil _ _, rfl⟩⟩
    rw [List.map_cons, commas_cons _ (by simp), List.append_assoc, List.cons_append]

theorem arrayLoop_complete {fuel : ℕ} {es : List (Element F)} {out : List (Value F)} (hne : es ≠ [])
    (hws : ∀ e ∈ es, Ws e.before ∧ Ws e.after) (hbegins : ∀ e ∈ es, Begins e.text)
    (hparses : ∀ e ∈ es, Parses parseF64 e.text e.value) (hi : i ≤ b.length)
    (hat : b.drop i = utf8 (commas (es.map Element.spell) ++ [']']) ++ post)
    (hfuel : 3 * (utf8 (commas (es.map Element.spell) ++ [']'])).length + 2 ≤ fuel) :
    arrayLoop b parseF64 fuel out i = .ok (.arr (out ++ es.map Element.value),
      i + (utf8 (commas (es.map Element.spell) ++ [']'])).length) := by
  induction es generalizing fuel out i with
  | nil => exact absurd rfl hne
  | cons e es ih =>
    obtain ⟨⟨hbefore, hafter⟩, hws⟩ := List.forall_mem_cons.1 hws
    obtain ⟨hb, hbegins⟩ := List.forall_mem_cons.1 hbegins
    obtain ⟨he, hparses⟩ := List.forall_mem_cons.1 hparses
    obtain ⟨fuel, rfl⟩ := Nat.exists_eq_add_one.2 (show 0 < fuel by omega)
    obtain ⟨c, rest, htext, hrest⟩ := commas_front Element.spell ']' e es
    have hc : c = ']' ∨ c = ',' := hrest.imp And.left And.left
    have hascii : c.toNat < 0x80 := by rcases hc with rfl | rfl <;> decide
    have hnum : isNumberByte (byte c) = false := by rcases hc with rfl | rfl <;> decide
    have hcws : isWs (byte c) = false := by rcases hc with rfl | rfl <;> decide
    rw [htext] at hat hfuel ⊢
    have hsize : (utf8 (e.spell ++ c :: rest)).length = (utf8 e.before).length +
        (utf8 e.text).length + (utf8 e.after).length + (utf8 rest).length + 1 := by
      unfold Element.spell
      simp only [size_append, size_cons hascii]
      omega
    have hpos := hb.pos
    unfold Element.spell at hat
    rw [List.append_assoc, List.append_assoc] at hat
    obtain ⟨hat₁, hat⟩ := append_of_drop hat
    obtain ⟨hat₂, hat⟩ := append_of_drop hat
    obtain ⟨hat₃, hat⟩ := append_of_drop hat
    obtain ⟨hat₄, hnext⟩ := cons_of_drop hascii hat
    have hlt := lt_of_drop hat₄
    unfold arrayLoop
    rw [ws_complete hbefore hat₁ (hb.stops_append _)]
    simp only [Bind.bind, Except.bind]
    rw [he b _ _ fuel (by omega) hat₂ (fun _ => stops_number hafter hascii hnum _) (by omega)]
    simp only
    rw [ws_complete hafter hat₃ (stops_text hascii hcws _)]
    simp only
    rw [peek_of_drop hat₄]
    simp only
    rcases hrest with ⟨rfl, rfl, rfl⟩ | ⟨rfl, hes, rfl⟩
    · rw [if_neg (by decide), if_pos rfl, hsize]
      simp only [pure, Except.pure, List.map_singleton, utf8_nil, List.length_nil]
      congr 2
      omega
    · rw [if_pos rfl, ih hes hws hbegins hparses hlt hnext (by omega), hsize]
      simp only [List.map_cons, List.append_assoc, List.singleton_append]
      congr 2
      omega

theorem objectLoop_complete {fuel : ℕ} {ms : List (Member F)} {out : List Char → Option (Value F)}
    (hne : ms ≠ [])
    (hws : ∀ m ∈ ms, Ws m.before ∧ Ws m.beforeColon ∧ Ws m.afterColon ∧ Ws m.after)
    (hkeys : ∀ m ∈ ms, StringText (accepted parseF64) m.keyText m.key)
    (hbegins : ∀ m ∈ ms, Begins m.text) (hparses : ∀ m ∈ ms, Parses parseF64 m.text m.value)
    (hi : i ≤ b.length) (hat : b.drop i = utf8 (commas (ms.map Member.spell) ++ ['}']) ++ post)
    (hfuel : 3 * (utf8 (commas (ms.map Member.spell) ++ ['}'])).length + 2 ≤ fuel) :
    objectLoop b parseF64 fuel out i =
      .ok (.obj (ms.foldl (fun o m => insert o m.key m.value) out),
        i + (utf8 (commas (ms.map Member.spell) ++ ['}'])).length) := by
  induction ms generalizing fuel out i with
  | nil => exact absurd rfl hne
  | cons m ms ih =>
    obtain ⟨⟨hbefore, hbc, hac, hafter⟩, hws⟩ := List.forall_mem_cons.1 hws
    obtain ⟨hk, hkeys⟩ := List.forall_mem_cons.1 hkeys
    obtain ⟨hb, hbegins⟩ := List.forall_mem_cons.1 hbegins
    obtain ⟨hm, hparses⟩ := List.forall_mem_cons.1 hparses
    obtain ⟨fuel, rfl⟩ := Nat.exists_eq_add_one.2 (show 0 < fuel by omega)
    obtain ⟨c, rest, htext, hrest⟩ := commas_front Member.spell '}' m ms
    have hc : c = '}' ∨ c = ',' := hrest.imp And.left And.left
    have hascii : c.toNat < 0x80 := by rcases hc with rfl | rfl <;> decide
    have hnum : isNumberByte (byte c) = false := by rcases hc with rfl | rfl <;> decide
    have hcws : isWs (byte c) = false := by rcases hc with rfl | rfl <;> decide
    rw [htext] at hat hfuel ⊢
    have hsize : (utf8 (m.spell ++ c :: rest)).length = (utf8 m.before).length +
        (utf8 m.keyText).length + (utf8 m.beforeColon).length + 1 + (utf8 m.afterColon).length +
        (utf8 m.text).length + (utf8 m.after).length + (utf8 rest).length + 1 := by
      unfold Member.spell
      simp only [size_append, size_cons hascii, size_cons (c := ':') (by decide)]
      omega
    have hpos := hb.pos
    have hkb : Begins m.keyText := by
      obtain ⟨t, ht⟩ := hk.begins
      exact ⟨'"', t, ht, by decide, by decide, by decide⟩
    unfold Member.spell at hat
    rw [List.append_assoc, List.append_assoc, List.append_assoc, List.cons_append,
      List.append_assoc, List.append_assoc] at hat
    obtain ⟨hat₁, hat⟩ := append_of_drop hat
    obtain ⟨hat₂, hat⟩ := append_of_drop hat
    obtain ⟨hat₃, hat⟩ := append_of_drop hat
    obtain ⟨hat₄, hat⟩ := cons_of_drop (c := ':') (by decide) hat
    obtain ⟨hat₅, hat⟩ := append_of_drop hat
    obtain ⟨hat₆, hat⟩ := append_of_drop hat
    obtain ⟨hat₇, hat⟩ := append_of_drop hat
    obtain ⟨hat₈, hnext⟩ := cons_of_drop hascii hat
    have hlt := lt_of_drop hat₈
    unfold objectLoop
    rw [ws_complete hbefore hat₁ (hkb.stops_append _)]
    simp only [Bind.bind, Except.bind]
    rw [string_complete hk hat₂]
    simp only
    rw [ws_complete hbc hat₃ (stops_text (by decide) (by decide) _)]
    simp only
    rw [expect_of_drop hat₄]
    simp only
    rw [ws_complete hac hat₅ (hb.stops_append _)]
    simp only
    rw [hm b _ _ fuel (by omega) hat₆ (fun _ => stops_number hafter hascii hnum _) (by omega)]
    simp only
    rw [ws_complete hafter hat₇ (stops_text hascii hcws _)]
    simp only
    rw [peek_of_drop hat₈]
    simp only
    rcases hrest with ⟨rfl, rfl, rfl⟩ | ⟨rfl, hms, rfl⟩
    · rw [if_neg (by decide), if_pos rfl, hsize]
      simp only [pure, Except.pure, List.foldl_cons, List.foldl_nil, utf8_nil, List.length_nil]
      congr 2
      omega
    · rw [if_pos rfl, ih hms hws hkeys hbegins hparses hlt hnext (by omega), hsize, List.foldl_cons]
      congr 2
      omega

/-! ## Brackets -/

variable {fuel : ℕ} {w : List Char} {c : UInt8} {rest : List UInt8}

theorem array_open (hw : Ws w) (hc : isWs c = false)
    (hat : b.drop i = byte '[' :: (utf8 w ++ c :: rest)) :
    value b parseF64 (fuel + 2) i =
      if c = byte ']' then .ok (.arr [], i + 1 + (utf8 w).length + 1)
      else arrayLoop b parseF64 fuel [] (i + 1 + (utf8 w).length) := by
  have hnext := drop_succ_of_drop hat
  unfold value
  rw [peek_of_drop hat]
  simp only [Bind.bind, Except.bind]
  rw [if_neg (by decide), if_pos trivial]
  unfold array
  rw [expect_of_drop hat]
  simp only [Bind.bind, Except.bind]
  rw [ws_complete hw hnext (stops_cons hc _)]
  simp only
  rw [peek_of_drop (drop_add_of_drop hnext)]
  rfl

theorem object_open (hw : Ws w) (hc : isWs c = false)
    (hat : b.drop i = byte '{' :: (utf8 w ++ c :: rest)) :
    value b parseF64 (fuel + 2) i =
      if c = byte '}' then .ok (.obj fun _ => none, i + 1 + (utf8 w).length + 1)
      else objectLoop b parseF64 fuel (fun _ => none) (i + 1 + (utf8 w).length) := by
  have hnext := drop_succ_of_drop hat
  unfold value
  rw [peek_of_drop hat]
  simp only [Bind.bind, Except.bind]
  rw [if_pos trivial]
  unfold object
  rw [expect_of_drop hat]
  simp only [Bind.bind, Except.bind]
  rw [ws_complete hw hnext (stops_cons hc _)]
  simp only
  rw [peek_of_drop (drop_add_of_drop hnext)]
  rfl

theorem arrNil_complete (hw : Ws w) : Parses parseF64 ('[' :: (w ++ [']'])) (.arr []) := by
  intro b post i fuel hi hat _ hfuel
  obtain ⟨fuel, rfl⟩ : ∃ n, fuel = n + 2 := ⟨fuel - 2, by rw [size_cons (by decide)] at hfuel; omega⟩
  obtain ⟨hat₁, -⟩ := cons_of_drop (c := '[') (by decide) hat
  rw [utf8_append, List.append_assoc] at hat₁
  rw [array_open hw (c := byte ']') (by decide) hat₁, if_pos rfl, size_cons (by decide), size_append]
  congr 2
  have hone : (utf8 [']']).length = 1 := by decide
  omega

theorem objNil_complete (hw : Ws w) :
    Parses parseF64 ('{' :: (w ++ ['}'])) (.obj fun _ => none) := by
  intro b post i fuel hi hat _ hfuel
  obtain ⟨fuel, rfl⟩ : ∃ n, fuel = n + 2 := ⟨fuel - 2, by rw [size_cons (by decide)] at hfuel; omega⟩
  obtain ⟨hat₁, -⟩ := cons_of_drop (c := '{') (by decide) hat
  rw [utf8_append, List.append_assoc] at hat₁
  rw [object_open hw (c := byte '}') (by decide) hat₁, if_pos rfl, size_cons (by decide), size_append]
  congr 2
  have hone : (utf8 ['}']).length = 1 := by decide
  omega

/-- The first byte of a text that begins so. -/
theorem Begins.exists_byte {t : List Char} (h : Begins t) (rest : List Char) :
    ∃ c bs, utf8 (t ++ rest) = c :: bs ∧ isWs c = false ∧ c ≠ byte ']' := by
  obtain ⟨c, t, rfl, hc, hws, hclose⟩ := h
  refine ⟨byte c, utf8 (t ++ rest), ?_, hws, hclose⟩
  rw [List.cons_append, utf8_cons, encode_ascii hc]
  rfl

theorem arr_complete {es : List (Element F)} (hne : es ≠ [])
    (hws : ∀ e ∈ es, Ws e.before ∧ Ws e.after) (hbegins : ∀ e ∈ es, Begins e.text)
    (hparses : ∀ e ∈ es, Parses parseF64 e.text e.value) :
    Parses parseF64 ('[' :: (commas (es.map Element.spell) ++ [']'])) (.arr (es.map Element.value)) := by
  intro b post i fuel hi hat _ hfuel
  obtain ⟨e, es, rfl⟩ := List.exists_cons_of_ne_nil hne
  obtain ⟨he, hws⟩ := List.forall_mem_cons.1 hws
  obtain ⟨hb, hbegins⟩ := List.forall_mem_cons.1 hbegins
  obtain ⟨hp, hparses⟩ := List.forall_mem_cons.1 hparses
  -- the white space in front of the first element is read before the loop
  rw [commas_map_cons Element.spell { e with before := [] } es e.before rfl, List.append_assoc]
    at hat hfuel ⊢
  rw [size_cons (by decide), size_append] at hfuel ⊢
  obtain ⟨fuel, rfl⟩ : ∃ n, fuel = n + 2 := ⟨fuel - 2, by omega⟩
  obtain ⟨hat₁, hat₂⟩ := cons_of_drop (c := '[') (by decide) hat
  obtain ⟨hat₃, hat₄⟩ := append_of_drop hat₂
  obtain ⟨c, rest, htext, -⟩ := commas_front Element.spell ']' { e with before := [] } es
  obtain ⟨d, bs, hbytes, hdws, hdclose⟩ := hb.exists_byte (e.after ++ c :: rest)
  have hfirst : utf8 (commas (({ e with before := [] } :: es).map Element.spell) ++ [']']) =
      d :: bs := by
    rw [htext, ← hbytes]
    unfold Element.spell
    rw [List.nil_append, List.append_assoc]
  rw [utf8_append, List.append_assoc, hfirst] at hat₁
  rw [array_open he.1 hdws hat₁, if_neg hdclose]
  have hcons : ({ e with before := [] } :: es) ≠ [] := List.cons_ne_nil _ _
  refine (arrayLoop_complete hcons
    (List.forall_mem_cons.2 ⟨⟨fun c hc => absurd hc List.not_mem_nil, he.2⟩, hws⟩)
    (List.forall_mem_cons.2 ⟨hb, hbegins⟩) (List.forall_mem_cons.2 ⟨hp, hparses⟩) ?_ hat₄
    (by omega)).trans ?_
  · have hlt := lt_of_drop hat₁
    have hlen := length_of_drop hat₃ hlt
    omega
  · congr 2
    omega

theorem obj_complete {ms : List (Member F)} (hne : ms ≠ [])
    (hws : ∀ m ∈ ms, Ws m.before ∧ Ws m.beforeColon ∧ Ws m.afterColon ∧ Ws m.after)
    (hkeys : ∀ m ∈ ms, StringText (accepted parseF64) m.keyText m.key)
    (hbegins : ∀ m ∈ ms, Begins m.text) (hparses : ∀ m ∈ ms, Parses parseF64 m.text m.value) :
    Parses parseF64 ('{' :: (commas (ms.map Member.spell) ++ ['}'])) (.obj (lastOf ms)) := by
  rw [← foldl_insert]
  intro b post i fuel hi hat _ hfuel
  obtain ⟨m, ms, rfl⟩ := List.exists_cons_of_ne_nil hne
  obtain ⟨hm, hws⟩ := List.forall_mem_cons.1 hws
  obtain ⟨hk, hkeys⟩ := List.forall_mem_cons.1 hkeys
  obtain ⟨hb, hbegins⟩ := List.forall_mem_cons.1 hbegins
  obtain ⟨hp, hparses⟩ := List.forall_mem_cons.1 hparses
  -- the white space in front of the first member is read before the loop
  rw [commas_map_cons Member.spell { m with before := [] } ms m.before rfl, List.append_assoc]
    at hat hfuel ⊢
  rw [size_cons (by decide), size_append] at hfuel ⊢
  obtain ⟨fuel, rfl⟩ : ∃ n, fuel = n + 2 := ⟨fuel - 2, by omega⟩
  obtain ⟨hat₁, hat₂⟩ := cons_of_drop (c := '{') (by decide) hat
  obtain ⟨hat₃, hat₄⟩ := append_of_drop hat₂
  obtain ⟨c, rest, htext, -⟩ := commas_front Member.spell '}' { m with before := [] } ms
  obtain ⟨t, ht⟩ := hk.begins
  obtain ⟨bs, hfirst⟩ : ∃ bs,
      utf8 (commas (({ m with before := [] } :: ms).map Member.spell) ++ ['}']) =
        byte '"' :: bs := by
    rw [htext]
    unfold Member.spell
    rw [List.nil_append, ht, List.cons_append, List.cons_append, utf8_cons,
      encode_ascii (c := '"') (by decide)]
    exact ⟨_, rfl⟩
  rw [utf8_append, List.append_assoc, hfirst] at hat₁
  rw [object_open hm.1 (c := byte '"') (by decide) hat₁, if_neg (by decide)]
  have hcons : ({ m with before := [] } :: ms) ≠ [] := List.cons_ne_nil _ _
  refine (objectLoop_complete hcons
    (List.forall_mem_cons.2 ⟨⟨fun c hc => absurd hc List.not_mem_nil, hm.2⟩, hws⟩)
    (List.forall_mem_cons.2 ⟨hk, hkeys⟩) (List.forall_mem_cons.2 ⟨hb, hbegins⟩)
    (List.forall_mem_cons.2 ⟨hp, hparses⟩) ?_ hat₄ (by omega)).trans ?_
  · have hlt := lt_of_drop hat₁
    have hlen := length_of_drop hat₃ hlt
    omega
  · congr 2
    omega

/-! ## All values -/

theorem literal_complete {word : List Char} {v : Value F} (hword : ∀ c ∈ word, c.toNat < 0x80)
    (hvalue : ∀ (b rest : List UInt8) (i fuel : ℕ), b.drop i = utf8 word ++ rest →
      value b parseF64 (fuel + 1) i = lit b i (word.map byte) v) : Parses parseF64 word v := by
  intro b post i fuel hi hat _ hfuel
  obtain ⟨fuel, rfl⟩ := Nat.exists_eq_add_one.2 (show 0 < fuel by omega)
  rw [hvalue b post i fuel hat]
  exact lit_complete hword hi hat

theorem num_complete {t : List Char} {x : F} (h : (accepted parseF64).number t x) :
    Parses parseF64 t (.num x) := by
  intro b post i fuel hi hat hpost hfuel
  obtain ⟨fuel, rfl⟩ := Nat.exists_eq_add_one.2 (show 0 < fuel by omega)
  obtain ⟨hne, hchars, hparse⟩ := h
  obtain ⟨c, t', ht⟩ := List.exists_cons_of_ne_nil hne
  have hc := hchars c (by rw [ht]; exact List.mem_cons_self)
  have hnum := isNumberChar_iff.1 hc
  have hother : ∀ d : Char, d.toNat < 0x80 → ¬ IsNumberChar d → byte c ≠ byte d := by
    intro d hd hnd heq
    rw [← asChar_byte hd, ← heq, asChar_byte hc.ascii] at hnd
    exact hnd hc
  have hat₁ := hat
  rw [ht] at hat₁
  obtain ⟨hat₁, -⟩ := cons_of_drop hc.ascii hat₁
  unfold value
  rw [peek_of_drop hat₁]
  simp only [Bind.bind, Except.bind]
  rw [if_neg (hother _ (by decide) (by rw [isNumberChar_iff]; decide)),
    if_neg (hother _ (by decide) (by rw [isNumberChar_iff]; decide)),
    if_neg (hother _ (by decide) (by rw [isNumberChar_iff]; decide)),
    if_neg (hother _ (by decide) (by rw [isNumberChar_iff]; decide)),
    if_neg (hother _ (by decide) (by rw [isNumberChar_iff]; decide)),
    if_neg (hother _ (by decide) (by rw [isNumberChar_iff]; decide))]
  exact number_complete ⟨hne, hchars, hparse⟩ hi hat (hpost hchars)

theorem str_complete {t s : List Char} (h : StringText (accepted parseF64) t s) :
    Parses parseF64 t (.str s) := by
  intro b post i fuel hi hat _ hfuel
  obtain ⟨fuel, rfl⟩ := Nat.exists_eq_add_one.2 (show 0 < fuel by omega)
  obtain ⟨t', ht⟩ := h.begins
  have hat₁ := hat
  rw [ht] at hat₁
  obtain ⟨hat₁, -⟩ := cons_of_drop (c := '"') (by decide) hat₁
  unfold value
  rw [peek_of_drop hat₁]
  simp only [Bind.bind, Except.bind]
  rw [if_neg (by decide), if_neg (by decide), if_pos trivial, string_complete h hat]
  rfl

/-- **Every spelling of a value is read as the value**, wherever it stands. -/
theorem value_complete {t : List Char} {v : Value F} (h : ValueText (accepted parseF64) t v) :
    Parses parseF64 t v := by
  induction h with
  | null =>
    refine literal_complete (by simp) fun b rest i fuel hat => ?_
    obtain ⟨hat, -⟩ := cons_of_drop (c := 'n') (by decide) hat
    unfold value
    rw [peek_of_drop hat]
    rfl
  | tt =>
    refine literal_complete (by simp) fun b rest i fuel hat => ?_
    obtain ⟨hat, -⟩ := cons_of_drop (c := 't') (by decide) hat
    unfold value
    rw [peek_of_drop hat]
    rfl
  | ff =>
    refine literal_complete (by simp) fun b rest i fuel hat => ?_
    obtain ⟨hat, -⟩ := cons_of_drop (c := 'f') (by decide) hat
    unfold value
    rw [peek_of_drop hat]
    rfl
  | num h => exact num_complete h
  | str h => exact str_complete h
  | arrNil hw => exact arrNil_complete hw
  | arr es hne hws hv ih => exact arr_complete hne hws (fun e he => (hv e he).begins) ih
  | objNil hw => exact objNil_complete hw
  | obj ms hne hws hk hv ih => exact obj_complete hne hws hk (fun m hm => (hv m hm).begins) ih

end Json

end Memra
