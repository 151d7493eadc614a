import Memra.Gguf.Proof.JsonObj
import Memra.Tokenizer.Proof.Json

/-!
# The texts of objects

On the text of an object the reader yields, for every key, the source text of its last value. What stands
in a value leaves the depth of every block around it as it is (`neutral_value`), so the scanner finds the
end of a value (`readValueRaw_text`), and with it the next member.
-/

namespace Memra

namespace JsonObj

open Lib Lib.Cursor
open Json (Member Element Ws StringText UnitText ValueText NumberText commas byte asChar isWs utf8_cons
  encode_ascii utf8_ascii byte_toNat cons_of_drop append_of_drop)

variable {b : List UInt8} {i : ℕ} {rest : List UInt8} {t w : List Char}

/-! ## What stands in a value -/

theorem ne_of_isPlain {x : UInt8} (h : Json.isPlain x = true) : x ≠ byte '"' ∧ x ≠ byte '\\' := by
  simpa [Json.isPlain] using h

theorem inString_plain {s : List Char} (h : ∀ c ∈ s, c ≠ '"' ∧ c ≠ '\\') : InString (utf8 s) :=
  .of_plain fun x hx => ne_of_isPlain (Json.plain_text_iff.2 h x hx)

theorem inString_escape {c : Char} (hc : c.toNat < 0x80) {s : List Char}
    (h : ∀ c ∈ s, c ≠ '"' ∧ c ≠ '\\') : InString (utf8 ('\\' :: c :: s)) := by
  rw [utf8_cons, utf8_cons, encode_ascii (c := '\\') (by decide), encode_ascii hc]
  exact .escaped (inString_plain h)

theorem hexDigit_plain {c : Char} (h : (Json.hexDigit c).isSome) : c ≠ '"' ∧ c ≠ '\\' := by
  constructor <;> rintro rfl <;> revert h <;> decide

theorem shortEscapes_ascii {e c : Char} (h : (e, c) ∈ Json.shortEscapes) : e.toNat < 0x80 := by
  simp only [Json.shortEscapes, List.mem_cons, Prod.mk.injEq, List.not_mem_nil, or_false] at h
  rcases h with h | h | h | h | h | h | h | h <;> rw [h.1] <;> decide

theorem inString_unit {c : Char} (h : UnitText grammar t c) : InString (utf8 t) := by
  have hquad {h : List Char} {v : ℕ} (hq : grammar.quad h v) : InString (utf8 ('\\' :: 'u' :: h)) :=
    inString_escape (by decide) fun c hc => hexDigit_plain (hq.2 c hc)
  cases h with
  | raw h => exact inString_plain fun d hd => List.mem_singleton.1 hd ▸ h.2
  | short h => exact inString_escape (shortEscapes_ascii h) (List.forall_mem_nil _)
  | hex hq hv => exact hquad hq
  | @pair h l hi lo hh hl hhi hlo =>
    have htext : '\\' :: 'u' :: (h ++ '\\' :: 'u' :: l) = ('\\' :: 'u' :: h) ++ '\\' :: 'u' :: l := rfl
    rw [htext, utf8_append]
    exact (hquad hh).append (hquad hl)

theorem inString_spelled {s : List Char} (h : Spelled (UnitText grammar) t s) :
    InString (utf8 t) := by
  induction h with
  | nil => exact .nil
  | cons head _ ih =>
    rw [utf8_append]
    exact (inString_unit head).append ih

/-- A text that leaves the depth of every block as it is. -/
def TextNeutral (t : List Char) : Prop :=
  ∀ o c, Brackets o c → Neutral (byte '"') (byte '\\') o c (utf8 t)

namespace TextNeutral

theorem append {s : List Char} (ht : TextNeutral t) (hs : TextNeutral s) : TextNeutral (t ++ s) := by
  intro o c hb
  rw [utf8_append]
  exact (ht o c hb).append (hs o c hb)

theorem ascii (h : ∀ c ∈ t, c.toNat < 0x80 ∧ c ∉ ['"', '{', '}', '[', ']']) : TextNeutral t := by
  intro o c hb
  rw [utf8_ascii fun c hc => (h c hc).1]
  refine .of_plain fun x hx => ?_
  obtain ⟨d, hd, rfl⟩ := List.mem_map.1 hx
  obtain ⟨hlt, hmem⟩ := h d hd
  have hne (e : Char) (he : e.toNat < 0x80) (heq : byte d = byte e) : d = e := by
    have hnat := congrArg UInt8.toNat heq
    rw [byte_toNat hlt, byte_toNat he] at hnat
    exact Json.char_eq_iff.2 hnat
  simp only [List.mem_cons, List.not_mem_nil, or_false, not_or] at hmem
  refine ⟨fun heq => hmem.1 (hne '"' (by decide) heq), ?_⟩
  rcases hb with ⟨rfl, rfl⟩ | ⟨rfl, rfl⟩
  · exact ⟨fun heq => hmem.2.1 (hne '{' (by decide) heq),
      fun heq => hmem.2.2.1 (hne '}' (by decide) heq)⟩
  · exact ⟨fun heq => hmem.2.2.2.1 (hne '[' (by decide) heq),
      fun heq => hmem.2.2.2.2 (hne ']' (by decide) heq)⟩

theorem ws (hw : Ws w) : TextNeutral w := by
  refine ascii fun c hc => ⟨hw.ascii c hc, ?_⟩
  rcases hw c hc with rfl | rfl | rfl | rfl <;> decide

theorem comma : TextNeutral [','] := ascii (by simp)

theorem string {s : List Char} (h : StringText grammar t s) : TextNeutral t := by
  obtain ⟨u, rfl, hu⟩ := h
  intro o c _
  rw [utf8_cons, utf8_append, encode_ascii (c := '"') (by decide)]
  exact .string (inString_spelled hu)

theorem commas {ts : List (List Char)} (h : ∀ t ∈ ts, TextNeutral t) : TextNeutral (commas ts) := by
  induction ts with
  | nil => exact fun _ _ _ => .nil
  | cons t ts ih =>
    obtain ⟨ht, hts⟩ := List.forall_mem_cons.1 h
    by_cases hne : ts = []
    · rw [hne, Json.commas_singleton]
      exact ht
    · rw [Json.commas_cons t hne]
      exact ht.append (comma.append (ih hts))

/-- A block of either kind. -/
theorem block {o c : Char} (hoc : (o = '{' ∧ c = '}') ∨ (o = '[' ∧ c = ']')) (ht : TextNeutral t) :
    TextNeutral (o :: (t ++ [c])) := by
  intro o' c' hb
  have hinner := ht o' c' hb
  rcases hoc with ⟨rfl, rfl⟩ | ⟨rfl, rfl⟩ <;>
    rw [utf8_cons, utf8_append, encode_ascii (by decide)] <;>
    rcases hb with ⟨rfl, rfl⟩ | ⟨rfl, rfl⟩
  · exact hinner.block
  · exact (Neutral.of_plain (t := [byte '{']) (by simp [byte])).append
      (hinner.append (Neutral.of_plain (t := [byte '}']) (by simp [byte])))
  · exact (Neutral.of_plain (t := [byte '[']) (by simp [byte])).append
      (hinner.append (Neutral.of_plain (t := [byte ']']) (by simp [byte])))
  · exact hinner.block

end TextNeutral

theorem number_ascii (h : NumberText t) :
    ∀ c ∈ t, c.toNat < 0x80 ∧ c ∉ ['"', '{', '}', '[', ']'] := by
  intro c hc
  have hn := h.chars.2 c hc
  refine ⟨hn.ascii, fun hmem => ?_⟩
  simp only [List.mem_cons, List.not_mem_nil, or_false] at hmem
  rcases hmem with rfl | rfl | rfl | rfl | rfl <;> exact absurd (Json.isNumberChar_iff.1 hn) (by decide)

theorem neutral_element {e : Element Unit} (hws : Ws e.before ∧ Ws e.after)
    (h : TextNeutral e.text) : TextNeutral e.spell :=
  (TextNeutral.ws hws.1).append (h.append (.ws hws.2))

theorem neutral_member {m : Member Unit}
    (hws : Ws m.before ∧ Ws m.beforeColon ∧ Ws m.afterColon ∧ Ws m.after)
    (hk : StringText grammar m.keyText m.key) (h : TextNeutral m.text) : TextNeutral m.spell := by
  obtain ⟨hbefore, hbc, hac, hafter⟩ := hws
  have hcolon : TextNeutral [':'] := .ascii (by simp)
  exact (TextNeutral.ws hbefore).append ((TextNeutral.string hk).append
    ((TextNeutral.ws hbc).append (hcolon.append ((TextNeutral.ws hac).append
      (h.append (.ws hafter))))))

/-- A value leaves the depth of every block as it is: on the grammar of values. -/
theorem neutral_value {v : Json.Value Unit} (h : ValueText grammar t v) : TextNeutral t := by
  induction h with
  | null => exact .ascii (by simp)
  | tt => exact .ascii (by simp)
  | ff => exact .ascii (by simp)
  | num h => exact .ascii (number_ascii h)
  | str h => exact .string h
  | arrNil hw => exact .block (.inr ⟨rfl, rfl⟩) (.ws hw)
  | arr es hne hws hv ih =>
    refine .block (.inr ⟨rfl, rfl⟩) (.commas fun t ht => ?_)
    obtain ⟨e, he, rfl⟩ := List.mem_map.1 ht
    exact neutral_element (hws e he) (ih e he)
  | objNil hw => exact .block (.inl ⟨rfl, rfl⟩) (.ws hw)
  | obj ms hne hws hk hv ih =>
    refine .block (.inl ⟨rfl, rfl⟩) (.commas fun t ht => ?_)
    obtain ⟨m, hm, rfl⟩ := List.mem_map.1 ht
    exact neutral_member (hws m hm) (hk m hm) (ih m hm)

/-! ## Reading a value -/

/-- The characters of a value that is no string and no block. -/
def ScalarChar (c : Char) : Prop :=
  c.toNat < 0x80 ∧ isScalar (byte c) = true ∧ BeginsScalar (byte c) ∧ isWhitespace c = false

instance (c : Char) : Decidable (ScalarChar c) := inferInstanceAs (Decidable (_ ∧ _))

theorem number_scalarChar {c : Char} (h : Json.IsNumberChar c) : ScalarChar c := by
  have hn := Json.isNumberChar_iff.1 h
  have hlt := h.ascii
  have hne (x : Char) (hx : x.toNat < 0x80) (hnum : ¬ Json.IsNumberChar x) : byte c ≠ byte x := by
    intro heq
    have hnat := congrArg UInt8.toNat heq
    rw [byte_toNat hlt, byte_toNat hx] at hnat
    exact hnum (Json.char_eq_iff.2 hnat ▸ h)
  have hno (x : Char) (hx : x ∈ [',', '}', ']', '"', '{', '[', ' ', '\t', '\n', '\r']) :
      byte c ≠ byte x := by
    simp only [List.mem_cons, List.not_mem_nil, or_false] at hx
    rcases hx with rfl | rfl | rfl | rfl | rfl | rfl | rfl | rfl | rfl | rfl <;>
      exact hne _ (by decide) (fun hx => absurd (Json.isNumberChar_iff.1 hx) (by decide))
  refine ⟨hlt, ?_, ⟨?_, hno _ (by simp), hno _ (by simp), hno _ (by simp)⟩, ?_⟩
  · simp [isScalar, hno]
  · simp [isWs, hno]
  · unfold isWhitespace
    simp only [Bool.or_eq_false_iff, Bool.and_eq_false_iff, decide_eq_false_iff_not, beq_eq_false_iff_ne]
    omega

theorem value_shape {v : Json.Value Unit} (h : ValueText grammar t v) :
    (∃ u, utf8 t = byte '"' :: (u ++ [byte '"']) ∧ InString u) ∨
      (∃ o c u, Brackets o c ∧ utf8 t = o :: (u ++ [c]) ∧
        Within (byte '"') (byte '\\') o c 1 u 1) ∨
      t ≠ [] ∧ ∀ c ∈ t, ScalarChar c := by
  have hbytes {o c : Char} (ho : o.toNat < 0x80) (hc : c.toNat < 0x80) (u : List Char) :
      utf8 (o :: (u ++ [c])) = byte o :: (utf8 u ++ [byte c]) := by
    rw [utf8_cons, utf8_append, encode_ascii ho, utf8_cons, encode_ascii hc]
    rfl
  -- what a block holds is neutral, as the whole block without its brackets
  have hblock {o c : Char} (ho : o.toNat < 0x80) (hc : c.toNat < 0x80)
      (hb : Brackets (byte o) (byte c)) {u : List Char} (hu : TextNeutral u) :
      ∃ o' c' u', Brackets o' c' ∧ utf8 (o :: (u ++ [c])) = o' :: (u' ++ [c']) ∧
        Within (byte '"') (byte '\\') o' c' 1 u' 1 :=
    ⟨_, _, _, hb, hbytes ho hc u, hu _ _ hb 0⟩
  cases h with
  | null => exact .inr (.inr ⟨by decide, by simp; decide⟩)
  | tt => exact .inr (.inr ⟨by decide, by simp; decide⟩)
  | ff => exact .inr (.inr ⟨by decide, by simp; decide⟩)
  | num h => exact .inr (.inr ⟨h.chars.1, fun c hc => number_scalarChar (h.chars.2 c hc)⟩)
  | str h =>
    obtain ⟨u, rfl, hu⟩ := h
    exact .inl ⟨utf8 u, hbytes (by decide) (by decide) u, inString_spelled hu⟩
  | arrNil hw => exact .inr (.inl (hblock (by decide) (by decide) (.inr ⟨rfl, rfl⟩) (.ws hw)))
  | arr es hne hws hv =>
    refine .inr (.inl (hblock (by decide) (by decide) (.inr ⟨rfl, rfl⟩) (.commas fun t ht => ?_)))
    obtain ⟨e, he, rfl⟩ := List.mem_map.1 ht
    exact neutral_element (hws e he) (neutral_value (hv e he))
  | objNil hw => exact .inr (.inl (hblock (by decide) (by decide) (.inl ⟨rfl, rfl⟩) (.ws hw)))
  | obj ms hne hws hk hv =>
    refine .inr (.inl (hblock (by decide) (by decide) (.inl ⟨rfl, rfl⟩) (.commas fun t ht => ?_)))
    obtain ⟨m, hm, rfl⟩ := List.mem_map.1 ht
    exact neutral_member (hws m hm) (hk m hm) (neutral_value (hv m hm))

/-- What stands behind a value: white space, and a comma or the bracket of the object. -/
def Follows (w : List Char) (d : Char) : Prop := Ws w ∧ (d = '}' ∨ d = ',')

theorem Follows.stops {d : Char} (h : Follows w d) (rest : List UInt8) :
    ∀ c ∈ (byte d :: rest).head?, isWs c = false ∧ isScalar c = false := by
  intro c hc
  rw [← Option.some.inj hc]
  rcases h.2 with rfl | rfl <;> decide

/-- The source text of a value is read, and white space behind it is skipped. -/
theorem readValueRaw_text {v : Json.Value Unit} (h : ValueText grammar t v) {d : Char}
    (hw : Follows w d) (hdrop : b.drop i = utf8 t ++ (utf8 w ++ byte d :: rest))
    (hi : i ≤ b.length) :
    ∃ j, readValueRaw b i = .ok (t, j) ∧
      skipWs b j = .ok (i + (utf8 t).length + (utf8 w).length) := by
  have hbehind := drop_add_of_drop hdrop
  have hskip := skipWs_of_drop hbehind hw.1.isWs fun c hc => (hw.stops rest c hc).1
  rcases value_shape h with ⟨u, ht, hu⟩ | ⟨o, c, u, hb, ht, hu⟩ | ⟨hne, ht⟩
  · refine ⟨_, ?_, hskip⟩
    have hread := readValueRaw_closed hu (by
      rw [hdrop, ht, List.cons_append, List.append_assoc]
      rfl)
    rw [hread, ← ht, lossy_utf8, ht]
    simp only [List.length_cons, List.length_append, List.length_nil]
    congr 2
  · refine ⟨_, ?_, hskip⟩
    have hread := readValueRaw_balanced hb hu (by
      rw [hdrop, ht, List.cons_append, List.append_assoc]
      rfl)
    rw [hread, ← ht, lossy_utf8, ht]
    simp only [List.length_cons, List.length_append, List.length_nil]
    congr 2
  · -- the white space belongs to the scalar, and is trimmed off
    have htext : b.drop i = utf8 (t ++ w) ++ byte d :: rest := by
      rw [utf8_append, List.append_assoc]
      exact hdrop
    have hend := drop_add_of_drop htext
    have hlen : (utf8 (t ++ w)).length = (utf8 t).length + (utf8 w).length := Json.size_append t w
    have hscalar : ∀ c ∈ utf8 (t ++ w), isScalar c = true := by
      rw [utf8_append]
      intro c hc
      rcases List.mem_append.1 hc with hc | hc
      · rw [utf8_ascii fun c hc => (ht c hc).1] at hc
        obtain ⟨x, hx, rfl⟩ := List.mem_map.1 hc
        exact (ht x hx).2.1
      · exact isScalar_ws (hw.1.isWs c hc)
    have hhead : ∀ c ∈ (b.drop i).head?, BeginsScalar c := by
      obtain ⟨x, t, rfl⟩ := List.exists_cons_of_ne_nil hne
      obtain ⟨hlt, -, hbegins, -⟩ := ht x List.mem_cons_self
      rw [hdrop, utf8_cons, encode_ascii hlt]
      intro c hc
      rwa [← Option.some.inj hc]
    have htrim : trim (t ++ w) = t := by
      refine trim_append (fun c hc => (ht c hc).2.2.2) fun c hc => ?_
      rcases hw.1 c hc with rfl | rfl | rfl | rfl <;> decide
    have hread := readValueRaw_scalar (j := i + (utf8 (t ++ w)).length) (by rw [hend]; exact htext) hi
      rfl hhead hscalar (by rw [hend]; exact fun c hc => (hw.stops rest c hc).2)
    rw [lossy_utf8, htrim] at hread
    refine ⟨_, hread, ?_⟩
    rw [skipWs_here (by rw [hend]; exact fun c hc => (hw.stops rest c hc).1), hlen, Nat.add_assoc]

/-! ## The members of an object -/

theorem spelled_plain {u s : List Char} (h : Spelled (UnitText grammar) u s)
    (hplain : ∀ c ∈ u, c ≠ '\\') : u = s ∧ ∀ c ∈ s, c ≠ '"' := by
  induction h with
  | nil => exact ⟨rfl, List.forall_mem_nil _⟩
  | @cons x xs c cs head _ ih =>
    obtain ⟨rfl, hcs⟩ := ih fun d hd => hplain d (List.mem_append_right x hd)
    have hhead : ∀ d ∈ x, d ≠ '\\' := fun d hd => hplain d (List.mem_append_left xs hd)
    cases head with
    | raw h => exact ⟨rfl, List.forall_mem_cons.2 ⟨h.2.1, hcs⟩⟩
    | short => exact absurd rfl (hhead _ List.mem_cons_self)
    | hex => exact absurd rfl (hhead _ List.mem_cons_self)
    | pair => exact absurd rfl (hhead _ List.mem_cons_self)

/-- A key without escapes stands between its quotes as it is. -/
theorem plain_key {keyText key : List Char} (h : StringText grammar keyText key)
    (hplain : ∀ c ∈ keyText, c.toNat < 0x80 ∧ c ≠ '\\') :
    keyText = '"' :: (key ++ ['"']) ∧ (∀ c ∈ key, c.toNat < 0x80) ∧
      ∀ c ∈ key, c ≠ '"' ∧ c ≠ '\\' := by
  obtain ⟨u, rfl, hu⟩ := h
  have hinner : ∀ c ∈ u, c.toNat < 0x80 ∧ c ≠ '\\' := fun c hc =>
    hplain c (List.mem_cons_of_mem _ (List.mem_append_left _ hc))
  obtain ⟨rfl, hquote⟩ := spelled_plain hu fun c hc => (hinner c hc).2
  exact ⟨rfl, fun c hc => (hinner c hc).1, fun c hc => ⟨hquote c hc, (hinner c hc).2⟩⟩

variable {fuel : ℕ} {obj : JsonObj} {m : Member Unit}

/-- The fields when a member is read. -/
def push (obj : JsonObj) (m : Member Unit) : JsonObj := ⟨obj.fields.insert m.key m.text⟩

theorem utf8_spell (hkey : m.keyText = '"' :: (m.key ++ ['"'])) :
    utf8 m.spell = utf8 m.before ++ byte '"' :: (utf8 m.key ++ byte '"' :: (utf8 m.beforeColon ++
      byte ':' :: (utf8 m.afterColon ++ (utf8 m.text ++ utf8 m.after)))) := by
  unfold Member.spell
  rw [hkey]
  simp only [utf8_append, utf8_cons, encode_ascii (c := '"') (by decide),
    encode_ascii (c := ':') (by decide), List.nil_append, List.cons_append, List.append_assoc]

theorem head_of_text {v : Json.Value Unit} (h : ValueText grammar t v) (rest : List UInt8) :
    ∀ c ∈ (utf8 t ++ rest).head?, isWs c = false := by
  intro c hc
  rcases value_shape h with ⟨u, ht, -⟩ | ⟨o, c, u, hb, ht, -⟩ | ⟨hne, ht⟩
  · rw [ht] at hc
    rw [← Option.some.inj hc]
    decide
  · rw [ht] at hc
    rw [← Option.some.inj hc]
    exact hb.isWs
  · obtain ⟨x, t, rfl⟩ := List.exists_cons_of_ne_nil hne
    obtain ⟨hlt, -, hbegins, -⟩ := ht x List.mem_cons_self
    rw [utf8_cons, encode_ascii hlt] at hc
    rw [← Option.some.inj hc]
    exact hbegins.1

/-- The reader takes a member, and goes on at a comma. -/
theorem parseLoop_member (hm : IsMember m) (hplain : ∀ c ∈ m.keyText, c.toNat < 0x80 ∧ c ≠ '\\')
    {d : Char} (hd : d = '}' ∨ d = ',') (h : b.drop i = utf8 m.spell ++ byte d :: rest) :
    parseLoop b (fuel + 1) obj i =
      if d = ',' then parseLoop b fuel (push obj m) (i + (utf8 m.spell).length + 1)
      else .ok (push obj m) := by
  obtain ⟨⟨hbefore, hbc, hac, hafter⟩, hkey, hvalue⟩ := hm
  obtain ⟨hkeyText, hascii, hinner⟩ := plain_key hkey hplain
  have hname : (utf8 m.key).map asChar = m.key := by
    rw [utf8_ascii hascii, List.map_map]
    exact (List.map_congr_left fun c hc => Json.asChar_byte (hascii c hc)).trans (List.map_id _)
  have hend := drop_add_of_drop h
  rw [utf8_spell hkeyText] at h hend ⊢
  simp only [List.append_assoc, List.cons_append] at h
  -- what is ahead after each step of the reader
  have hquote := drop_add_of_drop h
  have hclose := drop_add_of_drop (drop_succ_of_drop hquote)
  have hbehind := drop_succ_of_drop hclose
  have hcolon := drop_add_of_drop hbehind
  have hval := drop_add_of_drop (drop_succ_of_drop hcolon)
  have hskip := skipWs_of_drop h hbefore.isWs fun c hc => by rw [← Option.some.inj hc]; decide
  have hread := readString_plain (u := utf8 m.key)
    (fun x hx => ne_of_isPlain (Json.plain_text_iff.2 hinner x hx)) hquote
  have hskip' := skipWs_of_drop hbehind hbc.isWs fun c hc => by rw [← Option.some.inj hc]; decide
  have hskip'' := skipWs_of_drop (drop_succ_of_drop hcolon) hac.isWs (head_of_text hvalue _)
  obtain ⟨j, hvalueRead, hskipEnd⟩ := readValueRaw_text hvalue ⟨hafter, hd⟩ hval
    (by have := lt_of_drop hcolon; have := length_of_drop (drop_succ_of_drop hcolon) this; omega)
  rw [hname] at hread
  rw [parseLoop_key hskip hquote, keyStep_colon hread (by convert hskip' using 2; omega) hcolon hskip'']
  have hpos : i + (utf8 m.before ++ byte '"' :: (utf8 m.key ++ byte '"' :: (utf8 m.beforeColon ++
      byte ':' :: (utf8 m.afterColon ++ (utf8 m.text ++ utf8 m.after))))).length =
      i + (utf8 m.before).length + 1 + (utf8 m.key).length + 1 + (utf8 m.beforeColon).length + 1 +
        (utf8 m.afterColon).length + (utf8 m.text).length + (utf8 m.after).length := by
    simp only [List.length_append, List.length_cons]
    omega
  rw [← hpos] at hskipEnd
  split
  · rename_i hcomma
    subst hcomma
    exact valueStep_comma hvalueRead hskipEnd hend
  · rename_i hcomma
    have hbrace : byte d ≠ byte ',' := by
      rcases hd with rfl | rfl
      · decide
      · exact absurd rfl hcomma
    unfold valueStep
    rw [hvalueRead, ok_bind]
    simp only
    rw [hskipEnd, ok_bind, if_pos (lt_of_drop hend), index_of_drop hend, ok_bind, if_neg hbrace]
    rfl

/-- The reader takes the members of an object. -/
theorem parseLoop_members {ms : List (Member Unit)} (hne : ms ≠ []) (hms : ∀ m ∈ ms, IsMember m)
    (hplain : PlainKeys ms) (hi : i ≤ b.length) (hfuel : b.length < fuel + i)
    (h : b.drop i = utf8 (commas (ms.map Member.spell) ++ ['}']) ++ rest) :
    parseLoop b fuel obj i = .ok (ms.foldl push obj) := by
  induction ms generalizing fuel obj i with
  | nil => exact absurd rfl hne
  | cons m ms ih =>
    obtain ⟨hm, hms⟩ := List.forall_mem_cons.1 hms
    obtain ⟨hkey, hplain⟩ := List.forall_mem_cons.1 hplain
    obtain ⟨d, text, htext, hend⟩ := Json.commas_front Member.spell '}' m ms
    have hd : d = '}' ∨ d = ',' := hend.imp And.left And.left
    have hascii : d.toNat < 0x80 := by rcases hd with rfl | rfl <;> decide
    rw [htext, utf8_append, utf8_cons, encode_ascii hascii, List.append_assoc, List.append_assoc,
      List.singleton_append] at h
    have hbehind := drop_add_of_drop h
    have hlt := lt_of_drop hbehind
    obtain ⟨fuel, rfl⟩ : ∃ n, fuel = n + 1 := ⟨fuel - 1, by omega⟩
    rw [parseLoop_member hm hkey hd h, List.foldl_cons]
    rcases hend with ⟨rfl, rfl, -⟩ | ⟨rfl, hne, rfl⟩
    · exact if_neg (by decide)
    · rw [if_pos rfl]
      exact ih hne hms hplain hlt (by omega) (drop_succ_of_drop hbehind)

/-- Later members overwrite earlier ones. -/
theorem raw_foldl (ms : List (Member Unit)) (obj : JsonObj) (k : List Char) :
    (ms.foldl push obj).raw k = (lastText ms k).or (obj.raw k) := by
  induction ms generalizing obj with
  | nil => rfl
  | cons m ms ih =>
    rw [List.foldl_cons, ih]
    unfold lastText push raw
    rw [List.reverse_cons, List.find?_append]
    by_cases hk : m.key = k
    · cases ms.reverse.find? fun m => m.key = k <;> simp [hk]
    · have hk' : k ≠ m.key := fun h => hk h.symm
      cases ms.reverse.find? fun m => m.key = k <;> simp [hk, AList.lookup_insert_ne hk']

/-- The text of an object is read, and its fields are the source texts of the last values. -/
theorem parse_objectText {text : List Char} {ms : List (Member Unit)} (h : ObjectText text ms)
    (hplain : PlainKeys ms) : ∃ obj, parse text = .ok obj ∧ ∀ k, obj.raw k = lastText ms k := by
  obtain ⟨w, inner, w', hw, hw', rfl, hinner⟩ := h
  have hbytes : utf8 (w ++ '{' :: (inner ++ '}' :: w')) =
      utf8 w ++ byte '{' :: (utf8 (inner ++ ['}']) ++ utf8 w') := by
    rw [utf8_append, utf8_cons, encode_ascii (c := '{') (by decide), List.singleton_append,
      ← List.singleton_append (l := w'), ← List.append_assoc inner, utf8_append (inner ++ ['}'])]
  have hdrop : (utf8 (w ++ '{' :: (inner ++ '}' :: w'))).drop 0 =
      utf8 w ++ byte '{' :: (utf8 (inner ++ ['}']) ++ utf8 w') := by
    rw [List.drop_zero, hbytes]
  unfold parse parseBytes
  generalize utf8 (w ++ '{' :: (inner ++ '}' :: w')) = b at hdrop
  have hskip : (skip (fun c => c != byte '{') b 0 : Res ℕ) = .ok (0 + (utf8 w).length) := by
    refine skip_of_drop hdrop (fun c hc => ?_) fun c hc => by rw [← Option.some.inj hc]; decide
    have hws := hw.isWs c hc
    unfold isWs at hws
    simp only [Bool.or_eq_true, beq_iff_eq] at hws
    rcases hws with ((rfl | rfl) | rfl) | rfl <;> decide
  have hopen := drop_add_of_drop hdrop
  have hlt := lt_of_drop hopen
  have hin := drop_succ_of_drop hopen
  rw [hskip, ok_bind, if_neg (by omega)]
  rcases hinner with ⟨rfl, hws⟩ | ⟨hne, rfl, hms⟩
  · refine ⟨⟨∅⟩, ?_, fun k => rfl⟩
    have hbrace : utf8 ['}'] = [byte '}'] := by
      rw [utf8_cons, encode_ascii (by decide)]
      rfl
    rw [utf8_append, hbrace, List.append_assoc] at hin
    have hclose := drop_add_of_drop hin
    have hlt' := lt_of_drop hclose
    have hskip' := skipWs_of_drop hin hws.isWs fun c hc => by rw [← Option.some.inj hc]; decide
    rw [parseLoop, hskip', ok_bind, if_neg (by omega), index_of_drop hclose, ok_bind, if_pos rfl]
    rfl
  · refine ⟨ms.foldl push ⟨∅⟩, parseLoop_members hne hms hplain hlt (by omega) hin, fun k => ?_⟩
    rw [raw_foldl]
    exact Option.or_none

/-! ## Objects among the values -/

theorem Ws.isWhitespace {w : List Char} (h : Ws w) : ∀ c ∈ w, isWhitespace c = true := by
  intro c hc
  rcases h c hc with rfl | rfl | rfl | rfl <;> decide

/-- Trimming leaves the text of the same object. -/
theorem ObjectText.trim {text : List Char} {ms : List (Member Unit)} (h : ObjectText text ms) :
    ObjectText (trim text) ms ∧ (trim text).head? = some '{' := by
  obtain ⟨w, inner, w', hw, hw', rfl, hinner⟩ := h
  have htext : w ++ '{' :: (inner ++ '}' :: w') = w ++ (('{' :: (inner ++ ['}'])) ++ w') := by
    simp
  have htrim : Lib.trim (w ++ '{' :: (inner ++ '}' :: w')) = '{' :: (inner ++ ['}']) := by
    rw [htext]
    refine trim_around (Ws.isWhitespace hw) (Ws.isWhitespace hw') (List.cons_ne_nil _ _)
      (fun c hc => by rw [← Option.some.inj hc]; decide) fun c hc => ?_
    rw [← List.cons_append, List.getLast?_concat] at hc
    rw [← Option.some.inj hc]
    decide
  rw [htrim]
  exact ⟨⟨[], inner, [], List.forall_mem_nil _, List.forall_mem_nil _, rfl, hinner⟩, rfl⟩

theorem length_le_commas {ts : List (List Char)} {t : List Char} (h : t ∈ ts) :
    t.length ≤ (commas ts).length := by
  induction ts with
  | nil => cases h
  | cons s ts ih =>
    by_cases hne : ts = []
    · subst hne
      rw [Json.commas_singleton, List.mem_singleton.1 h]
    · rw [Json.commas_cons s hne, List.length_append, List.length_cons]
      rcases List.mem_cons.1 h with rfl | h
      · omega
      · have := ih h
        omega

/-- A value is shorter than the object that it stands in. -/
theorem lastText_length {text : List Char} {ms : List (Member Unit)} (h : ObjectText text ms)
    {k t : List Char} (hk : lastText ms k = some t) : t.length < text.length := by
  obtain ⟨m, hm, rfl⟩ := Option.map_eq_some_iff.1 hk
  have hmem : m ∈ ms := List.mem_reverse.1 (List.mem_of_find?_eq_some hm)
  obtain ⟨w, inner, w', -, -, rfl, ⟨rfl, -⟩ | ⟨-, rfl, -⟩⟩ := h
  · cases hmem
  · have hspell := length_le_commas (List.mem_map_of_mem (f := Member.spell) hmem)
    have htext : m.text.length ≤ m.spell.length := by
      unfold Member.spell
      simp only [List.length_append, List.length_cons]
      omega
    simp only [List.length_append, List.length_cons]
    omega

theorem object_of_raw {k t : List Char} (hraw : obj.raw k = some t) {ms : List (Member Unit)}
    (ht : ObjectText t ms) : obj.object k = some <$> parse (trim t) := by
  unfold object
  rw [hraw]
  exact if_pos ht.trim.2

/-- Fields that are the source texts of the last values, and so on among them: by induction on the
length of the text. -/
theorem mirrors_of_raw {text : List Char} {ms : List (Member Unit)} (h : ObjectText text ms)
    (hraw : ∀ k, obj.raw k = lastText ms k) : Mirrors obj ms := by
  induction hn : text.length using Nat.strong_induction_on generalizing text ms obj with
  | _ n ih =>
    refine .mk hraw (fun k t ms' hk ht hplain => ?_) fun k t ms' obj' hk ht hplain hobj => ?_
    · obtain ⟨obj', hparse, -⟩ := parse_objectText ht.trim.1 hplain
      refine ⟨obj', ?_⟩
      rw [object_of_raw ((hraw k).trans hk) ht, hparse]
      rfl
    · obtain ⟨obj'', hparse, hraw'⟩ := parse_objectText ht.trim.1 hplain
      rw [object_of_raw ((hraw k).trans hk) ht, hparse] at hobj
      obtain rfl : obj'' = obj' := Option.some.inj (Except.ok.inj hobj)
      have hlt := lastText_length h hk
      exact ih t.length (by omega) ht hraw' rfl

/-- For every text: the object of the text is read as it stands, and the reader returns, exactly when the
text is not cut behind a backslash. -/
theorem reader_correct (text : List Char) :
    ((∀ ms, ObjectText text ms → PlainKeys ms → ∃ obj, parse text = .ok obj ∧ Mirrors obj ms) ∧
      ∃ obj, parse text = .ok obj) ↔ ¬ CutBehindBackslash (utf8 text) := by
  constructor
  · rintro ⟨-, hreturns⟩
    exact parseBytes_returns_iff.1 hreturns
  · intro hcut
    refine ⟨fun ms hms hplain => ?_, parseBytes_returns_iff.2 hcut⟩
    obtain ⟨obj, hparse, hraw⟩ := parse_objectText hms hplain
    exact ⟨obj, hparse, mirrors_of_raw hms hraw⟩

/-- A manifest that ends behind the backslash of its first value. -/
theorem parse_cut_value :
    ¬ ((∀ ms, ObjectText "\x7b\"a\":\"\\".toList ms → PlainKeys ms →
        ∃ obj, parse "\x7b\"a\":\"\\".toList = .ok obj ∧ Mirrors obj ms) ∧
      ∃ obj, parse "\x7b\"a\":\"\\".toList = .ok obj) := by
  have hcut : CutBehindBackslash (utf8 "\x7b\"a\":\"\\".toList) := by
    have hkey : KeyPart [byte '"', byte 'a', byte '"', byte ':'] :=
      ⟨[], [byte 'a'], [], [], rfl, .plain (by decide) (by decide) .nil, List.forall_mem_nil _,
        List.forall_mem_nil _, List.forall_mem_nil _⟩
    have hmembers : CutMembers ([byte '"', byte 'a', byte '"', byte ':'] ++ [byte '"', byte '\\']) :=
      .here hkey (.string .nil)
    exact ⟨[], _, rfl, List.forall_mem_nil _, hmembers⟩
  rintro ⟨-, hreturns⟩
  exact parseBytes_returns_iff.1 hreturns hcut

end JsonObj

end Memra
