import Memra.Gguf.SafetensorsText
import Memra.Gguf.Proof.JsonObjText

/-!
# The scanner of the safetensors reader

Every reader skips the white space before what it takes (`SkipsWs`) and takes a text of its grammar off
the front of what is ahead (`Reads`), if what follows ends a scalar. The rules for `bracketed` reduce a
list between brackets to its items.
-/

namespace Memra

namespace Safetensors

open Lib
open Json (Ws commas byte asChar isWs utf8_cons encode_ascii utf8_ascii byte_toNat ValueText)

variable {α β σ : Type} {p : Reader α} {f : α → Reader β} {b b' rest : List UInt8} {a : α}
  {t w : List Char}

/-! ## Rules -/

theorem run_bind (h : p.run b = .ok (a, b')) : (p >>= f).run b = (f a).run b' := by
  rw [StateT.run_bind, h]
  rfl

/-- White space in front does not matter. -/
def SkipsWs (p : Reader α) : Prop := ∀ w x, Ws w → p.run (utf8 w ++ x) = p.run x

theorem SkipsWs.bind (h : SkipsWs p) (f : α → Reader β) : SkipsWs (p >>= f) := by
  intro w x hw
  rw [StateT.run_bind, StateT.run_bind, h w x hw]

/-- What may stand behind a scalar, or behind anything else. -/
def Closed (rest : List UInt8) : Prop := ∀ c ∈ rest.head?, isScalar c = false

theorem closed_ws {r : List UInt8} (hw : Ws w) (h : Closed r) : Closed (utf8 w ++ r) := by
  cases w with
  | nil => exact h
  | cons c w =>
    have hc : c.toNat < 0x80 := hw.ascii c List.mem_cons_self
    rw [utf8_cons, encode_ascii hc]
    intro x hx
    rw [← Option.some.inj hx]
    rcases hw c List.mem_cons_self with rfl | rfl | rfl | rfl <;> decide

theorem closed_cons {c : Char} (h : c = ',' ∨ c = '}' ∨ c = ']') (rest : List UInt8) :
    Closed (byte c :: rest) := by
  intro x hx
  rw [← Option.some.inj hx]
  rcases h with rfl | rfl | rfl <;> decide

/-- The reader takes the text. -/
def Reads (p : Reader α) (t : List Char) (a : α) : Prop :=
  ∀ rest, Closed rest → p.run (utf8 t ++ rest) = .ok (a, rest)

/-! ## White space -/

theorem dropWhile_ws (hw : Ws w) (x : List UInt8) :
    (utf8 w ++ x).dropWhile isWs = x.dropWhile isWs :=
  List.dropWhile_append_of_pos hw.isWs

theorem skipsWs_skipWs : SkipsWs skipWs := by
  intro w x hw
  unfold skipWs
  rw [StateT.run_modify, StateT.run_modify, dropWhile_ws hw]

theorem skipsWs_peek : SkipsWs peek := skipsWs_skipWs.bind _

theorem skipsWs_eat (c : UInt8) : SkipsWs (eat c) := skipsWs_skipWs.bind _

theorem skipsWs_string : SkipsWs string := (skipsWs_eat _).bind _

theorem skipsWs_u64 : SkipsWs u64 := skipsWs_skipWs.bind _

theorem skipsWs_bracketed (o c : UInt8) (item : σ → Reader σ) (s : σ) :
    SkipsWs (bracketed o c item s) :=
  (skipsWs_eat o).bind _

theorem skipsWs_skipValue (n : ℕ) : SkipsWs (skipValue n) := by
  cases n with
  | zero =>
    intro w x hw
    rfl
  | succ n => exact skipsWs_peek.bind _

/-! ## Signs -/

theorem run_skipWs {c : UInt8} (hc : isWs c = false) : skipWs.run (c :: rest) = .ok ((), c :: rest) := by
  have hnot : ¬ isWs c = true := by rw [hc]; exact Bool.false_ne_true
  unfold skipWs
  rw [StateT.run_modify, List.dropWhile_cons_of_neg hnot]
  rfl

theorem run_peek {c : UInt8} {r : List UInt8} (hc : isWs c = false) :
    peek.run (c :: r) = .ok (c, c :: r) := by
  unfold peek
  rw [run_bind (run_skipWs hc)]
  rfl

theorem run_eat {c : UInt8} {r : List UInt8} (hc : isWs c = false) :
    (eat c).run (c :: r) = .ok ((), r) := by
  unfold eat
  rw [run_bind (run_skipWs hc)]
  show (if c = c then set r else throw .panic : Reader Unit).run (c :: r) = _
  rw [if_pos rfl]
  rfl

/-! ## Strings -/

theorem stringLoop_char {c : UInt8} (hq : c ≠ byte '"') (hb : c ≠ byte '\\') (out : List Char) :
    stringLoop out (c :: rest) = stringLoop (out ++ [asChar c]) rest := by
  rw [stringLoop.eq_def]
  exact (if_neg hq).trans (if_neg hb)

theorem stringLoop_escape (e : UInt8) (out : List Char) :
    stringLoop out (byte '\\' :: e :: rest) = stringLoop (out ++ [unescape e]) rest := by
  rw [stringLoop.eq_def]
  exact (if_neg (by decide)).trans (if_pos rfl)

theorem stringLoop_quote (out : List Char) :
    stringLoop out (byte '"' :: rest) = .ok (out, rest) := by
  rw [stringLoop.eq_def]
  exact if_pos rfl

theorem byte_ne {c d : Char} (hc : c.toNat < 0x80) (hd : d.toNat < 0x80) (h : c ≠ d) :
    byte c ≠ byte d := by
  intro heq
  have hnat := congrArg UInt8.toNat heq
  rw [byte_toNat hc, byte_toNat hd] at hnat
  exact h (Json.char_eq_iff.2 hnat)

/-- The escapes that the reader has stand for what they should. -/
theorem unescape_short {e c : Char} (h : (e, c) ∈ Json.shortEscapes) (hb : e ≠ 'b') (hf : e ≠ 'f') :
    e.toNat < 0x80 ∧ unescape (byte e) = c := by
  simp only [Json.shortEscapes, List.mem_cons, Prod.mk.injEq, List.not_mem_nil, or_false] at h
  rcases h with ⟨rfl, rfl⟩ | ⟨rfl, rfl⟩ | ⟨rfl, rfl⟩ | ⟨rfl, rfl⟩ | ⟨rfl, rfl⟩ | ⟨rfl, rfl⟩ |
    ⟨rfl, rfl⟩ | ⟨rfl, rfl⟩
  · exact ⟨by decide, by decide⟩
  · exact ⟨by decide, by decide⟩
  · exact ⟨by decide, by decide⟩
  · exact absurd rfl hb
  · exact absurd rfl hf
  · exact ⟨by decide, by decide⟩
  · exact ⟨by decide, by decide⟩
  · exact ⟨by decide, by decide⟩

theorem stringLoop_plain {u s : List Char} (h : Spelled PlainUnit u s) (hs : ∀ c ∈ s, c.toNat < 0x80)
    (out : List Char) : stringLoop out (utf8 u ++ byte '"' :: rest) = .ok (out ++ s, rest) := by
  induction h generalizing out with
  | nil =>
    rw [List.append_nil]
    exact stringLoop_quote out
  | @cons x xs c cs head _ ih =>
    obtain ⟨hc, hcs⟩ := List.forall_mem_cons.1 hs
    rw [utf8_append, List.append_assoc]
    have htail := ih hcs (out ++ [c])
    rw [List.append_assoc, List.singleton_append] at htail
    cases head with
    | raw h hq hb =>
      have hne := byte_ne hc (show '"'.toNat < 0x80 by decide) hq
      have hne' := byte_ne hc (show '\\'.toNat < 0x80 by decide) hb
      rw [utf8_cons, encode_ascii hc]
      refine (stringLoop_char hne hne' out).trans ?_
      rw [Json.asChar_byte hc]
      exact htail
    | @short e _ h hb hf =>
      obtain ⟨he, hchar⟩ := unescape_short h hb hf
      rw [utf8_cons, utf8_cons, encode_ascii (c := '\\') (by decide), encode_ascii he]
      refine (stringLoop_escape (byte e) out).trans ?_
      rw [hchar]
      exact htail

/-- Any string ends with its quote. -/
theorem stringLoop_inside {u : List UInt8} (h : JsonObj.InString u) (out : List Char)
    (rest : List UInt8) : ∃ s, stringLoop out (u ++ byte '"' :: rest) = .ok (s, rest) := by
  induction h generalizing out with
  | nil => exact ⟨out, stringLoop_quote out⟩
  | @plain x u hq he _ ih =>
    obtain ⟨s, hs⟩ := ih (out ++ [asChar x])
    exact ⟨s, (stringLoop_char hq he out).trans hs⟩
  | @escaped x u _ ih =>
    obtain ⟨s, hs⟩ := ih (out ++ [unescape x])
    exact ⟨s, (stringLoop_escape x out).trans hs⟩

theorem utf8_quoted (u : List Char) :
    utf8 ('"' :: (u ++ ['"'])) ++ rest = byte '"' :: (utf8 u ++ byte '"' :: rest) := by
  rw [utf8_cons, utf8_append, encode_ascii (c := '"') (by decide), utf8_cons,
    encode_ascii (c := '"') (by decide), List.append_assoc, List.append_assoc]
  rfl

theorem string_plain {s : List Char} (h : AsciiString PlainUnit t s) (rest : List UInt8) :
    string.run (utf8 t ++ rest) = .ok (s, rest) := by
  obtain ⟨hs, u, rfl, hu⟩ := h
  rw [utf8_quoted]
  unfold string
  rw [run_bind (run_eat (by decide))]
  exact stringLoop_plain hu hs []

theorem string_any {s : List Char} (h : Json.StringText JsonObj.grammar t s) (rest : List UInt8) :
    ∃ s', string.run (utf8 t ++ rest) = .ok (s', rest) := by
  obtain ⟨u, rfl, hu⟩ := h
  obtain ⟨s', hs'⟩ := stringLoop_inside (JsonObj.inString_spelled hu) [] rest
  refine ⟨s', ?_⟩
  rw [utf8_quoted]
  unfold string
  rw [run_bind (run_eat (by decide))]
  exact hs'

/-! ## Numbers -/

theorem isDigit_byte {c : Char} (h : c.isDigit) : c.toNat < 0x80 ∧ isDigit (byte c) = true := by
  have hn : 0x30 ≤ c.toNat ∧ c.toNat ≤ 0x39 := Char.isDigit_iff_toNat.1 h
  have hlt : c.toNat < 0x80 := by omega
  refine ⟨hlt, ?_⟩
  unfold isDigit
  rw [Bool.and_eq_true, decide_eq_true_eq, decide_eq_true_eq, UInt8.le_iff_toNat_le,
    UInt8.le_iff_toNat_le, byte_toNat hlt, byte_toNat (by decide), byte_toNat (by decide)]
  exact hn

theorem decimal_digits {ds : List Char} (h : ∀ c ∈ ds, c.toNat < 0x80) :
    decimal (ds.map byte) = Nat.ofDigitChars 10 ds 0 := by
  unfold decimal
  rw [Nat.ofDigitChars_eq_foldl, List.foldl_map]
  generalize 0 = v
  induction ds generalizing v with
  | nil => rfl
  | cons c ds ih =>
    obtain ⟨hc, hds⟩ := List.forall_mem_cons.1 h
    rw [List.foldl_cons, List.foldl_cons, byte_toNat hc, byte_toNat (by decide)]
    exact ih hds _

theorem digit_isScalar {c : UInt8} (h : isDigit c = true) : isScalar c = true := by
  unfold isDigit at h
  rw [Bool.and_eq_true, decide_eq_true_eq, decide_eq_true_eq, UInt8.le_iff_toNat_le,
    UInt8.le_iff_toNat_le, byte_toNat (by decide), byte_toNat (by decide)] at h
  have hlow : 0x30 ≤ c.toNat := h.1
  have hhigh : c.toNat ≤ 0x39 := h.2
  have hws : isWs c = false := by
    rw [← Bool.not_eq_true, Json.isWs_iff]
    omega
  unfold isScalar
  rw [hws]
  simp only [Bool.or_false, Bool.not_eq_true', Bool.or_eq_false_iff, beq_eq_false_iff_ne]
  refine ⟨⟨?_, ?_⟩, ?_⟩ <;> rintro rfl
  · exact absurd hlow (by decide)
  · exact absurd hhigh (by decide)
  · exact absurd hhigh (by decide)

theorem reads_u64 {n : ℕ} (h : NatText t n) : Reads u64 t n := by
  obtain ⟨rfl, hn⟩ := h
  intro rest hrest
  have hdigits : ∀ c ∈ Nat.toDigits 10 n, c.isDigit := fun c hc =>
    Nat.isDigit_of_mem_toDigits (by decide) (by decide) hc
  have hascii : ∀ c ∈ Nat.toDigits 10 n, c.toNat < 0x80 := fun c hc => (isDigit_byte (hdigits c hc)).1
  have hbytes : utf8 (Nat.toDigits 10 n) = (Nat.toDigits 10 n).map byte := utf8_ascii hascii
  have hall : ∀ x ∈ utf8 (Nat.toDigits 10 n), isDigit x = true := by
    rw [hbytes]
    intro x hx
    obtain ⟨c, hc, rfl⟩ := List.mem_map.1 hx
    exact (isDigit_byte (hdigits c hc)).2
  have hstop : rest.takeWhile isDigit = [] ∧ rest.dropWhile isDigit = rest := by
    cases rest with
    | nil => exact ⟨rfl, rfl⟩
    | cons x rest =>
      have hx : ¬ isDigit x = true := fun hd => by
        have := hrest x rfl
        rw [digit_isScalar hd] at this
        cases this
      exact ⟨List.takeWhile_cons_of_neg hx, List.dropWhile_cons_of_neg hx⟩
  have htake : (utf8 (Nat.toDigits 10 n) ++ rest).takeWhile isDigit = utf8 (Nat.toDigits 10 n) := by
    rw [List.takeWhile_append_of_pos hall, hstop.1, List.append_nil]
  have hdrop : (utf8 (Nat.toDigits 10 n) ++ rest).dropWhile isDigit = rest := by
    rw [List.dropWhile_append_of_pos hall, hstop.2]
  have hvalue : decimal (utf8 (Nat.toDigits 10 n)) = n := by
    rw [hbytes, decimal_digits hascii, Nat.ofDigitChars_ten_toDigits]
  have hne : utf8 (Nat.toDigits 10 n) ≠ [] := by
    rw [hbytes]
    exact fun h => Nat.toDigits_ne_nil (List.map_eq_nil_iff.1 h)
  have hws : skipWs.run (utf8 (Nat.toDigits 10 n) ++ rest) =
      .ok ((), utf8 (Nat.toDigits 10 n) ++ rest) := by
    obtain ⟨x, xs, hx⟩ := List.exists_cons_of_ne_nil hne
    have hd := hall x (by rw [hx]; exact List.mem_cons_self)
    rw [hx]
    apply run_skipWs
    have hs := digit_isScalar hd
    unfold isScalar at hs
    simp only [Bool.not_eq_true', Bool.or_eq_false_iff] at hs
    exact hs.2
  unfold u64
  rw [run_bind hws]
  show (if (utf8 (Nat.toDigits 10 n) ++ rest).takeWhile isDigit = [] then throw .panic
    else if decimal ((utf8 (Nat.toDigits 10 n) ++ rest).takeWhile isDigit) < 2 ^ 64 then do
      set ((utf8 (Nat.toDigits 10 n) ++ rest).dropWhile isDigit)
      pure (decimal ((utf8 (Nat.toDigits 10 n) ++ rest).takeWhile isDigit))
    else throw .panic : Reader ℕ).run _ = _
  rw [htake, hdrop, hvalue, if_neg hne, if_pos hn]
  rfl

/-! ## Lists -/

section
variable {R : List Char → α → Prop} {item : σ → Reader σ} {step : σ → α → σ}

/-- White space around an item is passed. -/
theorem run_padded {p : Reader σ} (hws : SkipsWs p) {v : σ} (h : Padded R t a)
    (hp : ∀ t, R t a → Reads p t v) :
    ∃ w, Ws w ∧ ∀ rest, Closed rest → p.run (utf8 t ++ rest) = .ok (v, utf8 w ++ rest) := by
  obtain ⟨w, t', w', hw, hw', rfl, hR⟩ := h
  refine ⟨w', hw', fun rest hrest => ?_⟩
  rw [utf8_append, utf8_append, List.append_assoc, List.append_assoc, hws w _ hw]
  exact hp t' hR _ (closed_ws hw' hrest)

theorem commaLoop_reads (hws : ∀ s, SkipsWs (item s))
    (hitem : ∀ s t a, R t a → Reads (item s) t (step s a)) {ts : List (List Char)} {as : List α}
    (h : List.Forall₂ (Padded R) ts as) (hne : as ≠ []) {c : Char} (hc : c = '}' ∨ c = ']')
    {turns : ℕ} (hturns : as.length ≤ turns) (s : σ) (rest : List UInt8) :
    (commaLoop item turns s).run (utf8 (commas ts) ++ byte c :: rest) =
      .ok (as.foldl step s, byte c :: rest) := by
  induction h generalizing turns s with
  | nil => exact absurd rfl hne
  | @cons t a ts as head tail ih =>
    obtain ⟨turns, rfl⟩ : ∃ n, turns = n + 1 := by
      rw [List.length_cons] at hturns
      exact ⟨turns - 1, by omega⟩
    obtain ⟨w, hw, hread⟩ := run_padded (v := step s a) (hws s) head fun t ht => hitem s t a ht
    by_cases hnil : as = []
    · subst hnil
      obtain rfl := List.forall₂_nil_right_iff.1 tail
      have hcws : isWs (byte c) = false := by rcases hc with rfl | rfl <;> decide
      have hcomma : byte c ≠ byte ',' := by rcases hc with rfl | rfl <;> decide
      have hpeek := (skipsWs_peek w _ hw).trans (run_peek (r := rest) hcws)
      rw [Json.commas_singleton, commaLoop, run_bind (hread _ (closed_cons (.inr hc) rest)),
        run_bind hpeek, if_neg hcomma]
      rfl
    · have htne : ts ≠ [] := by
        rintro rfl
        cases tail
        exact hnil rfl
      have hlen : as.length ≤ turns := by
        rw [List.length_cons] at hturns
        omega
      have hx : utf8 (commas (t :: ts)) ++ byte c :: rest =
          utf8 t ++ byte ',' :: (utf8 (commas ts) ++ byte c :: rest) := by
        rw [Json.commas_cons _ htne, utf8_append, utf8_cons, encode_ascii (c := ',') (by decide),
          List.append_assoc, List.append_assoc]
        rfl
      have hpeek := (skipsWs_peek w _ hw).trans
        (run_peek (r := utf8 (commas ts) ++ byte c :: rest) (c := byte ',') (by decide))
      rw [hx, commaLoop, run_bind (hread _ (closed_cons (.inl rfl) _)), run_bind hpeek, if_pos rfl,
        run_bind (run_eat (by decide))]
      exact ih hnil hlen (step s a)

theorem length_le_size {ts : List (List Char)} {as : List α} (h : List.Forall₂ (Padded R) ts as) :
    as.length ≤ (utf8 (commas ts)).length + 1 := by
  induction h with
  | nil => exact Nat.zero_le _
  | @cons t a ts as _ tail ih =>
    by_cases hnil : ts = []
    · subst hnil
      obtain rfl := List.forall₂_nil_left_iff.1 tail
      rw [List.length_singleton]
      omega
    · rw [Json.commas_cons _ hnil, Json.size_append, Json.size_cons (by decide), List.length_cons]
      omega

theorem loop_reads (hws : ∀ s, SkipsWs (item s))
    (hitem : ∀ s t a, R t a → Reads (item s) t (step s a)) {ts : List (List Char)} {as : List α}
    (h : List.Forall₂ (Padded R) ts as) (hne : as ≠ []) {c : Char} (hc : c = '}' ∨ c = ']') (s : σ)
    (rest : List UInt8) :
    (loop item s).run (utf8 (commas ts) ++ byte c :: rest) =
      .ok (as.foldl step s, byte c :: rest) := by
  have hlen := length_le_size h
  refine commaLoop_reads hws hitem h hne hc ?_ s rest
  rw [List.length_append]
  omega

def Brackets (o c : Char) : Prop := (o = '{' ∧ c = '}') ∨ (o = '[' ∧ c = ']')

theorem utf8_brackets {o c : Char} {r : List UInt8} (hb : Brackets o c) (inner : List Char) :
    utf8 (o :: (inner ++ [c])) ++ r = byte o :: (utf8 inner ++ byte c :: r) := by
  have ho : o.toNat < 0x80 := by rcases hb with ⟨rfl, -⟩ | ⟨rfl, -⟩ <;> decide
  have hc : c.toNat < 0x80 := by rcases hb with ⟨-, rfl⟩ | ⟨-, rfl⟩ <;> decide
  rw [utf8_cons, utf8_append, encode_ascii ho, utf8_cons, encode_ascii hc, List.append_assoc,
    List.append_assoc]
  rfl

/-- The text begins with something that is no white space and not the closing bracket. -/
def Starts (c : Char) (t : List Char) : Prop :=
  ∃ x xs, utf8 t = x :: xs ∧ isWs x = false ∧ x ≠ byte c

theorem commas_prepend (w t : List Char) (ts : List (List Char)) :
    commas ((w ++ t) :: ts) = w ++ commas (t :: ts) := by
  by_cases hnil : ts = []
  · rw [hnil, Json.commas_singleton, Json.commas_singleton]
  · rw [Json.commas_cons _ hnil, Json.commas_cons _ hnil, List.append_assoc]

/-- A list between brackets is read item by item. -/
theorem reads_bracketed (hws : ∀ s, SkipsWs (item s))
    (hitem : ∀ s t a, R t a → Reads (item s) t (step s a)) {o c : Char} (hb : Brackets o c)
    (hstart : ∀ t a, R t a → Starts c t) {as : List α} (h : Bracketed o c R t as) (s : σ) :
    Reads (bracketed (byte o) (byte c) item s) t (as.foldl step s) := by
  intro rest hrest
  have hows : isWs (byte o) = false := by rcases hb with ⟨rfl, -⟩ | ⟨rfl, -⟩ <;> decide
  have hcws : isWs (byte c) = false := by rcases hb with ⟨-, rfl⟩ | ⟨-, rfl⟩ <;> decide
  have hc : c = '}' ∨ c = ']' := hb.imp And.right And.right
  obtain ⟨inner, rfl, ⟨rfl, hinner⟩ | ⟨hne, ts, rfl, hts⟩⟩ := h
  · have hpeek := (skipsWs_peek inner _ hinner).trans (run_peek (r := rest) hcws)
    rw [utf8_brackets hb]
    unfold bracketed
    rw [run_bind (run_eat hows), run_bind hpeek, if_neg (not_not.2 rfl)]
    show (eat (byte c) >>= fun _ => pure s : Reader σ).run _ = _
    rw [run_bind (run_eat hcws)]
    rfl
  · cases hts with
    | nil => exact absurd rfl hne
    | @cons t a ts as head tail =>
      -- looking for the closing bracket takes the white space in front
      obtain ⟨w, t', w', hw, hw', rfl, hR⟩ := head
      obtain ⟨x, xs, hx, hxws, hxc⟩ := hstart t' a hR
      have hpad : Padded R (t' ++ w') a := ⟨[], t', w', List.forall_mem_nil _, hw', rfl, hR⟩
      have hahead : ∃ ys, utf8 (commas ((t' ++ w') :: ts)) ++ byte c :: rest = x :: ys := by
        rw [commas_prepend, utf8_append, hx]
        exact ⟨_, rfl⟩
      obtain ⟨ys, hys⟩ := hahead
      have hpeek : peek.run (utf8 (commas ((w ++ (t' ++ w')) :: ts)) ++ byte c :: rest) =
          .ok (x, utf8 (commas ((t' ++ w') :: ts)) ++ byte c :: rest) := by
        rw [commas_prepend, utf8_append, List.append_assoc, skipsWs_peek w _ hw, hys, run_peek hxws]
      have hloop := loop_reads hws hitem (.cons hpad tail) hne hc s rest
      rw [utf8_brackets hb]
      unfold bracketed
      rw [run_bind (run_eat hows), run_bind hpeek, if_pos hxc, run_bind hloop, run_bind (run_eat hcws)]
      rfl

end

/-! ## Values that are skipped -/

theorem starts_string {D : Json.Dialect Unit} {s : List Char} (h : Json.StringText D t s) {c : Char}
    (hc : c = '}' ∨ c = ']') : Starts c t := by
  obtain ⟨u, rfl, -⟩ := h
  have hbytes : utf8 ('"' :: (u ++ ['"'])) = byte '"' :: utf8 (u ++ ['"']) := by
    rw [utf8_cons, encode_ascii (by decide)]
    rfl
  refine ⟨byte '"', _, hbytes, by decide, ?_⟩
  rcases hc with rfl | rfl <;> decide

theorem starts_value {v : Json.Value Unit} (h : ValueText JsonObj.grammar t v) : Starts ']' t := by
  rcases JsonObj.value_shape h with ⟨u, hu, -⟩ | ⟨o, c, u, hb, hu, -⟩ | ⟨hne, hall⟩
  · exact ⟨_, _, hu, by decide, by decide⟩
  · refine ⟨_, _, hu, hb.isWs, ?_⟩
    rcases hb with ⟨rfl, -⟩ | ⟨rfl, -⟩ <;> decide
  · obtain ⟨c, t, rfl⟩ := List.exists_cons_of_ne_nil hne
    obtain ⟨hlt, hscalar, hbegins, -⟩ := hall c List.mem_cons_self
    refine ⟨byte c, utf8 t, ?_, hbegins.1, ?_⟩
    · rw [utf8_cons, encode_ascii hlt]
      rfl
    · intro heq
      rw [heq] at hscalar
      exact absurd hscalar (by decide)

/-- Numbers and literals are skipped up to what ends them. -/
theorem skipValue_scalar (hne : t ≠ [])
    (hall : ∀ c ∈ t, JsonObj.ScalarChar c) (n : ℕ) : Reads (skipValue (n + 1)) t () := by
  intro rest hrest
  have hbytes : utf8 t = t.map byte := utf8_ascii fun c hc => (hall c hc).1
  have hscalar : ∀ x ∈ utf8 t, isScalar x = true := by
    rw [hbytes]
    intro x hx
    obtain ⟨c, hc, rfl⟩ := List.mem_map.1 hx
    obtain ⟨-, hs, hb, -⟩ := hall c hc
    unfold JsonObj.isScalar at hs
    unfold isScalar
    rw [hb.1]
    simp only [Bool.and_eq_true, bne_iff_ne] at hs
    simp [hs.1.1, hs.1.2, hs.2]
  have hstop : rest.dropWhile isScalar = rest := by
    cases rest with
    | nil => rfl
    | cons x rest =>
      have hx : ¬ isScalar x = true := by rw [hrest x rfl]; exact Bool.false_ne_true
      exact List.dropWhile_cons_of_neg hx
  have hdrop : (utf8 t ++ rest).dropWhile isScalar = rest := by
    rw [List.dropWhile_append_of_pos hscalar, hstop]
  obtain ⟨c, t', rfl⟩ := List.exists_cons_of_ne_nil hne
  obtain ⟨hlt, -, hbegins, -⟩ := hall c List.mem_cons_self
  have hx : utf8 (c :: t') ++ rest = byte c :: (utf8 t' ++ rest) := by
    rw [utf8_cons, encode_ascii hlt]
    rfl
  rw [hx] at hdrop ⊢
  rw [skipValue, run_bind (run_peek hbegins.1), if_neg hbegins.2.2.1, if_neg hbegins.2.2.2,
    if_neg hbegins.2.1, run_bind (run_skipWs hbegins.1), StateT.run_modify, hdrop]
  rfl

theorem forall₂_map {γ : Type} {S : List Char → Unit → Prop} {g : γ → List Char} {es : List γ}
    (h : ∀ e ∈ es, S (g e) ()) : List.Forall₂ S (es.map g) (es.map fun _ => ()) := by
  induction es with
  | nil => exact .nil
  | cons e es ih =>
    obtain ⟨he, hes⟩ := List.forall_mem_cons.1 h
    exact .cons he (ih hes)

variable {n : ℕ}

/-- The loop body over the members of an object that is skipped. -/
def skipMember (n : ℕ) : Reader Unit := do
  let _ ← string
  eat (byte ':')
  skipValue n

theorem skipsWs_skipMember (n : ℕ) : SkipsWs (skipMember n) := skipsWs_string.bind _

/-- The brackets of a value that is skipped. -/
theorem skipValue_array {R : List Char → Unit → Prop}
    (hR : ∀ t u, R t u → Reads (skipValue n) t () ∧ Starts ']' t) {us : List Unit}
    (h : Bracketed '[' ']' R t us) : Reads (skipValue (n + 1)) t () := by
  intro rest hrest
  have hitem (_ : Unit) (t : List Char) (u : Unit) (hu : R t u) : Reads (skipValue n) t () :=
    (hR t u hu).1
  have hread := reads_bracketed (fun _ => skipsWs_skipValue n) hitem (.inr ⟨rfl, rfl⟩)
    (fun t u hu => (hR t u hu).2) h () rest hrest
  obtain ⟨inner, rfl, -⟩ := h
  rw [utf8_brackets (.inr ⟨rfl, rfl⟩)] at hread ⊢
  rw [skipValue, run_bind (run_peek (by decide)), if_neg (by decide), if_pos rfl]
  exact hread

theorem skipValue_object {R : List Char → Unit → Prop}
    (hR : ∀ t u, R t u → Reads (skipMember n) t () ∧ Starts '}' t) {us : List Unit}
    (h : Bracketed '{' '}' R t us) : Reads (skipValue (n + 1)) t () := by
  intro rest hrest
  have hitem (_ : Unit) (t : List Char) (u : Unit) (hu : R t u) : Reads (skipMember n) t () :=
    (hR t u hu).1
  have hread := reads_bracketed (fun _ => skipsWs_skipMember n) hitem (.inl ⟨rfl, rfl⟩)
    (fun t u hu => (hR t u hu).2) h () rest hrest
  obtain ⟨inner, rfl, -⟩ := h
  rw [utf8_brackets (.inl ⟨rfl, rfl⟩)] at hread ⊢
  rw [skipValue, run_bind (run_peek (by decide)), if_pos rfl]
  exact hread

theorem reads_skipMember {m : Json.Member Unit} (hbc : Ws m.beforeColon) (hac : Ws m.afterColon)
    (hk : Json.StringText JsonObj.grammar m.keyText m.key) (hv : Reads (skipValue n) m.text ()) :
    Reads (skipMember n) (m.keyText ++ (m.beforeColon ++ ':' :: (m.afterColon ++ m.text))) () := by
  intro rest hrest
  have hbytes : utf8 (m.keyText ++ (m.beforeColon ++ ':' :: (m.afterColon ++ m.text))) ++ rest =
      utf8 m.keyText ++ (utf8 m.beforeColon ++ byte ':' :: (utf8 m.afterColon ++
        (utf8 m.text ++ rest))) := by
    simp only [utf8_append, utf8_cons, encode_ascii (c := ':') (by decide), List.append_assoc,
      List.cons_append, List.nil_append]
  obtain ⟨s, hs⟩ := string_any hk (utf8 m.beforeColon ++ byte ':' :: (utf8 m.afterColon ++
    (utf8 m.text ++ rest)))
  have hcolon := (skipsWs_eat (byte ':') m.beforeColon _ hbc).trans
    (run_eat (r := utf8 m.afterColon ++ (utf8 m.text ++ rest)) (by decide))
  rw [hbytes]
  unfold skipMember
  rw [run_bind hs, run_bind hcolon, skipsWs_skipValue n _ _ hac]
  exact hv rest hrest

theorem size_le_commas {ts : List (List Char)} (h : t ∈ ts) :
    (utf8 t).length ≤ (utf8 (commas ts)).length := by
  induction ts with
  | nil => cases h
  | cons s ts ih =>
    by_cases hnil : ts = []
    · subst hnil
      rw [Json.commas_singleton, List.mem_singleton.1 h]
    · rw [Json.commas_cons s hnil, Json.size_append, Json.size_cons (by decide)]
      rcases List.mem_cons.1 h with rfl | h
      · omega
      · have := ih h
        omega

theorem size_brackets {o c : Char} (hb : Brackets o c) (inner : List Char) :
    (utf8 (o :: (inner ++ [c]))).length = (utf8 inner).length + 2 := by
  have h := congrArg List.length (utf8_brackets (r := []) hb inner)
  rw [List.append_nil] at h
  rw [h]
  simp

/-- A value is skipped: by induction on its text. -/
theorem reads_skipValue {v : Json.Value Unit} (h : ValueText JsonObj.grammar t v) {n : ℕ}
    (hn : (utf8 t).length ≤ n) : Reads (skipValue (n + 1)) t () := by
  induction h generalizing n with
  | null => exact skipValue_scalar (by decide) (by simp; decide) n
  | tt => exact skipValue_scalar (by decide) (by simp; decide) n
  | ff => exact skipValue_scalar (by decide) (by simp; decide) n
  | num h =>
    exact skipValue_scalar h.chars.1 (fun c hc => JsonObj.number_scalarChar (h.chars.2 c hc)) n
  | str h =>
    intro rest hrest
    obtain ⟨s, hs⟩ := string_any h rest
    obtain ⟨u, rfl, -⟩ := h
    rw [utf8_quoted] at hs ⊢
    rw [skipValue, run_bind (run_peek (by decide)), if_neg (by decide), if_neg (by decide), if_pos rfl,
      run_bind hs]
    rfl
  | arrNil hw =>
    exact skipValue_array (R := fun _ _ => False) (fun _ _ h => h.elim) ⟨_, rfl, .inl ⟨rfl, hw⟩⟩
  | arr es hne hws hv ih =>
    rw [size_brackets (.inr ⟨rfl, rfl⟩)] at hn
    obtain ⟨n, rfl⟩ : ∃ k, n = k + 1 := ⟨n - 1, by omega⟩
    refine skipValue_array (R := fun t _ => Reads (skipValue (n + 1)) t () ∧ Starts ']' t)
      (fun _ _ h => h) ⟨_, rfl, .inr ⟨?_, _, rfl, forall₂_map fun e he => ?_⟩⟩
    · simpa using hne
    · have hsize := size_le_commas (List.mem_map_of_mem (f := Json.Element.spell) he)
      have htext : (utf8 e.text).length ≤ (utf8 e.spell).length := by
        unfold Json.Element.spell
        rw [Json.size_append, Json.size_append]
        omega
      exact ⟨e.before, e.text, e.after, (hws e he).1, (hws e he).2, rfl, ih e he (by omega),
        starts_value (hv e he)⟩
  | objNil hw =>
    exact skipValue_object (R := fun _ _ => False) (fun _ _ h => h.elim) ⟨_, rfl, .inl ⟨rfl, hw⟩⟩
  | obj ms hne hws hk hv ih =>
    rw [size_brackets (.inl ⟨rfl, rfl⟩)] at hn
    obtain ⟨n, rfl⟩ : ∃ k, n = k + 1 := ⟨n - 1, by omega⟩
    refine skipValue_object (R := fun t _ => Reads (skipMember (n + 1)) t () ∧ Starts '}' t)
      (fun _ _ h => h) ⟨_, rfl, .inr ⟨?_, _, rfl, forall₂_map fun m hm => ?_⟩⟩
    · simpa using hne
    · have hsize := size_le_commas (List.mem_map_of_mem (f := Json.Member.spell) hm)
      have htext : (utf8 m.text).length ≤ (utf8 m.spell).length := by
        unfold Json.Member.spell
        simp only [Json.size_append, Json.size_cons (c := ':') (by decide)]
        omega
      obtain ⟨hbefore, hbc, hac, hafter⟩ := hws m hm
      refine ⟨m.before, m.keyText ++ (m.beforeColon ++ ':' :: (m.afterColon ++ m.text)), m.after,
        hbefore, hafter, ?_, reads_skipMember hbc hac (hk m hm) (ih m hm (by omega)), ?_⟩
      · unfold Json.Member.spell
        simp only [List.append_assoc, List.cons_append]
      · obtain ⟨x, xs, hx, hxws, hxc⟩ := starts_string (hk m hm) (c := '}') (.inl rfl)
        exact ⟨x, xs ++ _, by rw [utf8_append, hx]; rfl, hxws, hxc⟩

theorem run_skipAny (hw : Ws w) {u : Unit} (h : AnyValue t u) (hrest : Closed rest) :
    skipAny.run (utf8 w ++ (utf8 t ++ rest)) = .ok ((), rest) := by
  obtain ⟨v, hv⟩ := h
  have hget : (get : Reader (List UInt8)).run (utf8 w ++ (utf8 t ++ rest)) =
      .ok (utf8 w ++ (utf8 t ++ rest), utf8 w ++ (utf8 t ++ rest)) := rfl
  have hlen : (utf8 t).length ≤ (utf8 w ++ (utf8 t ++ rest)).length := by
    rw [List.length_append, List.length_append]
    omega
  unfold skipAny
  rw [run_bind hget, skipsWs_skipValue _ _ _ hw]
  exact reads_skipValue hv hlen rest hrest

end Safetensors

end Memra
