import Memra.Lib.Parse
import Memra.Tokenizer.Json

/-!
# The texts of a JSON value

The grammar of RFC 8259, over the characters of a text. A `Dialect` fills in what `json.rs` takes more
widely than the standard: the characters that stand for themselves in a string, the four digits of an
escape, and the numbers. `rfc8259` is the standard, `accepted` what the parser takes; in both a number
has the value that the `f64` parser gives its text. `verdict` scans a text for a string, an array or an
object that is not closed and for half a surrogate pair.
-/

namespace Memra

namespace Json

open Lib

variable {F : Type}

structure Dialect (F : Type) where
  raw : Char → Prop
  quad : List Char → ℕ → Prop
  number : List Char → F → Prop

/-! ## Strings -/

/-- Insignificant white space. -/
def Ws (w : List Char) : Prop := ∀ c ∈ w, c = ' ' ∨ c = '\t' ∨ c = '\n' ∨ c = '\r'

/-- The letter of an escape, and what it stands for. -/
def shortEscapes : List (Char × Char) :=
  [('"', '"'), ('\\', '\\'), ('/', '/'), ('b', Char.ofNat 0x08), ('f', Char.ofNat 0x0c),
    ('n', '\n'), ('r', '\r'), ('t', '\t')]

def HighSurrogate (v : ℕ) : Prop := 0xd800 ≤ v ∧ v < 0xdc00

def LowSurrogate (v : ℕ) : Prop := 0xdc00 ≤ v ∧ v < 0xe000

instance (v : ℕ) : Decidable (HighSurrogate v) := inferInstanceAs (Decidable (_ ∧ _))

instance (v : ℕ) : Decidable (LowSurrogate v) := inferInstanceAs (Decidable (_ ∧ _))

/-- The spellings of one character of a string. -/
inductive UnitText (D : Dialect F) : List Char → Char → Prop
  | raw {c : Char} (h : D.raw c) : UnitText D [c] c
  | short {e c : Char} (h : (e, c) ∈ shortEscapes) : UnitText D ['\\', e] c
  | hex {h : List Char} {v : ℕ} (hq : D.quad h v) (hv : v.isValidChar) :
    UnitText D ('\\' :: 'u' :: h) (Char.ofNat v)
  | pair {h l : List Char} {hi lo : ℕ} (hh : D.quad h hi) (hl : D.quad l lo)
    (hhi : HighSurrogate hi) (hlo : LowSurrogate lo) :
    UnitText D ('\\' :: 'u' :: (h ++ '\\' :: 'u' :: l))
      (Char.ofNat (0x10000 + (hi - 0xd800) * 2 ^ 10 + (lo - 0xdc00)))

/-- The spellings of a string. -/
def StringText (D : Dialect F) (t s : List Char) : Prop :=
  ∃ u, t = '"' :: (u ++ ['"']) ∧ Spelled (UnitText D) u s

/-! ## Values -/

/-- An element of an array and how it is written. -/
structure Element (F : Type) where
  before : List Char
  text : List Char
  after : List Char
  value : Value F

def Element.spell (e : Element F) : List Char := e.before ++ (e.text ++ e.after)

/-- A member of an object and how it is written. -/
structure Member (F : Type) where
  before : List Char
  keyText : List Char
  key : List Char
  beforeColon : List Char
  afterColon : List Char
  text : List Char
  after : List Char
  value : Value F

def Member.spell (m : Member F) : List Char :=
  m.before ++ (m.keyText ++ (m.beforeColon ++ ':' :: (m.afterColon ++ (m.text ++ m.after))))

/-- Texts with commas between them. -/
def commas (ts : List (List Char)) : List Char := List.intercalate [','] ts

/-- The object of some members: the last one with a key counts. -/
def lastOf (ms : List (Member F)) (k : List Char) : Option (Value F) :=
  (ms.reverse.find? fun m => m.key = k).map Member.value

/-- The spellings of a value. -/
inductive ValueText (D : Dialect F) : List Char → Value F → Prop
  | null : ValueText D "null".toList .null
  | tt : ValueText D "true".toList (.bool true)
  | ff : ValueText D "false".toList (.bool false)
  | num {t : List Char} {x : F} (h : D.number t x) : ValueText D t (.num x)
  | str {t s : List Char} (h : StringText D t s) : ValueText D t (.str s)
  | arrNil {w : List Char} (hw : Ws w) : ValueText D ('[' :: (w ++ [']'])) (.arr [])
  | arr (es : List (Element F)) (hne : es ≠ []) (hws : ∀ e ∈ es, Ws e.before ∧ Ws e.after)
    (hv : ∀ e ∈ es, ValueText D e.text e.value) :
    ValueText D ('[' :: (commas (es.map Element.spell) ++ [']'])) (.arr (es.map Element.value))
  | objNil {w : List Char} (hw : Ws w) : ValueText D ('{' :: (w ++ ['}'])) (.obj fun _ => none)
  | obj (ms : List (Member F)) (hne : ms ≠ [])
    (hws : ∀ m ∈ ms, Ws m.before ∧ Ws m.beforeColon ∧ Ws m.afterColon ∧ Ws m.after)
    (hk : ∀ m ∈ ms, StringText D m.keyText m.key) (hv : ∀ m ∈ ms, ValueText D m.text m.value) :
    ValueText D ('{' :: (commas (ms.map Member.spell) ++ ['}'])) (.obj (lastOf ms))

/-- The texts of a value. -/
def JsonText (D : Dialect F) (text : List Char) (v : Value F) : Prop :=
  ∃ w t w', Ws w ∧ ValueText D t v ∧ Ws w' ∧ text = w ++ (t ++ w')

/-! ## The standard and the parser -/

def Digits (t : List Char) : Prop := t ≠ [] ∧ ∀ c ∈ t, c.isDigit

/-- `0`, or digits that do not begin with it. -/
def IntText (t : List Char) : Prop :=
  t = ['0'] ∨ ∃ d ds, t = d :: ds ∧ d ≠ '0' ∧ ∀ c ∈ t, c.isDigit

def FracText (t : List Char) : Prop := t = [] ∨ ∃ ds, t = '.' :: ds ∧ Digits ds

def ExpText (t : List Char) : Prop :=
  t = [] ∨ ∃ e sign ds, t = e :: (sign ++ ds) ∧ (e = 'e' ∨ e = 'E') ∧
    (sign = [] ∨ sign = ['+'] ∨ sign = ['-']) ∧ Digits ds

/-- `number` of RFC 8259. -/
def NumberText (t : List Char) : Prop :=
  ∃ minus int frac exp, t = minus ++ (int ++ (frac ++ exp)) ∧ (minus = [] ∨ minus = ['-']) ∧
    IntText int ∧ FracText frac ∧ ExpText exp

def rfc8259 (parseF64 : List Char → Option F) : Dialect F where
  raw c := 0x20 ≤ c.toNat ∧ c ≠ '"' ∧ c ≠ '\\'
  quad h v := h.length = 4 ∧ hexValue h = some v
  number t x := NumberText t ∧ parseF64 t = some x

def IsNumberChar (c : Char) : Prop :=
  c.isDigit ∨ c = '-' ∨ c = '+' ∨ c = '.' ∨ c = 'e' ∨ c = 'E'

/-- Control characters stand for themselves, an escape may have a `+` for its first digit, and a number
is what the `f64` parser takes among the texts of its characters. -/
def accepted (parseF64 : List Char → Option F) : Dialect F where
  raw c := c ≠ '"' ∧ c ≠ '\\'
  quad h v := h.length = 4 ∧ fromStrRadix16 h = some v
  number t x := t ≠ [] ∧ (∀ c ∈ t, IsNumberChar c) ∧ parseF64 t = some x

/-! ## What is left open -/

inductive Verdict
  | fine
  | loneSurrogate
  | openString
  | openArray
  | openObject
  | mismatch
deriving DecidableEq

/-- The verdict at the end of a text, with the brackets that are open. -/
def atEnd : List Char → Verdict
  | [] => .fine
  | c :: _ => if c = '[' then .openArray else .openObject

/-- The quad at the front. -/
def quadAt (t : List Char) : Option ℕ :=
  if 4 ≤ t.length then fromStrRadix16 (t.take 4) else none

/-- How many characters the escape behind a backslash takes, unless it is half a pair. -/
def escapeLength (t : List Char) : Option ℕ :=
  if t.head? = some 'u' then
    match quadAt t.tail with
    | none => some 1
    | some v =>
      if LowSurrogate v then none
      else if HighSurrogate v then
        if (t.drop 5).take 2 = ['\\', 'u'] then
          match quadAt (t.drop 7) with
          | some lo => if LowSurrogate lo then some 11 else none
          | none => none
        else none
      else some 5
  else some 1

/-- The scan: outside of strings with `inString = false`, inside with `true`; `skip` characters of an
escape are behind us already. -/
def scan : Bool → ℕ → List Char → List Char → Verdict
  | false, _, stack, [] => atEnd stack
  | true, _, _, [] => .openString
  | inString, skip + 1, stack, _ :: t => scan inString skip stack t
  | false, 0, stack, c :: t =>
    if c = '"' then scan true 0 stack t
    else if c = '[' ∨ c = '{' then scan false 0 (c :: stack) t
    else if c = ']' ∨ c = '}' then
      if stack.head? = some (if c = ']' then '[' else '{') then scan false 0 stack.tail t
      else .mismatch
    else scan false 0 stack t
  | true, 0, stack, c :: t =>
    if c = '"' then scan false 0 stack t
    else if c = '\\' then
      match escapeLength t with
      | some n => scan true n stack t
      | none => .loneSurrogate
    else scan true 0 stack t

def verdict (text : List Char) : Verdict := scan false 0 [] text

/-- A value and, behind it and white space, something else. A number goes on with the characters that
numbers are made of. -/
def Trailing (D : Dialect F) (text : List Char) : Prop :=
  ∃ w t v w' c rest, Ws w ∧ ValueText D t v ∧ Ws w' ∧ text = w ++ (t ++ (w' ++ c :: rest)) ∧
    ¬ Ws [c] ∧ (w' = [] → (∀ d ∈ t, IsNumberChar d) → ¬ IsNumberChar c)

end Json

end Memra
