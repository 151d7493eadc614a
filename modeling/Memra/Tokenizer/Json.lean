import Memra.Lib.Cursor
import Memra.Tokenizer.Unicode

/-!
# The JSON of the tokenizer files

`json.rs`: the parser of `tokenizer.json` and its neighbours. It walks over the bytes of a text by index.
An index or a slice out of range is `Fault.panic`; the recursion and the loops are bounded by `fuel`,
which runs out as `Fault.fuel`. The `f64` parser of the standard library is a parameter, and so is the
type of its numbers.
-/

namespace Memra

namespace Json

open Lib Lib.Cursor

/-- A parsed value. A `HashMap` is the partial function that it is read as. -/
inductive Value (F : Type)
  | null
  | bool (b : Bool)
  | num (x : F)
  | str (s : List Char)
  | arr (a : List (Value F))
  | obj (o : List Char → Option (Value F))

abbrev Res := Except (Fault String)

/-! ## The standard library -/

/-- `b'c'`. -/
def byte (c : Char) : UInt8 := UInt8.ofNat c.toNat

/-- `b as char`. -/
def asChar (b : UInt8) : Char := Char.ofNat b.toNat

/-- `std::str::from_utf8`. -/
def fromUtf8 (bs : List UInt8) : Option (List Char) :=
  (String.fromUTF8? bs.toByteArray).map String.toList

/-- `char::to_digit(16)`. -/
def hexDigit (c : Char) : Option ℕ :=
  if 0x30 ≤ c.toNat ∧ c.toNat ≤ 0x39 then some (c.toNat - 0x30)
  else if 0x41 ≤ c.toNat ∧ c.toNat ≤ 0x46 then some (c.toNat - 0x41 + 10)
  else if 0x61 ≤ c.toNat ∧ c.toNat ≤ 0x66 then some (c.toNat - 0x61 + 10)
  else none

/-- The value of hexadecimal digits. -/
def hexValue (s : List Char) : Option ℕ :=
  s.foldl (fun v c => v.bind fun v => (hexDigit c).map fun d => 16 * v + d) (some 0)

/-- `u32::from_str_radix(s, 16)`, which takes a sign; too large a value is an error. -/
def fromStrRadix16 (s : List Char) : Option ℕ :=
  let digits := if s.head? = some '+' then s.tail else s
  if digits = [] then none else (hexValue digits).filter (· < 2 ^ 32)

/-- `char::from_u32`. -/
def charFromU32 (cp : ℕ) : Option Char := if cp.isValidChar then some (Char.ofNat cp) else none

/-! ## Reading -/

def isWs (c : UInt8) : Bool :=
  c == byte ' ' || c == byte '\t' || c == byte '\n' || c == byte '\r'

/-- The bytes that `number` takes. -/
def isNumberByte (c : UInt8) : Bool :=
  byte '0' ≤ c && c ≤ byte '9' || c == byte '-' || c == byte '+' || c == byte '.' ||
    c == byte 'e' || c == byte 'E'

/-- A byte that stands for itself in a string. -/
def isPlain (c : UInt8) : Bool := c != byte '"' && c != byte '\\'

section
variable (b : List UInt8)

def ws (i : ℕ) : Res ℕ := skip isWs b i

def peek (i : ℕ) : Res UInt8 :=
  match b[i]? with
  | some c => .ok c
  | none => .error (.err "json: unexpected EOF")

def expect (i : ℕ) (c : UInt8) : Res ℕ := do
  let d ← peek b i
  if d ≠ c then
    let got ← index b i
    .error (.err ("json: expected '" ++ (asChar c).toString ++ "' at byte " ++ toString i ++
      ", got '" ++ (asChar got).toString ++ "'"))
  else pure (i + 1)

variable {F : Type}

def lit (i : ℕ) (word : List UInt8) (v : Value F) : Res (Value F × ℕ) := do
  -- `self.b.len() - self.i` does not go below zero
  if b.length < i then .error .panic
  else if b.length - i ≥ word.length then
    let s ← slice b i (i + word.length)
    if s = word then pure (v, i + word.length)
    else .error (.err ("json: bad literal at byte " ++ toString i))
  else .error (.err ("json: bad literal at byte " ++ toString i))

def number (parseF64 : List Char → Option F) (start : ℕ) : Res (Value F × ℕ) := do
  let i ← skip isNumberByte b start
  if i = start then .error (.err ("json: expected value at byte " ++ toString start))
  else
    let s ← slice b start i
    match (fromUtf8 s).bind parseF64 with
    | some x => pure (.num x, i)
    | none => .error (.err ("json: bad number at byte " ++ toString start))

/-! ## Strings -/

def hex4 (i : ℕ) : Res (ℕ × ℕ) := do
  if i + 4 > b.length then .error (.err "json: truncated \\u escape")
  else
    let s ← slice b i (i + 4)
    match (fromUtf8 s).bind fromStrRadix16 with
    | some v => pure (v, i + 4)
    | none => .error (.err "json: bad \\u escape")

/-- The codepoint of an escape whose first half is `hi`. -/
def codepoint (hi i : ℕ) : Res (ℕ × ℕ) := do
  if 0xd800 ≤ hi ∧ hi < 0xdc00 then
    -- a low surrogate is to follow
    if i + 2 > b.length then .error (.err "json: lone high surrogate")
    else
      let c ← index b i
      if c ≠ byte '\\' then .error (.err "json: lone high surrogate")
      else
        let d ← index b (i + 1)
        if d ≠ byte 'u' then .error (.err "json: lone high surrogate")
        else
          let (lo, i) ← hex4 b (i + 2)
          if ¬ (0xdc00 ≤ lo ∧ lo < 0xe000) then .error (.err "json: bad low surrogate")
          else pure (0x10000 + (hi - 0xd800) * 2 ^ 10 + (lo - 0xdc00), i)
  else pure (hi, i)

/-- What a letter behind a backslash stands for, but for `u`. -/
def shortEscape (e : UInt8) : Option Char :=
  if e = byte '"' then some '"'
  else if e = byte '\\' then some '\\'
  else if e = byte '/' then some '/'
  else if e = byte 'b' then some (Char.ofNat 0x08)
  else if e = byte 'f' then some (Char.ofNat 0x0c)
  else if e = byte 'n' then some '\n'
  else if e = byte 'r' then some '\r'
  else if e = byte 't' then some '\t'
  else none

/-- The escape behind a backslash. -/
def escape (i : ℕ) : Res (Char × ℕ) := do
  let e ← peek b i
  match shortEscape e with
  | some c => pure (c, i + 1)
  | none =>
    if e = byte 'u' then
      let (hi, i) ← hex4 b (i + 1)
      let (cp, i) ← codepoint b hi i
      match charFromU32 cp with
      | some c => pure (c, i)
      | none => .error (.err "json: invalid codepoint")
    else .error (.err ("json: bad escape at byte " ++ toString i))

/-- The loop of `string`, for at most `fuel` turns. -/
def stringLoop : ℕ → List Char → ℕ → Res (List Char × ℕ)
  | 0, _, _ => .error .fuel
  | fuel + 1, out, i => do
    let c ← peek b i
    if c = byte '"' then pure (out, i + 1)
    else if c = byte '\\' then
      let (c, i) ← escape b (i + 1)
      stringLoop fuel (out ++ [c]) i
    else
      let e ← skip isPlain b i
      let s ← slice b i e
      match fromUtf8 s with
      | some s => stringLoop fuel (out ++ s) e
      | none => .error (.err "json: invalid utf-8 in string")

def string (i : ℕ) : Res (List Char × ℕ) := do
  let i ← expect b i (byte '"')
  stringLoop b (b.length + 1) [] i

/-! ## Values -/

/-- `HashMap::insert`. -/
def insert (o : List Char → Option (Value F)) (k : List Char) (v : Value F) :
    List Char → Option (Value F) :=
  fun k' => if k' = k then some v else o k'

variable (parseF64 : List Char → Option F)

mutual

def value : ℕ → ℕ → Res (Value F × ℕ)
  | 0, _ => .error .fuel
  | fuel + 1, i => do
    let c ← peek b i
    if c = byte '{' then object fuel i
    else if c = byte '[' then array fuel i
    else if c = byte '"' then
      let (s, i) ← string b i
      pure (.str s, i)
    else if c = byte 't' then lit b i ("true".toList.map byte) (.bool true)
    else if c = byte 'f' then lit b i ("false".toList.map byte) (.bool false)
    else if c = byte 'n' then lit b i ("null".toList.map byte) .null
    else number b parseF64 i

def array : ℕ → ℕ → Res (Value F × ℕ)
  | 0, _ => .error .fuel
  | fuel + 1, i => do
    let i ← expect b i (byte '[')
    let i ← ws b i
    let c ← peek b i
    if c = byte ']' then pure (.arr [], i + 1)
    else arrayLoop fuel [] i

/-- The loop of `array`. -/
def arrayLoop : ℕ → List (Value F) → ℕ → Res (Value F × ℕ)
  | 0, _, _ => .error .fuel
  | fuel + 1, out, i => do
    let i ← ws b i
    let (v, i) ← value fuel i
    let i ← ws b i
    let c ← peek b i
    if c = byte ',' then arrayLoop fuel (out ++ [v]) (i + 1)
    else if c = byte ']' then pure (.arr (out ++ [v]), i + 1)
    else .error (.err ("json: expected ',' or ']' at byte " ++ toString i ++ ", got '" ++
      (asChar c).toString ++ "'"))

def object : ℕ → ℕ → Res (Value F × ℕ)
  | 0, _ => .error .fuel
  | fuel + 1, i => do
    let i ← expect b i (byte '{')
    let i ← ws b i
    let c ← peek b i
    if c = byte '}' then pure (.obj fun _ => none, i + 1)
    else objectLoop fuel (fun _ => none) i

/-- The loop of `object`. -/
def objectLoop : ℕ → (List Char → Option (Value F)) → ℕ → Res (Value F × ℕ)
  | 0, _, _ => .error .fuel
  | fuel + 1, out, i => do
    let i ← ws b i
    let (k, i) ← string b i
    let i ← ws b i
    let i ← expect b i (byte ':')
    let i ← ws b i
    let (v, i) ← value fuel i
    let i ← ws b i
    let c ← peek b i
    if c = byte ',' then objectLoop fuel (insert out k v) (i + 1)
    else if c = byte '}' then pure (.obj (insert out k v), i + 1)
    else .error (.err ("json: expected ',' or '\x7d' at byte " ++ toString i ++ ", got '" ++
      (asChar c).toString ++ "'"))

end

end

/-- `parse`. A value takes at most three turns for each byte. -/
def parse {F : Type} (parseF64 : List Char → Option F) (text : List Char) : Res (Value F) := do
  let b := utf8 text
  let i ← ws b 0
  let (v, i) ← value b parseF64 (3 * b.length + 1) i
  let i ← ws b i
  if i ≠ b.length then .error (.err ("json: trailing bytes at " ++ toString i))
  else pure v

end Json

end Memra
