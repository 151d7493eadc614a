import Mathlib.Data.List.Basic

/-!
# Pre-tokenizer splits and the byte alphabet

`unicode.rs`: the splits of a text into words (`split_qwen35`, `split_deepseek_v3`) and the GPT-2
alphabet that spells a byte as a character. A text is the list of its codepoints; the generated tables
of `unicode_data.rs` are a parameter. A `while` loop that walks over codepoints of one kind is
`runEnd`: out of the text the flags are `0` and the codepoint is none of those the loops look for.
-/

namespace Memra

/-! ## Codepoint classes -/

/-- The generated tables: `cpt_flags_from_cpt` and `tolower`. -/
structure UnicodeData where
  flags : ℕ → UInt16
  tolower : ℕ → ℕ

/-- `flag::NUMBER`, and the other bits below. -/
def flagNumber : UInt16 := 0x0002
def flagLetter : UInt16 := 0x0004
def flagAccentMark : UInt16 := 0x0010
def flagPunctuation : UInt16 := 0x0020
def flagSymbol : UInt16 := 0x0040
def flagWhitespace : UInt16 := 0x0100

namespace CptFlags

def isNumber (f : UInt16) : Bool := f &&& flagNumber != 0
def isLetter (f : UInt16) : Bool := f &&& flagLetter != 0
def isAccentMark (f : UInt16) : Bool := f &&& flagAccentMark != 0
def isWhitespace (f : UInt16) : Bool := f &&& flagWhitespace != 0

/-- `category_flag`. -/
def category (f : UInt16) : UInt16 := f &&& 0x00ff

end CptFlags

open CptFlags

/-- `\r` or `\n`. -/
def isNewline (c : ℕ) : Bool := c == 0x0d || c == 0x0a

/-- Where the run of `p` that begins at `pos` ends, before `stop`. -/
def runEnd (p : ℕ → Bool) (xs : List ℕ) (stop pos : ℕ) : ℕ :=
  pos + (((xs.take stop).drop pos).takeWhile p).length

/-! ## qwen35 -/

section Qwen

variable (u : UnicodeData) (cpts : List ℕ)

/-- `get_cpt`. -/
def getCpt (pos : ℕ) : ℕ := cpts.getD pos 0xffffffff

/-- `get_flags`. -/
def getFlags (pos : ℕ) : UInt16 := (cpts[pos]?).elim 0 u.flags

/-- The end of a contraction at `pos`: `(?i:'s|'t|'re|'ve|'m|'ll|'d)`. -/
def contraction (pos : ℕ) : Option ℕ :=
  if getCpt cpts pos = 0x27 ∧ pos + 1 < cpts.length then
    let next := u.tolower (getCpt cpts (pos + 1))
    if next = 0x73 ∨ next = 0x74 ∨ next = 0x6d ∨ next = 0x64 then some (pos + 2)
    else if pos + 2 < cpts.length then
      let nn := u.tolower (getCpt cpts (pos + 2))
      if next = 0x72 ∧ nn = 0x65 ∨ next = 0x76 ∧ nn = 0x65 ∨ next = 0x6c ∧ nn = 0x6c then
        some (pos + 3)
      else none
    else none
  else none

/-- Neither whitespace, letter, mark nor number, but some category. -/
def isOther (f : UInt16) : Bool :=
  !(isWhitespace f || isLetter f || isAccentMark f || isNumber f) && f != 0

/-- The end of the last `\r` or `\n` in the whitespace at `pos`, or `0`. -/
def lastEndRn (ws : List ℕ) (pos : ℕ) : ℕ :=
  (ws.zipIdx pos).foldl (fun last c => if isNewline c.1 then c.2 + 1 else last) 0

/-- The flags that decide on ` ?[^\s\p{L}\p{M}\p{N}]+[\r\n]*` at `pos`. -/
def flags2 (pos : ℕ) : UInt16 :=
  if getCpt cpts pos = 0x20 then getFlags u cpts (pos + 1) else getFlags u cpts pos

/-- The end of ` ?[^\s\p{L}\p{M}\p{N}]+[\r\n]*` at `pos`. -/
def otherEnd (pos : ℕ) : ℕ :=
  let start := if getCpt cpts pos = 0x20 then pos + 1 else pos
  runEnd isNewline cpts cpts.length
    (runEnd (fun c => isOther (u.flags c)) cpts cpts.length start)

/-- The end of `\s*[\r\n]+|\s+(?!\S)|\s+` at `pos`, or of the codepoint that nothing matches. -/
def spaceEnd (pos : ℕ) : ℕ :=
  let ws := (cpts.drop pos).takeWhile fun c => isWhitespace (u.flags c)
  if lastEndRn ws pos > 0 then lastEndRn ws pos
  else if ws.length > 1 ∧ getCpt cpts (pos + ws.length) ≠ 0xffffffff then pos + (ws.length - 1)
  else if ws.length > 0 then pos + ws.length
  else pos + 1

/-- Where the word at `pos` ends when it is no contraction. -/
def wordEnd (pos : ℕ) : ℕ :=
  let flags := getFlags u cpts pos
  let next := getFlags u cpts (pos + 1)
  -- `[^\r\n\p{L}\p{N}]?[\p{L}\p{M}]+`
  if !(isNewline (getCpt cpts pos) || isNumber flags) &&
      (isLetter flags || isAccentMark flags || isAccentMark next || isLetter next) then
    runEnd (fun c => isLetter (u.flags c) || isAccentMark (u.flags c)) cpts cpts.length (pos + 1)
  -- `\p{N}`
  else if isNumber flags then pos + 1
  else if !(isWhitespace (flags2 u cpts pos) || isLetter (flags2 u cpts pos) ||
      isAccentMark (flags2 u cpts pos) || isNumber (flags2 u cpts pos)) && flags != 0 then
    otherEnd u cpts pos
  else spaceEnd u cpts pos

/-- The position, the end of the last word and the lengths of the words. -/
structure Splitter where
  pos : ℕ := 0
  prevEnd : ℕ := 0
  lens : List ℕ := []

/-- `add_token`, whose result is `e - s.prevEnd`. -/
def Splitter.addToken (s : Splitter) (e : ℕ) : Splitter :=
  { s with
    prevEnd := e
    lens := if e - s.prevEnd > 0 then s.lens ++ [e - s.prevEnd] else s.lens }

/-- One turn of the loop of `split_qwen35`. -/
def Splitter.qwenStep (s : Splitter) : Splitter :=
  match contraction u cpts s.pos with
  | some e => { s.addToken e with pos := s.pos + (e - s.prevEnd) }
  | none => { s.addToken (wordEnd u cpts s.pos) with pos := wordEnd u cpts s.pos }

/-- The loop, for at most `fuel` turns. -/
def Splitter.qwenLoop : ℕ → Splitter → Splitter
  | 0, s => s
  | fuel + 1, s => if s.pos < cpts.length then qwenLoop fuel (s.qwenStep u cpts) else s

end Qwen

/-- The words of the given lengths, front to back. -/
def cutWords {α : Type} : List ℕ → List α → List (List α)
  | [], _ => []
  | len :: lens, text => text.take len :: cutWords lens (text.drop len)

/-- `split_qwen35`; a turn of the loop takes at least one codepoint. -/
def splitQwen35 (u : UnicodeData) (text : List Char) : List (List Char) :=
  let cpts := text.map Char.toNat
  cutWords (Splitter.qwenLoop u cpts cpts.length {}).lens text

/-! ## deepseek-v3 -/

/-- `collapse_cpt`. -/
def collapseCpt (u : UnicodeData) (cpt : ℕ) : ℕ :=
  if cpt < 128 then cpt
  else
    let fl := u.flags cpt
    if isWhitespace fl then 0x0b
    else if category fl = flagNumber then 0xd1
    else if category fl = flagLetter then 0xd2
    else if category fl = flagPunctuation then 0xd3
    else if category fl = flagAccentMark then 0xd4
    else if category fl = flagSymbol then 0xd5
    else 0xd0

def isAsciiAlphabetic (b : ℕ) : Bool := 0x41 ≤ b && b ≤ 0x5a || 0x61 ≤ b && b ≤ 0x7a

def cIsLetter (b : ℕ) : Bool := b == 0xd2 || isAsciiAlphabetic b
def cIsMark (b : ℕ) : Bool := b == 0xd4
def cIsPunct (b : ℕ) : Bool :=
  b == 0xd3 || 0x21 ≤ b && b ≤ 0x23 || 0x25 ≤ b && b ≤ 0x2a || 0x2c ≤ b && b ≤ 0x2f ||
    0x3a ≤ b && b ≤ 0x3b || 0x3f ≤ b && b ≤ 0x40 || 0x5b ≤ b && b ≤ 0x5d || b == 0x5f ||
    b == 0x7b || b == 0x7d
def cIsSymbol (b : ℕ) : Bool :=
  b == 0xd5 || b == 0x24 || b == 0x2b || 0x3c ≤ b && b ≤ 0x3e || b == 0x5e || b == 0x60 ||
    b == 0x7c || b == 0x7e
def cIsNumber (b : ℕ) : Bool := b == 0xd1 || 0x30 ≤ b && b ≤ 0x39
def cIsSpace (b : ℕ) : Bool := b == 0x20 || 0x09 ≤ b && b ≤ 0x0d
def cIsAsciiPunctLit (b : ℕ) : Bool :=
  0x21 ≤ b && b ≤ 0x2f || 0x3a ≤ b && b ≤ 0x40 || 0x5b ≤ b && b ≤ 0x60 || 0x7b ≤ b && b ≤ 0x7e

/-- `push_len`. -/
def pushLen (lens : List ℕ) (len : ℕ) : List ℕ := if len > 0 then lens ++ [len] else lens

/-- The scan of one window up to `stop`: the lengths so far, and where the open gap began. -/
def scanWindow (matcher : ℕ → ℕ → Option ℕ) (stop : ℕ) (out : List ℕ) (gap pos : ℕ) : List ℕ :=
  if pos < stop then
    match matcher stop pos with
    | some mEnd =>
      if mEnd > pos then
        scanWindow matcher stop (pushLen (pushLen out (pos - gap)) (mEnd - pos)) mEnd mEnd
      else scanWindow matcher stop out gap (pos + 1)
    | none => scanWindow matcher stop out gap (pos + 1)
  else pushLen out (stop - gap)
termination_by stop - pos

/-- `split_pass`: `matcher` inside each window. -/
def splitPass (matcher : ℕ → ℕ → Option ℕ) (offsets : List ℕ) : List ℕ :=
  (offsets.foldl
    (fun (acc : List ℕ × ℕ) off => (scanWindow matcher (acc.2 + off) acc.1 acc.2 acc.2, acc.2 + off))
    ([], 0)).1

/-- Pass 1: `\p{N}{1,3}`. -/
def matchNumber (coll : List ℕ) (stop pos : ℕ) : Option ℕ :=
  if cIsNumber (coll.getD pos 0) then some (runEnd cIsNumber coll (min stop (pos + 3)) (pos + 1))
  else none

/-- `is_cjk_kana`. -/
def isCjkKana (cpt : ℕ) : Bool :=
  0x4e00 ≤ cpt && cpt ≤ 0x9fa5 || 0x3040 ≤ cpt && cpt ≤ 0x309f || 0x30a0 ≤ cpt && cpt ≤ 0x30ff

/-- Pass 2: a run of CJK ideographs and kana. -/
def matchCjk (cpts : List ℕ) (stop pos : ℕ) : Option ℕ :=
  if isCjkKana (cpts.getD pos 0) then some (runEnd isCjkKana cpts stop (pos + 1)) else none

/-- Where the letter run of the second alternative begins, if there is one. -/
def letterStart (coll : List ℕ) (stop pos : ℕ) : Option ℕ :=
  let b := coll.getD pos 0
  let leadOk := !isNewline b && !cIsLetter b && !cIsPunct b && !cIsSymbol b
  let next := coll.getD (pos + 1) 0
  if leadOk && decide (pos + 1 < stop) && (cIsLetter next || cIsMark next) then some (pos + 1)
  else if cIsLetter b || cIsMark b then some pos
  else none

/-- `\s*[\r\n]+|\s+(?!\S)|\s+` at a whitespace. -/
def matchSpace (coll : List ℕ) (stop pos : ℕ) : ℕ :=
  let ws := ((coll.take stop).drop pos).takeWhile cIsSpace
  let e := pos + ws.length
  if lastEndRn ws pos > 0 then lastEndRn ws pos
  else if e < stop then if e - pos > 1 then e - 1 else pos + 1
  else e

/-- Pass 3: the six alternatives, the first that matches. -/
def matchWord (coll : List ℕ) (stop pos : ℕ) : Option ℕ :=
  let b := coll.getD pos 0
  if cIsAsciiPunctLit b && decide (pos + 1 < stop) && isAsciiAlphabetic (coll.getD (pos + 1) 0) then
    some (runEnd isAsciiAlphabetic coll stop (pos + 2))
  else
    let isLetterOrMark c := cIsLetter c || cIsMark c
    match (letterStart coll stop pos).filter fun start =>
        start < runEnd isLetterOrMark coll stop start with
    | some start => some (runEnd isLetterOrMark coll stop start)
    | none =>
      let start := if b = 0x20 then pos + 1 else pos
      let e := runEnd (fun c => cIsPunct c || cIsSymbol c) coll stop start
      if e > start then some (runEnd isNewline coll stop e)
      else if cIsSpace b then some (matchSpace coll stop pos)
      else none

/-- `split_deepseek_v3`. -/
def splitDeepseekV3 (u : UnicodeData) (text : List Char) : List (List Char) :=
  let cpts := text.map Char.toNat
  let coll := cpts.map (collapseCpt u)
  let offsets := splitPass (matchNumber coll) [cpts.length]
  let offsets := splitPass (matchCjk cpts) offsets
  let offsets := splitPass (matchWord coll) offsets
  cutWords offsets text

/-! ## The byte alphabet -/

/-- A byte that its own character spells. -/
def isPrintable (b : ℕ) : Bool :=
  0x21 ≤ b && b ≤ 0x7e || 0xa1 ≤ b && b ≤ 0xac || 0xae ≤ b && b ≤ 0xff

/-- `byte_to_unicode`: the other bytes take the characters from `256` on, in order. -/
def byteToUnicode (b : UInt8) : Char :=
  if isPrintable b.toNat then Char.ofNat b.toNat
  else Char.ofNat (256 + ((List.range b.toNat).filter fun c => !isPrintable c).length)

/-- `unicode_to_byte`. -/
def unicodeToByte (c : Char) : Option UInt8 :=
  ((List.range 256).map UInt8.ofNat).find? fun b => byteToUnicode b == c

/-- The UTF-8 of a text. -/
def utf8 (text : List Char) : List UInt8 := text.flatMap String.utf8EncodeChar

/-- `byte_encode`. -/
def byteEncode (s : List Char) : List Char := (utf8 s).map byteToUnicode

end Memra
