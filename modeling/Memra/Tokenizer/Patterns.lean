import Memra.Lib.Regex
import Memra.Tokenizer.Unicode

/-!
# The patterns of the pre-tokenizers

The regular expressions that the splits of `unicode.rs` are written for, over the characters of a text.
That of qwen35 reads the flags of a codepoint; the first and the third of deepseek-v3 read its collapsed
byte, as the classes `c_is_*` do. The apostrophe of a contraction has no case.
-/

namespace Memra

open Lib Lib.Regex CptFlags

section
variable (u : UnicodeData)

/-! ## qwen35 -/

def apostrophe : Regex Char := one fun c => c.toNat == 0x27

/-- One letter under `(?i:`. -/
def folded (n : ℕ) : Regex Char := one fun c => u.tolower c.toNat == n

/-- `(?i:'s|'t|'re|'ve|'m|'ll|'d)`. -/
def contractionRegex : Regex Char :=
  alts [
    seq apostrophe (folded u 0x73),
    seq apostrophe (folded u 0x74),
    seq apostrophe (seq (folded u 0x72) (folded u 0x65)),
    seq apostrophe (seq (folded u 0x76) (folded u 0x65)),
    seq apostrophe (folded u 0x6d),
    seq apostrophe (seq (folded u 0x6c) (folded u 0x6c)),
    seq apostrophe (folded u 0x64)]

/-- `[^\r\n\p{L}\p{N}]`. -/
def qwenLead (c : Char) : Bool :=
  !(isNewline c.toNat || isLetter (u.flags c.toNat) || isNumber (u.flags c.toNat))

/-- `[\p{L}\p{M}]`. -/
def qwenLetter (c : Char) : Bool := isLetter (u.flags c.toNat) || isAccentMark (u.flags c.toNat)

/-- `[^\s\p{L}\p{M}\p{N}]`. -/
def qwenOther (c : Char) : Bool :=
  !(CptFlags.isWhitespace (u.flags c.toNat) || isLetter (u.flags c.toNat) ||
    isAccentMark (u.flags c.toNat) || isNumber (u.flags c.toNat))

/-- `\s`. -/
def qwenSpace (c : Char) : Bool := CptFlags.isWhitespace (u.flags c.toNat)

/-- `\s*[\r\n]+|\s+(?!\S)|\s+`, for a class of white space and the symbols of a line end. -/
def spaceAlts (space newline : Char → Bool) : List (Regex Char) :=
  [seq (star space) (plus newline), seq (plus space) (notAhead fun c => !space c), plus space]

/-- The pattern of qwen35. -/
def qwen35Regex : Regex Char :=
  alts ([
    contractionRegex u,
    -- `[^\r\n\p{L}\p{N}]?[\p{L}\p{M}]+`
    seq (opt (one (qwenLead u))) (plus (qwenLetter u)),
    -- `\p{N}`
    one fun c => isNumber (u.flags c.toNat),
    -- ` ?[^\s\p{L}\p{M}\p{N}]+[\r\n]*`
    seq (opt (one fun c => c.toNat == 0x20))
      (seq (plus (qwenOther u)) (star fun c => isNewline c.toNat))] ++
    spaceAlts (qwenSpace u) fun c => isNewline c.toNat)

/-- What the tables are to say of a codepoint. -/
structure Classified : Prop where
  flagged : ∀ c : Char, u.flags c.toNat ≠ 0
  letter_number : ∀ c : Char, ¬ (isLetter (u.flags c.toNat) ∧ isNumber (u.flags c.toNat))
  letter_mark : ∀ c : Char, ¬ (isLetter (u.flags c.toNat) ∧ isAccentMark (u.flags c.toNat))
  mark_number : ∀ c : Char, ¬ (isAccentMark (u.flags c.toNat) ∧ isNumber (u.flags c.toNat))
  space : ∀ c : Char, CptFlags.isWhitespace (u.flags c.toNat) →
    ¬ (isLetter (u.flags c.toNat) ∨ isNumber (u.flags c.toNat) ∨ isAccentMark (u.flags c.toNat))
  newline : ∀ c : Char, isNewline c.toNat → CptFlags.isWhitespace (u.flags c.toNat)

/-! ## deepseek-v3 -/

/-- The collapsed byte of a character is of the class. -/
def collapsed (p : ℕ → Bool) (c : Char) : Bool := p (collapseCpt u c.toNat)

/-- `\p{N}{1,3}`. -/
def numberRegex : Regex Char :=
  let n := one (collapsed u cIsNumber)
  seq n (opt (seq n (opt n)))

/-- The run of CJK ideographs and kana. -/
def cjkRegex : Regex Char := plus fun c => isCjkKana c.toNat

/-- `[^\r\n\p{L}\p{P}\p{S}]`. -/
def deepseekLead (b : ℕ) : Bool := !isNewline b && !cIsLetter b && !cIsPunct b && !cIsSymbol b

/-- The pattern of the third pass. -/
def wordRegex : Regex Char :=
  alts ([
    -- an ASCII punctuation character and `[A-Za-z]+`
    seq (one (collapsed u cIsAsciiPunctLit)) (plus (collapsed u isAsciiAlphabetic)),
    -- `[^\r\n\p{L}\p{P}\p{S}]?[\p{L}\p{M}]+`
    seq (opt (one (collapsed u deepseekLead)))
      (plus (collapsed u fun b => cIsLetter b || cIsMark b)),
    -- ` ?[\p{P}\p{S}]+[\r\n]*`
    seq (opt (one (collapsed u fun b => b == 0x20)))
      (seq (plus (collapsed u fun b => cIsPunct b || cIsSymbol b)) (star (collapsed u isNewline)))] ++
    spaceAlts (collapsed u cIsSpace) (collapsed u isNewline))

end

/-- The passes in order, each inside the words that the last one left. -/
def splitPasses (passes : List (Regex Char)) (text : List Char) : List (List Char) :=
  passes.foldl (fun words r => words.flatMap r.split) [text]

end Memra
