import Memra.Lib.Occurs
import Memra.Tokenizer.Unicode
import Mathlib

/-!
# The byte-level tokenizer

`lib.rs` of `memra-tokenizer` with `spm_style = false`: `encode_special` cuts the special tokens out of
the text, splits what is left into words, spells their bytes and merges each word by rank;
`decode_bytes_special` goes back. The symbols of a word link to each other by `i32` positions, so that
an index out of the list, which ends the process, is `none` here.
-/

namespace Memra

open Lib

/-- `TokAttr`. -/
inductive TokAttr
  | normal
  | unknown
  | control
  | userDefined
  | byte
  | other
  deriving DecidableEq

/-- `is_special`. -/
def TokAttr.isSpecial : TokAttr → Bool
  | .control | .userDefined | .unknown => true
  | _ => false

/-- `Tokenizer`, with what its constructors see to: an attribute for every token, and special tokens
that are tokens of a special attribute. -/
structure Tokenizer where
  idToToken : List (List Char)
  tokenToId : List Char → Option ℕ
  attrs : List TokAttr
  bpeRanks : List Char → List Char → Option ℤ
  specialTokens : List ℕ
  bosId : Option ℕ
  addBos : Bool
  pre : String
  attrs_length : attrs.length = idToToken.length
  special : ∀ id ∈ specialTokens, ∃ attr, attrs[id]? = some attr ∧ attr.isSpecial = true

/-- A span of raw text or a special token. -/
inductive Fragment
  | text (s : List Char)
  | token (id : ℕ)

/-- The cast `as i32`. -/
def asI32 (i : ℤ) : ℤ := i.bmod (2 ^ 32)

/-- `Bigram`. -/
structure Bigram where
  left : ℤ
  right : ℤ
  rank : ℤ
  text : List Char

/-- The bigram that the queue pops first: the lower rank, then the lower left position. -/
def Bigram.before (a b : Bigram) : Bool := a.rank < b.rank || a.rank == b.rank && a.left < b.left

/-- `BinaryHeap::pop`. -/
def popBigram : List Bigram → Option (Bigram × List Bigram)
  | [] => none
  | b :: rest =>
    match popBigram rest with
    | none => some (b, [])
    | some (m, others) => if m.before b then some (m, b :: others) else some (b, rest)

/-- `Symbol`. -/
structure Symbol where
  text : List Char
  prev : ℤ
  next : ℤ
  n : ℕ

/-- `symbols[i as usize]`. -/
def symAt (symbols : List Symbol) (i : ℤ) : Option Symbol :=
  if i < 0 then none else symbols[i.toNat]?

/-- The chain of a word, one symbol for each character. -/
def symbolChain (word : List Char) : List Symbol :=
  word.mapIdx fun i c =>
    { text := [c]
      prev := asI32 (asI32 i - 1)
      next := if i + 1 = word.length then -1 else asI32 (asI32 i + 1)
      n := 1 }

/-- `symbols[i].prev = left`, if there is an `i`. -/
def setPrev (symbols : List Symbol) (i left : ℤ) : Option (List Symbol) :=
  if i ≥ 0 then (symAt symbols i).map fun s => symbols.set i.toNat { s with prev := left }
  else some symbols

namespace Tokenizer

variable (u : UnicodeData) (t : Tokenizer)

/-! ## Special tokens -/

/-- A span of text, unless it is empty. -/
def textFragment (s : List Char) : List Fragment := if s = [] then [] else [.text s]

/-- One span cut at every occurrence of `needle`, which is not empty. -/
def cutFragment (needle : List Char) (sid : ℕ) (rest : List Char) : List Fragment :=
  if _hne : needle = [] then textFragment rest
  else
    match _hf : findSub rest needle with
    | some m =>
      textFragment (rest.take m) ++
        .token sid :: cutFragment needle sid (rest.drop (m + needle.length))
    | none => textFragment rest
termination_by rest.length
decreasing_by
  have hle := findSub_le _hf
  have hpos := List.length_pos_iff.2 _hne
  rw [List.length_drop]
  omega

/-- The turn of `st_partition` for one special token. -/
def partitionAt (parseSpecial : Bool) (frags : List Fragment) (sid : ℕ) : List Fragment :=
  let attr := t.attrs.getD sid .other
  let needle := t.idToToken.getD sid []
  if !parseSpecial && (attr = .control || attr = .unknown) then frags
  else if needle = [] then frags
  else
    frags.flatMap fun
      | .token id => [.token id]
      | .text s => cutFragment needle sid s

/-- `st_partition`. -/
def stPartition (text : List Char) (parseSpecial : Bool) : List Fragment :=
  t.specialTokens.foldl (t.partitionAt parseSpecial) [.text text]

/-! ## Merging a word -/

/-- `add_bigram`. -/
def addBigram (symbols : List Symbol) (left right : ℤ) (queue : List Bigram) :
    Option (List Bigram) :=
  if left = -1 ∨ right = -1 then some queue
  else do
    let l ← symAt symbols left
    let r ← symAt symbols right
    let rank := (t.bpeRanks l.text r.text).getD (-1)
    if rank < 0 then some queue
    else some (queue ++ [{ left, right, rank, text := l.text ++ r.text }])

/-- The body of the merge loop, for a bigram out of the queue. -/
def mergeBigram (symbols : List Symbol) (b : Bigram) (queue : List Bigram) :
    Option (List Symbol × List Bigram) := do
  let l ← symAt symbols b.left
  let r ← symAt symbols b.right
  if l.n = 0 ∨ r.n = 0 then some (symbols, queue)
  -- outdated
  else if l.text ++ r.text ≠ b.text then some (symbols, queue)
  else
    let merged := { l with text := l.text ++ r.text, n := l.n + r.n, next := r.next }
    let symbols := (symbols.set b.left.toNat merged).set b.right.toNat { r with n := 0 }
    let symbols ← setPrev symbols r.next b.left
    let l ← symAt symbols b.left
    let queue ← t.addBigram symbols l.prev b.left queue
    let queue ← t.addBigram symbols b.left l.next queue
    some (symbols, queue)

/-- The merge loop, for at most `fuel` bigrams. -/
def mergeLoop : ℕ → List Symbol → List Bigram → Option (List Symbol)
  | 0, _, _ => none
  | fuel + 1, symbols, queue =>
    match popBigram queue with
    | none => some symbols
    | some (b, queue) => do
      let (symbols, queue) ← t.mergeBigram symbols b queue
      mergeLoop fuel symbols queue

/-- The bigrams of a word before any merge. -/
def seedQueue (symbols : List Symbol) : Option (List Bigram) :=
  (List.range' 1 (symbols.length - 1)).foldlM
    (fun queue (i : ℕ) => t.addBigram symbols (asI32 (asI32 i - 1)) (asI32 i) queue) []

/-- What a symbol of the final chain is as tokens: its own, or those of its bytes. -/
def emitSymbol (s : Symbol) : List ℕ :=
  if s.n = 0 then []
  else
    match t.tokenToId s.text with
    | some tok => [tok]
    | none => (utf8 s.text).flatMap fun b => (t.tokenToId [Char.ofNat b.toNat]).toList

/-- `bpe_merge_word`; every turn of the loop takes a bigram out of the queue, and a merge, which puts
at most two back, takes a symbol. -/
def bpeMergeWord (word : List Char) : Option (List ℕ) := do
  let symbols := symbolChain word
  let queue ← t.seedQueue symbols
  let symbols ← t.mergeLoop (4 * word.length + 1) symbols queue
  some (symbols.flatMap t.emitSymbol)

/-! ## Encoding and decoding -/

/-- The pre-tokenizer split by `pre`. -/
def pretokenize (text : List Char) : List (List Char) :=
  match t.pre with
  | "qwen35" => splitQwen35 u text
  | "deepseek-v3" => splitDeepseekV3 u text
  | "qwen2" => splitQwen35 u text
  | _ => splitQwen35 u text

/-- `bpe_tokenize`. -/
def bpeTokenize (text : List Char) : Option (List ℕ) := do
  let ids ← (t.pretokenize u text).mapM fun word => t.bpeMergeWord (byteEncode word)
  some ids.flatten

/-- The tokens of one fragment. -/
def encodeFragment : Fragment → Option (List ℕ)
  | .token id => some [id]
  | .text span => t.bpeTokenize u span

/-- `encode_special`. -/
def encodeSpecial (text : List Char) (addSpecial parseSpecial : Bool) : Option (List ℕ) :=
  let bos := if addSpecial && t.addBos then t.bosId.toList else []
  if text = [] then some bos
  else do
    let ids ← (t.stPartition text parseSpecial).mapM (t.encodeFragment u)
    some (bos ++ ids.flatten)

/-- `piece_to_bytes`. -/
def pieceToBytes (piece : List Char) : List UInt8 :=
  piece.flatMap fun c =>
    match unicodeToByte c with
    | some b => [b]
    | none => String.utf8EncodeChar c

/-- What one id decodes to. -/
def decodeToken (special : Bool) (id : ℕ) : List UInt8 :=
  match t.idToToken[id]?, t.attrs[id]? with
  | some piece, some attr =>
    match attr with
    | .normal | .byte => pieceToBytes piece
    | .userDefined => utf8 piece
    | .control | .unknown => if special then utf8 piece else []
    | .other => []
  | _, _ => []

/-- `decode_bytes_special`. -/
def decodeBytesSpecial (ids : List ℕ) (special : Bool) : List UInt8 :=
  ids.flatMap (t.decodeToken special)

end Tokenizer

end Memra
