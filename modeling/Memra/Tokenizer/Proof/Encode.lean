import Memra.Tokenizer.Proof.Merge

/-!
# Encoding and decoding a text

Each layer gives back what it was handed: the fragments make up the text (`stPartition_partition`),
the words a fragment (`pretokenize_flatten`), the symbols of a word its characters
(`mergeLoop_spec`), and each of these is one token of the vocabulary (`ByteVocab`) whose characters
spell the bytes (`decode_word`). What is left of the claim that a text survives is the length of its
words: `decode_encode_iff`.
-/

namespace Memra

open Lib

/-! ## UTF-8 -/

theorem utf8_flatten (words : List (List Char)) : utf8 words.flatten = words.flatMap utf8 := by
  induction words with
  | nil => rfl
  | cons w words ih => rw [List.flatten_cons, utf8_append, ih, List.flatMap_cons]

namespace Tokenizer

variable {u : UnicodeData} {t : Tokenizer}

/-! ## Special tokens -/

/-- The text that a fragment stands for. -/
def fragmentText (t : Tokenizer) : Fragment → List Char
  | .text s => s
  | .token id => t.idToToken.getD id []

theorem textFragment_text (s : List Char) : (textFragment s).flatMap t.fragmentText = s := by
  unfold textFragment
  split
  · rename_i hs
    rw [hs]
    rfl
  · simp [fragmentText]

theorem findSub_split {s needle : List Char} {m : ℕ} (h : findSub s needle = some m) :
    s.take m ++ (needle ++ s.drop (m + needle.length)) = s := by
  obtain ⟨-, hpre⟩ := (findSub_eq_some.1 h).1
  have hdrop : needle ++ (s.drop m).drop needle.length = s.drop m := by
    obtain ⟨rest, hrest⟩ := hpre
    rw [← hrest, List.drop_left]
  rw [← List.drop_drop, hdrop, List.take_append_drop]

theorem cutFragment_text {needle : List Char} {sid : ℕ} (hs : t.idToToken.getD sid [] = needle)
    (rest : List Char) : (cutFragment needle sid rest).flatMap t.fragmentText = rest := by
  fun_induction cutFragment needle sid rest with
  | case1 rest hne => exact textFragment_text rest
  | case2 rest hne m hf ih =>
    rw [List.flatMap_append, List.flatMap_cons, textFragment_text, ih, fragmentText, hs]
    exact findSub_split hf
  | case3 rest hne hf => exact textFragment_text rest

/-- Cutting puts in the token it looks for, and no other. -/
theorem cutFragment_token {needle : List Char} {sid id : ℕ} {rest : List Char}
    (h : Fragment.token id ∈ cutFragment needle sid rest) : id = sid := by
  have htext : ∀ s, Fragment.token id ∉ textFragment s := by
    intro s hmem
    unfold textFragment at hmem
    split at hmem <;> simp at hmem
  fun_induction cutFragment needle sid rest with
  | case1 rest hne => exact absurd h (htext _)
  | case2 rest hne m hf ih =>
    rcases List.mem_append.1 h with hmem | hmem
    · exact absurd hmem (htext _)
    · rcases List.mem_cons.1 hmem with heq | hmem
      · cases heq
        rfl
      · exact ih hmem
  | case3 rest hne hf => exact absurd h (htext _)

/-- The fragments of a text: they make it up, and their tokens are special. -/
structure Partition (t : Tokenizer) (text : List Char) (frags : List Fragment) : Prop where
  text : frags.flatMap t.fragmentText = text
  token : ∀ id, .token id ∈ frags → id ∈ t.specialTokens

theorem Partition.utf8 {text : List Char} {frags : List Fragment} (h : Partition t text frags) :
    (frags.flatMap fun frag => utf8 (t.fragmentText frag)) = Memra.utf8 text := by
  rw [← h.text]
  exact List.flatMap_assoc.symm

theorem Partition.step {text : List Char} {frags : List Fragment} (h : Partition t text frags)
    (parseSpecial : Bool) {sid : ℕ} (hsid : sid ∈ t.specialTokens) :
    Partition t text (t.partitionAt parseSpecial frags sid) := by
  unfold partitionAt
  simp only
  split
  · exact h
  · split
    · exact h
    · constructor
      · rw [List.flatMap_assoc]
        calc frags.flatMap _ = frags.flatMap t.fragmentText := by
              congr 1
              funext frag
              cases frag with
              | token id => simp
              | text s => exact cutFragment_text rfl s
          _ = text := h.text
      · intro id hmem
        obtain ⟨frag, hfrag, hid⟩ := List.mem_flatMap.1 hmem
        cases frag with
        | token id' =>
          cases List.mem_singleton.1 hid
          exact h.token _ hfrag
        | text s =>
          rw [cutFragment_token hid]
          exact hsid

theorem stPartition_partition (t : Tokenizer) (text : List Char) (parseSpecial : Bool) :
    Partition t text (t.stPartition text parseSpecial) := by
  apply List.foldlRecOn t.specialTokens (t.partitionAt parseSpecial)
  · exact ⟨by simp [fragmentText], by simp⟩
  · exact fun frags h sid hsid => h.step parseSpecial hsid

/-- A special token decodes to its piece. -/
theorem decodeToken_special {id : ℕ} (h : id ∈ t.specialTokens) :
    t.decodeToken true id = utf8 (t.fragmentText (.token id)) := by
  obtain ⟨attr, hattr, hspecial⟩ := t.special id h
  have hlt : id < t.idToToken.length := by
    rw [← t.attrs_length]
    exact (List.getElem?_eq_some_iff.1 hattr).1
  have hpiece : t.idToToken[id]? = some t.idToToken[id] := List.getElem?_eq_getElem hlt
  have htext : t.fragmentText (.token id) = t.idToToken[id] := by
    simp [fragmentText, List.getD_eq_getElem?_getD, hpiece]
  rw [htext]
  unfold decodeToken
  rw [hattr, hpiece]
  cases attr with
  | control => rfl
  | userDefined => rfl
  | unknown => rfl
  | normal => cases hspecial
  | byte => cases hspecial
  | other => cases hspecial

/-! ## Words -/

/-- The vocabulary maps the piece to an ordinary token of that piece. -/
def Holds (t : Tokenizer) (piece : List Char) : Prop :=
  ∃ id, t.tokenToId piece = some id ∧ t.idToToken[id]? = some piece ∧ t.attrs[id]? = some .normal

/-- A vocabulary with the byte alphabet and what every merge makes. -/
structure ByteVocab (t : Tokenizer) : Prop where
  byte : ∀ b : UInt8, t.Holds [byteToUnicode b]
  merge : ∀ x y rank, t.bpeRanks x y = some rank → t.Holds (x ++ y)

theorem ByteVocab.holds (h : t.ByteVocab) {text : List Char} (hp : VocabPiece t text) : t.Holds text := by
  rcases hp with ⟨b, rfl⟩ | ⟨x, y, rank, hrank, rfl⟩
  · exact h.byte b
  · exact h.merge x y rank hrank

theorem pieceToBytes_spelled (bytes : List UInt8) :
    pieceToBytes (bytes.map byteToUnicode) = bytes := by
  unfold pieceToBytes
  rw [List.flatMap_map]
  simp [unicodeToByte_byteToUnicode]

theorem decodeBytes_append (ids ids' : List ℕ) :
    t.decodeBytesSpecial (ids ++ ids') true =
      t.decodeBytesSpecial ids true ++ t.decodeBytesSpecial ids' true := List.flatMap_append

/-- A symbol left of the chain is one token, of its own text. -/
theorem decode_emitSymbol (h : t.ByteVocab) {s : Symbol} (hs : s.n ≠ 0 → VocabPiece t s.text) :
    t.decodeBytesSpecial (t.emitSymbol s) true =
      pieceToBytes (if s.n = 0 then [] else s.text) := by
  unfold emitSymbol
  split
  · rfl
  · rename_i hn
    obtain ⟨id, htok, hpiece, hattr⟩ := h.holds (hs hn)
    rw [htok]
    simp [decodeBytesSpecial, decodeToken, hpiece, hattr]

theorem decode_word (h : t.ByteVocab) {bytes : List UInt8} (hlen : bytes.length ≤ 2 ^ 31) :
    ∃ ids, t.bpeMergeWord (bytes.map byteToUnicode) = some ids ∧
      t.decodeBytesSpecial ids true = bytes := by
  have hchain := symbolChain_chain (t := t) hlen
  have hsymbols : (symbolChain (bytes.map byteToUnicode)).length = bytes.length := by
    rw [symbolChain_length, List.length_map]
  obtain ⟨queue, hqueue, hfits, hqlen⟩ := seedQueue_spec (t := t) (hsymbols.trans_le hlen)
  have hlive : live (symbolChain (bytes.map byteToUnicode)) ≤ bytes.length :=
    hsymbols ▸ List.countP_le_length
  have hfuel : 3 * live (symbolChain (bytes.map byteToUnicode)) + queue.length <
      4 * (bytes.map byteToUnicode).length + 1 := by
    rw [List.length_map]
    omega
  obtain ⟨symbols, hloop, hfinal⟩ := mergeLoop_spec hchain hfits hfuel
  refine ⟨symbols.flatMap t.emitSymbol, ?_, ?_⟩
  · simp only [bpeMergeWord, hqueue, hloop, Option.bind_eq_bind, Option.bind_some]
  · calc t.decodeBytesSpecial (symbols.flatMap t.emitSymbol) true
        = symbols.flatMap fun s => t.decodeBytesSpecial (t.emitSymbol s) true :=
          List.flatMap_assoc
      _ = symbols.flatMap fun s => pieceToBytes (if s.n = 0 then [] else s.text) :=
          List.flatMap_congr fun s hs => decode_emitSymbol h (hfinal.piece s hs)
      _ = pieceToBytes (liveText symbols) := List.flatMap_assoc.symm
      _ = bytes := by rw [hfinal.text, pieceToBytes_spelled]

/-- A word too long for its positions. -/
theorem bpeMergeWord_none {bytes : List UInt8} (hlen : 2 ^ 31 < bytes.length) :
    t.bpeMergeWord (bytes.map byteToUnicode) = none := by
  have hseed : t.seedQueue (symbolChain (bytes.map byteToUnicode)) = none := by
    apply seedQueue_none
    rwa [symbolChain_length, List.length_map]
  simp only [bpeMergeWord, hseed, Option.bind_eq_bind, Option.bind_none]

/-! ## Texts -/

/-- Parts encoded one by one decode to what they are, in their order. -/
theorem decode_mapM {α : Type} {f : α → Option (List ℕ)} {g : α → List UInt8} {parts : List α}
    (h : ∀ p ∈ parts, ∃ ids, f p = some ids ∧ t.decodeBytesSpecial ids true = g p) :
    ∃ ids, parts.mapM f = some ids ∧ t.decodeBytesSpecial ids.flatten true = parts.flatMap g := by
  induction parts with
  | nil => exact ⟨[], rfl, rfl⟩
  | cons p parts ih =>
    obtain ⟨ids, hf, hids⟩ := h p List.mem_cons_self
    obtain ⟨rest, hrest, hdecode⟩ := ih fun p hp => h p (List.mem_cons_of_mem _ hp)
    refine ⟨ids :: rest, ?_, ?_⟩
    · rw [List.mapM_cons, hf, hrest]
      rfl
    · rw [List.flatten_cons, decodeBytes_append, hids, hdecode, List.flatMap_cons]

theorem mapM_eq_none {α β : Type} {f : α → Option β} {parts : List α} {p : α} (hp : p ∈ parts)
    (hf : f p = none) : parts.mapM f = none := by
  induction parts with
  | nil => cases hp
  | cons q parts ih =>
    rw [List.mapM_cons]
    rcases List.mem_cons.1 hp with rfl | hp
    · rw [hf]
      rfl
    · rw [ih hp]
      cases f q <;> rfl

theorem pretokenize_flatten (u : UnicodeData) (t : Tokenizer) (text : List Char) :
    (t.pretokenize u text).flatten = text := by
  unfold pretokenize
  split
  · exact splitQwen35_flatten u text
  · exact splitDeepseekV3_flatten u text
  · exact splitQwen35_flatten u text
  · exact splitQwen35_flatten u text

/-- The words of a fragment. -/
def fragmentWords (u : UnicodeData) (t : Tokenizer) : Fragment → List (List Char)
  | .token _ => []
  | .text span => t.pretokenize u span

/-- The words that a text is split into, special tokens aside. -/
def textWords (u : UnicodeData) (t : Tokenizer) (text : List Char) (parseSpecial : Bool) :
    List (List Char) := (t.stPartition text parseSpecial).flatMap (t.fragmentWords u)

theorem decode_encodeFragment (h : t.ByteVocab) {frag : Fragment}
    (htok : ∀ id, frag = .token id → id ∈ t.specialTokens)
    (hlen : ∀ word ∈ t.fragmentWords u frag, (utf8 word).length ≤ 2 ^ 31) :
    ∃ ids, t.encodeFragment u frag = some ids ∧
      t.decodeBytesSpecial ids true = utf8 (t.fragmentText frag) := by
  cases frag with
  | token id =>
    refine ⟨[id], rfl, ?_⟩
    rw [← decodeToken_special (htok id rfl)]
    simp [decodeBytesSpecial]
  | text span =>
    have hwords : ∀ word ∈ t.pretokenize u span, ∃ ids,
        t.bpeMergeWord (byteEncode word) = some ids ∧
          t.decodeBytesSpecial ids true = utf8 word :=
      fun word hword => decode_word h (hlen word hword)
    obtain ⟨ids, hids, hdecode⟩ := decode_mapM hwords
    refine ⟨ids.flatten, ?_, ?_⟩
    · simp only [encodeFragment, bpeTokenize, hids, Option.bind_eq_bind, Option.bind_some]
    · rw [hdecode, ← utf8_flatten, pretokenize_flatten]
      rfl

theorem encodeFragment_none {frag : Fragment} {word : List Char}
    (hword : word ∈ t.fragmentWords u frag) (hlen : 2 ^ 31 < (utf8 word).length) :
    t.encodeFragment u frag = none := by
  cases frag with
  | token id => cases hword
  | text span =>
    have hnone : t.bpeMergeWord (byteEncode word) = none := bpeMergeWord_none hlen
    have hmap : ((t.pretokenize u span).mapM fun word => t.bpeMergeWord (byteEncode word)) = none :=
      mapM_eq_none hword hnone
    simp only [encodeFragment, bpeTokenize, hmap, Option.bind_eq_bind, Option.bind_none]

/-- Part of a concatenation. -/
theorem length_le_flatMap {α β : Type} {f : α → List β} {xs : List α} {x : α} (hx : x ∈ xs) :
    (f x).length ≤ (xs.flatMap f).length := by
  rw [List.flatMap_def]
  exact (List.sublist_flatten_of_mem (List.mem_map_of_mem hx)).length_le

/-- No word is longer than the text. -/
theorem textWords_length_le {text word : List Char} {parseSpecial : Bool}
    (h : word ∈ t.textWords u text parseSpecial) : (utf8 word).length ≤ (utf8 text).length := by
  obtain ⟨frag, hfrag, hin⟩ := List.mem_flatMap.1 h
  cases frag with
  | token id => cases hin
  | text span =>
    calc (utf8 word).length ≤ ((t.pretokenize u span).flatMap utf8).length := length_le_flatMap hin
      _ = (utf8 span).length := by rw [← utf8_flatten, pretokenize_flatten]
      _ ≤ ((t.stPartition text parseSpecial).flatMap fun frag =>
            utf8 (t.fragmentText frag)).length :=
          length_le_flatMap (f := fun frag => utf8 (t.fragmentText frag)) hfrag
      _ = (utf8 text).length := by rw [(stPartition_partition t text parseSpecial).utf8]

/-- **A text survives encoding and decoding exactly when no word of it is longer than `2 ^ 31`
bytes.** -/
theorem decode_encode_iff (h : t.ByteVocab) (text : List Char) (parseSpecial : Bool) :
    (∃ ids, t.encodeSpecial u text false parseSpecial = some ids ∧
      t.decodeBytesSpecial ids true = utf8 text) ↔
      ∀ word ∈ t.textWords u text parseSpecial, (utf8 word).length ≤ 2 ^ 31 := by
  by_cases hempty : text = []
  · subst hempty
    refine ⟨fun _ word hword => ?_, fun _ => ⟨[], rfl, rfl⟩⟩
    exact Nat.le_trans (textWords_length_le hword) (Nat.zero_le _)
  · have hencode : t.encodeSpecial u text false parseSpecial =
        ((t.stPartition text parseSpecial).mapM (t.encodeFragment u)).map List.flatten := by
      unfold encodeSpecial
      rw [if_neg hempty]
      cases (t.stPartition text parseSpecial).mapM (t.encodeFragment u) <;> rfl
    rw [hencode]
    constructor
    · intro ⟨ids, hids, _⟩ word hword
      by_contra hlen
      obtain ⟨frag, hfrag, hin⟩ := List.mem_flatMap.1 hword
      rw [mapM_eq_none hfrag (encodeFragment_none hin (Nat.lt_of_not_le hlen))] at hids
      cases hids
    · intro hlen
      have hpart := stPartition_partition t text parseSpecial
      have hfrags : ∀ frag ∈ t.stPartition text parseSpecial, ∃ ids,
          t.encodeFragment u frag = some ids ∧
            t.decodeBytesSpecial ids true = utf8 (t.fragmentText frag) := by
        intro frag hfrag
        apply decode_encodeFragment h
        · intro id hid
          exact hpart.token id (hid ▸ hfrag)
        · exact fun word hword => hlen word (List.mem_flatMap.2 ⟨frag, hfrag, hword⟩)
      obtain ⟨ids, hids, hdecode⟩ := decode_mapM hfrags
      refine ⟨ids.flatten, by rw [hids]; rfl, ?_⟩
      calc t.decodeBytesSpecial ids.flatten true
          = (t.stPartition text parseSpecial).flatMap fun frag => utf8 (t.fragmentText frag) :=
            hdecode
        _ = utf8 text := hpart.utf8

/-! ## A small tokenizer -/

/-- The tables on ASCII letters. -/
def asciiData : UnicodeData where
  flags c := if isAsciiAlphabetic c then flagLetter else flagSymbol
  tolower c := if 0x41 ≤ c ∧ c ≤ 0x5a then c + 0x20 else c

/-- The byte alphabet, one token a byte. -/
def byteTokens : List (List Char × TokAttr) :=
  (List.range 256).map fun b => ([byteToUnicode (UInt8.ofNat b)], .normal)

theorem byteTokens_length : byteTokens.length = 256 := by simp [byteTokens]

theorem byteTokens_getElem? (b : UInt8) :
    byteTokens[b.toNat]? = some ([byteToUnicode b], .normal) := by
  have hlt := b.toNat_lt
  unfold byteTokens
  rw [List.getElem?_map, List.getElem?_range (by omega)]
  simp

/-- The byte alphabet, one merge and one special token. -/
def smallTokens : List (List Char × TokAttr) :=
  byteTokens ++ [(['a', 'b'], .normal), (['<', 's', '>'], .control)]

theorem smallTokens_byte (b : UInt8) :
    smallTokens[b.toNat]? = some ([byteToUnicode b], .normal) := by
  have hlt := b.toNat_lt
  unfold smallTokens
  rw [List.getElem?_append_left (by rw [byteTokens_length]; omega), byteTokens_getElem?]

theorem smallTokens_merge : smallTokens[256]? = some (['a', 'b'], .normal) := by
  unfold smallTokens
  rw [List.getElem?_append_right (by rw [byteTokens_length]), byteTokens_length]
  rfl

theorem smallTokens_special : smallTokens[257]? = some (['<', 's', '>'], .control) := by
  unfold smallTokens
  rw [List.getElem?_append_right (by rw [byteTokens_length]; omega), byteTokens_length]
  rfl

def small : Tokenizer where
  idToToken := smallTokens.map Prod.fst
  tokenToId s :=
    if s = ['a', 'b'] then some 256
    else if s = ['<', 's', '>'] then some 257
    else match s with
      | [c] => (unicodeToByte c).map UInt8.toNat
      | _ => none
  attrs := smallTokens.map Prod.snd
  bpeRanks x y := if x = ['a'] ∧ y = ['b'] then some 0 else none
  specialTokens := [257]
  bosId := none
  addBos := false
  pre := "qwen35"
  attrs_length := by rw [List.length_map, List.length_map]
  special := by
    intro id hid
    rw [List.mem_singleton.1 hid, List.getElem?_map, smallTokens_special]
    exact ⟨.control, rfl, rfl⟩

theorem small_holds {piece : List Char} {id : ℕ} (htok : small.tokenToId piece = some id)
    (hget : smallTokens[id]? = some (piece, .normal)) : small.Holds piece := by
  refine ⟨id, htok, ?_, ?_⟩
  · rw [small, List.getElem?_map, hget]
    rfl
  · rw [small, List.getElem?_map, hget]
    rfl

theorem small_byteVocab : small.ByteVocab where
  byte := by
    intro b
    apply small_holds _ (smallTokens_byte b)
    simp [small, unicodeToByte_byteToUnicode]
  merge := by
    intro x y rank h
    unfold small at h
    simp only at h
    split at h
    · rename_i hxy
      obtain ⟨rfl, rfl⟩ := hxy
      exact small_holds rfl smallTokens_merge
    · cases h

theorem decode_encode_small :
    ∃ ids, small.encodeSpecial asciiData "ab<s>ab".toList false true = some ids ∧
      small.decodeBytesSpecial ids true = utf8 "ab<s>ab".toList := by
  apply (decode_encode_iff small_byteVocab _ _).2
  intro word hword
  exact Nat.le_trans (textWords_length_le hword) (by decide)

/-- A text of letters is one word. -/
theorem splitQwen35_letters (n : ℕ) :
    splitQwen35 asciiData (List.replicate (n + 1) 'a') = [List.replicate (n + 1) 'a'] := by
  have hfirst : getCpt (List.replicate (n + 1) 0x61) 0 = 0x61 := rfl
  have hend : wordEnd asciiData (List.replicate (n + 1) 0x61) 0 = n + 1 := by
    have hflags : getFlags asciiData (List.replicate (n + 1) 0x61) 0 = flagLetter := rfl
    have hrun : (((List.replicate (n + 1) 0x61).take (n + 1)).drop 1).takeWhile
        (fun c => CptFlags.isLetter (asciiData.flags c) ||
          CptFlags.isAccentMark (asciiData.flags c)) = List.replicate n 0x61 := by
      rw [List.take_of_length_le (by simp), List.replicate_succ, List.drop_one, List.tail_cons]
      apply List.takeWhile_eq_self_iff.2
      intro c hc
      rw [List.eq_of_mem_replicate hc]
      rfl
    have hletter : CptFlags.isLetter flagLetter = true := by decide
    have hother : (isNewline 0x61 || CptFlags.isNumber flagLetter) = false := by decide
    unfold wordEnd
    simp only [hfirst, hflags, hletter, hother, Bool.true_or, Bool.not_false, Bool.and_true]
    rw [if_pos trivial, runEnd, List.length_replicate, hrun, List.length_replicate]
    omega
  have hcontraction : contraction asciiData (List.replicate (n + 1) 0x61) 0 = none := by
    rw [contraction, hfirst, if_neg (by simp)]
  have hstep : Splitter.qwenStep asciiData (List.replicate (n + 1) 0x61) {} =
      { pos := n + 1, prevEnd := n + 1, lens := [n + 1] } := by
    simp only [Splitter.qwenStep, hcontraction, hend, Splitter.addToken]
    rfl
  have hloop : (Splitter.qwenLoop asciiData (List.replicate (n + 1) 0x61) (n + 1) {}).lens =
      [n + 1] := by
    rw [Splitter.qwenLoop, if_pos (by simp), hstep]
    cases n with
    | zero => rfl
    | succ n => rw [Splitter.qwenLoop, if_neg (by simp)]
  have hcpts : (List.replicate (n + 1) 'a').map Char.toNat = List.replicate (n + 1) 0x61 := by
    rw [List.map_replicate]
    rfl
  simp only [splitQwen35, hcpts, List.length_replicate, hloop, cutWords]
  rw [List.take_of_length_le (by simp)]

theorem utf8_letters (n : ℕ) : (utf8 (List.replicate n 'a')).length = n := by
  unfold utf8
  rw [List.length_flatMap, List.map_replicate, List.sum_replicate]
  exact Nat.mul_one n

theorem not_decode_encode :
    ¬∀ (u : UnicodeData) (t : Tokenizer), t.ByteVocab → ∀ (text : List Char) (parseSpecial : Bool),
      ∃ ids, t.encodeSpecial u text false parseSpecial = some ids ∧
        t.decodeBytesSpecial ids true = utf8 text := by
  intro h
  have hword : List.replicate (2 ^ 31 + 1) 'a' ∈
      small.textWords asciiData (List.replicate (2 ^ 31 + 1) 'a') false := by
    generalize 2 ^ 31 = n
    have hpart : small.stPartition (List.replicate (n + 1) 'a') false =
        [.text (List.replicate (n + 1) 'a')] := by
      have hattr : small.attrs.getD 257 .other = .control := by
        simp [small, List.getD_eq_getElem?_getD, smallTokens_special]
      rw [stPartition, show small.specialTokens = [257] from rfl, List.foldl_cons, List.foldl_nil,
        partitionAt, hattr]
      rfl
    rw [textWords, hpart]
    simp [fragmentWords, pretokenize, small, splitQwen35_letters]
  have hlen := (decode_encode_iff small_byteVocab _ _).1
    (h asciiData small small_byteVocab _ _) _ hword
  rw [utf8_letters] at hlen
  exact absurd hlen (Nat.not_succ_le_self _)

end Tokenizer

end Memra
