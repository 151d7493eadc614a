import Memra.Lib.Utf8Char
import Memra.Tokenizer.JsonText
import Memra.Tokenizer.Proof.Unicode

/-!
# The bytes of JSON text

A character of ASCII is one byte, the bytes of any other have the high bit: what the parser reads off the
bytes are characters.
-/

namespace Memra

namespace Json

open Lib Lib.Cursor String

theorem utf8_cons (c : Char) (t : List Char) : utf8 (c :: t) = utf8EncodeChar c ++ utf8 t :=
  List.flatMap_cons

theorem toByteArray_inj {as bs : List UInt8} (h : as.toByteArray = bs.toByteArray) : as = bs := by
  have hdata := congrArg (fun a => a.data.toList) h
  simpa using hdata

/-- `from_utf8` takes the bytes of a text. -/
theorem fromUtf8_iff {bs : List UInt8} {s : List Char} : fromUtf8 bs = some s ↔ bs = utf8 s := by
  unfold fromUtf8 fromUTF8?
  constructor
  · intro h
    split at h
    · rename_i hv
      have hs := Option.some.inj h
      have henc := String.utf8Encode_toList (b := String.fromUTF8 bs.toByteArray hv)
      rw [hs] at henc
      exact toByteArray_inj henc.symm
    · cases h
  · rintro rfl
    have hv : (utf8 s).toByteArray.IsValidUTF8 := ⟨s, rfl⟩
    have hstr : String.fromUTF8 (utf8 s).toByteArray hv = String.ofList s := rfl
    rw [dif_pos hv, hstr, Option.map_some, String.toList_ofList]

/-- `from_utf8` gives back what was encoded. -/
theorem fromUtf8_utf8 (s : List Char) : fromUtf8 (utf8 s) = some s := fromUtf8_iff.2 rfl

theorem utf8_injective {s t : List Char} (h : utf8 s = utf8 t) : s = t := by
  have hs := fromUtf8_utf8 s
  rw [h, fromUtf8_utf8] at hs
  exact (Option.some.inj hs).symm

theorem encode_ascii {c : Char} (h : c.toNat < 0x80) : utf8EncodeChar c = [byte c] := by
  rw [utf8EncodeChar_eq]
  exact if_pos (by change c.toNat ≤ 0x7f; omega)

theorem encode_high {c : Char} (h : 0x80 ≤ c.toNat) {b : UInt8} (hb : b ∈ utf8EncodeChar c) :
    0x80 ≤ b.toNat := by
  rw [utf8EncodeChar_eq] at hb
  have hv : c.val.toNat < 0xd800 ∨ 0xdfff < c.val.toNat ∧ c.val.toNat < 0x110000 := c.valid
  change 0x80 ≤ c.val.toNat at h
  generalize c.val.toNat = v at hb h hv
  unfold utf8EncodeNat at hb
  split at hb
  · omega
  · split at hb
    · fin_cases hb <;> simp only [UInt8.toNat_ofNat'] <;> omega
    · split at hb
      · fin_cases hb <;> simp only [UInt8.toNat_ofNat'] <;> omega
      · fin_cases hb <;> simp only [UInt8.toNat_ofNat'] <;> omega

/-! ## Characters of ASCII -/

theorem toNat_ofNat {n : ℕ} (h : n.isValidChar) : (Char.ofNat n).toNat = n := by
  unfold Char.ofNat
  simp [h, Char.ofNatAux, Char.toNat]

theorem asChar_toNat {b : UInt8} (h : b.toNat < 0x80) : (asChar b).toNat = b.toNat := by
  unfold asChar
  exact toNat_ofNat (.inl (by omega))

theorem byte_asChar {b : UInt8} (h : b.toNat < 0x80) : byte (asChar b) = b := by
  unfold byte
  rw [asChar_toNat h, UInt8.ofNat_toNat]

theorem byte_toNat {c : Char} (h : c.toNat < 0x80) : (byte c).toNat = c.toNat := by
  unfold byte
  rw [UInt8.toNat_ofNat', Nat.mod_eq_of_lt (by omega)]

theorem asChar_byte {c : Char} (h : c.toNat < 0x80) : asChar (byte c) = c := by
  unfold asChar
  rw [byte_toNat h, Char.ofNat_toNat]

theorem utf8_ascii {t : List Char} (h : ∀ c ∈ t, c.toNat < 0x80) : utf8 t = t.map byte := by
  induction t with
  | nil => rfl
  | cons c t ih =>
    rw [utf8_cons, encode_ascii (h c List.mem_cons_self),
      ih fun c hc => h c (List.mem_cons_of_mem _ hc)]
    rfl

/-- Bytes without the high bit are the text of their characters. -/
theorem eq_utf8_ascii {bs : List UInt8} (h : ∀ b ∈ bs, b.toNat < 0x80) :
    bs = utf8 (bs.map asChar) := by
  rw [utf8_ascii, List.map_map]
  · conv_lhs => rw [← List.map_id bs]
    exact List.map_congr_left fun b hb => (byte_asChar (h b hb)).symm
  · intro c hc
    obtain ⟨b, hb, rfl⟩ := List.mem_map.1 hc
    rw [asChar_toNat (h b hb)]
    exact h b hb

theorem utf8_length_ascii {t : List Char} (h : ∀ c ∈ t, c.toNat < 0x80) :
    (utf8 t).length = t.length := by
  rw [utf8_ascii h, List.length_map]

theorem utf8_length_le (t : List Char) : t.length ≤ (utf8 t).length := by
  induction t with
  | nil => exact Nat.zero_le _
  | cons c t ih =>
    have hpos : 0 < (utf8EncodeChar c).length := List.length_pos_of_ne_nil utf8EncodeChar_ne_nil
    rw [utf8_cons, List.length_append, List.length_cons]
    omega

/-! ## Classes -/

theorem isWs_iff {b : UInt8} : isWs b = true ↔
    b.toNat = 0x20 ∨ b.toNat = 0x09 ∨ b.toNat = 0x0a ∨ b.toNat = 0x0d := by
  unfold isWs
  simp only [Bool.or_eq_true, beq_iff_eq, ← UInt8.toNat_inj]
  exact ⟨fun h => by tauto, fun h => by tauto⟩

theorem isNumberByte_iff {b : UInt8} : isNumberByte b = true ↔
    0x30 ≤ b.toNat ∧ b.toNat ≤ 0x39 ∨ b.toNat = 0x2d ∨ b.toNat = 0x2b ∨ b.toNat = 0x2e ∨
      b.toNat = 0x65 ∨ b.toNat = 0x45 := by
  unfold isNumberByte
  simp only [Bool.or_eq_true, Bool.and_eq_true, decide_eq_true_eq, beq_iff_eq, ← UInt8.toNat_inj,
    UInt8.le_iff_toNat_le]
  exact ⟨fun h => by tauto, fun h => by tauto⟩

theorem isPlain_iff {b : UInt8} : isPlain b = true ↔ b.toNat ≠ 0x22 ∧ b.toNat ≠ 0x5c := by
  unfold isPlain
  simp only [Bool.and_eq_true, bne_iff_ne, ne_eq, ← UInt8.toNat_inj]
  exact Iff.rfl

theorem char_eq_iff {c d : Char} : c = d ↔ c.toNat = d.toNat := Char.toNat_inj.symm

theorem ws_char_iff {c : Char} : (c = ' ' ∨ c = '\t' ∨ c = '\n' ∨ c = '\r') ↔
    c.toNat = 0x20 ∨ c.toNat = 0x09 ∨ c.toNat = 0x0a ∨ c.toNat = 0x0d := by
  simp only [char_eq_iff]
  exact Iff.rfl

theorem isNumberChar_iff {c : Char} : IsNumberChar c ↔
    0x30 ≤ c.toNat ∧ c.toNat ≤ 0x39 ∨ c.toNat = 0x2d ∨ c.toNat = 0x2b ∨ c.toNat = 0x2e ∨
      c.toNat = 0x65 ∨ c.toNat = 0x45 := by
  unfold IsNumberChar
  rw [Char.isDigit_iff_toNat]
  simp only [char_eq_iff]
  exact Iff.rfl

/-- White space in bytes is white space. -/
theorem exists_ws {bs : List UInt8} (h : ∀ b ∈ bs, isWs b = true) : ∃ w, bs = utf8 w ∧ Ws w := by
  have hlt : ∀ b ∈ bs, b.toNat < 0x80 := by
    intro b hb
    have hw := isWs_iff.1 (h b hb)
    omega
  refine ⟨bs.map asChar, eq_utf8_ascii hlt, fun c hc => ?_⟩
  obtain ⟨b, hb, rfl⟩ := List.mem_map.1 hc
  rw [ws_char_iff, asChar_toNat (hlt b hb)]
  exact isWs_iff.1 (h b hb)

theorem Ws.ascii {w : List Char} (h : Ws w) : ∀ c ∈ w, c.toNat < 0x80 := by
  intro c hc
  have hw := ws_char_iff.1 (h c hc)
  omega

theorem Ws.isWs {w : List Char} (h : Ws w) : ∀ b ∈ utf8 w, isWs b = true := by
  rw [utf8_ascii h.ascii]
  intro b hb
  obtain ⟨c, hc, rfl⟩ := List.mem_map.1 hb
  rw [isWs_iff, byte_toNat (h.ascii c hc)]
  exact ws_char_iff.1 (h c hc)

theorem IsNumberChar.ascii {c : Char} (h : IsNumberChar c) : c.toNat < 0x80 := by
  have hn := isNumberChar_iff.1 h
  omega

theorem IsNumberChar.isNumberByte {c : Char} (h : IsNumberChar c) : isNumberByte (byte c) = true := by
  rw [isNumberByte_iff, byte_toNat h.ascii]
  exact isNumberChar_iff.1 h

/-- The bytes of a number are characters of a number. -/
theorem number_chars {bs : List UInt8} {s : List Char} (h : ∀ b ∈ bs, isNumberByte b = true)
    (hs : bs = utf8 s) : ∀ c ∈ s, IsNumberChar c := by
  have hlt : ∀ b ∈ bs, b.toNat < 0x80 := by
    intro b hb
    have hn := isNumberByte_iff.1 (h b hb)
    omega
  have hchars := utf8_injective (hs.symm.trans (eq_utf8_ascii hlt))
  intro c hc
  rw [hchars] at hc
  obtain ⟨b, hb, rfl⟩ := List.mem_map.1 hc
  rw [isNumberChar_iff, asChar_toNat (hlt b hb)]
  exact isNumberByte_iff.1 (h b hb)

/-- A character is plain when its bytes are. -/
theorem plain_bytes_iff {c : Char} :
    (∀ b ∈ utf8EncodeChar c, isPlain b = true) ↔ c ≠ '"' ∧ c ≠ '\\' := by
  have hq : '"'.toNat = 0x22 := rfl
  have hb : '\\'.toNat = 0x5c := rfl
  rw [Ne, Ne, char_eq_iff, char_eq_iff, hq, hb]
  by_cases hc : c.toNat < 0x80
  · rw [encode_ascii hc]
    constructor
    · intro h
      have hp := isPlain_iff.1 (h _ List.mem_cons_self)
      rwa [byte_toNat hc] at hp
    · intro h b hb
      rw [List.mem_singleton.1 hb, isPlain_iff, byte_toNat hc]
      exact h
  · refine ⟨fun _ => by omega, fun _ b hb => ?_⟩
    have hhigh := encode_high (by omega) hb
    rw [isPlain_iff]
    omega

theorem plain_text_iff {s : List Char} :
    (∀ b ∈ utf8 s, isPlain b = true) ↔ ∀ c ∈ s, c ≠ '"' ∧ c ≠ '\\' := by
  unfold utf8
  simp only [List.mem_flatMap, ← plain_bytes_iff]
  exact ⟨fun h c hc b hb => h b ⟨c, hc, hb⟩, fun h b ⟨c, hc, hb⟩ => h c hc b hb⟩

end Json

end Memra
