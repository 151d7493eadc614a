import Mathlib.Data.List.Basic

/-!
# UTF-8, byte by byte

`utf8Head` reads one sequence at the front of a byte string: a character of `n` bytes, `n` bytes that
are no beginning of one, or the beginning of a character cut off by the end. A sequence that is
complete is not changed by more bytes (`utf8Head_append`); this is what makes decoding by parts
possible. `utf8Error` is the validation of a whole byte string, `utf8Scan` its decoding up to an
incomplete end, and `utf8Scan_append` says that decoding can stop at any byte and go on later with
what it left.
-/

namespace Lib

/-- What stands at the front of a byte string. -/
inductive Utf8Head
  | char (n : ℕ)
  | invalid (n : ℕ)
  | incomplete
  deriving DecidableEq

/-- The length of a character by its first byte, `0` for a byte that begins none. -/
def utf8Width (b : UInt8) : ℕ :=
  if b < 0x80 then 1
  else if 0xc2 ≤ b ∧ b ≤ 0xdf then 2
  else if 0xe0 ≤ b ∧ b ≤ 0xef then 3
  else if 0xf0 ≤ b ∧ b ≤ 0xf4 then 4
  else 0

/-- A continuation byte. -/
def isCont (b : UInt8) : Bool := 0x80 ≤ b && b ≤ 0xbf

/-- The second byte of a character, by its first one. -/
def secondOk (first b : UInt8) : Bool :=
  if first = 0xe0 then 0xa0 ≤ b && b ≤ 0xbf
  else if first = 0xed then 0x80 ≤ b && b ≤ 0x9f
  else if first = 0xf0 then 0x90 ≤ b && b ≤ 0xbf
  else if first = 0xf4 then 0x80 ≤ b && b ≤ 0x8f
  else isCont b

/-- The bytes of a character behind the first `n`, `k` of them still to come. -/
def utf8Tail : (UInt8 → Bool) → ℕ → ℕ → List UInt8 → Utf8Head
  | _, 0, n, _ => .char n
  | _, _ + 1, _, [] => .incomplete
  | ok, k + 1, n, b :: bs => if ok b then utf8Tail isCont k (n + 1) bs else .invalid n

/-- The sequence at the front of a byte string. -/
def utf8Head : List UInt8 → Utf8Head
  | [] => .incomplete
  | b :: bs => if utf8Width b = 0 then .invalid 1 else utf8Tail (secondOk b) (utf8Width b - 1) 1 bs

theorem utf8Head_cons (b : UInt8) (bs : List UInt8) : utf8Head (b :: bs) =
    if utf8Width b = 0 then .invalid 1 else utf8Tail (secondOk b) (utf8Width b - 1) 1 bs := rfl

theorem utf8Tail_append {ok : UInt8 → Bool} {k n : ℕ} {bs : List UInt8}
    (h : utf8Tail ok k n bs ≠ .incomplete) (y : List UInt8) :
    utf8Tail ok k n (bs ++ y) = utf8Tail ok k n bs := by
  induction k generalizing ok n bs with
  | zero => cases bs <;> rfl
  | succ k ih =>
    cases bs with
    | nil => exact absurd rfl h
    | cons b bs =>
      rw [List.cons_append]
      unfold utf8Tail at h ⊢
      split
      · rename_i hb
        rw [if_pos hb] at h
        exact ih h
      · rfl

/-- A complete sequence is not changed by what follows. -/
theorem utf8Head_append {x : List UInt8} (h : utf8Head x ≠ .incomplete) (y : List UInt8) :
    utf8Head (x ++ y) = utf8Head x := by
  cases x with
  | nil => exact absurd rfl h
  | cons b bs =>
    rw [utf8Head_cons] at h
    rw [List.cons_append, utf8Head_cons, utf8Head_cons]
    split
    · rfl
    · rename_i hw
      rw [if_neg hw] at h
      exact utf8Tail_append h y

/-- A sequence takes at least one byte and at most what is there. -/
def Utf8Head.Within (len : ℕ) : Utf8Head → Prop
  | .char n => 0 < n ∧ n ≤ len
  | .invalid n => 0 < n ∧ n ≤ len
  | .incomplete => True

theorem utf8Tail_within (ok : UInt8 → Bool) {k n : ℕ} (hn : 0 < n) (bs : List UInt8) :
    (utf8Tail ok k n bs).Within (n + bs.length) := by
  induction k generalizing ok n bs with
  | zero => exact ⟨hn, Nat.le_add_right _ _⟩
  | succ k ih =>
    cases bs with
    | nil => exact trivial
    | cons b bs =>
      unfold utf8Tail
      split
      · have h := ih isCont (Nat.succ_pos n) bs
        rwa [List.length_cons, Nat.add_comm bs.length, ← Nat.add_assoc]
      · exact ⟨hn, Nat.le_add_right _ _⟩

theorem utf8Head_within (x : List UInt8) : (utf8Head x).Within x.length := by
  cases x with
  | nil => exact trivial
  | cons b bs =>
    rw [utf8Head_cons]
    split
    · exact ⟨Nat.one_pos, by simp⟩
    · have h := utf8Tail_within (secondOk b) (k := utf8Width b - 1) Nat.one_pos bs
      rwa [List.length_cons, Nat.add_comm]

/-! ## Validation and decoding -/

/-- The first thing wrong with a byte string: how much is valid before it, and its length when it is
not a character cut off by the end. -/
structure Utf8Error where
  validUpTo : ℕ
  errorLen : Option ℕ

/-- Validation. -/
def utf8Error (x : List UInt8) : Option Utf8Error :=
  if x = [] then none
  else
    match hh : utf8Head x with
    | .char n => (utf8Error (x.drop n)).map fun e => { e with validUpTo := n + e.validUpTo }
    | .invalid n => some ⟨0, some n⟩
    | .incomplete => some ⟨0, none⟩
termination_by x.length
decreasing_by
  have h := utf8Head_within x
  rw [hh] at h
  have h : 0 < n ∧ n ≤ x.length := h
  rw [List.length_drop]
  omega

/-- The character that stands for invalid bytes. -/
def replacement : List UInt8 := [0xef, 0xbf, 0xbd]

/-- Decoding up to an incomplete end: the text, as its bytes, and how many bytes it took. -/
def utf8Scan (x : List UInt8) : List UInt8 × ℕ :=
  match hh : utf8Head x with
  | .char n =>
    let r := utf8Scan (x.drop n)
    (x.take n ++ r.1, n + r.2)
  | .invalid n =>
    let r := utf8Scan (x.drop n)
    (replacement ++ r.1, n + r.2)
  | .incomplete => ([], 0)
termination_by x.length
decreasing_by
  all_goals
    have h := utf8Head_within x
    rw [hh] at h
    have h : 0 < n ∧ n ≤ x.length := h
    rw [List.length_drop]
    omega

theorem utf8Head_char {x : List UInt8} {n : ℕ} (h : utf8Head x = .char n) :
    0 < n ∧ n ≤ x.length := by
  have hw := utf8Head_within x
  rwa [h] at hw

theorem utf8Head_invalid {x : List UInt8} {n : ℕ} (h : utf8Head x = .invalid n) :
    0 < n ∧ n ≤ x.length := by
  have hw := utf8Head_within x
  rwa [h] at hw

theorem utf8Scan_char {x : List UInt8} {n : ℕ} (h : utf8Head x = .char n) :
    utf8Scan x = (x.take n ++ (utf8Scan (x.drop n)).1, n + (utf8Scan (x.drop n)).2) := by
  rw [utf8Scan]
  split <;> simp_all

theorem utf8Scan_invalid {x : List UInt8} {n : ℕ} (h : utf8Head x = .invalid n) :
    utf8Scan x = (replacement ++ (utf8Scan (x.drop n)).1, n + (utf8Scan (x.drop n)).2) := by
  rw [utf8Scan]
  split <;> simp_all

theorem utf8Scan_incomplete {x : List UInt8} (h : utf8Head x = .incomplete) :
    utf8Scan x = ([], 0) := by
  rw [utf8Scan]
  split <;> simp_all

theorem utf8Scan_nil : utf8Scan [] = ([], 0) := utf8Scan_incomplete rfl

/-- Decoding goes on where it stopped when more bytes come. -/
theorem utf8Scan_append (x y : List UInt8) :
    utf8Scan (x ++ y) = ((utf8Scan x).1 ++ (utf8Scan (x.drop (utf8Scan x).2 ++ y)).1,
      (utf8Scan x).2 + (utf8Scan (x.drop (utf8Scan x).2 ++ y)).2) := by
  induction hl : x.length using Nat.strongRecOn generalizing x with
  | ind l ih =>
    cases hh : utf8Head x with
    | incomplete =>
      rw [utf8Scan_incomplete hh, List.drop_zero, List.nil_append, Nat.zero_add]
    | char n =>
      obtain ⟨hpos, hle⟩ := utf8Head_char hh
      have happ : utf8Head (x ++ y) = .char n := (utf8Head_append (by rw [hh]; nofun) y).trans hh
      have hrec := ih (x.drop n).length (by rw [List.length_drop]; omega) (x.drop n) rfl
      rw [utf8Scan_char hh, utf8Scan_char happ, List.take_append_of_le_length hle,
        List.drop_append_of_le_length hle, hrec]
      simp only [List.drop_drop, List.append_assoc, Nat.add_assoc]
    | invalid n =>
      obtain ⟨hpos, hle⟩ := utf8Head_invalid hh
      have happ : utf8Head (x ++ y) = .invalid n := (utf8Head_append (by rw [hh]; nofun) y).trans hh
      have hrec := ih (x.drop n).length (by rw [List.length_drop]; omega) (x.drop n) rfl
      rw [utf8Scan_invalid hh, utf8Scan_invalid happ, List.drop_append_of_le_length hle, hrec]
      simp only [List.drop_drop, List.append_assoc, Nat.add_assoc]

/-! ## Decoding by validation -/

theorem utf8Error_char {x : List UInt8} {n : ℕ} (h : utf8Head x = .char n) :
    utf8Error x = (utf8Error (x.drop n)).map fun e => { e with validUpTo := n + e.validUpTo } := by
  have hne : x ≠ [] := by
    intro hx
    rw [hx] at h
    cases h
  rw [utf8Error, if_neg hne]
  split <;> simp_all

theorem utf8Error_ascii {x : List UInt8} (h : ∀ b ∈ x, b < 0x80) : utf8Error x = none := by
  induction x with
  | nil => rw [utf8Error, if_pos rfl]
  | cons b x ih =>
    have hhead : utf8Head (b :: x) = .char 1 := by
      have hb : utf8Width b = 1 := if_pos (h b List.mem_cons_self)
      rw [utf8Head_cons, hb]
      rfl
    rw [utf8Error_char hhead, List.drop_one, List.tail_cons,
      ih fun b hb => h b (List.mem_cons_of_mem _ hb)]
    rfl

theorem utf8Error_invalid {x : List UInt8} {n : ℕ} (h : utf8Head x = .invalid n) :
    utf8Error x = some ⟨0, some n⟩ := by
  have hne : x ≠ [] := by
    intro hx
    rw [hx] at h
    cases h
  rw [utf8Error, if_neg hne]
  split <;> simp_all

theorem utf8Error_incomplete {x : List UInt8} (h : utf8Head x = .incomplete) :
    utf8Error x = if x = [] then none else some ⟨0, none⟩ := by
  rw [utf8Error]
  split
  · rfl
  · split <;> simp_all

/-- What validation finds behind a character. -/
theorem utf8Error_drop {x : List UInt8} {n : ℕ} (h : utf8Head x = .char n) {e : Utf8Error}
    (he : utf8Error x = some e) :
    ∃ v, e.validUpTo = n + v ∧ utf8Error (x.drop n) = some ⟨v, e.errorLen⟩ := by
  rw [utf8Error_char h, Option.map_eq_some_iff] at he
  obtain ⟨⟨v, len⟩, he, rfl⟩ := he
  exact ⟨v, rfl, he⟩

/-- Valid bytes are their own text. -/
theorem utf8Scan_valid {x : List UInt8} (h : utf8Error x = none) : utf8Scan x = (x, x.length) := by
  induction hl : x.length using Nat.strongRecOn generalizing x with
  | ind l ih =>
    cases hh : utf8Head x with
    | incomplete =>
      rw [utf8Error_incomplete hh] at h
      have hx : x = [] := by
        by_contra hne
        rw [if_neg hne] at h
        cases h
      rw [hx] at hl ⊢
      rw [← hl]
      exact utf8Scan_nil
    | char n =>
      obtain ⟨hpos, hle⟩ := utf8Head_char hh
      rw [utf8Error_char hh, Option.map_eq_none_iff] at h
      have hlen : (x.drop n).length = x.length - n := List.length_drop
      rw [utf8Scan_char hh, ih (x.drop n).length (by omega) h rfl, List.take_append_drop, hlen]
      congr 1
      omega
    | invalid n =>
      rw [utf8Error_invalid hh] at h
      cases h

/-- Valid bytes before a character cut off by the end. -/
theorem utf8Scan_cut {x : List UInt8} {v : ℕ} (h : utf8Error x = some ⟨v, none⟩) :
    utf8Scan x = (x.take v, v) := by
  induction hl : x.length using Nat.strongRecOn generalizing x v with
  | ind l ih =>
    cases hh : utf8Head x with
    | incomplete =>
      have hv : v = 0 := by
        rw [utf8Error_incomplete hh] at h
        split at h
        · cases h
        · cases h
          rfl
      rw [utf8Scan_incomplete hh, hv, List.take_zero]
    | char n =>
      obtain ⟨hpos, hle⟩ := utf8Head_char hh
      obtain ⟨w, rfl, hw⟩ := utf8Error_drop hh h
      rw [utf8Scan_char hh, ih (x.drop n).length (by rw [List.length_drop]; omega) hw rfl,
        List.take_add]
    | invalid n =>
      rw [utf8Error_invalid hh] at h
      cases h

/-- Valid bytes before invalid ones, which are replaced. -/
theorem utf8Scan_replaced {x : List UInt8} {v n : ℕ} (h : utf8Error x = some ⟨v, some n⟩) :
    0 < n ∧ v + n ≤ x.length ∧ utf8Scan x =
      (x.take v ++ replacement ++ (utf8Scan (x.drop (v + n))).1,
        v + n + (utf8Scan (x.drop (v + n))).2) := by
  induction hl : x.length using Nat.strongRecOn generalizing x v with
  | ind l ih =>
    cases hh : utf8Head x with
    | incomplete =>
      rw [utf8Error_incomplete hh] at h
      split at h <;> cases h
    | char m =>
      obtain ⟨hpos, hle⟩ := utf8Head_char hh
      obtain ⟨w, rfl, hw⟩ := utf8Error_drop hh h
      have hlen : (x.drop m).length = x.length - m := List.length_drop
      obtain ⟨hn, hwn, hscan⟩ := ih (x.drop m).length (by omega) hw rfl
      refine ⟨hn, by omega, ?_⟩
      rw [utf8Scan_char hh, hscan, List.take_add, List.drop_drop, Nat.add_assoc m w n]
      simp only [List.append_assoc, Nat.add_assoc]
    | invalid m =>
      obtain ⟨hpos, hle⟩ := utf8Head_invalid hh
      rw [utf8Error_invalid hh] at h
      cases h
      refine ⟨hpos, by omega, ?_⟩
      rw [utf8Scan_invalid hh, List.take_zero, List.nil_append, Nat.zero_add]

end Lib
