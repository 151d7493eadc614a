import Mathlib

/-!
# Trimming and stripping text

Text as lists of characters: `trim` and `trimStart` take off white space (Unicode's `White_Space`),
`stripNlPrefix` and `stripNlSuffix` one newline, and `parseUint` reads a number. The lemmas say when there
is nothing to take off and what a text put between white space trims back to.
-/

namespace Lib

/-- The characters of Unicode's `White_Space`. -/
def isWhitespace (c : Char) : Bool :=
  let n := c.toNat
  (0x09 ≤ n && n ≤ 0x0d) || n == 0x20 || n == 0x85 || n == 0xa0 || n == 0x1680 ||
    (0x2000 ≤ n && n ≤ 0x200a) || n == 0x2028 || n == 0x2029 || n == 0x202f || n == 0x205f ||
    n == 0x3000

/-- The text without the white space it begins with. -/
def trimStart (s : List Char) : List Char := s.dropWhile isWhitespace

/-- The text without the white space around it. -/
def trim (s : List Char) : List Char := ((trimStart s).reverse.dropWhile isWhitespace).reverse

/-- The text without the newline it may begin with. -/
def stripNlPrefix (s : List Char) : List Char := (s.dropPrefix? ['\n']).getD s

/-- The text without the newline it may end with. -/
def stripNlSuffix (s : List Char) : List Char := (s.dropSuffix? ['\n']).getD s

/-- `parse` of an unsigned number of `w` bits. -/
def parseUint (w : ℕ) (s : List Char) : Option ℕ :=
  let digits := match s with
    | '+' :: rest => rest
    | _ => s
  if !digits.isEmpty && digits.all Char.isDigit then
    let n := digits.foldl (fun n c => 10 * n + (c.toNat - 48)) 0
    if n < 2 ^ w then some n else none
  else none

/-! ## Prefixes and suffixes -/

section
variable {α : Type} [BEq α] [LawfulBEq α]

theorem dropPrefix?_some {p s r : List α} (h : s.dropPrefix? p = some r) : s = p ++ r := by
  obtain ⟨p', rfl, hp⟩ := List.dropPrefix?_eq_some_iff.1 h
  rw [beq_iff_eq.1 hp]

theorem dropPrefix?_append (p r : List α) : (p ++ r).dropPrefix? p = some r :=
  List.dropPrefix?_eq_some_iff.2 ⟨p, rfl, beq_self_eq_true p⟩

theorem dropSuffix?_some {p s r : List α} (h : s.dropSuffix? p = some r) : s = r ++ p := by
  obtain ⟨p', rfl, hp⟩ := List.dropSuffix?_eq_some_iff.1 h
  rw [beq_iff_eq.1 hp]

theorem dropSuffix?_append (r p : List α) : (r ++ p).dropSuffix? p = some r :=
  List.dropSuffix?_eq_some_iff.2 ⟨p, rfl, beq_self_eq_true p⟩

omit [BEq α] [LawfulBEq α] in
/-- Two suffixes of a text end alike. -/
theorem getLast?_suffix {a b s : List α} (ha : a <:+ s) (hb : b <:+ s) (ha0 : a ≠ []) (hb0 : b ≠ []) :
    a.getLast? = b.getLast? := by
  obtain ⟨x, rfl⟩ := ha
  obtain ⟨y, hy⟩ := hb
  rw [← List.getLast?_append_of_ne_nil x ha0, ← hy, List.getLast?_append_of_ne_nil y hb0]

end

/-! ## White space -/

theorem trimStart_length_le (s : List Char) : (trimStart s).length ≤ s.length :=
  (List.dropWhile_sublist _).length_le

theorem trimStart_cons {c : Char} (hc : isWhitespace c = true) (s : List Char) :
    trimStart (c :: s) = trimStart s :=
  List.dropWhile_cons_of_pos hc

theorem trimStart_of_head {s : List Char} (h : ∀ c ∈ s.head?, isWhitespace c = false) :
    trimStart s = s := by
  cases s with
  | nil => rfl
  | cons c s =>
    have hc : ¬ isWhitespace c = true := by simpa using h c rfl
    exact List.dropWhile_cons_of_neg hc

theorem trim_isInfix (s : List Char) : trim s <:+: s := by
  have h1 : trimStart s <:+ s := List.dropWhile_suffix _
  have h2 : trim s <+: trimStart s := by
    rw [← List.reverse_suffix]
    unfold trim
    rw [List.reverse_reverse]
    exact List.dropWhile_suffix _
  exact h2.isInfix.trans h1.isInfix

/-- A text between two characters of white space that neither begins nor ends with any. -/
theorem trim_between {c d : Char} (hc : isWhitespace c = true) (hd : isWhitespace d = true)
    {s : List Char} (hne : s ≠ []) (hhead : ∀ c ∈ s.head?, isWhitespace c = false)
    (hlast : ∀ c ∈ s.getLast?, isWhitespace c = false) : trim (c :: (s ++ [d])) = s := by
  have hstart : trimStart (s ++ [d]) = s ++ [d] := by
    apply trimStart_of_head
    rwa [List.head?_append_of_ne_nil _ hne]
  have hend : trimStart s.reverse = s.reverse := by
    apply trimStart_of_head
    rwa [List.head?_reverse]
  unfold trim
  rw [trimStart_cons hc, hstart, List.reverse_append, List.reverse_singleton,
    List.singleton_append]
  have h : List.dropWhile isWhitespace (d :: s.reverse) = s.reverse :=
    (trimStart_cons hd s.reverse).trans hend
  rw [h, List.reverse_reverse]

/-! ## Newlines -/

/-- White space behind a text without any. -/
theorem trim_append {t w : List Char} (ht : ∀ c ∈ t, isWhitespace c = false)
    (hw : ∀ c ∈ w, isWhitespace c = true) : trim (t ++ w) = t := by
  have hback : (t ++ w).reverse.dropWhile isWhitespace = t.reverse := by
    rw [List.reverse_append, List.dropWhile_append_of_pos fun c hc => hw c (List.mem_reverse.1 hc)]
    exact trimStart_of_head fun c hc => ht c (List.mem_reverse.1 (List.mem_of_mem_head? hc))
  unfold trim
  cases t with
  | nil =>
    have hnil : trimStart ([] ++ w) = [] := by
      rw [List.nil_append]
      exact List.dropWhile_eq_nil_iff.2 hw
    rw [hnil]
    rfl
  | cons c t =>
    rw [trimStart_of_head fun d hd => by
      rw [← Option.some.inj hd]
      exact ht c List.mem_cons_self, hback, List.reverse_reverse]

/-- White space around a text that neither begins nor ends with any. -/
theorem trim_around {w s w' : List Char} (hw : ∀ c ∈ w, isWhitespace c = true)
    (hw' : ∀ c ∈ w', isWhitespace c = true) (hne : s ≠ [])
    (hhead : ∀ c ∈ s.head?, isWhitespace c = false)
    (hlast : ∀ c ∈ s.getLast?, isWhitespace c = false) : trim (w ++ (s ++ w')) = s := by
  have hfront : trimStart (w ++ (s ++ w')) = s ++ w' := by
    unfold trimStart
    rw [List.dropWhile_append_of_pos hw]
    apply trimStart_of_head
    rwa [List.head?_append_of_ne_nil _ hne]
  have hback : s.reverse.dropWhile isWhitespace = s.reverse :=
    trimStart_of_head (by rwa [List.head?_reverse])
  unfold trim
  rw [hfront, List.reverse_append,
    List.dropWhile_append_of_pos fun c hc => hw' c (List.mem_reverse.1 hc), hback, List.reverse_reverse]

theorem stripNlPrefix_length_le (s : List Char) : (stripNlPrefix s).length ≤ s.length := by
  unfold stripNlPrefix
  cases h : s.dropPrefix? ['\n'] with
  | none => exact Nat.le_refl _
  | some r =>
    rw [dropPrefix?_some h]
    simp

theorem stripNlPrefix_newline (s : List Char) : stripNlPrefix ('\n' :: s) = s := by
  have h : ('\n' :: s).dropPrefix? ['\n'] = some s := dropPrefix?_append ['\n'] s
  unfold stripNlPrefix
  rw [h]
  rfl

theorem stripNlSuffix_newline (s : List Char) : stripNlSuffix (s ++ ['\n']) = s := by
  unfold stripNlSuffix
  rw [dropSuffix?_append]
  rfl

theorem stripNlSuffix_of_ne {s : List Char} (h : s.getLast? ≠ some '\n') :
    stripNlSuffix s = s := by
  unfold stripNlSuffix
  cases hd : s.dropSuffix? ['\n'] with
  | none => rfl
  | some t =>
    obtain ⟨nl, rfl, hnl⟩ := List.dropSuffix?_eq_some_iff.1 hd
    rw [beq_iff_eq.1 hnl] at h
    simp at h

/-- The newline at the end of a text is one of its end, or its end is empty. -/
theorem stripNlSuffix_append {e w : List Char} (h : e.getLast? ≠ some '\n' ∨ w ≠ []) :
    stripNlSuffix (e ++ w) = e ++ stripNlSuffix w := by
  rcases List.eq_nil_or_concat w with rfl | ⟨init, c, rfl⟩
  · have hne : e.getLast? ≠ some '\n' := h.resolve_right (fun hw => hw rfl)
    have hnil : stripNlSuffix [] = [] := stripNlSuffix_of_ne nofun
    rw [hnil, List.append_nil, stripNlSuffix_of_ne hne]
  · rw [List.concat_eq_append, ← List.append_assoc]
    by_cases hc : c = '\n'
    · rw [hc, stripNlSuffix_newline, stripNlSuffix_newline]
    · rw [stripNlSuffix_of_ne (by simpa using hc), stripNlSuffix_of_ne (by simpa using hc),
        List.append_assoc]

end Lib
