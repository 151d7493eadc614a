import Mathlib

/-!
# Backtracking regular expressions

Expressions over classes of symbols, as a backtracking engine tries them: `rests r xs` are what the
matches of `r` at the front of `xs` leave, in the order of preference (the left alternative first, an
optional part first with and then without it, a repetition longest first). `first` is the match that
the engine takes; `findAll` are the successive matches of a text, `split` the matches together with the
gaps between them. The `first_` lemmas take an expression apart; those of a repetition behind which the
engine backtracks, `first_star_seq_cons` and below, go symbol by symbol.
-/

namespace Lib

inductive Regex (α : Type)
  /-- one symbol of a class -/
  | one (p : α → Bool)
  /-- as many symbols of a class as possible -/
  | star (p : α → Bool)
  | seq (r s : Regex α)
  | alt (r s : Regex α)
  | opt (r : Regex α)
  /-- the end of the text, or a symbol that is not of the class, is ahead -/
  | notAhead (p : α → Bool)

namespace Regex

variable {α : Type}

/-- One or more symbols of a class. -/
def plus (p : α → Bool) : Regex α := .seq (.one p) (.star p)

/-- The alternatives of a list, leftmost first. -/
def alts : List (Regex α) → Regex α
  | [] => .one fun _ => false
  | r :: rs => .alt r (alts rs)

/-- What a repetition leaves, longest first. -/
def starRests (p : α → Bool) : List α → List (List α)
  | [] => [[]]
  | x :: xs => if p x then starRests p xs ++ [x :: xs] else [x :: xs]

/-- What the matches leave, in the order in which they are tried. -/
def rests : Regex α → List α → List (List α)
  | one p, xs =>
    match xs with
    | [] => []
    | x :: xs => if p x then [xs] else []
  | star p, xs => starRests p xs
  | seq r s, xs => (r.rests xs).flatMap s.rests
  | alt r s, xs => r.rests xs ++ s.rests xs
  | opt r, xs => r.rests xs ++ [xs]
  | notAhead p, xs => if xs.head?.any p then [] else [xs]

/-- What the match that is taken leaves. -/
def first (r : Regex α) (xs : List α) : Option (List α) := (r.rests xs).head?

/-- The match at the front of a text, and what it leaves; an empty match is none. -/
def match? (r : Regex α) (xs : List α) : Option (List α × List α) :=
  (r.first xs).bind fun rest =>
    if rest.length < xs.length then some (xs.take (xs.length - rest.length), rest) else none

theorem match?_length {r : Regex α} {xs word rest : List α} (h : r.match? xs = some (word, rest)) :
    rest.length < xs.length := by
  unfold match? at h
  obtain ⟨rest', -, h'⟩ := Option.bind_eq_some_iff.1 h
  split at h'
  · rename_i hlt
    obtain ⟨-, rfl⟩ := Prod.mk.inj (Option.some.inj h')
    exact hlt
  · cases h'

/-- The successive matches of a text. -/
def findAll (r : Regex α) (xs : List α) : List (List α) :=
  match xs with
  | [] => []
  | x :: tail =>
    match _h : r.match? (x :: tail) with
    | some (word, rest) => word :: findAll r rest
    | none => findAll r tail
termination_by xs.length
decreasing_by
  · exact match?_length _h
  · exact Nat.lt_succ_self _

/-- A gap, unless it is empty. -/
def gapWord (gap : List α) : List (List α) := if gap = [] then [] else [gap]

/-- The successive matches and the gaps before, between and behind them; `gap` is open. -/
def splitFrom (r : Regex α) (gap xs : List α) : List (List α) :=
  match xs with
  | [] => gapWord gap
  | x :: tail =>
    match _h : r.match? (x :: tail) with
    | some (word, rest) => gapWord gap ++ word :: splitFrom r [] rest
    | none => splitFrom r (gap ++ [x]) tail
termination_by xs.length
decreasing_by
  · exact match?_length _h
  · exact Nat.lt_succ_self _

def split (r : Regex α) (xs : List α) : List (List α) := splitFrom r [] xs

/-! ## What is tried first -/

section
variable {p q : α → Bool} {r s : Regex α} {x : α} {xs : List α}

theorem first_one_nil : (one p).first [] = none := rfl

theorem first_one_cons : (one p).first (x :: xs) = if p x then some xs else none := by
  unfold first rests
  dsimp only
  split <;> rfl

theorem first_seq : (seq r s).first xs = (r.rests xs).findSome? s.first := List.head?_flatMap

theorem first_alt : (alt r s).first xs = (r.first xs).or (s.first xs) := List.head?_append

theorem first_alts_nil (xs : List α) : (alts []).first xs = none := by
  cases xs <;> rfl

theorem first_alts (rs : List (Regex α)) (xs : List α) :
    (alts rs).first xs = rs.findSome? fun r => r.first xs := by
  induction rs with
  | nil => exact first_alts_nil xs
  | cons r rs ih =>
    rw [alts, first_alt, ih, List.findSome?_cons]
    cases r.first xs <;> rfl

theorem first_seq_one_cons :
    (seq (one p) s).first (x :: xs) = if p x then s.first xs else none := by
  rw [first_seq]
  unfold rests
  dsimp only
  split
  · exact List.findSome?_singleton
  · rfl

theorem first_seq_one_nil : (seq (one p) s).first [] = none := rfl

/-- Alternatives that begin with one symbol of the same class. -/
theorem first_alts_seq_one_cons (rs : List (Regex α)) :
    (alts (rs.map (seq (one p)))).first (x :: xs) = if p x then (alts rs).first xs else none := by
  induction rs with
  | nil =>
    rw [first_alts_nil, ite_self]
    rfl
  | cons r rs ih =>
    rw [List.map_cons, alts, alts, first_alt, first_alt, ih, first_seq_one_cons]
    split <;> rfl

theorem first_opt : (opt r).first xs = (r.first xs).or (some xs) := List.head?_append

theorem first_seq_opt_cons :
    (seq (opt (one p)) s).first (x :: xs) =
      if p x then (s.first xs).or (s.first (x :: xs)) else s.first (x :: xs) := by
  rw [first_seq]
  unfold rests
  rw [List.findSome?_append, List.findSome?_singleton]
  unfold rests
  dsimp only
  split
  · rw [List.findSome?_singleton]
  · rfl

theorem first_star_cons :
    (star p).first (x :: xs) =
      if p x then ((star p).first xs).or (some (x :: xs)) else some (x :: xs) := by
  change (starRests p (x :: xs)).head? = _
  rw [starRests]
  split
  · exact List.head?_append
  · rfl

theorem first_star : (star p).first xs = some (xs.dropWhile p) := by
  induction xs with
  | nil => rfl
  | cons x xs ih =>
    by_cases hx : p x = true
    · rw [first_star_cons, if_pos hx, ih, List.dropWhile_cons_of_pos hx]
      rfl
    · rw [first_star_cons, if_neg hx, List.dropWhile_cons_of_neg hx]

theorem first_plus_nil : (plus p).first [] = none := rfl

theorem first_plus_cons :
    (plus p).first (x :: xs) = if p x then some (xs.dropWhile p) else none := by
  rw [plus, first_seq_one_cons, first_star]

theorem first_plus (p : α → Bool) (xs : List α) :
    (plus p).first xs = if xs.head?.any p then some (xs.dropWhile p) else none := by
  cases xs with
  | nil => rfl
  | cons x xs =>
    rw [first_plus_cons, List.head?_cons, Option.any_some]
    split
    · rename_i hx
      rw [List.dropWhile_cons_of_pos hx]
    · rfl

/-- Nothing is given back to a part that always matches. -/
theorem first_seq_of_isSome (hs : ∀ xs, (s.first xs).isSome) :
    (seq r s).first xs = (r.first xs).bind s.first := by
  rw [first_seq, first]
  cases r.rests xs with
  | nil => rfl
  | cons y ys =>
    obtain ⟨z, hz⟩ := Option.isSome_iff_exists.1 (hs y)
    rw [List.findSome?_cons, hz]
    exact hz.symm

theorem first_seq_star : (seq r (star q)).first xs = (r.first xs).map (·.dropWhile q) := by
  rw [first_seq_of_isSome fun xs => by rw [first_star]; rfl]
  cases r.first xs with
  | none => rfl
  | some rest => exact first_star

theorem first_seq_assoc {t : Regex α} : (seq (seq r s) t).first xs = (seq r (seq s t)).first xs := by
  change (((r.rests xs).flatMap s.rests).flatMap t.rests).head? = _
  rw [List.flatMap_assoc]
  rfl

theorem first_notAhead_nil : (notAhead p).first [] = some [] := rfl

theorem first_notAhead_cons :
    (notAhead p).first (x :: xs) = if p x then none else some (x :: xs) := by
  unfold first rests
  rw [List.head?_cons, Option.any_some]
  split <;> rfl

/-! ## Giving symbols back -/

theorem first_star_seq_nil : (seq (star p) s).first [] = s.first [] := by
  rw [first_seq]
  exact List.findSome?_singleton

theorem first_star_seq_cons :
    (seq (star p) s).first (x :: xs) =
      if p x then ((seq (star p) s).first xs).or (s.first (x :: xs)) else s.first (x :: xs) := by
  rw [first_seq, first_seq]
  change (starRests p (x :: xs)).findSome? s.first = if p x then
    ((starRests p xs).findSome? s.first).or (s.first (x :: xs)) else s.first (x :: xs)
  rw [starRests]
  split
  · rw [List.findSome?_append, List.findSome?_singleton]
  · exact List.findSome?_singleton

/-- `p*(?!x)`, for the `x` that are not of the class: one symbol is given back unless the text ends. -/
theorem first_star_notAhead : (seq (star p) (notAhead fun x => !p x)).first xs =
    if xs.dropWhile p = [] then some []
    else if xs.takeWhile p = [] then none
    else some (xs.drop ((xs.takeWhile p).length - 1)) := by
  induction xs with
  | nil => rfl
  | cons x xs ih =>
    rw [first_star_seq_cons, first_notAhead_cons]
    by_cases hx : p x = true
    · rw [if_pos hx, ih, List.dropWhile_cons_of_pos hx, List.takeWhile_cons_of_pos hx, hx,
        if_neg (List.cons_ne_nil _ _)]
      split
      · rfl
      · split
        · rename_i htake
          rw [htake]
          rfl
        · rename_i htake
          obtain ⟨n, hn⟩ := Nat.exists_eq_succ_of_ne_zero
            fun h => htake (List.eq_nil_of_length_eq_zero h)
          rw [List.length_cons, hn]
          rfl
    · rw [if_neg hx, List.dropWhile_cons_of_neg hx, List.takeWhile_cons_of_neg hx,
        if_neg (List.cons_ne_nil _ _), if_pos rfl]
      simp [hx]

end

/-! ## Words -/

theorem rests_suffix (r : Regex α) {xs rest : List α} (h : rest ∈ r.rests xs) : rest <:+ xs := by
  induction r generalizing xs rest with
  | one p =>
    unfold rests at h
    cases xs with
    | nil => cases h
    | cons x xs =>
      dsimp only at h
      split at h
      · rw [List.mem_singleton.1 h]
        exact List.suffix_cons _ _
      · cases h
  | star p =>
    unfold rests at h
    induction xs with
    | nil =>
      rw [List.mem_singleton.1 h]
    | cons x xs ih =>
      unfold starRests at h
      split at h
      · rcases List.mem_append.1 h with h | h
        · exact (ih h).trans (List.suffix_cons _ _)
        · rw [List.mem_singleton.1 h]
      · rw [List.mem_singleton.1 h]
  | seq r s ihr ihs =>
    unfold rests at h
    obtain ⟨mid, hmid, hrest⟩ := List.mem_flatMap.1 h
    exact (ihs hrest).trans (ihr hmid)
  | alt r s ihr ihs =>
    unfold rests at h
    rcases List.mem_append.1 h with h | h
    · exact ihr h
    · exact ihs h
  | opt r ihr =>
    unfold rests at h
    rcases List.mem_append.1 h with h | h
    · exact ihr h
    · rw [List.mem_singleton.1 h]
  | notAhead p =>
    unfold rests at h
    split at h
    · cases h
    · rw [List.mem_singleton.1 h]

/-- A match is what stands in front of its rest. -/
theorem match?_append {r : Regex α} {xs word rest : List α} (h : r.match? xs = some (word, rest)) :
    word ++ rest = xs := by
  unfold match? at h
  obtain ⟨rest', hfirst, h'⟩ := Option.bind_eq_some_iff.1 h
  split at h'
  · obtain ⟨rfl, rfl⟩ := Prod.mk.inj (Option.some.inj h')
    obtain ⟨word, rfl⟩ := r.rests_suffix (List.mem_of_mem_head? hfirst)
    rw [List.length_append, Nat.add_sub_cancel, List.take_left]
  · cases h'

theorem match?_of_first {r : Regex α} {xs rest : List α} (h : r.first xs = some rest)
    (hlt : rest.length < xs.length) :
    r.match? xs = some (xs.take (xs.length - rest.length), rest) := by
  unfold match?
  rw [h, Option.bind_some, if_pos hlt]

theorem match?_of_first_none {r : Regex α} {xs : List α} (h : r.first xs = none) :
    r.match? xs = none := by
  unfold match?
  rw [h]
  rfl

theorem findAll_nil (r : Regex α) : r.findAll [] = [] := by
  rw [findAll]

theorem findAll_of_match {r : Regex α} {xs word rest : List α}
    (h : r.match? xs = some (word, rest)) : r.findAll xs = word :: r.findAll rest := by
  cases xs with
  | nil => exact absurd (match?_length h) (Nat.not_lt_zero _)
  | cons x tail =>
    rw [findAll]
    split
    · rename_i word' rest' h'
      obtain ⟨rfl, rfl⟩ := Prod.mk.inj (Option.some.inj (h.symm.trans h'))
      rfl
    · rename_i h'
      rw [h] at h'
      cases h'

theorem match?_ne_nil {r : Regex α} {xs word rest : List α} (h : r.match? xs = some (word, rest)) :
    word ≠ [] := by
  rintro rfl
  have hlt := match?_length h
  rw [← match?_append h, List.nil_append] at hlt
  exact Nat.lt_irrefl _ hlt

theorem ne_nil_of_mem_findAll {r : Regex α} {xs word : List α} (h : word ∈ r.findAll xs) :
    word ≠ [] := by
  fun_induction findAll r xs with
  | case1 => cases h
  | case2 x tail word' rest hm ih =>
    rcases List.mem_cons.1 h with rfl | h
    · exact match?_ne_nil hm
    · exact ih h
  | case3 x tail hm ih => exact ih h

/-- The matches of an expression that matches everywhere leave nothing out. -/
theorem findAll_flatten {r : Regex α} (hr : ∀ x tail, (r.match? (x :: tail)).isSome)
    (xs : List α) : (r.findAll xs).flatten = xs := by
  fun_induction findAll r xs with
  | case1 => rfl
  | case2 x tail word rest hm ih => rw [List.flatten_cons, ih, match?_append hm]
  | case3 x tail hm ih =>
    have hsome := hr x tail
    rw [hm] at hsome
    cases hsome

theorem splitFrom_nil (r : Regex α) (gap : List α) : r.splitFrom gap [] = gapWord gap := by
  rw [splitFrom]

theorem splitFrom_of_match {r : Regex α} {gap xs word rest : List α}
    (h : r.match? xs = some (word, rest)) :
    r.splitFrom gap xs = gapWord gap ++ word :: r.splitFrom [] rest := by
  cases xs with
  | nil => exact absurd (match?_length h) (Nat.not_lt_zero _)
  | cons x tail =>
    rw [splitFrom]
    split
    · rename_i word' rest' h'
      obtain ⟨rfl, rfl⟩ := Prod.mk.inj (Option.some.inj (h.symm.trans h'))
      rfl
    · rename_i h'
      rw [h] at h'
      cases h'

theorem splitFrom_of_none {r : Regex α} {gap tail : List α} {x : α}
    (h : r.match? (x :: tail) = none) :
    r.splitFrom gap (x :: tail) = r.splitFrom (gap ++ [x]) tail := by
  rw [splitFrom]
  split
  · rename_i word' rest' h'
    rw [h] at h'
    cases h'
  · rfl

theorem gapWord_flatten (gap : List α) : (gapWord gap).flatten = gap := by
  unfold gapWord
  split
  · rename_i h
    rw [h]
    rfl
  · exact List.flatten_singleton

theorem ne_nil_of_mem_gapWord {gap word : List α} (h : word ∈ gapWord gap) : word ≠ [] := by
  unfold gapWord at h
  split at h
  · cases h
  · rename_i hgap
    rw [List.mem_singleton.1 h]
    exact hgap

theorem ne_nil_of_mem_splitFrom {r : Regex α} {gap xs word : List α}
    (h : word ∈ r.splitFrom gap xs) : word ≠ [] := by
  fun_induction splitFrom r gap xs with
  | case1 gap => exact ne_nil_of_mem_gapWord h
  | case2 gap x tail word' rest hm ih =>
    rcases List.mem_append.1 h with h | h
    · exact ne_nil_of_mem_gapWord h
    · rcases List.mem_cons.1 h with rfl | h
      · exact match?_ne_nil hm
      · exact ih h
  | case3 gap x tail hm ih => exact ih h

/-- **A split loses nothing.** -/
theorem splitFrom_flatten (r : Regex α) (gap xs : List α) :
    (r.splitFrom gap xs).flatten = gap ++ xs := by
  fun_induction splitFrom r gap xs with
  | case1 gap => rw [gapWord_flatten, List.append_nil]
  | case2 gap x tail word rest h ih =>
    rw [List.flatten_append, gapWord_flatten, List.flatten_cons, ih, List.nil_append,
      match?_append h]
  | case3 gap x tail h ih => rw [ih, List.append_assoc, List.singleton_append]

end Regex

end Lib
