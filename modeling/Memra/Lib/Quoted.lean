import Mathlib

/-!
# Strings and brackets, seen by a scanner

A scanner that copies a string or a block of brackets out of a text looks at the quotes, at what stands
behind an escape, and at one kind of bracket. `Inside` is what it passes between two quotes, `Within` what
it passes inside a block, from one depth to another and never out of the block. Every text goes on from
such a piece in one of few ways (`inside_cases`, `within_cases`); what leaves every depth as it is
(`Neutral`) is closed under the ways in which texts are put together.
-/

namespace Lib

variable {β : Type} (q e o c : β)

/-- What stands between the quotes of a string. -/
inductive Inside : List β → Prop
  | nil : Inside []
  | plain {x : β} {t : List β} (hq : x ≠ q) (he : x ≠ e) (h : Inside t) : Inside (x :: t)
  | escaped {x : β} {t : List β} (h : Inside t) : Inside (e :: x :: t)

/-- What stands inside a block, from one depth to another. -/
inductive Within : ℕ → List β → ℕ → Prop
  | nil (d : ℕ) : Within d [] d
  | plain {x : β} {t : List β} {d d' : ℕ} (hq : x ≠ q) (ho : x ≠ o) (hc : x ≠ c)
    (h : Within d t d') : Within d (x :: t) d'
  | string {u t : List β} {d d' : ℕ} (hu : Inside q e u) (h : Within d t d') :
    Within d (q :: (u ++ q :: t)) d'
  | opens {t : List β} {d d' : ℕ} (h : Within (d + 1) t d') : Within d (o :: t) d'
  | closes {t : List β} {d d' : ℕ} (h : Within (d + 1) t d') : Within (d + 2) (c :: t) d'

variable {q e o c}

theorem Inside.append {t u : List β} (ht : Inside q e t) (hu : Inside q e u) :
    Inside q e (t ++ u) := by
  induction ht with
  | nil => exact hu
  | plain hq he _ ih => exact .plain hq he ih
  | escaped _ ih => exact .escaped ih

theorem Inside.of_plain {t : List β} (h : ∀ x ∈ t, x ≠ q ∧ x ≠ e) : Inside q e t := by
  induction t with
  | nil => exact .nil
  | cons x t ih =>
    obtain ⟨hx, ht⟩ := List.forall_mem_cons.1 h
    exact .plain hx.1 hx.2 (ih ht)

theorem Within.append {t u : List β} {d d' d'' : ℕ} (ht : Within q e o c d t d')
    (hu : Within q e o c d' u d'') : Within q e o c d (t ++ u) d'' := by
  induction ht with
  | nil => exact hu
  | plain hq ho hc _ ih => exact .plain hq ho hc (ih hu)
  | @string s t d d' hs _ ih =>
    rw [List.cons_append, List.append_assoc, List.cons_append]
    exact .string hs (ih hu)
  | opens _ ih => exact .opens (ih hu)
  | closes _ ih => exact .closes (ih hu)

theorem Within.pos {t : List β} {d d' : ℕ} (h : Within q e o c d t d') (hd : 0 < d) : 0 < d' := by
  induction h with
  | nil => exact hd
  | plain _ _ _ _ ih => exact ih hd
  | string _ _ ih => exact ih hd
  | opens _ ih => exact ih (Nat.succ_pos _)
  | closes _ ih => exact ih (Nat.succ_pos _)

/-! ## How a text goes on -/

/-- A string ends with its quote, or the text ends in it: between two of its characters, or right behind
an escape. -/
theorem inside_cases (q e : β) (l : List β) :
    ∃ u, Inside q e u ∧ ((∃ rest, l = u ++ q :: rest) ∨ l = u ∨ l = u ++ [e]) := by
  induction l using List.twoStepInduction with
  | nil => exact ⟨[], .nil, .inr (.inl rfl)⟩
  | singleton x =>
    by_cases hq : x = q
    · exact ⟨[], .nil, .inl ⟨[], by rw [hq, List.nil_append]⟩⟩
    · by_cases he : x = e
      · exact ⟨[], .nil, .inr (.inr (by rw [he, List.nil_append]))⟩
      · exact ⟨[x], .plain hq he .nil, .inr (.inl rfl)⟩
  | cons_cons x y l ih ih' =>
    by_cases hq : x = q
    · exact ⟨[], .nil, .inl ⟨y :: l, by rw [hq, List.nil_append]⟩⟩
    · by_cases he : x = e
      · obtain ⟨u, hu, hl⟩ := ih
        subst he
        refine ⟨x :: y :: u, .escaped hu, ?_⟩
        rcases hl with ⟨rest, rfl⟩ | rfl | rfl
        · exact .inl ⟨rest, rfl⟩
        · exact .inr (.inl rfl)
        · exact .inr (.inr rfl)
      · obtain ⟨u, hu, hl⟩ := ih' y
        refine ⟨x :: u, .plain hq he hu, ?_⟩
        rcases hl with ⟨rest, hl⟩ | hl | hl
        · exact .inl ⟨rest, by rw [hl, List.cons_append]⟩
        · exact .inr (.inl (by rw [hl]))
        · exact .inr (.inr (by rw [hl, List.cons_append]))

/-- How a text goes on behind `t`, at depth `d'` of a block: the bracket that closes the block, nothing,
or a string that does not end. -/
def Goes (q e c : β) (l t : List β) (d' : ℕ) : Prop :=
  (d' = 1 ∧ ∃ rest, l = t ++ c :: rest) ∨ l = t ∨
    ∃ u, Inside q e u ∧ (l = t ++ q :: u ∨ l = t ++ q :: (u ++ [e]))

theorem Goes.prepend {l t : List β} {d' : ℕ} (h : Goes q e c l t d') (s : List β) :
    Goes q e c (s ++ l) (s ++ t) d' := by
  rcases h with ⟨hd, rest, rfl⟩ | rfl | ⟨u, hu, rfl | rfl⟩
  · exact .inl ⟨hd, rest, (List.append_assoc _ _ _).symm⟩
  · exact .inr (.inl rfl)
  · exact .inr (.inr ⟨u, hu, .inl (List.append_assoc _ _ _).symm⟩)
  · exact .inr (.inr ⟨u, hu, .inr (List.append_assoc _ _ _).symm⟩)

theorem within_cases (q e o c : β) (l : List β) {d : ℕ} (hd : 0 < d) :
    ∃ t d', Within q e o c d t d' ∧ Goes q e c l t d' := by
  induction hlen : l.length using Nat.strong_induction_on generalizing l d with
  | _ n ih =>
    cases l with
    | nil => exact ⟨[], d, .nil d, .inr (.inl rfl)⟩
    | cons x l =>
      have hlt : l.length < n := by
        rw [← hlen, List.length_cons]
        exact Nat.lt_succ_self _
      by_cases hq : x = q
      · subst hq
        obtain ⟨u, hu, ⟨rest, rfl⟩ | rfl | rfl⟩ := inside_cases x e l
        · have hrest : rest.length < n := by
            rw [List.length_append, List.length_cons] at hlt
            omega
          obtain ⟨t, d', ht, hgo⟩ := ih _ hrest rest hd rfl
          refine ⟨x :: (u ++ x :: t), d', .string hu ht, ?_⟩
          have := hgo.prepend (x :: (u ++ [x]))
          rwa [List.cons_append, List.cons_append, List.append_assoc, List.append_assoc] at this
        · exact ⟨[], d, .nil d, .inr (.inr ⟨_, hu, .inl rfl⟩)⟩
        · exact ⟨[], d, .nil d, .inr (.inr ⟨_, hu, .inr rfl⟩)⟩
      · by_cases ho : x = o
        · obtain ⟨t, d', ht, hgo⟩ := ih _ hlt l (Nat.succ_pos d) rfl
          subst ho
          exact ⟨x :: t, d', .opens ht, hgo.prepend [x]⟩
        · by_cases hc : x = c
          · subst hc
            obtain rfl | ⟨k, rfl⟩ : d = 1 ∨ ∃ k, d = k + 2 := by
              rcases d with _ | _ | k
              · cases hd
              · exact .inl rfl
              · exact .inr ⟨k, rfl⟩
            · exact ⟨[], 1, .nil 1, .inl ⟨rfl, l, rfl⟩⟩
            · obtain ⟨t, d', ht, hgo⟩ := ih _ hlt l (Nat.succ_pos k) rfl
              exact ⟨x :: t, d', .closes ht, hgo.prepend [x]⟩
          · obtain ⟨t, d', ht, hgo⟩ := ih _ hlt l hd rfl
            exact ⟨x :: t, d', .plain hq ho hc ht, hgo.prepend [x]⟩

/-! ## Texts that keep the depth -/

variable (q e o c) in
/-- A text that leaves every depth as it is. -/
def Neutral (t : List β) : Prop := ∀ d, Within q e o c (d + 1) t (d + 1)

namespace Neutral

theorem nil : Neutral q e o c [] := fun d => .nil (d + 1)

theorem append {t u : List β} (ht : Neutral q e o c t) (hu : Neutral q e o c u) :
    Neutral q e o c (t ++ u) :=
  fun d => (ht d).append (hu d)

theorem of_plain {t : List β} (h : ∀ x ∈ t, x ≠ q ∧ x ≠ o ∧ x ≠ c) : Neutral q e o c t := by
  induction t with
  | nil => exact .nil
  | cons x t ih =>
    obtain ⟨hx, ht⟩ := List.forall_mem_cons.1 h
    exact fun d => .plain hx.1 hx.2.1 hx.2.2 (ih ht d)

theorem string {u : List β} (hu : Inside q e u) : Neutral q e o c (q :: (u ++ [q])) :=
  fun d => .string hu (.nil (d + 1))

/-- A block in a block. -/
theorem block {t : List β} (h : Neutral q e o c t) : Neutral q e o c (o :: (t ++ [c])) :=
  fun d => .opens ((h (d + 1)).append (.closes (.nil (d + 1))))

theorem intercalate {s : List β} (hs : Neutral q e o c s) {ts : List (List β)}
    (h : ∀ t ∈ ts, Neutral q e o c t) : Neutral q e o c (s.intercalate ts) := by
  induction ts with
  | nil => exact .nil
  | cons t ts ih =>
    obtain ⟨ht, hts⟩ := List.forall_mem_cons.1 h
    cases ts with
    | nil =>
      rw [List.intercalate_singleton]
      exact ht
    | cons u us =>
      rw [List.intercalate_cons_cons]
      exact (ht.append hs).append (ih hts)

end Neutral

end Lib
