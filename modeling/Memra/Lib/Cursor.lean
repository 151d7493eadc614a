import Mathlib

/-!
# Readers by index

A reader walks over a list by index, and fails by an error of its own, by an index out of range, or
because the turns that bound its loops are used up. `Takes` says of a result that it is none of the last
two, and how what was taken is related to what was returned; its rules go with the control flow of a
reader. `skip` is the loop that every such reader has.
-/

namespace Lib

/-- How a reader fails. -/
inductive Fault (ε : Type)
  /-- the error that it returns -/
  | err (e : ε)
  /-- an index or a slice out of range -/
  | panic
  /-- the turns of its loops are used up -/
  | fuel

namespace Cursor

variable {ε β α γ : Type}

/-- `b[i]`. -/
def index (b : List β) (i : ℕ) : Except (Fault ε) β :=
  match b[i]? with
  | some c => .ok c
  | none => .error .panic

/-- `b[s..e]`. -/
def slice (b : List β) (s e : ℕ) : Except (Fault ε) (List β) :=
  if s ≤ e ∧ e ≤ b.length then .ok ((b.take e).drop s) else .error .panic

/-- `while i < b.len() && p(b[i]) { i += 1 }`. -/
def skip (p : β → Bool) (b : List β) (i : ℕ) : Except (Fault ε) ℕ :=
  if i < b.length then do
    let c ← index b i
    if p c then skip p b (i + 1) else pure i
  else pure i
termination_by b.length - i

section
variable {b : List β} {i : ℕ} {c : β} {rest : List β}

theorem getElem?_of_drop (h : b.drop i = c :: rest) : b[i]? = some c := by
  rw [← List.head?_drop, h]
  rfl

theorem drop_succ_of_drop (h : b.drop i = c :: rest) : b.drop (i + 1) = rest := by
  rw [← List.tail_drop, h]
  rfl

theorem drop_add_of_drop {bs : List β} (h : b.drop i = bs ++ rest) :
    b.drop (i + bs.length) = rest := by
  rw [← List.drop_drop, h, List.drop_left]

theorem lt_of_drop (h : b.drop i = c :: rest) : i < b.length := by
  by_contra hge
  rw [List.drop_eq_nil_of_le (by omega)] at h
  cases h

theorem length_of_drop {bs : List β} (h : b.drop i = bs ++ rest) (hi : i ≤ b.length) :
    b.length = i + bs.length + rest.length := by
  have hlen := congrArg List.length h
  rw [List.length_drop, List.length_append] at hlen
  omega

theorem index_of_drop (h : b.drop i = c :: rest) : (index b i : Except (Fault ε) β) = .ok c := by
  unfold index
  rw [getElem?_of_drop h]

theorem slice_of_drop {bs : List β} (h : b.drop i = bs ++ rest) (hi : i ≤ b.length) :
    (slice b i (i + bs.length) : Except (Fault ε) (List β)) = .ok bs := by
  have hlen := length_of_drop h hi
  unfold slice
  rw [if_pos ⟨Nat.le_add_right _ _, by omega⟩, List.drop_take, h, Nat.add_sub_cancel_left,
    List.take_left]

/-- The loop never leaves the list, and ends behind the run. -/
theorem skip_eq (p : β → Bool) (b : List β) (i : ℕ) :
    (skip p b i : Except (Fault ε) ℕ) = .ok (i + ((b.drop i).takeWhile p).length) := by
  fun_induction skip (ε := ε) p b i with
  | case1 i hlt ih =>
    have hat : b.drop i = b[i] :: b.drop (i + 1) := List.drop_eq_getElem_cons hlt
    rw [index_of_drop hat, hat]
    show (if p b[i] = true then skip p b (i + 1) else pure i) = _
    split
    · rename_i hp
      rw [ih, List.takeWhile_cons_of_pos hp, List.length_cons]
      congr 1
      omega
    · rename_i hp
      rw [List.takeWhile_cons_of_neg hp]
      rfl
  | case2 i hge =>
    rw [List.drop_eq_nil_of_le (by omega)]
    rfl

/-- A run that something else ends. -/
theorem skip_of_drop {p : β → Bool} {run : List β} (h : b.drop i = run ++ rest)
    (hrun : ∀ c ∈ run, p c = true) (hrest : ∀ c ∈ rest.head?, p c = false) :
    (skip p b i : Except (Fault ε) ℕ) = .ok (i + run.length) := by
  have hstop : rest.takeWhile p = [] := by
    cases rest with
    | nil => rfl
    | cons d ds =>
      apply List.takeWhile_cons_of_neg
      rw [hrest d rfl]
      exact Bool.false_ne_true
  rw [skip_eq, h, List.takeWhile_append_of_pos hrun, hstop, List.append_nil]

/-- The loop ends at something else, or at the end. -/
theorem skip_cases (p : β → Bool) (hi : i ≤ b.length) :
    ∃ w j, (skip p b i : Except (Fault ε) ℕ) = .ok j ∧ b.drop i = w ++ b.drop j ∧ i ≤ j ∧
      j ≤ b.length ∧ (∀ c ∈ w, p c = true) ∧ ∀ c ∈ (b.drop j).head?, p c = false := by
  have hsplit : (b.drop i).takeWhile p ++ (b.drop i).dropWhile p = b.drop i :=
    List.takeWhile_append_dropWhile
  have hdrop : b.drop (i + ((b.drop i).takeWhile p).length) = (b.drop i).dropWhile p :=
    drop_add_of_drop hsplit.symm
  have hlen := length_of_drop hsplit.symm hi
  refine ⟨(b.drop i).takeWhile p, _, skip_eq p b i, ?_, Nat.le_add_right _ _, by omega,
    fun c hc => List.mem_takeWhile_imp hc, ?_⟩
  · rw [hdrop, hsplit]
  · rw [hdrop]
    intro c hc
    have hne : (b.drop i).dropWhile p ≠ [] := by
      intro hnil
      rw [hnil] at hc
      cases hc
    have hhead := List.head_dropWhile_not p hne
    rw [List.head?_eq_some_head hne] at hc
    rwa [← Option.some.inj hc]

end

/-! ## What a reader takes -/

/-- The result is no fault but an error of the reader; what was taken from `i` on is related to what was
returned. -/
def Takes (b : List β) (i : ℕ) (R : List β → α → Prop) : Except (Fault ε) (α × ℕ) → Prop
  | .ok (a, j) => j ≤ b.length ∧ ∃ bs, b.drop i = bs ++ b.drop j ∧ R bs a
  | .error (.err _) => True
  | .error _ => False

section
variable {b : List β} {i : ℕ} {R : List β → α → Prop} {S : List β → γ → Prop}
  {r : Except (Fault ε) (α × ℕ)}

namespace Takes

theorem err (e : ε) : Takes b i R (.error (.err e)) := trivial

theorem ok {a : α} {j : ℕ} (hj : j ≤ b.length) {bs : List β} (h : b.drop i = bs ++ b.drop j)
    (hR : R bs a) : Takes b i R (.ok (a, j) : Except (Fault ε) (α × ℕ)) :=
  ⟨hj, bs, h, hR⟩

theorem imp (h : Takes b i R r) {R' : List β → α → Prop} (himp : ∀ bs a, R bs a → R' bs a) :
    Takes b i R' r := by
  match r, h with
  | .ok (a, j), ⟨hj, bs, hbs, hR⟩ => exact ⟨hj, bs, hbs, himp bs a hR⟩
  | .error (.err _), _ => trivial

theorem exists_or (h : Takes b i R r) :
    (∃ a j bs, r = .ok (a, j) ∧ j ≤ b.length ∧ b.drop i = bs ++ b.drop j ∧ R bs a) ∨
      ∃ e, r = .error (.err e) := by
  match r, h with
  | .ok (a, j), ⟨hj, bs, hbs, hR⟩ => exact .inl ⟨a, j, bs, rfl, hj, hbs, hR⟩
  | .error (.err e), _ => exact .inr ⟨e, rfl⟩

/-- What was taken before joins what is taken next. -/
theorem shift {bs : List β} {j : ℕ} (h : b.drop i = bs ++ b.drop j)
    (hr : Takes b j (fun bs' a => R (bs ++ bs') a) r) : Takes b i R r := by
  match r, hr with
  | .ok (a, k), ⟨hk, bs', hbs', hR⟩ =>
    exact ⟨hk, bs ++ bs', by rw [h, hbs', List.append_assoc], hR⟩
  | .error (.err _), _ => trivial

theorem bind {f : α × ℕ → Except (Fault ε) (γ × ℕ)} (h : Takes b i R r)
    (hf : ∀ bs a j, b.drop i = bs ++ b.drop j → j ≤ b.length → R bs a →
      Takes b j (fun bs' c => S (bs ++ bs') c) (f (a, j))) :
    Takes b i S (r >>= f) := by
  match r, h with
  | .ok (a, j), ⟨hj, bs, hbs, hR⟩ => exact shift hbs (hf bs a j hbs hj hR)
  | .error (.err _), _ => trivial

end Takes

end

end Cursor

end Lib
