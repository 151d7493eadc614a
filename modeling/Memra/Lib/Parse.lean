import Mathlib

/-!
# Parsers that recognise a relation

A `Parser` takes symbols off the front of its input or fails. It `Recognizes` a relation `R` between
a prefix and a value when it succeeds exactly on the inputs that begin with such a prefix, with the
rest behind it: soundness and completeness in one statement, which sequencing (`Recognizes.bind`),
failure (`Recognizes.ofOption`) and repetition (`Recognizes.repeatN`) keep. A parser that recognises a
relation rebuilds a value from any of its spellings (`Recognizes.run`) and takes one spelling apart in
one way only (`Recognizes.unique`). `le` is the little-endian number of a given width.
-/

namespace Lib

variable {β α γ : Type}

abbrev Parser (β : Type) := StateT (List β) Option

/-- The parser succeeds exactly where a prefix of the input is related to the value. -/
def Recognizes (p : Parser β α) (R : List β → α → Prop) : Prop :=
  ∀ bs a rest, p.run bs = some (a, rest) ↔ ∃ pre, R pre a ∧ bs = pre ++ rest

namespace Recognizes

variable {p : Parser β α} {R : List β → α → Prop}

theorem run (h : Recognizes p R) {pre : List β} {a : α} (hR : R pre a) (rest : List β) :
    p.run (pre ++ rest) = some (a, rest) := (h _ _ _).2 ⟨pre, hR, rfl⟩

/-- No spelling is the beginning of another. -/
theorem unique (h : Recognizes p R) {pre pre' rest rest' : List β} {a a' : α} (hR : R pre a)
    (hR' : R pre' a') (heq : pre ++ rest = pre' ++ rest') : a = a' ∧ rest = rest' ∧ pre = pre' := by
  have hrun := h.run hR rest
  rw [heq, h.run hR' rest'] at hrun
  cases hrun
  exact ⟨rfl, rfl, List.append_cancel_right heq⟩

theorem congr {S : List β → α → Prop} (h : Recognizes p R) (hiff : ∀ pre a, R pre a ↔ S pre a) :
    Recognizes p S := by
  intro bs a rest
  rw [h bs a rest]
  simp only [hiff]

theorem pure (a : α) : Recognizes (pure a : Parser β α) fun pre b => pre = [] ∧ b = a := by
  intro bs b rest
  rw [StateT.run_pure]
  constructor
  · intro h
    cases h
    exact ⟨[], ⟨rfl, rfl⟩, rfl⟩
  · intro ⟨pre, ⟨hpre, hb⟩, hbs⟩
    subst hpre hb hbs
    rfl

/-- What takes nothing off the input. -/
theorem ofOption (o : Option α) :
    Recognizes (StateT.lift o : Parser β α) fun pre a => pre = [] ∧ o = some a := by
  intro bs b rest
  cases o with
  | none =>
    constructor
    · intro h
      cases h
    · intro ⟨_, ⟨_, h⟩, _⟩
      cases h
  | some a =>
    constructor
    · intro h
      cases h
      exact ⟨[], ⟨rfl, rfl⟩, rfl⟩
    · intro ⟨pre, ⟨hpre, hb⟩, hbs⟩
      cases hb
      subst hpre hbs
      rfl

theorem bind {f : α → Parser β γ} {S : α → List β → γ → Prop} (hp : Recognizes p R)
    (hf : ∀ a, Recognizes (f a) (S a)) :
    Recognizes (p >>= f) fun pre c => ∃ x y a, pre = x ++ y ∧ R x a ∧ S a y c := by
  intro bs c rest
  rw [StateT.run_bind]
  constructor
  · intro h
    obtain ⟨⟨a, mid⟩, ha, hc⟩ := Option.bind_eq_some_iff.1 h
    obtain ⟨x, hx, rfl⟩ := (hp _ _ _).1 ha
    obtain ⟨y, hy, rfl⟩ := (hf a _ _ _).1 hc
    exact ⟨x ++ y, ⟨x, y, a, rfl, hx, hy⟩, (List.append_assoc _ _ _).symm⟩
  · intro ⟨pre, ⟨x, y, a, hpre, hx, hy⟩, hbs⟩
    subst hpre hbs
    rw [List.append_assoc, hp.run hx]
    exact (hf a).run hy rest

theorem map (h : Recognizes p R) (f : α → γ) :
    Recognizes (f <$> p) fun pre c => ∃ a, R pre a ∧ c = f a := by
  intro bs c rest
  rw [StateT.run_map]
  constructor
  · intro hrun
    obtain ⟨⟨a, mid⟩, ha, hc⟩ := Option.map_eq_some_iff.1 hrun
    cases hc
    obtain ⟨pre, hpre, hbs⟩ := (h _ _ _).1 ha
    exact ⟨pre, ⟨a, hpre, rfl⟩, hbs⟩
  · intro ⟨pre, ⟨a, hpre, hc⟩, hbs⟩
    subst hc hbs
    rw [h.run hpre]
    rfl

end Recognizes

/-! ## Runs of symbols, and repetition -/

/-- The next `n` symbols. -/
def takeN (n : ℕ) : Parser β (List β) := fun bs =>
  if n ≤ bs.length then some (bs.take n, bs.drop n) else none

theorem recognizes_takeN (n : ℕ) :
    Recognizes (takeN n : Parser β (List β)) fun pre x => pre = x ∧ x.length = n := by
  intro bs x rest
  change (if n ≤ bs.length then some (bs.take n, bs.drop n) else none) = some (x, rest) ↔ _
  constructor
  · intro h
    split at h
    · rename_i hle
      cases h
      exact ⟨bs.take n, ⟨rfl, List.length_take_of_le hle⟩, (List.take_append_drop n bs).symm⟩
    · cases h
  · intro ⟨pre, ⟨hpre, hlen⟩, hbs⟩
    subst hpre hbs hlen
    rw [if_pos (by simp), List.take_left, List.drop_left]

/-- One after the other. -/
inductive Spelled (R : List β → α → Prop) : List β → List α → Prop
  | nil : Spelled R [] []
  | cons {x xs : List β} {a : α} {as : List α} (head : R x a) (tail : Spelled R xs as) :
    Spelled R (x ++ xs) (a :: as)

theorem Spelled.imp {R S : List β → α → Prop} {bs : List β} {as : List α} (hs : Spelled R bs as)
    (h : ∀ x a, R x a → S x a) : Spelled S bs as := by
  induction hs with
  | nil => exact .nil
  | cons head _ ih => exact .cons (h _ _ head) ih

theorem Spelled.exists_of_mem {R : List β → α → Prop} {bs : List β} {as : List α}
    (hs : Spelled R bs as) {a : α} (ha : a ∈ as) : ∃ x, R x a := by
  induction hs with
  | nil => cases ha
  | cons head _ ih =>
    rcases List.mem_cons.1 ha with rfl | ha
    · exact ⟨_, head⟩
    · exact ih ha

/-- Spellings and values that are functions of something else. -/
theorem spelled_flatMap {R : List β → α → Prop} {f : γ → List β} {g : γ → α} {cs : List γ}
    (h : ∀ c ∈ cs, R (f c) (g c)) : Spelled R (cs.flatMap f) (cs.map g) := by
  induction cs with
  | nil => exact .nil
  | cons c cs ih =>
    rw [List.flatMap_cons, List.map_cons]
    exact .cons (h c List.mem_cons_self) (ih fun c hc => h c (List.mem_cons_of_mem _ hc))

theorem spelled_flatMap_iff {R : List β → α → Prop} {f : α → List β}
    (h : ∀ x a, R x a → x = f a) {bs : List β} {as : List α} (hs : Spelled R bs as) :
    bs = as.flatMap f ∧ ∀ a ∈ as, R (f a) a := by
  induction hs with
  | nil => exact ⟨rfl, by simp⟩
  | cons head _ ih =>
    obtain ⟨hbs, hmem⟩ := ih
    have hx := h _ _ head
    subst hx hbs
    refine ⟨(List.flatMap_cons ..).symm, ?_⟩
    intro a ha
    rcases List.mem_cons.1 ha with rfl | ha
    · exact head
    · exact hmem a ha

/-- `n` times. -/
def repeatN (p : Parser β α) : ℕ → Parser β (List α)
  | 0 => pure []
  | n + 1 => do
    let a ← p
    let as ← repeatN p n
    pure (a :: as)

theorem Recognizes.repeatN {p : Parser β α} {R : List β → α → Prop} (h : Recognizes p R) (n : ℕ) :
    Recognizes (repeatN p n) fun pre as => Spelled R pre as ∧ as.length = n := by
  induction n with
  | zero =>
    apply (Recognizes.pure []).congr
    intro pre as
    constructor
    · intro ⟨hpre, has⟩
      subst hpre has
      exact ⟨.nil, rfl⟩
    · intro ⟨hs, hlen⟩
      cases hs with
      | nil => exact ⟨rfl, rfl⟩
      | cons _ _ => cases hlen
  | succ n ih =>
    apply (h.bind fun a => ih.bind fun as => Recognizes.pure (a :: as)).congr
    intro pre as
    constructor
    · intro ⟨x, y, a, hpre, hx, y1, y2, as', hy, ⟨hs, hlen⟩, hnil, has⟩
      subst hpre hy hnil has
      rw [List.append_nil]
      exact ⟨.cons hx hs, by rw [List.length_cons, hlen]⟩
    · intro ⟨hs, hlen⟩
      cases hs with
      | nil => cases hlen
      | cons head tail =>
        exact ⟨_, _, _, rfl, head, _, [], _, (List.append_nil _).symm,
          ⟨tail, Nat.succ.inj hlen⟩, rfl, rfl⟩

/-! ## Little-endian numbers -/

/-- The bytes of a number, the least significant first. -/
def leBytes : ℕ → ℕ → List UInt8
  | 0, _ => []
  | n + 1, x => UInt8.ofNat (x % 256) :: leBytes n (x / 256)

/-- The number of its bytes. -/
def leNat : List UInt8 → ℕ
  | [] => 0
  | b :: bs => b.toNat + 256 * leNat bs

theorem leBytes_length (n x : ℕ) : (leBytes n x).length = n := by
  induction n generalizing x with
  | zero => rfl
  | succ n ih => rw [leBytes, List.length_cons, ih]

theorem leNat_lt (bs : List UInt8) : leNat bs < 256 ^ bs.length := by
  induction bs with
  | nil => exact Nat.one_pos
  | cons b bs ih =>
    have hb := b.toNat_lt
    rw [leNat, List.length_cons, Nat.pow_succ]
    omega

theorem leNat_leBytes {n x : ℕ} (h : x < 256 ^ n) : leNat (leBytes n x) = x := by
  induction n generalizing x with
  | zero =>
    rw [Nat.pow_zero, Nat.lt_one_iff] at h
    exact h.symm
  | succ n ih =>
    have hdiv : x / 256 < 256 ^ n := by
      rw [Nat.pow_succ] at h
      omega
    rw [leBytes, leNat, ih hdiv, UInt8.toNat_ofNat']
    omega

theorem leBytes_leNat (bs : List UInt8) : leBytes bs.length (leNat bs) = bs := by
  induction bs with
  | nil => rfl
  | cons b bs ih =>
    have hb := b.toNat_lt
    have hmod : (b.toNat + 256 * leNat bs) % 256 = b.toNat := by omega
    have hdiv : (b.toNat + 256 * leNat bs) / 256 = leNat bs := by omega
    rw [List.length_cons, leNat, leBytes, hmod, hdiv, ih, UInt8.ofNat_toNat]

/-- The little-endian number of `n` bytes. -/
def le (n : ℕ) : Parser UInt8 ℕ := leNat <$> takeN n

theorem recognizes_le (n : ℕ) :
    Recognizes (le n) fun pre x => pre = leBytes n x ∧ x < 256 ^ n := by
  apply ((recognizes_takeN n).map leNat).congr
  intro pre x
  constructor
  · intro ⟨bs, ⟨hpre, hlen⟩, hx⟩
    subst hpre hx hlen
    exact ⟨(leBytes_leNat pre).symm, leNat_lt pre⟩
  · intro ⟨hpre, hx⟩
    subst hpre
    exact ⟨_, ⟨rfl, leBytes_length n x⟩, (leNat_leBytes hx).symm⟩

end Lib
