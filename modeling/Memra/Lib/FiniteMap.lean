import Mathlib

/-!
# Finite maps

What `AList` itself does not have about an association list with unique keys: its lookup as a
function that insertion and erasure update at one point, its least entry when the keys are ordered
(`firstKeyValue`, a `BTreeMap`'s `first_key_value`), insertion entry by entry (`insertEach`,
`insertEachM`), the sum of a weight over its values (`sumBy`) and the multiset of them (`values`) with
what an insertion and an erasure do to these, the number of its keys with a property (`countKeys`), and
its entries in order (`inOrder`): among keys that are lists, the first from a prefix on tells whether any
has that prefix (`firstFrom_starts`).
-/

namespace Lib

variable {κ β γ ε : Type}

section lookup
variable [DecidableEq κ] (m : AList (fun _ : κ => β))

theorem lookup_insert_update (k : κ) (v : β) :
    (fun x => (m.insert k v).lookup x) = Function.update (fun x => m.lookup x) k (some v) := by
  funext x
  by_cases hx : x = k
  · subst hx; simp
  · simp [AList.lookup_insert_ne hx, hx]

theorem lookup_erase_update (k : κ) :
    (fun x => (m.erase k).lookup x) = Function.update (fun x => m.lookup x) k none := by
  funext x
  by_cases hx : x = k
  · subst hx; simp
  · simp [AList.lookup_erase_ne hx, hx]

theorem lookup_insert_eq_some {k x : κ} {w v : β} :
    (m.insert k w).lookup x = some v ↔ x = k ∧ w = v ∨ x ≠ k ∧ m.lookup x = some v := by
  by_cases hx : x = k
  · subst hx; simp
  · simp [AList.lookup_insert_ne hx, hx]

theorem lookup_erase_eq_some {k x : κ} {v : β} :
    (m.erase k).lookup x = some v ↔ x ≠ k ∧ m.lookup x = some v := by
  by_cases hx : x = k
  · subst hx; simp
  · simp [AList.lookup_erase_ne hx, hx]

end lookup

/-- Insertion one by one. -/
def insertEach [DecidableEq κ] (m : AList (fun _ : κ => β)) (l : List (κ × β)) :
    AList (fun _ : κ => β) :=
  l.foldl (fun m e => m.insert e.1 e.2) m

section insertEach
variable [DecidableEq κ] [BEq κ] [LawfulBEq κ] {l : List (κ × β)}

/-- The last entry of a key counts. -/
theorem lookup_insertEach (m : AList (fun _ : κ => β)) (l : List (κ × β)) (k : κ) :
    (insertEach m l).lookup k = (l.reverse.lookup k).or (m.lookup k) := by
  induction l generalizing m with
  | nil => rfl
  | cons e l ih =>
    obtain ⟨k', v⟩ := e
    show (insertEach (m.insert k' v) l).lookup k = _
    rw [ih, List.reverse_cons, List.lookup_append, Option.or_assoc]
    congr 1
    by_cases hk : k = k'
    · subst hk
      simp
    · rw [AList.lookup_insert_ne hk, List.lookup_cons, beq_false_of_ne hk]
      rfl

theorem lookup_iff_mem {v : β} {k : κ} (hl : (l.map Prod.fst).Nodup) :
    l.lookup k = some v ↔ (k, v) ∈ l := by
  induction l with
  | nil => simp
  | cons e l ih =>
    obtain ⟨k', w⟩ := e
    obtain ⟨hk', hl⟩ := List.nodup_cons.1 hl
    rw [List.lookup_cons, List.mem_cons]
    by_cases hk : k = k'
    · subst hk
      have hnot : (k, v) ∉ l := fun hv => hk' (List.mem_map.2 ⟨_, hv, rfl⟩)
      simp [hnot, eq_comm]
    · rw [beq_false_of_ne hk]
      simp [hk, ih hl]

/-- With distinct keys the order does not count. -/
theorem lookup_reverse (hl : (l.map Prod.fst).Nodup) (k : κ) : l.reverse.lookup k = l.lookup k := by
  have hrev : (l.reverse.map Prod.fst).Nodup := by
    rw [List.map_reverse, List.nodup_reverse]
    exact hl
  apply Option.ext
  intro v
  rw [lookup_iff_mem hrev, lookup_iff_mem hl, List.mem_reverse]

theorem lookup_entries (m : AList (fun _ : κ => β)) (f : κ × β → γ) (k : κ) :
    (m.entries.map fun e => (e.1, f (e.1, e.2))).lookup k = (m.lookup k).map fun v => f (k, v) := by
  have hkeys : ((m.entries.map fun e => (e.1, f (e.1, e.2))).map Prod.fst).Nodup := by
    rw [List.map_map]
    exact m.nodupKeys
  apply Option.ext
  intro w
  rw [lookup_iff_mem hkeys, List.mem_map, Option.map_eq_some_iff]
  constructor
  · rintro ⟨⟨k', v⟩, he, heq⟩
    obtain ⟨rfl, rfl⟩ := Prod.mk.inj heq
    exact ⟨v, AList.mem_lookup_iff.2 he, rfl⟩
  · rintro ⟨v, hv, rfl⟩
    exact ⟨⟨k, v⟩, AList.mem_lookup_iff.1 hv, rfl⟩

/-- The entries of a map, their values changed, collected again. -/
theorem lookup_insertEach_entries (m : AList (fun _ : κ => β)) (f : κ × β → γ) (k : κ) :
    (insertEach ∅ (m.entries.map fun e => (e.1, f (e.1, e.2)))).lookup k =
      (m.lookup k).map fun v => f (k, v) := by
  have hkeys : ((m.entries.map fun e => (e.1, f (e.1, e.2))).map Prod.fst).Nodup := by
    rw [List.map_map]
    exact m.nodupKeys
  rw [lookup_insertEach, lookup_reverse hkeys, lookup_entries]
  exact Option.or_none

end insertEach

/-- The entry with the least key. -/
def firstKeyValue [LinearOrder κ] (m : AList (fun _ : κ => β)) : Option (κ × β) :=
  (m.entries.argmin Sigma.fst).map fun e => (e.1, e.2)

section firstKeyValue
variable [LinearOrder κ] {m : AList (fun _ : κ => β)}

theorem lookup_of_firstKeyValue {k : κ} {v : β} (h : firstKeyValue m = some (k, v)) :
    m.lookup k = some v := by
  obtain ⟨⟨k', v'⟩, he, heq⟩ := Option.map_eq_some_iff.1 h
  obtain ⟨rfl, rfl⟩ := Prod.mk.inj heq
  exact AList.mem_lookup_iff.2 (List.argmin_mem he)

theorem firstKeyValue_le {k k' : κ} {v v' : β} (h : firstKeyValue m = some (k, v))
    (h' : m.lookup k' = some v') : k ≤ k' := by
  obtain ⟨⟨k₀, v₀⟩, he, heq⟩ := Option.map_eq_some_iff.1 h
  obtain ⟨rfl, rfl⟩ := Prod.mk.inj heq
  exact List.le_of_mem_argmin (f := Sigma.fst) (AList.mem_lookup_iff.1 h') he

theorem firstKeyValue_eq_none : firstKeyValue m = none ↔ ∀ k, m.lookup k = none := by
  constructor
  · intro h k
    have hnil : m.entries = [] := by
      simpa [firstKeyValue, List.argmin_eq_none] using h
    simp [AList.lookup, hnil]
  · intro h
    have hnil : m.entries = [] := by
      refine List.eq_nil_iff_forall_not_mem.2 fun ⟨k, v⟩ he => ?_
      have := AList.mem_lookup_iff.2 he
      simp [h k] at this
    simp [firstKeyValue, hnil]

end firstKeyValue

/-- The sum of `f` over the values of `m`. -/
def sumBy (f : β → ℕ) (m : AList (fun _ : κ => β)) : ℕ := (m.entries.map fun e => f e.2).sum

@[simp] theorem sumBy_empty (f : β → ℕ) : sumBy f (∅ : AList (fun _ : κ => β)) = 0 := rfl

section sumBy
variable [DecidableEq κ] (f : β → ℕ) {m : AList (fun _ : κ => β)}

theorem sumBy_erase {k : κ} {v : β} (h : m.lookup k = some v) :
    sumBy f (m.erase k) + f v = sumBy f m := by
  have hk : k ∈ m.entries.keys := AList.mem_keys.1 (AList.lookup_isSome.1 (by simp [h]))
  obtain ⟨v', l₁, l₂, -, hl, hke⟩ := List.exists_of_kerase hk
  have hv : v' ∈ m.lookup k := AList.mem_lookup_iff.2 (by simp [hl])
  obtain rfl : v = v' := by rw [h] at hv; exact Option.some.inj hv
  have he : (m.erase k).entries = l₁ ++ l₂ := hke
  simp only [sumBy, he, hl, List.map_append, List.sum_append, List.map_cons, List.sum_cons]
  omega

theorem sumBy_insert_of_none {k : κ} (v : β) (h : m.lookup k = none) :
    sumBy f (m.insert k v) = sumBy f m + f v := by
  have hk : k ∉ m := AList.lookup_eq_none.1 h
  simp only [sumBy, AList.entries_insert_of_notMem hk, List.map_cons, List.sum_cons]
  omega

theorem sumBy_insert_of_some {k : κ} {v : β} (v' : β) (h : m.lookup k = some v) :
    sumBy f (m.insert k v') + f v = sumBy f m + f v' := by
  have hi : sumBy f (m.insert k v') = sumBy f (m.erase k) + f v' := by
    simp only [sumBy, AList.insert, List.kinsert_def, List.map_cons, List.sum_cons]
    exact Nat.add_comm _ _
  have := sumBy_erase f h
  omega

/-- One value weighs at most the whole map. -/
theorem le_sumBy {k : κ} {v : β} (h : m.lookup k = some v) : f v ≤ sumBy f m := by
  have := sumBy_erase f h
  omega

theorem sumBy_eq_zero (h : ∀ k v, m.lookup k = some v → f v = 0) : sumBy f m = 0 := by
  refine List.sum_eq_zero fun x hx => ?_
  obtain ⟨⟨k, v⟩, he, rfl⟩ := List.mem_map.1 hx
  exact h k v (AList.mem_lookup_iff.2 he)

end sumBy

/-- The values of `m`, each as often as it has a key. -/
def values (m : AList (fun _ : κ => β)) : Multiset β := (m.entries.map Sigma.snd : List β)

@[simp] theorem values_empty : values (∅ : AList (fun _ : κ => β)) = 0 := rfl

section values
variable [DecidableEq κ] {m : AList (fun _ : κ => β)}

theorem values_insert {k : κ} (v : β) (h : m.lookup k = none) :
    values (m.insert k v) = v ::ₘ values m := by
  simp only [values, AList.entries_insert_of_notMem (AList.lookup_eq_none.1 h), List.map_cons]
  rfl

theorem values_erase {k : κ} {v : β} (h : m.lookup k = some v) :
    v ::ₘ values (m.erase k) = values m := by
  have hk : k ∈ m.entries.keys := AList.mem_keys.1 (AList.lookup_isSome.1 (by simp [h]))
  obtain ⟨v', l₁, l₂, -, hl, hke⟩ := List.exists_of_kerase hk
  have hv : v' ∈ m.lookup k := AList.mem_lookup_iff.2 (by simp [hl])
  obtain rfl : v = v' := by rw [h] at hv; exact Option.some.inj hv
  have he : (m.erase k).entries = l₁ ++ l₂ := hke
  simp only [values, he, hl, List.map_append, List.map_cons, Multiset.cons_coe]
  exact Multiset.coe_eq_coe.2 List.perm_middle.symm

theorem mem_values {v : β} : v ∈ values m ↔ ∃ k, m.lookup k = some v := by
  simp only [values, Multiset.mem_coe, List.mem_map]
  constructor
  · rintro ⟨⟨k, v⟩, he, rfl⟩
    exact ⟨k, AList.mem_lookup_iff.2 he⟩
  · rintro ⟨k, hk⟩
    exact ⟨⟨k, v⟩, AList.mem_lookup_iff.1 hk, rfl⟩

end values

/-- The number of keys of `m` with a property. -/
def countKeys (p : κ → Bool) (m : AList (fun _ : κ => β)) : ℕ := m.keys.countP p

@[simp] theorem countKeys_empty (p : κ → Bool) : countKeys p (∅ : AList (fun _ : κ => β)) = 0 := rfl

section countKeys
variable [DecidableEq κ] {m : AList (fun _ : κ => β)}

theorem countKeys_insert (p : κ → Bool) {k : κ} (v : β) (h : m.lookup k = none) :
    countKeys p (m.insert k v) = countKeys p m + if p k then 1 else 0 := by
  have hk : k ∉ m.keys := fun hk => AList.lookup_eq_none.1 h (AList.mem_keys.2 hk)
  rw [countKeys, AList.keys_insert, List.erase_of_not_mem hk, List.countP_cons, countKeys]

theorem countKeys_erase (p : κ → Bool) {k : κ} {v : β} (h : m.lookup k = some v) :
    (countKeys p (m.erase k) + if p k then 1 else 0) = countKeys p m := by
  have hk : k ∈ m.keys := AList.mem_keys.1 (AList.lookup_isSome.1 (by simp [h]))
  rw [countKeys, AList.keys_erase, ← List.countP_cons, countKeys]
  exact ((List.perm_cons_erase hk).countP_eq p).symm

end countKeys

/-! ## The order of the keys -/

section inOrder
variable [LinearOrder κ] (m : AList (fun _ : κ => β))

/-- The entries in the order of their keys. -/
def inOrder : List (κ × β) := (m.entries.map fun e => (e.1, e.2)).insertionSort fun e e' => e.1 ≤ e'.1

theorem inOrder_perm : (inOrder m).Perm (m.entries.map fun e => (e.1, e.2)) := List.perm_insertionSort _ _

theorem inOrder_pairwise : (inOrder m).Pairwise fun e e' => e.1 ≤ e'.1 := List.pairwise_insertionSort _ _

theorem nodup_inOrder : ((inOrder m).map Prod.fst).Nodup := by
  refine (((inOrder_perm m).map Prod.fst).nodup_iff).2 ?_
  rw [List.map_map]
  exact m.nodupKeys

theorem mem_inOrder [DecidableEq κ] {k : κ} {v : β} : (k, v) ∈ inOrder m ↔ m.lookup k = some v := by
  rw [(inOrder_perm m).mem_iff, List.mem_map]
  constructor
  · rintro ⟨⟨k', v'⟩, he, heq⟩
    obtain ⟨rfl, rfl⟩ := Prod.mk.inj heq
    exact AList.mem_lookup_iff.2 he
  · intro h
    exact ⟨⟨k, v⟩, AList.mem_lookup_iff.1 h, rfl⟩

/-- The first entry from a key on: `range(k..).next()`. -/
def firstFrom (k : κ) : Option (κ × β) := (inOrder m).find? fun e => k ≤ e.1

end inOrder

section listKeys
variable {α : Type} [LinearOrder α] {p k q : List α}

theorem le_of_cons_le {a b : α} {l l' : List α} (h : a :: l ≤ b :: l') : a < b ∨ a = b ∧ l ≤ l' := by
  rcases le_iff_lt_or_eq.1 h with hlt | heq
  · cases hlt with
    | rel hab => exact .inl hab
    | cons hl => exact .inr ⟨rfl, le_of_lt hl⟩
  · cases heq
    exact .inr ⟨rfl, le_refl _⟩

theorem le_of_starts (h : p <+: q) : p ≤ q := by
  obtain ⟨t, rfl⟩ := h
  induction p with
  | nil =>
    cases t with
    | nil => exact le_refl _
    | cons b t => exact le_of_lt List.Lex.nil
  | cons a p ih => exact List.cons_le_cons a ih

/-- Between a prefix and a list with that prefix are lists with it only. -/
theorem prefix_of_between (hp : p ≤ k) (hq : k ≤ q) (h : p <+: q) : p <+: k := by
  induction p generalizing k q with
  | nil => exact List.nil_prefix
  | cons a p ih =>
    obtain ⟨q, rfl, hpq⟩ : ∃ q', q = a :: q' ∧ p <+: q' := by
      obtain ⟨t, rfl⟩ := h
      exact ⟨p ++ t, rfl, List.prefix_append _ _⟩
    cases k with
    | nil => exact absurd (le_antisymm hp (le_of_starts List.nil_prefix)) (List.cons_ne_nil _ _)
    | cons b k =>
      rcases le_of_cons_le hp with hab | ⟨rfl, hpk⟩
      · rcases le_of_cons_le hq with hba | ⟨rfl, -⟩
        · exact absurd hba hab.asymm
        · exact absurd hab (lt_irrefl _)
      · rcases le_of_cons_le hq with hlt | ⟨-, hkq⟩
        · exact absurd hlt (lt_irrefl _)
        · exact List.prefix_cons_inj _ |>.2 (ih hpk hkq hpq)

/-- The first key from a prefix on has the prefix, when any has. -/
theorem firstFrom_starts (m : AList (fun _ : List α => β)) (p : List α) :
    (∃ e, firstFrom m p = some e ∧ p <+: e.1) ↔ ∃ k v, m.lookup k = some v ∧ p <+: k := by
  constructor
  · rintro ⟨⟨k, v⟩, he, hp⟩
    exact ⟨k, v, (mem_inOrder m).1 (List.mem_of_find?_eq_some he), hp⟩
  · rintro ⟨k, v, hk, hp⟩
    have hmem := (mem_inOrder m).2 hk
    have hle : decide (p ≤ k) = true := decide_eq_true (le_of_starts hp)
    have hsome : (firstFrom m p).isSome := List.find?_isSome.2 ⟨(k, v), hmem, hle⟩
    obtain ⟨e, he⟩ := Option.isSome_iff_exists.1 hsome
    refine ⟨e, he, ?_⟩
    obtain ⟨hpe, before, after, heq, hbefore⟩ := List.find?_eq_some_iff_append.1 he
    have hke : e.1 ≤ k := by
      have hsorted := inOrder_pairwise m
      rw [heq] at hmem hsorted
      rcases List.mem_append.1 hmem with hin | hin
      · have hnot := hbefore _ hin
        rw [hle] at hnot
        cases hnot
      · rcases List.mem_cons.1 hin with rfl | hin
        · exact le_refl _
        · exact (List.pairwise_cons.1 (List.pairwise_append.1 hsorted).2.1).1 _ hin
    exact prefix_of_between (of_decide_eq_true hpe) hke hp

end listKeys

/-! ## Insertions that may fail -/

section insertEachM
variable [DecidableEq κ] {f : κ → γ → Except ε β} {l : List (κ × γ)} {m m' : AList (fun _ : κ => β)}

/-- Inserts what becomes of each entry. -/
def insertEachM (f : κ → γ → Except ε β) (m : AList (fun _ : κ => β)) (l : List (κ × γ)) :
    Except ε (AList fun _ : κ => β) :=
  l.foldlM (fun m e => do pure (m.insert e.1 (← f e.1 e.2))) m

theorem insertEachM_cons {k : κ} {x : γ} (h : insertEachM f m ((k, x) :: l) = .ok m') :
    ∃ v, f k x = .ok v ∧ insertEachM f (m.insert k v) l = .ok m' := by
  cases hf : f k x with
  | error e =>
    rw [insertEachM, List.foldlM_cons, hf] at h
    cases h
  | ok v =>
    rw [insertEachM, List.foldlM_cons, hf] at h
    exact ⟨v, rfl, h⟩

theorem lookup_insertEachM (hl : (l.map Prod.fst).Nodup) (h : insertEachM f m l = .ok m') (k : κ)
    (v : β) : m'.lookup k = some v ↔
      (∃ x, (k, x) ∈ l ∧ f k x = .ok v) ∨ (k ∉ l.map Prod.fst ∧ m.lookup k = some v) := by
  induction l generalizing m with
  | nil =>
    obtain rfl : m = m' := Except.ok.inj h
    simp
  | cons e l ih =>
    obtain ⟨k', x⟩ := e
    obtain ⟨w, hw, hrest⟩ := insertEachM_cons h
    obtain ⟨hk', hl⟩ := List.nodup_cons.1 hl
    rw [ih hl hrest, lookup_insert_eq_some]
    by_cases hk : k = k'
    · subst hk
      have hnot : ∀ y, (k, y) ∉ l := fun y hy => hk' (List.mem_map.2 ⟨_, hy, rfl⟩)
      simp [hnot, hk', hw]
    · simp [hk]

/-- What holds of every value that is inserted. -/
theorem insertEachM_forall {P : β → Prop} (hf : ∀ k x v, f k x = .ok v → P v)
    (h : insertEachM f m l = .ok m') (hm : ∀ k v, m.lookup k = some v → P v) {k : κ} {v : β}
    (hv : m'.lookup k = some v) : P v := by
  induction l generalizing m with
  | nil =>
    obtain rfl : m = m' := Except.ok.inj h
    exact hm k v hv
  | cons e l ih =>
    obtain ⟨w, hw, hrest⟩ := insertEachM_cons h
    refine ih hrest fun k' v' hv' => ?_
    rcases (lookup_insert_eq_some m).1 hv' with ⟨-, rfl⟩ | ⟨-, hold⟩
    · exact hf _ _ _ hw
    · exact hm k' v' hold

end insertEachM

end Lib
