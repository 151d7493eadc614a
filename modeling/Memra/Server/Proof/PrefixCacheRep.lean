import Memra.Server.PrefixCache
import Memra.Lib.SlotIndex

/-!
# The representation invariant of the prefix cache

`Rep c`: the recency index is an index of the stored entries under `(last_use, id)`, ids are unique
and below `next_id`, no pool is empty, no pool holds a token list twice. The three operations are
edits of `entryAt` (`touch_spec`, `removeAt_spec`, `push_spec`), so each keeps `Rep` by the rules
of `Lib.IsIndex` and `Lib.SlotInj` (`Rep.touch`, `Rep.removeAt`, `Rep.push`).
-/

namespace Memra.PrefixCache

open Lib Function

variable {κ π : Type} [DecidableEq κ] {c : PrefixCache κ π}

/-- The representation invariant (module doc). -/
structure Rep (c : PrefixCache κ π) : Prop where
  index : IsIndex c.entryAt lruKey (fun x => c.lru.lookup x)
  fresh : ∀ s e, c.entryAt s = some e → e.id < c.nextId
  ids : SlotInj c.entryAt fun _ e => e.id
  pools : ∀ k, c.entries.lookup k ≠ some []
  keys : SlotInj c.entryAt fun s e => (s.1, e.toks)

/-! ## Pools and slots -/

theorem pool_of_lookup {k : κ} {p : List (PrefixEntry π)} (h : c.entries.lookup k = some p) :
    c.pool k = p := by
  simp [pool, h]

theorem lookup_of_entryAt {k : κ} {i : ℕ} {e : PrefixEntry π} (h : c.entryAt (k, i) = some e) :
    c.entries.lookup k = some (c.pool k) ∧ (c.pool k)[i]? = some e := by
  refine ⟨?_, h⟩
  cases hl : c.entries.lookup k with
  | none => simp [entryAt, pool, hl] at h
  | some p => rw [pool_of_lookup hl]

/-- Writing one pool changes the slots of that pool only. -/
theorem entryAt_insert {c' : PrefixCache κ π} {k : κ} {p : List (PrefixEntry π)}
    (h : c'.entries = c.entries.insert k p) (s : κ × ℕ) :
    c'.entryAt s = if s.1 = k then p[s.2]? else c.entryAt s := by
  obtain ⟨k', i⟩ := s
  by_cases hk : k' = k
  · subst hk; simp [entryAt, pool, h]
  · simp [entryAt, pool, h, AList.lookup_insert_ne hk, hk]

/-- An erased pool has no slots. -/
theorem entryAt_erase {c' : PrefixCache κ π} {k : κ} (h : c'.entries = c.entries.erase k)
    (s : κ × ℕ) : c'.entryAt s = if s.1 = k then none else c.entryAt s := by
  obtain ⟨k', i⟩ := s
  by_cases hk : k' = k
  · subst hk; simp [entryAt, pool, h]
  · simp [entryAt, pool, h, AList.lookup_erase_ne hk, hk]

/-- A non-empty pool written back leaves no pool empty. -/
theorem pools_insert {m : AList (fun _ : κ => List (PrefixEntry π))} {k : κ}
    {p : List (PrefixEntry π)} (h : ∀ k', m.lookup k' ≠ some []) (hp : p ≠ []) (k' : κ) :
    (m.insert k p).lookup k' ≠ some [] := by
  by_cases hk : k' = k
  · subst hk; simpa using hp
  · rw [AList.lookup_insert_ne hk]; exact h k'

theorem poolBytes_set {p : List (PrefixEntry π)} {i : ℕ} {e : PrefixEntry π} (e' : PrefixEntry π)
    (h : p[i]? = some e) (hb : e'.bytes = e.bytes) : poolBytes (p.set i e') = poolBytes p := by
  obtain ⟨hi, rfl⟩ := List.getElem?_eq_some_iff.1 h
  have : (p.map (·.bytes)).set i e'.bytes = p.map (·.bytes) := by
    rw [hb]
    exact List.ext_getElem (by simp) fun j _ _ => by
      by_cases hj : i = j
      · subst hj; simp
      · simp [hj]
  rw [poolBytes, List.map_set, this, poolBytes]

/-! ## One operation as an edit of the slots -/

theorem touch_of_none {key : κ} {i : ℕ} (now : ℕ) (h : c.entryAt (key, i) = none) :
    c.touch key i now = c := by
  unfold touch
  split
  · rfl
  · rename_i p hp
    have : p[i]? = none := by rwa [entryAt, pool_of_lookup hp] at h
    simp [this]

theorem touch_of_some {key : κ} {i : ℕ} {e : PrefixEntry π} (now : ℕ)
    (h : c.entryAt (key, i) = some e) :
    c.touch key i now = { c with
      lru := (c.lru.erase (lruKey e)).insert (lruKey { e with lastUse := now }) (key, i)
      entries := c.entries.insert key ((c.pool key).set i { e with lastUse := now }) } := by
  obtain ⟨hl, hp⟩ := lookup_of_entryAt h
  simp only [touch, hl, hp]

theorem touch_entryAt {key : κ} {i : ℕ} {e : PrefixEntry π} (now : ℕ)
    (h : c.entryAt (key, i) = some e) :
    (c.touch key i now).entryAt =
      update c.entryAt (key, i) (some { e with lastUse := now }) := by
  obtain ⟨hi, -⟩ := List.getElem?_eq_some_iff.1 (lookup_of_entryAt h).2
  funext ⟨k, j⟩
  rw [entryAt_insert (c := c) (by rw [touch_of_some now h])]
  by_cases hk : k = key
  · subst hk
    by_cases hj : j = i
    · subst hj; simp [hi]
    · simp [hj, Ne.symm hj, entryAt]
  · simp [hk]

theorem touch_lru {key : κ} {i : ℕ} {e : PrefixEntry π} (now : ℕ)
    (h : c.entryAt (key, i) = some e) :
    (fun x => (c.touch key i now).lru.lookup x) =
      update (update (fun x => c.lru.lookup x) (lruKey e) none)
        (lruKey { e with lastUse := now }) (some (key, i)) := by
  rw [touch_of_some now h, lookup_insert_update, lookup_erase_update]

theorem touch_storedBytes (key : κ) (i now : ℕ) :
    (c.touch key i now).storedBytes = c.storedBytes := by
  cases h : c.entryAt (key, i) with
  | none => rw [touch_of_none now h]
  | some e =>
    obtain ⟨hl, hp⟩ := lookup_of_entryAt h
    have hsum := sumBy_insert_of_some poolBytes ((c.pool key).set i { e with lastUse := now }) hl
    rw [poolBytes_set { e with lastUse := now } hp rfl] at hsum
    rw [touch_of_some now h]
    exact Nat.add_right_cancel hsum

theorem removeAt_eq_none {key : κ} {i : ℕ} :
    c.removeAt key i = none ↔ c.entryAt (key, i) = none := by
  unfold removeAt
  cases hl : c.entries.lookup key with
  | none => simp [entryAt, pool, hl]
  | some p =>
    rw [entryAt, pool_of_lookup hl]
    cases hp : p[i]? <;> simp [hp]

/-- What `remove_at` returns and leaves, in terms of the pool it works on. -/
theorem removeAt_some {key : κ} {i : ℕ} {dead : PrefixEntry π} {c' : PrefixCache κ π}
    (h : c.removeAt key i = some (dead, c')) :
    c.entryAt (key, i) = some dead ∧
    c'.entries = (if swapRemove (c.pool key) i = [] then c.entries.erase key
      else c.entries.insert key (swapRemove (c.pool key) i)) ∧
    c'.lru = (match (swapRemove (c.pool key) i)[i]? with
      | some moved => (c.lru.erase (lruKey dead)).insert (lruKey moved) (key, i)
      | none => c.lru.erase (lruKey dead)) ∧
    c'.nextId = c.nextId ∧ c'.totalBytes = c.totalBytes := by
  unfold removeAt at h
  split at h
  · cases h
  · rename_i p hp
    split at h
    · cases h
    · rename_i e he
      obtain ⟨rfl, rfl⟩ := Prod.mk.inj (Option.some.inj h)
      rw [entryAt, pool_of_lookup hp]
      exact ⟨he, rfl, rfl, rfl, rfl⟩

theorem removeAt_pool {key : κ} {i : ℕ} {dead : PrefixEntry π} {c' : PrefixCache κ π}
    (h : c.removeAt key i = some (dead, c')) (s : κ × ℕ) :
    c'.entryAt s = if s.1 = key then (swapRemove (c.pool key) i)[s.2]? else c.entryAt s := by
  obtain ⟨-, he, -⟩ := removeAt_some h
  split at he
  · rename_i hnil
    rw [entryAt_erase he, hnil]
    simp
  · rw [entryAt_insert he]

/-- `remove_at` clears a slot, then moves the last entry of the pool into it. -/
theorem removeAt_edit {key : κ} {i : ℕ} {dead : PrefixEntry π} {c' : PrefixCache κ π}
    (h : c.removeAt key i = some (dead, c')) :
    (c'.entryAt = update c.entryAt (key, i) none ∧
      (fun x => c'.lru.lookup x) = update (fun x => c.lru.lookup x) (lruKey dead) none) ∨
    (∃ last moved, update c.entryAt (key, i) none (key, last) = some moved ∧
      c'.entryAt =
        update (update (update c.entryAt (key, i) none) (key, last) none) (key, i) (some moved) ∧
      (fun x => c'.lru.lookup x) =
        update (update (fun x => c.lru.lookup x) (lruKey dead) none) (lruKey moved)
          (some (key, i))) := by
  obtain ⟨hdead, -, hlru, -, -⟩ := removeAt_some h
  obtain ⟨hi, -⟩ := List.getElem?_eq_some_iff.1 (lookup_of_entryAt hdead).2
  by_cases hlast : i + 1 = (c.pool key).length
  · refine .inl ⟨?_, ?_⟩
    · funext ⟨k, j⟩
      rw [removeAt_pool h, getElem?_swapRemove hi]
      by_cases hk : k = key
      · subst hk
        by_cases hj : j = i
        · subst hj; simp [hlast]
        · simp only [if_true, Prod.mk.injEq, hj, and_false, not_false_eq_true, ne_eq, update_of_ne,
            entryAt, if_false]
          split
          · rfl
          · exact (List.getElem?_eq_none (by omega)).symm
      · simp [hk]
    · have hnone : (swapRemove (c.pool key) i)[i]? = none :=
        List.getElem?_eq_none (by simp; omega)
      rw [hlru, hnone, lookup_erase_update]
  · have hlt : i < (c.pool key).length - 1 := by omega
    have hmoved : (c.pool key)[(c.pool key).length - 1]? =
        some (c.pool key)[(c.pool key).length - 1] := List.getElem?_eq_getElem (by omega)
    refine .inr ⟨(c.pool key).length - 1, (c.pool key)[(c.pool key).length - 1], ?_, ?_, ?_⟩
    · rw [update_of_ne (by simp; omega)]
      exact hmoved
    · funext ⟨k, j⟩
      rw [removeAt_pool h, getElem?_swapRemove hi]
      by_cases hk : k = key
      · subst hk
        by_cases hj : j = i
        · subst hj; simp [hmoved]; omega
        · by_cases hjl : j = (c.pool k).length - 1
          · subst hjl; simp [hj]; omega
          · simp only [if_true, Prod.mk.injEq, hj, hjl, and_false, not_false_eq_true, ne_eq,
              update_of_ne, entryAt, if_false]
            split
            · rfl
            · exact (List.getElem?_eq_none (by omega)).symm
      · simp [hk]
    · have hsome : (swapRemove (c.pool key) i)[i]? =
          some (c.pool key)[(c.pool key).length - 1] := by
        rw [getElem?_swapRemove hi, if_pos (by omega), if_pos rfl, hmoved]
      rw [hlru, hsome]
      simp only [lookup_insert_update, lookup_erase_update]

/-- A removal takes the removed entry's weight out of the total, for any weight. -/
theorem removeAt_sumBy (w : PrefixEntry π → ℕ) {key : κ} {i : ℕ} {dead : PrefixEntry π}
    {c' : PrefixCache κ π} (h : c.removeAt key i = some (dead, c')) :
    sumBy (fun p => (p.map w).sum) c'.entries + w dead =
      sumBy (fun p => (p.map w).sum) c.entries := by
  obtain ⟨hdead, hent, -⟩ := removeAt_some h
  obtain ⟨hl, hp⟩ := lookup_of_entryAt hdead
  have hperm : w dead + ((swapRemove (c.pool key) i).map w).sum = ((c.pool key).map w).sum :=
    ((perm_swapRemove hp).map w).sum_eq
  rw [hent]
  split
  · rename_i hnil
    have := sumBy_erase (fun p => (p.map w).sum) hl
    rw [hnil, List.map_nil, List.sum_nil] at hperm
    omega
  · have := sumBy_insert_of_some (fun p => (p.map w).sum) (swapRemove (c.pool key) i) hl
    omega

theorem removeAt_storedBytes {key : κ} {i : ℕ} {dead : PrefixEntry π} {c' : PrefixCache κ π}
    (h : c.removeAt key i = some (dead, c')) :
    c'.storedBytes + dead.bytes = c.storedBytes :=
  removeAt_sumBy PrefixEntry.bytes h

theorem removeAt_nEntries {key : κ} {i : ℕ} {dead : PrefixEntry π} {c' : PrefixCache κ π}
    (h : c.removeAt key i = some (dead, c')) : c'.nEntries + 1 = c.nEntries := by
  have := removeAt_sumBy (fun _ => 1) h
  simpa [nEntries] using this

theorem push_entryAt (key : κ) (e : PrefixEntry π) :
    (c.push key e).entryAt =
      update c.entryAt (key, (c.pool key).length) (some { e with id := c.nextId }) := by
  funext ⟨k, j⟩
  have hins : (c.push key e).entries =
      c.entries.insert key (c.pool key ++ [{ e with id := c.nextId }]) := rfl
  rw [entryAt_insert hins]
  by_cases hk : k = key
  · subst hk
    by_cases hj : j = (c.pool k).length
    · subst hj; simp [pool]
    · simp only [if_true, Prod.mk.injEq, hj, and_false, not_false_eq_true, ne_eq, update_of_ne,
        entryAt]
      rcases Nat.lt_or_gt_of_ne hj with hlt | hgt
      · exact List.getElem?_append_left hlt
      · rw [List.getElem?_eq_none (by simpa [pool] using Nat.succ_le_of_lt hgt),
          List.getElem?_eq_none (Nat.le_of_lt hgt)]
  · simp [hk]

theorem push_storedBytes (key : κ) (e : PrefixEntry π) :
    (c.push key e).storedBytes = c.storedBytes + e.bytes := by
  unfold storedBytes push
  simp only
  cases hl : c.entries.lookup key with
  | none =>
    rw [sumBy_insert_of_none _ _ hl]
    simp [poolBytes]
  | some p =>
    have := sumBy_insert_of_some poolBytes (p ++ [{ e with id := c.nextId }]) hl
    have hp : poolBytes (p ++ [{ e with id := c.nextId }]) = poolBytes p + e.bytes := by
      simp [poolBytes]
    simp only [Option.getD_some]
    omega

/-! ## The operations keep the invariant -/

theorem Rep.empty : Rep ({} : PrefixCache κ π) where
  index := ⟨fun s e h => by simp [entryAt, pool] at h, fun x s h => by simp at h⟩
  fresh s e h := by simp [entryAt, pool] at h
  ids s s' e e' h := by simp [entryAt, pool] at h
  pools k h := by simp at h
  keys s s' e e' h := by simp [entryAt, pool] at h

theorem Rep.evictAll (c : PrefixCache κ π) : Rep c.evictAll where
  index := ⟨fun s e h => by simp [entryAt, pool, PrefixCache.evictAll] at h,
    fun x s h => by simp [PrefixCache.evictAll] at h⟩
  fresh s e h := by simp [entryAt, pool, PrefixCache.evictAll] at h
  ids s s' e e' h := by simp [entryAt, pool, PrefixCache.evictAll] at h
  pools k h := by simp [PrefixCache.evictAll] at h
  keys s s' e e' h := by simp [entryAt, pool, PrefixCache.evictAll] at h

/-- No item of the index is for an id that no stored entry has. -/
theorem Rep.lru_none (h : Rep c) {t n : ℕ} (hn : ∀ s e, c.entryAt s = some e → e.id ≠ n) :
    c.lru.lookup (toLex (t, n)) = none := by
  cases hl : c.lru.lookup (toLex (t, n)) with
  | none => rfl
  | some s =>
    obtain ⟨e, he, hk⟩ := h.index.entry _ s hl
    have hid : (e.lastUse, e.id) = (t, n) := toLex.injective hk
    exact absurd (Prod.mk.inj hid).2 (hn s e he)

theorem Rep.touch (h : Rep c) (key : κ) (i now : ℕ) : Rep (c.touch key i now) := by
  cases he : c.entryAt (key, i) with
  | none => rwa [touch_of_none now he]
  | some e =>
    have hnid : (c.touch key i now).nextId = c.nextId := by rw [touch_of_some now he]
    have hid : ∀ t e', t ≠ (key, i) → c.entryAt t = some e' → e'.id ≠ e.id :=
      fun t e' ht hte' hid => ht (h.ids _ _ _ _ hte' he hid)
    have hkey : ∀ t e', t ≠ (key, i) → c.entryAt t = some e' →
        (t.1, e'.toks) ≠ (key, e.toks) :=
      fun t e' ht hte' hk => ht (h.keys _ _ _ _ hte' he hk)
    refine ⟨?_, ?_, ?_, fun k => ?_, ?_⟩
    · rw [touch_entryAt now he, touch_lru now he]
      refine h.index.replace he ?_
      -- the new key is that of the touched entry or of no entry
      by_cases hk : lruKey { e with lastUse := now } = lruKey e
      · rw [hk, update_self]
      · rw [update_of_ne hk]
        cases hl : c.lru.lookup (lruKey { e with lastUse := now }) with
        | none => rfl
        | some s =>
          obtain ⟨e', he', hk'⟩ := h.index.entry _ s hl
          have hpair : (e'.lastUse, e'.id) = (now, e.id) := toLex.injective hk'
          have hs := h.ids _ _ _ _ he' he (Prod.mk.inj hpair).2
          rw [hs, he] at he'
          obtain rfl := Option.some.inj he'
          exact absurd hk'.symm hk
    · rw [touch_entryAt now he, hnid]
      intro s e' hs
      by_cases hsk : s = (key, i)
      · subst hsk
        rw [update_self] at hs
        obtain rfl := Option.some.inj hs
        exact h.fresh _ e he
      · rw [update_of_ne hsk] at hs
        exact h.fresh s e' hs
    · rw [touch_entryAt now he]
      exact h.ids.fill hid
    · obtain ⟨hl, hp⟩ := lookup_of_entryAt he
      rw [touch_of_some now he]
      refine pools_insert h.pools ?_ k
      intro hnil
      have hp0 : c.pool key = [] := by
        simpa using congrArg List.length hnil
      exact h.pools key (by rw [hl, hp0])
    · rw [touch_entryAt now he]
      exact h.keys.fill hkey

theorem Rep.push (h : Rep c) {key : κ} {e : PrefixEntry π} (hk : c.hasKey key e.toks = false) :
    Rep (c.push key e) := by
  have hfree : c.entryAt (key, (c.pool key).length) = none := by simp [entryAt]
  have hid : ∀ s e', c.entryAt s = some e' → e'.id ≠ c.nextId :=
    fun s e' hs => Nat.ne_of_lt (h.fresh s e' hs)
  refine ⟨?_, ?_, ?_, fun k => ?_, ?_⟩
  · rw [push_entryAt]
    have hlru : (fun x => (c.push key e).lru.lookup x) =
        update (fun x => c.lru.lookup x) (lruKey { e with id := c.nextId })
          (some (key, (c.pool key).length)) := lookup_insert_update _ _ _
    rw [hlru]
    exact h.index.fill hfree (h.lru_none hid)
  · rw [push_entryAt]
    intro s e' hs
    by_cases hsk : s = (key, (c.pool key).length)
    · subst hsk
      rw [update_self] at hs
      obtain rfl := Option.some.inj hs
      exact Nat.lt_succ_self c.nextId
    · rw [update_of_ne hsk] at hs
      exact Nat.lt_succ_of_lt (h.fresh s e' hs)
  · rw [push_entryAt]
    exact h.ids.fill fun t e' _ ht => hid t e' ht
  · exact pools_insert h.pools (by simp) k
  · rw [push_entryAt]
    refine h.keys.fill fun t e' _ ht heq => ?_
    obtain ⟨k, j⟩ := t
    obtain ⟨rfl, htoks⟩ := Prod.mk.inj heq
    obtain ⟨hl, hp⟩ := lookup_of_entryAt ht
    simp only [hasKey, hl] at hk
    have := List.any_eq_false.1 hk e' (List.mem_of_getElem? hp)
    simp [htoks] at this

theorem Rep.removeAt (h : Rep c) {key : κ} {i : ℕ} {dead : PrefixEntry π}
    {c' : PrefixCache κ π} (hr : c.removeAt key i = some (dead, c')) : Rep c' := by
  obtain ⟨hdead, hent, -, hnid, -⟩ := removeAt_some hr
  have hpools : ∀ k, c'.entries.lookup k ≠ some [] := by
    intro k
    rw [hent]
    split
    · by_cases hk : k = key
      · subst hk; simp
      · rw [AList.lookup_erase_ne hk]; exact h.pools k
    · rename_i hne
      exact pools_insert h.pools hne k
  have hfresh : ∀ s e, c'.entryAt s = some e → e.id < c'.nextId := by
    intro s e hs
    rw [hnid]
    rw [removeAt_pool hr] at hs
    split at hs
    · have hmem : e ∈ c.pool key :=
        (perm_swapRemove (lookup_of_entryAt hdead).2).subset
          (List.mem_cons_of_mem _ (List.mem_of_getElem? hs))
      obtain ⟨j, hj⟩ := List.mem_iff_getElem?.1 hmem
      exact h.fresh (key, j) e hj
    · exact h.fresh s e hs
  rcases removeAt_edit hr with ⟨hocc, hlru⟩ | ⟨last, moved, hmoved, hocc, hlru⟩
  · refine ⟨?_, hfresh, ?_, hpools, ?_⟩
    · rw [hocc, hlru]; exact h.index.clear hdead
    · rw [hocc]; exact h.ids.clear _
    · rw [hocc]; exact h.keys.clear _
  · refine ⟨?_, hfresh, ?_, hpools, ?_⟩
    · rw [hocc, hlru]; exact (h.index.clear hdead).move hmoved (by simp)
    · rw [hocc]; exact (h.ids.clear _).move hmoved rfl
    · rw [hocc]; exact (h.keys.clear _).move hmoved rfl

end Memra.PrefixCache
