import Memra.Server.Proof.PrefixCacheRep

/-!
# The prefix cache over sequences of operations

`Evicts budget c c'` is the eviction policy in terms of the stored entries alone: while over the
budget, the entry with the least `(last_use, id)` of all pools goes. `evictLoop_evicts` shows that
the loop of `insert_with_budget` is such a run, `lookup_spec` that `lookup` serves the longest
entry of the caller's pool that prefixes the prompt, and `run_rep` carries `Rep` and the byte count
along every sequence of operations from the empty cache.
-/

namespace Memra.PrefixCache

open Lib Function

variable {κ π : Type} [DecidableEq κ] {c : PrefixCache κ π}

/-- Eviction as a policy: the least recently used entry goes, until the rest fits. -/
inductive Evicts (budget : ℕ) : PrefixCache κ π → PrefixCache κ π → Prop
  | stop {c : PrefixCache κ π} (fits : c.totalBytes ≤ budget ∨ c.stored = ∅) : Evicts budget c c
  | victim {c c₁ c' : PrefixCache κ π} {k : κ} {e : PrefixEntry π}
      (exceeds : budget < c.totalBytes) (mem : (k, e) ∈ c.stored)
      (least : ∀ x ∈ c.stored, lruKey e ≤ lruKey x.2)
      (stored : c₁.stored = c.stored \ {(k, e)})
      (bytes : c₁.totalBytes = c.totalBytes - e.bytes)
      (rest : Evicts budget c₁ c') : Evicts budget c c'

/-- `e` can be served to `prompt`. -/
def Serves (e : PrefixEntry π) (prompt : List Tok) : Prop :=
  prefixCacheMinTokens ≤ e.toks.length ∧ e.toks <+: prompt

/-- `insert_with_budget` returns early: an entry over the budget, or a token list already there. -/
def Skips (c : PrefixCache κ π) (key : κ) (e : PrefixEntry π) (budget : ℕ) : Prop :=
  budget < e.bytes ∨ ∃ i e', c.entryAt (key, i) = some e' ∧ e'.toks = e.toks

/-- What `insert_with_budget` does: nothing when it skips, else store the entry under a fresh id
and evict; afterwards the budget holds, up to the bytes `out` handed out by `remove_at`. -/
def InsertSpec (c : PrefixCache κ π) (out : ℕ) (key : κ) (e : PrefixEntry π) (budget : ℕ) : Prop :=
  (c.Skips key e budget → c.insertWithBudget key e budget = c) ∧
  (¬ c.Skips key e budget →
    (c.insertWithBudget key e budget).totalBytes ≤ max budget out ∧
    ∃ c₀ : PrefixCache κ π, c₀.stored = insert (key, { e with id := c.nextId }) c.stored ∧
      c₀.totalBytes = c.totalBytes + e.bytes ∧ Evicts budget c₀ (c.insertWithBudget key e budget))

/-- What `lookup` returns: the longest entry of pool `key` that can be served to `prompt`. -/
def LookupSpec (c : PrefixCache κ π) (key : κ) (prompt : List Tok) : Prop :=
  ∀ i, c.lookup key prompt = some i ↔ ∃ e, c.entryAt (key, i) = some e ∧ Serves e prompt ∧
    ∀ j e', c.entryAt (key, j) = some e' → Serves e' prompt → e'.toks.length ≤ e.toks.length

/-! ## Stored entries -/

theorem mem_stored {k : κ} {e : PrefixEntry π} : (k, e) ∈ c.stored ↔ e ∈ c.pool k := by
  simp only [stored, entryAt, Set.mem_ofPred_eq, List.mem_iff_getElem?]

theorem stored_push (key : κ) (e : PrefixEntry π) :
    (c.push key e).stored = insert (key, { e with id := c.nextId }) c.stored := by
  ext ⟨k, e'⟩
  have hp : (c.push key e).pool k =
      if k = key then c.pool key ++ [{ e with id := c.nextId }] else c.pool k := by
    by_cases hk : k = key
    · subst hk; simp [pool, push]
    · simp [pool, push, AList.lookup_insert_ne hk, hk]
  rw [Set.mem_insert_iff, mem_stored, mem_stored, hp]
  by_cases hk : k = key
  · subst hk; simp [or_comm]
  · simp [hk]

theorem Rep.pool_nodup (h : Rep c) (k : κ) : (c.pool k).Nodup := by
  refine List.nodup_iff_injective_get.2 fun i j hij => ?_
  have hi : c.entryAt (k, i) = some ((c.pool k).get i) := List.getElem?_eq_getElem i.2
  have hj : c.entryAt (k, j) = some ((c.pool k).get j) := List.getElem?_eq_getElem j.2
  have := h.ids _ _ _ _ hi hj (congrArg PrefixEntry.id hij)
  exact Fin.ext (Prod.mk.inj this).2

theorem Rep.stored_removeAt (h : Rep c) {key : κ} {i : ℕ} {dead : PrefixEntry π}
    {c' : PrefixCache κ π} (hr : c.removeAt key i = some (dead, c')) :
    c'.stored = c.stored \ {(key, dead)} := by
  have hperm := perm_swapRemove (lookup_of_entryAt (removeAt_some hr).1).2
  have hnd := hperm.nodup_iff.2 (h.pool_nodup key)
  have hmem : ∀ e, e ∈ c.pool key ↔ e = dead ∨ e ∈ swapRemove (c.pool key) i := fun e => by
    rw [← hperm.mem_iff, List.mem_cons]
  have hdead : dead ∉ swapRemove (c.pool key) i := (List.nodup_cons.1 hnd).1
  ext ⟨k, e⟩
  simp only [stored, Set.mem_ofPred_eq, Set.mem_sdiff, Set.mem_singleton_iff, Prod.mk.injEq,
    removeAt_pool hr]
  by_cases hk : k = key
  · subst hk
    simp only [if_true, true_and, entryAt, ← List.mem_iff_getElem?, hmem]
    constructor
    · intro he
      exact ⟨.inr he, fun heq => hdead (heq ▸ he)⟩
    · rintro ⟨rfl | he, hne⟩
      · exact absurd rfl hne
      · exact he
  · simp [hk]

theorem stored_eq_empty_of_nEntries (h : c.nEntries = 0) : c.stored = ∅ := by
  refine Set.eq_empty_iff_forall_notMem.2 fun ⟨k, e⟩ he => ?_
  obtain ⟨i, hi⟩ := he
  obtain ⟨hl, hp⟩ := lookup_of_entryAt hi
  have hlen : (c.pool k).length ≤ c.nEntries := le_sumBy List.length hl
  have hnil : c.pool k = [] := List.length_eq_zero_iff.1 (by omega)
  simp [hnil] at hp

theorem storedBytes_eq_zero (h : c.stored = ∅) : c.storedBytes = 0 := by
  refine sumBy_eq_zero poolBytes fun k p hp => ?_
  have hnil : p = [] := by
    refine List.eq_nil_iff_forall_not_mem.2 fun e he => ?_
    have : (k, e) ∈ c.stored := mem_stored.2 (by rwa [pool_of_lookup hp])
    rw [h] at this
    exact this
  rw [hnil]
  rfl

/-! ## The eviction loop -/

/-- The loop runs the policy, and keeps the invariant and the byte count. -/
theorem evictLoop_evicts (budget out fuel : ℕ) (h : Rep c) (hf : c.nEntries ≤ fuel)
    (hb : c.totalBytes = c.storedBytes + out) :
    Evicts budget c (evictLoop budget fuel c) ∧ Rep (evictLoop budget fuel c) ∧
      (evictLoop budget fuel c).totalBytes = (evictLoop budget fuel c).storedBytes + out := by
  induction fuel generalizing c with
  | zero => exact ⟨.stop (.inr (stored_eq_empty_of_nEntries (by omega))), h, hb⟩
  | succ fuel ih =>
    unfold evictLoop
    split
    · rename_i hover
      cases hfirst : firstKeyValue c.lru with
      | none =>
        have hempty : c.stored = ∅ := by
          refine Set.eq_empty_iff_forall_notMem.2 fun ⟨k, e⟩ ⟨i, hi⟩ => ?_
          have := h.index.item _ e hi
          rw [firstKeyValue_eq_none.1 hfirst] at this
          exact Option.some_ne_none _ this.symm
        exact ⟨.stop (.inr hempty), h, hb⟩
      | some x =>
        obtain ⟨t, k, i⟩ := x
        obtain ⟨e, he, hk⟩ := h.index.entry t (k, i) (lookup_of_firstKeyValue hfirst)
        simp only
        cases hr : c.removeAt k i with
        | none => rw [removeAt_eq_none, he] at hr; cases hr
        | some r =>
          obtain ⟨dead, c₁⟩ := r
          obtain ⟨hdead, -, -, -, htot⟩ := removeAt_some hr
          rw [he] at hdead
          obtain rfl := Option.some.inj hdead
          have hsb := removeAt_storedBytes hr
          have hne := removeAt_nEntries hr
          have hleast : ∀ x ∈ c.stored, lruKey e ≤ lruKey x.2 := by
            intro x ⟨j, hj⟩
            rw [hk]
            exact firstKeyValue_le hfirst (h.index.item _ x.2 hj)
          let c₂ : PrefixCache κ π :=
            { c₁ with totalBytes := c₁.totalBytes - e.bytes, evictions := c₁.evictions + 1 }
          have hrep := h.removeAt hr
          have hrep₂ : Rep c₂ := ⟨hrep.index, hrep.fresh, hrep.ids, hrep.pools, hrep.keys⟩
          have hb₂ : c₂.totalBytes = c₂.storedBytes + out := by
            change c₁.totalBytes - e.bytes = c₁.storedBytes + out
            omega
          obtain ⟨hev, hres⟩ := ih (c := c₂) hrep₂ (by change c₁.nEntries ≤ fuel; omega) hb₂
          have hst := h.stored_removeAt hr
          have hst₂ : c₂.stored = c.stored \ {(k, e)} := hst
          have htot₂ : c₂.totalBytes = c.totalBytes - e.bytes := by
            change c₁.totalBytes - e.bytes = _
            rw [htot]
          exact ⟨.victim hover ⟨i, he⟩ hleast hst₂ htot₂ hev, hres⟩
    · exact ⟨.stop (.inl (by omega)), h, hb⟩

/-- Once the policy stops, the rest fits, or nothing is left to evict. -/
theorem Evicts.fits {budget : ℕ} {c c' : PrefixCache κ π} (h : Evicts budget c c') :
    c'.totalBytes ≤ budget ∨ c'.stored = ∅ := by
  induction h with
  | stop fits => exact fits
  | victim _ _ _ _ _ _ ih => exact ih

theorem hasKey_iff {key : κ} {toks : List Tok} :
    c.hasKey key toks = true ↔ ∃ i e, c.entryAt (key, i) = some e ∧ e.toks = toks := by
  unfold hasKey
  cases hl : c.entries.lookup key with
  | none => simp [entryAt, pool, hl]
  | some p =>
    simp only [entryAt, pool_of_lookup hl, List.any_eq_true, decide_eq_true_eq,
      List.mem_iff_getElem?]
    constructor
    · rintro ⟨e, ⟨i, hi⟩, he⟩; exact ⟨i, e, hi, he⟩
    · rintro ⟨i, e, hi, he⟩; exact ⟨e, ⟨i, hi⟩, he⟩

theorem skips_iff {key : κ} {e : PrefixEntry π} {budget : ℕ} :
    c.Skips key e budget ↔ budget < e.bytes ∨ c.hasKey key e.toks = true := by
  rw [hasKey_iff, Skips]

theorem insertWithBudget_of_skips {key : κ} {e : PrefixEntry π} {budget : ℕ}
    (h : c.Skips key e budget) : c.insertWithBudget key e budget = c := by
  unfold insertWithBudget
  rcases skips_iff.1 h with hbig | hkey
  · rw [if_pos hbig]
  · rw [if_pos hkey, ite_self]

theorem insertWithBudget_of_not_skips {key : κ} {e : PrefixEntry π} {budget : ℕ}
    (h : ¬ c.Skips key e budget) :
    c.insertWithBudget key e budget =
      evictLoop budget (c.push key e).nEntries (c.push key e) := by
  rw [skips_iff, not_or] at h
  unfold insertWithBudget
  rw [if_neg h.1, if_neg h.2]

theorem Rep.insertWithBudget (h : Rep c) {out : ℕ} (hb : c.totalBytes = c.storedBytes + out)
    (key : κ) (e : PrefixEntry π) (budget : ℕ) :
    InsertSpec c out key e budget ∧ Rep (c.insertWithBudget key e budget) ∧
      (c.insertWithBudget key e budget).totalBytes =
        (c.insertWithBudget key e budget).storedBytes + out := by
  by_cases hs : c.Skips key e budget
  · refine ⟨⟨insertWithBudget_of_skips, fun hns => absurd hs hns⟩, ?_⟩
    rw [insertWithBudget_of_skips hs]
    exact ⟨h, hb⟩
  · have hkey : c.hasKey key e.toks = false := by
      rw [skips_iff, not_or] at hs
      exact Bool.not_eq_true _ ▸ hs.2
    have hbp : (c.push key e).totalBytes = (c.push key e).storedBytes + out := by
      rw [push_storedBytes]
      change c.totalBytes + e.bytes = _
      omega
    obtain ⟨hev, hrep, hbytes⟩ := evictLoop_evicts budget out _ (h.push hkey) le_rfl hbp
    rw [InsertSpec, insertWithBudget_of_not_skips hs]
    refine ⟨⟨fun hsk => absurd hsk hs, fun _ => ⟨?_, c.push key e, stored_push key e, rfl, hev⟩⟩,
      hrep, hbytes⟩
    rcases hev.fits with hfit | hempty
    · exact le_trans hfit (le_max_left _ _)
    · rw [hbytes, storedBytes_eq_zero hempty, Nat.zero_add]
      exact le_max_right _ _

/-! ## Lookup -/

theorem serves_iff {e : PrefixEntry π} {prompt : List Tok} :
    Serves e prompt ↔ prefixCacheMinTokens ≤ e.toks.length ∧ e.toks.length ≤ prompt.length ∧
      prompt.take e.toks.length = e.toks := by
  unfold Serves
  rw [List.prefix_iff_eq_take]
  constructor
  · rintro ⟨hmin, heq⟩
    have := congrArg List.length heq
    rw [List.length_take] at this
    exact ⟨hmin, by omega, heq.symm⟩
  · rintro ⟨hmin, -, heq⟩
    exact ⟨hmin, heq.symm⟩

/-- What the scan returns, from position `i` with `best` so far: induction on the rest of the
pool. -/
theorem lookupFrom_spec (prompt : List Tok) (pool : List (PrefixEntry π)) (i : ℕ)
    (best : Option (ℕ × ℕ)) :
    (lookupFrom prompt i best pool = none → best = none ∧ ∀ e ∈ pool, ¬ Serves e prompt) ∧
    ∀ j n, lookupFrom prompt i best pool = some (j, n) →
      (best = some (j, n) ∨
        ∃ k e, pool[k]? = some e ∧ j = i + k ∧ Serves e prompt ∧ e.toks.length = n) ∧
      (∀ e ∈ pool, Serves e prompt → e.toks.length ≤ n) ∧ ∀ b ∈ best, b.2 ≤ n := by
  induction pool generalizing i best with
  | nil =>
    refine ⟨fun h => ⟨h, fun e he => absurd he List.not_mem_nil⟩, fun j n h => ?_⟩
    have h : best = some (j, n) := h
    exact ⟨.inl h, fun e he => absurd he List.not_mem_nil, fun b hb => by
      rw [h] at hb; obtain rfl := Option.some.inj hb; exact le_rfl⟩
  | cons e pool ih =>
    unfold lookupFrom
    simp only
    split
    · rename_i hc
      obtain ⟨hmin, hle, htake, hbest⟩ := hc
      have hserve : Serves e prompt := serves_iff.2 ⟨hmin, hle, htake⟩
      obtain ⟨ihn, ihs⟩ := ih (i + 1) (some (i, e.toks.length))
      refine ⟨fun h => absurd (ihn h).1 (Option.some_ne_none _), fun j n h => ?_⟩
      obtain ⟨hfound, hmax, hb⟩ := ihs j n h
      have hen : e.toks.length ≤ n := hb _ rfl
      refine ⟨.inr ?_, fun e' he' hs => ?_, fun b hbb => ?_⟩
      · rcases hfound with heq | ⟨k, e', hk, hj, hs, hn⟩
        · obtain ⟨rfl, rfl⟩ := Prod.mk.inj (Option.some.inj heq)
          exact ⟨0, e, rfl, rfl, hserve, rfl⟩
        · exact ⟨k + 1, e', by simpa using hk, by omega, hs, hn⟩
      · rcases List.mem_cons.1 he' with rfl | he'
        · exact hen
        · exact hmax e' he' hs
      · subst hbb
        have : b.2 < e.toks.length := by simpa using hbest
        omega
    · rename_i hc
      obtain ⟨ihn, ihs⟩ := ih (i + 1) best
      refine ⟨fun h => ?_, fun j n h => ?_⟩
      · obtain ⟨hbest, hrest⟩ := ihn h
        refine ⟨hbest, fun e' he' hs => ?_⟩
        rcases List.mem_cons.1 he' with rfl | he'
        · obtain ⟨h1, h2, h3⟩ := serves_iff.1 hs
          exact hc ⟨h1, h2, h3, by simp [hbest]⟩
        · exact hrest e' he' hs
      · obtain ⟨hfound, hmax, hb⟩ := ihs j n h
        refine ⟨?_, fun e' he' hs => ?_, hb⟩
        · rcases hfound with heq | ⟨k, e', hk, hj, hs, hn⟩
          · exact .inl heq
          · exact .inr ⟨k + 1, e', by simpa using hk, by omega, hs, hn⟩
        · rcases List.mem_cons.1 he' with rfl | he'
          -- a servable entry is passed over only for a `best` at least as long
          · obtain ⟨h1, h2, h3⟩ := serves_iff.1 hs
            by_contra hlt
            refine hc ⟨h1, h2, h3, ?_⟩
            cases best with
            | none => rfl
            | some b =>
              have := hb b rfl
              simp only [Option.all_some, decide_eq_true_eq]
              omega
          · exact hmax e' he' hs

theorem Rep.lookup (h : Rep c) (key : κ) (prompt : List Tok) : LookupSpec c key prompt := by
  intro i
  have hpool : c.lookup key prompt = (lookupFrom prompt 0 none (c.pool key)).map (·.1) := by
    unfold PrefixCache.lookup pool
    cases c.entries.lookup key <;> rfl
  obtain ⟨hnone, hsome⟩ := lookupFrom_spec prompt (c.pool key) 0 none
  rw [hpool]
  constructor
  · intro hl
    obtain ⟨⟨j, n⟩, hj, rfl⟩ := Option.map_eq_some_iff.1 hl
    obtain ⟨hfound, hmax, -⟩ := hsome j n hj
    obtain ⟨k, e, hk, hjk, hs, rfl⟩ := hfound.resolve_left (Option.some_ne_none _).symm
    obtain rfl : j = k := by omega
    exact ⟨e, hk, hs, fun j' e' he' hs' => hmax e' (List.mem_of_getElem? he') hs'⟩
  · rintro ⟨e, he, hs, hlongest⟩
    cases hj : lookupFrom prompt 0 none (c.pool key) with
    | none => exact absurd hs ((hnone hj).2 e (List.mem_of_getElem? he))
    | some jn =>
      obtain ⟨j, n⟩ := jn
      obtain ⟨hfound, hmax, -⟩ := hsome j n hj
      obtain ⟨k, e', hk, hjk, hs', rfl⟩ := hfound.resolve_left (Option.some_ne_none _).symm
      obtain rfl : j = k := by omega
      -- two servable entries of one length are the same prefix of the prompt, so the same entry
      have hlen : e.toks.length = e'.toks.length :=
        le_antisymm (hmax e (List.mem_of_getElem? he) hs) (hlongest j e' hk hs')
      have htoks : e.toks = e'.toks := by
        rw [← (serves_iff.1 hs).2.2, ← (serves_iff.1 hs').2.2, hlen]
      have := h.keys (key, i) (key, j) e e' he hk (Prod.ext rfl htoks)
      rw [(Prod.mk.inj this).2]
      rfl

/-! ## Runs -/

/-- One operation keeps the invariant and the byte count. -/
theorem Rep.apply (h : Rep c) {out : ℕ} (hb : c.totalBytes = c.storedBytes + out) (op : Op κ π) :
    Rep (c.apply op) ∧ (c.apply op).totalBytes = (c.apply op).storedBytes + c.handOut out op := by
  cases op with
  | insertWithBudget key e budget => exact (h.insertWithBudget hb key e budget).2
  | touch key i now =>
    refine ⟨h.touch key i now, ?_⟩
    change (c.touch key i now).totalBytes = (c.touch key i now).storedBytes + out
    rw [touch_storedBytes]
    cases he : c.entryAt (key, i) with
    | none => rw [touch_of_none now he]; exact hb
    | some e => rw [touch_of_some now he]; exact hb
  | removeAt key i =>
    simp only [PrefixCache.apply, handOut]
    cases hr : c.removeAt key i with
    | none => exact ⟨h, hb⟩
    | some r =>
      obtain ⟨dead, c'⟩ := r
      refine ⟨h.removeAt hr, ?_⟩
      have hs := removeAt_storedBytes hr
      obtain ⟨-, -, -, -, ht⟩ := removeAt_some hr
      simp only [Option.elim_some]
      omega
  | evictAll => exact ⟨Rep.evictAll c, rfl⟩

/-- The invariant and the byte count over a run: induction on the operations. -/
theorem run_rep (ops : List (Op κ π)) :
    Rep (run ops).1 ∧ (run ops).1.totalBytes = (run ops).1.storedBytes + (run ops).2 := by
  suffices ∀ s : PrefixCache κ π × ℕ, Rep s.1 ∧ s.1.totalBytes = s.1.storedBytes + s.2 →
      Rep (runFrom s ops).1 ∧
        (runFrom s ops).1.totalBytes = (runFrom s ops).1.storedBytes + (runFrom s ops).2 from
    this _ ⟨Rep.empty, rfl⟩
  induction ops with
  | nil => exact fun s hs => hs
  | cons op ops ih => exact fun s hs => ih _ (hs.1.apply hs.2 op)

/-- **The representation invariant over every sequence of operations.** The recency index is in
bijection with the stored entries, `total_bytes` is their sum plus what direct `remove_at` calls
handed out, no pool is empty or holds a token list twice, and the next `insert_with_budget` and
`lookup` do what `InsertSpec` and `LookupSpec` say. -/
theorem representation (ops : List (Op κ π)) :
    (∀ x s, (run ops).1.lru.lookup x = some s ↔
      ∃ e, (run ops).1.entryAt s = some e ∧ lruKey e = x) ∧
    (run ops).1.totalBytes = (run ops).1.storedBytes + (run ops).2 ∧
    (∀ k, (run ops).1.entries.lookup k ≠ some []) ∧
    (∀ k i j e e', (run ops).1.entryAt (k, i) = some e → (run ops).1.entryAt (k, j) = some e' →
      e.toks = e'.toks → i = j) ∧
    (∀ key e budget, InsertSpec (run ops).1 (run ops).2 key e budget) ∧
    ∀ key prompt, LookupSpec (run ops).1 key prompt := by
  obtain ⟨hrep, hb⟩ := run_rep ops
  refine ⟨hrep.index.iff_occ, hb, hrep.pools, fun k i j e e' he he' ht => ?_,
    fun key e budget => (hrep.insertWithBudget hb key e budget).1, hrep.lookup⟩
  have := hrep.keys (k, i) (k, j) e e' he he' (Prod.ext rfl ht)
  exact (Prod.mk.inj this).2

/-- The byte count and the longest-prefix lookup in their unqualified form fail: a direct
`remove_at` leaves `total_bytes`, a skipped insert evicts nothing under a smaller budget, and an
entry below `PREFIX_CACHE_MIN_TOKENS` is not served. -/
theorem unqualified_fails :
    (let e : PrefixEntry Unit := { toks := [1], payload := (), bytes := 5, lastUse := 0, id := 0 }
     let ops := [Op.insertWithBudget 0 e 10, Op.removeAt 0 0]
     (run ops).1.totalBytes ≠ (run ops).1.storedBytes) ∧
    (let e : PrefixEntry Unit := { toks := [1], payload := (), bytes := 5, lastUse := 0, id := 0 }
     let ops := [Op.insertWithBudget 0 e 10, Op.insertWithBudget 0 e 3]
     ¬ (run ops).1.totalBytes ≤ 3) ∧
    (let e : PrefixEntry Unit := { toks := [1], payload := (), bytes := 5, lastUse := 0, id := 0 }
     let ops := [Op.insertWithBudget 0 e 10]
     (run ops).1.entryAt (0, 0) = some e ∧ e.toks <+: [1, 2] ∧
       (run ops).1.lookup 0 [1, 2] = none) := by
  decide

end Memra.PrefixCache
