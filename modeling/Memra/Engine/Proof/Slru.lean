import Memra.Engine.Slru
import Memra.Lib.Runs

/-!
# The intrusive SLRU is the pair of queues

`IsList links q xs`: the links of `q` run through `xs`, forwards and backwards, and `q` counts it.
`ClassRel` relates a size class to the reference: both segments are such lists of the reference's queues,
and the tag of a slot of the class says in which one it is. Pushing and unlinking keep this
(`ClassRel.pushProbation` and its neighbours), every operation is made of these (`ClassRel.step`), and what
one class does leaves the links of the other classes' slots alone, so it holds along a run.
-/

namespace Memra

namespace Slru

open Function

/-! ## Links -/

section
variable (links : Links) (o v : Option ℕ)

theorem next_setNext : (fun s => (setNext links o v s).next) =
    Lib.setAt (fun s => (links s).next) o v := by
  cases o with
  | none => rfl
  | some t =>
    funext s
    by_cases hs : s = t
    · subst hs
      simp [setNext, Lib.setAt]
    · simp [setNext, Lib.setAt, hs]

theorem prev_setPrev : (fun s => (setPrev links o v s).prev) =
    Lib.setAt (fun s => (links s).prev) o v := by
  cases o with
  | none => rfl
  | some t =>
    funext s
    by_cases hs : s = t
    · subst hs
      simp [setPrev, Lib.setAt]
    · simp [setPrev, Lib.setAt, hs]

@[simp] theorem prev_setNext (s : ℕ) : (setNext links o v s).prev = (links s).prev := by
  cases o with
  | none => rfl
  | some t => by_cases hs : s = t <;> simp [setNext, hs]

@[simp] theorem next_setPrev (s : ℕ) : (setPrev links o v s).next = (links s).next := by
  cases o with
  | none => rfl
  | some t => by_cases hs : s = t <;> simp [setPrev, hs]

@[simp] theorem seg_setNext (s : ℕ) : (setNext links o v s).seg = (links s).seg := by
  cases o with
  | none => rfl
  | some t => by_cases hs : s = t <;> simp [setNext, hs]

@[simp] theorem seg_setPrev (s : ℕ) : (setPrev links o v s).seg = (links s).seg := by
  cases o with
  | none => rfl
  | some t => by_cases hs : s = t <;> simp [setPrev, hs]

variable {links o}

theorem setNext_of_ne {s : ℕ} (h : o ≠ some s) : setNext links o v s = links s := by
  cases o with
  | none => rfl
  | some t => exact update_of_ne (by rintro rfl; exact h rfl) _ _

theorem setPrev_of_ne {s : ℕ} (h : o ≠ some s) : setPrev links o v s = links s := by
  cases o with
  | none => rfl
  | some t => exact update_of_ne (by rintro rfl; exact h rfl) _ _

end

/-! ## Lists -/

/-- The links of `q` run through `xs`. -/
structure IsList (links : Links) (q : SlruList) (xs : List ℕ) : Prop where
  head : q.head = xs.head?
  tail : q.tail = xs.getLast?
  len : q.len = xs.length
  nodup : xs.Nodup
  linked : Lib.LinkSeg (fun s => (links s).prev) (fun s => (links s).next) none xs none

/-- Nothing but `s` and its neighbours in `xs` was touched, and no other tag. -/
structure Touched (links links' : Links) (xs : List ℕ) (s : ℕ) : Prop where
  seg : ∀ t, t ≠ s → (links' t).seg = (links t).seg
  frame : ∀ t, t ≠ s → t ∉ xs → links' t = links t

namespace IsList

variable {links links' : Links} {q : SlruList} {xs : List ℕ} {s : ℕ}

theorem congr (h : IsList links q xs) (hf : ∀ t ∈ xs, links' t = links t) : IsList links' q xs :=
  ⟨h.head, h.tail, h.len, h.nodup,
    h.linked.congr (fun t ht => by rw [hf t ht]) fun t ht => by rw [hf t ht]⟩

theorem iter_eq (h : IsList links q xs) : q.iter links = some xs := by
  rw [SlruList.iter, h.head]
  exact h.linked.walk_eq h.len.ge

theorem pushBack (h : IsList links q xs) (hs : s ∉ xs) (seg : SlruSeg) :
    IsList (q.pushBack s links seg).2 (q.pushBack s links seg).1 (xs ++ [s]) ∧
    ((q.pushBack s links seg).2 s).seg = seg ∧ Touched links (q.pushBack s links seg).2 xs s := by
  have hlast : ∀ t, t ∉ xs → q.tail ≠ some t := by
    intro t ht hl
    exact ht (List.mem_of_getLast? (h.tail ▸ hl))
  refine ⟨⟨?_, ?_, ?_, ?_, ?_⟩, ?_, ⟨fun t ht => ?_, fun t ht htx => ?_⟩⟩
  · cases xs with
    | nil => simp [SlruList.pushBack, h.tail]
    | cons x xs => simp [SlruList.pushBack, h.tail, h.head]
  · simp [SlruList.pushBack]
  · simp [SlruList.pushBack, h.len]
  · simpa [List.nodup_append, h.nodup] using fun x hx => by rintro rfl; exact hs hx
  · have hpush := h.linked.pushBack h.nodup hs
    simp only [SlruList.pushBack, next_setNext, prev_setNext]
    rw [h.tail]
    convert hpush using 1
    · funext t
      by_cases ht : t = s <;> simp [ht]
    · congr 1
      funext t
      by_cases ht : t = s <;> simp [ht]
  · simp [SlruList.pushBack]
  · simp [SlruList.pushBack, ht]
  · change setNext _ _ _ t = _
    rw [setNext_of_ne _ (hlast t htx), update_of_ne ht]

theorem unlink (h : IsList links q xs) (hs : s ∈ xs) :
    IsList (q.unlink s links).2 (q.unlink s links).1 (xs.erase s) ∧
    (q.unlink s links).2 s = {} ∧ Touched links (q.unlink s links).2 xs s := by
  obtain ⟨ys, zs, rfl⟩ := List.append_of_mem hs
  obtain ⟨hp, hn, hrest⟩ := h.linked.unlink h.nodup
  have hsplit : s ∉ ys ∧ s ∉ zs := by
    have := h.nodup
    simp only [List.nodup_append, List.nodup_cons, List.mem_cons] at this
    exact ⟨fun hy => this.2.2 s hy s (.inl rfl) rfl, this.2.1.1⟩
  have herase : (ys ++ s :: zs).erase s = ys ++ zs := by
    rw [List.erase_append_right _ hsplit.1, List.erase_cons_head]
  rw [herase]
  have hprev : ∀ t, t ∉ ys → (links s).prev ≠ some t := by
    intro t ht hl
    rw [hp] at hl
    exact ht (List.mem_of_getLast? hl)
  have hnext : ∀ t, t ∉ zs → (links s).next ≠ some t := by
    intro t ht hl
    rw [hn] at hl
    exact ht (List.mem_of_head? hl)
  refine ⟨⟨?_, ?_, ?_, ?_, ?_⟩, ?_, ⟨fun t ht => ?_, fun t ht htx => ?_⟩⟩
  · simp only [SlruList.unlink, hp, hn, h.head]
    cases ys <;> simp
  · simp only [SlruList.unlink, hp, hn, h.tail]
    rcases zs.eq_nil_or_concat with rfl | ⟨zs, z, rfl⟩
    · simp
    · simp [List.getLast?_cons]
  · simp [SlruList.unlink, h.len]
  · have := h.nodup.erase s
    rwa [herase] at this
  · refine hrest.congr (fun t ht => ?_) fun t ht => ?_
    all_goals
      have hts : t ≠ s := by
        rintro rfl
        rcases List.mem_append.1 ht with ht | ht
        · exact hsplit.1 ht
        · exact hsplit.2 ht
    · simp only [SlruList.unlink, update_of_ne hts]
      rw [congrFun (prev_setPrev _ _ _) t]
      simp
    · simp only [SlruList.unlink, update_of_ne hts, next_setPrev]
      exact congrFun (next_setNext _ _ _) t
  · simp [SlruList.unlink]
  · simp [SlruList.unlink, ht]
  · simp only [List.mem_append, List.mem_cons, not_or] at htx
    change update _ _ _ t = _
    rw [update_of_ne ht, setPrev_of_ne _ (hnext t htx.2.2), setNext_of_ne _ (hprev t htx.1)]

end IsList

/-! ## Size classes -/

/-- Class `k` holds what the reference `old` holds. -/
structure ClassRel (slotClass : ℕ → ℕ) (k : ℕ) (links : Links) (cl : SlotClass) (old : OldSlru) :
    Prop where
  probation : IsList links cl.probation old.probation
  guarded : IsList links cl.guarded old.guarded
  cap : cl.guardedCap = old.guardedCap
  own : ∀ t, t ∈ old.probation ∨ t ∈ old.guarded → slotClass t = k
  inProbation : ∀ t, slotClass t = k → ((links t).seg = .probation ↔ t ∈ old.probation)
  inGuarded : ∀ t, slotClass t = k → ((links t).seg = .guarded ↔ t ∈ old.guarded)

/-- The class is related to `old` afterwards, and the slots of the other classes are as they were. -/
structure Kept (slotClass : ℕ → ℕ) (k : ℕ) (links links' : Links) (cl : SlotClass) (old : OldSlru) :
    Prop where
  rel : ClassRel slotClass k links' cl old
  others : ∀ t, slotClass t ≠ k → links' t = links t

namespace ClassRel

variable {slotClass : ℕ → ℕ} {k s : ℕ} {links links' : Links} {cl : SlotClass} {old : OldSlru}

theorem kept (h : ClassRel slotClass k links cl old) : Kept slotClass k links links cl old :=
  ⟨h, fun _ _ => rfl⟩

theorem congr (h : ClassRel slotClass k links cl old) (hf : ∀ t, slotClass t = k → links' t = links t) :
    ClassRel slotClass k links' cl old where
  probation := h.probation.congr fun t ht => hf t (h.own t (.inl ht))
  guarded := h.guarded.congr fun t ht => hf t (h.own t (.inr ht))
  cap := h.cap
  own := h.own
  inProbation t ht := by rw [hf t ht]; exact h.inProbation t ht
  inGuarded t ht := by rw [hf t ht]; exact h.inGuarded t ht

/-- No slot is in both segments. -/
theorem disjoint (h : ClassRel slotClass k links cl old) (hp : s ∈ old.probation) : s ∉ old.guarded := by
  intro hg
  have hk := h.own s (.inl hp)
  have h1 := (h.inProbation s hk).2 hp
  have h2 := (h.inGuarded s hk).2 hg
  rw [h1] at h2
  cases h2

theorem pushProbation (h : ClassRel slotClass k links cl old) (hk : slotClass s = k)
    (hp : s ∉ old.probation) (hg : s ∉ old.guarded) :
    Kept slotClass k links (cl.probation.pushBack s links .probation).2
      { cl with probation := (cl.probation.pushBack s links .probation).1 }
      { old with probation := old.probation ++ [s] } := by
  obtain ⟨hlist, hseg, ht⟩ := h.probation.pushBack hp .probation
  refine ⟨⟨hlist, h.guarded.congr fun t hm => ht.frame t (fun he => hg (he ▸ hm))
    fun hm' => h.disjoint hm' hm, h.cap, fun t hm => ?_, fun t hk' => ?_, fun t hk' => ?_⟩,
    fun t hk' => ht.frame t (fun he => hk' (he ▸ hk)) fun hm => hk' (h.own t (.inl hm))⟩
  · simp only [List.mem_append, List.mem_singleton] at hm
    rcases hm with (hm | rfl) | hm
    · exact h.own t (.inl hm)
    · exact hk
    · exact h.own t (.inr hm)
  · by_cases hts : t = s
    · subst hts
      simp [hseg]
    · rw [ht.seg t hts]
      simpa [hts] using h.inProbation t hk'
  · by_cases hts : t = s
    · subst hts
      simp [hseg, hg]
    · rw [ht.seg t hts]
      exact h.inGuarded t hk'

theorem pushGuarded (h : ClassRel slotClass k links cl old) (hk : slotClass s = k)
    (hp : s ∉ old.probation) (hg : s ∉ old.guarded) :
    Kept slotClass k links (cl.guarded.pushBack s links .guarded).2
      { cl with guarded := (cl.guarded.pushBack s links .guarded).1 }
      { old with guarded := old.guarded ++ [s] } := by
  obtain ⟨hlist, hseg, ht⟩ := h.guarded.pushBack hg .guarded
  refine ⟨⟨h.probation.congr fun t hm => ht.frame t (fun he => hp (he ▸ hm)) (h.disjoint hm),
    hlist, h.cap, fun t hm => ?_, fun t hk' => ?_, fun t hk' => ?_⟩,
    fun t hk' => ht.frame t (fun he => hk' (he ▸ hk)) fun hm => hk' (h.own t (.inr hm))⟩
  · simp only [List.mem_append, List.mem_singleton] at hm
    rcases hm with hm | hm | rfl
    · exact h.own t (.inl hm)
    · exact h.own t (.inr hm)
    · exact hk
  · by_cases hts : t = s
    · subst hts
      simp [hseg, hp]
    · rw [ht.seg t hts]
      exact h.inProbation t hk'
  · by_cases hts : t = s
    · subst hts
      simp [hseg]
    · rw [ht.seg t hts]
      simpa [hts] using h.inGuarded t hk'

theorem unlinkProbation (h : ClassRel slotClass k links cl old) (hs : s ∈ old.probation) :
    Kept slotClass k links (cl.probation.unlink s links).2
      { cl with probation := (cl.probation.unlink s links).1 }
      { old with probation := old.probation.erase s } := by
  obtain ⟨hlist, hnone, ht⟩ := h.probation.unlink hs
  have hk := h.own s (.inl hs)
  refine ⟨⟨hlist, h.guarded.congr fun t hm => ht.frame t (fun he => h.disjoint hs (he ▸ hm))
    fun hm' => h.disjoint hm' hm, h.cap, fun t hm => h.own t (hm.imp_left List.mem_of_mem_erase),
    fun t hk' => ?_, fun t hk' => ?_⟩,
    fun t hk' => ht.frame t (fun he => hk' (he ▸ hk)) fun hm => hk' (h.own t (.inl hm))⟩
  · by_cases hts : t = s
    · subst hts
      simp [hnone, h.probation.nodup.not_mem_erase]
    · rw [ht.seg t hts, List.mem_erase_of_ne hts]
      exact h.inProbation t hk'
  · by_cases hts : t = s
    · subst hts
      simp [hnone, h.disjoint hs]
    · rw [ht.seg t hts]
      exact h.inGuarded t hk'

theorem unlinkGuarded (h : ClassRel slotClass k links cl old) (hs : s ∈ old.guarded) :
    Kept slotClass k links (cl.guarded.unlink s links).2
      { cl with guarded := (cl.guarded.unlink s links).1 }
      { old with guarded := old.guarded.erase s } := by
  obtain ⟨hlist, hnone, ht⟩ := h.guarded.unlink hs
  have hk := h.own s (.inr hs)
  have hp : s ∉ old.probation := fun hp => h.disjoint hp hs
  refine ⟨⟨h.probation.congr fun t hm => ht.frame t (fun he => hp (he ▸ hm)) (h.disjoint hm),
    hlist, h.cap, fun t hm => h.own t (hm.imp_right List.mem_of_mem_erase),
    fun t hk' => ?_, fun t hk' => ?_⟩,
    fun t hk' => ht.frame t (fun he => hk' (he ▸ hk)) fun hm => hk' (h.own t (.inr hm))⟩
  · by_cases hts : t = s
    · subst hts
      simp [hnone, hp]
    · rw [ht.seg t hts]
      exact h.inProbation t hk'
  · by_cases hts : t = s
    · subst hts
      simp [hnone, h.guarded.nodup.not_mem_erase]
    · rw [ht.seg t hts, List.mem_erase_of_ne hts]
      exact h.inGuarded t hk'

end ClassRel

theorem Kept.trans {slotClass : ℕ → ℕ} {k : ℕ} {links links' links'' : Links} {cl cl' : SlotClass}
    {old old' : OldSlru} (h : Kept slotClass k links links' cl old)
    (h' : Kept slotClass k links' links'' cl' old') : Kept slotClass k links links'' cl' old' :=
  ⟨h'.rel, fun t ht => (h'.others t ht).trans (h.others t ht)⟩

/-! ## The operations -/

namespace ClassRel

variable {slotClass : ℕ → ℕ} {k s : ℕ} {links : Links} {cl : SlotClass} {old : OldSlru}

/-- The loop is over when the protected segment is within its cap, and as many passes as it has slots
are enough. -/
theorem demote : ∀ (n : ℕ) {links : Links} {cl : SlotClass} {old : OldSlru},
    ClassRel slotClass k links cl old → old.guarded.length ≤ n →
    Kept slotClass k links (SlotClass.demote n cl links).2 (SlotClass.demote n cl links).1
      { old with probation := (OldSlru.demote old.guardedCap old.probation old.guarded).1
                 guarded := (OldSlru.demote old.guardedCap old.probation old.guarded).2 } := by
  intro n
  induction n with
  | zero =>
    intro links cl old h hn
    have hg : old.guarded = [] := List.length_eq_zero_iff.1 (Nat.le_zero.1 hn)
    obtain ⟨P, G, cap⟩ := old
    subst hg
    exact h.kept
  | succ n ih =>
    intro links cl old h hn
    obtain ⟨P, G, cap⟩ := old
    cases G with
    | nil =>
      have hnot : ¬ cl.guardedCap < cl.guarded.len := by simp [h.guarded.len]
      rw [SlotClass.demote, if_neg hnot]
      exact h.kept
    | cons x rest =>
      by_cases hover : cap < (x :: rest).length
      · have hcl : cl.guardedCap < cl.guarded.len := by
          rw [h.cap, h.guarded.len]
          exact hover
        have hpop : cl.guarded.popFront links = (some x, cl.guarded.unlink x links) := by
          simp [SlruList.popFront, h.guarded.head]
        have hun := h.unlinkGuarded (s := x) (by simp)
        rw [List.erase_cons_head] at hun
        have hx : x ∉ P := fun hp => h.disjoint hp (by simp)
        have hpush := hun.rel.pushProbation (h.own x (.inr (by simp))) hx
          (List.nodup_cons.1 h.guarded.nodup).1
        have hrest := ih hpush.rel (by simpa using hn)
        rw [SlotClass.demote, if_pos hcl, hpop]
        simp only [OldSlru.demote, if_pos hover]
        exact (hun.trans hpush).trans hrest
      · have hnot : ¬ cl.guardedCap < cl.guarded.len := by
          rw [h.cap, h.guarded.len]
          exact hover
        rw [SlotClass.demote, if_neg hnot]
        simp only [OldSlru.demote, if_neg hover]
        exact h.kept

theorem pushProtected (h : ClassRel slotClass k links cl old) (hk : slotClass s = k)
    (hp : s ∉ old.probation) (hg : s ∉ old.guarded) :
    Kept slotClass k links (cl.pushProtected s links).2 (cl.pushProtected s links).1
      (old.pushProtected s) := by
  have hpush := h.pushGuarded hk hp hg
  exact hpush.trans (demote _ hpush.rel hpush.rel.guarded.len.ge)

theorem onHitFull (h : ClassRel slotClass k links cl old) (hk : slotClass s = k) :
    Kept slotClass k links (cl.onHitFull s links).2 (cl.onHitFull s links).1 (old.onHitFull s) := by
  by_cases hp : s ∈ old.probation
  · have hun := h.unlinkProbation hp
    have hpush := hun.rel.pushProtected hk h.probation.nodup.not_mem_erase (h.disjoint hp)
    simp only [SlotClass.onHitFull, (h.inProbation s hk).2 hp, OldSlru.onHitFull, if_pos hp]
    exact hun.trans hpush
  · by_cases hg : s ∈ old.guarded
    · have hun := h.unlinkGuarded hg
      have hpush := hun.rel.pushGuarded hk hp h.guarded.nodup.not_mem_erase
      simp only [SlotClass.onHitFull, (h.inGuarded s hk).2 hg, OldSlru.onHitFull, if_neg hp, if_pos hg]
      exact hun.trans hpush
    · have hnone : (links s).seg = .none := by
        cases hseg : (links s).seg with
        | none => rfl
        | probation => exact absurd ((h.inProbation s hk).1 hseg) hp
        | guarded => exact absurd ((h.inGuarded s hk).1 hseg) hg
      simp only [SlotClass.onHitFull, hnone, OldSlru.onHitFull, if_neg hp, if_neg hg]
      exact h.pushProtected hk hp hg

theorem unlinkFromSegment (h : ClassRel slotClass k links cl old) (hk : slotClass s = k) :
    Kept slotClass k links (cl.unlinkFromSegment s links).2 (cl.unlinkFromSegment s links).1
      (old.remove s) := by
  by_cases hp : s ∈ old.probation
  · simp only [SlotClass.unlinkFromSegment, (h.inProbation s hk).2 hp, OldSlru.remove, if_pos hp]
    exact h.unlinkProbation hp
  · by_cases hg : s ∈ old.guarded
    · simp only [SlotClass.unlinkFromSegment, (h.inGuarded s hk).2 hg, OldSlru.remove, if_neg hp,
        if_pos hg]
      exact h.unlinkGuarded hg
    · have hnone : (links s).seg = .none := by
        cases hseg : (links s).seg with
        | none => rfl
        | probation => exact absurd ((h.inProbation s hk).1 hseg) hp
        | guarded => exact absurd ((h.inGuarded s hk).1 hseg) hg
      simp only [SlotClass.unlinkFromSegment, hnone, OldSlru.remove, if_neg hp, if_neg hg]
      exact h.kept

theorem popLru (h : ClassRel slotClass k links cl old) :
    (cl.popLru links).1 = old.popLru.1 ∧
    Kept slotClass k links (cl.popLru links).2.2 (cl.popLru links).2.1 old.popLru.2 := by
  obtain ⟨P, G, cap⟩ := old
  cases P with
  | cons x P =>
    have hpop : cl.probation.popFront links = (some x, cl.probation.unlink x links) := by
      simp [SlruList.popFront, h.probation.head]
    have hun := h.unlinkProbation (s := x) (by simp)
    rw [List.erase_cons_head] at hun
    simp only [SlotClass.popLru, hpop, OldSlru.popLru]
    exact ⟨trivial, hun⟩
  | nil =>
    have hpop : cl.probation.popFront links = (none, cl.probation, links) := by
      simp [SlruList.popFront, h.probation.head]
    cases G with
    | cons x G =>
      have hpop' : cl.guarded.popFront links = (some x, cl.guarded.unlink x links) := by
        simp [SlruList.popFront, h.guarded.head]
      have hun := h.unlinkGuarded (s := x) (by simp)
      rw [List.erase_cons_head] at hun
      simp only [SlotClass.popLru, hpop, hpop', OldSlru.popLru]
      exact ⟨trivial, hun⟩
    | nil =>
      have hpop' : cl.guarded.popFront links = (none, cl.guarded, links) := by
        simp [SlruList.popFront, h.guarded.head]
      simp only [SlotClass.popLru, hpop, hpop', OldSlru.popLru]
      exact ⟨trivial, h.kept⟩

theorem takeExcluding (h : ClassRel slotClass k links cl old) (banned : ℕ → Bool) :
    ∃ r, cl.takeExcluding links banned = some r ∧ r.1 = (old.takeExcluding banned).1 ∧
      Kept slotClass k links r.2.2 r.2.1 (old.takeExcluding banned).2 := by
  have hp := h.probation.iter_eq
  have hg := h.guarded.iter_eq
  cases hfp : old.probation.find? (!banned ·) with
  | some s =>
    refine ⟨_, by simp [SlotClass.takeExcluding, SlruList.take, hp, hfp]; rfl, ?_, ?_⟩
    · simp [OldSlru.takeExcluding, hfp]
    · simp only [OldSlru.takeExcluding, hfp]
      exact h.unlinkProbation (List.mem_of_find?_eq_some hfp)
  | none =>
    cases hfg : old.guarded.find? (!banned ·) with
    | some s =>
      refine ⟨_, by simp [SlotClass.takeExcluding, SlruList.take, hp, hfp, hg, hfg]; rfl, ?_, ?_⟩
      · simp [OldSlru.takeExcluding, hfp, hfg]
      · simp only [OldSlru.takeExcluding, hfp, hfg]
        exact h.unlinkGuarded (List.mem_of_find?_eq_some hfg)
    | none =>
      refine ⟨_, by simp [SlotClass.takeExcluding, SlruList.take, hp, hfp, hg, hfg]; rfl, ?_, ?_⟩
      · simp [OldSlru.takeExcluding, hfp, hfg]
      · simp only [OldSlru.takeExcluding, hfp, hfg]
        exact h.kept

theorem leastScore_mem {score : ℕ → Option ℚ} {order : List ℕ} (h : leastScore score order = some s) :
    s ∈ order := by
  obtain ⟨⟨key, t⟩, hv, rfl⟩ := Option.map_eq_some_iff.1 h
  obtain ⟨⟨u, i⟩, hu, hmap⟩ := List.mem_filterMap.1 (List.argmin_mem hv)
  obtain ⟨q, -, heq⟩ := Option.map_eq_some_iff.1 hmap
  obtain rfl : u = t := (Prod.mk.inj heq).2
  exact List.mem_of_getElem? (List.mk_mem_zipIdx_iff_getElem?.1 hu)

theorem frequencyVictim (h : ClassRel slotClass k links cl old) (score : ℕ → Option ℚ) :
    ∃ r, cl.frequencyVictim links score = some r ∧ r.1 = (old.frequencyVictim score).1 ∧
      Kept slotClass k links r.2.2 r.2.1 (old.frequencyVictim score).2 := by
  have hp := h.probation.iter_eq
  have hg := h.guarded.iter_eq
  cases hv : leastScore score (old.probation ++ old.guarded) with
  | none =>
    refine ⟨_, by simp [SlotClass.frequencyVictim, hp, hg, hv]; rfl, ?_, ?_⟩
    · simp [OldSlru.frequencyVictim, hv]
    · simp only [OldSlru.frequencyVictim, hv]
      exact h.kept
  | some s =>
    refine ⟨_, by simp [SlotClass.frequencyVictim, hp, hg, hv]; rfl, ?_, ?_⟩
    · simp [OldSlru.frequencyVictim, hv]
    · simp only [OldSlru.frequencyVictim, hv]
      exact h.unlinkFromSegment (h.own s (List.mem_append.1 (leastScore_mem hv)))

/-- A slot is published from outside of both segments. -/
def Fresh (old : OldSlru) : SlruOp → Prop
  | .publish slot => slot ∉ old.probation ∧ slot ∉ old.guarded
  | _ => True

/-- **One operation.** -/
theorem step {op : SlruOp} (h : ClassRel slotClass k links cl old) (hk : op.cls slotClass = k)
    (hf : Fresh old op) :
    ∃ r, cl.step links op = some r ∧ r.1 = (old.step op).1 ∧
      Kept slotClass k links r.2.2 r.2.1 (old.step op).2 := by
  cases op with
  | publish slot => exact ⟨_, rfl, rfl, h.pushProbation hk hf.1 hf.2⟩
  | hit slot => exact ⟨_, rfl, rfl, h.onHitFull hk⟩
  | unlink slot => exact ⟨_, rfl, rfl, h.unlinkFromSegment hk⟩
  | popLru => exact ⟨_, rfl, h.popLru⟩
  | takeExcluding _ banned => exact h.takeExcluding banned
  | frequencyVictim _ score => exact h.frequencyVictim score

end ClassRel

/-! ## Runs -/

section
variable (slotClass : ℕ → ℕ)

/-- The reference after an operation. -/
def oldNext (olds : ℕ → OldSlru) (op : SlruOp) : ℕ → OldSlru :=
  let k := op.cls slotClass
  update olds k ((olds k).step op).2

/-- The empty queues. -/
def oldNew (cap : ℕ → ℕ) : ℕ → OldSlru := fun k => { guardedCap := cap k }

/-- Every operation of the run may be done where it is done. -/
def Valid (olds : ℕ → OldSlru) (ops : List SlruOp) : Prop :=
  Lib.Along (oldNext slotClass) (fun olds op => ClassRel.Fresh (olds (op.cls slotClass)) op) olds ops

variable {slotClass}

theorem run_spec {ops : List SlruOp} {a : Arena} {olds : ℕ → OldSlru} (hv : Valid slotClass olds ops)
    (h : ∀ k, ClassRel slotClass k a.links (a.classes k) (olds k)) :
    ∃ a', a.run slotClass ops = some ((oldRun slotClass olds ops).1, a') ∧
      ∀ k, ClassRel slotClass k a'.links (a'.classes k) ((oldRun slotClass olds ops).2 k) := by
  induction ops generalizing a olds with
  | nil => exact ⟨a, rfl, h⟩
  | cons op ops ih =>
    obtain ⟨hf, hrest⟩ := hv
    obtain ⟨⟨victim, cl, links⟩, hstep, hvictim, hkept⟩ := (h (op.cls slotClass)).step rfl hf
    have hnext : ∀ k, ClassRel slotClass k links (update a.classes (op.cls slotClass) cl k)
        (oldNext slotClass olds op k) := by
      intro k
      by_cases hk : k = op.cls slotClass
      · subst hk
        simpa [oldNext] using hkept.rel
      · simp only [oldNext, update_of_ne hk]
        exact (h k).congr fun t ht => hkept.others t (by rw [ht]; exact hk)
    obtain ⟨a', hrun, hrel⟩ := ih
      (a := { classes := update a.classes (op.cls slotClass) cl, links }) hrest hnext
    refine ⟨a', ?_, hrel⟩
    obtain rfl : victim = _ := hvictim
    simp only [Arena.run, hstep, Option.bind_eq_bind, Option.bind_some, hrun]
    rfl

theorem new_rel (cap : ℕ → ℕ) (k : ℕ) :
    ClassRel slotClass k (Arena.new cap).links ((Arena.new cap).classes k) (oldNew cap k) where
  probation := ⟨rfl, rfl, rfl, .nil, trivial⟩
  guarded := ⟨rfl, rfl, rfl, .nil, trivial⟩
  cap := rfl
  own := by simp [oldNew]
  inProbation := by simp [oldNew, Arena.new]
  inGuarded := by simp [oldNew, Arena.new]

/-- **The linked lists are the queues**: in every run the victims are those of the reference, and at its end
each segment of each class, iterated, is the reference's, its links run through just that list both ways,
and no slot is in two segments. -/
theorem slru_refines (slotClass cap : ℕ → ℕ) (ops : List SlruOp)
    (hv : Valid slotClass (oldNew cap) ops) :
    ∃ a, (Arena.new cap).run slotClass ops = some ((oldRun slotClass (oldNew cap) ops).1, a) ∧
      ∀ k, let cl := a.classes k
        let old := (oldRun slotClass (oldNew cap) ops).2 k
        cl.probation.iter a.links = some old.probation ∧ cl.guarded.iter a.links = some old.guarded ∧
        IsList a.links cl.probation old.probation ∧ IsList a.links cl.guarded old.guarded ∧
        (∀ s ∈ old.probation, s ∉ old.guarded) ∧
        ∀ s, s ∈ old.probation ∨ s ∈ old.guarded → slotClass s = k := by
  obtain ⟨a, hrun, hrel⟩ := run_spec hv (new_rel cap)
  exact ⟨a, hrun, fun k => ⟨(hrel k).probation.iter_eq, (hrel k).guarded.iter_eq, (hrel k).probation,
    (hrel k).guarded, fun s hs => (hrel k).disjoint hs, (hrel k).own⟩⟩

/-- Three slots, a hit that fills the protected segment, one that overflows it, and an eviction. -/
theorem slru_refines_overflow : ∃ a,
    (Arena.new fun _ => 1).run (fun _ => 0) [.publish 0, .publish 1, .publish 2, .hit 1, .hit 2,
      .popLru 0] = some ([none, none, none, none, none, some 0], a) ∧
    (a.classes 0).probation.iter a.links = some [1] ∧ (a.classes 0).guarded.iter a.links = some [2] := by
  obtain ⟨a, hrun, h⟩ := slru_refines (fun _ => 0) (fun _ => 1)
    [.publish 0, .publish 1, .publish 2, .hit 1, .hit 2, .popLru 0]
    ⟨⟨by decide, by decide⟩, ⟨by decide, by decide⟩, ⟨by decide, by decide⟩, trivial, trivial, trivial,
      trivial⟩
  exact ⟨a, hrun, (h 0).1, (h 0).2.1⟩

end

end Slru

end Memra
