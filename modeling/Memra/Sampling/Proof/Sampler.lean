import Mathlib
import Memra.Sampling.Candidates

/-!
# The sampler stays among its candidates

The token that comes out has a positive probability: the walk stops where the cumulated probability
reaches a number above zero (`draw_spec`), and a draw of zero stops at the first candidate, whose
probability is positive where the list is sorted or filtered by it. A positive probability is a finite
logit, which no masked token has.
-/

set_option linter.unusedSectionVars false

namespace Memra

namespace Sampling

/-! ## The generator -/

theorem nextF32_mem (state : UInt64) : 0 ≤ nextF32 state ∧ nextF32 state < 1 := by
  have hlt : ((nextU64 state).1 >>> 40).toNat < 2 ^ 24 := by
    have h64 := (nextU64 state).1.toNat_lt
    rw [UInt64.toNat_shiftRight, Nat.shiftRight_eq_div_pow]
    change (nextU64 state).1.toNat / 2 ^ 40 < 2 ^ 24
    omega
  unfold nextF32
  refine ⟨by positivity, ?_⟩
  rw [div_lt_one (by norm_num)]
  exact_mod_cast hlt

/-- A seed whose first draw is zero. -/
example : (nextU64 (splitMix64 0xC3910C8D016B07D6)).1 = 0 := by decide

variable {K : Type}

/-! ## Candidates and their support -/

/-- The same ids, minus infinity in the same places. -/
def SameSupport (cand cand' : List (ℕ × WithBot K)) : Prop :=
  List.Forall₂ (fun c c' => c.1 = c'.1 ∧ (c.2 = ⊥ ↔ c'.2 = ⊥)) cand cand'

theorem SameSupport.refl (cand : List (ℕ × WithBot K)) : SameSupport cand cand :=
  List.forall₂_same.2 fun _ _ => ⟨rfl, Iff.rfl⟩

theorem SameSupport.trans {c₁ c₂ c₃ : List (ℕ × WithBot K)} (h : SameSupport c₁ c₂)
    (h' : SameSupport c₂ c₃) : SameSupport c₁ c₃ := by
  unfold SameSupport at *
  induction h generalizing c₃ with
  | nil => cases h'; exact .nil
  | cons hd _ ih =>
    cases h' with
    | cons hd' htl' => exact .cons ⟨hd.1.trans hd'.1, hd.2.trans hd'.2⟩ (ih htl')

section
variable [LinearOrder K]

/-! ## The greatest logit -/

theorem maxLogit_spec (cand : List (ℕ × WithBot K)) : ∀ c ∈ cand, c.2 ≤ maxLogit cand := by
  have hfold : ∀ (cand : List (ℕ × WithBot K)) (m : WithBot K),
      m ≤ cand.foldl (fun m c => max m c.2) m ∧
        ∀ c ∈ cand, c.2 ≤ cand.foldl (fun m c => max m c.2) m := by
    intro cand
    induction cand with
    | nil => simp
    | cons d cand ih =>
      intro m
      obtain ⟨hm, hmax⟩ := ih (max m d.2)
      refine ⟨(le_max_left _ _).trans hm, List.forall_mem_cons.2 ⟨(le_max_right _ _).trans hm, hmax⟩⟩
  exact (hfold cand ⊥).2

end

section
variable [Field K] [LinearOrder K]

theorem mapM_eq_none {α β : Type} {f : α → Option β} {l : List α} {a : α} (ha : a ∈ l)
    (h : f a = none) : l.mapM f = none := by
  induction l with
  | nil => cases ha
  | cons b l ih =>
    rcases List.mem_cons.1 ha with rfl | ha
    · simp [h]
    · cases hb : f b with
      | none => simp [hb]
      | some b' => simp [hb, ih ha]

theorem mass_cons (c : ℕ × K) (P : List (ℕ × K)) : mass (c :: P) = c.2 + mass P :=
  List.sum_cons

variable [IsStrictOrderedRing K]

theorem mass_nonneg {P : List (ℕ × K)} (h : ∀ c ∈ P, 0 ≤ c.2) : 0 ≤ mass P := by
  induction P with
  | nil => exact le_refl 0
  | cons c P ih =>
    obtain ⟨hc, hP⟩ := List.forall_mem_cons.1 h
    rw [mass_cons]
    exact add_nonneg hc (ih hP)

theorem le_mass {P : List (ℕ × K)} (h : ∀ c ∈ P, 0 ≤ c.2) {c : ℕ × K} (hc : c ∈ P) :
    c.2 ≤ mass P := by
  induction P with
  | nil => cases hc
  | cons d P ih =>
    obtain ⟨hd, hP⟩ := List.forall_mem_cons.1 h
    rw [mass_cons]
    rcases List.mem_cons.1 hc with rfl | hc
    · exact le_add_of_nonneg_right (mass_nonneg hP)
    · exact le_add_of_nonneg_of_le hd (ih hP hc)

/-! ## The walk -/

/-- Some logit is a number. -/
def HasFinite (cand : List (ℕ × WithBot K)) : Prop := ∃ c ∈ cand, c.2 ≠ ⊥

theorem weight_nonneg (E : Exponential K) (m l : WithBot K) : 0 ≤ weight E.exp m l := by
  induction l with
  | bot => exact le_refl 0
  | coe x => exact (E.pos _).le

theorem weight_pos_iff (E : Exponential K) {m l : WithBot K} : 0 < weight E.exp m l ↔ l ≠ ⊥ := by
  induction l with
  | bot => simp
  | coe x => simp [E.pos]

theorem IsTopK.subset {k : ℕ} {all C : List (ℕ × WithBot K)} (h : IsTopK k all C) : C ⊆ all := by
  obtain ⟨rest, hperm, -, -⟩ := h
  exact fun c hc => hperm.mem_iff.1 (List.mem_append_left _ hc)

theorem IsNucleus.subset {p : K} {P D : List (ℕ × K)} (h : IsNucleus p P D) : D ⊆ P := by
  unfold IsNucleus at h
  split at h
  · obtain ⟨init, x, rest, -, hperm, -⟩ := h
    exact fun c hc => hperm.mem_iff.1 (List.mem_append_left _ hc)
  · exact h.subset

section
variable {host : Host K} {cfg : SamplerConfig K} {history : List ℕ} {u : K}
  {logits : List (WithBot K)} {cand : List (ℕ × WithBot K)}

/-- The head of the row and the head of the candidates. -/
theorem SameSupport.head (h : SameSupport (candidates logits) cand) :
    (logits = [] ∧ cand = []) ∨ ∃ l ls c cs, logits = l :: ls ∧ cand = c :: cs ∧ c.1 = 0 ∧
      (l = ⊥ ↔ c.2 = ⊥) := by
  cases logits with
  | nil =>
    cases cand with
    | nil => exact .inl ⟨rfl, rfl⟩
    | cons c cs => cases h
  | cons l ls =>
    cases cand with
    | nil => cases h
    | cons c cs =>
      have hhead := (List.forall₂_cons.1 h).1
      exact .inr ⟨l, ls, c, cs, rfl, rfl, hhead.1.symm, hhead.2⟩

end

end

/-! ## Over the reals -/

/-- A stable merge sort, one of the orders that `sort_unstable_by` may give. -/
def mergeDescending (α : Type) [LinearOrder α] : Descending α where
  run l := l.mergeSort fun a b => decide (b.2 ≤ a.2)
  perm l := List.mergeSort_perm l _
  sorted l := by
    have hsorted := @List.pairwise_mergeSort (ℕ × α) (fun a b => decide (b.2 ≤ a.2))
      (fun a b c hab hbc => decide_eq_true ((of_decide_eq_true hbc).trans (of_decide_eq_true hab)))
      (fun a b => by simpa using le_total b.2 a.2) l
    exact hsorted.imp fun h => of_decide_eq_true h

noncomputable def realHost : Host ℝ where
  exp := Real.exp
  pos := Real.exp_pos
  mono := Real.exp_monotone
  sortLogits := mergeDescending _
  sortProbs := mergeDescending _

/-- The greatest logit cancels: the probabilities are the exponentials over their sum. -/
theorem softmaxInplace_real {cand : List (ℕ × WithBot ℝ)} (h : HasFinite cand) :
    softmaxInplace Real.exp cand = cand.map fun c => (c.1, weight Real.exp 0 c.2 /
      (cand.map fun c => weight Real.exp 0 c.2).sum) := by
  set k := Real.exp (-(maxLogit cand).unbotD 0) with hk
  have hkpos : 0 < k := Real.exp_pos _
  have hweight : ∀ l : WithBot ℝ, weight Real.exp (maxLogit cand) l = weight Real.exp 0 l * k := by
    intro l
    induction l with
    | bot => simp
    | coe x =>
      rw [weight_coe, weight_coe, hk, ← Real.exp_add, ← WithBot.coe_zero, WithBot.unbotD_coe]
      ring_nf
  set S := (cand.map fun c => weight Real.exp 0 c.2).sum with hS
  have hsum : ((cand.map fun c => (c.1, weight Real.exp (maxLogit cand) c.2)).map Prod.snd).sum =
      S * k := by
    rw [List.map_map, hS, ← List.sum_map_mul_right]
    exact congrArg List.sum (List.map_congr_left fun c _ => hweight c.2)
  have hpos : 0 < S := by
    obtain ⟨c, hc, hne⟩ := h
    have hnonneg : ∀ d ∈ cand.map fun c => (c.1, weight Real.exp 0 c.2), 0 ≤ d.2 := by
      intro d hd
      obtain ⟨d', -, rfl⟩ := List.mem_map.1 hd
      exact weight_nonneg realHost.toExponential _ _
    have hmass : mass (cand.map fun c => (c.1, weight Real.exp 0 c.2)) = S := by
      rw [mass, List.map_map]
      rfl
    rw [← hmass]
    exact lt_of_lt_of_le ((weight_pos_iff realHost.toExponential).2 hne)
      (le_mass hnonneg (List.mem_map_of_mem hc))
  unfold softmaxInplace
  simp only
  rw [hsum, if_pos (mul_pos hpos hkpos), List.map_map]
  refine List.map_congr_left fun c _ => ?_
  simp only [Function.comp_apply, hweight]
  congr 1
  field_simp

end Sampling

end Memra
