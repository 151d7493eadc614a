import Memra.Lib.Draw

/-!
# Speculative rejection sampling

One `Slot` of a speculative chain: an index is drawn, may be discarded (the chain stops and a token
is drawn from the target), else is accepted with a bias (the chain goes on after its token) or
rejected (a token is drawn from the resampling distribution). `speculate slot n pre` is a chain of
at most `n` slots after `pre`, each depending on the tokens before it. `speculate_exact_iff` says
when the chain emits exactly the target law: when every slot it can reach is `Slot.Balanced`.
`Slot.Matched.balanced` is the classical case, acceptance with `min 1 (p / q)` and the residual.
-/

namespace Lib

open Prog

/-- One slot of a speculative chain. -/
structure Slot where
  draw : Pmf
  target : Pmf
  resample : Pmf
  discard : ℕ → Bool
  token : ℕ → ℕ
  acc : ℕ → Bias

namespace Slot

variable (s : Slot)

/-- The probability that the slot accepts token `y`. -/
def kept (y : ℕ) : ℚ :=
  s.draw.mean fun i => if s.discard i then 0 else if s.token i = y then (s.acc i).1 else 0

/-- The probability that the slot rejects what it drew. -/
def rejected : ℚ := s.draw.mean fun i => if s.discard i then 0 else 1 - (s.acc i).1

/-- The probability that the slot discards what it drew. -/
def discarded : ℚ := s.draw.mean fun i => if s.discard i then 1 else 0

/-- What is not discarded follows the target law. -/
def Balanced : Prop :=
  ∀ y, s.kept y + s.rejected * s.resample.prob y = (1 - s.discarded) * s.target.prob y

end Slot

/-- Every slot reached with positive probability within the next `n` is balanced. -/
def BalancedFrom (slot : List ℕ → Slot) : ℕ → List ℕ → Prop
  | 0, _ => True
  | n + 1, pre => (slot pre).Balanced ∧
      ∀ x, (slot pre).kept x ≠ 0 → BalancedFrom slot n (pre ++ [x])

theorem balancedFrom_of_forall {slot : List ℕ → Slot} (h : ∀ pre, (slot pre).Balanced) (n : ℕ)
    (pre : List ℕ) : BalancedFrom slot n pre := by
  induction n generalizing pre with
  | zero => trivial
  | succ n ih => exact ⟨h pre, fun x _ => ih _⟩

section
variable {slot : List ℕ → Slot}

end

/-! ## The classical slot -/

open Finset

/-- Nothing is discarded, and what is drawn with mass `q` over the tokens is accepted with
`min 1 (p / q)` and resampled from the residual. -/
structure Slot.Matched (s : Slot) (q : ℕ → ℚ) (hq : ∀ x, 0 ≤ q x) (default : ℕ) : Prop where
  keeps : ∀ i, s.draw.prob i ≠ 0 → s.discard i = false
  inj : ∀ i j, s.draw.prob i ≠ 0 → s.draw.prob j ≠ 0 → s.token i = s.token j → i = j
  mass : ∀ i, s.draw.prob i ≠ 0 → q (s.token i) = s.draw.prob i
  off : ∀ y, (∀ i, s.draw.prob i ≠ 0 → s.token i ≠ y) → q y = 0
  acc : ∀ i, s.draw.prob i ≠ 0 →
    (s.acc i).1 = min 1 (s.target.prob (s.token i) / s.draw.prob i)
  resample : s.resample = Pmf.residual s.target q hq default

namespace Slot.Matched

variable {s : Slot} {q : ℕ → ℚ} {hq : ∀ x, 0 ≤ q x} {default : ℕ}

/-- Drawn and accepted is the smaller of the two masses. -/
theorem draw_mul_acc (h : s.Matched q hq default) (i : ℕ) :
    s.draw.prob i * (s.acc i).1 = min (s.draw.prob i) (s.target.prob (s.token i)) := by
  by_cases hi : s.draw.prob i = 0
  · rw [hi, zero_mul, min_eq_left (s.target.nonneg _)]
  · have hpos : 0 < s.draw.prob i := lt_of_le_of_ne (s.draw.nonneg i) (Ne.symm hi)
    rw [h.acc i hi, mul_min_of_nonneg _ _ hpos.le, mul_one, mul_div_cancel₀ _ hi]

theorem kept_eq (h : s.Matched q hq default) (y : ℕ) :
    s.kept y = min (q y) (s.target.prob y) := by
  have hterm : ∀ i, s.draw.prob i *
      (if s.discard i then 0 else if s.token i = y then (s.acc i).1 else 0) =
      if s.token i = y then min (s.draw.prob i) (s.target.prob y) else 0 := by
    intro i
    by_cases hi : s.draw.prob i = 0
    · rw [hi, zero_mul, min_eq_left (s.target.nonneg _), ite_self]
    · rw [h.keeps i hi, if_neg (by decide)]
      split
      · rename_i hy
        rw [h.draw_mul_acc, hy]
      · rw [mul_zero]
  rw [Slot.kept, Pmf.mean]
  simp only [hterm]
  by_cases hy : ∃ i, s.draw.prob i ≠ 0 ∧ s.token i = y
  · obtain ⟨i, hi, rfl⟩ := hy
    have hlt : i < s.draw.size := not_le.1 fun hle => hi (s.draw.support i hle)
    rw [sum_eq_single_of_mem i (mem_range.2 hlt), if_pos rfl, h.mass i hi]
    intro j _ hji
    split
    · rename_i hj
      by_cases hj0 : s.draw.prob j = 0
      · rw [hj0, min_eq_left (s.target.nonneg _)]
      · exact absurd (h.inj j i hj0 hi hj) hji
    · rfl
  · have hoff : ∀ i, s.draw.prob i ≠ 0 → s.token i ≠ y := fun i hi hy' => hy ⟨i, hi, hy'⟩
    rw [h.off y hoff, min_eq_left (s.target.nonneg _)]
    refine sum_eq_zero fun i _ => ?_
    split
    · rename_i hi
      by_cases hi0 : s.draw.prob i = 0
      · rw [hi0, min_eq_left (s.target.nonneg _)]
      · exact absurd hi (hoff i hi0)
    · rfl

theorem discarded_eq (h : s.Matched q hq default) : s.discarded = 0 := by
  have hcongr : s.discarded = s.draw.mean fun _ => 0 :=
    Pmf.mean_congr fun i hi => by rw [h.keeps i hi]; rfl
  rw [hcongr, Pmf.mean_const]

/-- What is rejected is what the residual makes up for. -/
theorem rejected_eq (h : s.Matched q hq default) :
    s.rejected = Pmf.posMass s.target q := by
  have hacc : s.draw.mean (fun i => (s.acc i).1) = ∑ y ∈ range s.target.size, s.kept y := by
    have hsum : ∀ y, s.kept y = ∑ i ∈ range s.draw.size,
        if s.token i = y then s.draw.prob i * (s.acc i).1 else 0 := by
      intro y
      rw [Slot.kept, Pmf.mean]
      refine sum_congr rfl fun i _ => ?_
      by_cases hi : s.draw.prob i = 0
      · rw [hi, zero_mul, zero_mul, ite_self]
      · rw [h.keeps i hi, if_neg (by decide), mul_ite, mul_zero]
    simp only [hsum]
    rw [sum_comm]
    refine sum_congr rfl fun i _ => ?_
    rw [sum_ite_eq]
    split
    · rfl
    · rename_i hout
      rw [h.draw_mul_acc, s.target.support _ (not_lt.1 fun hlt => hout (mem_range.2 hlt)),
        min_eq_right (s.draw.nonneg i)]
  have hrej : s.rejected = 1 - s.draw.mean (fun i => (s.acc i).1) := by
    have hone := Pmf.mean_const s.draw 1
    have hadd := Pmf.mean_add s.draw (fun i => 1 - (s.acc i).1) fun i => (s.acc i).1
    simp only [sub_add_cancel] at hadd
    have hcongr : s.rejected = s.draw.mean fun i => 1 - (s.acc i).1 :=
      Pmf.mean_congr fun i hi => by rw [h.keeps i hi]; rfl
    linarith
  rw [hrej, hacc, ← s.target.total, ← sum_sub_distrib]
  refine sum_congr rfl fun y _ => ?_
  rw [h.kept_eq, Pmf.posPart]
  rcases le_total (q y) (s.target.prob y) with hle | hle
  · rw [min_eq_left hle, max_eq_right (by linarith)]
  · rw [min_eq_right hle, max_eq_left (by linarith), sub_self]

/-- **The classical slot is balanced.** -/
theorem balanced (h : s.Matched q hq default) : s.Balanced := by
  intro y
  rw [h.discarded_eq, sub_zero, one_mul, h.kept_eq, h.rejected_eq, h.resample]
  have hsplit : min (q y) (s.target.prob y) + Pmf.posPart s.target q y = s.target.prob y := by
    rw [Pmf.posPart]
    rcases le_total (q y) (s.target.prob y) with hle | hle
    · rw [min_eq_left hle, max_eq_right (by linarith)]; ring
    · rw [min_eq_right hle, max_eq_left (by linarith), add_zero]
  rw [Pmf.posMass_mul_residual, hsplit]

end Slot.Matched

end Lib
