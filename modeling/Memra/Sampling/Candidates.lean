import Memra.Sampling.Sampler

/-!
# What a sampler may return

The candidates by what they are, not by how they are found: the greatest logits (`IsTopK`), of these a
shortest set of greatest probability that reaches `p` (`IsNucleus`), of these the ones that are not far
below the greatest. Where entries are equal there are several such sets.
-/

namespace Memra

namespace Sampling

variable {K : Type} [Field K] [LinearOrder K]

/-- `k` candidates that none of the others exceeds; all of them for `k = 0` or a `k` too large. -/
def IsTopK (k : ℕ) (all C : List (ℕ × WithBot K)) : Prop :=
  ∃ rest, (C ++ rest).Perm all ∧ C.length = (if k = 0 then all.length else min k all.length) ∧
    ∀ c ∈ C, ∀ d ∈ rest, d.2 ≤ c.2

/-- The sum of the probabilities. -/
def mass (P : List (ℕ × K)) : K := (P.map Prod.snd).sum

/-- The nucleus: `x` is the least probable of it, without `x` it does not reach `p`. A `p` from one on
keeps all. -/
def IsNucleus (p : K) (P D : List (ℕ × K)) : Prop :=
  if p < 1 then
    ∃ init x rest, D = init ++ [x] ∧ (D ++ rest).Perm P ∧ (∀ y ∈ init, x.2 ≤ y.2) ∧
      (∀ z ∈ rest, z.2 ≤ x.2) ∧ (init ≠ [] → mass init < p) ∧ (p ≤ mass D ∨ rest = [])
  else D.Perm P

end Sampling

end Memra
