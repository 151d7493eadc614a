import Mathlib.Algebra.Order.Field.Basic
import Mathlib.Algebra.Order.Ring.Rat
import Mathlib.Order.WithBot

/-!
# The host sampler

`memra-sampling`: penalties, temperature, top-k, top-p, min-p and a draw over one row of logits. Logits are
numbers of an ordered field or minus infinity (`⊥`), probabilities are exact. What the standard library
leaves open is in `Host`: the exponential, and the order of equal entries after `sort_unstable_by`. A result
`none` stands for a panic, and for a penalty that leads out of the numbers (a NaN or plus infinity).
-/

namespace Memra

namespace Sampling

/-! ## The generator -/

/-- `SplitMix64::new`. -/
def splitMix64 (seed : UInt64) : UInt64 := seed + 0x9E3779B97F4A7C15

/-- `next_u64`, and the next state. -/
def nextU64 (state : UInt64) : UInt64 × UInt64 :=
  let state := state + 0x9E3779B97F4A7C15
  let z := (state ^^^ (state >>> 30)) * 0xBF58476D1CE4E5B9
  let z := (z ^^^ (z >>> 27)) * 0x94D049BB133111EB
  (z ^^^ (z >>> 31), state)

/-- `next_f32`: the top 24 bits, below one. -/
def nextF32 (state : UInt64) : ℚ := ((nextU64 state).1 >>> 40).toNat / 2 ^ 24

/-! ## The configuration -/

/-- `SamplerConfig`, but for the seed. -/
structure SamplerConfig (K : Type) where
  temperature : K
  topK : ℕ
  topP : K
  minP : K
  penaltyLastN : ℕ
  penaltyRepeat : K
  penaltyFreq : K
  penaltyPresent : K

/-- The exponential. -/
structure Exponential (K : Type) [Zero K] [Preorder K] where
  exp : K → K
  pos : ∀ x, 0 < exp x
  mono : Monotone exp

/-- `sort_unstable_by(|a, b| b.1.total_cmp(&a.1))`: descending, in any order where equal. -/
structure Descending (α : Type) [LE α] where
  run : List (ℕ × α) → List (ℕ × α)
  perm : ∀ l, (run l).Perm l
  sorted : ∀ l, (run l).Pairwise fun a b => b.2 ≤ a.2

variable {K : Type} [Field K] [LinearOrder K]

structure Host (K : Type) [Field K] [LinearOrder K] extends Exponential K where
  sortLogits : Descending (WithBot K)
  sortProbs : Descending K

namespace SamplerConfig

def default : SamplerConfig K :=
  { temperature := 0, topK := 0, topP := 1, minP := 0, penaltyLastN := 0, penaltyRepeat := 1,
    penaltyFreq := 0, penaltyPresent := 0 }

variable (cfg : SamplerConfig K)

abbrev IsGreedy : Prop := cfg.temperature ≤ 0

abbrev PenaltiesOff : Prop :=
  cfg.penaltyRepeat = 1 ∧ cfg.penaltyFreq = 0 ∧ cfg.penaltyPresent = 0

/-- The last tokens of the history. -/
def window (history : List ℕ) : List ℕ := history.drop (history.length - cfg.penaltyLastN)

end SamplerConfig

/-! ## Candidates -/

/-- The logits with their ids. -/
def candidates (logits : List (WithBot K)) : List (ℕ × WithBot K) := logits.zipIdx.map Prod.swap

/-- The first of the greatest, if none is greater than `best`. -/
def foldBest (best : ℕ × WithBot K) (cand : List (ℕ × WithBot K)) : ℕ × WithBot K :=
  cand.foldl (fun best c => if best.2 < c.2 then c else best) best

def argmaxU32 (logits : List (WithBot K)) : ℕ := (foldBest (0, ⊥) (candidates logits)).1

/-! ## Penalties -/

/-- Division where the logit is positive, multiplication where it is not. Minus infinity times a number
that is not positive is no number, nor is a quotient by zero. -/
def penalizeRepeat (rep : K) : WithBot K → Option (WithBot K)
  | ⊥ => if 0 < rep then some ⊥ else none
  | (x : K) =>
    if 0 < x then if rep = 0 then none else some ((x / rep : K) : WithBot K)
    else some ((x * rep : K) : WithBot K)

def penalize (cfg : SamplerConfig K) (cnt : ℕ) (l : WithBot K) : Option (WithBot K) := do
  let l ← if cfg.penaltyRepeat ≠ 1 then penalizeRepeat cfg.penaltyRepeat l else some l
  pure (l.map fun x => x - cnt * cfg.penaltyFreq - cfg.penaltyPresent)

def applyPenalties (cfg : SamplerConfig K) (history : List ℕ) (cand : List (ℕ × WithBot K)) :
    Option (List (ℕ × WithBot K)) :=
  if cfg.penaltyLastN = 0 then some cand
  else if cfg.PenaltiesOff then some cand
  else if cfg.window history = [] then some cand
  else cand.mapM fun c =>
    if c.1 ∈ cfg.window history then
      (penalize cfg ((cfg.window history).count c.1) c.2).map (c.1, ·)
    else some c

/-! ## The chain -/

/-- The temperature. -/
def scale (cfg : SamplerConfig K) (cand : List (ℕ × WithBot K)) : List (ℕ × WithBot K) :=
  if 0 < cfg.temperature ∧ cfg.temperature ≠ 1 then
    cand.map fun c => (c.1, c.2.map (· * (1 / cfg.temperature)))
  else cand

def topK (host : Host K) (cfg : SamplerConfig K) (cand : List (ℕ × WithBot K)) :
    List (ℕ × WithBot K) :=
  if 0 < cfg.topK ∧ cfg.topK < cand.length then (host.sortLogits.run cand).take cfg.topK else cand

/-- The greatest logit. -/
def maxLogit (cand : List (ℕ × WithBot K)) : WithBot K := cand.foldl (fun m c => max m c.2) ⊥

/-- `(c.1 - maxl).exp()`; nothing is subtracted from where all are minus infinity. -/
def weight (exp : K → K) (maxl : WithBot K) : WithBot K → K
  | ⊥ => 0
  | (x : K) => exp (x - maxl.unbotD 0)

omit [LinearOrder K] in
@[simp] theorem weight_bot (exp : K → K) (maxl : WithBot K) : weight exp maxl ⊥ = 0 := rfl

omit [LinearOrder K] in
@[simp] theorem weight_coe (exp : K → K) (maxl : WithBot K) (x : K) :
    weight exp maxl (x : WithBot K) = exp (x - maxl.unbotD 0) := rfl

def softmaxInplace (exp : K → K) (cand : List (ℕ × WithBot K)) : List (ℕ × K) :=
  let maxl := maxLogit cand
  let e := cand.map fun c => (c.1, weight exp maxl c.2)
  let sum := (e.map Prod.snd).sum
  let inv := if 0 < sum then 1 / sum else 0
  e.map fun c => (c.1, c.2 * inv)

/-- `keep` after the loop over the cumulated probabilities. -/
def keepLen (p : K) : K → List (ℕ × K) → ℕ
  | _, [] => 0
  | cum, c :: cand => if p ≤ cum + c.2 then 1 else 1 + keepLen p (cum + c.2) cand

def topP (host : Host K) (cfg : SamplerConfig K) (cand : List (ℕ × K)) : List (ℕ × K) :=
  if cfg.topP < 1 then
    let cand := host.sortProbs.run cand
    cand.take (max (keepLen cfg.topP 0 cand) 1)
  else cand

def maxProb (cand : List (ℕ × K)) : K := cand.foldl (fun m c => max m c.2) 0

def minP (cfg : SamplerConfig K) (cand : List (ℕ × K)) : List (ℕ × K) :=
  cand.filter fun c => decide (cfg.minP * maxProb cand ≤ c.2)

/-- The walk to the first candidate at which the cumulated probability reaches `r`. -/
def walk (r : K) : K → List (ℕ × K) → Option ℕ
  | _, [] => none
  | acc, c :: cand => if r ≤ acc + c.2 then some c.1 else walk r (acc + c.2) cand

/-- The draw, with the last candidate for a walk past the end. -/
def draw (u : K) (cand : List (ℕ × K)) : Option ℕ :=
  (walk (u * (cand.map Prod.snd).sum) 0 cand).or (cand.getLast?.map Prod.fst)

/-- What follows the penalties where the temperature is above zero. -/
def sampleFrom (host : Host K) (cfg : SamplerConfig K) (u : K) (logits : List (WithBot K))
    (cand : List (ℕ × WithBot K)) : Option ℕ :=
  let cand := topP host cfg (softmaxInplace host.exp (topK host cfg (scale cfg cand)))
  if 0 < cfg.minP then
    if minP cfg cand = [] then some (argmaxU32 logits) else draw u (minP cfg cand)
  else draw u cand

/-- `Sampler::sample` after a history, with the number `u` for `next_f32`. -/
def sample (host : Host K) (cfg : SamplerConfig K) (history : List ℕ) (u : K)
    (logits : List (WithBot K)) : Option ℕ :=
  if cfg.IsGreedy ∧ cfg.PenaltiesOff then some (argmaxU32 logits)
  else do
    let cand ← applyPenalties cfg history (candidates logits)
    if cfg.IsGreedy then
      match cand with
      | [] => none
      | c :: cand => some (foldBest c cand).1
    else sampleFrom host cfg u logits cand

/-! ## Masks -/

/-- `apply_mask` of the server: minus infinity where the grammar takes no token, and behind the mask. -/
def applyMask (mask : List Bool) (logits : List (WithBot K)) : List (WithBot K) :=
  logits.zipIdx.map fun l => if mask.getD l.2 false then l.1 else ⊥

end Sampling

end Memra
