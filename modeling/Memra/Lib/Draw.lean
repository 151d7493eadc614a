import Memra.Lib.Pmf
import Mathlib.Logic.Function.Iterate

/-!
# Programs with counted random draws

A `Prog α` is a tree of random draws that ends in a value: `draw` takes an outcome from a finite
distribution, `coin` a biased bit, each under the counter of the stream it uses. One tree has
three readings: `Prog.run` follows a fixed source of outcomes, `Prog.mean` is the expectation when
all draws are independent, and `Prog.Along` holds when every leaf satisfies a predicate that is
reached through certain outcomes, with the rules of a program logic (`Along.bind`, `Along.mono`):
all of them (`Always`) or those of positive probability (`Surely`). `Prog.events` lists the counters
a run consumes, and `Prog.Metered` is the logic of programs that take them in order.
-/

namespace Lib

/-- A rational in the unit interval. -/
abbrev Bias := {r : ℚ // 0 ≤ r ∧ r ≤ 1}

/-- A program that makes random draws under explicit counters. -/
inductive Prog (α : Type) : Type
  | pure (a : α)
  | draw (ctr : ℕ) (d : Pmf) (k : ℕ → Prog α)
  | coin (ctr : ℕ) (r : Bias) (k : Bool → Prog α)

/-- A fixed source of outcomes. -/
structure Rng where
  pick : ℕ → Pmf → ℕ
  flip : ℕ → Bias → Bool

/-- The stream of a draw: distribution draws or coins. -/
inductive Stream
  | pick
  | flip
  deriving DecidableEq

namespace Prog

variable {α β γ : Type}

/-- Sequencing. -/
def bind : Prog α → (α → Prog β) → Prog β
  | .pure a, f => f a
  | .draw c d k, f => .draw c d fun x => bind (k x) f
  | .coin c r k, f => .coin c r fun b => bind (k b) f

instance : Monad Prog where
  pure := Prog.pure
  bind := Prog.bind

@[simp] theorem pure_bind' (a : α) (f : α → Prog β) : ((Pure.pure a : Prog α) >>= f) = f a := rfl

@[simp] theorem draw_bind (c : ℕ) (d : Pmf) (k : ℕ → Prog α) (f : α → Prog β) :
    (Prog.draw c d k >>= f) = Prog.draw c d fun x => k x >>= f := rfl

theorem bind_assoc' (p : Prog α) (f : α → Prog β) (g : β → Prog γ) :
    (p >>= f >>= g) = p >>= fun a => f a >>= g := by
  induction p with
  | pure a => rfl
  | draw c d k ih => exact congrArg _ (funext ih)
  | coin c r k ih => exact congrArg _ (funext ih)

/-- One draw. -/
def pick (ctr : ℕ) (d : Pmf) : Prog ℕ := .draw ctr d .pure

/-- One biased bit. -/
def flip (ctr : ℕ) (r : Bias) : Prog Bool := .coin ctr r .pure

/-- Sequencing of fallible programs: an error ends the program. -/
def andThen {ε : Type} (p : Prog (Except ε α)) (f : α → Prog (Except ε β)) : Prog (Except ε β) :=
  p >>= fun
    | .error e => Pure.pure (.error e)
    | .ok a => f a

/-! ## Running -/

/-- The value under a fixed source of outcomes. -/
def run (rng : Rng) : Prog α → α
  | .pure a => a
  | .draw c d k => run rng (k (rng.pick c d))
  | .coin c r k => run rng (k (rng.flip c r))

/-- The counters consumed under a fixed source of outcomes, in order. -/
def events (rng : Rng) : Prog α → List (Stream × ℕ)
  | .pure _ => []
  | .draw c d k => (.pick, c) :: events rng (k (rng.pick c d))
  | .coin c r k => (.flip, c) :: events rng (k (rng.flip c r))

@[simp] theorem run_pure (rng : Rng) (a : α) : run rng (Pure.pure a : Prog α) = a := rfl

@[simp] theorem events_pure (rng : Rng) (a : α) : events rng (Pure.pure a : Prog α) = [] := rfl

theorem run_bind (rng : Rng) (p : Prog α) (f : α → Prog β) :
    run rng (p >>= f) = run rng (f (run rng p)) := by
  induction p with
  | pure a => rfl
  | draw c d k ih => exact ih _
  | coin c r k ih => exact ih _

theorem events_bind (rng : Rng) (p : Prog α) (f : α → Prog β) :
    events rng (p >>= f) = events rng p ++ events rng (f (run rng p)) := by
  induction p with
  | pure a => rfl
  | draw c d k ih => exact congrArg _ (ih _)
  | coin c r k ih => exact congrArg _ (ih _)

/-! ## Outcomes -/

/-- The outcomes of a draw that are looked at. -/
structure Via where
  pick : Pmf → ℕ → Prop
  flip : Bias → Bool → Prop

/-- Every outcome. -/
def Via.any : Via := { pick := fun _ _ => True, flip := fun _ _ => True }

/-- The outcomes of positive probability. -/
def Via.possible : Via :=
  { pick := fun d x => d.prob x ≠ 0, flip := fun r b => if b then r.1 ≠ 0 else r.1 ≠ 1 }

/-- Every leaf reached through such outcomes satisfies `P`. -/
def Along (V : Via) (P : α → Prop) : Prog α → Prop
  | .pure a => P a
  | .draw _ d k => ∀ x, V.pick d x → Along V P (k x)
  | .coin _ r k => ∀ b, V.flip r b → Along V P (k b)

/-- Every leaf satisfies `P`. -/
abbrev Always (P : α → Prop) (p : Prog α) : Prop := Along .any P p

/-- Every leaf of positive probability satisfies `P`. -/
abbrev Surely (P : α → Prop) (p : Prog α) : Prop := Along .possible P p

variable {V : Via}

@[simp] theorem along_pure {P : α → Prop} {a : α} : Along V P (Pure.pure a : Prog α) ↔ P a :=
  Iff.rfl

theorem Along.mono {P Q : α → Prop} {p : Prog α} (h : Along V P p) (hpq : ∀ a, P a → Q a) :
    Along V Q p := by
  induction p with
  | pure a => exact hpq a h
  | draw c d k ih => exact fun x hx => ih x (h x hx)
  | coin c r k ih => exact fun b hb => ih b (h b hb)

/-- The sequencing rule. -/
theorem Along.bind {P : α → Prop} {Q : β → Prop} {p : Prog α} {f : α → Prog β}
    (h : Along V P p) (hf : ∀ a, P a → Along V Q (f a)) : Along V Q (p >>= f) := by
  induction p with
  | pure a => exact hf a h
  | draw c d k ih => exact fun x hx => ih x (h x hx)
  | coin c r k ih => exact fun b hb => ih b (h b hb)

/-- What holds of every leaf holds along any outcomes. -/
theorem Always.along {P : α → Prop} {p : Prog α} (h : Always P p) : Along V P p := by
  induction p with
  | pure a => exact h
  | draw c d k ih => exact fun x _ => ih x (h x trivial)
  | coin c r k ih => exact fun b _ => ih b (h b trivial)

/-- A result is a value with `P` or an error with `err`. -/
def Ends {ε : Type} (err : ε → Prop) (P : α → Prop) : Except ε α → Prop
  | .ok a => P a
  | .error e => err e

theorem Ends.mono {ε : Type} {err : ε → Prop} {P Q : α → Prop} {r : Except ε α}
    (h : Ends err P r) (hpq : ∀ a, P a → Q a) : Ends err Q r := by
  cases r with
  | error e => exact h
  | ok a => exact hpq a h

/-- The sequencing rule for fallible programs. -/
theorem Along.andThen {ε : Type} {err : ε → Prop} {P : α → Prop} {Q : β → Prop}
    {p : Prog (Except ε α)} {f : α → Prog (Except ε β)} (h : Along V (Ends err P) p)
    (hf : ∀ a, P a → Along V (Ends err Q) (f a)) : Along V (Ends err Q) (p.andThen f) := by
  refine h.bind fun r hr => ?_
  cases r with
  | error e => exact hr
  | ok a => exact hf a hr

theorem Always.run {P : α → Prop} {p : Prog α} (h : Always P p) (rng : Rng) : P (run rng p) := by
  induction p with
  | pure a => exact h
  | draw c d k ih => exact ih _ (h _ trivial)
  | coin c r k ih => exact ih _ (h _ trivial)

theorem Always.triv (p : Prog α) : Always (fun _ => True) p := by
  induction p with
  | pure a => trivial
  | draw c d k ih => exact fun x _ => ih x
  | coin c r k ih => exact fun b _ => ih b

/-! ## Expectation -/

/-- The expectation of `f` when all draws are independent. -/
def mean (f : α → ℚ) : Prog α → ℚ
  | .pure a => f a
  | .draw _ d k => d.mean fun x => mean f (k x)
  | .coin _ r k => r.1 * mean f (k true) + (1 - r.1) * mean f (k false)

theorem mean_const (c : ℚ) (p : Prog α) : mean (fun _ => c) p = c := by
  induction p with
  | pure a => rfl
  | draw ctr d k ih => simp only [mean, ih, Pmf.mean_const]
  | coin ctr r k ih => simp only [mean, ih]; ring

theorem mean_add (f g : α → ℚ) (p : Prog α) :
    mean (fun a => f a + g a) p = mean f p + mean g p := by
  induction p with
  | pure a => rfl
  | draw c d k ih => simp only [mean, ih, Pmf.mean_add]
  | coin c r k ih => simp only [mean, ih]; ring

/-- Expectations agree where almost every leaf does. -/
theorem Surely.mean_congr {P : α → Prop} {f g : α → ℚ} {p : Prog α} (h : Surely P p)
    (hfg : ∀ a, P a → f a = g a) : mean f p = mean g p := by
  induction p with
  | pure a => exact hfg a h
  | draw c d k ih => exact Pmf.mean_congr fun x hx => ih x (h x hx)
  | coin c r k ih =>
    have htrue : r.1 * mean f (k true) = r.1 * mean g (k true) := by
      by_cases hr : r.1 = 0
      · rw [hr, zero_mul, zero_mul]
      · rw [ih true (h true hr)]
    have hfalse : (1 - r.1) * mean f (k false) = (1 - r.1) * mean g (k false) := by
      by_cases hr : r.1 = 1
      · rw [hr, sub_self, zero_mul, zero_mul]
      · rw [ih false (h false hr)]
    simp only [mean, htrue, hfalse]

theorem Always.mean_congr {P : α → Prop} {f g : α → ℚ} {p : Prog α} (h : Always P p)
    (hfg : ∀ a, P a → f a = g a) : mean f p = mean g p :=
  Surely.mean_congr (Always.along h) hfg

/-- The mass of the outcomes that satisfy `φ`. -/
def mass (φ : α → Prop) [DecidablePred φ] (p : Prog α) : ℚ := mean (fun a => if φ a then 1 else 0) p

theorem Surely.mass_congr {P φ ψ : α → Prop} [DecidablePred φ] [DecidablePred ψ] {p : Prog α}
    (h : Surely P p) (hφψ : ∀ a, P a → (φ a ↔ ψ a)) : mass φ p = mass ψ p :=
  h.mean_congr fun a ha => by simp only [hφψ a ha]

theorem Surely.mass_eq_zero {φ : α → Prop} [DecidablePred φ] {p : Prog α}
    (h : Surely (fun a => ¬ φ a) p) : mass φ p = 0 :=
  (h.mean_congr fun _ ha => if_neg ha).trans (mean_const 0 p)

theorem Always.mass_eq_one {φ : α → Prop} [DecidablePred φ] {p : Prog α} (h : Always φ p) :
    mass φ p = 1 :=
  (Always.mean_congr h fun _ ha => if_pos ha).trans (mean_const 1 p)

theorem Always.mass_eq_zero {φ : α → Prop} [DecidablePred φ] {p : Prog α}
    (h : Always (fun a => ¬ φ a) p) : mass φ p = 0 := Surely.mass_eq_zero (Always.along h)

/-! ## Counters -/

/-- The next counter of each stream. -/
abbrev Counters := Stream → ℕ

/-- The program draws under the counters `c`, `next c`, … of each stream, and ends in a value and
counters that satisfy `Q`. -/
def Metered (next : ℕ → ℕ) (Q : α → Counters → Prop) : Counters → Prog α → Prop
  | c, .pure a => Q a c
  | c, .draw ctr _ k =>
    ctr = c .pick ∧ ∀ x, Metered next Q (Function.update c .pick (next (c .pick))) (k x)
  | c, .coin ctr _ k =>
    ctr = c .flip ∧ ∀ b, Metered next Q (Function.update c .flip (next (c .flip))) (k b)

variable {next : ℕ → ℕ}

theorem Metered.bind {P : α → Counters → Prop} {Q : β → Counters → Prop} {c : Counters}
    {p : Prog α} {f : α → Prog β} (h : Metered next P c p)
    (hf : ∀ a c, P a c → Metered next Q c (f a)) : Metered next Q c (p >>= f) := by
  induction p generalizing c with
  | pure a => exact hf a c h
  | draw ctr d k ih => exact ⟨h.1, fun x => ih x (h.2 x)⟩
  | coin ctr r k ih => exact ⟨h.1, fun b => ih b (h.2 b)⟩

theorem Metered.mono {P Q : α → Counters → Prop} {c : Counters} {p : Prog α}
    (h : Metered next P c p) (hpq : ∀ a c, P a c → Q a c) : Metered next Q c p := by
  induction p generalizing c with
  | pure a => exact hpq a c h
  | draw ctr d k ih => exact ⟨h.1, fun x => ih x (h.2 x)⟩
  | coin ctr r k ih => exact ⟨h.1, fun b => ih b (h.2 b)⟩

/-- The rule for fallible programs: what an error ends with does not matter. -/
theorem Metered.andThen {ε : Type} {P : α → Counters → Prop} {Q : β → Counters → Prop}
    {c : Counters} {p : Prog (Except ε α)} {f : α → Prog (Except ε β)}
    (h : Metered next (fun r c => ∀ a, r = .ok a → P a c) c p)
    (hf : ∀ a c, P a c → Metered next (fun r c => ∀ b, r = .ok b → Q b c) c (f a)) :
    Metered next (fun r c => ∀ b, r = .ok b → Q b c) c (p.andThen f) := by
  refine h.bind fun r c hr => ?_
  cases r with
  | error e => exact fun b hb => by cases hb
  | ok a => exact hf a c (hr a rfl)

/-- The counters of one stream, in order. -/
def ofStream (x : Stream) (es : List (Stream × ℕ)) : List ℕ :=
  (es.filter (·.1 = x)).map (·.2)

/-- The first `n` counters from `c` on. -/
def countersFrom (next : ℕ → ℕ) (c n : ℕ) : List ℕ := (List.range n).map fun i => next^[i] c

theorem countersFrom_succ (c n : ℕ) :
    countersFrom next c (n + 1) = c :: countersFrom next (next c) n := by
  simp [countersFrom, List.range_succ_eq_map, Function.comp_def]

/-- One more draw on stream `y` in front of consecutive counters. -/
theorem countersFrom_draw {c : Counters} {y : Stream} {es : List (Stream × ℕ)} {n : Stream → ℕ}
    (h : ∀ x, ofStream x es = countersFrom next (Function.update c y (next (c y)) x) (n x))
    (x : Stream) :
    ofStream x ((y, c y) :: es) = countersFrom next (c x) (Function.update n y (n y + 1) x) ∧
      next^[n x] (Function.update c y (next (c y)) x) =
        next^[Function.update n y (n y + 1) x] (c x) := by
  by_cases hx : x = y
  · subst hx
    have := h x
    rw [Function.update_self] at this
    simp only [Function.update_self, Function.iterate_succ_apply, and_true]
    rw [countersFrom_succ, ← this]
    simp [ofStream]
  · have := h x
    rw [Function.update_of_ne hx] at this
    simp only [Function.update_of_ne hx, and_true]
    rw [← this]
    simp [ofStream, Ne.symm hx]

/-- The counters of a run are consecutive. -/
theorem Metered.events {Q : α → Counters → Prop} {c : Counters} {p : Prog α}
    (h : Metered next Q c p) (rng : Rng) :
    ∃ n : Stream → ℕ, (∀ x, ofStream x (p.events rng) = countersFrom next (c x) (n x)) ∧
      Q (p.run rng) fun x => next^[n x] (c x) := by
  induction p generalizing c with
  | pure a => exact ⟨fun _ => 0, fun x => rfl, h⟩
  | draw ctr d k ih =>
    obtain ⟨rfl, hk⟩ := h
    obtain ⟨n, hn, hq⟩ := ih _ (hk (rng.pick (c .pick) d))
    refine ⟨_, fun x => (countersFrom_draw hn x).1, ?_⟩
    rwa [← funext fun x => (countersFrom_draw hn x).2]
  | coin ctr r k ih =>
    obtain ⟨rfl, hk⟩ := h
    obtain ⟨n, hn, hq⟩ := ih _ (hk (rng.flip (c .flip) r))
    refine ⟨_, fun x => (countersFrom_draw hn x).1, ?_⟩
    rwa [← funext fun x => (countersFrom_draw hn x).2]

end Prog

end Lib
