import Memra.Engine.Spec

/-!
# Histories of a speculative session

`SpecOp` is one operation on a session and `History.step` its effect on the session together with
two ghosts: the committed tokens at the last rewind (`base`) and everything fed or emitted since
(`log`); `History.draws` are the counters its bursts draw under. `InBurst` are the states a burst goes
through. `runBursts` is the serving pattern: bursts one after another on one session, each with a
fresh grammar hook over the session's grammar state.
-/

namespace Memra

open Lib

section
variable {σ η γ : Type}

/-- One operation on a session. -/
inductive SpecOp (γ : Type)
  | burst (B : Burst) (gram : Option (SpecGrammar γ))
  | flush
  | rewind

/-- A session, the committed tokens at its last rewind, and what was fed or emitted since. -/
structure History (σ η : Type) where
  sess : SpecSession σ η
  base : List Tok
  log : List Tok

/-- A session with no operation on it. -/
def History.new (T : Trunk σ η) : History σ η := { sess := newSession T, base := [], log := [] }

/-- One operation under a source of outcomes. -/
def History.step (E : SpecEngine σ η) (rng : Rng) (h : History σ η) :
    SpecOp γ → Except SpecErr (History σ η)
  | .burst B gram =>
    ((generateSpecSession E B h.sess gram).run rng).map fun r =>
      { h with sess := r.sess, log := h.log ++ B.suffix ++ r.out }
  | .flush => .ok { h with sess := specFlushPending E.T h.sess }
  | .rewind =>
    let sess := specRewindToCheckpoint h.sess
    .ok (if h.sess.turnCkpt.isSome then { sess, base := sess.committed, log := [] }
      else { h with sess })

/-- Operations one after another, as long as each succeeds. -/
def History.run (E : SpecEngine σ η) (rng : Rng) (ops : List (SpecOp γ)) (h : History σ η) :
    Except SpecErr (History σ η) :=
  ops.foldlM (fun h op => h.step E rng op) h

/-- The session a burst starts on: a carried bonus that cannot ride is flushed first. -/
def entrySession (E : SpecEngine σ η) (B : Burst) (s : SpecSession σ η) : SpecSession σ η :=
  if s.pendingTok.isSome ∧ (B.suffix ≠ [] ∨ B.sampled.isSome) then specFlushPending E.T s else s

/-- Whether the chains of a burst replay a captured sampled draft graph. -/
def burstGraph (E : SpecEngine σ η) (B : Burst) (s : SpecSession σ η) : Bool :=
  (sampledGraph E B (entrySession E B s)).graphS.isSome

/-- The states between the rounds of an unconstrained burst, under any outcomes. -/
inductive InBurst (E : SpecEngine σ η) (B : Burst) (s : SpecSession σ η) : RoundState σ η γ → Prop
  | opened {st : RoundState σ η γ} (ok : openBurst E B (entrySession E B s) none = .ok st) :
    InBurst E B s st
  | round {st st' : RoundState σ η γ} (rng : Rng) (reach : InBurst E B s st)
      (go : st.keepGoing ∧ st.out.length < B.maxNew)
      (ok : (round E B true (burstGraph E B s) st).run rng = .ok st') : InBurst E B s st'

/-- A burst that carries a pending bonus gets as far as its first round. -/
def SpecOp.Rounds (s : SpecSession σ η) : SpecOp γ → Prop
  | .burst B _ => s.pendingTok.isSome → B.suffix = [] → B.sampled = none →
      0 < B.maxNew ∧ B.onCommit [[]] = true
  | .flush => True
  | .rewind => True

/-- The histories of successful operations in which every carried bonus reaches a round. -/
inductive Reachable (E : SpecEngine σ η) (rng : Rng) (γ : Type) : History σ η → Prop
  | new : Reachable E rng γ (History.new E.T)
  | step {h h' : History σ η} (op : SpecOp γ) (reach : Reachable E rng γ h)
      (rounds : op.Rounds h.sess) (ok : h.step E rng op = .ok h') : Reachable E rng γ h'

/-- Bursts one after another on one session. -/
def runBursts (E : SpecEngine σ η) :
    List Burst → SpecSession σ η → Option (SpecGrammar γ) →
      Prog (Except SpecErr (List (BurstOut σ η γ)))
  | [], _, _ => pure (.ok [])
  | B :: Bs, s, gram =>
    (generateSpecSession E B s (gram.map fun g => { g with spec := none })).andThen fun r =>
      (runBursts E Bs r.sess r.gram).andThen fun rs => pure (.ok (r :: rs))

/-- The tokens of all bursts, in order. -/
def outputs (rs : List (BurstOut σ η γ)) : List Tok := (rs.map (·.out)).flatten

@[simp] theorem outputs_cons (r : BurstOut σ η γ) (rs : List (BurstOut σ η γ)) :
    outputs (r :: rs) = r.out ++ outputs rs := rfl

end

end Memra
