import Memra.Server.Admit
import Memra.Server.Emission

/-!
# The speculative arm of `step_session`

One burst of a speculative session: how much it may emit, what the session keeps of it, and the reasons
to stop, up to the guard of the cache's capacity. A burst's result is its tokens, whether its
bonus is carried on instead of committed, and whether its sends found the client; the engine's tail
(`closeBurst`) tells how much the session has committed.
-/

namespace Memra

variable {σ η γ : Type}

/-- What a burst returns. -/
structure BurstResult where
  burst : List Tok
  carried : Bool
  sendOk : Bool := true
  deriving DecidableEq

/-- A burst that emits nothing and carries the bonus on that it was carried. -/
def BurstResult.idle (b : BurstResult) : Bool := b.burst.isEmpty && b.carried

/-- The session as the speculative arm sees it: the queue is the prompt until the first burst, and the
engine's session is the number of tokens committed, whether a bonus is carried, and whether a
prediction is at hand. -/
structure SpecArm where
  prefillQueue : List Tok
  generated : List Tok := []
  committed : ℕ := 0
  pendingTok : Bool := false
  nextPred : Bool := false
  deriving DecidableEq

/-- How a session leaves the arm. -/
inductive SpecEnd
  | finish (r : StopReason)
  | disconnected
  deriving DecidableEq

/-- `committed` behind a burst: the suffix, a carried bonus, and what was emitted less the bonus that
is carried on. -/
def SpecArm.committedBehind (a : SpecArm) (b : BurstResult) : ℕ :=
  a.committed + a.prefillQueue.length + (if a.pendingTok then 1 else 0) +
    (if b.carried then b.burst.length - 1 else b.burst.length)

/-- The reason to stop behind a burst, for a cache of `maxCtx` rows. -/
def stopReason (lm : LoadedModel σ η γ) (cfg : Config) (info : SessionInfo) (maxCtx : ℕ)
    (generated : List Tok) (eos : Bool) (committed : ℕ) : Option StopReason :=
  if eos then some .eos
  else if info.stopStrings.any (hasText (lm.fullText generated)) then some .callback
  else if info.budget ≤ generated.length then some .maxNew
  else if maxCtx ≤ committed + cfg.specK + 3 then some .contextFull
  else none

/-- One tick of the arm; `none` is a session that goes on. -/
def stepSpec (lm : LoadedModel σ η γ) (cfg : Config) (info : SessionInfo) (maxCtx : ℕ)
    (a : SpecArm) (b : BurstResult) : SpecArm × Option SpecEnd :=
  let room := min (info.budget - a.generated.length) cfg.specBurst
  if room = 0 then (a, some (.finish .maxNew))
  else if a.prefillQueue = [] ∧ ¬ a.nextPred ∧ ¬ a.pendingTok then (a, some (.finish .maxNew))
  else
    let r := acceptBurst info.params.eos a.generated b.burst
    let a' : SpecArm :=
      { prefillQueue := []
        generated := r.1
        committed := a.committedBehind b
        pendingTok := b.carried
        nextPred := !b.carried }
    if b.sendOk then
      (a', (stopReason lm cfg info maxCtx r.1 r.2 a'.committed).map .finish)
    else (a', some .disconnected)

/-- Tick after tick until the session leaves the arm. -/
def runSpec (lm : LoadedModel σ η γ) (cfg : Config) (info : SessionInfo) (maxCtx : ℕ) :
    List BurstResult → SpecArm → SpecArm × Option SpecEnd
  | [], a => (a, none)
  | b :: bursts, a =>
    match stepSpec lm cfg info maxCtx a b with
    | (a', some e) => (a', some e)
    | (a', none) => runSpec lm cfg info maxCtx bursts a'

/-! ## The sizes that the ladder asks for -/

/-- The asks of the ladder, if none lands. -/
def ladderAsks (need ask : ℕ) : List ℕ :=
  if need < ask then ask :: ladderAsks need (max (ask / 2) need) else [ask]
termination_by ask
decreasing_by omega

end Memra
