import Memra.Server.Admit

/-!
# `prefill_tick`

One tick of a session's prefill: a chunk of the prompt through `prime_cache`, or one token through
`decode_step`, then the snapshot at the boundary and, at the end of the prompt, the seed of the
prefix cache. `prefillRun` ticks until `prefill_done`; it records where `fed` stood and what each
tick asked of the engine and of the prefix cache.
-/

namespace Memra

variable {σ η γ : Type}

/-- What a tick asks of the engine and of the prefix cache. -/
inductive PrefillCall
  | primeCache (chunk : List Tok) (queuedAfter : ℕ)
  | decodeStep (tok : Tok)
  | insertPrefix (toks : List Tok) (why : String)
  deriving DecidableEq

/-- The tokens a call hands to the engine. -/
def PrefillCall.toks : PrefillCall → List Tok
  | primeCache chunk _ => chunk
  | decodeStep tok => [tok]
  | insertPrefix .. => []

/-- The answers one tick gets: the failures of the engine, of the trace file and of the snapshot's copies,
the bytes of the snapshot and the clock. -/
structure TickEnv where
  primeErr : Option String := none
  stepErr : Option String := none
  traceErr : Option String := none
  snapshotErr : Option String := none
  bytes : ℕ := 0
  now : ℕ := 0

/-- A session and the prefix cache, with the calls of the tick. -/
structure Prefill (σ η γ : Type) where
  s : Session σ η γ
  px : PrefixCache PoolKey (Snapshot σ)
  calls : List PrefillCall := []

namespace Prefill

variable (lm : LoadedModel σ η γ) (cfg : Config) (env : TickEnv)

/-- `prefix_insert_from_session`. -/
def prefixInsertFromSession (t : Prefill σ η γ) (why : String) : Prefill σ η γ :=
  match t.s.cache with
  | none => t
  | some cache =>
    if t.s.lastLogits = [] then t
    else
      { t with
        calls := t.calls ++ [.insertPrefix t.s.fed why]
        px :=
          if env.snapshotErr.isSome then t.px
          else t.px.insertWithBudget t.s.poolKey
            { toks := t.s.fed
              payload := { cache := cache.toCache, lastLogits := t.s.lastLogits }
              bytes := env.bytes
              lastUse := env.now
              id := 0 }
            cfg.prefixCacheBytes }

/-- `maybe_prefix_seed`. -/
def maybePrefixSeed (t : Prefill σ η γ) : Prefill σ η γ :=
  if t.s.seedPrefix then
    let t := { t with s := { t.s with seedPrefix := false } }
    if 0 < t.s.nCached ∨ t.s.cache.isNone ∨ t.s.fed.length < prefixCacheMinTokens then t
    else if t.px.hasCovering t.s.poolKey t.s.fed then t
    else t.prefixInsertFromSession cfg env "seed"
  else t

/-- The unwrap of a session that has no plain cache. -/
def unwrapNone : String := "called Option::unwrap() on a None value"

/-- The chunk's size: the budget, the short tail, the stop at the boundary, and a boundary chunk that
stays primeable next tick. -/
def takeOf (eagerMono : Bool) (q budget : ℕ) (boundRem : Option ℕ) : ℕ :=
  let take := if eagerMono then q else min q budget
  let take :=
    if 0 < q - take ∧ q - take < primeMinT then if q ≤ budget then q else take else take
  match boundRem with
  | none => take
  | some r =>
    if r ≤ take then r
    else if r - take < primeMinT then max (r - primeMinT) primeMinT
    else take

/-- Whether the tick primes a chunk. -/
def primes (eagerMono carried : Bool) (q budget : ℕ) (boundRem : Option ℕ) : Bool :=
  !cfg.confidenceTrace && max primeMinT 2 ≤ q && primeMinT ≤ budget && !(eagerMono && carried) &&
    boundRem.all (primeMinT ≤ ·)

/-- The chunk through `prime_cache`, with what fails. -/
def primeChunk (take : ℕ) (t : Prefill σ η γ) : Option String × Prefill σ η γ :=
  let chunk := t.s.prefillQueue.take take
  let queue := t.s.prefillQueue.drop take
  let t : Prefill σ η γ := { t with
    s := { t.s with prefillQueue := queue }
    calls := t.calls ++ [.primeCache chunk queue.length] }
  match t.s.cache with
  | none => (some unwrapNone, t)
  | some cache =>
    if env.primeErr.isSome then (env.primeErr, t)
    else
      let cache := cache.feed lm.E.T chunk
      (none,
        { t with s := { t.s with
          cache := some cache
          lastLogits := lm.E.T.row cache.st
          fed := t.s.fed ++ chunk
          sampler := t.s.sampler.accept chunk } })

/-- The next token through `decode_step`, with what fails. -/
def stepToken (tok : Tok) (queue : List Tok) (t : Prefill σ η γ) :
    Option String × Prefill σ η γ :=
  let t : Prefill σ η γ := { t with
    s := { t.s with prefillQueue := queue }
    calls := t.calls ++ [.decodeStep tok] }
  match t.s.cache with
  | none => (some unwrapNone, t)
  | some cache =>
    if env.stepErr.isSome then (env.stepErr, t)
    else
      let cache := cache.feed lm.E.T [tok]
      let t : Prefill σ η γ := { t with s := { t.s with
        cache := some cache
        lastLogits := lm.E.T.row cache.st } }
      if queue ≠ [] ∧ cfg.confidenceTrace ∧ env.traceErr.isSome then (env.traceErr, t)
      else
        (none,
          { t with s := { t.s with
            fed := t.s.fed ++ [tok]
            sampler := t.s.sampler.accept [tok] } })

/-- Behind the feed: the boundary snapshot, then the end of the prompt. -/
def settle (t : Prefill σ η γ) : Prefill σ η γ :=
  let t :=
    if t.s.snapshotAt = some t.s.fed.length then
      prefixInsertFromSession cfg env { t with s := { t.s with snapshotAt := none } } "lcp-split"
    else t
  if t.s.prefillQueue = [] then
    maybePrefixSeed cfg env { t with s := { t.s with prefillDone := true } }
  else t

end Prefill

open Prefill

/-- The feed of a tick: the tokens consumed, what fails, and the state behind it. -/
def feedTick (lm : LoadedModel σ η γ) (cfg : Config) (env : TickEnv) (s : Session σ η γ)
    (px : PrefixCache PoolKey (Snapshot σ)) (budget : ℕ) (tok : Tok) (queue : List Tok) :
    ℕ × Option String × Prefill σ η γ :=
  let q := queue.length + 1
  let carried := s.cache.any fun c => 0 < c.pos
  let boundRem := s.snapshotAt.map (· - s.fed.length)
  if primes cfg lm.eagerOnly carried q budget boundRem then
    let take := takeOf lm.eagerOnly q budget boundRem
    (take, primeChunk lm env take { s, px })
  else (1, stepToken lm cfg env tok queue { s, px })

/-- `prefill_tick`: the tokens consumed, or the failure. An eager-only model has no boundary. -/
def prefillTick (lm : LoadedModel σ η γ) (cfg : Config) (env : TickEnv) (s : Session σ η γ)
    (px : PrefixCache PoolKey (Snapshot σ)) (budget : ℕ) : Except String ℕ × Prefill σ η γ :=
  match s.prefillQueue with
  | [] => (.ok 0, maybePrefixSeed cfg env { s := { s with prefillDone := true }, px })
  | tok :: queue =>
    let s := if lm.eagerOnly then { s with snapshotAt := none } else s
    let fed := feedTick lm cfg env s px budget tok queue
    match fed.2.1 with
    | some err => (.error err, fed.2.2)
    | none => (.ok fed.1, fed.2.2.settle cfg env)

/-- A tick on record: `fed` before and behind it, its budget and its calls. -/
structure TickRecord where
  before : ℕ
  budget : ℕ
  calls : List PrefillCall
  after : ℕ

/-- What a run leaves: the ticks, the failure that ended it, the session and the prefix cache. -/
structure PrefillOut (σ η γ : Type) where
  ticks : List TickRecord
  err : Option String
  s : Session σ η γ
  px : PrefixCache PoolKey (Snapshot σ)

/-- Tick with the given budgets until `prefill_done` or a failure. -/
def prefillRun (lm : LoadedModel σ η γ) (cfg : Config) :
    List (ℕ × TickEnv) → Session σ η γ → PrefixCache PoolKey (Snapshot σ) → PrefillOut σ η γ
  | [], s, px => { ticks := [], err := none, s, px }
  | (budget, env) :: rest, s, px =>
    if s.prefillDone then { ticks := [], err := none, s, px }
    else
      let out := prefillTick lm cfg env s px budget
      let tick : TickRecord :=
        { before := s.fed.length, budget, calls := out.2.calls, after := out.2.s.fed.length }
      match out.1 with
      | .error err => { ticks := [tick], err := some err, s := out.2.s, px := out.2.px }
      | .ok _ =>
        let run := prefillRun lm cfg rest out.2.s out.2.px
        { run with ticks := tick :: run.ticks }

end Memra
