import Memra.Engine.Trunk
import Memra.Lib.SwapRemove
import Memra.Lib.FiniteMap
import Mathlib.Data.Prod.Lex

/-!
# The prefix cache

`PrefixCache` of `worker.rs`: per-(model, namespace) pools of cached prefixes, and a recency index
`lru` from `(last_use, id)` to the pool and position of each entry. `Instant`s are naturals, the
`HashMap` and the `BTreeMap` are `AList`s; the device copies an entry owns (`kv`, `conv`, `ssm`,
`pos`, `last_logits`) are one payload `π`, which no operation here reads.

`Op` and `run` put the mutating operations in sequence, with the clock reading each one takes.
-/

namespace Memra

open Lib

/-- `PREFIX_CACHE_MIN_TOKENS`. -/
def prefixCacheMinTokens : ℕ := 64

/-- A cached token prefix. -/
structure PrefixEntry (π : Type) where
  toks : List Tok
  payload : π
  bytes : ℕ
  lastUse : ℕ
  id : ℕ
  deriving DecidableEq

/-- The key of the recency index, ordered by time and then by insertion. -/
abbrev LruKey := ℕ ×ₗ ℕ

/-- Per-pool entries, the recency index and the counters. -/
structure PrefixCache (κ π : Type) where
  entries : AList (fun _ : κ => List (PrefixEntry π)) := ∅
  lru : AList (fun _ : LruKey => κ × ℕ) := ∅
  nextId : ℕ := 0
  totalBytes : ℕ := 0
  hits : ℕ := 0
  misses : ℕ := 0
  inserts : ℕ := 0
  evictions : ℕ := 0
  hitTokens : ℕ := 0
  lcpHist : List ℕ := List.replicate 11 0

namespace PrefixCache

variable {κ π : Type} [DecidableEq κ]

/-- `LCP_HIST_EDGES`. -/
def lcpHistEdges : List ℕ := [0, 1, 16, 32, 64, 128, 256, 512, 1024, 2048, 4096]

/-- `lcp`: length of the longest common prefix. -/
def lcp : List Tok → List Tok → ℕ
  | a :: as, b :: bs => if a = b then lcp as bs + 1 else 0
  | _, _ => 0

/-- `lcp_bucket`: the last bucket whose lower edge is at most `n`. -/
def lcpBucket (n : ℕ) : ℕ :=
  match lcpHistEdges.reverse.findIdx? (· ≤ n) with
  | some r => lcpHistEdges.length - 1 - r
  | none => 0

/-- `record_lcp`. -/
def recordLcp (c : PrefixCache κ π) (n : ℕ) : PrefixCache κ π :=
  { c with lcpHist := c.lcpHist.modify (lcpBucket n) (· + 1) }

/-- `n_entries`. -/
def nEntries (c : PrefixCache κ π) : ℕ := sumBy List.length c.entries

/-- The scan of `lookup`: `best` is the index and length of the longest match before `i`. -/
def lookupFrom (prompt : List Tok) : ℕ → Option (ℕ × ℕ) → List (PrefixEntry π) → Option (ℕ × ℕ)
  | _, best, [] => best
  | i, best, e :: pool =>
    let n := e.toks.length
    if prefixCacheMinTokens ≤ n ∧ n ≤ prompt.length ∧ prompt.take n = e.toks ∧
        best.all (fun b => b.2 < n) then
      lookupFrom prompt (i + 1) (some (i, n)) pool
    else lookupFrom prompt (i + 1) best pool

/-- `lookup`: position in the caller's own pool of the longest entry that prefixes `prompt`. -/
def lookup (c : PrefixCache κ π) (key : κ) (prompt : List Tok) : Option ℕ :=
  match c.entries.lookup key with
  | none => none
  | some pool => (lookupFrom prompt 0 none pool).map (·.1)

/-- `best_lcp`. -/
def bestLcp (c : PrefixCache κ π) (key : κ) (prompt : List Tok) : ℕ :=
  match c.entries.lookup key with
  | none => 0
  | some pool => ((pool.map fun e => lcp e.toks prompt).max?).getD 0

/-- `has_covering`. -/
def hasCovering (c : PrefixCache κ π) (key : κ) (prompt : List Tok) : Bool :=
  match c.entries.lookup key with
  | none => false
  | some pool => pool.any fun e => prefixCacheMinTokens ≤ e.toks.length ∧
      e.toks.length ≤ prompt.length ∧ prompt.take e.toks.length = e.toks

/-- `has_key`. -/
def hasKey (c : PrefixCache κ π) (key : κ) (toks : List Tok) : Bool :=
  match c.entries.lookup key with
  | none => false
  | some pool => pool.any fun e => e.toks = toks

/-- `lru_key`. -/
def lruKey (e : PrefixEntry π) : LruKey := toLex (e.lastUse, e.id)

/-- `touch`: refresh the recency of position `i` of pool `key` at the clock reading `now`. -/
def touch (c : PrefixCache κ π) (key : κ) (i now : ℕ) : PrefixCache κ π :=
  match c.entries.lookup key with
  | none => c
  | some pool =>
    match pool[i]? with
    | none => c
    | some e =>
      let e' := { e with lastUse := now }
      { c with
        lru := (c.lru.erase (lruKey e)).insert (lruKey e') (key, i)
        entries := c.entries.insert key (pool.set i e') }

/-- `remove_at`: remove position `i` of pool `key`; the pool's last entry moves there. -/
def removeAt (c : PrefixCache κ π) (key : κ) (i : ℕ) :
    Option (PrefixEntry π × PrefixCache κ π) :=
  match c.entries.lookup key with
  | none => none
  | some pool =>
    match pool[i]? with
    | none => none
    | some dead =>
      let pool' := swapRemove pool i
      let lru := c.lru.erase (lruKey dead)
      some (dead,
        { c with
          lru := match pool'[i]? with
            | some moved => lru.insert (lruKey moved) (key, i)
            | none => lru
          entries := if pool' = [] then c.entries.erase key else c.entries.insert key pool' })

/-- The eviction loop of `insert_with_budget`; `fuel` bounds the number of victims. -/
def evictLoop (budget : ℕ) : ℕ → PrefixCache κ π → PrefixCache κ π
  | 0, c => c
  | fuel + 1, c =>
    if budget < c.totalBytes then
      match firstKeyValue c.lru with
      | none => c
      | some (_, k, i) =>
        match c.removeAt k i with
        | none => c
        | some (dead, c) =>
          evictLoop budget fuel
            { c with totalBytes := c.totalBytes - dead.bytes, evictions := c.evictions + 1 }
    else c

/-- The part of `insert_with_budget` before its loop: number the entry, push and index it. -/
def push (c : PrefixCache κ π) (key : κ) (e : PrefixEntry π) : PrefixCache κ π :=
  let e := { e with id := c.nextId }
  let pool := (c.entries.lookup key).getD []
  { c with
    totalBytes := c.totalBytes + e.bytes
    inserts := c.inserts + 1
    nextId := c.nextId + 1
    entries := c.entries.insert key (pool ++ [e])
    lru := c.lru.insert (lruKey e) (key, pool.length) }

/-- `insert_with_budget`. -/
def insertWithBudget (c : PrefixCache κ π) (key : κ) (e : PrefixEntry π) (budget : ℕ) :
    PrefixCache κ π :=
  if budget < e.bytes then c
  else if c.hasKey key e.toks then c
  else
    let c := c.push key e
    evictLoop budget c.nEntries c

/-- `evict_all`. -/
def evictAll (c : PrefixCache κ π) : PrefixCache κ π :=
  { c with entries := ∅, lru := ∅, totalBytes := 0, evictions := c.evictions + c.nEntries }

/-! ## Sequences of operations -/

/-- The mutating operations; an inserted entry carries its own clock reading `lastUse`. -/
inductive Op (κ π : Type)
  | insertWithBudget (key : κ) (e : PrefixEntry π) (budget : ℕ)
  | touch (key : κ) (i now : ℕ)
  | removeAt (key : κ) (i : ℕ)
  | evictAll

/-- The effect of one operation. -/
def apply (c : PrefixCache κ π) : Op κ π → PrefixCache κ π
  | .insertWithBudget key e budget => c.insertWithBudget key e budget
  | .touch key i now => c.touch key i now
  | .removeAt key i => (c.removeAt key i).elim c (·.2)
  | .evictAll => c.evictAll

/-- Bytes handed out by `remove_at` itself and not by the eviction loop: `total_bytes` still
counts them, since `remove_at` leaves that counter to its caller. -/
def handOut (c : PrefixCache κ π) (out : ℕ) : Op κ π → ℕ
  | .insertWithBudget .. => out
  | .touch .. => out
  | .removeAt key i => out + (c.removeAt key i).elim 0 (·.1.bytes)
  | .evictAll => 0

/-- A sequence of operations from `(c, out)`, with the bytes handed out since `evict_all`. -/
def runFrom (s : PrefixCache κ π × ℕ) (ops : List (Op κ π)) : PrefixCache κ π × ℕ :=
  ops.foldl (fun s op => (s.1.apply op, s.1.handOut s.2 op)) s

/-- A sequence of operations from the empty cache. -/
def run (ops : List (Op κ π)) : PrefixCache κ π × ℕ := runFrom ({}, 0) ops

/-! ## Stored entries -/

/-- The pool of `key`, empty when it has none. -/
def pool (c : PrefixCache κ π) (key : κ) : List (PrefixEntry π) := (c.entries.lookup key).getD []

/-- The entry at slot `s`, a pool and a position in it. -/
def entryAt (c : PrefixCache κ π) (s : κ × ℕ) : Option (PrefixEntry π) := (c.pool s.1)[s.2]?

/-- The stored entries, each with the pool it is in. -/
def stored (c : PrefixCache κ π) : Set (κ × PrefixEntry π) :=
  {x | ∃ i, c.entryAt (x.1, i) = some x.2}

/-- The bytes of one pool. -/
def poolBytes (p : List (PrefixEntry π)) : ℕ := (p.map (·.bytes)).sum

/-- The sum of the stored entries' bytes. -/
def storedBytes (c : PrefixCache κ π) : ℕ := sumBy poolBytes c.entries

end PrefixCache

end Memra
