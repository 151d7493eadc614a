import Memra.Engine.Trunk
import Mathlib.Data.Nat.Log

/-!
# The gemma stream trunk on the device

What the zero-sync rounds keep on the device: the position counter, its value at the start of the
round, the length counter of each layer that owns KV, and the KV rows. `verifyStream` is
`gemma4_verify_t_am_stream`: it writes its rows from the counter on and leaves every counter alone, and
`rollbackStream` (`spec_rollback_stream`) is the one writer of the counters. `verifyAt` is the verify at
a row the host names. A row stands for the token
it was computed from; what the layers compute is the trunk's.
-/

namespace Memra

/-- `next_power_of_two`. -/
def nextPow2 (n : ℕ) : ℕ := 2 ^ Nat.clog 2 n

/-- The counters and KV rows on the device. -/
structure StreamKv where
  posCtr : ℕ
  posStart : ℕ
  /-- `kvl.len_d` of each layer in the pointer table -/
  lenD : List ℕ
  rows : List Tok
  /-- ghost: one past the highest row written -/
  high : ℕ
  deriving DecidableEq

namespace StreamKv

variable {σ η : Type}

/-- `i32_copy_add(pos_ctr, pos_start, 0)`. -/
def copyPos (kv : StreamKv) : StreamKv := { kv with posStart := kv.posCtr }

/-- The rows of `toks`, from row `n` on. -/
def appendAt (kv : StreamKv) (n : ℕ) (toks : List Tok) : StreamKv :=
  { kv with
    rows := kv.rows.take n ++ toks
    high := max kv.high (n + toks.length) }

/-- A batched verify at row `n`: the argmax of every row it writes. -/
def verifyAt (T : Trunk σ η) (kv : StreamKv) (n : ℕ) (toks : List Tok) : List Tok × StreamKv :=
  ((T.cols (T.after (kv.rows.take n)) toks).map T.pred, kv.appendAt n toks)

/-- `gemma4_verify_t_am_stream`: at the device counter. -/
def verifyStream (T : Trunk σ η) (kv : StreamKv) (toks : List Tok) : List Tok × StreamKv :=
  kv.verifyAt T kv.posCtr toks

/-- `spec_rollback_stream`. -/
def rollbackStream (kv : StreamKv) (base nAcc : ℕ) : StreamKv :=
  { kv with
    posCtr := kv.posStart + base + nAcc
    lenD := kv.lenD.map fun _ => kv.posStart + base + nAcc }

/-- Every counter of the device stands at `n`. -/
def At (kv : StreamKv) (n : ℕ) : Prop := kv.posCtr = n ∧ ∀ len ∈ kv.lenD, len = n

theorem rollbackStream_at (kv : StreamKv) (base nAcc : ℕ) :
    (kv.rollbackStream base nAcc).At (kv.posStart + base + nAcc) := by
  refine ⟨rfl, fun len hl => ?_⟩
  simp only [rollbackStream, List.mem_map] at hl
  obtain ⟨_, _, rfl⟩ := hl
  rfl

end StreamKv

/-- A model that always predicts token one. -/
def onesTrunk : Trunk Unit Unit where
  vocab := 2
  init := ()
  step := fun _ _ => ()
  logits := fun _ => [0, 1]
  hidden := fun _ => ()
  logits_length := fun _ => rfl

end Memra
