import Mathlib.Algebra.Group.Nat.Defs
import Mathlib.Data.Int.Basic
import Memra.Lib.Overwrite

/-!
# The dual cache and its snapshots

`Cache` of `memra-kv`: an attention layer keeps its K and V rows by position, with the number of committed
rows on the host (`len`) and on the device (`lenD`); a recurrent layer keeps its conv and SSM state, updated
in place. `snapshot` records the lengths and copies the states, `snapshotInto` does so in the buffers of an
earlier snapshot, `rollback` goes back. `none` is a panic of the source.
-/

namespace Memra

namespace Kv

variable {Row F : Type}

/-- The cast `as i32`. -/
def asI32 (n : ℕ) : ℤ := (n : ℤ).bmod (2 ^ 32)

/-- `KvLayer`: the packed rows of an attention layer, `max_ctx` of them each. -/
structure KvLayer (Row : Type) where
  k : List Row
  v : List Row
  len : ℕ
  lenD : ℤ

/-- `RecurLayer`. The spare SSM buffer is of the size of the one in use. -/
structure RecurLayer (F : Type) where
  convState : List F
  ssmState : List F
  ssmStateAlt : List F
  alt_size : ssmStateAlt.length = ssmState.length

/-- `Cache`: an attention layer has its entry in `kv`, a recurrent one in `recur`, a layer that attends
another's rows has neither. -/
structure Cache (Row F : Type) where
  kv : List (Option (KvLayer Row))
  recur : List (Option (RecurLayer F))
  pos : ℕ
  layers : kv.length = recur.length

/-- `CacheSnapshot`. -/
structure CacheSnapshot (F : Type) where
  kvLen : List (Option ℕ)
  conv : List (Option (List F))
  ssm : List (Option (List F))
  pos : ℕ

/-- `copy_into`: the first `len` of `src` at `off`; the size of a device buffer does not change. -/
def copyInto (dst : List F) (off : ℕ) (src : List F) (len : ℕ) :
    Option {d : List F // d.length = dst.length} :=
  if len ≤ src.length then
    match h : Lib.overwrite dst off (src.take len) with
    | some d => some ⟨d, Lib.length_overwrite h⟩
    | none => none
  else none

/-- The new length on both sides. -/
def KvLayer.setLen (l : KvLayer Row) (n : ℕ) : KvLayer Row := { l with len := n, lenD := asI32 n }

namespace KvLayer

variable (l : KvLayer Row) (n : ℕ)

@[simp] theorem setLen_len : (l.setLen n).len = n := rfl

@[simp] theorem setLen_lenD : (l.setLen n).lenD = asI32 n := by rw [setLen]

@[simp] theorem setLen_k : (l.setLen n).k = l.k := rfl

@[simp] theorem setLen_v : (l.setLen n).v = l.v := rfl

end KvLayer

/-- One recurrent layer of `rollback`. -/
def RecurLayer.restore (rl : RecurLayer F) (conv ssm : Option (List F)) :
    Option (RecurLayer F) := do
  let rl ← match conv with
    | some s => do
      let d ← copyInto rl.convState 0 s s.length
      some { rl with convState := d.1 }
    | none => some rl
  match ssm with
  | some s => do
    let d ← copyInto rl.ssmState 0 s s.length
    some { rl with ssmState := d.1, alt_size := by rw [d.2, rl.alt_size] }
  | none => some rl

namespace Cache

def setKv (c : Cache Row F) (il : ℕ) (l : KvLayer Row) : Cache Row F :=
  { c with kv := c.kv.set il (some l), layers := by simp [c.layers] }

def setRecur (c : Cache Row F) (il : ℕ) (r : RecurLayer F) : Cache Row F :=
  { c with recur := c.recur.set il (some r), layers := by simp [c.layers] }

/-- `snapshot`. -/
def snapshot (c : Cache Row F) : CacheSnapshot F :=
  { kvLen := c.kv.map (·.map (·.len)),
    conv := c.recur.map (·.map (·.convState)),
    ssm := c.recur.map (·.map (·.ssmState)),
    pos := c.pos }

/-- One layer of `snapshot_into`. -/
def snapshotLayer (c : Cache Row F) (snap : CacheSnapshot F) (il : ℕ) : Option (CacheSnapshot F) := do
  let kvl ← c.kv[il]?
  let _ ← snap.kvLen[il]?
  let snap := { snap with kvLen := snap.kvLen.set il (kvl.map (·.len)) }
  match ← c.recur[il]? with
  | none => some snap
  | some rl =>
    let dc ← (← snap.conv[il]?)
    let ds ← (← snap.ssm[il]?)
    let dc ← copyInto dc 0 rl.convState rl.convState.length
    let ds ← copyInto ds 0 rl.ssmState rl.ssmState.length
    some { snap with conv := snap.conv.set il (some dc.1), ssm := snap.ssm.set il (some ds.1) }

/-- `snapshot_into`. -/
def snapshotInto (c : Cache Row F) (snap : CacheSnapshot F) : Option (CacheSnapshot F) := do
  let snap ← (List.range c.kv.length).foldlM c.snapshotLayer snap
  some { snap with pos := c.pos }

/-- The attention part of a layer of `rollback`: the length goes back on both sides. -/
def rollbackLen (c : Cache Row F) (il acceptLen : ℕ) :
    Option (KvLayer Row) → Option ℕ → Cache Row F
  | some kvl, some saved => c.setKv il (kvl.setLen (saved + acceptLen))
  | _, _ => c

/-- One layer of `rollback`. -/
def rollbackLayer (snap : CacheSnapshot F) (acceptLen : ℕ) (c : Cache Row F) (il : ℕ) :
    Option (Cache Row F) := do
  let kvl ← c.kv[il]?
  let saved ← snap.kvLen[il]?
  let c := c.rollbackLen il acceptLen kvl saved
  match ← c.recur[il]? with
  | none => some c
  | some rl =>
    let rl ← rl.restore (← snap.conv[il]?) (← snap.ssm[il]?)
    some (c.setRecur il rl)

/-- `rollback`. -/
def rollback (c : Cache Row F) (snap : CacheSnapshot F) (acceptLen : ℕ) : Option (Cache Row F) := do
  let c ← (List.range c.kv.length).foldlM (rollbackLayer snap acceptLen) c
  some { c with pos := snap.pos }

/-- What a forward pass does to the cache: it appends rows to an attention layer, with any value of the
device's counter, it updates a recurrent layer in place, also by exchanging its two SSM buffers, or it moves
the position. -/
inductive Op (Row F : Type) where
  | append (il : ℕ) (ks vs : List Row) (lenD : ℤ)
  | update (il : ℕ) (conv ssm alt : List F)
  | moveTo (pos : ℕ)

/-- A write outside of a buffer fails. -/
def apply (c : Cache Row F) : Op Row F → Option (Cache Row F)
  | .append il ks vs lenD =>
    match c.kv[il]? with
    | some (some l) => do
      let k ← Lib.overwrite l.k l.len ks
      let v ← Lib.overwrite l.v l.len vs
      if ks.length = vs.length then
        some (c.setKv il { k, v, len := l.len + ks.length, lenD })
      else none
    | _ => none
  | .update il conv ssm alt =>
    match c.recur[il]? with
    | some (some r) =>
      if h : conv.length = r.convState.length ∧ ssm.length = r.ssmState.length ∧
          alt.length = r.ssmState.length then
        some (c.setRecur il
          { convState := conv, ssmState := ssm, ssmStateAlt := alt, alt_size := by rw [h.2.2, h.2.1] })
      else none
    | _ => none
  | .moveTo pos => some { c with pos }

/-- A run of forward passes. -/
def run (c : Cache Row F) (ops : List (Op Row F)) : Option (Cache Row F) := ops.foldlM apply c

end Cache

end Kv

end Memra
