import Mathlib.Algebra.BigOperators.Group.List.Basic
import Mathlib.Data.List.Sort
import Memra.Lib.Tally

/-!
# The size classes of the expert cache

`size_class_plan` of `moe_cache.rs`: how many slots each block size gets under one byte budget. The counts
of the sizes are the entries of a `BTreeMap`, in increasing order. The source computes in `u128`; here
every product and every sum is checked against a width `w`, and an overflow is `none`.
-/

namespace Memra

namespace SizeClass

/-- The map of the sizes that are not zero: `*counts.entry(bytes).or_insert(0) += 1` for each. -/
def countsOf (blockBytes : List ℕ) : List (ℕ × ℕ) := Lib.tally (blockBytes.filter (0 < ·))

/-- A class of the plan, with what is left of its share. -/
structure PlanEntry where
  bytes : ℕ
  count : ℕ
  rem : ℕ

section
variable (w : ℕ)

def checked (x : ℕ) : Option ℕ := if x < 2 ^ w then some x else none

/-- The sum of `(bytes + 8) * count`. -/
def totalBytes (classes : List (ℕ × ℕ)) : Option ℕ :=
  classes.foldlM (fun acc p => do
    let slot ← checked w (p.1 + 8)
    let bytes ← checked w (slot * p.2)
    checked w (acc + bytes)) 0

/-- The floor of a class's share, at most its inventory. -/
def share (total budget : ℕ) (p : ℕ × ℕ) : Option PlanEntry := do
  let scaled ← checked w (p.2 * budget)
  some { bytes := p.1, count := min (scaled / total) p.2, rem := scaled % total }

/-- The remainder of a class. -/
def remAt (plan : List PlanEntry) (i : ℕ) : ℕ := (plan[i]?.map (·.rem)).getD 0

/-- The classes by falling remainder, ties by position. -/
def remainderOrder (plan : List PlanEntry) : List ℕ :=
  (List.range plan.length).insertionSort fun a b =>
    remAt plan b < remAt plan a ∨ (remAt plan b = remAt plan a ∧ a ≤ b)

/-- One turn of the remainder pass: a slot more for the class at `index` if there is a block and the room
for it. -/
def grant (budget : ℕ) (counts : List (ℕ × ℕ)) (st : List PlanEntry × ℕ) (index : ℕ) :
    Option (List PlanEntry × ℕ) := do
  let (plan, used) := st
  let e ← plan[index]?
  let available ← counts.lookup e.bytes
  let required ← checked w (e.bytes + 8)
  if e.count < available then do
    let sum ← checked w (used + required)
    if sum ≤ budget then some (plan.set index { e with count := e.count + 1 }, sum)
    else some st
  else some st

/-- `size_class_plan` in arithmetic of width `w`. -/
def sizeClassPlanIn (blockBytes : List ℕ) (budget : ℕ) : Option (List (ℕ × ℕ)) :=
  let counts := countsOf blockBytes
  if counts = [] ∨ budget = 0 then some []
  else do
    let total ← totalBytes w counts
    let plan ← counts.mapM (share w total budget)
    let used ← totalBytes w (plan.map fun e => (e.bytes, e.count))
    let (plan, _) ← (remainderOrder plan).foldlM (grant w budget counts) (plan, used)
    some (plan.filterMap fun e => if 0 < e.count then some (e.bytes, e.count) else none)

end

/-- `size_class_plan`. -/
def sizeClassPlan (blockBytes : List ℕ) (budget : ℕ) : Option (List (ℕ × ℕ)) :=
  sizeClassPlanIn 128 blockBytes budget

end SizeClass

end Memra
