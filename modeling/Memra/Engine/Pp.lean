import Mathlib.Algebra.Group.Nat.Defs
import Mathlib.Data.List.Basic
import Memra.Lib.BinarySearch
import Memra.Lib.Str

/-!
# Pipeline stages and their layers

`pp.rs`: `pp_cuts` reads the stage fence from the environment, `stage_of` and `layer_engine` find the stage
of a layer in it, for the loader; `Cache::new_ppn` of `memra-kv` finds it for the KV rows, and the decode
step walks the ranges of the fence. Each stage of the runtime has an engine. A value of `PpEnv` is the text
of a variable, `none` where it is not set; otherwise `none` is a closed door, an error or a panic.
-/

namespace Memra

namespace Pp

/-- The variables `MEMRA_PP_*` that decide about placement. -/
structure PpEnv where
  stages : Option (List Char) := none
  splits : Option (List Char) := none
  split : Option (List Char) := none
  devices : Option (List Char) := none
  streams : Option (List Char) := none
  shard : Option (List Char) := none

/-- `str::parse::<usize>`. -/
def parseUsize (s : List Char) : Option ℕ :=
  let digits := match s with
    | '+' :: rest => rest
    | _ => s
  if digits ≠ [] ∧ digits.all Char.isDigit then
    let n := digits.foldl (fun n c => 10 * n + (c.toNat - 48)) 0
    if n < 2 ^ 64 then some n else none
  else none

/-- The numbers between the commas. -/
def parseList (s : List Char) : Option (List ℕ) := (s.splitOn ',').mapM fun p => parseUsize (Lib.trim p)

/-- The cuts between the stages: the list, the one cut of two stages, or even ones. -/
def cuts (env : PpEnv) (nLayers nSt : ℕ) : Option (List ℕ) :=
  match env.splits, env.split with
  | some s, _ => do
    let cuts ← parseList s
    if cuts.length = nSt - 1 then some cuts else none
  | none, some v => if nSt ≠ 2 then none else do some [← parseUsize v]
  | none, none => some ((List.range' 1 (nSt - 1)).map fun s => s * nLayers / nSt)

/-- `w[0] < w[1]` in every window of two. -/
def increasing (fence : List ℕ) : Bool := (fence.zip fence.tail).all fun w => w.1 < w.2

/-- `pp_cuts`. -/
def ppCuts (env : PpEnv) (nLayers : ℕ) : Option (List ℕ) := do
  let v ← env.stages
  if v = [] ∨ v = ['0'] ∨ v = ['1'] then none
  else
    let nSt ← parseUsize v
    if nSt < 2 ∨ nLayers < nSt then none
    else
      let cuts ← cuts env nLayers nSt
      let fence := 0 :: cuts ++ [nLayers]
      if increasing fence then some fence else none

/-- `fence[1..fence.len() - 1]`. -/
def innerCuts (fence : List ℕ) : List ℕ := fence.tail.dropLast

/-- `stage_of`. -/
def stageOf (fence : List ℕ) (il : ℕ) : ℕ :=
  match Lib.binarySearch (innerCuts fence) il with
  | .ok k => k + 1
  | .error k => k

/-- `pp2_devices_env`. -/
def PpEnv.devicesEnv (env : PpEnv) : Option (List Char) := env.devices.filter (· ≠ [])

/-- `pp2_streams_off`. -/
def PpEnv.streamsOff (env : PpEnv) : Bool := env.streams = some ['0']

/-- `pp_shard_off`. -/
def PpEnv.shardOff (env : PpEnv) : Bool := env.shard = some ['0']

/-- An engine: the primary one, or that of a stage. -/
inductive PpEngine where
  | primary
  | stage (s : ℕ)
  deriving DecidableEq

/-- `PpNRt`: the device of each stage. -/
structure PpNRt where
  primaryDev : ℕ
  devices : List ℕ

/-- `MEMRA_PP_STAGES` where it counts two or more. -/
def PpEnv.stageCount (env : PpEnv) : Option ℕ := (env.stages.bind parseUsize).filter (2 ≤ ·)

/-- The device of each stage: those listed, or the primary one for all. -/
def PpEnv.placement (env : PpEnv) (primaryDev : ℕ) : Option (List ℕ) :=
  match env.devicesEnv with
  | some s => (parseList s).filter (2 ≤ ·.length)
  | none => some (List.replicate (env.stageCount.getD 2) primaryDev)

/-- `PpNRt::build`; `usable` says whether the devices are there and reach each other. -/
def PpNRt.build (env : PpEnv) (usable : List ℕ → Bool) (primaryDev : ℕ) : Option PpNRt := do
  let devices ← env.placement primaryDev
  if env.stageCount.any (· ≠ devices.length) then none
  else if usable devices then some { primaryDev, devices }
  else none

/-- `engine`: the first stage has the primary engine if it is on its device, every other one its own. -/
def PpNRt.engine (rt : PpNRt) (s : ℕ) : Option PpEngine :=
  rt.devices[s]?.map fun d => if d = rt.primaryDev ∧ s = 0 then .primary else .stage s

section
variable (env : PpEnv) (usable : List ℕ → Bool) (primaryDev : ℕ)

/-- `layer_engine`. -/
def layerEngine (nTrunk il : ℕ) : Option PpEngine :=
  if env.shardOff || env.devicesEnv.isNone || env.streamsOff then some .primary
  else
    match ppCuts env nTrunk with
    | none => some .primary
    | some fence => do
      let rt ← PpNRt.build env usable primaryDev
      rt.engine (stageOf fence (min il (nTrunk - 1)))

/-- The pick of `Cache::new_ppn`. -/
def newPpnPick (devs : List PpEngine) (fence : List ℕ) (il : ℕ) : Option PpEngine :=
  if devs.length + 1 = fence.length then
    let s := match Lib.binarySearch (innerCuts fence) il with
      | .ok k => k + 1
      | .error k => k
    devs[min s (devs.length - 1)]?
  else none

/-- The engine that `new_cache` allocates layer `il` with. -/
def cacheEngine (nLayer nextn il : ℕ) : Option PpEngine :=
  let nTrunk := nLayer - nextn
  match ppCuts env nTrunk with
  | none => some .primary
  | some fence =>
    if env.devicesEnv.isSome && !env.streamsOff then do
      let rt ← PpNRt.build env usable primaryDev
      let nSt := fence.length - 1
      if rt.devices.length = nSt then
        let devs ← (List.range nSt).mapM rt.engine
        newPpnPick devs fence il
      else none
    else some .primary

/-- The layers `[lo, hi)`, each with the engine that runs it. -/
def layersEager (e : PpEngine) (lo hi : ℕ) : List (ℕ × PpEngine) :=
  (List.range' lo (hi - lo)).map fun il => (il, e)

/-- The ranges of the fence, one stage after another. -/
def walkStages (engine : ℕ → Option PpEngine) (fence : List ℕ) : Option (List (ℕ × PpEngine)) := do
  let walks ← (List.range (fence.length - 1)).mapM fun s => do
    some (layersEager (← engine s) (← fence[s]?) (← fence[s + 1]?))
  some walks.flatten

/-- The layers that a decode step runs, in order, each with its engine: stage by stage with the door open
(`decode_step_h_ppn`), all on the primary engine without streams or with the door closed. -/
def decodeWalk (nTrunk : ℕ) : Option (List (ℕ × PpEngine)) :=
  match ppCuts env nTrunk with
  | none => some (layersEager .primary 0 nTrunk)
  | some fence =>
    if env.streamsOff then walkStages (fun _ => some .primary) fence
    else do
      let rt ← PpNRt.build env usable primaryDev
      if rt.devices.length = fence.length - 1 then walkStages rt.engine fence
      else none

end

end Pp

end Memra
