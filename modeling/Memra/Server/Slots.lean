import Memra.Server.Auth
import Memra.Server.Session

/-!
# Request slots

The in-flight gauges of `main.rs`: an atomic counter for each lane and a locked map from tenant to
live requests. `try_acquire` is a locked step on the map and, when that passes, an increment of the
lane counter; the drop of a guard is a decrement of the lane counter and a locked step on the map.

`SlotSystem` puts any number of requests and guards side by side, each between two of its steps;
`step` takes one step of one of them, reloads the keyring or authenticates a new request. An action
that names no waiting party does nothing.
-/

namespace Memra

/-- The lane counters and the tenant map. `underflow` is set by a decrement at zero. -/
structure Gauges where
  counts : Lane → ℕ
  tenants : AList (fun _ : String => ℕ)
  underflow : Bool

namespace Gauges

def new : Gauges := { counts := fun _ => 0, tenants := ∅, underflow := false }

/-- The locked step of `try_acquire`: the row is created before the cap is checked. -/
def lockAcquire (g : Gauges) (tenant : String) (tenantCap : Option ℕ) : Except ℕ ℕ × Gauges :=
  let m := if (g.tenants.lookup tenant).isSome then g.tenants else g.tenants.insert tenant 0
  let e := (m.lookup tenant).getD 0
  if tenantCap.any (e ≥ ·) then (.error e, { g with tenants := m })
  else (.ok (e + 1), { g with tenants := m.insert tenant (e + 1) })

/-- `fetch_add` of the lane counter, with the count including this request. -/
def addLane (g : Gauges) (lane : Lane) : ℕ × Gauges :=
  (g.counts lane + 1, { g with counts := Function.update g.counts lane (g.counts lane + 1) })

/-- `fetch_sub` of the lane counter. -/
def subLane (g : Gauges) (lane : Lane) : Gauges :=
  if g.counts lane = 0 then { g with underflow := true }
  else { g with counts := Function.update g.counts lane (g.counts lane - 1) }

/-- The locked step of `drop`: a row that reaches zero is removed. -/
def lockRelease (g : Gauges) (tenant : String) : Gauges :=
  match g.tenants.lookup tenant with
  | none => g
  | some e =>
    if e = 0 then { g with underflow := true }
    else if e - 1 = 0 then { g with tenants := g.tenants.erase tenant }
    else { g with tenants := g.tenants.insert tenant (e - 1) }

end Gauges

/-- `InflightGuard`. -/
structure InflightGuard where
  lane : Lane
  tenant : String
  deriving DecidableEq

/-- `acquire_request_slot`: only an override below the lane's cap binds. -/
def bindingCap (laneCap : Lane → ℕ) (lane : Lane) (tenant : TenantCtx) : Option ℕ :=
  tenant.rateLimit.filter fun cap => cap < laneCap lane

/-- `acquire_request_slot`: what a refused request is answered. -/
def slotRefused : EngineError := .rateLimit "api key concurrent request limit reached; retry"

/-- The caps of the lanes (read once), the single key and the key hash. -/
structure SlotConfig where
  laneCap : Lane → ℕ
  singleKey : Option String
  sha256Hex : String → String

/-- All parties: requests before `try_acquire` (`waiting`), past its locked step (`acquiring`),
holding a guard (`live`), inside its drop (`releasing`), and the answers to refused ones. -/
structure SlotSystem where
  ring : Option Keyring
  gauges : Gauges := .new
  waiting : List (TenantCtx × Lane) := []
  acquiring : List InflightGuard := []
  live : List InflightGuard := []
  releasing : List InflightGuard := []
  refused : List (TenantCtx × EngineError) := []

inductive PermitAct
  | reload (entries : List KeyEntry)
  | authenticate (bearer : Option String) (lane : Lane)
  | lockAcquire (i : ℕ)
  | addLane (i : ℕ)
  | subLane (i : ℕ)
  | lockRelease (i : ℕ)

namespace SlotSystem

variable (cfg : SlotConfig)

/-- `maybe_reload`: a ring that fails to parse keeps the old one; no ring is never replaced. -/
def reload (s : SlotSystem) (entries : List KeyEntry) : SlotSystem :=
  match s.ring, Keyring.fromEntries entries with
  | some _, .ok ring => { s with ring := some ring }
  | _, _ => s

def authenticate (s : SlotSystem) (bearer : Option String) (lane : Lane) : SlotSystem :=
  match authenticateWith cfg.sha256Hex s.ring cfg.singleKey bearer with
  | .ok ctx => { s with waiting := s.waiting ++ [(ctx, lane)] }
  | .error _ => s

/-- The locked step of `try_acquire` for request `i`. -/
def lockAcquire (s : SlotSystem) (i : ℕ) : SlotSystem :=
  match s.waiting[i]? with
  | none => s
  | some (ctx, lane) =>
    let s := { s with waiting := s.waiting.eraseIdx i }
    match s.gauges.lockAcquire ctx.tenant (bindingCap cfg.laneCap lane ctx) with
    | (.ok _, gauges) =>
      { s with gauges, acquiring := s.acquiring ++ [{ lane, tenant := ctx.tenant }] }
    | (.error _, gauges) => { s with gauges, refused := s.refused ++ [(ctx, slotRefused)] }

/-- The lane increment of `try_acquire`: the guard is returned. -/
def addLane (s : SlotSystem) (i : ℕ) : SlotSystem :=
  match s.acquiring[i]? with
  | none => s
  | some g =>
    { s with
      gauges := (s.gauges.addLane g.lane).2
      acquiring := s.acquiring.eraseIdx i
      live := s.live ++ [g] }

/-- The lane decrement of `drop`. -/
def subLane (s : SlotSystem) (i : ℕ) : SlotSystem :=
  match s.live[i]? with
  | none => s
  | some g =>
    { s with
      gauges := s.gauges.subLane g.lane
      live := s.live.eraseIdx i
      releasing := s.releasing ++ [g] }

/-- The locked step of `drop`. -/
def lockRelease (s : SlotSystem) (i : ℕ) : SlotSystem :=
  match s.releasing[i]? with
  | none => s
  | some g =>
    { s with gauges := s.gauges.lockRelease g.tenant, releasing := s.releasing.eraseIdx i }

def step (s : SlotSystem) : PermitAct → SlotSystem
  | .reload entries => s.reload entries
  | .authenticate bearer lane => s.authenticate cfg bearer lane
  | .lockAcquire i => s.lockAcquire cfg i
  | .addLane i => s.addLane i
  | .subLane i => s.subLane i
  | .lockRelease i => s.lockRelease i

/-- Any interleaving, from a server without requests. -/
def run (ring : Option Keyring) (acts : List PermitAct) : SlotSystem :=
  acts.foldl (step cfg) { ring }

/-- No `try_acquire` and no drop is between its two steps. -/
def Quiescent (s : SlotSystem) : Prop := s.acquiring = [] ∧ s.releasing = []

end SlotSystem

end Memra
