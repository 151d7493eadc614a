import Mathlib.Data.List.AList
import Mathlib.Data.String.Basic

/-!
# Keys and tenants

`auth.rs`: the keyring, what a bearer key authenticates as, the cache namespace of a tenant and the
metering key read back from it. The hash of a key is a parameter. A `Keyring` carries the checks of
`from_entries` on each of its entries; the TOML and the inline form are read into entries before.
-/

namespace Memra

/-- `NS_SEP`. -/
def nsSep : Char := Char.ofNat 0x1f

inductive LaneClass
  | interactive
  | batch
  deriving DecidableEq

def LaneClass.parse (v : String) : Option LaneClass :=
  if v = "interactive" then some .interactive else if v = "batch" then some .batch else none

/-- A keyring entry. -/
structure KeyEntry where
  sha256 : String
  tenant : String
  lane : Option String := none
  enabled : Bool := true
  rateLimit : Option ℕ := none
  deriving DecidableEq

/-- The identity a request acts as. -/
structure TenantCtx where
  tenant : String
  laneClass : LaneClass
  rateLimit : Option ℕ
  deriving DecidableEq

/-- `default_tenant`: the single key and the open server. -/
def TenantCtx.defaultTenant : TenantCtx :=
  { tenant := "default", laneClass := .interactive, rateLimit := none }

inductive AuthDenied
  | unknown
  | disabled
  deriving DecidableEq

def isAsciiAlphanumeric (c : Char) : Bool :=
  ('0' ≤ c && c ≤ '9') || ('a' ≤ c && c ≤ 'z') || ('A' ≤ c && c ≤ 'Z')

def isAsciiHexdigit (c : Char) : Bool :=
  ('0' ≤ c && c ≤ '9') || ('a' ≤ c && c ≤ 'f') || ('A' ≤ c && c ≤ 'F')

def validTenant (t : String) : Bool :=
  !t.toList.isEmpty && t.toList.all fun c => isAsciiAlphanumeric c || c == '_' || c == '-'

def validSha256 (s : String) : Bool := s.toList.length == 64 && s.toList.all isAsciiHexdigit

/-- What `from_entries` checks of an entry. -/
structure KeyEntry.Valid (e : KeyEntry) : Prop where
  tenant : validTenant e.tenant = true
  sha256 : validSha256 e.sha256 = true
  lane : ∀ l, e.lane = some l → (LaneClass.parse l).isSome
  rateLimit : e.rateLimit ≠ some 0

/-- The parsed keyring: hash to valid entry. -/
structure Keyring where
  byHash : AList (fun _ : String => KeyEntry)
  valid : ∀ h e, byHash.lookup h = some e → e.Valid

namespace Keyring

def empty : Keyring := { byHash := ∅, valid := fun _ _ h => by simp at h }

def insert (r : Keyring) (e : KeyEntry) (he : e.Valid) : Keyring where
  byHash := r.byHash.insert e.sha256 e
  valid h e' hl := by
    by_cases hh : h = e.sha256
    · rw [hh, AList.lookup_insert, Option.some.injEq] at hl
      exact hl ▸ he
    · rw [AList.lookup_insert_ne hh] at hl
      exact r.valid h e' hl

/-- One entry of `from_entries`, number `i`. -/
def addEntry (r : Keyring) (i : ℕ) (e : KeyEntry) : Except String Keyring :=
  if ht : validTenant e.tenant = true then
    let e' := { e with sha256 := e.sha256.toLower }
    if hs : validSha256 e'.sha256 = true then
      if hl : ∀ l, e.lane = some l → (LaneClass.parse l).isSome then
        if hr : e.rateLimit ≠ some 0 then
          if (r.byHash.lookup e'.sha256).isSome then
            .error s!"key entry {i}: duplicate sha256 (same key listed twice)"
          else .ok (r.insert e' ⟨ht, hs, hl, hr⟩)
        else
          .error (s!"key entry {i} (tenant {repr e.tenant}): rate_limit 0 would admit nothing — " ++
            "use enabled = false to revoke")
      else
        let lane := e.lane.getD ""
        .error s!"key entry {i} (tenant {repr e.tenant}): bad lane {repr lane} (interactive|batch)"
    else .error s!"key entry {i} (tenant {repr e.tenant}): sha256 must be 64 hex chars"
  else .error s!"key entry {i}: bad tenant {repr e.tenant} (want [A-Za-z0-9_-]+)"

/-- `from_entries`: a ring with a malformed entry is refused whole. -/
def fromEntries (entries : List KeyEntry) : Except String Keyring :=
  entries.zipIdx.foldlM (fun r e => r.addEntry e.2 e.1) empty

/-- `lookup`, of the hash of the presented key. -/
def lookup (r : Keyring) (hash : String) : Except AuthDenied TenantCtx :=
  match r.byHash.lookup hash with
  | none => .error .unknown
  | some e =>
    if e.enabled then
      .ok {
        tenant := e.tenant
        laneClass := (e.lane.bind LaneClass.parse).getD .interactive
        rateLimit := e.rateLimit }
    else .error .disabled

end Keyring

/-- The single static key: tenant "default", else unknown. -/
def singleKeyCtx (singleKey : Option String) (candidate : String) : Except AuthDenied TenantCtx :=
  if singleKey = some candidate then .ok .defaultTenant else .error .unknown

/-- `authenticate_with`: the ring, then the single key; nothing configured is open. -/
def authenticateWith (sha256Hex : String → String) (keyring : Option Keyring)
    (singleKey bearer : Option String) : Except AuthDenied TenantCtx :=
  if keyring.isNone && singleKey.isNone then .ok .defaultTenant
  else
    match bearer, keyring with
    | none, _ => .error .unknown
    | some candidate, none => singleKeyCtx singleKey candidate
    | some candidate, some ring =>
      match ring.lookup (sha256Hex candidate) with
      | .ok ctx => .ok ctx
      | .error .disabled => .error .disabled
      | .error .unknown => singleKeyCtx singleKey candidate

/-- `scope_namespace`: `t:<tenant>`, the separator, the salt. -/
def scopeNamespace (tenant rawSalt : String) : String := s!"t:{tenant}{nsSep}{rawSalt}"

/-- `meter_key`: the tenant half of a scoped namespace, any other namespace as it is. -/
def meterKey (cacheNs : String) : String :=
  match cacheNs.toList with
  | 't' :: ':' :: rest =>
    match rest.findIdx? (· == nsSep) with
    | some sep => String.ofList (cacheNs.toList.take (2 + sep))
    | none => cacheNs
  | _ => cacheNs

/-- A looked up context is that of a valid entry. -/
theorem Keyring.lookup_ok {r : Keyring} {hash : String} {ctx : TenantCtx}
    (h : r.lookup hash = .ok ctx) :
    ∃ e : KeyEntry, e.Valid ∧ ctx.tenant = e.tenant ∧ ctx.rateLimit = e.rateLimit := by
  unfold Keyring.lookup at h
  split at h
  · cases h
  · rename_i e he
    split at h
    · obtain rfl := Except.ok.inj h
      exact ⟨e, r.valid _ _ he, rfl, rfl⟩
    · cases h

theorem singleKeyCtx_ok {singleKey : Option String} {candidate : String} {ctx : TenantCtx}
    (h : singleKeyCtx singleKey candidate = .ok ctx) : ctx = .defaultTenant := by
  unfold singleKeyCtx at h
  split at h
  · exact (Except.ok.inj h).symm
  · cases h

/-- **Every authenticated context** has a valid tenant name and no cap of zero. -/
theorem authenticateWith_ok {sha256Hex : String → String} {keyring : Option Keyring}
    {singleKey bearer : Option String} {ctx : TenantCtx}
    (h : authenticateWith sha256Hex keyring singleKey bearer = .ok ctx) :
    validTenant ctx.tenant = true ∧ ctx.rateLimit ≠ some 0 := by
  have hdef : validTenant TenantCtx.defaultTenant.tenant = true ∧
      TenantCtx.defaultTenant.rateLimit ≠ some 0 := by decide
  unfold authenticateWith at h
  split at h
  · obtain rfl := Except.ok.inj h
    exact hdef
  · split at h
    · cases h
    · rw [singleKeyCtx_ok h]
      exact hdef
    · split at h
      · rename_i hk
        obtain rfl := Except.ok.inj h
        obtain ⟨e, he, ht, hl⟩ := Keyring.lookup_ok hk
        rw [ht, hl]
        exact ⟨he.tenant, he.rateLimit⟩
      · cases h
      · rw [singleKeyCtx_ok h]
        exact hdef

end Memra
