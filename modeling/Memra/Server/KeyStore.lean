import Memra.Server.Auth

/-!
# Hot reload of the keyring

`auth.rs`: `KeyStore::from_spec` on a file and `maybe_reload`, step by step beside a writer that
replaces the file. `from_spec` reads the content and then takes the mtime; `maybe_reload`, under the
write lock, takes the mtime and then reads the content. An action that is not enabled does nothing;
a reload inside the poll interval is one of them.

The file is a pair of content and mtime. What reads the bytes as text and as TOML (`toml`) is a
parameter.
-/

namespace Memra

/-- The keys file. -/
structure KeyFile where
  content : List UInt8
  mtime : ℕ

/-- `Keyring::from_toml` of the bytes of a file. -/
def Keyring.fromToml (toml : List UInt8 → Except String (List KeyEntry)) (content : List UInt8) :
    Except String Keyring :=
  (toml content).bind Keyring.fromEntries

/-- `State`. -/
structure KeyState where
  ring : Keyring
  mtime : Option ℕ
  checked : ℕ

/-- Where a `maybe_reload` that was not throttled stands: before `file_mtime`, or with it. -/
inductive Reload
  | locked
  | stated (mtime : Option ℕ)

/-- The store: before `from_spec` reads, between its read and its stat, serving, or refused. -/
inductive KeyStore
  | unread
  | unstated (ring : Keyring)
  | live (st : KeyState) (reload : Option Reload)
  | failed (e : String)

/-- The store beside the file and the clock. -/
structure KeySystem where
  file : KeyFile
  clock : ℕ
  store : KeyStore := .unread
  /-- ghost: the ring of the content that `from_spec` read -/
  bootRing : Option Keyring := none
  /-- ghost: the last ring parsed without an error -/
  lastGood : Option Keyring := none
  /-- ghost: the last write since `from_spec` read the content fell before its stat -/
  raced : Bool := false
  /-- ghost: nothing was written since the reload under way started -/
  fresh : Bool := false
  /-- ghost: a reload that started after the last write has ended -/
  settled : Bool := false

inductive KeyAct
  | write (content : List UInt8) (mtime : ℕ)
  | tick (d : ℕ)
  | specRead
  | specStat
  | reloadLock
  | reloadStat
  | reloadRead

namespace KeySystem

variable (toml : List UInt8 → Except String (List KeyEntry)) (poll : ℕ)

/-- The writer replaces the file, with a larger mtime. -/
def write (s : KeySystem) (content : List UInt8) (mtime : ℕ) : KeySystem :=
  if s.file.mtime < mtime then
    let raced := match s.store with
      | .unstated _ => true
      | _ => false
    { s with file := ⟨content, mtime⟩, raced, fresh := false, settled := false }
  else s

/-- `from_spec`: read and parse. -/
def specRead (s : KeySystem) : KeySystem :=
  match s.store with
  | .unread =>
    match Keyring.fromToml toml s.file.content with
    | .ok ring => { s with store := .unstated ring, bootRing := some ring, lastGood := some ring }
    | .error e => { s with store := .failed e }
  | _ => s

/-- `from_spec`: the mtime, and the store is up. -/
def specStat (s : KeySystem) : KeySystem :=
  match s.store with
  | .unstated ring =>
    { s with store := .live { ring, mtime := some s.file.mtime, checked := s.clock } none }
  | _ => s

/-- `maybe_reload`: past the throttle, with the write lock. -/
def reloadLock (s : KeySystem) : KeySystem :=
  match s.store with
  | .live st none =>
    if s.clock - st.checked < poll then s
    else { s with store := .live { st with checked := s.clock } (some .locked), fresh := true }
  | _ => s

/-- `maybe_reload`: `file_mtime`, and done when it has not moved. -/
def reloadStat (s : KeySystem) : KeySystem :=
  match s.store with
  | .live st (some .locked) =>
    let mtime := some s.file.mtime
    if mtime = st.mtime then { s with store := .live st none, settled := s.settled || s.fresh }
    else { s with store := .live st (some (.stated mtime)) }
  | _ => s

/-- `maybe_reload`: read and parse; a ring that fails to parse keeps the old one. -/
def reloadRead (s : KeySystem) : KeySystem :=
  match s.store with
  | .live st (some (.stated mtime)) =>
    match Keyring.fromToml toml s.file.content with
    | .ok ring =>
      { s with
        store := .live { st with ring, mtime } none
        lastGood := some ring
        settled := s.settled || s.fresh }
    | .error _ =>
      { s with store := .live { st with mtime } none, settled := s.settled || s.fresh }
  | _ => s

def step (s : KeySystem) : KeyAct → KeySystem
  | .write content mtime => s.write content mtime
  | .tick d => { s with clock := s.clock + d }
  | .specRead => s.specRead toml
  | .specStat => s.specStat
  | .reloadLock => s.reloadLock poll
  | .reloadStat => s.reloadStat
  | .reloadRead => s.reloadRead toml

def run (s : KeySystem) (as : List KeyAct) : KeySystem := as.foldl (step toml poll) s

/-- `lookup`, of the hash of a key, behind its `maybe_reload`. -/
def lookup (s : KeySystem) (hash : String) : Option (Except AuthDenied TenantCtx) :=
  match s.store with
  | .live st _ => some (st.ring.lookup hash)
  | _ => none

end KeySystem

end Memra
