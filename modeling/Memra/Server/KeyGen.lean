import Mathlib
import Memra.Server.Auth

/-!
# Generating and revoking keys

`auth.rs`: `gen_key` appends one entry to the keys file and prints the key once; `revoke_key` reads
the file back, disables the one entry its handle matches and writes the whole file again. The bytes
of `/dev/urandom`, the clock, SHA-256 and the `toml` crate are parameters. `KeyAdmin` is the file
after any sequence of the two, beside the keys that were handed out.

`Managed` are the texts these two functions write, with the entries that they denote in TOML, and
`Toml.Lawful` is what the crate promises of them.
-/

namespace Memra

def LaneClass.asStr : LaneClass → String
  | .interactive => "interactive"
  | .batch => "batch"

/-- An entry as the file has it, with the revoke handle. -/
structure FileEntry extends KeyEntry where
  keyPrefix : String
  createdUnix : Option ℕ
  deriving DecidableEq

/-- The `toml` crate, reading and writing the `keys` of a file. -/
structure Toml where
  fromStr : String → Except String (List FileEntry)
  toStr : List FileEntry → Except String String

/-- Bytes as two lower case digits each. -/
def hexDigits (bs : List UInt8) : List Char :=
  bs.flatMap fun b => [(b.toNat / 16).digitChar, (b.toNat % 16).digitChar]

def sha256Hex (sha256 : String → Vector UInt8 32) (key : String) : String :=
  String.ofList (hexDigits (sha256 key).toList)

def randomHex48 (buf : Vector UInt8 24) : String := String.ofList (hexDigits buf.toList)

/-- A call of `gen_key`: its arguments, what `/dev/urandom` gave and what the clock read. -/
structure NewKey where
  tenant : String
  lane : LaneClass
  rateLimit : Option ℕ
  buf : Vector UInt8 24
  created : ℕ

namespace NewKey

variable (k : NewKey)

def secret : String := randomHex48 k.buf

/-- The plaintext. -/
def key : String := s!"mk-{k.tenant}-{k.secret}"

def handle : String := String.ofList (k.secret.toList.take 12)

/-- The printed prefix. -/
def keyPrefix : String := s!"mk-{k.tenant}-{k.handle}"

def rateLine : String := k.rateLimit.elim "" fun rl => s!"rate_limit = {rl}\n"

/-- The text that `gen_key` appends. -/
def fragment (hash : String) : String :=
  s!"\n[[keys]]\nprefix = \"{k.keyPrefix}\"\nsha256 = \"{hash}\"\ntenant = \"{k.tenant}\"\n" ++
    s!"lane = \"{k.lane.asStr}\"\nenabled = true\ncreated_unix = {k.created}\n" ++ k.rateLine

/-- The entry that the fragment denotes. -/
def entry (hash : String) : FileEntry where
  sha256 := hash
  tenant := k.tenant
  lane := some k.lane.asStr
  enabled := true
  rateLimit := k.rateLimit
  keyPrefix := k.keyPrefix
  createdUnix := some k.created

end NewKey

/-- The comment at the top of a new file. -/
def keysHeader : String :=
  "# memra API keyring (MEMRA_API_KEYS points here).\n" ++
  "# Entries store SHA-256 of the key, never the plaintext. Managed by\n" ++
  "# `memra-server --gen-key <tenant>` / `--revoke-key <prefix>` (revoke\n" ++
  "# rewrites the file; comments outside this header are not preserved).\n"

section
variable (toml : Toml) (sha256 : String → Vector UInt8 32)

/-- `gen_key` on a file, if there is one: the key and what the file holds after it. -/
def genKey (file : Option String) (k : NewKey) : Except String (String × String) :=
  if !validTenant k.tenant then
    .error s!"bad tenant {repr k.tenant} (want [A-Za-z0-9_-]+)"
  else if k.rateLimit = some 0 then .error "rate limit 0 would admit nothing"
  else
    match file with
    | none => .ok (k.key, keysHeader ++ k.fragment (sha256Hex sha256 k.key))
    | some text => do
      let keys ← toml.fromStr text
      let _ ← Keyring.fromEntries (keys.map (·.toKeyEntry))
      if keys.any (·.keyPrefix == k.keyPrefix) then
        .error s!"prefix {k.keyPrefix} already exists (rerun to draw a new key)"
      else .ok (k.key, text ++ k.fragment (sha256Hex sha256 k.key))

/-- What `revoke_key` looks for: a printed prefix that starts with the handle, or its hash. -/
def FileEntry.matchesHandle (e : FileEntry) (handle : String) : Bool :=
  (!e.keyPrefix.toList.isEmpty && handle.toList.isPrefixOf e.keyPrefix.toList) ||
    e.sha256 == sha256Hex sha256 handle

def FileEntry.disable (e : FileEntry) : FileEntry := { e with enabled := false }

/-- `revoke_key` on the text of the file: the revoked prefix and the file after it. -/
def revokeKey (text handle : String) : Except String (String × String) := do
  let keys ← toml.fromStr text
  match keys.zipIdx.filter (·.1.matchesHandle sha256 handle) with
  | [] => .error s!"no key matches {repr handle}"
  | [(e, i)] =>
    if !e.enabled then .error s!"key {e.keyPrefix} is already revoked"
    else do
      let out ← toml.toStr (keys.modify i FileEntry.disable)
      .ok (e.keyPrefix, out)
  | several => .error s!"{several.length} keys match {repr handle} — use a longer prefix"

end

/-! ## Any sequence of the two -/

/-- A key that was handed out. -/
structure IssuedKey extends NewKey where
  /-- a `revoke_key` answered with its printed prefix -/
  revoked : Bool

/-- The entry of a key in the file. -/
def IssuedKey.entry (sha256 : String → Vector UInt8 32) (k : IssuedKey) : FileEntry :=
  { k.toNewKey.entry (sha256Hex sha256 k.key) with enabled := !k.revoked }

/-- The keys file. -/
structure KeyAdmin where
  file : Option String := none
  /-- ghost: the keys handed out, in order -/
  issued : List IssuedKey := []

inductive KeyAdmin.Op
  | genKey (k : NewKey)
  | revokeKey (handle : String)

namespace KeyAdmin

variable (toml : Toml) (sha256 : String → Vector UInt8 32)

/-- The key with this printed prefix is revoked. -/
def markRevoked (issued : List IssuedKey) (keyPrefix : String) : List IssuedKey :=
  issued.map fun k => if k.keyPrefix = keyPrefix then { k with revoked := true } else k

/-- A call that fails leaves the file alone. -/
def step (s : KeyAdmin) : Op → KeyAdmin
  | .genKey k =>
    match Memra.genKey toml sha256 s.file k with
    | .ok (_, text) => { file := some text, issued := s.issued ++ [{ k with revoked := false }] }
    | .error _ => s
  | .revokeKey handle =>
    match s.file with
    | none => s
    | some text =>
      match Memra.revokeKey toml sha256 text handle with
      | .ok (keyPrefix, out) =>
        { file := some out, issued := markRevoked s.issued keyPrefix }
      | .error _ => s

def run (ops : List Op) : KeyAdmin := ops.foldl (step toml sha256) {}

/-- The file parses to a ring that knows every key as its own, and as disabled once revoked. -/
def Authenticates (s : KeyAdmin) : Prop :=
  ∀ text, s.file = some text → ∃ keys ring, toml.fromStr text = .ok keys ∧
    Keyring.fromEntries (keys.map (·.toKeyEntry)) = .ok ring ∧
    ∀ k ∈ s.issued, ring.lookup (sha256Hex sha256 k.key) =
      if k.revoked then .error .disabled else .ok ⟨k.tenant, k.lane, k.rateLimit⟩

/-- `revoke_key` with the printed prefix of key number `i` disables its entry and no other. -/
def Revocable (s : KeyAdmin) (i : ℕ) (k : IssuedKey) : Prop :=
  ∃ text keys out, s.file = some text ∧ toml.fromStr text = .ok keys ∧
    keys[i]? = some (k.entry sha256) ∧
    Memra.revokeKey toml sha256 text k.keyPrefix = .ok (k.keyPrefix, out) ∧
    toml.fromStr out = .ok (keys.modify i FileEntry.disable)

/-- The numbers of the calls fit in a TOML integer; those of the clock always do. -/
def NumbersFit (ops : List Op) : Prop :=
  ∀ k, .genKey k ∈ ops → k.created < 2 ^ 63 ∧ ∀ n ∈ k.rateLimit, n < 2 ^ 63

/-- What is hashed, when any key may be revoked by its printed prefix. -/
def hashed (ops : List Op) : List String :=
  ops.flatMap fun
    | .genKey k => [k.key, k.keyPrefix]
    | .revokeKey handle => [handle]

/-- No two of the strings that are hashed have one hash. -/
def CollisionFree (ops : List Op) : Prop :=
  ∀ a ∈ hashed ops, ∀ b ∈ hashed ops, sha256 a = sha256 b → a = b

end KeyAdmin

/-! ## The texts of the file -/

/-- The strings of an entry need no escape, and its numbers are TOML integers. -/
structure FileEntry.Plain (e : FileEntry) : Prop where
  keyPrefix : ∀ c ∈ e.keyPrefix.toList, isAsciiAlphanumeric c || c == '_' || c == '-'
  sha256 : ∀ c ∈ e.sha256.toList, isAsciiAlphanumeric c || c == '_' || c == '-'
  tenant : ∀ c ∈ e.tenant.toList, isAsciiAlphanumeric c || c == '_' || c == '-'
  lane : ∀ l ∈ e.lane, ∀ c ∈ l.toList, isAsciiAlphanumeric c || c == '_' || c == '-'
  rateLimit : ∀ n ∈ e.rateLimit, n < 2 ^ 63
  createdUnix : ∀ n ∈ e.createdUnix, n < 2 ^ 63

/-- The texts of the keys file and the entries they denote. -/
inductive Managed (toml : Toml) : String → List FileEntry → Prop
  /-- comments -/
  | header : Managed toml keysHeader []
  /-- one more `[[keys]]` table at the end -/
  | append {text : String} {es : List FileEntry} (k : NewKey) (hash : String) :
      Managed toml text es → (k.entry hash).Plain →
        Managed toml (text ++ k.fragment hash) (es ++ [k.entry hash])
  /-- what the crate wrote, with at least one table -/
  | rewrite {text : String} {es : List FileEntry} :
      es ≠ [] → (∀ e ∈ es, e.Plain) → toml.toStr es = .ok text → Managed toml text es

/-- What the crate promises: entries can be written, and the texts above are read. -/
structure Toml.Lawful (toml : Toml) : Prop where
  toStr : ∀ es : List FileEntry, (∀ e ∈ es, e.Plain) → ∃ text, toml.toStr es = .ok text
  fromStr : ∀ text es, Managed toml text es → toml.fromStr text = .ok es

end Memra
