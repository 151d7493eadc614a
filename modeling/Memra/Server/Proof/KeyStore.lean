import Memra.Server.KeyStore
import Memra.Lib.Runs

/-!
# What a reload can miss

`maybe_reload` takes the mtime before it reads, so that a write between the two is a newer mtime than
the one it records. `from_spec` takes them in the other order: a write in between is recorded as
loaded, and no reload looks at it again until the next write. `KeyInv` carries this through a run:
the recorded mtime is at most the file's, and when it is the file's own, the ring is that of the
content, unless the last write came between the two steps of `from_spec` (`raced`).
-/

namespace Memra

open Lib

namespace KeySystem

variable {toml : List UInt8 → Except String (List KeyEntry)} {poll : ℕ}

/-- The ring of a serving store is that of the file's content, or the last one parsed when the
content is not a valid keyring. -/
def Current (toml : List UInt8 → Except String (List KeyEntry)) (s : KeySystem) : Prop :=
  ∃ st reload, s.store = .live st reload ∧
    (∀ ring, Keyring.fromToml toml s.file.content = .ok ring → st.ring = ring) ∧
    ((∀ ring, Keyring.fromToml toml s.file.content ≠ .ok ring) → s.lastGood = some st.ring)

/-- Keys are then refused and admitted as the file says. -/
theorem Current.lookup {s : KeySystem} (h : Current toml s) {ring : Keyring}
    (hp : Keyring.fromToml toml s.file.content = .ok ring) (hash : String) :
    s.lookup hash = some (ring.lookup hash) := by
  obtain ⟨st, reload, hst, hring, -⟩ := h
  unfold KeySystem.lookup
  rw [hst, ← hring ring hp]

/-- The last write fell between the two steps of `from_spec`, and it wrote a valid keyring other than
the one that `from_spec` parsed. -/
def Missed (toml : List UInt8 → Except String (List KeyEntry)) (s : KeySystem) : Prop :=
  s.raced = true ∧
    ∃ ring, Keyring.fromToml toml s.file.content = .ok ring ∧ s.bootRing ≠ some ring

/-- What holds of a serving store with the recorded mtime `m`. -/
structure LiveInv (toml : List UInt8 → Except String (List KeyEntry)) (s : KeySystem) (st : KeyState)
    (reload : Option Reload) (m : ℕ) : Prop where
  recorded : st.mtime = some m
  le : m ≤ s.file.mtime
  parsed : s.lastGood = some st.ring
  raced : s.raced = true → m = s.file.mtime ∧ s.bootRing = some st.ring
  loaded : s.raced = false → m = s.file.mtime →
    ∀ ring, Keyring.fromToml toml s.file.content = .ok ring → st.ring = ring
  settled : s.settled = true → m = s.file.mtime
  stated : ∀ mtime, reload = some (.stated mtime) →
    ∃ n, mtime = some n ∧ m < n ∧ n ≤ s.file.mtime ∧ (s.fresh = true → n = s.file.mtime)

/-- The invariant of a run. -/
def KeyInv (toml : List UInt8 → Except String (List KeyEntry)) (s : KeySystem) : Prop :=
  match s.store with
  | .unread => s.raced = false ∧ s.fresh = false ∧ s.settled = false
  | .unstated ring => s.fresh = false ∧ s.settled = false ∧ s.bootRing = some ring ∧
      s.lastGood = some ring ∧
      (s.raced = false → Keyring.fromToml toml s.file.content = .ok ring)
  | .live st reload => ∃ m, LiveInv toml s st reload m
  | .failed _ => s.settled = false

theorem keyInv_live {s : KeySystem} {st : KeyState} {reload : Option Reload}
    (hst : s.store = .live st reload) : KeyInv toml s ↔ ∃ m, LiveInv toml s st reload m := by
  unfold KeyInv
  rw [hst]

/-- A step that leaves the file, the ring and its mtime alone. -/
theorem LiveInv.keep {s s' : KeySystem} {st st' : KeyState} {reload reload' : Option Reload} {m : ℕ}
    (h : LiveInv toml s st reload m) (hfile : s'.file = s.file)
    (hst : st'.ring = st.ring ∧ st'.mtime = st.mtime)
    (hghost : s'.lastGood = s.lastGood ∧ s'.raced = s.raced ∧ s'.bootRing = s.bootRing)
    (hsettled : s'.settled = true → m = s.file.mtime)
    (hstated : ∀ mtime, reload' = some (.stated mtime) →
      ∃ n, mtime = some n ∧ m < n ∧ n ≤ s.file.mtime ∧ (s'.fresh = true → n = s.file.mtime)) :
    LiveInv toml s' st' reload' m where
  recorded := hst.2.trans h.recorded
  le := hfile ▸ h.le
  parsed := by rw [hghost.1, hst.1, h.parsed]
  raced hr := by
    rw [hghost.2.1] at hr
    rw [hfile, hghost.2.2, hst.1]
    exact h.raced hr
  loaded hr := by
    rw [hghost.2.1] at hr
    rw [hfile, hst.1]
    exact h.loaded hr
  settled hs := by
    rw [hfile]
    exact hsettled hs
  stated mtime ht := by
    rw [hfile]
    exact hstated mtime ht

theorem KeyInv.write {s : KeySystem} (h : KeyInv toml s) (content : List UInt8) (mtime : ℕ) :
    KeyInv toml (s.write content mtime) := by
  unfold KeySystem.write
  split
  · rename_i hlt
    unfold KeyInv at h ⊢
    cases hst : s.store with
    | unread =>
      simp only [hst] at h ⊢
      exact ⟨trivial, trivial, trivial⟩
    | unstated ring =>
      simp only [hst] at h ⊢
      exact ⟨trivial, trivial, h.2.2.1, h.2.2.2.1, fun hr => by cases hr⟩
    | live st reload =>
      simp only [hst] at h ⊢
      obtain ⟨m, h⟩ := h
      have hm := h.le
      exact ⟨m, {
        recorded := h.recorded
        le := by simp only; omega
        parsed := h.parsed
        raced := fun hr => by cases hr
        loaded := fun _ heq => by simp only at heq; omega
        settled := fun hs => by cases hs
        stated := fun t ht => by
          obtain ⟨n, hn, h1, h2, -⟩ := h.stated t ht
          exact ⟨n, hn, h1, by simp only; omega, fun hf => by cases hf⟩ }⟩
    | failed e =>
      simp only [hst] at h ⊢
  · exact h

theorem KeyInv.specRead {s : KeySystem} (h : KeyInv toml s) : KeyInv toml (s.specRead toml) := by
  unfold KeySystem.specRead
  cases hst : s.store with
  | unread =>
    unfold KeyInv at h
    simp only [hst] at h
    simp only
    cases hp : Keyring.fromToml toml s.file.content with
    | ok ring => exact ⟨h.2.1, h.2.2, rfl, rfl, fun _ => hp⟩
    | error e => exact h.2.2
  | unstated ring => exact h
  | live st reload => exact h
  | failed e => exact h

theorem KeyInv.specStat {s : KeySystem} (h : KeyInv toml s) : KeyInv toml s.specStat := by
  unfold KeySystem.specStat
  cases hst : s.store with
  | unread => exact h
  | unstated ring =>
    unfold KeyInv at h
    simp only [hst] at h
    obtain ⟨-, hsettled, hboot, hgood, hparse⟩ := h
    exact ⟨s.file.mtime, {
      recorded := rfl
      le := Nat.le_refl _
      parsed := hgood
      raced := fun _ => ⟨rfl, hboot⟩
      loaded := fun hr _ ring' hring => by
        rw [hparse hr] at hring
        exact Except.ok.inj hring
      settled := fun _ => rfl
      stated := fun t ht => by cases ht }⟩
  | live st reload => exact h
  | failed e => exact h

theorem KeyInv.tick {s : KeySystem} (h : KeyInv toml s) (clock : ℕ) :
    KeyInv toml { s with clock } := by
  unfold KeyInv at h ⊢
  cases hst : s.store with
  | unread =>
    simp only [hst] at h ⊢
    exact h
  | unstated ring =>
    simp only [hst] at h ⊢
    exact h
  | live st reload =>
    simp only [hst] at h ⊢
    obtain ⟨m, h⟩ := h
    exact ⟨m, h.keep rfl ⟨rfl, rfl⟩ ⟨rfl, rfl, rfl⟩ h.settled h.stated⟩
  | failed e =>
    simp only [hst] at h ⊢
    exact h

theorem KeyInv.reloadLock {s : KeySystem} (h : KeyInv toml s) : KeyInv toml (s.reloadLock poll) := by
  unfold KeySystem.reloadLock
  split
  · rename_i st hst
    split
    · exact h
    · obtain ⟨m, h⟩ := (keyInv_live hst).1 h
      exact ⟨m, h.keep rfl ⟨rfl, rfl⟩ ⟨rfl, rfl, rfl⟩ h.settled fun t ht => by cases ht⟩
  · exact h

theorem KeyInv.reloadStat {s : KeySystem} (h : KeyInv toml s) : KeyInv toml s.reloadStat := by
  unfold KeySystem.reloadStat
  split
  · rename_i st hst
    obtain ⟨m, h⟩ := (keyInv_live hst).1 h
    simp only
    split
    · -- the mtime has not moved: the reload is over
      rename_i heq
      rw [h.recorded, Option.some.injEq] at heq
      exact ⟨m, h.keep rfl ⟨rfl, rfl⟩ ⟨rfl, rfl, rfl⟩ (fun _ => heq.symm) fun t ht => by cases ht⟩
    · rename_i hne
      rw [h.recorded, Option.some.injEq] at hne
      have hle := h.le
      refine ⟨m, h.keep rfl ⟨rfl, rfl⟩ ⟨rfl, rfl, rfl⟩ h.settled fun t ht => ?_⟩
      cases ht
      exact ⟨_, rfl, by omega, Nat.le_refl _, fun _ => rfl⟩
  · exact h

theorem KeyInv.reloadRead {s : KeySystem} (h : KeyInv toml s) : KeyInv toml (s.reloadRead toml) := by
  unfold KeySystem.reloadRead
  split
  · rename_i st mtime hst
    obtain ⟨m, h⟩ := (keyInv_live hst).1 h
    obtain ⟨n, rfl, hlt, hle, hfresh⟩ := h.stated mtime rfl
    -- the file has moved since the recorded mtime
    have hraced : s.raced = true → False := fun hr => by
      have := (h.raced hr).1
      omega
    have hsettled : (s.settled || s.fresh) = true → n = s.file.mtime := by
      intro hs
      rw [Bool.or_eq_true] at hs
      rcases hs with hs | hs
      · have := h.settled hs
        omega
      · exact hfresh hs
    cases hp : Keyring.fromToml toml s.file.content with
    | ok ring =>
      exact ⟨n, {
        recorded := rfl
        le := hle
        parsed := rfl
        raced := fun hr => (hraced hr).elim
        loaded := fun _ _ ring' hring => by
          rw [hp] at hring
          exact Except.ok.inj hring
        settled := hsettled
        stated := fun t ht => by cases ht }⟩
    | error e =>
      exact ⟨n, {
        recorded := rfl
        le := hle
        parsed := h.parsed
        raced := fun hr => (hraced hr).elim
        loaded := fun _ _ ring' hring => by
          rw [hp] at hring
          cases hring
        settled := hsettled
        stated := fun t ht => by cases ht }⟩
  · exact h

theorem KeyInv.step {s : KeySystem} (h : KeyInv toml s) (a : KeyAct) :
    KeyInv toml (s.step toml poll a) := by
  cases a with
  | write content mtime => exact h.write content mtime
  | tick d => exact h.tick _
  | specRead => exact h.specRead
  | specStat => exact h.specStat
  | reloadLock => exact h.reloadLock
  | reloadStat => exact h.reloadStat
  | reloadRead => exact h.reloadRead

theorem keyInv_run (toml : List UInt8 → Except String (List KeyEntry)) (poll : ℕ) (file : KeyFile)
    (clock : ℕ) (as : List KeyAct) : KeyInv toml (run toml poll { file, clock } as) :=
  have hall : Along (step toml poll) (fun _ _ => True) { file, clock } as :=
    Along.of_forall (fun _ _ => trivial) as _
  hall.invariant (fun _ a h _ => h.step a) ⟨rfl, rfl, rfl⟩

/-- In every state of every run in which a reload started after the last write has ended, the store
has the ring of the file, or the last one parsed, exactly when `from_spec` did not miss that write. -/
theorem current_iff_not_missed {toml : List UInt8 → Except String (List KeyEntry)} {poll : ℕ}
    {file : KeyFile} {clock : ℕ} {as : List KeyAct}
    (h : (run toml poll { file, clock } as).settled = true) :
    Current toml (run toml poll { file, clock } as) ↔
      ¬ Missed toml (run toml poll { file, clock } as) := by
  have hinv := keyInv_run toml poll file clock as
  generalize run toml poll { file, clock } as = s at h hinv
  cases hst : s.store with
  | unread =>
    unfold KeyInv at hinv
    simp only [hst, h] at hinv
    cases hinv.2.2
  | unstated ring =>
    unfold KeyInv at hinv
    simp only [hst, h] at hinv
    cases hinv.2.1
  | failed e =>
    unfold KeyInv at hinv
    simp only [hst, h] at hinv
    cases hinv
  | live st reload =>
    obtain ⟨m, hinv⟩ := (keyInv_live hst).1 hinv
    have hm := hinv.settled h
    constructor
    · rintro ⟨st', reload', hst', hring, -⟩ ⟨hraced, ring, hp, hne⟩
      rw [hst] at hst'
      cases hst'
      rw [(hinv.raced hraced).2, hring ring hp] at hne
      exact hne rfl
    · intro hmiss
      refine ⟨st, reload, hst, fun ring hp => ?_, fun _ => hinv.parsed⟩
      cases hraced : s.raced with
      | false => exact hinv.loaded hraced hm ring hp
      | true =>
        by_contra hne
        refine hmiss ⟨hraced, ring, hp, ?_⟩
        rw [(hinv.raced hraced).2, ne_eq, Option.some.injEq]
        exact hne

/-- A file replaced while the store serves. -/
theorem current_replaced :
    Current (fun _ => .ok []) (run (fun _ => .ok []) 0 { file := ⟨[0], 1⟩, clock := 0 }
        [.specRead, .specStat, .write [1] 2, .reloadLock, .reloadStat, .reloadRead]) ↔
      ¬ Missed (fun _ => .ok []) (run (fun _ => .ok []) 0 { file := ⟨[0], 1⟩, clock := 0 }
        [.specRead, .specStat, .write [1] 2, .reloadLock, .reloadStat, .reloadRead]) :=
  current_iff_not_missed rfl

/-! ## A missed revocation -/

/-- A ring of one valid entry. -/
theorem fromEntries_singleton {e : KeyEntry}
    (he : ({ e with sha256 := e.sha256.toLower } : KeyEntry).Valid) :
    ∃ r : Keyring, Keyring.fromEntries [e] = .ok r ∧
      r.byHash.lookup e.sha256.toLower = some { e with sha256 := e.sha256.toLower } := by
  refine ⟨Keyring.empty.insert _ he, ?_, ?_⟩
  · have hadd : Keyring.empty.addEntry 0 e =
        .ok (Keyring.empty.insert { e with sha256 := e.sha256.toLower } he) := by
      have hlane : ∀ l, e.lane = some l → (LaneClass.parse l).isSome := he.lane
      have hrate : e.rateLimit ≠ some 0 := he.rateLimit
      unfold Keyring.addEntry
      rw [dif_pos he.tenant]
      simp only
      rw [dif_pos he.sha256, dif_pos hlane, dif_pos hrate, if_neg]
      rw [Keyring.empty, AList.lookup_empty]
      decide
    unfold Keyring.fromEntries
    show (Keyring.empty.addEntry 0 e).bind _ = _
    rw [hadd]
    rfl
  · rw [Keyring.insert]
    simp only
    rw [AList.lookup_insert]

/-- The key of "acme". -/
def acmeKey : KeyEntry := { sha256 := String.ofList (List.replicate 64 '0'), tenant := "acme" }

theorem acmeKey_valid : ({ acmeKey with sha256 := acmeKey.sha256.toLower } : KeyEntry).Valid where
  tenant := by decide
  sha256 := by
    have h : acmeKey.sha256.toLower.toList = List.replicate 64 '0' := by
      unfold String.toLower acmeKey
      rw [String.toList_map, String.toList_ofList, List.map_replicate]
      rfl
    have hdigit : isAsciiHexdigit '0' = true := by decide
    unfold validSha256
    rw [h, List.length_replicate, List.all_replicate, hdigit]
    rfl
  lane l h := by cases h
  rateLimit := by decide

/-- A key taken out of the file between the two steps of `from_spec` stays valid after a reload. -/
theorem not_current_of_race :
    ¬ ∀ (toml : List UInt8 → Except String (List KeyEntry)) (poll : ℕ) (file : KeyFile) (clock : ℕ)
      (as : List KeyAct), (run toml poll { file, clock } as).settled = true →
        Current toml (run toml poll { file, clock } as) := by
  intro hall
  obtain ⟨r, hr, hlookup⟩ := fromEntries_singleton acmeKey_valid
  generalize htoml : (fun c : List UInt8 =>
    if c = [] then (.ok [] : Except String (List KeyEntry)) else .ok [acmeKey]) = toml
  have hold : Keyring.fromToml toml [1] = .ok r := by
    rw [← htoml]
    exact hr
  have hnew : Keyring.fromToml toml [] = .ok Keyring.empty := by
    rw [← htoml]
    rfl
  have hrun : run toml 0 { file := ⟨[1], 1⟩, clock := 0 }
      [.specRead, .write [] 2, .specStat, .reloadLock, .reloadStat] =
        { file := ⟨[], 2⟩, clock := 0, store := .live ⟨r, some 2, 0⟩ none, bootRing := some r,
          lastGood := some r, raced := true, fresh := true, settled := true } := by
    simp [run, step, specRead, hold, write, specStat, reloadLock, reloadStat]
  have h := hall toml 0 ⟨[1], 1⟩ 0 [.specRead, .write [] 2, .specStat, .reloadLock, .reloadStat]
  rw [hrun] at h
  obtain ⟨st, reload, hst, hring, -⟩ := h rfl
  cases hst
  have hempty : r = Keyring.empty := hring Keyring.empty hnew
  rw [hempty, Keyring.empty, AList.lookup_empty] at hlookup
  cases hlookup

end KeySystem

end Memra
