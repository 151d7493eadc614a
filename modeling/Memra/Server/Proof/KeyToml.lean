import Memra.Lib.TableText
import Memra.Server.KeyGen

/-!
# A TOML that keeps its promises

`flatToml` reads and writes the part of TOML that the keys file uses: tables of plain values, one a
line. It is lawful (`flatToml_lawful`).
-/

namespace Memra

open Lib.TableText

namespace FlatToml

/-- `[[keys]]`. -/
def header : List Char := "[[keys]]".toList

/-- The fields of an entry in the order of the struct, those that are `None` left out. -/
def table (e : FileEntry) : Table :=
  [("prefix".toList, .str e.keyPrefix.toList), ("sha256".toList, .str e.sha256.toList),
    ("tenant".toList, .str e.tenant.toList)] ++
  e.lane.elim [] (fun l => [("lane".toList, .str l.toList)]) ++
  [("enabled".toList, .bool e.enabled)] ++
  e.rateLimit.elim [] (fun n => [("rate_limit".toList, .int n)]) ++
  e.createdUnix.elim [] (fun n => [("created_unix".toList, .int n)])

/-- A field that may be missing; a value of another type is an error. -/
def getStr (t : Table) (k : String) : Option (Option String) :=
  match t.lookup k.toList with
  | none => some none
  | some (.str s) => some (some (String.ofList s))
  | some _ => none

def getInt (t : Table) (k : String) : Option (Option ℕ) :=
  match t.lookup k.toList with
  | none => some none
  | some (.int n) => some (some n)
  | some _ => none

def getBool (t : Table) (k : String) : Option (Option Bool) :=
  match t.lookup k.toList with
  | none => some none
  | some (.bool b) => some (some b)
  | some _ => none

def entryOf (t : Table) : Option FileEntry := do
  let keyPrefix ← getStr t "prefix"
  let sha256 ← (← getStr t "sha256")
  let tenant ← (← getStr t "tenant")
  let lane ← getStr t "lane"
  let enabled ← getBool t "enabled"
  let rateLimit ← getInt t "rate_limit"
  let createdUnix ← getInt t "created_unix"
  return {
    keyPrefix := keyPrefix.getD "", sha256, tenant, lane, enabled := enabled.getD true, rateLimit,
    createdUnix }

end FlatToml

open FlatToml

/-- The tables of the keys file, read and written line by line. -/
def flatToml : Toml where
  fromStr text := ((readTables header text.toList).bind (·.mapM entryOf)).elim (.error "parse") .ok
  toStr es := .ok (String.ofList (writeTables header (es.map table)))

namespace FlatToml

theorem header_isHeader : IsHeader header := by
  unfold IsHeader header
  decide

theorem entryOf_table (e : FileEntry) : entryOf (table e) = some e := by
  obtain ⟨⟨sha256, tenant, lane, enabled, rateLimit⟩, keyPrefix, createdUnix⟩ := e
  cases lane <;> cases rateLimit <;> cases createdUnix <;>
    simp [entryOf, table, getStr, getInt, getBool, List.lookup]

/-- The fields in the order of `gen_key`'s fragment. -/
def fragmentTable (k : NewKey) (hash : String) : Table :=
  [("prefix".toList, .str k.keyPrefix.toList), ("sha256".toList, .str hash.toList),
    ("tenant".toList, .str k.tenant.toList), ("lane".toList, .str k.lane.asStr.toList),
    ("enabled".toList, .bool true), ("created_unix".toList, .int k.created)] ++
  k.rateLimit.elim [] fun n => [("rate_limit".toList, .int n)]

theorem entryOf_fragmentTable (k : NewKey) (hash : String) :
    entryOf (fragmentTable k hash) = some (k.entry hash) := by
  obtain ⟨tenant, lane, rateLimit, buf, created⟩ := k
  cases rateLimit <;>
    simp [entryOf, fragmentTable, getStr, getInt, getBool, List.lookup, NewKey.entry]

/-- `gen_key`'s fragment, as the lines of a table. -/
theorem fragment_toList (k : NewKey) (hash : String) :
    (k.fragment hash).toList = unlines ([] :: tableLines header (fragmentTable k hash)) := by
  have hstr : ∀ s : String, toString s = s := fun _ => rfl
  have hrate : k.rateLine.toList = unlines ((k.rateLimit.elim [] fun n =>
      [("rate_limit".toList, Value.int n)]).map pairLine) := by
    unfold NewKey.rateLine
    cases k.rateLimit with
    | none => rfl
    | some n => simp [hstr, unlines, pairLine, Value.text]
  -- the literals of the format string, cut where one line ends and the next key begins
  have h1 : "\n[[keys]]\nprefix = \"".toList =
      '\n' :: (header ++ '\n' :: ("prefix".toList ++ (" = ".toList ++ ['"']))) := by decide
  have h2 : "\"\nsha256 = \"".toList =
      '"' :: '\n' :: ("sha256".toList ++ (" = ".toList ++ ['"'])) := by decide
  have h3 : "\"\ntenant = \"".toList =
      '"' :: '\n' :: ("tenant".toList ++ (" = ".toList ++ ['"'])) := by decide
  have h4 : "\"\n".toList = ['"', '\n'] := by decide
  have h5 : "lane = \"".toList = "lane".toList ++ (" = ".toList ++ ['"']) := by decide
  have h6 : "\"\nenabled = true\ncreated_unix = ".toList =
      '"' :: '\n' :: ("enabled".toList ++ (" = ".toList ++ ("true".toList ++
        '\n' :: ("created_unix".toList ++ " = ".toList)))) := by decide
  have h7 : "\n".toList = ['\n'] := by decide
  unfold NewKey.fragment
  rw [String.toList_append, hrate]
  simp only [hstr, String.toList_append, Nat.toString_eq_repr, Nat.toList_repr, h1, h2, h3, h4, h5,
    h6, h7, fragmentTable, unlines, tableLines, pairLine, Value.text, List.map_cons,
    List.flatMap_cons, List.append_assoc, List.cons_append, List.nil_append, if_true]

theorem word_plain {s : String}
    (h : ∀ c ∈ s.toList, (isAsciiAlphanumeric c || c == '_' || c == '-') = true) :
    (Value.str s.toList).Plain := by
  intro c hc
  have hw := h c hc
  refine ⟨?_, ?_, ?_⟩ <;> rintro rfl <;> cases hw

/-- The names of the fields. -/
def names : List (List Char) :=
  ["prefix".toList, "sha256".toList, "tenant".toList, "lane".toList, "enabled".toList,
    "rate_limit".toList, "created_unix".toList]

theorem names_bare {k : List Char} (hk : k ∈ names) : Bare k := by
  have hall : (names.all fun k => !k.isEmpty &&
      k.all fun c => c.isAlphanum || c == '_' || c == '-') = true := by
    decide
  have h := List.all_eq_true.1 hall k hk
  rw [Bool.and_eq_true, List.all_eq_true] at h
  refine ⟨by simpa using h.1, ?_⟩
  intro c hc
  have hc' := h.2 c hc
  simpa [or_assoc] using hc'

/-- A table of some of the fields, each with a plain value. -/
theorem plain_of_sublist {t : Table} (hnames : (t.map (·.1)).Nodup) (hsub : t.map (·.1) ⊆ names)
    (hvalues : ∀ p ∈ t, p.2.Plain) : t.Plain where
  keys _ hp := names_bare (hsub (List.mem_map_of_mem hp))
  values := hvalues
  nodup := hnames

theorem table_plain {e : FileEntry} (he : e.Plain) : (table e).Plain := by
  obtain ⟨⟨sha256, tenant, lane, enabled, rateLimit⟩, keyPrefix, createdUnix⟩ := e
  refine plain_of_sublist ?_ ?_ ?_
  · cases lane <;> cases rateLimit <;> cases createdUnix <;>
      (simp only [table, Option.elim, List.map_append, List.map_cons, List.map_nil]; decide)
  · cases lane <;> cases rateLimit <;> cases createdUnix <;>
      (simp only [table, Option.elim, List.map_append, List.map_cons, List.map_nil]; decide)
  · intro p hp
    have hlane := he.lane
    have hrate := he.rateLimit
    have hcreated := he.createdUnix
    simp only [table, List.mem_append, List.mem_cons, List.not_mem_nil, or_false] at hp
    rcases hp with (((((rfl | rfl | rfl) | hp) | rfl) | hp) | hp)
    · exact word_plain he.keyPrefix
    · exact word_plain he.sha256
    · exact word_plain he.tenant
    · cases lane with
      | none => cases hp
      | some l =>
        rw [List.mem_singleton.1 hp]
        exact word_plain (hlane l rfl)
    · trivial
    · cases rateLimit with
      | none => cases hp
      | some n =>
        rw [List.mem_singleton.1 hp]
        exact hrate n rfl
    · cases createdUnix with
      | none => cases hp
      | some n =>
        rw [List.mem_singleton.1 hp]
        exact hcreated n rfl

theorem fragmentTable_plain {k : NewKey} {hash : String} (h : (k.entry hash).Plain) :
    (fragmentTable k hash).Plain := by
  obtain ⟨tenant, lane, rateLimit, buf, created⟩ := k
  refine plain_of_sublist ?_ ?_ ?_
  · cases rateLimit <;>
      (simp only [fragmentTable, Option.elim, List.map_append, List.map_cons, List.map_nil]; decide)
  · cases rateLimit <;>
      (simp only [fragmentTable, Option.elim, List.map_append, List.map_cons, List.map_nil]; decide)
  · intro p hp
    have hrate := h.rateLimit
    simp only [fragmentTable, List.mem_append, List.mem_cons, List.not_mem_nil, or_false] at hp
    rcases hp with ((rfl | rfl | rfl | rfl | rfl | rfl) | hp)
    · exact word_plain h.keyPrefix
    · exact word_plain h.sha256
    · exact word_plain h.tenant
    · exact word_plain (h.lane _ rfl)
    · trivial
    · exact h.createdUnix _ rfl
    · cases rateLimit with
      | none => cases hp
      | some n =>
        rw [List.mem_singleton.1 hp]
        exact hrate n rfl

/-- The lines of the comment at the top. -/
def headerLines : List (List Char) :=
  ["# memra API keyring (MEMRA_API_KEYS points here).".toList,
    "# Entries store SHA-256 of the key, never the plaintext. Managed by".toList,
    "# `memra-server --gen-key <tenant>` / `--revoke-key <prefix>` (revoke".toList,
    "# rewrites the file; comments outside this header are not preserved).".toList]

theorem keysHeader_toList : keysHeader.toList = unlines headerLines := by
  have h1 : "# memra API keyring (MEMRA_API_KEYS points here).\n".toList =
      "# memra API keyring (MEMRA_API_KEYS points here).".toList ++ ['\n'] := by decide
  have h2 : "# Entries store SHA-256 of the key, never the plaintext. Managed by\n".toList =
      "# Entries store SHA-256 of the key, never the plaintext. Managed by".toList ++ ['\n'] := by
    decide
  have h3 : "# `memra-server --gen-key <tenant>` / `--revoke-key <prefix>` (revoke\n".toList =
      "# `memra-server --gen-key <tenant>` / `--revoke-key <prefix>` (revoke".toList ++ ['\n'] := by
    decide
  have h4 : "# rewrites the file; comments outside this header are not preserved).\n".toList =
      "# rewrites the file; comments outside this header are not preserved).".toList ++ ['\n'] := by
    decide
  unfold keysHeader headerLines unlines
  simp only [String.toList_append, h1, h2, h3, h4, List.flatMap_cons, List.flatMap_nil,
    List.append_nil, List.append_assoc]

/-- Every managed text denotes tables of its entries. -/
theorem denotes_managed {text : String} {es : List FileEntry} (h : Managed flatToml text es) :
    ∃ ts, Denotes header text.toList ts ∧ ts.mapM entryOf = some es := by
  induction h with
  | header =>
    refine ⟨[], ?_, rfl⟩
    rw [keysHeader_toList]
    apply denotes_comments
    unfold headerLines
    decide
  | append k hash _ hplain ih =>
    obtain ⟨ts, hts, hes⟩ := ih
    refine ⟨ts ++ [fragmentTable k hash], ?_, ?_⟩
    · rw [String.toList_append, fragment_toList]
      exact hts.append header_isHeader (fragmentTable_plain hplain)
    · rw [List.mapM_append, hes]
      simp [entryOf_fragmentTable]
  | @rewrite text es hne hplain hout =>
    obtain rfl := Except.ok.inj hout
    refine ⟨es.map table, ?_, ?_⟩
    · rw [String.toList_ofList]
      apply denotes_writeTables header_isHeader
      · intro t ht
        obtain ⟨e, he, rfl⟩ := List.mem_map.1 ht
        exact table_plain (hplain e he)
      · simpa using hne
    · rw [List.mapM_map]
      clear hne hplain hout
      induction es with
      | nil => rfl
      | cons e es ih =>
        rw [List.mapM_cons, Function.comp_apply, entryOf_table, ih]
        rfl

/-- **The line reader keeps the promises** of the `toml` crate. -/
theorem flatToml_lawful : flatToml.Lawful where
  toStr es _ := ⟨_, rfl⟩
  fromStr text es h := by
    obtain ⟨ts, hts, hes⟩ := denotes_managed h
    change ((readTables header text.toList).bind (·.mapM entryOf)).elim (Except.error "parse") .ok = _
    rw [hts.read]
    change (ts.mapM entryOf).elim _ _ = _
    rw [hes]
    rfl

end FlatToml

end Memra
