import Memra.Server.KeyGen
import Memra.Server.Proof.KeyToml

/-!
# The keys file under generation and revocation

`Kept` is what every call keeps: the file holds the entries of the keys handed out, in order, no two
with one printed prefix. So the file always parses to a ring that knows each key
(`Kept.lookup_issued`). A printed prefix `mk-<tenant>-<h12>` is a prefix of another exactly when the
other's tenant begins with `<tenant>-<h12>` (`keyPrefix_isPrefix_iff`); `Kept.revoke_iff` follows.
-/

namespace Memra

/-! ## Hex digits -/

/-- A digit of `{:02x}`. -/
def isLowerHex (c : Char) : Bool := ('0' ≤ c && c ≤ '9') || ('a' ≤ c && c ≤ 'f')

theorem digitChar_lowerHex : ∀ n < 16, isLowerHex n.digitChar = true := by decide

theorem digitChar_inj : ∀ a < 16, ∀ b < 16, a.digitChar = b.digitChar → a = b := by decide

theorem hexDigits_length (bs : List UInt8) : (hexDigits bs).length = 2 * bs.length := by
  induction bs with
  | nil => rfl
  | cons b bs ih =>
    simp only [hexDigits, List.flatMap_cons, List.length_append, List.length_cons] at ih ⊢
    simp only [ih, List.length_nil]
    omega

theorem hexDigits_lowerHex {bs : List UInt8} {c : Char} (h : c ∈ hexDigits bs) :
    isLowerHex c = true := by
  obtain ⟨b, -, hc⟩ := List.mem_flatMap.1 h
  have hb : b.toNat < 256 := b.toNat_lt
  rcases List.mem_cons.1 hc with rfl | hc
  · exact digitChar_lowerHex _ (by omega)
  · rw [List.mem_singleton.1 hc]
    exact digitChar_lowerHex _ (by omega)

theorem hexDigits_inj : ∀ {as bs : List UInt8}, hexDigits as = hexDigits bs → as = bs
  | [], [], _ => rfl
  | [], _ :: _, h => by simp [hexDigits] at h
  | _ :: _, [], h => by simp [hexDigits] at h
  | a :: as, b :: bs, h => by
    simp only [hexDigits, List.flatMap_cons, List.cons_append, List.nil_append,
      List.cons.injEq] at h
    obtain ⟨h1, h2, h3⟩ := h
    have ha : a.toNat < 256 := a.toNat_lt
    have hb : b.toNat < 256 := b.toNat_lt
    have hhi := digitChar_inj _ (by omega) _ (by omega) h1
    have hlo := digitChar_inj _ (by omega) _ (by omega) h2
    have hab : a = b := UInt8.toNat_inj.1 (by omega)
    rw [hab, hexDigits_inj h3]

theorem lowerHex_ne_dash {c : Char} (h : isLowerHex c = true) : c ≠ '-' := by
  rintro rfl
  cases h

theorem lowerHex_hexdigit {c : Char} (h : isLowerHex c = true) : isAsciiHexdigit c = true := by
  simp only [isLowerHex, isAsciiHexdigit, Bool.or_eq_true] at h ⊢
  exact .inl h

theorem lowerHex_toLower {c : Char} (h : isLowerHex c = true) : c.toLower = c := by
  have hnot : ¬ (c ≥ 'A' ∧ c ≤ 'Z') := by
    simp only [isLowerHex, Bool.or_eq_true, Bool.and_eq_true, decide_eq_true_eq] at h
    rintro ⟨hA, hZ⟩
    rcases h with h | h
    · exact absurd (hA.trans h.2) (by decide)
    · exact absurd (h.1.trans hZ) (by decide)
  unfold Char.toLower
  exact dif_neg hnot

theorem lowerHex_word {c : Char} (h : isLowerHex c = true) :
    (isAsciiAlphanumeric c || c == '_' || c == '-') = true := by
  have hle : c ≤ 'f' → c ≤ 'z' := fun h => h.trans (by decide)
  simp only [isLowerHex, isAsciiAlphanumeric, Bool.or_eq_true, Bool.and_eq_true,
    decide_eq_true_eq] at h ⊢
  rcases h with h | h
  · exact .inl (.inl (.inl (.inl h)))
  · exact .inl (.inl (.inl (.inr ⟨h.1, hle h.2⟩)))

section
variable (sha256 : String → Vector UInt8 32)

theorem sha256Hex_lowerHex {s : String} {c : Char} (h : c ∈ (sha256Hex sha256 s).toList) :
    isLowerHex c = true := by
  rw [sha256Hex, String.toList_ofList] at h
  exact hexDigits_lowerHex h

theorem sha256Hex_valid (s : String) : validSha256 (sha256Hex sha256 s) = true := by
  have hlen : (sha256Hex sha256 s).toList.length = 64 := by
    rw [sha256Hex, String.toList_ofList, hexDigits_length, Vector.length_toList]
  unfold validSha256
  rw [Bool.and_eq_true, beq_iff_eq, List.all_eq_true]
  exact ⟨hlen, fun c hc => lowerHex_hexdigit (sha256Hex_lowerHex sha256 hc)⟩

theorem sha256Hex_toLower (s : String) : (sha256Hex sha256 s).toLower = sha256Hex sha256 s := by
  rw [← String.toList_inj, String.toLower, String.toList_map]
  rw [List.map_congr_left fun c hc => lowerHex_toLower (sha256Hex_lowerHex sha256 hc)]
  exact List.map_id' _

theorem sha256Hex_inj {a b : String} (h : sha256Hex sha256 a = sha256Hex sha256 b) :
    sha256 a = sha256 b := by
  have h' := congrArg String.toList h
  simp only [sha256Hex, String.toList_ofList] at h'
  exact Vector.toList_inj.1 (hexDigits_inj h')

end

/-! ## Printed prefixes -/

namespace NewKey

variable (k : NewKey)

@[simp] theorem secret_toList : k.secret.toList = hexDigits k.buf.toList := by
  rw [secret, randomHex48, String.toList_ofList]

@[simp] theorem handle_toList : k.handle.toList = (hexDigits k.buf.toList).take 12 := by
  rw [handle, String.toList_ofList, secret_toList]

theorem key_toList :
    k.key.toList = 'm' :: 'k' :: '-' :: (k.tenant.toList ++ '-' :: k.secret.toList) := by
  change ("mk-" ++ k.tenant ++ "-" ++ k.secret).toList = _
  simp

theorem keyPrefix_toList :
    k.keyPrefix.toList = 'm' :: 'k' :: '-' :: (k.tenant.toList ++ '-' :: k.handle.toList) := by
  change ("mk-" ++ k.tenant ++ "-" ++ k.handle).toList = _
  simp

theorem secret_length : k.secret.toList.length = 48 := by
  rw [secret_toList, hexDigits_length, Vector.length_toList]

theorem handle_length : k.handle.toList.length = 12 := by
  rw [handle_toList, List.length_take, hexDigits_length, Vector.length_toList]
  rfl

theorem dash_not_mem_secret : '-' ∉ k.secret.toList := by
  intro h
  rw [secret_toList] at h
  exact lowerHex_ne_dash (hexDigits_lowerHex h) rfl

theorem dash_not_mem_handle : '-' ∉ k.handle.toList := by
  intro h
  rw [handle_toList] at h
  exact lowerHex_ne_dash (hexDigits_lowerHex (List.mem_of_mem_take h)) rfl

end NewKey

/-- The last occurrence of a symbol splits a list in one way. -/
theorem append_cons_inj {α : Type} {d : α} {t u x y : List α} (hx : d ∉ x) (hy : d ∉ y)
    (h : t ++ d :: x = u ++ d :: y) : t = u ∧ x = y := by
  obtain ⟨a, hu, hdx⟩ | ⟨a, ht, hdy⟩ := List.append_eq_append_iff.1 h
  · cases a with
    | nil => simp_all
    | cons c a =>
      obtain ⟨rfl, rfl⟩ := List.cons.inj hdx
      simp at hx
  · cases a with
    | nil => simp_all
    | cons c a =>
      obtain ⟨rfl, rfl⟩ := List.cons.inj hdy
      simp at hy

/-- Of two lists that end in a `d` and equally many symbols that are none, the first is a prefix of
the second only as a whole, or inside what stands before that `d`. -/
theorem append_cons_isPrefix {α : Type} {d : α} {t u x y : List α} (hx : d ∉ x)
    (hlen : x.length = y.length) (h : t ++ d :: x <+: u ++ d :: y) :
    t ++ d :: x = u ++ d :: y ∨ t ++ d :: x <+: u := by
  obtain ⟨r, hr⟩ := h
  obtain ⟨a, hu, -⟩ | ⟨c, hc, hcr⟩ := List.append_eq_append_iff.1 hr
  · exact .inr ⟨a, hu.symm⟩
  · have hr' := congrArg List.length hr
    have hc' := congrArg List.length hcr
    simp only [List.length_append, List.length_cons] at hr' hc'
    obtain ⟨a, hu, hac⟩ | ⟨b, ht, -⟩ := List.append_eq_append_iff.1 hc
    · cases a with
      | nil =>
        have hl := congrArg List.length hac
        simp only [List.nil_append, List.length_cons] at hl
        have hr0 : r = [] := List.eq_nil_of_length_eq_zero (by omega)
        exact .inl (by rw [← hr, hr0, List.append_nil])
      | cons _ a =>
        obtain ⟨rfl, rfl⟩ := List.cons.inj hac
        cases c with
        | nil => exact .inr ⟨[], by rw [List.append_nil, hc, List.append_nil]⟩
        | cons _ c =>
          obtain ⟨rfl, -⟩ := List.cons.inj hcr
          simp at hx
    · have hl := congrArg List.length ht
      simp only [List.length_append] at hl
      have hr0 : r = [] := List.eq_nil_of_length_eq_zero (by omega)
      exact .inl (by rw [← hr, hr0, List.append_nil])

namespace NewKey

/-- One printed prefix is a prefix of another. -/
theorem keyPrefix_isPrefix_iff (k j : NewKey) :
    k.keyPrefix.toList <+: j.keyPrefix.toList ↔
      k.keyPrefix = j.keyPrefix ∨ k.tenant.toList ++ '-' :: k.handle.toList <+: j.tenant.toList := by
  rw [← String.toList_inj, keyPrefix_toList, keyPrefix_toList]
  simp only [List.cons_prefix_cons, List.cons.injEq, true_and]
  constructor
  · intro h
    exact append_cons_isPrefix k.dash_not_mem_handle (by rw [handle_length, handle_length]) h
  · intro h
    rcases h with h | h
    · rw [h]
    · exact h.trans (List.prefix_append _ _)

/-- A printed prefix is nobody's key. -/
theorem keyPrefix_ne_key (k j : NewKey) : k.keyPrefix ≠ j.key := by
  intro h
  rw [← String.toList_inj, keyPrefix_toList, key_toList] at h
  simp only [List.cons.injEq, true_and] at h
  obtain ⟨-, hs⟩ := append_cons_inj k.dash_not_mem_handle j.dash_not_mem_secret h
  have hlen := congrArg List.length hs
  rw [handle_length, secret_length] at hlen
  cases hlen

theorem keyPrefix_of_key {k j : NewKey} (h : k.key = j.key) : k.keyPrefix = j.keyPrefix := by
  rw [← String.toList_inj, key_toList, key_toList] at h
  simp only [List.cons.injEq, true_and] at h
  obtain ⟨ht, hs⟩ := append_cons_inj k.dash_not_mem_secret j.dash_not_mem_secret h
  rw [← String.toList_inj, keyPrefix_toList, keyPrefix_toList, ht, handle, handle, hs]

end NewKey

/-! ## The ring of a list of entries -/

namespace Keyring

theorem addEntry_ok {r : Keyring} {e : KeyEntry} (he : e.Valid)
    (hlow : e.sha256.toLower = e.sha256) (hnew : r.byHash.lookup e.sha256 = none) (i : ℕ) :
    r.addEntry i e = .ok (r.insert e he) := by
  have hlookup : ¬ (r.byHash.lookup e.sha256.toLower).isSome = true := by
    rw [hlow, hnew]
    exact Bool.false_ne_true
  unfold addEntry
  simp only [dif_pos he.tenant, dif_pos he.lane, dif_pos he.rateLimit, hlow, dif_pos he.sha256]
  exact if_neg hlookup

/-- Valid entries with different hashes make a ring that has them all. -/
theorem foldlM_addEntry : ∀ (es : List KeyEntry) (n : ℕ) (r : Keyring),
    (∀ e ∈ es, e.Valid ∧ e.sha256.toLower = e.sha256) → (es.map (·.sha256)).Nodup →
      (∀ e ∈ es, r.byHash.lookup e.sha256 = none) →
        ∃ ring, (es.zipIdx n).foldlM (fun r e => r.addEntry e.2 e.1) r = .ok ring ∧
          (∀ e ∈ es, ring.byHash.lookup e.sha256 = some e) ∧
          ∀ h, h ∉ es.map (·.sha256) → ring.byHash.lookup h = r.byHash.lookup h
  | [], _, r, _, _, _ => ⟨r, rfl, nofun, fun _ _ => rfl⟩
  | e :: es, n, r, hes, hnd, hr => by
    obtain ⟨he, hlow⟩ := hes e (.head _)
    have hne : e.sha256 ∉ es.map (·.sha256) := (List.nodup_cons.1 hnd).1
    have hnd' : (es.map (·.sha256)).Nodup := (List.nodup_cons.1 hnd).2
    have hnew := hr e (.head _)
    have hr' : ∀ e' ∈ es, (r.insert e he).byHash.lookup e'.sha256 = none := by
      intro e' he'
      have hmem : e'.sha256 ∈ es.map (·.sha256) := List.mem_map_of_mem he'
      have hh : e'.sha256 ≠ e.sha256 := fun heq => hne (heq ▸ hmem)
      exact (AList.lookup_insert_ne hh).trans (hr e' (.tail _ he'))
    obtain ⟨ring, hrun, hin, hout⟩ := foldlM_addEntry es (n + 1) (r.insert e he)
      (fun e' he' => hes e' (.tail _ he')) hnd' hr'
    refine ⟨ring, ?_, ?_, ?_⟩
    · rw [List.zipIdx_cons, List.foldlM_cons, addEntry_ok he hlow hnew]
      exact hrun
    · intro e' he'
      rcases List.mem_cons.1 he' with rfl | he'
      · rw [hout _ hne]
        exact AList.lookup_insert _
      · exact hin e' he'
    · intro h hh
      rw [List.map_cons, List.mem_cons, not_or] at hh
      rw [hout h hh.2]
      exact AList.lookup_insert_ne hh.1

theorem fromEntries_ok {es : List KeyEntry}
    (hes : ∀ e ∈ es, e.Valid ∧ e.sha256.toLower = e.sha256) (hnd : (es.map (·.sha256)).Nodup) :
    ∃ ring, fromEntries es = .ok ring ∧ ∀ e ∈ es, ring.byHash.lookup e.sha256 = some e := by
  obtain ⟨ring, hrun, hin, -⟩ := foldlM_addEntry es 0 empty hes hnd (fun _ _ => rfl)
  exact ⟨ring, hrun, hin⟩

end Keyring

/-! ## One match -/

/-- The one entry that a predicate holds of, with its index. -/
theorem filter_zipIdx_eq_singleton {α : Type} {p : α → Bool} {xs : List α} {x : α} {i : ℕ} :
    xs.zipIdx.filter (fun e => p e.1) = [(x, i)] ↔
      xs[i]? = some x ∧ p x = true ∧ ∀ j y, xs[j]? = some y → p y = true → j = i := by
  have hmem : ∀ (y : α) (j : ℕ),
      (y, j) ∈ xs.zipIdx.filter (fun e => p e.1) ↔ xs[j]? = some y ∧ p y = true := by
    intro y j
    rw [List.mem_filter, List.mem_zipIdx_iff_getElem?]
  constructor
  · intro h
    obtain ⟨hx, hp⟩ := (hmem x i).1 (h ▸ List.mem_singleton_self _)
    refine ⟨hx, hp, ?_⟩
    intro j y hy hpy
    have hj := (hmem y j).2 ⟨hy, hpy⟩
    rw [h, List.mem_singleton] at hj
    exact (Prod.mk.inj hj).2
  · intro ⟨hx, hp, huniq⟩
    have hnd : xs.zipIdx.Nodup := by
      apply List.Nodup.of_map Prod.snd
      rw [List.zipIdx_map_snd]
      exact List.nodup_range'
    apply List.perm_singleton.1
    rw [List.perm_ext_iff_of_nodup (hnd.filter _) (List.nodup_singleton _)]
    intro ⟨y, j⟩
    rw [hmem, List.mem_singleton, Prod.mk.injEq]
    constructor
    · intro ⟨hy, hpy⟩
      have hj := huniq j y hy hpy
      subst hj
      exact ⟨Option.some.inj (hy.symm.trans hx), rfl⟩
    · intro ⟨hy, hj⟩
      rw [hy, hj]
      exact ⟨hx, hp⟩

/-! ## What the two calls do -/

section
variable {toml : Toml} {sha256 : String → Vector UInt8 32}

theorem genKey_cases {file : Option String} {k : NewKey} {key text : String}
    (h : genKey toml sha256 file k = .ok (key, text)) :
    validTenant k.tenant = true ∧ k.rateLimit ≠ some 0 ∧ key = k.key ∧
      ((file = none ∧ text = keysHeader ++ k.fragment (sha256Hex sha256 k.key)) ∨
        ∃ old keys, file = some old ∧ toml.fromStr old = .ok keys ∧
          (∀ e ∈ keys, e.keyPrefix ≠ k.keyPrefix) ∧
          text = old ++ k.fragment (sha256Hex sha256 k.key)) := by
  unfold genKey at h
  split at h
  · cases h
  · rename_i ht
    split at h
    · cases h
    · rename_i hr
      have ht' : validTenant k.tenant = true := by simpa using ht
      split at h
      · obtain ⟨rfl, rfl⟩ := Prod.mk.inj (Except.ok.inj h)
        exact ⟨ht', hr, rfl, .inl ⟨rfl, rfl⟩⟩
      · rename_i old
        cases hkeys : toml.fromStr old with
        | error e => simp [hkeys, bind, Except.bind] at h
        | ok keys =>
          cases hring : Keyring.fromEntries (keys.map (·.toKeyEntry)) with
          | error e => simp [hkeys, hring, bind, Except.bind] at h
          | ok ring =>
            simp only [hkeys, hring, bind, Except.bind] at h
            split at h
            · cases h
            · rename_i hany
              obtain ⟨rfl, rfl⟩ := Prod.mk.inj (Except.ok.inj h)
              refine ⟨ht', hr, rfl, .inr ⟨old, keys, rfl, hkeys, ?_, rfl⟩⟩
              simpa using hany

theorem revokeKey_ok_iff {text handle p out : String} {keys : List FileEntry}
    (hkeys : toml.fromStr text = .ok keys) :
    revokeKey toml sha256 text handle = .ok (p, out) ↔
      ∃ e i, keys.zipIdx.filter (·.1.matchesHandle sha256 handle) = [(e, i)] ∧
        e.enabled = true ∧ toml.toStr (keys.modify i FileEntry.disable) = .ok out ∧
        p = e.keyPrefix := by
  unfold revokeKey
  simp only [hkeys, bind, Except.bind]
  split
  · rename_i hf
    simp [hf]
  · rename_i e i hf
    rw [hf]
    cases hen : e.enabled with
    | false => simp [hen]
    | true =>
      cases hout : toml.toStr (keys.modify i FileEntry.disable) with
      | error x => simp [hout]
      | ok o =>
        simp only [Bool.not_true, Bool.false_eq_true, if_false, Except.ok.injEq,
          Prod.mk.injEq, List.cons.injEq, and_true]
        constructor
        · intro ⟨hp, ho⟩
          exact ⟨e, i, ⟨rfl, rfl⟩, hen, by rw [hout, ho], hp.symm⟩
        · intro ⟨e', i', ⟨he, hi⟩, _, ho, hp⟩
          subst he hi
          rw [hout] at ho
          exact ⟨hp.symm, Except.ok.inj ho⟩
  · rename_i hne1 hne2
    constructor
    · nofun
    · intro ⟨e, i, hf, _⟩
      exact absurd hf (hne2 e i)

end

/-! ## The invariant -/

/-- What `gen_key` checked, and the numbers as TOML can hold them. -/
structure NewKey.Ok (k : NewKey) : Prop where
  tenant : validTenant k.tenant = true
  rateLimit : k.rateLimit ≠ some 0
  limit_lt : ∀ n ∈ k.rateLimit, n < 2 ^ 63
  created_lt : k.created < 2 ^ 63

theorem LaneClass.parse_asStr (l : LaneClass) : LaneClass.parse l.asStr = some l := by
  cases l <;> decide

namespace NewKey.Ok

variable {k : NewKey}

theorem tenant_word (hk : k.Ok) {c : Char} (hc : c ∈ k.tenant.toList) :
    (isAsciiAlphanumeric c || c == '_' || c == '-') = true := by
  have ht := hk.tenant
  unfold validTenant at ht
  rw [Bool.and_eq_true, List.all_eq_true] at ht
  exact ht.2 c hc

theorem keyPrefix_word (hk : k.Ok) {c : Char} (hc : c ∈ k.keyPrefix.toList) :
    (isAsciiAlphanumeric c || c == '_' || c == '-') = true := by
  rw [keyPrefix_toList, handle_toList] at hc
  simp only [List.mem_cons, List.mem_append] at hc
  rcases hc with rfl | rfl | rfl | hc | rfl | hc
  · decide
  · decide
  · decide
  · exact hk.tenant_word hc
  · decide
  · exact lowerHex_word (hexDigits_lowerHex (List.mem_of_mem_take hc))

theorem lane_word {l : String} (hl : some l = some k.lane.asStr) {c : Char} (hc : c ∈ l.toList) :
    (isAsciiAlphanumeric c || c == '_' || c == '-') = true := by
  obtain rfl := Option.some.inj hl
  have hall : (k.lane.asStr.toList.all fun c =>
      isAsciiAlphanumeric c || c == '_' || c == '-') = true := by
    cases k.lane <;> decide
  exact List.all_eq_true.1 hall c hc

theorem plain (hk : k.Ok) (sha256 : String → Vector UInt8 32) (s : String) (b : Bool) :
    ({ k.entry (sha256Hex sha256 s) with enabled := b } : FileEntry).Plain where
  keyPrefix _ hc := hk.keyPrefix_word hc
  sha256 _ hc := lowerHex_word (sha256Hex_lowerHex sha256 hc)
  tenant _ hc := hk.tenant_word hc
  lane _ hl _ hc := lane_word hl.symm hc
  rateLimit := hk.limit_lt
  createdUnix n hn := by
    obtain rfl := Option.some.inj hn
    exact hk.created_lt

theorem valid (hk : k.Ok) (sha256 : String → Vector UInt8 32) (s : String) (b : Bool) :
    ({ k.entry (sha256Hex sha256 s) with enabled := b } : FileEntry).toKeyEntry.Valid where
  tenant := hk.tenant
  sha256 := sha256Hex_valid sha256 s
  lane l hl := by
    obtain rfl := Option.some.inj hl
    rw [LaneClass.parse_asStr]
    rfl
  rateLimit := hk.rateLimit

end NewKey.Ok

namespace KeyAdmin

variable {toml : Toml} {sha256 : String → Vector UInt8 32}

/-- **The invariant**: the file has the entries of the keys handed out, in order. -/
structure Kept (toml : Toml) (sha256 : String → Vector UInt8 32) (s : KeyAdmin) : Prop where
  file : (s.file = none ∧ s.issued = []) ∨
    ∃ text, s.file = some text ∧ Managed toml text (s.issued.map (·.entry sha256))
  distinct : (s.issued.map (·.keyPrefix)).Nodup
  ok : ∀ k ∈ s.issued, k.Ok

theorem Kept.keyPrefix_inj {s : KeyAdmin} (h : Kept toml sha256 s) {i j : ℕ} {a b : IssuedKey}
    (ha : s.issued[i]? = some a) (hb : s.issued[j]? = some b) (hab : a.keyPrefix = b.keyPrefix) :
    i = j := by
  have hi : i < (s.issued.map (·.keyPrefix)).length := by
    rw [List.length_map]
    exact (List.getElem?_eq_some_iff.1 ha).1
  refine (List.getElem?_inj hi h.distinct).1 ?_
  rw [List.getElem?_map, List.getElem?_map, ha, hb]
  exact congrArg some hab

/-- Marking a key as revoked disables its entry alone. -/
theorem Kept.map_markRevoked {s : KeyAdmin} (h : Kept toml sha256 s) {i : ℕ} {k : IssuedKey}
    (hk : s.issued[i]? = some k) :
    (markRevoked s.issued k.keyPrefix).map (·.entry sha256) =
      (s.issued.map (·.entry sha256)).modify i FileEntry.disable := by
  apply List.ext_getElem?
  intro j
  rw [markRevoked, List.map_map, List.getElem?_map, List.getElem?_modify, List.getElem?_map]
  cases hj : s.issued[j]? with
  | none => rfl
  | some k' =>
    simp only [Option.map_some, Function.comp_apply, Option.map_eq_map, Option.some.injEq]
    by_cases hij : i = j
    · subst hij
      obtain rfl := Option.some.inj (hk.symm.trans hj)
      rw [if_pos rfl, if_pos rfl]
      rfl
    · have hne : k'.keyPrefix ≠ k.keyPrefix := fun heq => hij (h.keyPrefix_inj hk hj heq.symm)
      rw [if_neg hne, if_neg hij]

theorem entries_plain {issued : List IssuedKey} (hok : ∀ k ∈ issued, k.Ok) :
    ∀ e ∈ issued.map (·.entry sha256), e.Plain := by
  intro e he
  obtain ⟨k, hk, rfl⟩ := List.mem_map.1 he
  exact (hok k hk).plain sha256 _ _

theorem markRevoked_ok {issued : List IssuedKey} (hok : ∀ k ∈ issued, k.Ok) (p : String) :
    ∀ k ∈ markRevoked issued p, k.Ok := by
  intro k hk
  obtain ⟨k', hk', rfl⟩ := List.mem_map.1 hk
  split
  · exact hok k' hk'
  · exact hok k' hk'

theorem map_keyPrefix_markRevoked (issued : List IssuedKey) (p : String) :
    (markRevoked issued p).map (·.keyPrefix) = issued.map (·.keyPrefix) := by
  rw [markRevoked, List.map_map]
  apply List.map_congr_left
  intro k _
  simp only [Function.comp_apply]
  split <;> rfl

theorem Kept.step_genKey (htoml : toml.Lawful) {s : KeyAdmin} (h : Kept toml sha256 s) {k : NewKey}
    (hlim : ∀ n ∈ k.rateLimit, n < 2 ^ 63) (hcre : k.created < 2 ^ 63) :
    Kept toml sha256 (s.step toml sha256 (.genKey k)) := by
  simp only [step]
  split
  · rename_i key text hgen
    obtain ⟨ht, hr, -, hfile⟩ := genKey_cases hgen
    have hk : k.Ok := ⟨ht, hr, hlim, hcre⟩
    have hok : ∀ k' ∈ s.issued ++ [{ k with revoked := false }], k'.Ok := by
      intro k' hk'
      rcases List.mem_append.1 hk' with hk' | hk'
      · exact h.ok k' hk'
      · rw [List.mem_singleton.1 hk']
        exact hk
    have hplain : (k.entry (sha256Hex sha256 k.key)).Plain := hk.plain sha256 k.key true
    rcases hfile with ⟨hnone, rfl⟩ | ⟨old, keys, hsome, hkeys, hfresh, rfl⟩
    · rcases h.file with ⟨-, hiss⟩ | ⟨text, hsome, -⟩
      · refine ⟨.inr ⟨_, rfl, ?_⟩, ?_, hok⟩
        · rw [hiss]
          exact Managed.append k _ .header hplain
        · rw [hiss]
          exact List.nodup_singleton _
      · rw [hnone] at hsome
        cases hsome
    · rcases h.file with ⟨hnone, -⟩ | ⟨text, hsome', hman⟩
      · rw [hnone] at hsome
        cases hsome
      · obtain rfl := Option.some.inj (hsome.symm.trans hsome')
        obtain rfl := Except.ok.inj (hkeys.symm.trans (htoml.fromStr _ _ hman))
        refine ⟨.inr ⟨_, rfl, ?_⟩, ?_, hok⟩
        · rw [List.map_append]
          exact Managed.append k _ hman hplain
        · rw [List.map_append]
          refine h.distinct.append (List.nodup_singleton _) ?_
          intro p hp hp'
          obtain ⟨k', hk', rfl⟩ := List.mem_map.1 hp
          rw [List.map_singleton, List.mem_singleton] at hp'
          exact hfresh (k'.entry sha256) (List.mem_map_of_mem hk') hp'
  · exact h

theorem Kept.step_revokeKey (htoml : toml.Lawful) {s : KeyAdmin} (h : Kept toml sha256 s)
    (handle : String) : Kept toml sha256 (s.step toml sha256 (.revokeKey handle)) := by
  unfold step
  rcases h.file with ⟨hnone, -⟩ | ⟨text, hsome, hman⟩
  · simp only [hnone]
    exact h
  · simp only [hsome]
    split
    · rename_i p out hrev
      obtain ⟨e, i, hfilter, -, hout, rfl⟩ := (revokeKey_ok_iff (htoml.fromStr _ _ hman)).1 hrev
      obtain ⟨he, -, -⟩ :=
        (filter_zipIdx_eq_singleton (p := fun e : FileEntry => e.matchesHandle sha256 handle)).1 hfilter
      rw [List.getElem?_map, Option.map_eq_some_iff] at he
      obtain ⟨k, hk, rfl⟩ := he
      have hmap := h.map_markRevoked hk
      have hok := markRevoked_ok h.ok k.keyPrefix
      refine ⟨.inr ⟨out, rfl, ?_⟩, ?_, hok⟩
      · refine Managed.rewrite ?_ (entries_plain hok) (hmap ▸ hout)
        change (markRevoked s.issued k.keyPrefix).map (·.entry sha256) ≠ []
        intro hnil
        rw [hmap, List.modify_eq_nil_iff, List.map_eq_nil_iff] at hnil
        rw [hnil] at hk
        cases hk
      · change ((markRevoked s.issued k.keyPrefix).map (·.keyPrefix)).Nodup
        rw [map_keyPrefix_markRevoked]
        exact h.distinct
    · exact h

/-! ## Any sequence of calls -/

theorem run_append (toml : Toml) (sha256 : String → Vector UInt8 32) (ops : List Op) (op : Op) :
    run toml sha256 (ops ++ [op]) = (run toml sha256 ops).step toml sha256 op := by
  rw [run, run, List.foldl_append]
  rfl

theorem run_kept (htoml : toml.Lawful) {ops : List Op} (hnum : NumbersFit ops) :
    Kept toml sha256 (run toml sha256 ops) := by
  induction ops using List.reverseRecOn with
  | nil => exact ⟨.inl ⟨rfl, rfl⟩, List.nodup_nil, nofun⟩
  | append_singleton ops op ih =>
    have hprev := ih fun k hk => hnum k (List.mem_append_left _ hk)
    rw [run_append]
    cases op with
    | genKey k =>
      obtain ⟨hcre, hlim⟩ := hnum k (List.mem_append_right _ (List.mem_singleton_self _))
      exact hprev.step_genKey htoml hlim hcre
    | revokeKey handle => exact hprev.step_revokeKey htoml handle

theorem step_issued {s : KeyAdmin} {op : Op} {k : IssuedKey}
    (hk : k ∈ (s.step toml sha256 op).issued) :
    op = .genKey k.toNewKey ∨ ∃ k' ∈ s.issued, k'.toNewKey = k.toNewKey := by
  cases op with
  | genKey k₀ =>
    simp only [step] at hk
    split at hk
    · rcases List.mem_append.1 hk with hk | hk
      · exact .inr ⟨k, hk, rfl⟩
      · rw [List.mem_singleton.1 hk]
        exact .inl rfl
    · exact .inr ⟨k, hk, rfl⟩
  | revokeKey handle =>
    simp only [step] at hk
    split at hk
    · exact .inr ⟨k, hk, rfl⟩
    · split at hk
      · obtain ⟨k', hk', rfl⟩ := List.mem_map.1 hk
        refine .inr ⟨k', hk', ?_⟩
        split <;> rfl
      · exact .inr ⟨k, hk, rfl⟩

/-- Only what `gen_key` was called for is handed out. -/
theorem run_issued {ops : List Op} {k : IssuedKey} (hk : k ∈ (run toml sha256 ops).issued) :
    .genKey k.toNewKey ∈ ops := by
  induction ops using List.reverseRecOn generalizing k with
  | nil => cases hk
  | append_singleton ops op ih =>
    rw [run_append] at hk
    rcases step_issued hk with rfl | ⟨k', hk', heq⟩
    · exact List.mem_append_right _ (List.mem_singleton_self _)
    · exact List.mem_append_left _ (heq ▸ ih hk')

theorem key_mem_hashed {ops : List Op} {k : NewKey} (hk : .genKey k ∈ ops) : k.key ∈ hashed ops :=
  List.mem_flatMap.2 ⟨_, hk, List.mem_cons_self⟩

theorem keyPrefix_mem_hashed {ops : List Op} {k : NewKey} (hk : .genKey k ∈ ops) :
    k.keyPrefix ∈ hashed ops :=
  List.mem_flatMap.2 ⟨_, hk, List.mem_cons_of_mem _ (List.mem_singleton_self _)⟩

/-! ## Authentication -/

/-- **The file parses to a ring that knows every key**, as disabled once it is revoked. -/
theorem Kept.lookup_issued {s : KeyAdmin} (h : Kept toml sha256 s)
    (hsha : ∀ a ∈ s.issued, ∀ b ∈ s.issued, sha256 a.key = sha256 b.key → a.key = b.key) :
    ∃ ring, Keyring.fromEntries ((s.issued.map (·.entry sha256)).map (·.toKeyEntry)) = .ok ring ∧
      ∀ k ∈ s.issued, ring.lookup (sha256Hex sha256 k.key) =
        if k.revoked then .error .disabled else .ok ⟨k.tenant, k.lane, k.rateLimit⟩ := by
  rw [List.map_map]
  have hnd : ((s.issued.map (FileEntry.toKeyEntry ∘ (·.entry sha256))).map (·.sha256)).Nodup := by
    rw [List.map_map]
    refine List.Nodup.map_on ?_ h.distinct.of_map
    intro a ha b hb hab
    have hkey := hsha a ha b hb (sha256Hex_inj sha256 hab)
    exact List.inj_on_of_nodup_map h.distinct ha hb (NewKey.keyPrefix_of_key hkey)
  have hvalid : ∀ e ∈ s.issued.map (FileEntry.toKeyEntry ∘ (·.entry sha256)),
      e.Valid ∧ e.sha256.toLower = e.sha256 := by
    intro e he
    obtain ⟨k, hk, rfl⟩ := List.mem_map.1 he
    exact ⟨(h.ok k hk).valid sha256 _ _, sha256Hex_toLower sha256 _⟩
  obtain ⟨ring, hring, hlookup⟩ := Keyring.fromEntries_ok hvalid hnd
  refine ⟨ring, hring, ?_⟩
  intro k hk
  have hk' := hlookup _ (List.mem_map_of_mem hk)
  change ring.byHash.lookup (sha256Hex sha256 k.key) = some (k.entry sha256).toKeyEntry at hk'
  have hlane : (LaneClass.parse k.lane.asStr).getD .interactive = k.lane := by
    rw [LaneClass.parse_asStr]
    rfl
  unfold Keyring.lookup
  rw [hk']
  change (if !k.revoked then
    Except.ok (TenantCtx.mk k.tenant ((LaneClass.parse k.lane.asStr).getD .interactive) k.rateLimit)
    else .error AuthDenied.disabled) = _
  rw [hlane]
  cases k.revoked <;> rfl

/-! ## Revocation by the printed prefix -/

/-- **A key's printed prefix revokes that key alone**, exactly when no tenant begins with it. -/
theorem Kept.revoke_iff (htoml : toml.Lawful) {s : KeyAdmin} (h : Kept toml sha256 s)
    {text : String} (htext : toml.fromStr text = .ok (s.issued.map (·.entry sha256))) {i : ℕ}
    {k : IssuedKey} (hk : s.issued[i]? = some k) (hrev : k.revoked = false)
    (hsha : ∀ a ∈ s.issued, sha256 a.key = sha256 k.keyPrefix → a.key = k.keyPrefix) :
    (∃ out, revokeKey toml sha256 text k.keyPrefix = .ok (k.keyPrefix, out) ∧
        toml.fromStr out = .ok ((s.issued.map (·.entry sha256)).modify i FileEntry.disable)) ↔
      ∀ j ∈ s.issued, ¬ k.tenant.toList ++ '-' :: k.handle.toList <+: j.tenant.toList := by
  have hmatch : ∀ j ∈ s.issued,
      (j.entry sha256).matchesHandle sha256 k.keyPrefix = true ↔
        k.keyPrefix.toList <+: j.keyPrefix.toList := by
    intro j hj
    have hne : j.keyPrefix.toList ≠ [] := by
      rw [NewKey.keyPrefix_toList]
      exact List.cons_ne_nil _ _
    have hnohash : sha256Hex sha256 j.key ≠ sha256Hex sha256 k.keyPrefix := by
      intro heq
      have hkey := hsha j hj (sha256Hex_inj sha256 heq)
      exact NewKey.keyPrefix_ne_key _ _ hkey.symm
    change (!j.keyPrefix.toList.isEmpty && k.keyPrefix.toList.isPrefixOf j.keyPrefix.toList ||
      sha256Hex sha256 j.key == sha256Hex sha256 k.keyPrefix) = true ↔ _
    simp [hne, hnohash]
  have hself : (s.issued.map (·.entry sha256))[i]? = some (k.entry sha256) := by
    rw [List.getElem?_map, hk]
    rfl
  have hkmem : k ∈ s.issued := List.mem_of_getElem? hk
  constructor
  · intro ⟨out, hout, _⟩ j hj hpre
    obtain ⟨e, i', hfilter, -, -, -⟩ := (revokeKey_ok_iff htext).1 hout
    obtain ⟨-, -, huniq⟩ := (filter_zipIdx_eq_singleton
      (p := fun e : FileEntry => e.matchesHandle sha256 k.keyPrefix)).1 hfilter
    have hii' := huniq i _ hself ((hmatch k hkmem).2 (List.prefix_refl _))
    obtain ⟨n, hn⟩ := List.mem_iff_getElem?.1 hj
    have hn' : (s.issued.map (·.entry sha256))[n]? = some (j.entry sha256) := by
      rw [List.getElem?_map, hn]
      rfl
    have hni' := huniq n _ hn'
      ((hmatch j hj).2 ((NewKey.keyPrefix_isPrefix_iff _ _).2 (.inr hpre)))
    rw [hni', ← hii', hk] at hn
    obtain rfl := Option.some.inj hn
    have hlen := hpre.length_le
    simp only [List.length_append, List.length_cons] at hlen
    omega
  · intro hfree
    have hfilter := (filter_zipIdx_eq_singleton
      (p := fun e : FileEntry => e.matchesHandle sha256 k.keyPrefix)).2
      ⟨hself, (hmatch k hkmem).2 (List.prefix_refl _), by
        intro n e he hp
        rw [List.getElem?_map, Option.map_eq_some_iff] at he
        obtain ⟨j, hj, rfl⟩ := he
        have hjmem : j ∈ s.issued := List.mem_of_getElem? hj
        rcases (NewKey.keyPrefix_isPrefix_iff _ _).1 ((hmatch j hjmem).1 hp) with heq | hpre
        · exact h.keyPrefix_inj hj hk heq.symm
        · exact absurd hpre (hfree j hjmem)⟩
    have hmap := h.map_markRevoked hk
    have hplain := @entries_plain sha256 _ (markRevoked_ok h.ok k.keyPrefix)
    rw [hmap] at hplain
    obtain ⟨out, hout⟩ := htoml.toStr _ hplain
    have hen : (k.entry sha256).enabled = true := by
      change (!k.revoked) = true
      rw [hrev]
      rfl
    refine ⟨out, (revokeKey_ok_iff htext).2 ⟨_, _, hfilter, hen, hout, rfl⟩, ?_⟩
    refine htoml.fromStr _ _ (Managed.rewrite ?_ hplain hout)
    intro hnil
    rw [List.modify_eq_nil_iff, List.map_eq_nil_iff] at hnil
    rw [hnil] at hk
    cases hk

/-- A valid request whose printed prefix is not taken gets its key. -/
theorem Kept.issued_genKey (htoml : toml.Lawful) {s : KeyAdmin} (h : Kept toml sha256 s)
    (hsha : ∀ a ∈ s.issued, ∀ b ∈ s.issued, sha256 a.key = sha256 b.key → a.key = b.key)
    {k : NewKey} (ht : validTenant k.tenant = true) (hr : k.rateLimit ≠ some 0)
    (hfresh : ∀ k' ∈ s.issued, k'.keyPrefix ≠ k.keyPrefix) :
    (s.step toml sha256 (.genKey k)).issued = s.issued ++ [{ k with revoked := false }] := by
  have hgen : ∃ text, genKey toml sha256 s.file k = .ok (k.key, text) := by
    unfold genKey
    rw [if_neg (by simp [ht]), if_neg hr]
    rcases h.file with ⟨hnone, -⟩ | ⟨text, hsome, hman⟩
    · rw [hnone]
      exact ⟨_, rfl⟩
    · obtain ⟨ring, hring, -⟩ := h.lookup_issued hsha
      have hany : ((s.issued.map (·.entry sha256)).any (·.keyPrefix == k.keyPrefix)) = false := by
        rw [List.any_eq_false]
        intro e he
        obtain ⟨k', hk', rfl⟩ := List.mem_map.1 he
        exact fun heq => hfresh k' hk' (beq_iff_eq.1 heq)
      rw [hsome]
      simp only [htoml.fromStr _ _ hman, hring, hany, bind, Except.bind]
      exact ⟨_, rfl⟩
  obtain ⟨text, htext⟩ := hgen
  simp only [step, htext]

/-! ## The lifecycle -/

theorem run_sha {ops : List Op} (hsha : CollisionFree sha256 ops) :
    ∀ a ∈ (run toml sha256 ops).issued, ∀ b ∈ (run toml sha256 ops).issued,
      sha256 a.key = sha256 b.key → a.key = b.key := by
  intro a ha b hb
  exact hsha _ (key_mem_hashed (run_issued ha)) _ (key_mem_hashed (run_issued hb))

/-- What a revocable key needs: no other prefix extends its own. -/
theorem run_revocable_iff (htoml : toml.Lawful) {ops : List Op} (hnum : NumbersFit ops)
    (hsha : CollisionFree sha256 ops) {i : ℕ} {k : IssuedKey}
    (hk : (run toml sha256 ops).issued[i]? = some k) (hrev : k.revoked = false) :
    Revocable toml sha256 (run toml sha256 ops) i k ↔
      ∀ j ∈ (run toml sha256 ops).issued,
        ¬ k.tenant.toList ++ '-' :: k.handle.toList <+: j.tenant.toList := by
  have hkept : Kept toml sha256 (run toml sha256 ops) := run_kept htoml hnum
  have hkmem := List.mem_of_getElem? hk
  rcases hkept.file with ⟨-, hnil⟩ | ⟨text, hsome, hman⟩
  · rw [hnil] at hk
    cases hk
  · have htext := htoml.fromStr _ _ hman
    have hself : ((run toml sha256 ops).issued.map (·.entry sha256))[i]? =
        some (k.entry sha256) := by
      rw [List.getElem?_map, hk]
      rfl
    rw [← hkept.revoke_iff htoml htext hk hrev fun a ha =>
      hsha _ (key_mem_hashed (run_issued ha)) _ (keyPrefix_mem_hashed (run_issued hkmem))]
    constructor
    · intro ⟨text', keys, out, hsome', hkeys, _, hout⟩
      obtain rfl := Option.some.inj (hsome'.symm.trans hsome)
      obtain rfl := Except.ok.inj (hkeys.symm.trans htext)
      exact ⟨out, hout⟩
    · intro ⟨out, hout⟩
      exact ⟨text, _, out, hsome, htext, hself, hout⟩

/-- **The lifecycle of a key.** After any calls the file parses and every key authenticates as its
own until it is revoked; its printed prefix revokes it alone exactly when no tenant of the file
begins with what follows `mk-` in it. -/
theorem key_lifecycle (htoml : toml.Lawful) {ops : List Op} (hnum : NumbersFit ops)
    (hsha : CollisionFree sha256 ops) :
    Authenticates toml sha256 (run toml sha256 ops) ∧
      ∀ i k, (run toml sha256 ops).issued[i]? = some k → k.revoked = false →
        (Revocable toml sha256 (run toml sha256 ops) i k ↔
          ∀ j ∈ (run toml sha256 ops).issued,
            ¬ k.tenant.toList ++ '-' :: k.handle.toList <+: j.tenant.toList) := by
  have hkept : Kept toml sha256 (run toml sha256 ops) := run_kept htoml hnum
  refine ⟨?_, fun i k hk hrev => run_revocable_iff htoml hnum hsha hk hrev⟩
  intro text htext
  rcases hkept.file with ⟨hnone, -⟩ | ⟨text', hsome, hman⟩
  · rw [hnone] at htext
    cases htext
  · obtain rfl := Option.some.inj (htext.symm.trans hsome)
    obtain ⟨ring, hring, hlookup⟩ := hkept.lookup_issued (run_sha hsha)
    exact ⟨_, ring, htoml.fromStr _ _ hman, hring, hlookup⟩

/-! ## Two keys, one inside the other -/

def acmeKey : NewKey where
  tenant := "acme"
  lane := .interactive
  rateLimit := none
  buf := #v[0, 1, 2, 3, 4, 5, 6, 7, 8, 9, 10, 11, 12, 13, 14, 15, 16, 17, 18, 19, 20, 21, 22, 23]
  created := 1753000000

def blueKey : NewKey where
  tenant := "blue"
  lane := .batch
  rateLimit := some 4
  buf := #v[24, 25, 26, 27, 28, 29, 30, 31, 32, 33, 34, 35, 36, 37, 38, 39, 40, 41, 42, 43, 44, 45,
    46, 47]
  created := 1753000001

/-- The tenant begins with the first key's `acme-000102030405`. -/
def nestedKey : NewKey where
  tenant := "acme-000102030405"
  lane := .interactive
  rateLimit := none
  buf := #v[48, 49, 50, 51, 52, 53, 54, 55, 56, 57, 58, 59, 60, 61, 62, 63, 64, 65, 66, 67, 68, 69,
    70, 71]
  created := 1753000002

/-- The digests of the three keys and of their printed prefixes. -/
def sampleDigests : List (String × Vector UInt8 32) :=
  [(acmeKey.key, #v[153, 146, 221, 64, 164, 108, 114, 252, 153, 27, 53, 2, 144, 103, 241, 110, 216,
      210, 97, 165, 118, 218, 147, 177, 144, 115, 216, 41, 120, 52, 214, 191]),
    (acmeKey.keyPrefix, #v[112, 239, 220, 251, 94, 29, 91, 180, 71, 56, 143, 201, 77, 199, 216, 246,
      229, 139, 67, 94, 67, 252, 179, 124, 125, 241, 21, 46, 39, 44, 126, 236]),
    (blueKey.key, #v[68, 209, 188, 95, 187, 116, 246, 96, 140, 91, 215, 217, 155, 220, 31, 125, 228,
      247, 37, 204, 62, 44, 109, 197, 199, 202, 86, 175, 6, 23, 71, 176]),
    (blueKey.keyPrefix, #v[253, 118, 54, 140, 179, 28, 47, 161, 163, 40, 183, 142, 199, 35, 21, 189,
      153, 45, 99, 56, 200, 23, 144, 77, 84, 74, 121, 178, 99, 202, 135, 253]),
    (nestedKey.key, #v[8, 168, 99, 214, 51, 242, 179, 185, 124, 39, 175, 202, 54, 231, 55, 131, 28,
      190, 163, 226, 254, 147, 236, 249, 12, 250, 253, 99, 47, 36, 122, 219]),
    (nestedKey.keyPrefix, #v[39, 6, 245, 17, 27, 214, 31, 194, 25, 233, 109, 215, 152, 255, 107, 172,
      47, 121, 222, 103, 139, 33, 99, 175, 62, 139, 95, 67, 143, 87, 152, 135])]

def sampleSha (s : String) : Vector UInt8 32 :=
  (sampleDigests.lookup s).getD
    #v[227, 176, 196, 66, 152, 252, 28, 20, 154, 251, 244, 200, 153, 111, 185, 36, 39, 174, 65, 228,
      100, 155, 147, 76, 164, 149, 153, 27, 120, 82, 184, 85]

def sampleOps : List Op := [.genKey acmeKey, .genKey blueKey, .revokeKey acmeKey.keyPrefix]

def nestedOps : List Op := [.genKey acmeKey, .genKey nestedKey]

theorem sampleOps_fit : NumbersFit sampleOps := by
  intro k hk
  simp only [sampleOps, List.mem_cons, Op.genKey.injEq, reduceCtorEq, List.not_mem_nil, or_false]
    at hk
  rcases hk with rfl | rfl
  · exact ⟨by decide, nofun⟩
  · refine ⟨by decide, ?_⟩
    intro n hn
    obtain rfl := Option.some.inj hn
    decide

theorem sampleOps_collisionFree : CollisionFree sampleSha sampleOps := by
  unfold CollisionFree
  decide +kernel

theorem nestedOps_fit : NumbersFit nestedOps := by
  intro k hk
  simp only [nestedOps, List.mem_cons, Op.genKey.injEq, List.not_mem_nil, or_false] at hk
  rcases hk with rfl | rfl
  · exact ⟨by decide, nofun⟩
  · exact ⟨by decide, nofun⟩

theorem nestedOps_collisionFree : CollisionFree sampleSha nestedOps := by
  unfold CollisionFree
  decide +kernel

theorem key_lifecycle_sample :
    Authenticates flatToml sampleSha (run flatToml sampleSha sampleOps) ∧
      ∀ i k, (run flatToml sampleSha sampleOps).issued[i]? = some k → k.revoked = false →
        (Revocable flatToml sampleSha (run flatToml sampleSha sampleOps) i k ↔
          ∀ j ∈ (run flatToml sampleSha sampleOps).issued,
            ¬ k.tenant.toList ++ '-' :: k.handle.toList <+: j.tenant.toList) :=
  key_lifecycle FlatToml.flatToml_lawful sampleOps_fit sampleOps_collisionFree

theorem run_nestedOps :
    (run flatToml sampleSha nestedOps).issued = [⟨acmeKey, false⟩, ⟨nestedKey, false⟩] := by
  have hops : nestedOps = [.genKey acmeKey] ++ [.genKey nestedKey] := rfl
  have hfit : NumbersFit [.genKey acmeKey] := by
    intro k hk
    apply nestedOps_fit k
    rw [hops]
    exact List.mem_append_left _ hk
  have h0 : Kept flatToml sampleSha (run flatToml sampleSha []) :=
    run_kept FlatToml.flatToml_lawful nofun
  have h1 : Kept flatToml sampleSha (run flatToml sampleSha [.genKey acmeKey]) :=
    run_kept FlatToml.flatToml_lawful hfit
  have hfirst : (run flatToml sampleSha [.genKey acmeKey]).issued = [⟨acmeKey, false⟩] :=
    h0.issued_genKey (k := acmeKey) FlatToml.flatToml_lawful nofun (by decide) (by decide) nofun
  have hnext := h1.issued_genKey (k := nestedKey) FlatToml.flatToml_lawful
    (by
      rw [hfirst]
      intro a ha b hb _
      rw [List.mem_singleton.1 ha, List.mem_singleton.1 hb])
    (by decide) (by decide)
    (by
      rw [hfirst]
      intro k hk
      rw [List.mem_singleton.1 hk]
      decide +kernel)
  rw [hops, run_append, hnext, hfirst]
  rfl

/-- The printed prefix of the first key does not revoke it. -/
theorem not_key_lifecycle : ¬ ∀ ops, NumbersFit ops → CollisionFree sampleSha ops →
    ∀ i k, (run flatToml sampleSha ops).issued[i]? = some k → k.revoked = false →
      Revocable flatToml sampleSha (run flatToml sampleSha ops) i k := by
  intro h
  have hk : (run flatToml sampleSha nestedOps).issued[0]? =
      some ⟨acmeKey, false⟩ := by
    rw [run_nestedOps]
    rfl
  have hrev := h nestedOps nestedOps_fit nestedOps_collisionFree 0 _ hk rfl
  have hfree := (run_revocable_iff FlatToml.flatToml_lawful nestedOps_fit nestedOps_collisionFree hk
    rfl).1 hrev ⟨nestedKey, false⟩ (by simp [run_nestedOps])
  revert hfree
  decide +kernel

end KeyAdmin

end Memra
