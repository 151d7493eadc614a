import Memra.Gguf.Format

/-!
# The reader reads the format

Each parser of the reader recognises its piece of the format (`recognizes_valueP` by induction on the
nesting of arrays, `recognizes_kvP`, `recognizes_tensorP`, `recognizes_bodyP`), so that `parse_one`
returns exactly on the files of the format (`parseOne_ok_iff`), is an error exactly on those of
another magic or version (`parseOne_err_iff`), and panics on the rest.
-/

namespace Memra

open Lib

/-! ## Values -/

theorem recognizes_stringP :
    Recognizes stringP fun pre s => ∃ raw, raw.length < 256 ^ 8 ∧ pre = stringBytes raw ∧
      s = fromUtf8Lossy raw := by
  apply ((recognizes_le 8).bind fun len =>
    (recognizes_takeN len).bind fun s => Recognizes.pure (fromUtf8Lossy s)).congr
  intro pre s
  constructor
  · intro ⟨x, y, len, hpre, ⟨hx, hlen⟩, y1, y2, raw, hy, ⟨hraw, hrawlen⟩, hnil, hs⟩
    subst hpre hx hy hraw hnil hs hrawlen
    exact ⟨y1, hlen, by rw [List.append_nil, stringBytes], rfl⟩
  · intro ⟨raw, hlen, hpre, hs⟩
    subst hpre hs
    exact ⟨_, _, raw.length, rfl, ⟨rfl, hlen⟩, raw, [], raw, (List.append_nil _).symm, ⟨rfl, rfl⟩,
      rfl, rfl⟩

theorem scalar_width {typeId width : ℕ} {make : ℕ → MetaValue}
    (h : scalar typeId = some (width, make)) : 0 < width ∧ typeId ≠ 8 ∧ typeId ≠ 9 := by
  unfold scalar at h
  split at h <;> cases h <;> omega

theorem values_append {p : Platform} {depth typeId : ℕ} {bs bs' : List UInt8}
    {vs vs' : List MetaValue} (h : Values p depth typeId bs vs) (h' : Values p depth typeId bs' vs') :
    Values p depth typeId (bs ++ bs') (vs ++ vs') := by
  induction h with
  | nil => exact h'
  | scalar htype hx _ ih =>
    rw [List.append_assoc, List.cons_append]
    exact .scalar htype hx (ih h')
  | string hs _ ih =>
    rw [List.append_assoc, List.cons_append]
    exact .string hs (ih h')
  | array htype hlen hcap helems _ _ ih =>
    rw [List.append_assoc, List.cons_append]
    exact .array htype hlen hcap helems (ih h')

/-- Values in a row are values one by one. -/
theorem spelled_values {p : Platform} {depth typeId : ℕ} {bs : List UInt8} {vs : List MetaValue} :
    Spelled (fun bs v => Values p depth typeId bs [v]) bs vs ↔ Values p depth typeId bs vs := by
  constructor
  · intro h
    induction h with
    | nil => exact .nil _ _
    | cons head _ ih => exact values_append head ih
  · intro h
    induction h with
    | nil => exact .nil
    | scalar htype hx _ ih =>
      apply Spelled.cons _ ih
      rw [← List.append_nil (leBytes _ _)]
      exact .scalar htype hx (.nil _ _)
    | string hs _ ih =>
      apply Spelled.cons _ ih
      rw [← List.append_nil (stringBytes _)]
      exact .string hs (.nil _ _)
    | array htype hlen hcap helems _ _ ih =>
      apply Spelled.cons _ ih
      rw [← List.append_nil (leBytes 4 _ ++ _)]
      exact .array htype hlen hcap helems (.nil _ _)

theorem recognizes_panicP {α : Type} : Recognizes (panicP : Parser UInt8 α) fun _ _ => False :=
  (Recognizes.ofOption none).congr fun _ _ => by simp

/-- One value, by its type. -/
theorem values_singleton {p : Platform} {depth typeId : ℕ} {bs : List UInt8} {v : MetaValue} :
    Values p (depth + 1) typeId bs [v] ↔
      (∃ width make x, scalar typeId = some (width, make) ∧ x < 256 ^ width ∧
        bs = leBytes width x ∧ v = make x) ∨
      (typeId = 8 ∧ ∃ s, s.length < 256 ^ 8 ∧ bs = stringBytes s ∧ v = .string (fromUtf8Lossy s)) ∨
      (typeId = 9 ∧ ∃ elemType es elems, elemType < 256 ^ 4 ∧ elems.length < 256 ^ 8 ∧
        elems.length * p.metaSize < 2 ^ 63 ∧ Values p depth elemType es elems ∧
        bs = leBytes 4 elemType ++ (leBytes 8 elems.length ++ es) ∧ v = .array elems) := by
  constructor
  · intro h
    cases h with
    | scalar htype hx tail =>
      cases tail
      exact .inl ⟨_, _, _, htype, hx, List.append_nil _, rfl⟩
    | string hs tail =>
      cases tail
      exact .inr (.inl ⟨rfl, _, hs, List.append_nil _, rfl⟩)
    | array htype hlen hcap helems tail =>
      cases tail
      exact .inr (.inr ⟨rfl, _, _, _, htype, hlen, hcap, helems, List.append_nil _, rfl⟩)
  · rintro (⟨width, make, x, htype, hx, rfl, rfl⟩ | ⟨rfl, s, hs, rfl, rfl⟩ |
      ⟨rfl, elemType, es, elems, htype, hlen, hcap, helems, rfl, rfl⟩)
    · rw [← List.append_nil (leBytes _ _)]
      exact .scalar htype hx (.nil _ _)
    · rw [← List.append_nil (stringBytes _)]
      exact .string hs (.nil _ _)
    · rw [← List.append_nil (leBytes 4 _ ++ _)]
      exact .array htype hlen hcap helems (.nil _ _)

theorem recognizes_withCapacity (n size : ℕ) :
    Recognizes (StateT.lift (withCapacity n size) : Parser UInt8 Unit) fun pre _ =>
      pre = [] ∧ n * size < 2 ^ 63 := by
  apply (Recognizes.ofOption _).congr
  intro pre u
  simp [withCapacity, ensure]

theorem recognizes_valueP (p : Platform) (fuel typeId : ℕ) :
    Recognizes (valueP p fuel typeId) fun bs v => Values p fuel typeId bs [v] := by
  induction fuel generalizing typeId with
  | zero =>
    apply recognizes_panicP.congr
    intro bs v
    constructor
    · exact False.elim
    · intro h
      cases h
  | succ fuel ih =>
    unfold valueP
    cases hscalar : scalar typeId with
    | some wm =>
      obtain ⟨width, make⟩ := wm
      obtain ⟨-, h8, h9⟩ := scalar_width hscalar
      apply ((recognizes_le width).map make).congr
      intro bs v
      rw [values_singleton]
      constructor
      · intro ⟨x, ⟨hbs, hx⟩, hv⟩
        exact .inl ⟨width, make, x, hscalar, hx, hbs, hv⟩
      · rintro (⟨width', make', x, htype, hx, hbs, hv⟩ | ⟨h, -⟩ | ⟨h, -⟩)
        · rw [hscalar] at htype
          cases htype
          exact ⟨x, ⟨hbs, hx⟩, hv⟩
        · exact absurd h h8
        · exact absurd h h9
    | none =>
      by_cases h8 : typeId = 8
      · rw [if_pos h8]
        subst h8
        apply (recognizes_stringP.map MetaValue.string).congr
        intro bs v
        rw [values_singleton]
        constructor
        · intro ⟨s, ⟨raw, hraw, hbs, hs⟩, hv⟩
          exact .inr (.inl ⟨rfl, raw, hraw, hbs, hs ▸ hv⟩)
        · intro h
          rcases h with ⟨_, _, _, htype, -⟩ | ⟨-, raw, hraw, hbs, hv⟩ | ⟨h, -⟩
          · cases htype
          · exact ⟨_, ⟨raw, hraw, hbs, rfl⟩, hv⟩
          · cases h
      · rw [if_neg h8]
        by_cases h9 : typeId = 9
        · rw [if_pos h9]
          subst h9
          apply ((recognizes_le 4).bind fun elemType => (recognizes_le 8).bind fun n =>
            (recognizes_withCapacity n p.metaSize).bind fun _ =>
              ((ih elemType).repeatN n).bind fun vs => Recognizes.pure (MetaValue.array vs)).congr
          intro bs v
          rw [values_singleton]
          constructor
          · intro ⟨_, _, elemType, hbs, ⟨htype, hlt⟩, _, _, n, hy, ⟨hn, hnlt⟩, _, _, _, hz, ⟨hcap, hfit⟩,
              _, _, vs, hw, ⟨hvs, hlen⟩, hnil, hv⟩
            subst hbs htype hy hn hz hcap hw hnil hlen
            refine .inr (.inr ⟨rfl, elemType, _, vs, hlt, hnlt, hfit, spelled_values.1 hvs, ?_, hv⟩)
            rw [List.nil_append, List.append_nil]
          · intro h
            rcases h with ⟨_, _, _, htype, -⟩ | ⟨h, -⟩ |
              ⟨-, elemType, es, elems, htype, hlen, hcap, helems, hbs, hv⟩
            · cases htype
            · cases h
            · exact ⟨_, _, elemType, hbs, ⟨rfl, htype⟩, _, _, elems.length, rfl, ⟨rfl, hlen⟩, [], es,
                (), rfl, ⟨rfl, hcap⟩, es, [], elems, (List.append_nil _).symm,
                ⟨spelled_values.2 helems, rfl⟩, rfl, hv⟩
        · rw [if_neg h9]
          apply recognizes_panicP.congr
          intro bs v
          rw [values_singleton]
          constructor
          · exact False.elim
          · intro h
            rcases h with ⟨width, make, _, htype, -⟩ | ⟨h, -⟩ | ⟨h, -⟩
            · rw [hscalar] at htype
              cases htype
            · exact h8 h
            · exact h9 h

/-! ## Pairs, tensor infos and the body -/

theorem recognizes_kvP (p : Platform) (fuel : ℕ) : Recognizes (kvP p fuel) (KvEntry p fuel) := by
  apply (recognizes_stringP.bind fun key => (recognizes_le 4).bind fun vtype =>
    (recognizes_valueP p fuel vtype).bind fun val => Recognizes.pure (key, val)).congr
  intro bs kv
  constructor
  · intro ⟨_, _, key, hbs, ⟨raw, hraw, hx, hkey⟩, _, _, vtype, hy, ⟨hv, hvlt⟩, _, _, val, hz, hval, hnil,
      hkv⟩
    subst hbs hx hy hv hz hnil hkv
    refine ⟨raw, vtype, _, hraw, hvlt, hval, hkey, ?_⟩
    rw [List.append_nil]
  · intro ⟨raw, vtype, val, hraw, hvlt, hval, hkey, hbs⟩
    exact ⟨_, _, kv.1, hbs, ⟨raw, hraw, rfl, hkey⟩, _, _, vtype, rfl, ⟨rfl, hvlt⟩, val, [], kv.2,
      (List.append_nil _).symm, hval, rfl, rfl⟩

theorem fromU32_eq_some {x : ℕ} {ty : GgmlType} :
    GgmlType.fromU32 x = some ty ↔ x = ty.toU32 := by
  constructor
  · intro h
    unfold GgmlType.fromU32 at h
    split at h <;> cases h <;> rfl
  · intro h
    subst h
    cases ty <;> rfl

theorem toU32_lt (ty : GgmlType) : ty.toU32 < 256 ^ 4 := by
  cases ty <;> decide

theorem spelled_le {n : ℕ} {bs : List UInt8} {xs : List ℕ} :
    Spelled (fun pre x => pre = leBytes n x ∧ x < 256 ^ n) bs xs ↔
      bs = xs.flatMap (leBytes n) ∧ ∀ x ∈ xs, x < 256 ^ n := by
  constructor
  · intro h
    obtain ⟨hbs, hmem⟩ := spelled_flatMap_iff (fun _ _ hx => hx.1) h
    exact ⟨hbs, fun x hx => (hmem x hx).2⟩
  · intro ⟨hbs, hmem⟩
    subst hbs
    have hs := spelled_flatMap (R := fun pre x => pre = leBytes n x ∧ x < 256 ^ n)
      (f := leBytes n) (g := id) fun x hx => ⟨rfl, hmem x hx⟩
    rwa [List.map_id] at hs

theorem recognizes_tensorP (p : Platform) : Recognizes (tensorP p) (TensorEntry p) := by
  apply (recognizes_stringP.bind fun name => (recognizes_le 4).bind fun nDims =>
    ((recognizes_le 8).repeatN nDims).bind fun ne => (recognizes_le 4).bind fun typeId =>
    (Recognizes.ofOption (GgmlType.fromU32 typeId)).bind fun ggmlType =>
    (recognizes_le 8).bind fun offset =>
    (Recognizes.ofOption (tensorBytes p ne ggmlType)).bind fun nBytes =>
    Recognizes.pure
      (TensorInfo.mk name ne ggmlType offset nBytes (2 ^ 64 - 1))).congr
  intro bs t
  constructor
  · intro ⟨_, _, name, hbs, ⟨raw, hraw, hx, hname⟩, _, _, nDims, h1, ⟨h2, hdims⟩, _, _, ne, h3,
      ⟨hne, hlen⟩, _, _, typeId, h4, ⟨h5, _⟩, _, _, ty, h6, ⟨h7, hty⟩, _, _, offset, h8,
      ⟨h9, hoff⟩, _, _, nBytes, h10, ⟨h11, hsize⟩, h12, ht⟩
    subst hbs hx h1 h2 h3 h4 h5 h6 h7 h8 h9 h10 h11 h12 ht hlen
    obtain ⟨hne, hlt⟩ := spelled_le.1 hne
    have htype := fromU32_eq_some.1 hty
    subst hne htype
    refine ⟨raw, hraw, hdims, hlt, hoff, hsize, hname, rfl, ?_⟩
    simp only [List.nil_append, List.append_nil]
  · intro ⟨raw, hraw, hdims, hlt, hoff, hsize, hname, hshard, hbs⟩
    refine ⟨_, _, t.name, hbs, ⟨raw, hraw, rfl, hname⟩, _, _, t.ne.length, rfl, ⟨rfl, hdims⟩, _, _,
      t.ne, rfl, ⟨spelled_le.2 ⟨rfl, hlt⟩, rfl⟩, _, _, t.ggmlType.toU32, rfl, ⟨rfl, toU32_lt _⟩, [],
      _, t.ggmlType, rfl, ⟨rfl, fromU32_eq_some.2 rfl⟩, _, [], t.offset, (List.append_nil _).symm,
      ⟨rfl, hoff⟩, [], [], t.nBytes, rfl, ⟨rfl, hsize⟩, rfl, ?_⟩
    rw [← hshard]

theorem recognizes_bodyP (p : Platform) (fuel : ℕ) : Recognizes (bodyP p fuel) (Body p fuel) := by
  apply ((recognizes_le 8).bind fun nTensors => (recognizes_le 8).bind fun nKv =>
    ((recognizes_kvP p fuel).repeatN (i64Count nKv)).bind fun kvs =>
    (recognizes_withCapacity nTensors p.tensorSize).bind fun _ =>
    ((recognizes_tensorP p).repeatN (i64Count nTensors)).bind fun tensors =>
    Recognizes.pure (kvs, tensors)).congr
  intro bs body
  constructor
  · intro ⟨_, _, nTensors, hbs, ⟨h1, hnt⟩, _, _, nKv, h2, ⟨h3, hnk⟩, _, _, kvs, h4, ⟨hkvs, hklen⟩, _, _,
      _, h5, ⟨h6, hcap⟩, _, _, tensors, h7, ⟨htensors, htlen⟩, h8, hbody⟩
    subst hbs h1 h2 h3 h4 h5 h6 h7 h8 hbody
    refine ⟨nTensors, nKv, _, _, hnt, hnk, hkvs, hklen, hcap, htensors, htlen, ?_⟩
    simp only [List.nil_append, List.append_nil]
  · intro ⟨nTensors, nKv, kvs, infos, hnt, hnk, hkvs, hklen, hcap, htensors, htlen, hbs⟩
    exact ⟨_, _, nTensors, hbs, ⟨rfl, hnt⟩, _, _, nKv, rfl, ⟨rfl, hnk⟩, kvs, infos, body.1, rfl,
      ⟨hkvs, hklen⟩, [], infos, (), rfl, ⟨rfl, hcap⟩, infos, [], body.2, (List.append_nil _).symm,
      ⟨htensors, htlen⟩, rfl, rfl⟩

/-! ## Nesting -/

/-- Values nest no deeper than they are long. -/
theorem values_depth {p : Platform} {depth typeId m : ℕ} {bs : List UInt8} {vs : List MetaValue}
    (h : Values p depth typeId bs vs) (hm : bs.length ≤ m) : Values p m typeId bs vs := by
  induction h generalizing m with
  | nil => exact .nil _ _
  | @scalar _ _ width _ _ _ _ htype hx _ ih =>
    have hwidth := (scalar_width htype).1
    rw [List.length_append, leBytes_length] at hm
    obtain ⟨k, rfl⟩ : ∃ k, m = k + 1 := ⟨m - 1, by omega⟩
    exact .scalar htype hx (ih (by omega))
  | string hs _ ih =>
    rw [List.length_append, stringBytes, List.length_append, leBytes_length] at hm
    obtain ⟨k, rfl⟩ : ∃ k, m = k + 1 := ⟨m - 1, by omega⟩
    exact .string hs (ih (by omega))
  | array htype hlen hcap _ _ ihe ih =>
    simp only [List.length_append, leBytes_length] at hm
    obtain ⟨k, rfl⟩ : ∃ k, m = k + 1 := ⟨m - 1, by omega⟩
    exact .array htype hlen hcap (ihe (by omega)) (ih (by omega))

theorem KvEntry.depth {p : Platform} {depth m : ℕ} {bs : List UInt8} {kv : List UInt8 × MetaValue}
    (h : KvEntry p depth bs kv) (hm : bs.length ≤ m) : KvEntry p m bs kv := by
  obtain ⟨key, typeId, val, hkey, htype, hval, hname, hbs⟩ := h
  have hlen : val.length ≤ m := by
    rw [hbs, List.length_append, List.length_append] at hm
    omega
  exact ⟨key, typeId, val, hkey, htype, values_depth hval hlen, hname, hbs⟩

theorem spelled_kvs_depth {p : Platform} {depth m : ℕ} {bs : List UInt8}
    {kvs : List (List UInt8 × MetaValue)} (h : Spelled (KvEntry p depth) bs kvs)
    (hm : bs.length ≤ m) : Spelled (KvEntry p m) bs kvs := by
  induction h with
  | nil => exact .nil
  | cons head _ ih =>
    rw [List.length_append] at hm
    exact .cons (head.depth (by omega)) (ih (by omega))

theorem Body.depth {p : Platform} {depth m : ℕ} {bs : List UInt8}
    {body : List (List UInt8 × MetaValue) × List TensorInfo} (h : Body p depth bs body)
    (hm : bs.length ≤ m) : Body p m bs body := by
  obtain ⟨nTensors, nKv, kvs, infos, hnt, hnk, hkvs, hklen, hcap, htensors, htlen, hbs⟩ := h
  have hlen : kvs.length ≤ m := by
    simp only [hbs, List.length_append] at hm
    omega
  exact ⟨nTensors, nKv, kvs, infos, hnt, hnk, spelled_kvs_depth hkvs hlen, hklen, hcap, htensors,
    htlen, hbs⟩

/-! ## One file -/

theorem divCeil_mul_lt {x d : ℕ} (hx : x < 2 ^ 63) (hd : d < 2 ^ 64) : divCeil x d * d < 2 ^ 64 := by
  unfold divCeil
  have hmod := Nat.div_add_mod x d
  rcases Nat.lt_or_ge x d with hlt | hge
  · rw [Nat.div_eq_of_lt hlt]
    split <;> omega
  · have hpos : 0 < d ∨ d = 0 := by omega
    rcases hpos with hpos | rfl
    · have hrem := Nat.mod_lt x hpos
      have hcomm : x / d * d = d * (x / d) := Nat.mul_comm _ _
      split
      · rw [Nat.add_mul, Nat.one_mul]
        omega
      · omega
    · simp

/-- `as_u64` is a `u64`. -/
def MetaValue.InRange : MetaValue → Prop
  | .u8 v | .u16 v | .u32 v | .u64 v => v < 2 ^ 64
  | _ => True

theorem asU64_lt {v : MetaValue} (h : v.InRange) {x : ℕ} (hx : v.asU64 = some x) : x < 2 ^ 64 := by
  have hsigned : ∀ v : ℤ, (v % 2 ^ 64).toNat < 2 ^ 64 := by
    intro v
    have hlt := Int.emod_lt_of_pos v (show (0 : ℤ) < 2 ^ 64 by decide)
    omega
  cases v with
  | bool v =>
    cases hx
    cases v <;> decide
  | f32 => cases hx
  | f64 => cases hx
  | string => cases hx
  | array => cases hx
  | i8 v => cases hx; exact hsigned v
  | i16 v => cases hx; exact hsigned v
  | i32 v => cases hx; exact hsigned v
  | i64 v => cases hx; exact hsigned v
  | u8 v => cases hx; exact h
  | u16 v => cases hx; exact h
  | u32 v => cases hx; exact h
  | u64 v => cases hx; exact h

theorem scalar_inRange {typeId width x : ℕ} {make : ℕ → MetaValue}
    (h : scalar typeId = some (width, make)) (hx : x < 256 ^ width) : (make x).InRange := by
  unfold scalar at h
  split at h <;> cases h <;> simp only [MetaValue.InRange] <;> omega

theorem values_inRange {p : Platform} {depth typeId : ℕ} {bs : List UInt8} {vs : List MetaValue}
    (h : Values p depth typeId bs vs) : ∀ v ∈ vs, v.InRange := by
  induction h with
  | nil => simp
  | scalar htype hx _ ih =>
    intro v hv
    rcases List.mem_cons.1 hv with rfl | hv
    · exact scalar_inRange htype hx
    · exact ih v hv
  | string _ _ ih =>
    intro v hv
    rcases List.mem_cons.1 hv with rfl | hv
    · trivial
    · exact ih v hv
  | array _ _ _ _ _ _ ih =>
    intro v hv
    rcases List.mem_cons.1 hv with rfl | hv
    · trivial
    · exact ih v hv

/-- A value of the metadata is that of one of the pairs. -/
theorem insertAll_mem {kvs : List (List UInt8 × MetaValue)} {k : List UInt8} {v : MetaValue}
    (h : insertAll kvs k = some v) : (k, v) ∈ kvs := by
  have hfold : ∀ (kvs : List (List UInt8 × MetaValue)) (metadata : Metadata),
      kvs.foldl (fun (metadata : Metadata) kv => Function.update metadata kv.1 (some kv.2))
        metadata k = some v →
        metadata k = some v ∨ (k, v) ∈ kvs := by
    intro kvs
    induction kvs with
    | nil => exact fun _ h => .inl h
    | cons kv kvs ih =>
      intro metadata h
      rw [List.foldl_cons] at h
      rcases ih _ h with hup | hmem
      · by_cases hk : k = kv.1
        · subst hk
          rw [Function.update_self] at hup
          cases hup
          exact .inr List.mem_cons_self
        · rw [Function.update_of_ne hk] at hup
          exact .inl hup
      · exact .inr (List.mem_cons_of_mem _ hmem)
  rcases hfold kvs _ h with hnone | hmem
  · cases hnone
  · exact hmem

theorem Layout.inRange {p : Platform} {buf : List UInt8} {kvs : List (List UInt8 × MetaValue)}
    {tensors : List TensorInfo} {headerEnd : ℕ} (h : Layout p buf kvs tensors headerEnd) :
    ∀ kv ∈ kvs, kv.2.InRange := by
  obtain ⟨depth, _, _, ⟨_, _, _, _, _, _, hkvs, _⟩, _⟩ := h
  intro kv hkv
  obtain ⟨_, _, _, _, _, _, hval, _⟩ := hkvs.exists_of_mem hkv
  exact values_inRange hval _ List.mem_cons_self

/-- Every tensor has an info in the file. -/
theorem Layout.tensorEntry {p : Platform} {buf : List UInt8} {kvs : List (List UInt8 × MetaValue)}
    {tensors : List TensorInfo} {headerEnd : ℕ} (h : Layout p buf kvs tensors headerEnd)
    {t : TensorInfo} (ht : t ∈ tensors) : ∃ bs, TensorEntry p bs t := by
  obtain ⟨_, _, _, ⟨_, _, _, _, _, _, _, _, _, htensors, _⟩, _⟩ := h
  exact htensors.exists_of_mem ht

/-- The alignment is a `u64`. -/
theorem Layout.alignment_lt {p : Platform} {buf : List UInt8}
    {kvs : List (List UInt8 × MetaValue)} {tensors : List TensorInfo} {headerEnd : ℕ}
    (h : Layout p buf kvs tensors headerEnd) : (insertAll kvs).alignment < 2 ^ 64 := by
  unfold Metadata.alignment Metadata.getU64
  cases hval : insertAll kvs (ascii "general.alignment") with
  | none => decide
  | some v =>
    have hv := h.inRange _ (insertAll_mem hval)
    rw [Option.bind_some]
    cases hx : v.asU64 with
    | none => decide
    | some x => exact asU64_lt hv hx

/-- Where the data of a file of the format begins. -/
def dataStartOf (kvs : List (List UInt8 × MetaValue)) (headerEnd : ℕ) : ℕ :=
  divCeil headerEnd (insertAll kvs).alignment * (insertAll kvs).alignment

/-- The file that `parse_one` makes of the format. -/
def parsedOf (buf : List UInt8) (kvs : List (List UInt8 × MetaValue)) (tensors : List TensorInfo)
    (headerEnd : ℕ) : ParsedFile :=
  { shard := { mmap := buf, dataStart := dataStartOf kvs headerEnd }
    version := 3
    metadata := insertAll kvs
    tensors }

theorem ggufMagic_lt : ggufMagic < 256 ^ 4 := by decide

/-- A number at the front of the input. -/
theorem le_run_eq_some {n x : ℕ} {bs rest : List UInt8} :
    (le n).run bs = some (x, rest) ↔ x < 256 ^ n ∧ bs = leBytes n x ++ rest := by
  rw [recognizes_le n bs x rest]
  constructor
  · intro ⟨pre, ⟨hpre, hx⟩, hbs⟩
    subst hpre
    exact ⟨hx, hbs⟩
  · intro ⟨hx, hbs⟩
    exact ⟨_, ⟨rfl, hx⟩, hbs⟩

theorem parseBody_ne_err (p : Platform) (buf : List UInt8) (version : ℕ) (rest : List UInt8) :
    parseBody p buf version rest ≠ .error .err := by
  intro h
  unfold parseBody at h
  split at h
  · cases h
  · simp only at h
    split at h
    · cases h
    · split at h <;> cases h

theorem parseOne_err_iff {p : Platform} {buf : List UInt8} :
    parseOne p buf = .error .err ↔ Rejected buf := by
  constructor
  · intro h
    unfold parseOne at h
    split at h
    · cases h
    · rename_i magic rest hmagic
      obtain ⟨hm, hbuf⟩ := le_run_eq_some.1 hmagic
      refine ⟨magic, rest, hm, hbuf, ?_⟩
      by_cases hne : magic ≠ ggufMagic
      · exact .inl hne
      · rw [if_neg hne] at h
        split at h
        · cases h
        · rename_i version rest' hversion
          obtain ⟨hv, hrest⟩ := le_run_eq_some.1 hversion
          refine .inr ⟨version, rest', hv, hrest, fun h3 => ?_⟩
          rw [if_neg (not_not.2 h3)] at h
          exact parseBody_ne_err _ _ _ _ h
  · intro ⟨magic, rest, hm, hbuf, hbad⟩
    have hmagic : (le 4).run buf = some (magic, rest) := le_run_eq_some.2 ⟨hm, hbuf⟩
    unfold parseOne
    simp only [hmagic]
    by_cases hne : magic ≠ ggufMagic
    · rw [if_pos hne]
    · rw [if_neg hne]
      obtain ⟨version, rest', hv, hrest, h3⟩ := hbad.resolve_left hne
      have hversion : (le 4).run rest = some (version, rest') := le_run_eq_some.2 ⟨hv, hrest⟩
      simp only [hversion]
      rw [if_pos h3]

theorem parseOne_ok_iff {p : Platform} {buf : List UInt8} (hlen : buf.length < 2 ^ 63)
    {f : ParsedFile} :
    parseOne p buf = .ok f ↔ ∃ kvs tensors headerEnd, Layout p buf kvs tensors headerEnd ∧
      (insertAll kvs).alignment ≠ 0 ∧ f = parsedOf buf kvs tensors headerEnd := by
  constructor
  · intro h
    unfold parseOne at h
    split at h
    · cases h
    · rename_i magic rest hmagic
      obtain ⟨hm, hbuf⟩ := le_run_eq_some.1 hmagic
      by_cases hne : magic ≠ ggufMagic
      · rw [if_pos hne] at h
        cases h
      · rw [if_neg hne] at h
        rw [ne_eq, not_not] at hne
        subst hne
        split at h
        · cases h
        · rename_i version rest' hversion
          obtain ⟨hv, hrest⟩ := le_run_eq_some.1 hversion
          by_cases h3 : version ≠ 3
          · rw [if_pos h3] at h
            cases h
          · rw [if_neg h3] at h
            rw [ne_eq, not_not] at h3
            subst h3 hrest
            unfold parseBody at h
            split at h
            · cases h
            · rename_i kvs tensors data hbody
              simp only at h
              split at h
              · cases h
              · rename_i hal
                split at h
                · cases h
                · rename_i dataStart hstart
                  cases h
                  obtain ⟨bs, hbs, hrest⟩ := (recognizes_bodyP p _ _ _ _).1 hbody
                  subst hrest
                  have hle : data.length ≤ buf.length := by
                    simp only [hbuf, List.length_append]
                    omega
                  have hlayout : Layout p buf kvs tensors (buf.length - data.length) :=
                    ⟨_, bs, data, hbs, hbuf, Nat.sub_add_cancel hle⟩
                  refine ⟨kvs, tensors, _, hlayout, hal, ?_⟩
                  have hlt := divCeil_mul_lt (x := buf.length - data.length) (by omega)
                    hlayout.alignment_lt
                  rw [u64Of, if_pos hlt] at hstart
                  cases hstart
                  rfl
  · intro ⟨kvs, tensors, headerEnd, hlayout, hal, hf⟩
    obtain ⟨depth, bs, data, hbody, hbuf, hend⟩ := id hlayout
    have hmagic : (le 4).run buf = some (ggufMagic, leBytes 4 3 ++ (bs ++ data)) :=
      le_run_eq_some.2 ⟨ggufMagic_lt, hbuf⟩
    have hversion : (le 4).run (leBytes 4 3 ++ (bs ++ data)) = some (3, bs ++ data) :=
      le_run_eq_some.2 ⟨by decide, rfl⟩
    have hble : bs.length ≤ buf.length := by
      simp only [hbuf, List.length_append]
      omega
    have hrun : (bodyP p buf.length).run (bs ++ data) = some ((kvs, tensors), data) :=
      (recognizes_bodyP p _).run (hbody.depth hble) data
    have hheader : buf.length - data.length = headerEnd := by omega
    have hlt := divCeil_mul_lt (x := headerEnd) (by omega) hlayout.alignment_lt
    unfold parseOne
    simp only [hmagic, hversion]
    unfold parseBody
    simp only [hrun, hheader, u64Of, if_pos hlt, if_neg hal]
    rw [hf]
    rfl

end Memra
