import Memra.Kv.Cache

/-!
# A rollback goes back

`Shape` is what of a cache its passes do not change: which layers have rows, which have a recurrent state,
and its sizes. A snapshot of a cache has its shape, and one of the cache's shape can be rolled back to
(`rollback_spec`) and refreshed (`snapshotInto_eq`). `Appended` says what of an attention layer a run of
appends keeps.
-/

namespace Memra

namespace Kv

variable {Row F : Type}

/-- The kinds of the layers and the sizes of the recurrent states. -/
structure Shape where
  attn : List Bool
  conv : List (Option ℕ)
  ssm : List (Option ℕ)

def Cache.shape (c : Cache Row F) : Shape :=
  { attn := c.kv.map (·.isSome),
    conv := c.recur.map (·.map (·.convState.length)),
    ssm := c.recur.map (·.map (·.ssmState.length)) }

def CacheSnapshot.shape (s : CacheSnapshot F) : Shape :=
  { attn := s.kvLen.map (·.isSome),
    conv := s.conv.map (·.map (·.length)),
    ssm := s.ssm.map (·.map (·.length)) }

@[simp] theorem Cache.shape_snapshot (c : Cache Row F) : c.snapshot.shape = c.shape := by
  simp [Cache.shape, CacheSnapshot.shape, Cache.snapshot, Function.comp_def]

/-! ## Device buffers -/

theorem copyInto_all {dst src : List F} (h : src.length = dst.length) :
    copyInto dst 0 src src.length = some ⟨src, h⟩ := by
  unfold copyInto
  rw [if_pos (Nat.le_refl _)]
  split
  · next d hd =>
    simp only [List.take_length] at hd
    rw [Lib.overwrite_all h] at hd
    cases hd
    rfl
  · next hn =>
    rw [List.take_length, Lib.overwrite_all h] at hn
    cases hn

theorem asI32_eq {n : ℕ} (h : n < 2 ^ 31) : asI32 n = n := by
  unfold asI32
  rw [Int.bmod_def]
  omega

theorem RecurLayer.restore_eq {rl : RecurLayer F} {conv ssm : List F}
    (hc : conv.length = rl.convState.length) (hs : ssm.length = rl.ssmState.length) :
    ∃ rl', rl.restore (some conv) (some ssm) = some rl' ∧ rl'.convState = conv ∧ rl'.ssmState = ssm := by
  simp [RecurLayer.restore, copyInto_all hc, copyInto_all hs]

/-! ## The updates of the cache -/

namespace Cache

variable {c c' : Cache Row F} {snap : CacheSnapshot F} {il j : ℕ}

@[simp] theorem setKv_recur (l : KvLayer Row) : (c.setKv il l).recur = c.recur := rfl

@[simp] theorem setKv_pos (l : KvLayer Row) : (c.setKv il l).pos = c.pos := rfl

@[simp] theorem setRecur_kv (r : RecurLayer F) : (c.setRecur il r).kv = c.kv := rfl

@[simp] theorem setRecur_pos (r : RecurLayer F) : (c.setRecur il r).pos = c.pos := rfl

theorem setKv_self {l l' : KvLayer Row} (h : c.kv[il]? = some (some l)) :
    (c.setKv il l').kv[il]? = some (some l') := by
  have hlt := (List.getElem?_eq_some_iff.1 h).1
  simp [setKv, hlt]

theorem setKv_other (l : KvLayer Row) (h : j ≠ il) : (c.setKv il l).kv[j]? = c.kv[j]? := by
  simp [setKv, List.getElem?_set_ne (Ne.symm h)]

theorem setRecur_self {r r' : RecurLayer F} (h : c.recur[il]? = some (some r)) :
    (c.setRecur il r').recur[il]? = some (some r') := by
  have hlt := (List.getElem?_eq_some_iff.1 h).1
  simp [setRecur, hlt]

theorem setRecur_other (r : RecurLayer F) (h : j ≠ il) :
    (c.setRecur il r).recur[j]? = c.recur[j]? := by
  simp [setRecur, List.getElem?_set_ne (Ne.symm h)]

theorem map_set_of {α β : Type} {f : α → β} {xs : List α} {i : ℕ} {x y : α} (h : xs[i]? = some x)
    (hf : f y = f x) : (xs.set i y).map f = xs.map f := by
  obtain ⟨hi, rfl⟩ := List.getElem?_eq_some_iff.1 h
  rw [List.map_set, hf, ← List.getElem_map f (h := by simpa using hi), List.set_getElem_self]

theorem shape_setKv {l l' : KvLayer Row} (h : c.kv[il]? = some (some l)) :
    (c.setKv il l').shape = c.shape := by
  simp only [shape, setKv]
  rw [map_set_of h (by simp)]

theorem shape_setRecur {r r' : RecurLayer F} (h : c.recur[il]? = some (some r))
    (hc : r'.convState.length = r.convState.length) (hs : r'.ssmState.length = r.ssmState.length) :
    (c.setRecur il r').shape = c.shape := by
  simp only [shape, setRecur]
  rw [map_set_of h (by simp [hc]), map_set_of h (by simp [hs])]

/-! ## A snapshot of the cache's shape -/

theorem kvLen_of_shape (h : snap.shape = c.shape) {x : Option (KvLayer Row)} (hx : c.kv[il]? = some x) :
    ∃ y, snap.kvLen[il]? = some y ∧ y.isSome = x.isSome := by
  have := congrArg (fun s => s.attn[il]?) h
  simpa [shape, CacheSnapshot.shape, hx] using this

theorem conv_of_shape (h : snap.shape = c.shape) {r : RecurLayer F} (hr : c.recur[il]? = some (some r)) :
    ∃ s, snap.conv[il]? = some (some s) ∧ s.length = r.convState.length := by
  have := congrArg (fun s => s.conv[il]?) h
  simpa [shape, CacheSnapshot.shape, hr] using this

theorem ssm_of_shape (h : snap.shape = c.shape) {r : RecurLayer F} (hr : c.recur[il]? = some (some r)) :
    ∃ s, snap.ssm[il]? = some (some s) ∧ s.length = r.ssmState.length := by
  have := congrArg (fun s => s.ssm[il]?) h
  simpa [shape, CacheSnapshot.shape, hr] using this

theorem conv_none_of_shape (h : snap.shape = c.shape) (hr : c.recur[il]? = some none) :
    snap.conv[il]? = some none := by
  have := congrArg (fun s => s.conv[il]?) h
  simpa [shape, CacheSnapshot.shape, hr] using this

theorem ssm_none_of_shape (h : snap.shape = c.shape) (hr : c.recur[il]? = some none) :
    snap.ssm[il]? = some none := by
  have := congrArg (fun s => s.ssm[il]?) h
  simpa [shape, CacheSnapshot.shape, hr] using this

/-! ## Refreshing a snapshot -/

/-- The snapshots have the same at layer `il`. -/
structure SameAt (s t : CacheSnapshot F) (il : ℕ) : Prop where
  kvLen : s.kvLen[il]? = t.kvLen[il]?
  conv : s.conv[il]? = t.conv[il]?
  ssm : s.ssm[il]? = t.ssm[il]?

theorem SameAt.trans {s t u : CacheSnapshot F} (h : SameAt s t il) (h' : SameAt t u il) :
    SameAt s u il :=
  ⟨h.kvLen.trans h'.kvLen, h.conv.trans h'.conv, h.ssm.trans h'.ssm⟩

theorem snapshotLayer_spec (hs : snap.shape = c.shape) (hil : il < c.kv.length) :
    ∃ s, c.snapshotLayer snap il = some s ∧ s.shape = c.shape ∧ SameAt s c.snapshot il ∧
      ∀ j, j ≠ il → SameAt s snap j := by
  obtain ⟨x, hx⟩ : ∃ x, c.kv[il]? = some x := ⟨_, List.getElem?_eq_getElem hil⟩
  obtain ⟨y, hy, hyx⟩ := kvLen_of_shape hs hx
  obtain ⟨z, hz⟩ : ∃ z, c.recur[il]? = some z :=
    ⟨_, List.getElem?_eq_getElem (by have := c.layers; omega)⟩
  have hyl := (List.getElem?_eq_some_iff.1 hy).1
  have hattn : (snap.kvLen.set il (x.map (·.len))).map (·.isSome) = snap.kvLen.map (·.isSome) :=
    map_set_of hy (by simp [hyx])
  cases z with
  | none =>
    refine ⟨{ snap with kvLen := snap.kvLen.set il (x.map (·.len)) },
      by simp [snapshotLayer, hx, hy, hz], ?_, ⟨?_, ?_, ?_⟩, fun j hj => ⟨?_, rfl, rfl⟩⟩
    · rw [← hs]
      simp only [CacheSnapshot.shape, hattn]
    · simp [snapshot, hx, hyl]
    · simp [snapshot, hz, conv_none_of_shape hs hz]
    · simp [snapshot, hz, ssm_none_of_shape hs hz]
    · simp [List.getElem?_set_ne (Ne.symm hj)]
  | some r =>
    obtain ⟨conv, hconv, hclen⟩ := conv_of_shape hs hz
    obtain ⟨ssm, hssm, hslen⟩ := ssm_of_shape hs hz
    have hcl := (List.getElem?_eq_some_iff.1 hconv).1
    have hsl := (List.getElem?_eq_some_iff.1 hssm).1
    refine ⟨{ snap with kvLen := snap.kvLen.set il (x.map (·.len)),
                        conv := snap.conv.set il (some r.convState),
                        ssm := snap.ssm.set il (some r.ssmState) }, ?_, ?_, ⟨?_, ?_, ?_⟩,
      fun j hj => ⟨?_, ?_, ?_⟩⟩
    · simp [snapshotLayer, hx, hy, hz, hconv, hssm, copyInto_all hclen.symm, copyInto_all hslen.symm]
    · rw [← hs]
      simp only [CacheSnapshot.shape, hattn]
      rw [map_set_of hconv (by simp [hclen]), map_set_of hssm (by simp [hslen])]
    · simp [snapshot, hx, hyl]
    · simp [snapshot, hz, hcl]
    · simp [snapshot, hz, hsl]
    all_goals simp [List.getElem?_set_ne (Ne.symm hj)]

/-- **A refreshed snapshot is a fresh one**, whatever its buffers held. -/
theorem snapshotInto_eq (hs : snap.shape = c.shape) : c.snapshotInto snap = some c.snapshot := by
  obtain ⟨s, hrun, hshape, hdone⟩ := Lib.foldlM_range (f := c.snapshotLayer)
    (fun i s => s.shape = c.shape ∧ ∀ j < i, SameAt s c.snapshot j) (n := c.kv.length) (s := snap)
    (by
      rintro i s hi ⟨hshape, hdone⟩
      obtain ⟨t, ht, hst, hsame, hother⟩ := snapshotLayer_spec hshape hi
      refine ⟨t, ht, hst, fun j hj => ?_⟩
      rcases Nat.lt_succ_iff_lt_or_eq.1 hj with hj | rfl
      · exact (hother j (by omega)).trans (hdone j hj)
      · exact hsame)
    ⟨hs, by simp⟩
  have hrec := c.layers
  have hlk : s.kvLen.length = c.kv.length := by
    simpa [shape, CacheSnapshot.shape] using congrArg (fun s => s.attn.length) hshape
  have hlc : s.conv.length = c.recur.length := by
    simpa [shape, CacheSnapshot.shape] using congrArg (fun s => s.conv.length) hshape
  have hls : s.ssm.length = c.recur.length := by
    simpa [shape, CacheSnapshot.shape] using congrArg (fun s => s.ssm.length) hshape
  have hkv : s.kvLen = c.snapshot.kvLen :=
    List.ext_getElem?' fun j hj => (hdone j (by simp [snapshot] at hj; omega)).kvLen
  have hconv : s.conv = c.snapshot.conv :=
    List.ext_getElem?' fun j hj => (hdone j (by simp [snapshot] at hj; omega)).conv
  have hssm : s.ssm = c.snapshot.ssm :=
    List.ext_getElem?' fun j hj => (hdone j (by simp [snapshot] at hj; omega)).ssm
  rw [snapshotInto, hrun]
  simp only [Option.bind_eq_bind, Option.bind_some, hkv, hconv, hssm]
  rfl

/-! ## Rolling back -/

/-- What a rollback from `c` to `snap` leaves at layer `il` of `c'`. -/
structure Restored (snap : CacheSnapshot F) (acceptLen : ℕ) (c c' : Cache Row F) (il : ℕ) : Prop where
  kv : ∀ l n, c.kv[il]? = some (some l) → snap.kvLen[il]? = some (some n) →
    c'.kv[il]? = some (some (l.setLen (n + acceptLen)))
  recur : ∀ r, c.recur[il]? = some (some r) → ∃ r', c'.recur[il]? = some (some r') ∧
    snap.conv[il]? = some (some r'.convState) ∧ snap.ssm[il]? = some (some r'.ssmState)

theorem rollbackLen_other (acceptLen : ℕ) (x : Option (KvLayer Row)) (y : Option ℕ) (h : j ≠ il) :
    (c.rollbackLen il acceptLen x y).kv[j]? = c.kv[j]? := by
  unfold rollbackLen
  split
  · exact setKv_other _ h
  · rfl

@[simp] theorem rollbackLen_recur (acceptLen : ℕ) (x : Option (KvLayer Row)) (y : Option ℕ) :
    (c.rollbackLen il acceptLen x y).recur = c.recur := by
  unfold rollbackLen
  split <;> rfl

@[simp] theorem rollbackLen_pos (acceptLen : ℕ) (x : Option (KvLayer Row)) (y : Option ℕ) :
    (c.rollbackLen il acceptLen x y).pos = c.pos := by
  unfold rollbackLen
  split <;> rfl

theorem shape_rollbackLen (acceptLen : ℕ) {x : Option (KvLayer Row)} (y : Option ℕ)
    (hx : c.kv[il]? = some x) : (c.rollbackLen il acceptLen x y).shape = c.shape := by
  unfold rollbackLen
  split
  · exact shape_setKv hx
  · rfl

theorem rollbackLayer_spec (acceptLen : ℕ) (hs : snap.shape = c.shape) (hil : il < c.kv.length) :
    ∃ c', rollbackLayer snap acceptLen c il = some c' ∧ c'.shape = c.shape ∧ c'.pos = c.pos ∧
      Restored snap acceptLen c c' il ∧
      ∀ j, j ≠ il → c'.kv[j]? = c.kv[j]? ∧ c'.recur[j]? = c.recur[j]? := by
  obtain ⟨x, hx⟩ : ∃ x, c.kv[il]? = some x := ⟨_, List.getElem?_eq_getElem hil⟩
  obtain ⟨y, hy, -⟩ := kvLen_of_shape hs hx
  obtain ⟨z, hz⟩ : ∃ z, c.recur[il]? = some z :=
    ⟨_, List.getElem?_eq_getElem (by have := c.layers; omega)⟩
  have hlen : ∀ l n, c.kv[il]? = some (some l) → snap.kvLen[il]? = some (some n) →
      (c.rollbackLen il acceptLen x y).kv[il]? = some (some (l.setLen (n + acceptLen))) := by
    intro l n hl hn
    obtain rfl := Option.some.inj (hx.symm.trans hl)
    obtain rfl := Option.some.inj (hy.symm.trans hn)
    exact setKv_self hl
  cases z with
  | none =>
    refine ⟨c.rollbackLen il acceptLen x y, by simp [rollbackLayer, hx, hy, hz],
      shape_rollbackLen _ _ hx, by simp, ⟨hlen, by simp [hz]⟩,
      fun j hj => ⟨rollbackLen_other _ _ _ hj, by simp⟩⟩
  | some r =>
    obtain ⟨conv, hconv, hclen⟩ := conv_of_shape hs hz
    obtain ⟨ssm, hssm, hslen⟩ := ssm_of_shape hs hz
    obtain ⟨r', hr', rfl, rfl⟩ := RecurLayer.restore_eq hclen hslen
    have hzd : (c.rollbackLen il acceptLen x y).recur[il]? = some (some r) := by simpa using hz
    refine ⟨(c.rollbackLen il acceptLen x y).setRecur il r', ?_, ?_, by simp, ⟨hlen, ?_⟩,
      fun j hj => ⟨rollbackLen_other _ _ _ hj, by simp [setRecur_other _ hj]⟩⟩
    · simp [rollbackLayer, hx, hy, hz, hconv, hssm, hr']
    · exact (shape_setRecur hzd hclen hslen).trans (shape_rollbackLen _ _ hx)
    · exact fun _ _ => ⟨r', setRecur_self hzd, hconv, hssm⟩

theorem Restored.congr {acceptLen : ℕ} {d : Cache Row F} (h : Restored snap acceptLen d c' il)
    (hkv : d.kv[il]? = c.kv[il]?) (hrecur : d.recur[il]? = c.recur[il]?) :
    Restored snap acceptLen c c' il := by
  obtain ⟨h1, h2⟩ := h
  rw [hkv] at h1
  rw [hrecur] at h2
  exact ⟨h1, h2⟩

theorem Restored.congr_right {acceptLen : ℕ} {d : Cache Row F} (h : Restored snap acceptLen c d il)
    (hkv : c'.kv[il]? = d.kv[il]?) (hrecur : c'.recur[il]? = d.recur[il]?) :
    Restored snap acceptLen c c' il := by
  obtain ⟨h1, h2⟩ := h
  rw [← hkv] at h1
  rw [← hrecur] at h2
  exact ⟨h1, h2⟩

theorem kv_length_of_shape {d : Cache Row F} (h : d.shape = c.shape) : d.kv.length = c.kv.length := by
  simpa [shape] using congrArg (fun s => s.attn.length) h

/-- **A rollback restores every layer** of a cache of the snapshot's shape. -/
theorem rollback_spec (hs : snap.shape = c.shape) (acceptLen : ℕ) :
    ∃ c', c.rollback snap acceptLen = some c' ∧ c'.shape = c.shape ∧ c'.pos = snap.pos ∧
      ∀ il < c.kv.length, Restored snap acceptLen c c' il := by
  obtain ⟨d, hrun, hshape, -, hdone, -⟩ := Lib.foldlM_range (f := rollbackLayer snap acceptLen)
    (fun i d => d.shape = c.shape ∧ d.pos = c.pos ∧ (∀ j < i, Restored snap acceptLen c d j) ∧
      ∀ j, i ≤ j → d.kv[j]? = c.kv[j]? ∧ d.recur[j]? = c.recur[j]?) (n := c.kv.length) (s := c)
    (by
      rintro i d hi ⟨hshape, hpos, hdone, hrest⟩
      obtain ⟨e, he, hse, hpe, hre, hother⟩ := rollbackLayer_spec acceptLen
        (hs.trans hshape.symm) (by rw [kv_length_of_shape hshape]; exact hi)
      refine ⟨e, he, hse.trans hshape, hpe.trans hpos, fun j hj => ?_, fun j hj => ?_⟩
      · rcases Nat.lt_succ_iff_lt_or_eq.1 hj with hj | rfl
        · obtain ⟨hk, hr⟩ := hother j (by omega)
          exact (hdone j hj).congr_right hk hr
        · obtain ⟨hk, hr⟩ := hrest j (Nat.le_refl _)
          exact hre.congr hk hr
      · obtain ⟨hk, hr⟩ := hother j (by omega)
        obtain ⟨hk', hr'⟩ := hrest j (by omega)
        exact ⟨hk.trans hk', hr.trans hr'⟩)
    ⟨rfl, rfl, by simp, by simp⟩
  refine ⟨{ d with pos := snap.pos }, by simp [rollback, hrun], hshape, rfl, fun il hil => ?_⟩
  exact (hdone il hil).congr_right rfl rfl

/-! ## Runs -/

/-- The K and V rows that a pass appends to layer `il`. -/
def Op.rows (il : ℕ) : Op Row F → List Row × List Row
  | .append il' ks vs _ => if il' = il then (ks, vs) else ([], [])
  | _ => ([], [])

/-- The K rows that the passes append to layer `il`. -/
def appendedK (il : ℕ) (ops : List (Op Row F)) : List Row := ops.flatMap fun op => (op.rows il).1

/-- The V rows that the passes append to layer `il`. -/
def appendedV (il : ℕ) (ops : List (Op Row F)) : List Row := ops.flatMap fun op => (op.rows il).2

/-- `l'` holds the rows of `l` and, from there on, `ks` and `vs`. -/
structure Appended (l : KvLayer Row) (ks vs : List Row) (l' : KvLayer Row) : Prop where
  len : l'.len = l.len + ks.length
  same : vs.length = ks.length
  k : ∀ a ≤ ks.length, l'.k.take (l.len + a) = l.k.take l.len ++ ks.take a
  v : ∀ a ≤ vs.length, l'.v.take (l.len + a) = l.v.take l.len ++ vs.take a

theorem Appended.refl (l : KvLayer Row) : Appended l [] [] l := by
  constructor <;> simp

/-- A write behind the rows of `l` and `xs`. -/
theorem take_write {buf buf' old xs ys : List Row} {n : ℕ}
    (h : ∀ a ≤ xs.length, buf.take (n + a) = old ++ xs.take a)
    (hw : Lib.overwrite buf (n + xs.length) ys = some buf') {a : ℕ} (ha : a ≤ (xs ++ ys).length) :
    buf'.take (n + a) = old ++ (xs ++ ys).take a := by
  rcases Nat.le_total a xs.length with hle | hle
  · rw [Lib.take_overwrite_of_le hw (by omega), h a hle, List.take_append_of_le_length hle]
  · obtain ⟨b, rfl⟩ := Nat.exists_eq_add_of_le hle
    have hb : b ≤ ys.length := by simpa using ha
    rw [← Nat.add_assoc, Lib.take_overwrite_add hw hb, h _ (Nat.le_refl _), List.take_length,
      List.take_length_add_append, List.append_assoc]

theorem Appended.append {l m : KvLayer Row} {ks vs ks' vs' k v : List Row} {lenD : ℤ}
    (h : Appended l ks vs m) (hk : Lib.overwrite m.k m.len ks' = some k)
    (hv : Lib.overwrite m.v m.len vs' = some v) (hl : ks'.length = vs'.length) :
    Appended l (ks ++ ks') (vs ++ vs') { k, v, len := m.len + ks'.length, lenD } := by
  refine ⟨?_, ?_, fun a ha => ?_, fun a ha => ?_⟩
  · simp [h.len, Nat.add_assoc]
  · simp [h.same, hl]
  · exact take_write h.k (by rw [← h.len]; exact hk) ha
  · exact take_write h.v (by rw [h.same, ← h.len]; exact hv) ha

/-- What a pass does to an attention layer and to the shape. -/
theorem apply_spec {op : Op Row F} (h : c.apply op = some c') :
    c'.shape = c.shape ∧
    ∀ il l₀ ks vs m, c.kv[il]? = some (some m) → Appended l₀ ks vs m →
      ∃ m', c'.kv[il]? = some (some m') ∧
        Appended l₀ (ks ++ (op.rows il).1) (vs ++ (op.rows il).2) m' := by
  cases op with
  | append il' ks' vs' lenD =>
    simp only [apply] at h
    split at h
    · next m₀ hm₀ =>
      obtain ⟨k, hk, h⟩ := Option.bind_eq_some_iff.1 h
      obtain ⟨v, hv, h⟩ := Option.bind_eq_some_iff.1 h
      split at h
      · next hl =>
        obtain rfl := Option.some.inj h
        refine ⟨shape_setKv hm₀, fun il l₀ ks vs m hm hap => ?_⟩
        by_cases hil : il' = il
        · subst hil
          obtain rfl : m₀ = m := by simpa [hm₀] using hm
          exact ⟨_, setKv_self hm, by simpa [Op.rows] using hap.append hk hv hl⟩
        · exact ⟨m, by rw [setKv_other _ (Ne.symm hil), hm], by simpa [Op.rows, hil] using hap⟩
      · cases h
    · cases h
  | update il' conv ssm alt =>
    simp only [apply] at h
    split at h
    · next r hr =>
      split at h
      · next hsz =>
        obtain rfl := Option.some.inj h
        exact ⟨shape_setRecur hr hsz.1 hsz.2.1, fun il l₀ ks vs m hm hap =>
          ⟨m, hm, by simpa [Op.rows] using hap⟩⟩
      · cases h
    · cases h
  | moveTo pos =>
    obtain rfl := Option.some.inj h
    exact ⟨rfl, fun il l₀ ks vs m hm hap => ⟨m, hm, by simpa [Op.rows] using hap⟩⟩

theorem run_spec {ops : List (Op Row F)} (h : c.run ops = some c') :
    c'.shape = c.shape ∧
    ∀ il l₀ ks vs m, c.kv[il]? = some (some m) → Appended l₀ ks vs m →
      ∃ m', c'.kv[il]? = some (some m') ∧
        Appended l₀ (ks ++ appendedK il ops) (vs ++ appendedV il ops) m' := by
  induction ops generalizing c with
  | nil =>
    obtain rfl := Option.some.inj h
    exact ⟨rfl, fun il l₀ ks vs m hm hap => ⟨m, hm, by simpa [appendedK, appendedV] using hap⟩⟩
  | cons op ops ih =>
    obtain ⟨d, hd, hrest⟩ := Option.bind_eq_some_iff.1 h
    obtain ⟨hs, hstep⟩ := apply_spec hd
    obtain ⟨hs', hrun⟩ := ih hrest
    refine ⟨hs'.trans hs, fun il l₀ ks vs m hm hap => ?_⟩
    obtain ⟨m₁, hm₁, hap₁⟩ := hstep il l₀ ks vs m hm hap
    obtain ⟨m₂, hm₂, hap₂⟩ := hrun il l₀ _ _ m₁ hm₁ hap₁
    exact ⟨m₂, hm₂, by simpa [appendedK, appendedV] using hap₂⟩

/-- `snap` is a snapshot buffer that `c` keeps: taken from it at some time and refreshed at others, with
passes and rollbacks in between. -/
inductive Held : Cache Row F → CacheSnapshot F → Prop
  | fresh (c : Cache Row F) : Held c c.snapshot
  | refresh {c : Cache Row F} {snap snap' : CacheSnapshot F} : Held c snap →
      c.snapshotInto snap = some snap' → Held c snap'
  | pass {c c' : Cache Row F} {snap : CacheSnapshot F} {op : Op Row F} : Held c snap →
      c.apply op = some c' → Held c' snap
  | back {c c' : Cache Row F} {snap other : CacheSnapshot F} {acceptLen : ℕ} : Held c snap →
      Held c other → c.rollback other acceptLen = some c' → Held c' snap

theorem Held.shape (h : Held c snap) : snap.shape = c.shape := by
  induction h with
  | fresh c => exact shape_snapshot c
  | refresh _ hr ih =>
    rw [snapshotInto_eq ih] at hr
    obtain rfl := Option.some.inj hr
    exact shape_snapshot _
  | pass _ hop ih => exact ih.trans (apply_spec hop).1.symm
  | @back _ _ _ _ acceptLen _ _ hb ih ih' =>
    obtain ⟨d, hd, hs, -⟩ := rollback_spec ih' acceptLen
    obtain rfl := Option.some.inj (hd.symm.trans hb)
    exact ih.trans hs.symm

/-! ## A rollback after a run -/

/-- What a rollback leaves of an attention layer: `l₀` at the snapshot, `l₁` before the rollback, with `ks`
and `vs` appended in between, `l₂` after it. -/
structure RowsKept (l₀ l₁ l₂ : KvLayer Row) (ks vs : List Row) (acceptLen : ℕ) : Prop where
  len : l₂.len = l₀.len + acceptLen
  mirror : l₂.lenD = asI32 l₂.len
  mirror_eq : l₂.len < 2 ^ 31 → l₂.lenD = l₂.len
  buffers : l₂.k = l₁.k ∧ l₂.v = l₁.v
  committed : l₂.k.take l₀.len = l₀.k.take l₀.len ∧ l₂.v.take l₀.len = l₀.v.take l₀.len
  accepted : acceptLen ≤ ks.length →
    l₂.k.take l₂.len = l₀.k.take l₀.len ++ ks.take acceptLen ∧
    l₂.v.take l₂.len = l₀.v.take l₀.len ++ vs.take acceptLen

/-- Every attention layer holds `pos` rows. -/
def InStep (c : Cache Row F) : Prop := ∀ (il : ℕ) (l : KvLayer Row), c.kv[il]? = some (some l) → l.len = c.pos

/-- What a rollback leaves of `c₁`, which came from `c₀`, the cache at the snapshot, by `ops`. -/
structure RolledBack (c₀ : Cache Row F) (ops : List (Op Row F)) (acceptLen : ℕ) (c₁ c₂ : Cache Row F) :
    Prop where
  shape : c₂.shape = c₀.shape
  kv : ∀ (il : ℕ) (l₀ : KvLayer Row), c₀.kv[il]? = some (some l₀) → ∃ l₁ l₂, c₁.kv[il]? = some (some l₁) ∧
    c₂.kv[il]? = some (some l₂) ∧ RowsKept l₀ l₁ l₂ (appendedK il ops) (appendedV il ops) acceptLen
  recur : ∀ (il : ℕ) (r₀ : RecurLayer F), c₀.recur[il]? = some (some r₀) →
    ∃ r₂ : RecurLayer F, c₂.recur[il]? = some (some r₂) ∧ r₂.convState = r₀.convState ∧
    r₂.ssmState = r₀.ssmState
  pos : c₂.pos = c₀.pos
  inStep : c₀.InStep → ∀ (il : ℕ) (l₂ : KvLayer Row), c₂.kv[il]? = some (some l₂) →
    l₂.len = c₂.pos + acceptLen

theorem Appended.rowsKept {l₀ l₁ : KvLayer Row} {ks vs : List Row} (h : Appended l₀ ks vs l₁)
    (acceptLen : ℕ) : RowsKept l₀ l₁ (l₁.setLen (l₀.len + acceptLen)) ks vs acceptLen := by
  refine ⟨by simp, by simp, ?_, by simp, ⟨?_, ?_⟩, fun ha => ⟨?_, ?_⟩⟩
  · intro hlt
    rw [KvLayer.setLen_lenD, KvLayer.setLen_len]
    exact asI32_eq (by simpa using hlt)
  · simpa using h.k 0 (Nat.zero_le _)
  · simpa using h.v 0 (Nat.zero_le _)
  · simpa using h.k acceptLen ha
  · simpa using h.v acceptLen (by rw [h.same]; exact ha)

theorem attn_of_shape {d : Cache Row F} (h : d.shape = c.shape) {l : KvLayer Row}
    (hl : d.kv[il]? = some (some l)) : ∃ l', c.kv[il]? = some (some l') := by
  have := congrArg (fun s => s.attn[il]?) h
  simp only [shape, List.getElem?_map, hl, Option.map_some, Option.isSome_some] at this
  obtain ⟨x, hx, hs⟩ := Option.map_eq_some_iff.1 this.symm
  obtain ⟨l', rfl⟩ := Option.isSome_iff_exists.1 hs
  exact ⟨l', hx⟩

theorem recur_of_shape {d : Cache Row F} (h : d.shape = c.shape) {r : RecurLayer F}
    (hr : d.recur[il]? = some (some r)) : ∃ r', c.recur[il]? = some (some r') := by
  have := congrArg (fun s => s.conv[il]?) h
  simp only [shape, List.getElem?_map, hr, Option.map_some] at this
  obtain ⟨x, hx, hs⟩ := Option.map_eq_some_iff.1 this.symm
  obtain ⟨r', rfl, -⟩ := Option.map_eq_some_iff.1 hs
  exact ⟨r', hx⟩

theorem rolledBack_of_run {c₀ c₁ : Cache Row F} {ops : List (Op Row F)} (h : c₀.run ops = some c₁)
    (acceptLen : ℕ) :
    ∃ c₂, c₁.rollback c₀.snapshot acceptLen = some c₂ ∧ RolledBack c₀ ops acceptLen c₁ c₂ := by
  obtain ⟨hshape, hrows⟩ := run_spec h
  have hsnap : c₀.snapshot.shape = c₁.shape := by rw [hshape, shape_snapshot]
  obtain ⟨c₂, hb, hs, hpos, hdone⟩ := rollback_spec hsnap acceptLen
  have hkv : ∀ il l₀, c₀.kv[il]? = some (some l₀) → ∃ l₁ l₂, c₁.kv[il]? = some (some l₁) ∧
      c₂.kv[il]? = some (some l₂) ∧
      RowsKept l₀ l₁ l₂ (appendedK il ops) (appendedV il ops) acceptLen := by
    intro il l₀ hl₀
    obtain ⟨l₁, hl₁, hap⟩ := hrows il l₀ [] [] l₀ hl₀ (.refl l₀)
    have hil := (List.getElem?_eq_some_iff.1 hl₁).1
    exact ⟨l₁, _, hl₁, (hdone il hil).kv l₁ l₀.len hl₁ (by simp [snapshot, hl₀]),
      hap.rowsKept acceptLen⟩
  refine ⟨c₂, hb, hs.trans hshape, hkv, fun il r₀ hr₀ => ?_, hpos, fun hstep il l₂ hl₂ => ?_⟩
  · obtain ⟨r₁, hr₁⟩ := recur_of_shape hshape.symm hr₀
    have hil : il < c₁.kv.length := by
      have := c₁.layers
      have := (List.getElem?_eq_some_iff.1 hr₁).1
      omega
    obtain ⟨r₂, hr₂, hconv, hssm⟩ := (hdone il hil).recur r₁ hr₁
    simp only [snapshot, List.getElem?_map, hr₀, Option.map_some, Option.some.injEq] at hconv hssm
    exact ⟨r₂, hr₂, hconv.symm, hssm.symm⟩
  · obtain ⟨l₀, hl₀⟩ := attn_of_shape (hs.trans hshape) hl₂
    obtain ⟨l₁, l, -, hl, hkept⟩ := hkv il l₀ hl₀
    obtain rfl : l = l₂ := by simpa [hl] using hl₂
    rw [hkept.len, hstep il l₀ hl₀, hpos]
    rfl

/-- **Snapshot, run, rollback.** The snapshot may be one that the cache keeps and refreshes. -/
theorem rollback_run {c₀ c₁ : Cache Row F} {snap : CacheSnapshot F} {ops : List (Op Row F)}
    (hheld : Held c₀ snap) (hrun : c₀.run ops = some c₁) (acceptLen : ℕ) :
    c₀.snapshotInto snap = some c₀.snapshot ∧
    ∃ c₂, c₁.rollback c₀.snapshot acceptLen = some c₂ ∧ RolledBack c₀ ops acceptLen c₁ c₂ :=
  ⟨snapshotInto_eq hheld.shape, rolledBack_of_run hrun acceptLen⟩

/-- An attention layer with room for two rows and a recurrent layer. -/
def two : Cache Bool Bool :=
  { kv := [some { k := [false, false], v := [false, false], len := 0, lenD := 0 }, none],
    recur := [none, some { convState := [false], ssmState := [false], ssmStateAlt := [true],
                           alt_size := rfl }],
    pos := 0,
    layers := rfl }

theorem rollback_run_two : ∃ c₁, two.run [.append 0 [true] [true] 1, .update 1 [true] [true] [false],
    .moveTo 1] = some c₁ ∧ two.snapshotInto two.snapshot = some two.snapshot ∧
    ∃ c₂, c₁.rollback two.snapshot 0 = some c₂ ∧
      RolledBack two [.append 0 [true] [true] 1, .update 1 [true] [true] [false], .moveTo 1] 0 c₁ c₂ :=
  ⟨_, rfl, rollback_run (.fresh two) rfl 0⟩

/-- With rows accepted the position stays behind the lengths, and the mirror is the length as an `i32`. -/
theorem rollback_ahead : two.InStep ∧
    (∃ c₁ c₂ l, two.run [.append 0 [true] [true] 1, .moveTo 1] = some c₁ ∧
      c₁.rollback two.snapshot 1 = some c₂ ∧ c₂.kv[0]? = some (some l) ∧ l.len ≠ c₂.pos) ∧
    ∃ c₂ l, two.rollback two.snapshot (2 ^ 31) = some c₂ ∧ c₂.kv[0]? = some (some l) ∧
      l.lenD ≠ l.len := by
  refine ⟨?_, ⟨_, _, _, rfl, rfl, rfl, by decide⟩, ⟨_, _, rfl, rfl, by decide⟩⟩
  rintro (_ | _ | il) l hl
  · obtain rfl := Option.some.inj (Option.some.inj hl)
    rfl
  · cases hl
  · cases hl

end Cache

end Kv

end Memra
