import Memra.Gguf.Proof.RepackOpen

/-!
# How an overlay resolves names

`find` is `Layers.ask` over the manifests of the chain (`find_eq`), so a name goes to the outermost
manifest that lists it unless one further out hides it, and a manifest that overrides an expert of a stack
hides the stack (`hides_of_overrides`). What a manifest shows of an entry is right exactly when the entry is
plain (`view_shows_iff`). The native requests are answered by no manifest, and a mask is that of the source
asked.
-/

namespace Memra

open Lib Lib.PathText

namespace Repack

/-! ## BF16 vectors -/

theorem bf16ToF32_toNat (lo hi : UInt8) : (bf16ToF32 (rdU16 lo hi)).toNat = leNat [0, 0, lo, hi] := by
  have hlo := lo.toNat_lt
  have hhi := hi.toNat_lt
  have h16 : (16 : UInt32).toNat % 32 = 16 := rfl
  have hval : leNat [lo, hi] = lo.toNat + 256 * hi.toNat := by simp [leNat]
  have hlt : leNat [lo, hi] < 2 ^ 16 := by omega
  have hlt' : leNat [lo, hi] * 2 ^ 16 < 2 ^ 32 := by omega
  unfold bf16ToF32 rdU16
  rw [UInt32.toNat_shiftLeft, UInt16.toNat_toUInt32, UInt16.toNat_ofNat', Nat.mod_eq_of_lt hlt, h16,
    Nat.shiftLeft_eq, Nat.mod_eq_of_lt hlt']
  simp only [leNat, UInt8.toNat_zero]
  omega

theorem toLeBytes_bf16 (lo hi : UInt8) : toLeBytes (bf16ToF32 (rdU16 lo hi)) = [0, 0, lo, hi] := by
  unfold toLeBytes
  rw [bf16ToF32_toNat]
  exact leBytes_leNat [0, 0, lo, hi]

namespace Widened
variable {bs ws : List UInt8}

theorem length (h : Widened bs ws) : ws.length = 2 * bs.length := by
  induction h with
  | nil => rfl
  | cons _ ih =>
    simp only [List.length_cons, ih]
    omega

theorem concat (h : Widened bs ws) (lo hi : UInt8) :
    Widened (bs ++ [lo, hi]) (ws ++ [0, 0, lo, hi]) := by
  induction h with
  | nil => exact .cons .nil
  | cons _ ih => exact .cons ih

end Widened

section
variable {raw : List UInt8} {n : ℕ}

theorem index_of_lt {i : ℕ} (h : i < raw.length) : (Cursor.index raw i : Res UInt8) = .ok raw[i] := by
  unfold Cursor.index
  rw [List.getElem?_eq_getElem h]

theorem lt_of_index {i : ℕ} {c : UInt8} (h : (Cursor.index raw i : Res UInt8) = .ok c) :
    i < raw.length := by
  by_contra hge
  unfold Cursor.index at h
  rw [List.getElem?_eq_none (Nat.le_of_not_lt hge)] at h
  cases h

/-- The last element, after those before it. -/
theorem dequantizeBf16_succ (raw : List UInt8) (n : ℕ) :
    dequantizeBf16 raw (n + 1) = (do
      let vals ← dequantizeBf16 raw n
      let lo ← Cursor.index raw (n * 2)
      let hi ← Cursor.index raw (n * 2 + 1)
      pure (vals ++ [bf16ToF32 (rdU16 lo hi)])) := by
  unfold dequantizeBf16
  rw [List.range_succ, List.mapM_append]
  simp

theorem dequantizeBf16_ok (h : 2 * n ≤ raw.length) :
    ∃ vals, dequantizeBf16 raw n = .ok vals ∧ Widened (raw.take (2 * n)) (vals.flatMap toLeBytes) := by
  induction n with
  | zero => exact ⟨[], rfl, .nil⟩
  | succ n ih =>
    obtain ⟨vals, hvals, hwide⟩ := ih (by omega)
    have hlo : n * 2 < raw.length := by omega
    have hhi : n * 2 + 1 < raw.length := by omega
    refine ⟨vals ++ [bf16ToF32 (rdU16 raw[n * 2] raw[n * 2 + 1])], ?_, ?_⟩
    · rw [dequantizeBf16_succ, hvals, index_of_lt hlo, index_of_lt hhi]
      rfl
    · have htake : raw.take (2 * (n + 1)) = raw.take (2 * n) ++ [raw[n * 2], raw[n * 2 + 1]] := by
        have h2 : 2 * (n + 1) = n * 2 + 1 + 1 := by omega
        rw [h2, List.take_succ_eq_append_getElem hhi, List.take_succ_eq_append_getElem hlo,
          List.append_assoc, Nat.mul_comm 2 n]
        rfl
      rw [htake, List.flatMap_append, List.flatMap_singleton, toLeBytes_bf16]
      exact hwide.concat _ _

theorem le_of_dequantizeBf16 {vals : List UInt32} (h : dequantizeBf16 raw n = .ok vals) :
    2 * n ≤ raw.length := by
  cases n with
  | zero => exact Nat.zero_le _
  | succ n =>
    rw [dequantizeBf16_succ] at h
    obtain ⟨_, -, h⟩ := bind_ok h
    obtain ⟨_, -, h⟩ := bind_ok h
    obtain ⟨_, hhi, -⟩ := bind_ok h
    have := lt_of_index hhi
    omega

end

/-! ## The view of an entry -/

section
variable {m : Manifest} {t : RepackTensor} {file : Mapping}

theorem add_toNat {a b : UInt64} (h : a.toNat + b.toNat < 2 ^ 64) : (a + b).toNat = a.toNat + b.toNat := by
  rw [UInt64.toNat_add, Nat.mod_eq_of_lt h]

/-- A sum that wraps around ends before it begins. -/
theorem add_toNat_lt {a b : UInt64} (h : 2 ^ 64 ≤ a.toNat + b.toNat) : (a + b).toNat < a.toNat := by
  have ha := a.toNat_lt
  have hb := b.toNat_lt
  rw [UInt64.toNat_add]
  omega

/-- The elements of a vector. -/
theorem product_singleton (n : UInt64) : [n].foldl (· * ·) 1 = n := by simp

theorem exists_ne (h : t.IsBf16Vector) : ∃ n, t.ne = [n] := List.length_eq_one_iff.1 h.2

theorem extent_length {bs : List UInt8} (h : Extent m t bs) : bs.length = t.bytes.toNat := by
  obtain ⟨file, -, hle, rfl⟩ := h
  rw [List.length_take, List.length_drop]
  omega

theorem view_bytes (hfile : m.files.lookup (components t.file) = some file)
    (hle : t.offset.toNat + t.bytes.toNat ≤ file.bytes.length) :
    ∃ bs, Extent m t bs ∧ m.view t =
      if t.ggmlType = .BF16 ∧ t.ne.length = 1 then
        (do let vals ← dequantizeBf16 bs (t.ne.foldl (· * ·) 1).toNat
            pure (some ⟨vals.flatMap toLeBytes, .F32, t.ne⟩))
      else pure (some ⟨bs, t.ggmlType, t.ne⟩) := by
  have hshort := file.short
  have hsum := add_toNat (a := t.offset) (b := t.bytes) (by omega)
  refine ⟨_, ⟨file, hfile, hle, rfl⟩, ?_⟩
  unfold Manifest.view
  rw [hfile]
  simp only
  unfold Cursor.slice
  rw [hsum, if_pos ⟨Nat.le_add_right _ _, hle⟩, List.drop_take, Nat.add_sub_cancel_left]
  rfl

/-- Of a checked entry the view is right exactly when the entry is plain. -/
theorem view_shows_iff (hfile : m.files.lookup (components t.file) = some file)
    (hle : (t.offset + t.bytes).toNat ≤ file.bytes.length) :
    (∃ v, m.view t = .ok (some v) ∧ Shows m t v) ↔ t.Plain := by
  rcases Nat.lt_or_ge (t.offset.toNat + t.bytes.toNat) (2 ^ 64) with hsum | hsum
  · rw [add_toNat hsum] at hle
    obtain ⟨bs, hext, hview⟩ := view_bytes hfile hle
    have hlen := extent_length hext
    rw [hview]
    by_cases hvec : t.IsBf16Vector
    · obtain ⟨n, hn⟩ := exists_ne hvec
      have hcond : t.ggmlType = .BF16 ∧ t.ne.length = 1 := hvec
      rw [if_pos hcond, hn, product_singleton]
      constructor
      · rintro ⟨v, hv, hshows⟩
        refine ⟨hsum, fun _ n' hn' => ?_⟩
        obtain rfl : n = n' := List.singleton_inj.1 (hn.symm.trans hn')
        obtain ⟨vals, hvals, hv⟩ := bind_ok hv
        obtain rfl := Option.some.inj (Except.ok.inj hv)
        have h2n := le_of_dequantizeBf16 hvals
        obtain ⟨vals', hvals', hwide'⟩ := dequantizeBf16_ok h2n
        obtain rfl : vals = vals' := Except.ok.inj (hvals.symm.trans hvals')
        -- both vectors have the same F32 numbers, so as many BF16 numbers
        obtain ⟨bs', hext', hwide, -⟩ := hshows.bytes
        have hlen' := (hwide hvec).2.length.symm.trans hwide'.length
        rw [extent_length hext', List.length_take] at hlen'
        omega
      · rintro ⟨-, hbytes⟩
        have hn2 := hbytes hvec n hn
        have h2n : 2 * n.toNat ≤ bs.length := by omega
        obtain ⟨vals, hvals, hwide⟩ := dequantizeBf16_ok h2n
        refine ⟨⟨vals.flatMap toLeBytes, .F32, [n]⟩, ?_, hn.symm, bs, hext, fun _ => ⟨rfl, ?_⟩,
          fun hnot => absurd hvec hnot⟩
        · rw [hvals]
          rfl
        · rwa [List.take_of_length_le (by omega)] at hwide
    · have hcond : ¬ (t.ggmlType = .BF16 ∧ t.ne.length = 1) := hvec
      rw [if_neg hcond]
      refine ⟨fun _ => ⟨hsum, fun h => absurd h hvec⟩, fun _ => ?_⟩
      exact ⟨_, rfl, rfl, bs, hext, fun h => absurd h hvec, fun _ => ⟨rfl, rfl⟩⟩
  · constructor
    · rintro ⟨v, hv, -⟩
      unfold Manifest.view at hv
      rw [hfile] at hv
      obtain ⟨raw, hraw, -⟩ := bind_ok hv
      unfold Cursor.slice at hraw
      rw [if_neg fun h => Nat.not_le_of_lt (add_toNat_lt hsum) h.1] at hraw
      cases hraw
    · rintro ⟨hlt, -⟩
      omega

end

/-! ## The chain -/

section
variable {m : Manifest} {name : List Char}

/-- An expert of the stack hides it. -/
theorem hides_of_overrides (h : m.Overrides name) : m.hides name = true := by
  obtain ⟨stem, expert, t, rfl, hprefix, hlisted⟩ := h
  have hsplit : stem ++ "_exps.weight".toList = (stem ++ "_exps".toList) ++ ".weight".toList := by
    rw [List.append_assoc]
    rfl
  have hdot : (stem ++ "_exps".toList) ++ ['.'] = stem ++ "_exps.".toList := by
    rw [List.append_assoc]
    rfl
  have hinfix : "_exps.weight".toList <:+: stem ++ "_exps.weight".toList := (List.suffix_append _ _).isInfix
  obtain ⟨e, he, hpre⟩ := (firstFrom_starts m.tensors _).2 ⟨expert, t, hlisted, hprefix⟩
  unfold Manifest.hides
  rw [decide_eq_true hinfix, Bool.true_and, hsplit, dropSuffix?_append]
  simp only
  rw [hdot, he]
  exact List.isPrefixOf_iff_prefix.2 hpre

end

section
variable {S N F : Type} {ts : TensorSource S N F} {src : Hy3RepackSource S} {name : List Char}

theorem manifest_find_eq (m : Manifest) (name : List Char) (ms : List Manifest)
    (base : Res (Option TensorView)) :
    m.find name (Layers.ask (Manifest.entry name) (·.hides name) (.ok none) Manifest.view base ms) =
      Layers.ask (Manifest.entry name) (·.hides name) (.ok none) Manifest.view base (m :: ms) := by
  unfold Manifest.find
  rw [Layers.ask]
  unfold Manifest.entry
  cases m.tensors.lookup name <;> rfl

/-- `find` asks the manifests, the outermost first, and then the end of the chain. -/
theorem find_ask (src : Hy3RepackSource S) (name : List Char) :
    src.find ts name = Layers.ask (Manifest.entry name) (·.hides name) (.ok none) Manifest.view
      (src.base.elim (.ok none) fun s => ts.find s name) src.levels := by
  induction src with
  | complete m => exact manifest_find_eq m name [] (.ok none)
  | overSafetensors m source => exact manifest_find_eq m name [] (ts.find source name)
  | overRepack m source ih =>
    rw [Hy3RepackSource.find, ih]
    exact manifest_find_eq m name source.levels _

theorem find_eq (ts : TensorSource S N F) (src : Hy3RepackSource S) (name : List Char) :
    src.find ts name =
      if ∃ m ∈ src.outside name, m.hides name = true then .ok none
      else (src.provider name).elim (src.base.elim (.ok none) fun s => ts.find s name)
        fun e => e.1.view e.2 := by
  rw [find_ask, Layers.ask_eq]
  rfl

/-- A name that a manifest lists has no native answer. -/
theorem native_listed {α : Type} (m : Manifest) (name : List Char) (ms : List Manifest) (fallback : Res (Option α))
    (hrest : (Layers.first (Manifest.entry name) ms).isSome → fallback = .ok none)
    (h : (Layers.first (Manifest.entry name) (m :: ms)).isSome) : m.findNative name fallback = .ok none := by
  unfold Manifest.findNative
  cases hm : m.tensors.lookup name with
  | some t => rfl
  | none =>
    have hentry : Manifest.entry name m = none := hm
    rw [Layers.first_cons_of_none hentry] at h
    exact hrest h

theorem nativeResolves (src : Hy3RepackSource S) (name : List Char) : src.NativeResolves ts name := by
  induction src with
  | complete m =>
    intro h
    exact ⟨native_listed m name [] _ (fun _ => rfl) h, native_listed m name [] _ (fun _ => rfl) h⟩
  | overSafetensors m source =>
    intro h
    exact ⟨native_listed m name [] _ (fun hnil => by cases hnil) h,
      native_listed m name [] _ (fun hnil => by cases hnil) h⟩
  | overRepack m source ih =>
    intro h
    exact ⟨native_listed m name source.levels _ (fun hrest => (ih hrest).1) h,
      native_listed m name source.levels _ (fun hrest => (ih hrest).2) h⟩

/-- Of a chain that is checked, `find` is right about a name exactly when the name is plain. -/
theorem resolves_iff (hchecked : ∀ m ∈ src.levels, Checked m) :
    src.Resolves ts name ↔ src.FindPlain ts name := by
  have heq := find_eq ts src name
  by_cases hhidden : src.Hidden name
  · obtain ⟨m, hm, hover⟩ := hhidden
    rw [if_pos ⟨m, hm, hides_of_overrides hover⟩] at heq
    exact ⟨fun _ => .inl ⟨m, hm, hover⟩, fun _ => ⟨fun _ => heq,
      fun _ _ hnot => absurd ⟨m, hm, hover⟩ hnot, fun hnot => absurd ⟨m, hm, hover⟩ hnot⟩⟩
  · -- without an override the code hides the name only by mistake
    have hclear : src.Unobstructed name → src.find ts name =
        (src.provider name).elim (src.base.elim (.ok none) fun s => ts.find s name) fun e =>
          e.1.view e.2 := by
      intro hclear
      rw [heq, if_neg]
      rintro ⟨m, hm, hhides⟩
      exact hhidden ⟨m, hm, hclear m hm hhides⟩
    have hstop : ¬ src.Unobstructed name → src.find ts name = .ok none := by
      intro hnot
      unfold Hy3RepackSource.Unobstructed at hnot
      push Not at hnot
      obtain ⟨m, hm, hhides, -⟩ := hnot
      rw [heq, if_pos ⟨m, hm, hhides⟩]
    cases hprov : src.provider name with
    | some e =>
      obtain ⟨m, t⟩ := e
      obtain ⟨hm, ht⟩ := Layers.mem_of_first hprov
      obtain ⟨file, hfile, hle⟩ := hchecked m hm name t ht
      have hshows := view_shows_iff hfile hle
      rw [hprov] at hclear
      constructor
      · intro hres
        obtain ⟨v, hv, hshow⟩ := hres.listed m t hhidden hprov
        by_cases hun : src.Unobstructed name
        · exact .inr (.inl ⟨m, t, hprov, hun, hshows.1 ⟨v, (hclear hun).symm.trans hv, hshow⟩⟩)
        · rw [hstop hun] at hv
          cases hv
      · rintro (hhid | ⟨m', t', hprov', hun, hplain⟩ | ⟨hnone, -⟩)
        · exact absurd hhid hhidden
        · obtain ⟨rfl, rfl⟩ := Prod.mk.inj (Option.some.inj (hprov.symm.trans hprov'))
          refine ⟨fun hhid => absurd hhid hhidden, fun m' t' _ hprov' => ?_, fun _ hnone => ?_⟩
          · obtain ⟨rfl, rfl⟩ := Prod.mk.inj (Option.some.inj (hprov.symm.trans hprov'))
            obtain ⟨v, hv, hshow⟩ := hshows.2 hplain
            exact ⟨v, (hclear hun).trans hv, hshow⟩
          · rw [hprov] at hnone
            cases hnone
        · rw [hprov] at hnone
          cases hnone
    | none =>
      rw [hprov] at hclear
      have hleft : src.Resolves ts name ↔
          src.find ts name = src.base.elim (.ok none) fun s => ts.find s name :=
        ⟨fun hres => hres.left hhidden hprov, fun h => ⟨fun hhid => absurd hhid hhidden,
          fun m t _ hsome => (by rw [hprov] at hsome; cases hsome), fun _ _ => h⟩⟩
      rw [hleft]
      by_cases hun : src.Unobstructed name
      · exact ⟨fun _ => .inr (.inr ⟨hprov, .inl hun⟩), fun _ => hclear hun⟩
      · rw [hstop hun]
        cases hbase : src.base with
        | none => exact ⟨fun _ => .inr (.inr ⟨hprov, .inr fun s hs => by rw [hbase] at hs; cases hs⟩),
            fun _ => rfl⟩
        | some s =>
          constructor
          · intro h
            refine .inr (.inr ⟨hprov, .inr fun s' hs' => ?_⟩)
            obtain rfl := Option.some.inj (hbase.symm.trans hs')
            exact h.symm
          · rintro (hhid | ⟨m, t, hsome, -⟩ | ⟨-, hbad | hnone⟩)
            · exact absurd hhid hhidden
            · rw [hprov] at hsome
              cases hsome
            · exact absurd hbad hun
            · exact (hnone s hbase).symm

/-! ## Masks -/

theorem levels_eq (src : Hy3RepackSource S) : ∃ rest, src.levels = src.own :: rest := by
  cases src with
  | complete m => exact ⟨[], rfl⟩
  | overSafetensors m _ => exact ⟨[], rfl⟩
  | overRepack m source => exact ⟨source.levels, rfl⟩

theorem maskResolves_iff (src : Hy3RepackSource S) (layer : ℕ) :
    src.MaskResolves layer ↔ src.MaskPlain layer := by
  unfold Hy3RepackSource.MaskResolves Hy3RepackSource.MaskPlain Hy3RepackSource.activeExperts
  obtain ⟨rest, hlevels⟩ := levels_eq src
  rw [hlevels]
  cases hown : src.own.mask layer with
  | some mask =>
    rw [Layers.first_cons_of_some hown]
    exact ⟨fun _ => .inl rfl, fun _ => rfl⟩
  | none =>
    rw [Layers.first_cons_of_none hown]
    constructor
    · intro h
      refine .inr (List.forall_mem_cons.2 ⟨hown, ?_⟩)
      exact Layers.first_eq_none.1 (Option.map_eq_none_iff.1 h.symm)
    · rintro (hsome | hall)
      · cases hsome
      · rw [Layers.first_eq_none.2 (List.forall_mem_cons.1 hall).2]
        rfl

theorem masksSuffice {d : Disk S} {path : List Char} (h : Opened d path src.own) : src.MasksSuffice :=
  fun layer mask hmask => by
    obtain ⟨moe, hmoe, hlen, hcount⟩ := h.masks layer mask hmask
    exact ⟨moe, hmoe, hlen, hcount⟩

/-! ## Extents and paths -/

section
variable {d : Disk S} {path : List Char}

theorem extentsInside_iff (h : Opened d path src.own) :
    src.ExtentsInside d path ↔ Hy3RepackSource.ExtentsPlain d path := by
  constructor
  · intro hinside name t ht
    obtain ⟨file, -, -, -, -, -, -, hle⟩ := hinside name t ht
    exact Nat.lt_of_le_of_lt hle file.short
  · intro hplain name t ht
    obtain ⟨file, hfile, hle⟩ := h.checked name t ((h.tensors name t).2 ht)
    obtain ⟨name', t', ht', hsame, hmap⟩ := h.mapped _ file hfile
    rw [add_toNat (hplain name t ht)] at hle
    exact ⟨file, name', t', ht', hsame, hmap, hfile, hle⟩

theorem pathsBelow (d : Disk S) (path : List Char) : Hy3RepackSource.PathsBelow d path := by
  rintro name t ⟨txt, top, tensors, raw, -, -, -, -, hread⟩
  obtain ⟨hne, hdown⟩ := readTensor_ok hread
  exact ⟨components t.file, components_ne_nil hne, hdown, components_join hdown⟩

end

/-! ## The whole -/

/-- Of a chain that `open` has opened: names, masks and extents are right exactly where the chain is plain,
and the native requests, the size of the masks and the paths always are. -/
theorem overlay_correct {d : Disk S} {fuel : ℕ} {path : List Char}
    (h : openPath ts.config d fuel path = .ok src) :
    (src.Correct ts d path ↔ src.Plain ts d path) ∧
      (∀ name, src.Resolves ts name ↔ src.FindPlain ts name) ∧
      (∀ layer, src.MaskResolves layer ↔ src.MaskPlain layer) ∧
      (src.ExtentsInside d path ↔ Hy3RepackSource.ExtentsPlain d path) ∧
      (∀ name, src.NativeResolves ts name) ∧ src.MasksSuffice ∧ Hy3RepackSource.PathsBelow d path := by
  have hopened := openPath_opened h
  have hfind : ∀ name, src.Resolves ts name ↔ src.FindPlain ts name := fun name =>
    resolves_iff (levels_checked h)
  have hmask : ∀ layer, src.MaskResolves layer ↔ src.MaskPlain layer := maskResolves_iff src
  have hinside := extentsInside_iff hopened
  refine ⟨⟨fun hc => ?_, fun hp => ?_⟩, hfind, hmask, hinside, nativeResolves src, masksSuffice hopened,
    pathsBelow d path⟩
  · exact ⟨fun name => (hfind name).1 (hc.resolves name), fun layer => (hmask layer).1 (hc.mask layer),
      hinside.1 hc.inside⟩
  · exact ⟨fun name => (hfind name).2 (hp.find name), nativeResolves src,
      fun layer => (hmask layer).2 (hp.mask layer), masksSuffice hopened, hinside.2 hp.extents,
      pathsBelow d path⟩

end

/-- An overlay in `/o` over a repack in `/b` whose manifest prunes an expert of the layer 0. -/
def prunedBase : Disk Unit where
  isDir p := p = "/o".toList || p = "/b".toList
  present p := p = "/b/manifest.json".toList
  readToString p :=
    if p = "/o/manifest.json".toList then
      some "\x7b\"format\":\"memra-expert-overlay-v2\",\"source_dir\":\"/b\",\"tensors\":\x7b\x7d\x7d".toList
    else if p = "/b/manifest.json".toList then
      some "\x7b\"tensors\":\x7b\x7d,\"pruned_experts\":\x7b\"0\":[1]\x7d\x7d".toList
    else none
  mapFile _ := none
  fromConfigJson _ := .ok ⟨some ⟨3, 2⟩⟩
  openSafetensors _ := .error (.err .io)
  parseF64 _ := none

/-- A safetensors model without tensors. -/
def noTensors : TensorSource Unit Unit Unit where
  config _ := ⟨none⟩
  find _ _ := .ok none
  findNvfp4Native _ _ := .ok none
  findFp8Native _ _ := .ok none

theorem prunedBase_opens : ∃ src, openPath noTensors.config prunedBase 2 "/o".toList = .ok src ∧
    src.levels.map (Manifest.mask 0) = [none, some [true, false, true]] := by
  have hmasks : (openPath noTensors.config prunedBase 2 "/o".toList).toOption.map
      (fun src => src.levels.map (Manifest.mask 0)) = some [none, some [true, false, true]] := by
    decide +kernel
  cases hopen : openPath noTensors.config prunedBase 2 "/o".toList with
  | error e =>
    rw [hopen] at hmasks
    cases hmasks
  | ok src =>
    rw [hopen] at hmasks
    exact ⟨src, rfl, Option.some.inj hmasks⟩

theorem overlay_correct_prunedBase :
    ∃ src, openPath noTensors.config prunedBase 2 "/o".toList = .ok src ∧
      (src.Correct noTensors prunedBase "/o".toList ↔ src.Plain noTensors prunedBase "/o".toList) := by
  obtain ⟨src, hopen, -⟩ := prunedBase_opens
  exact ⟨src, hopen, (overlay_correct hopen).1⟩

/-- The overlay does not know which expert its base is without. -/
theorem overlay_loses_mask :
    ∃ src, openPath noTensors.config prunedBase 2 "/o".toList = .ok src ∧
      ¬ src.Correct noTensors prunedBase "/o".toList := by
  obtain ⟨src, hopen, hmasks⟩ := prunedBase_opens
  refine ⟨src, hopen, fun hcorrect => ?_⟩
  rcases (maskResolves_iff src 0).1 (hcorrect.mask 0) with hown | hnone
  · obtain ⟨rest, hlevels⟩ := levels_eq src
    rw [hlevels, List.map_cons] at hmasks
    rw [(List.cons.inj hmasks).1] at hown
    cases hown
  · have hmem : some [true, false, true] ∈ src.levels.map (Manifest.mask 0) := by
      rw [hmasks]
      simp
    obtain ⟨m, hm, hmask⟩ := List.mem_map.1 hmem
    rw [hnone m hm] at hmask
    cases hmask

end Repack

end Memra
