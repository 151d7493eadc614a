import Memra.Gguf.Proof.Open

/-!
# Which files are opened without a panic

`p.checked` is the build in which an overflow is a panic. What that build reads, every build reads
(`reads_of_checked`), so that a model is opened without a panic or an overflow, and its tensors are
read from their files, exactly where all its files are of the format and every tensor ends in its file
(`robust_iff`).
-/

namespace Memra

open Lib

variable {p : Platform} {fs : FilePath → Option (List UInt8)} {path : FilePath}

/-- The build with overflow checks. -/
def Platform.checked (p : Platform) : Platform := { p with overflowChecks := true }

/-! ## Numbers without overflow -/

theorem u64Of_checked {x y : ℕ} : u64Of p.checked x = some y ↔ y = x ∧ x < 2 ^ 64 := by
  unfold u64Of Platform.checked
  constructor
  · intro h
    split at h
    · rename_i hlt
      cases h
      exact ⟨rfl, hlt⟩
    · cases h
  · intro ⟨hy, hlt⟩
    rw [if_pos hlt, hy]

theorem productU64_checked {ne : List ℕ} {n : ℕ} (h : productU64 p.checked ne = some n) :
    n = ne.prod ∧ productU64 p ne = some n := by
  have hfold : ∀ (ne : List ℕ) (acc : ℕ),
      ne.foldlM (fun acc x => u64Of p.checked (acc * x)) acc = some n →
      n = acc * ne.prod ∧ ne.foldlM (fun acc x => u64Of p (acc * x)) acc = some n := by
    intro ne
    induction ne with
    | nil =>
      intro acc h
      cases h
      exact ⟨by simp, rfl⟩
    | cons x ne ih =>
      intro acc h
      rw [List.foldlM_cons] at h ⊢
      obtain ⟨y, hy, h⟩ := Option.bind_eq_some_iff.1 h
      obtain ⟨hyx, hlt⟩ := u64Of_checked.1 hy
      subst hyx
      obtain ⟨hn, hrun⟩ := ih _ h
      refine ⟨by rw [hn, List.prod_cons, mul_assoc], ?_⟩
      rw [u64Of_of_lt hlt]
      exact hrun
  obtain ⟨hn, hrun⟩ := hfold ne 1 h
  exact ⟨by rwa [one_mul] at hn, hrun⟩

/-- Without overflow, `n_bytes` is the size of the type and the dimensions. -/
theorem tensorBytes_checked {ne : List ℕ} {ty : GgmlType} {n : ℕ}
    (h : tensorBytes p.checked ne ty = some n) :
    tensorBytes p ne ty = some n ∧ ∃ blck tsize, ty.blockAndTypeSize = some (blck, tsize) ∧
      blck ∣ ne.prod ∧ n = ne.prod / blck * tsize := by
  unfold tensorBytes at h ⊢
  obtain ⟨nElems, helems, h⟩ := Option.bind_eq_some_iff.1 h
  obtain ⟨⟨blck, tsize⟩, hsize, h⟩ := Option.bind_eq_some_iff.1 h
  obtain ⟨_, hdvd, h⟩ := Option.bind_eq_some_iff.1 h
  obtain ⟨hprod, hrun⟩ := productU64_checked helems
  obtain ⟨hn, hlt⟩ := u64Of_checked.1 h
  subst hprod
  have hmod : ne.prod % blck = 0 := by
    unfold ensure at hdvd
    split at hdvd
    · assumption
    · cases hdvd
  refine ⟨?_, blck, tsize, hsize, Nat.dvd_of_mod_eq_zero hmod, hn⟩
  simp only [hrun, hsize, hdvd, Option.bind_eq_bind, Option.bind_some]
  rw [u64Of_of_lt hlt, hn]

/-! ## What the checked build reads -/

theorem values_of_checked {depth typeId : ℕ} {bs : List UInt8} {vs : List MetaValue}
    (h : Values p.checked depth typeId bs vs) : Values p depth typeId bs vs := by
  induction h with
  | nil => exact .nil _ _
  | scalar htype hx _ ih => exact .scalar htype hx ih
  | string hs _ ih => exact .string hs ih
  | array htype hlen hcap _ _ ihe ih => exact .array htype hlen hcap ihe ih

theorem layout_of_checked {buf : List UInt8} {kvs : List (List UInt8 × MetaValue)}
    {tensors : List TensorInfo} {headerEnd : ℕ} (h : Layout p.checked buf kvs tensors headerEnd) :
    Layout p buf kvs tensors headerEnd := by
  obtain ⟨depth, bs, data, ⟨nTensors, nKv, kvb, infos, hnt, hnk, hkvs, hklen, hcap, htensors, htlen,
    hbs⟩, hbuf⟩ := h
  refine ⟨depth, bs, data, ⟨nTensors, nKv, kvb, infos, hnt, hnk, ?_, hklen, hcap, ?_, htlen, hbs⟩,
    hbuf⟩
  · apply hkvs.imp
    intro bs kv ⟨key, typeId, val, hkey, htype, hval, hkv⟩
    exact ⟨key, typeId, val, hkey, htype, values_of_checked hval, hkv⟩
  · apply htensors.imp
    intro bs t ⟨name, hname, hdims, hne, hoff, hbytes, ht⟩
    exact ⟨name, hname, hdims, hne, hoff, (tensorBytes_checked hbytes).1, ht⟩

theorem reads_of_checked {f : ParsedFile} (h : Reads p.checked fs path f) : Reads p fs path f := by
  obtain ⟨buf, kvs, tensors, headerEnd, hbuf, hle, hlayout, hfile⟩ := h
  exact ⟨buf, kvs, tensors, headerEnd, hbuf, hle, layout_of_checked hlayout, hfile⟩

theorem siblings_of_checked {count i : ℕ} {paths : List FilePath} {o : Option (List ParsedFile)}
    (h : Siblings p.checked fs count i paths o) : Siblings p fs count i paths o := by
  induction h with
  | done i => exact .done i
  | refused h => exact .refused h
  | next hread hno hcount _ ih => exact .next (reads_of_checked hread) hno hcount ih

theorem opens_of_checked {o : Option (List ParsedFile)} (h : Opens p.checked fs path o) :
    Opens p fs path o := by
  cases h with
  | refused h => exact .refused h
  | single hread hcount => exact .single (reads_of_checked hread) hcount
  | noName hread hcount hname => exact .noName (reads_of_checked hread) hcount hname
  | split hread hcount hname hfits hsiblings htotal =>
    exact .split (reads_of_checked hread) hcount hname hfits (siblings_of_checked hsiblings) htotal

/-! ## Ranges -/

/-- Every tensor ends in its file. -/
def ParsedFile.InRange (f : ParsedFile) : Prop :=
  ∀ t ∈ f.tensors, f.shard.dataStart + t.offset + t.nBytes ≤ f.shard.mmap.length

theorem Reads.mmap_lt {f : ParsedFile} (h : Reads p fs path f) : f.shard.mmap.length < 2 ^ 63 := by
  obtain ⟨buf, _, _, _, _, hle, _, _, hf⟩ := h
  rw [hf]
  exact Nat.lt_of_le_of_lt hle p.maxMap_lt

/-- A tensor read without overflow has the size of its type and its dimensions. -/
theorem Reads.nBytes {f : ParsedFile} (h : Reads p.checked fs path f) {t : TensorInfo}
    (ht : t ∈ f.tensors) : ∃ blck tsize, t.ggmlType.blockAndTypeSize = some (blck, tsize) ∧
      blck ∣ t.ne.prod ∧ t.nBytes = t.ne.prod / blck * tsize := by
  obtain ⟨_, _, _, _, _, _, hlayout, _, hf⟩ := h
  subst hf
  obtain ⟨_, _, _, _, _, _, hbytes, _⟩ := hlayout.tensorEntry ht
  exact (tensorBytes_checked hbytes).2

theorem mem_numberTensors {files : List ParsedFile} {t : TensorInfo} :
    t ∈ numberTensors files ↔ ∃ (i : ℕ) (f : ParsedFile) (u : TensorInfo), files[i]? = some f ∧
      u ∈ f.tensors ∧ t = { u with shard := i } := by
  unfold numberTensors
  rw [List.mem_flatten]
  constructor
  · intro ⟨ts, hts, ht⟩
    obtain ⟨⟨f, i⟩, hf, rfl⟩ := List.mem_map.1 hts
    obtain ⟨u, hu, rfl⟩ := List.mem_map.1 ht
    exact ⟨i, f, u, List.mem_zipIdx_iff_getElem?.1 hf, hu, rfl⟩
  · intro ⟨i, f, u, hf, hu, ht⟩
    subst ht
    exact ⟨f.tensors.map fun t => { t with shard := i },
      List.mem_map.2 ⟨(f, i), List.mem_zipIdx_iff_getElem?.2 hf, rfl⟩, List.mem_map.2 ⟨u, hu, rfl⟩⟩

theorem mergedFile_shard {head f : ParsedFile} {files : List ParsedFile} {i : ℕ}
    (h : files[i]? = some f) : (mergedFile head files).shards[i]? = some f.shard := by
  change (files.map ParsedFile.shard)[i]? = _
  rw [List.getElem?_map, h]
  rfl

/-! ## Robustness -/

/-- The model is opened, or there is an error: nothing panics and nothing overflows, and every tensor
is read from its own file, as many bytes as its type and its dimensions say. -/
def Robust (p : Platform) (fs : FilePath → Option (List UInt8)) (path : FilePath) : Prop :=
  openGguf p.checked fs path ≠ .error .fault ∧
    ∀ g, openGguf p fs path = .ok g → ∀ t ∈ g.tensors, ∃ sh blck tsize,
      g.shards[t.shard]? = some sh ∧ t.ggmlType.blockAndTypeSize = some (blck, tsize) ∧
      blck ∣ t.ne.prod ∧
      sh.dataStart + t.offset + t.ne.prod / blck * tsize ≤ sh.mmap.length ∧
      g.tensorData p t = some
        ((sh.mmap.drop (sh.dataStart + t.offset)).take (t.ne.prod / blck * tsize))

/-- The files at the path: none that the checks of the header let pass, or all of the format and every
tensor in its file. -/
def Presentable (p : Platform) (fs : FilePath → Option (List UInt8)) (path : FilePath) : Prop :=
  ∃ o, Opens p.checked fs path o ∧ ∀ files, o = some files → ∀ f ∈ files, f.InRange

theorem robust_iff : Robust p fs path ↔ Presentable p fs path := by
  constructor
  · intro ⟨hopen, hread⟩
    obtain ⟨o, ho⟩ := opens_of_openGguf hopen
    refine ⟨o, ho, ?_⟩
    intro files hfiles f hf t ht
    subst hfiles
    obtain ⟨head, rest, hrest⟩ := List.exists_cons_of_ne_nil ho.ne_nil
    have hmodel : openGguf p fs path = .ok (mergedFile head files) := by
      rw [openGguf_of_opens (opens_of_checked ho), hrest]
      rfl
    obtain ⟨i, hi⟩ := List.getElem?_of_mem hf
    obtain ⟨sh, blck, tsize, hsh, hsize, -, hrange, -⟩ :=
      hread _ hmodel { t with shard := i } (mem_numberTensors.2 ⟨i, f, t, hi, ht, rfl⟩)
    rw [mergedFile_shard hi] at hsh
    cases hsh
    obtain ⟨path', hpath⟩ := ho.reads hf
    obtain ⟨blck', tsize', hsize', -, hbytes⟩ := hpath.nBytes ht
    rw [hsize] at hsize'
    cases hsize'
    rw [hbytes]
    exact hrange
  · intro ⟨o, ho, hrange⟩
    constructor
    · rw [openGguf_of_opens ho]
      cases o with
      | none => exact fun h => by cases h
      | some files =>
        obtain ⟨head, rest, hrest⟩ := List.exists_cons_of_ne_nil ho.ne_nil
        rw [hrest]
        exact fun h => by cases h
    · intro g hg t ht
      rw [openGguf_of_opens (opens_of_checked ho)] at hg
      cases o with
      | none => cases hg
      | some files =>
        obtain ⟨head, rest, hrest⟩ := List.exists_cons_of_ne_nil ho.ne_nil
        have hmodel : openResult (some files) = .ok (mergedFile head files) := by
          rw [hrest]
          rfl
        rw [hmodel] at hg
        cases hg
        obtain ⟨i, f, u, hi, hu, rfl⟩ := mem_numberTensors.1 ht
        have hf := List.mem_of_getElem? hi
        obtain ⟨path', hpath⟩ := ho.reads hf
        obtain ⟨blck, tsize, hsize, hdvd, hbytes⟩ := hpath.nBytes hu
        have hfits := hrange files rfl f hf u hu
        refine ⟨f.shard, blck, tsize, mergedFile_shard hi, hsize, hdvd, ?_, ?_⟩
        · rw [← hbytes]
          exact hfits
        · rw [← hbytes]
          exact tensorData_of_range (mergedFile_shard hi) hpath.mmap_lt hfits

/-- The magic and nothing behind it: the version is read past the end. -/
theorem not_robust_truncated : ¬ ∀ (p : Platform) (fs : FilePath → Option (List UInt8))
    (path : FilePath), Robust p fs path := by
  intro h
  have hrobust := h tinyPlatform (fun _ => some [0x47, 0x47, 0x55, 0x46]) ⟨[], []⟩
  exact hrobust.1 rfl

end Memra
