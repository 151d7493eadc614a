import Memra.Gguf.Proof.Open
import Memra.Gguf.Proof.RoundTrip

/-!
# Written files and split models open to what they hold

A written file is read back (`GgufWriter.open_written`), and a split model opens to the same model
through any of its shards (`SplitModel.open_any`).
-/

namespace Memra

open Lib

variable {p : Platform} {fs : FilePath → Option (List UInt8)}

/-! ## One written file -/

namespace GgufWriter

variable {w : GgufWriter p} {buf : List UInt8}

/-- What `parse_one` makes of a written file. -/
def parsed (w : GgufWriter p) (buf : List UInt8) : ParsedFile :=
  parsedOf buf w.readPairs (w.placed.map infoOf) w.header.length

/-- The reader's alignment rounds the header up to where the writer does. -/
def AlignsAlike (w : GgufWriter p) : Prop :=
  divCeil w.header.length w.metadata.alignment * w.metadata.alignment = alignUp w.header.length

theorem reads_parsed {path : FilePath} (hkeys : (w.pairs.map Prod.fst).Nodup)
    (hdims : ∀ t ∈ w.tensors, t.ne.length < 2 ^ 32) (hwrite : w.write = some buf)
    (hfile : fs path = some buf) (halign : w.metadata.alignment ≠ 0) :
    Reads p fs path (w.parsed buf) :=
  ⟨buf, _, _, _, hfile, (write_eq hwrite).1, write_layout hwrite hdims,
    by rwa [insertAll_readPairs hkeys], rfl⟩

theorem parsed_metadata (hkeys : (w.pairs.map Prod.fst).Nodup) :
    (w.parsed buf).metadata = w.metadata := insertAll_readPairs hkeys

/-- The tensors of a written file are those of the writer, in its order. -/
theorem forall₂_placed {R : TensorInfo → WriterTensor p → Prop}
    (h : ∀ t ∈ w.placed, R { infoOf t with shard := 0 } t.2) :
    List.Forall₂ R (w.parsed buf).single.tensors w.tensors := by
  rw [← w.placed_map_snd]
  change List.Forall₂ R ((w.placed.map infoOf).map fun t => { t with shard := 0 }) _
  rw [List.map_map, List.forall₂_map_left_iff, List.forall₂_map_right_iff, List.forall₂_same]
  exact h

/-- The bytes of a placed tensor are read where they were written. -/
theorem tensorData_placed (hkeys : (w.pairs.map Prod.fst).Nodup) (hwrite : w.write = some buf)
    (halike : w.AlignsAlike) {t : ℕ × WriterTensor p} (ht : t ∈ w.placed) :
    (w.parsed buf).single.tensorData p { infoOf t with shard := 0 } = some t.2.bytes := by
  obtain ⟨hmap, -, hat⟩ := write_eq hwrite
  obtain ⟨hend, hbytes⟩ := hat t ht
  have hmax := p.maxMap_lt
  have hstart : (w.parsed buf).shard.dataStart = alignUp w.header.length := by
    change divCeil w.header.length (insertAll w.readPairs).alignment *
      (insertAll w.readPairs).alignment = _
    rw [insertAll_readPairs hkeys]
    exact halike
  have hlen : (w.parsed buf).shard.mmap.length < 2 ^ 63 := by
    change buf.length < _
    omega
  have hrange : (w.parsed buf).shard.dataStart + t.1 + t.2.bytes.length ≤
      (w.parsed buf).shard.mmap.length := by
    rw [hstart]
    exact hend
  have hread := tensorData_of_range (p := p) (g := (w.parsed buf).single)
    (t := { infoOf t with shard := 0 }) rfl hlen hrange
  rw [hread, hstart]
  exact congrArg some hbytes

/-- A written file is read back: metadata, tensor infos and, where the alignments agree, the bytes. -/
theorem open_written {path : FilePath} (hkeys : (w.pairs.map Prod.fst).Nodup)
    (hdims : ∀ t ∈ w.tensors, t.ne.length < 2 ^ 32) (hwrite : w.write = some buf)
    (hfile : fs path = some buf) (hsplit : (w.metadata.getU64 "split.count").getD 0 ≤ 1)
    (halign : w.metadata.alignment ≠ 0) :
    ∃ g, openGguf p fs path = .ok g ∧ g.metadata = w.metadata ∧
      List.Forall₂ (fun t u => t.name = u.name.1 ∧ t.ne = u.ne ∧ t.ggmlType = u.ggmlType)
        g.tensors w.tensors ∧
      (w.AlignsAlike →
        List.Forall₂ (fun t u => g.tensorData p t = some u.bytes) g.tensors w.tensors) := by
  have hmeta : (w.parsed buf).metadata = w.metadata := parsed_metadata hkeys
  refine ⟨(w.parsed buf).single, ?_, hmeta, ?_, ?_⟩
  · apply openGguf_single (reads_parsed hkeys hdims hwrite hfile halign)
    unfold ParsedFile.splitCount
    rwa [hmeta]
  · exact forall₂_placed fun t _ => ⟨rfl, rfl, rfl⟩
  · exact fun halike => forall₂_placed fun t ht => tensorData_placed hkeys hwrite halike ht

end GgufWriter

/-! ## A split model -/

/-- The shards of a model, numbered, counted and named as the format wants it. -/
structure SplitModel (p : Platform) (fs : FilePath → Option (List UInt8)) where
  dir : List Char
  pre : List Char
  shards : List ParsedFile
  pos : 0 < shards.length
  count_lt : shards.length < 10 ^ 5
  parsed : ∀ i (f : ParsedFile), shards[i]? = some f →
    parseAt p fs ⟨dir, shardName pre (i + 1) shards.length⟩ = .ok f
  no : ∀ i (f : ParsedFile), shards[i]? = some f → (f.metadata.getU64 "split.no").getD 0 = i
  count : ∀ f ∈ shards, (f.metadata.getU64 "split.count").getD 0 = shards.length
  total : ∀ f ∈ shards, (f.metadata.getU64 "split.tensors.count").getD 0 = 0 ∨
    (f.metadata.getU64 "split.tensors.count").getD 0 =
      (shards.map fun f => f.tensors.length).sum

namespace SplitModel

variable (m : SplitModel p fs)

/-- The path of shard `i`, counted from zero. -/
def path (i : ℕ) : FilePath := ⟨m.dir, shardName m.pre (i + 1) m.shards.length⟩

/-- The shard in front. -/
def head : ParsedFile := m.shards.head (List.ne_nil_of_length_pos m.pos)

theorem siblings :
    Siblings p fs m.shards.length 0 ((List.range m.shards.length).map m.path) (some m.shards) := by
  rw [siblings_some_iff]
  constructor
  · rw [List.forall₂_iff_get]
    refine ⟨by simp, ?_⟩
    intro i hi hi'
    have hread := parseAt_ok_iff.1 (m.parsed i (m.shards.get ⟨i, hi'⟩) (List.getElem?_eq_getElem hi'))
    simpa [path] using hread
  · intro i f hi
    rw [Nat.zero_add]
    exact ⟨m.no i f hi, m.count f (List.mem_of_getElem? hi)⟩

theorem opens {i : ℕ} (hi : i < m.shards.length) : Opens p fs (m.path i) (some m.shards) := by
  obtain ⟨f, hf⟩ : ∃ f, m.shards[i]? = some f := ⟨_, List.getElem?_eq_getElem hi⟩
  have hmem := List.mem_of_getElem? hf
  have hread : Reads p fs (m.path i) f := parseAt_ok_iff.1 (m.parsed i f hf)
  have hcount : f.splitCount = m.shards.length := m.count f hmem
  have hlt := m.count_lt
  by_cases hone : f.splitCount ≤ 1
  · obtain ⟨head, hshards⟩ := List.length_eq_one_iff.1 (show m.shards.length = 1 by omega)
    rw [hshards, List.mem_singleton] at hmem
    rw [hshards, ← hmem]
    exact .single hread hone
  · have hfits : Fits p f.splitCount := by
      have hpath := p.path_fits
      have hshard := p.shard_fits
      rw [hcount]
      exact ⟨Nat.lt_of_le_of_lt (Nat.mul_le_mul_right _ hlt.le) hpath,
        Nat.lt_of_le_of_lt (Nat.mul_le_mul_right _ hlt.le) hshard⟩
    apply Opens.split hread hone (splitName_shardName (by omega) (by omega)) hfits
    · rw [hcount]
      exact m.siblings
    · intro shards hshards
      cases hshards
      exact m.total f hmem

/-- A split model opens to the same model through any of its shards. -/
theorem open_any {i : ℕ} (hi : i < m.shards.length) :
    openGguf p fs (m.path i) = .ok (mergedFile m.head m.shards) := by
  rw [openGguf_of_opens (m.opens hi)]
  change m.shards.head?.elim _ _ = _
  rw [List.head?_eq_some_head (List.ne_nil_of_length_pos m.pos)]
  rfl

/-- A tensor of the model is read from its own shard, as if that were opened alone. -/
theorem tensorData_shard {i : ℕ} {f : ParsedFile} (hf : m.shards[i]? = some f) (t : TensorInfo) :
    (mergedFile m.head m.shards).tensorData p { t with shard := i } =
      f.single.tensorData p { t with shard := 0 } := by
  have hshard : (mergedFile m.head m.shards).shards[i]? = some f.shard := by
    change (m.shards.map ParsedFile.shard)[i]? = _
    rw [List.getElem?_map, hf]
    rfl
  unfold GgufFile.tensorData
  rw [hshard]
  rfl

end SplitModel

/-- What is written is read back, and a split model is one model through any of its shards. The
writer aligns to the default, so a pair `general.alignment` must not place the data elsewhere. -/
theorem open_written_and_split :
    (∀ (w : GgufWriter p) (path : FilePath) (buf : List UInt8), (w.pairs.map Prod.fst).Nodup →
      (∀ t ∈ w.tensors, t.ne.length < 2 ^ 32) → w.write = some buf → fs path = some buf →
      (w.metadata.getU64 "split.count").getD 0 ≤ 1 → w.metadata.alignment ≠ 0 →
      ∃ g, openGguf p fs path = .ok g ∧ g.metadata = w.metadata ∧
        List.Forall₂ (fun t u => t.name = u.name.1 ∧ t.ne = u.ne ∧ t.ggmlType = u.ggmlType)
          g.tensors w.tensors ∧
        (w.AlignsAlike →
          List.Forall₂ (fun t u => g.tensorData p t = some u.bytes) g.tensors w.tensors)) ∧
    ∀ m : SplitModel p fs, ∃ g, (∀ i < m.shards.length, openGguf p fs (m.path i) = .ok g) ∧
      g.tensors = (m.shards.zipIdx.map fun s => s.1.tensors.map fun t =>
        { t with shard := s.2 }).flatten ∧
      (∀ i (f : ParsedFile), m.shards[i]? = some f → ∀ t ∈ f.tensors,
        g.tensorData p { t with shard := i } = f.single.tensorData p { t with shard := 0 }) ∧
      (∀ k, g.metadata k = m.shards.findSome? fun f => f.metadata k) ∧
      ∀ k v, m.head.metadata k = some v → g.metadata k = some v := by
  constructor
  · intro w path buf hkeys hdims hwrite hfile hsplit halign
    exact w.open_written hkeys hdims hwrite hfile hsplit halign
  · intro m
    refine ⟨mergedFile m.head m.shards, fun i hi => m.open_any hi, rfl,
      fun i f hf t _ => m.tensorData_shard hf t, fun k => mergeMetadata_eq m.shards k, ?_⟩
    intro k v hv
    change mergeMetadata m.shards k = _
    rw [mergeMetadata_eq]
    obtain ⟨f, shards, hshards⟩ := List.exists_cons_of_length_pos m.pos
    have hhead : m.head = f := by simp [SplitModel.head, hshards]
    rw [hhead] at hv
    rw [hshards, List.findSome?_cons, hv]

/-- A writer of the pairs and one tensor of one byte. -/
def tinyWriter (pairs : List (Utf8Str × MetaW)) (byte : UInt8) : GgufWriter tinyPlatform where
  pairs
  tensors := [{
    name := ⟨ascii "w", utf8Error_ascii (by decide +kernel)⟩
    ne := [1]
    ggmlType := .I8
    bytes := [byte]
    ne_lt := by decide
    size := rfl }]

/-- The key `split.no`. -/
def splitNoKey : Utf8Str := ⟨ascii "split.no", utf8Error_ascii (by decide +kernel)⟩

/-- The key `split.count`. -/
def splitCountKey : Utf8Str := ⟨ascii "split.count", utf8Error_ascii (by decide +kernel)⟩

/-- The key `general.alignment`. -/
def alignmentKey : Utf8Str := ⟨ascii "general.alignment", utf8Error_ascii (by decide +kernel)⟩

/-- A shard of two. -/
def tinyShard (no : UInt32) (byte : UInt8) : GgufWriter tinyPlatform :=
  tinyWriter [(splitNoKey, .u32 no), (splitCountKey, .u32 2)] byte

/-- The bytes of a written file. -/
def tinyFile (w : GgufWriter tinyPlatform) : List UInt8 := w.write.getD []

/-- Two shards and a file that is not split. -/
def tinyFiles (path : FilePath) : Option (List UInt8) :=
  if path.name = shardName ['m'] 1 2 then some (tinyFile (tinyShard 0 7))
  else if path.name = shardName ['m'] 2 2 then some (tinyFile (tinyShard 1 9))
  else if path.name = "solo.gguf".toList then some (tinyFile (tinyWriter [] 5))
  else none

theorem forall_pair {α : Type} {a b : α} {P : ℕ → α → Prop} (ha : P 0 a) (hb : P 1 b) :
    ∀ i x, [a, b][i]? = some x → P i x := by
  intro i x hx
  match i, hx with
  | 0, hx =>
    cases hx
    exact ha
  | 1, hx =>
    cases hx
    exact hb

/-- The two shards. -/
def tinySplit : SplitModel tinyPlatform tinyFiles where
  dir := []
  pre := ['m']
  shards := [(tinyShard 0 7).parsed (tinyFile (tinyShard 0 7)),
    (tinyShard 1 9).parsed (tinyFile (tinyShard 1 9))]
  pos := by decide
  count_lt := by decide
  parsed := forall_pair
    (parseAt_ok_iff.2 (GgufWriter.reads_parsed (by decide +kernel) (by decide +kernel)
      (by decide +kernel) (by decide +kernel) (by decide +kernel)))
    (parseAt_ok_iff.2 (GgufWriter.reads_parsed (by decide +kernel) (by decide +kernel)
      (by decide +kernel) (by decide +kernel) (by decide +kernel)))
  no := forall_pair (by decide +kernel) (by decide +kernel)
  count := List.forall_mem_cons.2 ⟨by decide +kernel, List.forall_mem_singleton.2 (by decide +kernel)⟩
  total := List.forall_mem_cons.2
    ⟨.inl (by decide +kernel), List.forall_mem_singleton.2 (.inl (by decide +kernel))⟩

theorem open_written_and_split_tiny :
    (∃ g, openGguf tinyPlatform tinyFiles ⟨[], "solo.gguf".toList⟩ = .ok g ∧
      List.Forall₂ (fun t u => g.tensorData tinyPlatform t = some u.bytes) g.tensors
        (tinyWriter [] 5).tensors) ∧
    ∃ g, openGguf tinyPlatform tinyFiles ⟨[], "m-00002-of-00002.gguf".toList⟩ = .ok g ∧
      g.tensors.map TensorInfo.shard = [0, 1] := by
  have hopens := @open_written_and_split tinyPlatform tinyFiles
  obtain ⟨hwritten, hsplit⟩ := hopens
  constructor
  · obtain ⟨g, hopen, -, -, hdata⟩ := hwritten (tinyWriter [] 5) ⟨[], "solo.gguf".toList⟩
      (tinyFile (tinyWriter [] 5)) (by decide +kernel) (by decide +kernel) (by decide +kernel)
      (by decide +kernel) (by decide +kernel) (by decide +kernel)
    exact ⟨g, hopen, hdata (show _ = _ by decide +kernel)⟩
  · obtain ⟨g, hopen, htensors, -⟩ := hsplit tinySplit
    refine ⟨g, hopen 1 (by decide), ?_⟩
    rw [htensors]
    decide +kernel

/-- Opened under the name, the written file has what the writer was given. -/
def ReadBack (fs : FilePath → Option (List UInt8)) (path : FilePath) (w : GgufWriter p) : Prop :=
  ∃ g, openGguf p fs path = .ok g ∧ g.metadata = w.metadata ∧
    List.Forall₂ (fun t u => t.name = u.name.1 ∧ t.ne = u.ne ∧ t.ggmlType = u.ggmlType ∧
      g.tensorData p t = some u.bytes) g.tensors w.tensors

theorem tinyFile_reads {w : GgufWriter tinyPlatform} (hkeys : (w.pairs.map Prod.fst).Nodup)
    (hdims : ∀ t ∈ w.tensors, t.ne.length < 2 ^ 32) (hwrite : w.write = some (tinyFile w))
    (halign : w.metadata.alignment ≠ 0) (path : FilePath) :
    Reads tinyPlatform (fun _ => some (tinyFile w)) path (w.parsed (tinyFile w)) :=
  GgufWriter.reads_parsed hkeys hdims hwrite rfl halign

/-- A shard under another name is not opened, and a pair `general.alignment` can move the data away
from where the writer puts it. -/
theorem not_open_written :
    (¬ ∀ (fs : FilePath → Option (List UInt8)) (path : FilePath) (w : GgufWriter tinyPlatform)
      (buf : List UInt8), (w.pairs.map Prod.fst).Nodup → w.write = some buf → fs path = some buf →
      ReadBack fs path w) ∧
    ¬ ∀ (fs : FilePath → Option (List UInt8)) (path : FilePath) (w : GgufWriter tinyPlatform)
      (buf : List UInt8), (w.pairs.map Prod.fst).Nodup → w.write = some buf → fs path = some buf →
      (w.metadata.getU64 "split.count").getD 0 ≤ 1 → w.metadata.alignment ≠ 0 →
      ReadBack fs path w := by
  constructor
  · intro h
    have hwrite : (tinyShard 0 7).write = some (tinyFile (tinyShard 0 7)) := by decide +kernel
    have hread := tinyFile_reads (by decide +kernel) (by decide +kernel) hwrite (by decide +kernel)
      ⟨[], "solo.gguf".toList⟩
    obtain ⟨g, hopen, -⟩ := h (fun _ => some (tinyFile (tinyShard 0 7))) ⟨[], "solo.gguf".toList⟩
      (tinyShard 0 7) _ (by decide +kernel) hwrite rfl
    rw [openGguf_noName hread (by decide +kernel) (by decide +kernel)] at hopen
    cases hopen
  · intro h
    let w := tinyWriter [(alignmentKey, .u32 64)] 7
    have hwrite : w.write = some (tinyFile w) := by decide +kernel
    have hread := tinyFile_reads (by decide +kernel) (by decide +kernel) hwrite (by decide +kernel)
      ⟨[], "solo.gguf".toList⟩
    obtain ⟨g, hopen, -, hdata⟩ := h (fun _ => some (tinyFile w)) ⟨[], "solo.gguf".toList⟩ w _
      (by decide +kernel) hwrite rfl (by decide +kernel) (by decide +kernel)
    rw [openGguf_single hread (by decide +kernel)] at hopen
    cases hopen
    revert hdata
    decide +kernel

end Memra
