import Memra.Gguf.Writer
import Memra.Gguf.Proof.Format

/-!
# What is written is read

WIP
-/

namespace Memra

open Lib

theorem fromUtf8Lossy_valid (s : Utf8Str) : fromUtf8Lossy s.1 = s.1 := by
  unfold fromUtf8Lossy
  rw [utf8Scan_valid s.2]
  simp

/-! ## Lengths -/

theorem length_le_flatMap {α β : Type} {l : List α} {f : α → List β}
    (h : ∀ a ∈ l, 0 < (f a).length) : l.length ≤ (l.flatMap f).length := by
  have hsum := List.length_le_sum_of_one_le (l.map fun a => (f a).length) fun n hn => by
    obtain ⟨a, ha, rfl⟩ := List.mem_map.1 hn
    exact h a ha
  rwa [List.length_map, ← List.length_flatMap] at hsum

theorem length_le_flatMap_of_mem {α β : Type} {l : List α} {f : α → List β} {a : α} (h : a ∈ l) :
    (f a).length ≤ (l.flatMap f).length := by
  rw [List.length_flatMap]
  exact List.le_sum_of_mem (List.mem_map_of_mem h)

/-! ## Metadata -/

theorem elems_values {p : Platform} {α : Type} {elemType width : ℕ} {make : ℕ → MetaValue}
    (htype : scalar elemType = some (width, make)) {f : α → ℕ} (hf : ∀ x, f x < 256 ^ width)
    (a : List α) :
    Values p 1 elemType (a.flatMap fun x => leBytes width (f x)) (a.map fun x => make (f x)) := by
  induction a with
  | nil => exact .nil _ _
  | cons x a ih => exact .scalar htype (hf x) ih

theorem arr_values {p : Platform} {α : Type} {elemType width : ℕ} {make : ℕ → MetaValue}
    (hlt : elemType < 256 ^ 4) (htype : scalar elemType = some (width, make)) {f : α → ℕ}
    (hf : ∀ x, f x < 256 ^ width) {a : List α} (hlen : a.length < 256 ^ 8)
    (hcap : a.length * p.metaSize < 2 ^ 63) :
    Values p 2 9 (MetaW.arrBytes elemType (fun x => leBytes width (f x)) a)
      [.array (a.map fun x => make (f x))] := by
  have h := Values.array hlt (by rwa [List.length_map]) (by rwa [List.length_map])
    (elems_values (p := p) htype hf a) (.nil 2 9)
  rwa [List.append_nil, List.length_map] at h

theorem meta_values {p : Platform} {v : MetaW} (h : v.valueBytes.length ≤ p.maxMap) :
    Values p 2 v.typeId v.valueBytes [v.toMeta] := by
  have hmax := p.maxMap_lt
  have hcap : ∀ n ≤ p.maxMap, n < 256 ^ 8 ∧ n * p.metaSize < 2 ^ 63 := by
    intro n hn
    refine ⟨by omega, ?_⟩
    exact Nat.lt_of_le_of_lt (Nat.mul_le_mul_right _ hn) p.meta_fits
  have harr : ∀ {α : Type} (elemType width : ℕ) (f : α → ℕ) (a : List α), 0 < width →
      (MetaW.arrBytes elemType (fun x => leBytes width (f x)) a).length ≤ p.maxMap →
      a.length ≤ p.maxMap := by
    intro α elemType width f a hwidth hlen
    have hle := length_le_flatMap (l := a) (f := fun x => leBytes width (f x)) fun x _ => by
      rwa [leBytes_length]
    simp only [MetaW.arrBytes, List.length_append] at hlen
    omega
  cases v with
  | u32 x =>
    have hv : Values p 2 4 (leBytes 4 x.toNat ++ []) [.u32 x.toNat] :=
      .scalar (show scalar 4 = some (4, .u32) from rfl) x.toNat_lt (.nil 2 4)
    rwa [List.append_nil] at hv
  | f32 x =>
    have hv : Values p 2 6 (leBytes 4 x.toNat ++ []) [.f32 x.toNat] :=
      .scalar (show scalar 6 = some (4, .f32) from rfl) x.toNat_lt (.nil 2 6)
    rwa [List.append_nil] at hv
  | bool x =>
    have hx : x.toNat < 256 ^ 1 := by cases x <;> decide
    have hv : Values p 2 7 (leBytes 1 x.toNat ++ []) [.bool (x.toNat ≠ 0)] :=
      .scalar (show scalar 7 = some (1, fun x => .bool (x ≠ 0)) from rfl) hx (.nil 2 7)
    rw [List.append_nil] at hv
    cases x <;> exact hv
  | str s =>
    simp only [MetaW.valueBytes, MetaW.wstr, List.length_append] at h
    have hv : Values p 2 8 (stringBytes s.1 ++ []) [.string (fromUtf8Lossy s.1)] :=
      .string (hcap _ (by omega)).1 (.nil 2 8)
    rwa [List.append_nil, fromUtf8Lossy_valid] at hv
  | arrBool a =>
    obtain ⟨hlen, hfits⟩ := hcap a.length (harr 7 1 Bool.toNat a (by decide) h)
    have hv := arr_values (p := p) (by decide)
      (show scalar 7 = some (1, fun x => .bool (x ≠ 0)) from rfl)
      (f := Bool.toNat) (fun x => by cases x <;> decide) hlen hfits
    have hmap : (a.map fun x => MetaValue.bool (x.toNat ≠ 0)) = a.map fun x => .bool x :=
      List.map_congr_left fun x _ => by cases x <;> rfl
    rwa [hmap] at hv
  | arrU32 a =>
    obtain ⟨hlen, hfits⟩ := hcap a.length (harr 4 4 UInt32.toNat a (by decide) h)
    exact arr_values (by decide) (show scalar 4 = some (4, .u32) from rfl) (fun x => x.toNat_lt) hlen
      hfits
  | arrF32 a =>
    obtain ⟨hlen, hfits⟩ := hcap a.length (harr 6 4 UInt32.toNat a (by decide) h)
    exact arr_values (by decide) (show scalar 6 = some (4, .f32) from rfl) (fun x => x.toNat_lt) hlen
      hfits

/-- The pairs as the reader returns them. -/
def GgufWriter.readPairs {p : Platform} (w : GgufWriter p) : List (List UInt8 × MetaValue) :=
  w.pairs.map fun kv => (kv.1.1, kv.2.toMeta)

theorem kvEntry_pair {p : Platform} {kv : Utf8Str × MetaW}
    (h : (GgufWriter.pairBytes kv).length ≤ p.maxMap) :
    KvEntry p 2 (GgufWriter.pairBytes kv) (kv.1.1, kv.2.toMeta) := by
  have hmax := p.maxMap_lt
  simp only [GgufWriter.pairBytes, MetaW.wstr, List.length_append] at h
  have htype : kv.2.typeId < 256 ^ 4 := by
    cases kv.2 <;> simp [MetaW.typeId]
  exact ⟨kv.1.1, kv.2.typeId, kv.2.valueBytes, by omega, htype, meta_values (by omega),
    (fromUtf8Lossy_valid kv.1).symm, rfl⟩

/-! ## Tensors -/

/-- A placed tensor as the reader returns it. -/
def infoOf {p : Platform} (t : ℕ × WriterTensor p) : TensorInfo :=
  { name := t.2.name.1
    ne := t.2.ne
    ggmlType := t.2.ggmlType
    offset := t.1
    nBytes := t.2.bytes.length
    shard := 2 ^ 64 - 1 }

theorem tensorEntry_placed {p : Platform} {t : ℕ × WriterTensor p}
    (h : (GgufWriter.infoBytes t).length ≤ p.maxMap) (hdims : t.2.ne.length < 2 ^ 32)
    (hoff : t.1 < 2 ^ 64) : TensorEntry p (GgufWriter.infoBytes t) (infoOf t) := by
  have hmax := p.maxMap_lt
  simp only [GgufWriter.infoBytes, MetaW.wstr, List.length_append] at h
  exact ⟨t.2.name.1, by omega, hdims, t.2.ne_lt, hoff, t.2.size, (fromUtf8Lossy_valid _).symm, rfl,
    rfl⟩

/-! ## The tensor data -/

namespace GgufWriter

theorem le_alignUp (x : ℕ) : x ≤ alignUp x := by
  unfold alignUp divCeil ggufDefaultAlignment
  split <;> omega

theorem resize_of_le {buf : List UInt8} {n : ℕ} (h : buf.length ≤ n) :
    resize buf n = buf ++ List.replicate (n - buf.length) 0 := by
  rw [resize, List.take_of_length_le h]

theorem resize_length {buf : List UInt8} {n : ℕ} (h : buf.length ≤ n) :
    (resize buf n).length = n := by
  rw [resize_of_le h, List.length_append, List.length_replicate]
  omega

/-- The bytes `data` stand in `buf` at `start`. -/
def HasAt (buf : List UInt8) (start : ℕ) (data : List UInt8) : Prop :=
  start + data.length ≤ buf.length ∧ (buf.drop start).take data.length = data

theorem hasAt_append (pre data rest : List UInt8) : HasAt (pre ++ data ++ rest) pre.length data := by
  constructor
  · simp only [List.length_append]
    omega
  · rw [List.append_assoc, List.drop_left, List.take_left]

/-- The data behind `buf` leaves `buf` as it is and puts every tensor at its offset. -/
theorem writeData_spec {p : Platform} {dataStart offset : ℕ} {buf : List UInt8}
    {ts : List (WriterTensor p)} (h : buf.length ≤ dataStart + offset) :
    buf <+: writeData dataStart buf ((offsets offset ts).zip ts) ∧
      ∀ t ∈ (offsets offset ts).zip ts,
        HasAt (writeData dataStart buf ((offsets offset ts).zip ts)) (dataStart + t.1) t.2.bytes := by
  induction ts generalizing offset buf with
  | nil => exact ⟨List.prefix_refl _, by simp [offsets]⟩
  | cons t ts ih =>
    have hlen := resize_length h
    have hnext : (resize buf (dataStart + offset) ++ t.bytes).length ≤
        dataStart + alignUp (offset + t.bytes.length) := by
      have hup := le_alignUp (offset + t.bytes.length)
      rw [List.length_append, hlen]
      omega
    obtain ⟨hpre, hat⟩ := ih hnext
    have hzip : (offsets offset (t :: ts)).zip (t :: ts) =
        (offset, t) :: (offsets (alignUp (offset + t.bytes.length)) ts).zip ts := rfl
    have hwrite : ∀ ts, writeData dataStart buf ((offset, t) :: ts) =
        writeData dataStart (resize buf (dataStart + offset) ++ t.bytes) ts := fun _ => rfl
    rw [hzip, hwrite]
    constructor
    · apply List.IsPrefix.trans _ hpre
      rw [resize_of_le h, List.append_assoc]
      exact List.prefix_append _ _
    · intro t' ht'
      rcases List.mem_cons.1 ht' with rfl | ht'
      · obtain ⟨rest, hrest⟩ := hpre
        rw [← hrest]
        have hhas := hasAt_append (resize buf (dataStart + offset)) t.bytes rest
        rwa [hlen] at hhas
      · exact hat t' ht'

variable {p : Platform} {w : GgufWriter p} {buf : List UInt8}

theorem offsets_length (offset : ℕ) (ts : List (WriterTensor p)) :
    (offsets offset ts).length = ts.length := by
  induction ts generalizing offset with
  | nil => rfl
  | cons t ts ih => rw [offsets, List.length_cons, List.length_cons, ih]

theorem placed_map_snd (w : GgufWriter p) : w.placed.map Prod.snd = w.tensors :=
  List.map_snd_zip (offsets_length _ _).ge

theorem placed_length (w : GgufWriter p) : w.placed.length = w.tensors.length := by
  rw [← w.placed_map_snd, List.length_map]

theorem mem_tensors_of_placed {t : ℕ × WriterTensor p} (h : t ∈ w.placed) : t.2 ∈ w.tensors := by
  rw [← w.placed_map_snd]
  exact List.mem_map_of_mem h

/-- A written file is the header with the data behind it, every tensor at its offset. -/
theorem write_eq (h : w.write = some buf) :
    buf.length ≤ p.maxMap ∧ w.header <+: buf ∧
      ∀ t ∈ w.placed, HasAt buf (alignUp w.header.length + t.1) t.2.bytes := by
  have hpad : (resize w.header (alignUp w.header.length)).length ≤ alignUp w.header.length + 0 :=
    (resize_length (le_alignUp w.header.length)).le
  obtain ⟨hpre, hat⟩ := @writeData_spec p _ 0 _ w.tensors hpad
  unfold write at h
  simp only at h
  split at h
  · rename_i hle
    cases h
    refine ⟨hle, List.IsPrefix.trans ?_ hpre, hat⟩
    rw [resize_of_le (le_alignUp _)]
    exact List.prefix_append _ _
  · cases h

/-- What is written is a file of the format. -/
theorem write_layout (h : w.write = some buf) (hdims : ∀ t ∈ w.tensors, t.ne.length < 2 ^ 32) :
    Layout p buf w.readPairs (w.placed.map infoOf) w.header.length := by
  obtain ⟨hmap, ⟨data, hbuf⟩, hat⟩ := write_eq h
  have hmax := p.maxMap_lt
  have hheader : w.header.length ≤ p.maxMap := by
    rw [← hbuf, List.length_append] at hmap
    omega
  have hfields := hheader
  simp only [header, List.length_append] at hfields
  have hkvs : w.pairs.length ≤ (w.pairs.flatMap pairBytes).length :=
    length_le_flatMap fun kv _ => by simp [pairBytes, MetaW.wstr, leBytes_length]
  have hts : w.tensors.length ≤ (w.placed.flatMap infoBytes).length := by
    rw [← placed_length]
    exact length_le_flatMap fun t _ => by simp [infoBytes, MetaW.wstr, leBytes_length]
  have hpairs : Spelled (KvEntry p 2) (w.pairs.flatMap pairBytes) w.readPairs := by
    apply spelled_flatMap
    intro kv hmem
    have hle := length_le_flatMap_of_mem (f := pairBytes) hmem
    exact kvEntry_pair (by omega)
  have hinfos : Spelled (TensorEntry p) (w.placed.flatMap infoBytes) (w.placed.map infoOf) := by
    apply spelled_flatMap
    intro t hmem
    have hle := length_le_flatMap_of_mem (f := infoBytes) hmem
    have hstart := (hat t hmem).1
    exact tensorEntry_placed (by omega) (hdims _ (mem_tensors_of_placed hmem)) (by omega)
  have hcap : w.tensors.length * p.tensorSize < 2 ^ 63 :=
    Nat.lt_of_le_of_lt (Nat.mul_le_mul_right _ (by omega)) p.tensor_fits
  have hnk : w.readPairs.length = i64Count w.pairs.length := by
    rw [readPairs, List.length_map, i64Count, if_pos (by omega)]
  have hnt : (w.placed.map infoOf).length = i64Count w.tensors.length := by
    rw [List.length_map, placed_length, i64Count, if_pos (by omega)]
  refine ⟨2, _, data, ⟨w.tensors.length, w.pairs.length, _, _, by omega, by omega, hpairs, hnk, hcap,
    hinfos, hnt, rfl⟩, ?_, ?_⟩
  · rw [← hbuf, header]
    simp only [List.append_assoc]
  · rw [← hbuf, List.length_append]

/-! ## Opening -/

/-- The metadata of the pairs. -/
def metadata (w : GgufWriter p) : Metadata := fun k =>
  (w.pairs.find? fun kv => kv.1.1 = k).map fun kv => kv.2.toMeta

end GgufWriter

/-- Pairs of distinct keys: each keeps its own value. -/
theorem insertAll_eq_find {kvs : List (List UInt8 × MetaValue)} (h : (kvs.map Prod.fst).Nodup)
    (k : List UInt8) : insertAll kvs k = (kvs.find? fun kv => kv.1 = k).map Prod.snd := by
  have hfold : ∀ (kvs : List (List UInt8 × MetaValue)) (metadata : Metadata),
      (kvs.map Prod.fst).Nodup →
      kvs.foldl (fun (metadata : Metadata) kv => Function.update metadata kv.1 (some kv.2))
        metadata k = ((kvs.find? fun kv => kv.1 = k).map Prod.snd).or (metadata k) := by
    intro kvs
    induction kvs with
    | nil => exact fun _ _ => rfl
    | cons kv kvs ih =>
      intro metadata hnodup
      rw [List.map_cons, List.nodup_cons] at hnodup
      rw [List.foldl_cons, ih _ hnodup.2]
      by_cases hk : kv.1 = k
      · subst hk
        have hnone : kvs.find? (fun kv' => kv'.1 = kv.1) = none := by
          rw [List.find?_eq_none]
          intro kv' hmem heq
          exact hnodup.1 (of_decide_eq_true heq ▸ List.mem_map_of_mem hmem)
        rw [hnone, List.find?_cons_of_pos (by simp), Function.update_self]
        rfl
      · rw [List.find?_cons_of_neg (by simpa using hk), Function.update_of_ne (Ne.symm hk)]
  rw [insertAll, hfold kvs _ h, Option.or_none]

theorem GgufWriter.insertAll_readPairs {p : Platform} {w : GgufWriter p}
    (h : (w.pairs.map Prod.fst).Nodup) : insertAll w.readPairs = w.metadata := by
  funext k
  have hkeys : w.readPairs.map Prod.fst = (w.pairs.map Prod.fst).map Subtype.val := by
    simp [readPairs]
  rw [insertAll_eq_find (by
    rw [hkeys]
    exact h.map Subtype.val_injective), readPairs, List.find?_map, Option.map_map, metadata]
  rfl

end Memra
