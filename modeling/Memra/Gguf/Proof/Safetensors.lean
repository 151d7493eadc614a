import Memra.Gguf.Proof.SafetensorsScan

/-!
# Headers, indexes and tensor bytes

A header text is read as the map it describes (`parseHeader_text`), an index as the map of its
`weight_map` (`parseIndexWeightMap_text`). A model opened from an index has the shard of every name at the
place that its map says (`sharded_routes`), and `raw` returns the extent of a tensor in that shard.
-/

namespace Memra

namespace Safetensors

open Lib
open Json (Ws commas byte asChar isWs utf8_cons encode_ascii utf8_ascii byte_toNat fromUtf8)

variable {α β : Type} {b rest : List UInt8} {t w : List Char}

/-! ## Members -/

theorem starts_ascii {U : List Char → Char → Prop} {s : List Char} (h : AsciiString U t s) {c : Char}
    (hc : c = '}' ∨ c = ']') : Starts c t := by
  obtain ⟨-, u, rfl, -⟩ := h
  have hbytes : utf8 ('"' :: (u ++ ['"'])) = byte '"' :: utf8 (u ++ ['"']) := by
    rw [utf8_cons, encode_ascii (by decide)]
    rfl
  refine ⟨byte '"', _, hbytes, by decide, ?_⟩
  rcases hc with rfl | rfl <;> decide

theorem starts_pair {U : List Char → Char → Prop} {V : List Char → β → Prop} {p : List Char × β}
    (h : Pair (AsciiString U) V t p) {c : Char} (hc : c = '}' ∨ c = ']') : Starts c t := by
  obtain ⟨kt, w, w', vt, rfl, -, -, hk, -⟩ := h
  obtain ⟨x, xs, hx, hxws, hxc⟩ := starts_ascii hk hc
  exact ⟨x, xs ++ _, by rw [utf8_append, hx]; rfl, hxws, hxc⟩

theorem skipsWs_member (value : List Char → Reader α) : SkipsWs (member value) := skipsWs_string.bind _

/-- A key and its colon are read. -/
theorem run_member {V : List Char → β → Prop} {k : List Char} {v : β}
    (h : Pair (AsciiString PlainUnit) V t (k, v)) (value : List Char → Reader α) (rest : List UInt8) :
    ∃ w vt, Ws w ∧ V vt v ∧ (member value).run (utf8 t ++ rest) =
      (value k).run (utf8 w ++ (utf8 vt ++ rest)) := by
  obtain ⟨kt, w, w', vt, rfl, hw, hw', hk, hv⟩ := h
  refine ⟨w', vt, hw', hv, ?_⟩
  have hbytes : utf8 (kt ++ (w ++ ':' :: (w' ++ vt))) ++ rest =
      utf8 kt ++ (utf8 w ++ byte ':' :: (utf8 w' ++ (utf8 vt ++ rest))) := by
    simp only [utf8_append, utf8_cons, encode_ascii (c := ':') (by decide), List.append_assoc,
      List.cons_append, List.nil_append]
  have hcolon := (skipsWs_eat (byte ':') w _ hw).trans
    (run_eat (r := utf8 w' ++ (utf8 vt ++ rest)) (by decide))
  unfold member
  rw [hbytes, run_bind (string_plain hk _), run_bind hcolon]

/-! ## The fields of a tensor -/

theorem starts_nat {n : ℕ} (h : NatText t n) : Starts ']' t := by
  obtain ⟨rfl, -⟩ := h
  obtain ⟨c, cs, hcs⟩ := List.exists_cons_of_ne_nil (Nat.toDigits_ne_nil (n := n) (b := 10))
  have hdigit : c.isDigit :=
    Nat.isDigit_of_mem_toDigits (b := 10) (n := n) (by decide) (by decide)
      (by rw [hcs]; exact List.mem_cons_self)
  obtain ⟨hlt, hd⟩ := isDigit_byte hdigit
  have hs := digit_isScalar hd
  rw [hcs]
  refine ⟨byte c, utf8 cs, by rw [utf8_cons, encode_ascii hlt]; rfl, ?_, fun heq => ?_⟩
  · unfold isScalar at hs
    simp only [Bool.not_eq_true', Bool.or_eq_false_iff] at hs
    exact hs.2
  · rw [heq] at hs
    exact absurd hs (by decide)

theorem reads_shape {ns : List ℕ} (h : Bracketed '[' ']' NatText t ns) (shape : List ℕ) :
    Reads (bracketed (byte '[') (byte ']') pushNat shape) t (shape ++ ns) := by
  have hitem (s : List ℕ) (t : List Char) (n : ℕ) (hn : NatText t n) :
      Reads (pushNat s) t (s ++ [n]) := by
    intro rest hrest
    unfold pushNat
    rw [run_bind (reads_u64 hn rest hrest)]
    rfl
  have hread := reads_bracketed (fun s => skipsWs_u64.bind _) hitem (.inr ⟨rfl, rfl⟩)
    (fun t n hn => starts_nat hn) h shape
  have hfold : ∀ (ns shape : List ℕ), ns.foldl (fun s n => s ++ [n]) shape = shape ++ ns := by
    intro ns
    induction ns with
    | nil => exact fun shape => (List.append_nil shape).symm
    | cons n ns ih =>
      intro shape
      rw [List.foldl_cons, ih, List.append_assoc, List.singleton_append]
  rwa [hfold] at hread

theorem reads_offsets {n m : ℕ} (h : Bracketed '[' ']' NatText t [n, m]) :
    Reads readOffsets t (n, m) := by
  intro rest hrest
  obtain ⟨inner, rfl, ⟨hnil, -⟩ | ⟨-, ts, rfl, hts⟩⟩ := h
  · cases hnil
  · cases hts with
    | cons hn hts =>
      cases hts with
      | cons hm hts =>
        cases hts
        rename_i t t'
        obtain ⟨w, hw, hread⟩ := run_padded skipsWs_u64 hn fun t ht => reads_u64 ht
        obtain ⟨w', hw', hread'⟩ := run_padded skipsWs_u64 hm fun t ht => reads_u64 ht
        have hx : utf8 (commas [t, t']) ++ byte ']' :: rest =
            utf8 t ++ byte ',' :: (utf8 t' ++ byte ']' :: rest) := by
          rw [Json.commas_cons _ (List.cons_ne_nil _ _), Json.commas_singleton, utf8_append, utf8_cons,
            encode_ascii (c := ',') (by decide), List.append_assoc, List.append_assoc]
          rfl
        have hcomma := (skipsWs_eat (byte ',') w _ hw).trans
          (run_eat (r := utf8 t' ++ byte ']' :: rest) (by decide))
        have hclose := (skipsWs_eat (byte ']') w' _ hw').trans (run_eat (r := rest) (by decide))
        rw [utf8_brackets (.inr ⟨rfl, rfl⟩), hx]
        unfold readOffsets
        rw [run_bind (run_eat (by decide)), run_bind (hread _ (closed_cons (.inl rfl) _)),
          run_bind hcomma, run_bind (hread' _ (closed_cons (.inr (.inr rfl)) _)), run_bind hclose]
        rfl

/-- What a field does to the tensor. -/
def push (info : StInfo) : TensorField → StInfo
  | .dtype s => { info with dtype := s }
  | .shape ns => { info with shape := info.shape ++ ns }
  | .dataOffsets b e => { info with dataOffsets := (b, e) }

theorem skipsWs_readOffsets : SkipsWs readOffsets := (skipsWs_eat _).bind _

theorem reads_field {f : TensorField} (h : FieldText PlainUnit t f) (info : StInfo) :
    Reads (member (fieldValue info)) t (push info f) := by
  intro rest hrest
  obtain ⟨w, vt, hw, hv, hrun⟩ := run_member h (fieldValue info) rest
  rw [hrun]
  cases f with
  | dtype s =>
    have hstring := (skipsWs_string w _ hw).trans (string_plain hv rest)
    show (fieldValue info "dtype".toList).run _ = _
    unfold fieldValue
    rw [if_pos rfl, run_bind hstring]
    rfl
  | shape ns =>
    have hshape := (skipsWs_bracketed _ _ pushNat info.shape w _ hw).trans
      (reads_shape hv info.shape rest hrest)
    show (fieldValue info "shape".toList).run _ = _
    unfold fieldValue
    rw [if_neg (by decide), if_pos rfl, run_bind hshape]
    rfl
  | dataOffsets n m =>
    have hoffsets := (skipsWs_readOffsets w _ hw).trans (reads_offsets hv rest hrest)
    show (fieldValue info "data_offsets".toList).run _ = _
    unfold fieldValue
    rw [if_neg (by decide), if_neg (by decide), if_pos rfl, run_bind hoffsets]
    rfl

/-! ## Headers -/

/-- The fields of a tensor come in one of six orders. -/
theorem foldl_push {info : StInfo} {fs : List TensorField}
    (h : fs.Perm [.dtype info.dtype, .shape info.shape,
      .dataOffsets info.dataOffsets.1 info.dataOffsets.2]) : fs.foldl push {} = info := by
  have hmem := List.mem_permutations'.2 h
  simp only [List.permutations', List.permutations'Aux, List.flatMap_cons, List.flatMap_nil,
    List.map_cons, List.map_nil, List.cons_append, List.nil_append, List.mem_cons, List.not_mem_nil,
    or_false] at hmem
  rcases hmem with rfl | rfl | rfl | rfl | rfl | rfl <;> simp [push]

/-- What a member does to the map of a header. -/
def enter (out : Infos) : Entry → Infos
  | .metadata => out
  | .tensor name info => out.insert name info

theorem reads_entry {e : Entry} (h : EntryText PlainUnit t e) (out : Infos) :
    Reads (member (headerValue out)) t (enter out e) := by
  intro rest hrest
  cases e with
  | metadata =>
    obtain ⟨w, vt, hw, hv, hrun⟩ := run_member h (headerValue out) rest
    rw [hrun]
    unfold headerValue
    rw [if_pos rfl, run_bind (run_skipAny hw hv hrest)]
    rfl
  | tensor name info =>
    obtain ⟨hname, hpair⟩ := h
    obtain ⟨w, vt, hw, ⟨fs, hfs, hperm⟩, hrun⟩ := run_member hpair (headerValue out) rest
    obtain ⟨inner, rfl, ⟨rfl, -⟩ | ⟨hne, ts, rfl, hts⟩⟩ := hfs
    · exact absurd hperm.length_eq.symm (Nat.succ_ne_zero 2)
    · have hopen := (skipsWs_eat (byte '{') w _ hw).trans
        (run_eat (r := utf8 (commas ts) ++ byte '}' :: rest) (by decide))
      have hloop := loop_reads (R := FieldText PlainUnit)
        (fun info => skipsWs_member (fieldValue info)) (fun info t f hf => reads_field hf info) hts hne (.inl rfl) {} rest
      rw [foldl_push hperm] at hloop
      rw [hrun, utf8_brackets (.inl ⟨rfl, rfl⟩)]
      unfold headerValue
      rw [if_neg hname, run_bind hopen, run_bind hloop, run_bind (run_eat (by decide))]
      rfl

theorem foldl_enter (es : List Entry) (out : Infos) :
    es.foldl enter out = insertEach out (es.filterMap Entry.tensor?) := by
  induction es generalizing out with
  | nil => rfl
  | cons e es ih =>
    rw [List.foldl_cons, ih]
    cases e <;> rfl

theorem starts_entry {e : Entry} (h : EntryText PlainUnit t e) : Starts '}' t := by
  cases e with
  | metadata => exact starts_pair h (.inl rfl)
  | tensor name info => exact starts_pair h.2 (.inl rfl)

/-- A header is read as the map that it describes. -/
theorem parseHeader_text {text : List Char} {tensors : List (List Char × StInfo)}
    (h : HeaderText PlainUnit text tensors) :
    parseHeader text = .ok (insertEach ∅ tensors) := by
  obtain ⟨es, ⟨w, t, w', hw, hw', rfl, hes⟩, rfl⟩ := h
  have hend : Closed (utf8 w') := by
    have := closed_ws hw' (r := []) fun c hc => by cases hc
    rwa [List.append_nil] at this
  have hread := reads_bracketed (R := EntryText PlainUnit)
    (fun out => skipsWs_member (headerValue out)) (fun out t e he => reads_entry he out)
    (.inl ⟨rfl, rfl⟩) (fun t e he => starts_entry he) hes ∅ (utf8 w') hend
  unfold parseHeader
  rw [StateT.run'_eq, utf8_append, utf8_append, skipsWs_bracketed _ _ _ _ w _ hw, hread, foldl_enter]
  rfl

/-! ## Indexes -/

theorem reads_weight {e : List Char × List Char}
    (h : Pair (AsciiString PlainUnit) (AsciiString PlainUnit) t e) (out : WeightMap) :
    Reads (member (weightValue out)) t (out.insert e.1 e.2) := by
  intro rest hrest
  obtain ⟨w, vt, hw, hv, hrun⟩ := run_member h (weightValue out) rest
  have hstring := (skipsWs_string w _ hw).trans (string_plain hv rest)
  rw [hrun]
  unfold weightValue
  rw [run_bind hstring]
  rfl

/-- What a member does to the map of an index. -/
def enterIndex (out : WeightMap) : IndexMember → WeightMap
  | .weightMap entries => insertEach out entries
  | .other _ => out

theorem reads_indexMember {m : IndexMember} (h : IndexMemberText PlainUnit t m) (out : WeightMap) :
    Reads (member (indexValue out)) t (enterIndex out m) := by
  intro rest hrest
  cases m with
  | weightMap entries =>
    obtain ⟨w, vt, hw, hv, hrun⟩ := run_member h (indexValue out) rest
    have hread := reads_bracketed (R := Pair (AsciiString PlainUnit) (AsciiString PlainUnit))
      (fun out => skipsWs_member (weightValue out)) (fun out t e he => reads_weight he out)
      (.inl ⟨rfl, rfl⟩)
      (fun t e he => starts_pair he (.inl rfl)) hv out rest hrest
    rw [hrun]
    unfold indexValue
    rw [if_pos rfl, skipsWs_bracketed _ _ _ _ w _ hw]
    exact hread
  | other key =>
    obtain ⟨hkey, hpair⟩ := h
    obtain ⟨w, vt, hw, hv, hrun⟩ := run_member hpair (indexValue out) rest
    rw [hrun]
    unfold indexValue
    rw [if_neg hkey, run_bind (run_skipAny hw hv hrest)]
    rfl

theorem foldl_enterIndex (ms : List IndexMember) (out : WeightMap) :
    ms.foldl enterIndex out = (ms.filterMap IndexMember.weightMap?).foldl insertEach out := by
  induction ms generalizing out with
  | nil => rfl
  | cons m ms ih =>
    rw [List.foldl_cons, ih]
    cases m <;> rfl

/-- An index is read as its weight map. -/
theorem parseIndexWeightMap_text {text : List Char} {entries : List (List Char × List Char)}
    (h : IndexText PlainUnit text entries) :
    parseIndexWeightMap text = .ok (insertEach ∅ entries) := by
  obtain ⟨ms, ⟨w, t, w', hw, hw', rfl, hms⟩, hentries⟩ := h
  obtain ⟨inner, rfl, ⟨rfl, -⟩ | ⟨hne, ts, rfl, hts⟩⟩ := hms
  · cases hentries
  · have hopen := (skipsWs_eat (byte '{') w _ hw).trans
      (run_eat (r := utf8 (commas ts) ++ byte '}' :: utf8 w') (by decide))
    have hloop := loop_reads (R := IndexMemberText PlainUnit)
      (fun out => skipsWs_member (indexValue out)) (fun out t m hm => reads_indexMember hm out) hts hne (.inl rfl) ∅ (utf8 w')
    rw [foldl_enterIndex, hentries] at hloop
    unfold parseIndexWeightMap
    rw [StateT.run'_eq, utf8_append, utf8_append, utf8_brackets (.inl ⟨rfl, rfl⟩), run_bind hopen, hloop]
    rfl

/-! ## Shards -/

theorem fromMmap_ok {mmap : List UInt8} {json : List Char} {n : ℕ} {infos : Infos}
    (h8 : 8 ≤ mmap.length) (hn : leNat (mmap.take 8) = n) (hmax : n ≤ maxHeader)
    (hfile : 8 + n ≤ mmap.length) (htext : fromUtf8 ((mmap.drop 8).take n) = some json)
    (hjson : parseHeader json = .ok infos) :
    StShard.fromMmap mmap = .ok ⟨mmap, 8 + n, infos⟩ := by
  unfold StShard.fromMmap nLen
  rw [if_neg (not_lt.2 h8), hn]
  simp only
  rw [if_pos ⟨hmax, hfile⟩, htext]
  simp only
  rw [hjson]
  rfl

/-- A shard that is open. -/
def Shard.opened (s : Shard) : StShard := ⟨s.bytes, s.base, insertEach ∅ s.tensors⟩

/-- A well formed shard is opened. -/
theorem openFile_wellFormed {s : Shard} (h : s.WellFormed PlainUnit) :
    StShard.openFile (some s.bytes) = .ok s.opened := by
  have hlen : (leBytes 8 (utf8 s.header).length).length = 8 := leBytes_length 8 _
  have hlt : (utf8 s.header).length < 256 ^ 8 := by
    have hmax := h.length
    unfold maxHeader at hmax
    omega
  have hsize : s.bytes.length = 8 + (utf8 s.header).length + s.data.length := by
    unfold Shard.bytes
    rw [List.length_append, List.length_append, hlen]
    omega
  refine fromMmap_ok (by omega) ?_ h.length (by omega) ?_ (parseHeader_text h.header)
  · unfold Shard.bytes
    rw [List.take_left' hlen]
    exact leNat_leBytes hlt
  · unfold Shard.bytes
    rw [List.drop_left' hlen, List.take_left, Json.fromUtf8_utf8]

/-- The bytes of a tensor of an opened shard. -/
theorem raw_shard {s : Shard} (h : s.WellFormed PlainUnit) (name : List Char) :
    (s.tensors.lookup name = none →
      s.opened.raw name = .ok none) ∧
    ∀ info, s.tensors.lookup name = some info →
      TensorBytes s info (s.opened.raw name) := by
  have hlookup : (insertEach ∅ s.tensors).lookup name = s.tensors.lookup name := by
    rw [lookup_insertEach, lookup_reverse h.names, AList.lookup_empty, Option.or_none]
  unfold StShard.raw Shard.opened
  simp only
  rw [hlookup]
  refine ⟨fun hnone => by rw [hnone]; rfl, fun info hsome => ?_⟩
  rw [hsome]
  intro hbegin hend
  simp only
  rw [Nat.mod_eq_of_lt hbegin, Nat.mod_eq_of_lt hend]
  constructor
  · intro hle hfile
    have hslice : (Cursor.slice s.bytes (s.base + info.dataOffsets.1) (s.base + info.dataOffsets.2) :
        Res (List UInt8)) = .ok ((s.bytes.take (s.base + info.dataOffsets.2)).drop
          (s.base + info.dataOffsets.1)) := if_pos ⟨by omega, hfile⟩
    rw [hslice]
    rfl
  · intro hout
    have hslice : (Cursor.slice s.bytes (s.base + info.dataOffsets.1) (s.base + info.dataOffsets.2) :
        Res (List UInt8)) = .error .panic := if_neg (by omega)
    rw [hslice]
    rfl

/-! ## The model of an index -/

theorem mapM_ok {f : α → Res β} {g : α → β} {l : List α} (h : ∀ a ∈ l, f a = .ok (g a)) :
    l.mapM f = .ok (l.map g) := by
  induction l with
  | nil => rfl
  | cons a l ih =>
    obtain ⟨ha, hl⟩ := List.forall_mem_cons.1 h
    rw [List.mapM_cons, ha, ih hl]
    rfl

theorem mem_destutter' {x a : List Char} {l : List (List Char)} (h : x ∈ a :: l) :
    x ∈ l.destutter' (· ≠ ·) a := by
  induction l generalizing a with
  | nil => exact h
  | cons c l ih =>
    by_cases hac : a ≠ c
    · rw [List.destutter'_cons_pos l hac]
      rcases List.mem_cons.1 h with rfl | h
      · exact List.mem_cons_self
      · exact List.mem_cons_of_mem _ (ih h)
    · rw [List.destutter'_cons_neg l hac]
      obtain rfl := not_not.1 hac
      apply ih
      rcases List.mem_cons.1 h with rfl | h
      · exact List.mem_cons_self
      · exact h

/-- The shards are the values of the weight map. -/
theorem mem_shardFiles {m : WeightMap} {f : List Char} :
    f ∈ shardFiles m ↔ f ∈ m.entries.map fun e => e.2 := by
  unfold shardFiles
  constructor
  · intro h
    exact List.mem_mergeSort.1 ((List.destutter_sublist _ _).subset h)
  · intro h
    have hsorted : f ∈ (m.entries.map fun e => e.2).mergeSort fun a b => decide (a ≤ b) :=
      List.mem_mergeSort.2 h
    generalize (m.entries.map fun e => e.2).mergeSort _ = l at hsorted
    cases l with
    | nil => cases hsorted
    | cons a l => exact mem_destutter' hsorted

/-- Every shard stands at its position. -/
theorem exists_position {files : List (List Char)} {f : List Char} (h : f ∈ files) :
    ∃ n, position files f = .ok n ∧ files[n]? = some f := by
  have hsome : (files.zipIdx.reverse.lookup f).isSome := by
    obtain ⟨n, hn⟩ := List.getElem?_of_mem h
    refine List.lookup_isSome_iff.2 ⟨(f, n), ?_, beq_self_eq_true f⟩
    exact List.mem_reverse.2 (List.mem_zipIdx_iff_getElem?.2 hn)
  obtain ⟨n, hn⟩ := Option.isSome_iff_exists.1 hsome
  obtain ⟨l₁, l₂, hl, -⟩ := List.lookup_eq_some_iff.1 hn
  have hmem : (f, n) ∈ files.zipIdx := by
    rw [← List.mem_reverse, hl]
    exact List.mem_append_right l₁ List.mem_cons_self
  refine ⟨n, ?_, List.mem_zipIdx_iff_getElem?.1 hmem⟩
  unfold position
  rw [lookup_insertEach, hn]
  rfl

/-- The model of an index opens, and finds every name in its shard. -/
theorem sharded_routes {files : List Char → Option (List UInt8)} {index : List Char}
    {entries : List (List Char × List Char)} {shard : List Char → Shard}
    (hindex : IndexText PlainUnit index entries) (hnames : (entries.map Prod.fst).Nodup)
    (hshards : ∀ f ∈ entries.map Prod.snd, files f = some (shard f).bytes ∧
      (shard f).WellFormed PlainUnit) :
    ∃ m, StModel.sharded files index = .ok m ∧ Routes m entries shard := by
  generalize hW : insertEach ∅ entries = W
  have hlookup (name : List Char) : W.lookup name = entries.lookup name := by
    rw [← hW, lookup_insertEach, lookup_reverse hnames, AList.lookup_empty, Option.or_none]
  have hfile {f : List Char} (hf : f ∈ shardFiles W) :
      StShard.openFile (files f) = .ok (shard f).opened := by
    obtain ⟨⟨name, f'⟩, he, rfl⟩ := List.mem_map.1 (mem_shardFiles.1 hf)
    have hentry : (name, f') ∈ entries :=
      (lookup_iff_mem hnames).1 ((hlookup name).symm.trans (AList.mem_lookup_iff.2 he))
    obtain ⟨hbytes, hwell⟩ := hshards f' (List.mem_map.2 ⟨_, hentry, rfl⟩)
    rw [hbytes]
    exact openFile_wellFormed hwell
  have hshardList := mapM_ok (l := shardFiles W) fun f hf => hfile hf
  -- every name is mapped to a position of its shard
  choose! pos hpos using fun f (hf : f ∈ shardFiles W) => exists_position hf
  have hvalue {e : Σ _ : List Char, List Char} (he : e ∈ W.entries) : e.2 ∈ shardFiles W :=
    mem_shardFiles.2 (List.mem_map.2 ⟨e, he, rfl⟩)
  have hentries : (W.entries.mapM fun e => do
      let n ← position (shardFiles W) e.2
      pure (e.1, n) : Res (List (List Char × ℕ))) = .ok (W.entries.map fun e => (e.1, pos e.2)) := by
    refine mapM_ok fun e he => ?_
    rw [(hpos e.2 (hvalue he)).1]
    rfl
  refine ⟨⟨(shardFiles W).map fun f => (shard f).opened,
    insertEach ∅ (W.entries.map fun e => (e.1, pos e.2))⟩, ?_, fun name => ?_⟩
  · unfold StModel.sharded
    rw [parseIndexWeightMap_text hindex, hW]
    show ((shardFiles W).mapM _ >>= fun shards => (W.entries.mapM _ >>= fun entries =>
      pure ⟨shards, insertEach ∅ entries⟩) : Res StModel) = _
    rw [hshardList, hentries]
    rfl
  · have hmap := (lookup_insertEach_entries W (fun e => pos e.2) name).trans
      (congrArg (Option.map pos) (hlookup name))
    unfold StModel.raw
    simp only
    rw [hmap]
    refine ⟨fun hnone => by rw [hnone]; rfl, fun f hf => ?_⟩
    have hmem : f ∈ shardFiles W :=
      hvalue (AList.mem_lookup_iff.1 ((hlookup name).trans hf))
    rw [hf, Option.map_some]
    simp only
    rw [List.getElem?_map, (hpos f hmem).2, Option.map_some]
    obtain ⟨-, hwell⟩ := hshards f (List.mem_map.2 ⟨_, (lookup_iff_mem hnames).1 hf, rfl⟩)
    exact raw_shard hwell name

/-! ## The whole -/

/-- Headers are read as the maps that they describe, and a model with an index returns for every name the
bytes of its extent in the shard that owns it. -/
theorem headers_and_shards :
    (∀ text tensors, HeaderText PlainUnit text tensors → (tensors.map Prod.fst).Nodup →
      ∃ m, parseHeader text = .ok m ∧ ∀ name, m.lookup name = tensors.lookup name) ∧
    ∀ files index entries (shard : List Char → Shard),
      files "model.safetensors.index.json".toList = some (utf8 index) →
      IndexText PlainUnit index entries → (entries.map Prod.fst).Nodup →
      (∀ f ∈ entries.map Prod.snd, files f = some (shard f).bytes ∧
        (shard f).WellFormed PlainUnit) →
      ∃ m, StModel.openPath (.dir files) = .ok m ∧ Routes m entries shard := by
  constructor
  · intro text tensors htext hnames
    refine ⟨_, parseHeader_text htext, fun name => ?_⟩
    rw [lookup_insertEach, lookup_reverse hnames, AList.lookup_empty, Option.or_none]
  · intro files index entries shard hfile hindex hnames hshards
    obtain ⟨m, hm, hroutes⟩ := sharded_routes hindex hnames hshards
    refine ⟨m, ?_, hroutes⟩
    unfold StModel.openPath
    simp only
    rw [hfile]
    simp only
    rw [Json.fromUtf8_utf8]
    exact hm

/-- A string between its quotes. -/
def quoted (s : String) : List Char := '"' :: (s.toList ++ ['"'])

/-- The header of the tensor `a`, whose name is spelled with a codepoint. -/
def escapedHeader : List Char :=
  '{' :: (quoted "\\u0061" ++ ':' :: ('{' :: (commas [quoted "dtype" ++ ':' :: quoted "F32",
    quoted "shape" ++ ':' :: "[]".toList, quoted "data_offsets" ++ ':' :: "[0,4]".toList] ++ ['}'])) ++
    ['}'])

theorem quoted_ascii {s : String}
    (h : ∀ c ∈ s.toList, (0x20 ≤ c.toNat ∧ c ≠ '"' ∧ c ≠ '\\') ∧ c.toNat < 0x80) :
    AsciiString RfcUnit (quoted s) s.toList := by
  refine ⟨fun c hc => (h c hc).2, s.toList, rfl, ?_⟩
  have hspell := spelled_flatMap (R := RfcUnit) (f := fun c : Char => [c]) (g := id)
    fun c (hc : c ∈ s.toList) => Json.UnitText.raw (h c hc).1
  rwa [List.flatMap_singleton', List.map_id] at hspell

theorem padded_self {R : List Char → α → Prop} {a : α} (h : R t a) : Padded R t a :=
  ⟨[], t, [], List.forall_mem_nil _, List.forall_mem_nil _, (List.append_nil t).symm, h⟩

theorem pair_self {K : List Char → α → Prop} {V : List Char → β → Prop} {k v : List Char} {a : α}
    {x : β} (hk : K k a) (hv : V v x) : Pair K V (k ++ ':' :: v) (a, x) :=
  ⟨k, [], [], v, rfl, List.forall_mem_nil _, List.forall_mem_nil _, hk, hv⟩

/-- The escapes of RFC 8259 that the reader does not have: the tensor is not found under its name. -/
theorem escaped_name :
    HeaderText RfcUnit escapedHeader [("a".toList, ⟨"F32".toList, [], (0, 4)⟩)] ∧
      ¬ ∃ m, parseHeader escapedHeader = .ok m ∧
        ∀ name, m.lookup name =
          [("a".toList, (⟨"F32".toList, [], (0, 4)⟩ : StInfo))].lookup name := by
  constructor
  · have hname : AsciiString RfcUnit (quoted "\\u0061") "a".toList := by
      refine ⟨by simp, "\\u0061".toList, rfl, ?_⟩
      have hunit : RfcUnit "\\u0061".toList 'a' :=
        .hex (h := "0061".toList) (v := 0x61) ⟨by decide, by decide⟩ (by decide)
      have hspell : Spelled RfcUnit ("\\u0061".toList ++ []) ['a'] := .cons hunit .nil
      exact hspell
    have hdtype : FieldText RfcUnit (quoted "dtype" ++ ':' :: quoted "F32") (.dtype "F32".toList) :=
      pair_self (quoted_ascii (by simp)) (quoted_ascii (by simp))
    have hshape : FieldText RfcUnit (quoted "shape" ++ ':' :: "[]".toList) (.shape []) :=
      pair_self (quoted_ascii (by simp)) ⟨[], rfl, .inl ⟨rfl, List.forall_mem_nil _⟩⟩
    have hoffsets : FieldText RfcUnit (quoted "data_offsets" ++ ':' :: "[0,4]".toList)
        (.dataOffsets 0 4) := by
      refine pair_self (quoted_ascii (by simp)) ⟨"0,4".toList, rfl, .inr ⟨List.cons_ne_nil _ _,
        ["0".toList, "4".toList], rfl, ?_⟩⟩
      exact .cons (padded_self ⟨rfl, by decide⟩) (.cons (padded_self ⟨rfl, by decide⟩) .nil)
    refine ⟨[.tensor "a".toList ⟨"F32".toList, [], (0, 4)⟩], padded_self ⟨_, rfl,
      .inr ⟨List.cons_ne_nil _ _, [_], (Json.commas_singleton _).symm, ?_⟩⟩, rfl⟩
    refine .cons (padded_self ⟨by decide, pair_self hname ⟨_, ⟨_, rfl, .inr ⟨?_, _, rfl, ?_⟩⟩, .rfl⟩⟩)
      .nil
    · exact List.cons_ne_nil _ _
    · exact .cons (padded_self hdtype) (.cons (padded_self hshape) (.cons (padded_self hoffsets) .nil))
  · rintro ⟨m, hm, hlookup⟩
    have hnone : (parseHeader escapedHeader).toOption.map (fun m => (m.lookup "a".toList).isNone) =
        some true := by decide +kernel
    rw [hm] at hnone
    have hsome := hlookup "a".toList
    rw [List.lookup_cons_self] at hsome
    rw [Except.toOption, Option.map_some, hsome] at hnone
    cases hnone

end Safetensors

end Memra
