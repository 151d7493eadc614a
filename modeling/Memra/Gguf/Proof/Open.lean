import Memra.Gguf.Proof.Format

/-!
# What `open` returns

`Reads` and `Refused` say of a path when `parse_one` returns a file and when it returns an error
(`parseAt_ok_iff`, `parseAt_err_iff`), `SplitName` which names have siblings
(`splitSiblingPaths_eq_some`), and `Siblings` how far the siblings of a split model are opened
(`openShards_ok_iff`, `openShards_err_iff`).
-/

namespace Memra

open Lib

/-! ## One path -/

/-- There is no file to read: none there, too large to be mapped, or of another format. -/
def Refused (p : Platform) (fs : FilePath → Option (List UInt8)) (path : FilePath) : Prop :=
  fs path = none ∨ ∃ buf, fs path = some buf ∧ (p.maxMap < buf.length ∨ Rejected buf)

/-- The file at the path is one of the format, of an alignment that is not zero. -/
def Reads (p : Platform) (fs : FilePath → Option (List UInt8)) (path : FilePath) (f : ParsedFile) :
    Prop :=
  ∃ buf kvs tensors headerEnd, fs path = some buf ∧ buf.length ≤ p.maxMap ∧
    Layout p buf kvs tensors headerEnd ∧ (insertAll kvs).alignment ≠ 0 ∧
    f = parsedOf buf kvs tensors headerEnd

variable {p : Platform} {fs : FilePath → Option (List UInt8)} {path : FilePath}

theorem parseAt_ok_iff {f : ParsedFile} : parseAt p fs path = .ok f ↔ Reads p fs path f := by
  have hmax := p.maxMap_lt
  constructor
  · intro h
    unfold parseAt at h
    split at h
    · cases h
    · rename_i buf hbuf
      split at h
      · rename_i hle
        obtain ⟨kvs, tensors, headerEnd, hfile⟩ := (parseOne_ok_iff (by omega)).1 h
        exact ⟨buf, kvs, tensors, headerEnd, hbuf, hle, hfile⟩
      · cases h
  · intro ⟨buf, kvs, tensors, headerEnd, hbuf, hle, hfile⟩
    unfold parseAt
    simp only [hbuf, if_pos hle]
    exact (parseOne_ok_iff (by omega)).2 ⟨kvs, tensors, headerEnd, hfile⟩

theorem parseAt_err_iff : parseAt p fs path = .error .err ↔ Refused p fs path := by
  unfold parseAt Refused
  cases hbuf : fs path with
  | none => simp
  | some buf =>
    by_cases hle : buf.length ≤ p.maxMap
    · simp only [if_pos hle, parseOne_err_iff]
      simp [Nat.not_lt.2 hle]
    · simp only [if_neg hle]
      simp [Nat.lt_of_not_le hle]

theorem Reads.version {f : ParsedFile} (h : Reads p fs path f) : f.version = 3 := by
  obtain ⟨_, _, _, _, _, _, _, _, hf⟩ := h
  rw [hf]
  rfl

/-! ## Names -/

theorem rsplitOnce_append {q head tail : List Char} {c : Char} (h : c ∉ tail) :
    rsplitOnce (head ++ (q ++ [c]) ++ tail) (q ++ [c]) = some (head, tail) := by
  have hrev : (head ++ (q ++ [c]) ++ tail).reverse =
      tail.reverse ++ c :: (q.reverse ++ head.reverse) := by simp
  have hpat : (q ++ [c]).reverse = c :: q.reverse := by simp
  unfold rsplitOnce
  rw [hrev, hpat, findSub_cons (by simpa using h), Option.map_some]
  have hdrop : (tail.reverse ++ c :: (q.reverse ++ head.reverse)).drop
      (tail.reverse.length + (q ++ [c]).length) = head.reverse := by
    rw [show tail.reverse ++ c :: (q.reverse ++ head.reverse) =
      (tail.reverse ++ c :: q.reverse) ++ head.reverse by simp]
    exact List.drop_left' (by simp)
  rw [hdrop, List.take_left, List.reverse_reverse, List.reverse_reverse]

theorem rsplitOnce_eq_some {s pat head tail : List Char} (h : rsplitOnce s pat = some (head, tail)) :
    s = head ++ pat ++ tail := by
  unfold rsplitOnce at h
  obtain ⟨i, hi, heq⟩ := Option.map_eq_some_iff.1 h
  cases heq
  obtain ⟨-, rest, hrest⟩ := (findSub_eq_some.1 hi).1
  have hdrop : s.reverse.drop (i + pat.length) = rest := by
    rw [← List.drop_drop, ← hrest]
    exact List.drop_left' (List.length_reverse)
  have hs : s.reverse = s.reverse.take i ++ (pat.reverse ++ rest) := by
    rw [hrest, List.take_append_drop]
  rw [hdrop]
  have hback := congrArg List.reverse hs
  simpa using hback

theorem dash_not_mem {num : List Char} (h : isFiveDigits num = true) : '-' ∉ num := by
  unfold isFiveDigits at h
  rw [Bool.and_eq_true, List.all_eq_true] at h
  intro hmem
  exact absurd (h.2 _ hmem) (by decide)

/-- The names `split_sibling_paths` takes: `<prefix>-%05d-of-%05d.gguf`. -/
def SplitName (name pre : List Char) : Prop :=
  ∃ num tail, isFiveDigits num = true ∧ isFiveDigits tail = true ∧
    name = pre ++ '-' :: num ++ "-of-".toList ++ tail ++ ".gguf".toList

theorem splitSiblingPaths_eq_some {count : ℕ} {paths : List FilePath} :
    splitSiblingPaths path count = some paths ↔ ∃ pre, SplitName path.name pre ∧
      paths = (List.range count).map fun i => ⟨path.dir, shardName pre (i + 1) count⟩ := by
  constructor
  · intro h
    unfold splitSiblingPaths at h
    obtain ⟨stem, hstem, h⟩ := Option.bind_eq_some_iff.1 h
    obtain ⟨⟨head, tail⟩, hhead, h⟩ := Option.bind_eq_some_iff.1 h
    obtain ⟨_, htail, h⟩ := Option.bind_eq_some_iff.1 h
    obtain ⟨⟨pre, num⟩, hpre, h⟩ := Option.bind_eq_some_iff.1 h
    obtain ⟨_, hnum, h⟩ := Option.bind_eq_some_iff.1 h
    cases h
    obtain ⟨suffix, hname, hsuffix⟩ := List.dropSuffix?_eq_some_iff.1 hstem
    simp only [ensure, Option.ite_none_right_eq_some] at htail hnum
    refine ⟨pre, ⟨num, tail, hnum.1, htail.1, ?_⟩, rfl⟩
    rw [hname, eq_of_beq hsuffix, rsplitOnce_eq_some hhead, rsplitOnce_eq_some hpre]
    simp
  · intro h
    obtain ⟨pre, ⟨num, tail, hnum, htail, hname⟩, hpaths⟩ := h
    have hstem : path.name.dropSuffix? ".gguf".toList =
        some ((pre ++ ['-'] ++ num) ++ "-of-".toList ++ tail) :=
      List.dropSuffix?_eq_some_iff.2 ⟨".gguf".toList, by rw [hname]; simp, by simp⟩
    have hhead : rsplitOnce ((pre ++ ['-'] ++ num) ++ "-of-".toList ++ tail) "-of-".toList =
        some (pre ++ ['-'] ++ num, tail) :=
      rsplitOnce_append (q := "-of".toList) (dash_not_mem htail)
    have hpre : rsplitOnce (pre ++ ['-'] ++ num) ['-'] = some (pre, num) :=
      rsplitOnce_append (q := []) (dash_not_mem hnum)
    subst hpaths
    unfold splitSiblingPaths
    simp only [hstem, hhead, hpre, ensure, hnum, htail, Option.bind_eq_bind, Option.bind_some,
      if_true]
    rfl

theorem isFiveDigits_pad5 {i : ℕ} (h : i < 10 ^ 5) : isFiveDigits (pad5 i) = true := by
  have hlen : (Nat.toDigits 10 i).length ≤ 5 :=
    (Nat.length_toDigits_le_iff (by decide) (by decide)).2 h
  unfold isFiveDigits pad5
  rw [Bool.and_eq_true, List.all_eq_true, decide_eq_true_iff, List.length_leftpad]
  refine ⟨by omega, ?_⟩
  intro c hc
  rw [List.leftpad, List.mem_append] at hc
  rcases hc with hc | hc
  · rw [List.eq_of_mem_replicate hc]
    decide
  · have hdigit := Nat.isDigit_of_mem_toDigits (by decide) (by decide) hc
    simp only [Char.isDigit, Bool.and_eq_true, decide_eq_true_eq] at hdigit
    exact Bool.and_eq_true_iff.2 ⟨decide_eq_true hdigit.1, decide_eq_true hdigit.2⟩

theorem splitName_shardName {pre : List Char} {i count : ℕ} (hi : i < 10 ^ 5)
    (hcount : count < 10 ^ 5) : SplitName (shardName pre i count) pre :=
  ⟨_, _, isFiveDigits_pad5 hi, isFiveDigits_pad5 hcount, rfl⟩

/-! ## The siblings -/

/-- `split.count`. -/
def ParsedFile.splitCount (f : ParsedFile) : ℕ := (f.metadata.getU64 "split.count").getD 0

/-- `split.no`. -/
def ParsedFile.splitNo (f : ParsedFile) : ℕ := (f.metadata.getU64 "split.no").getD 0

/-- `split.tensors.count`. -/
def ParsedFile.splitTensors (f : ParsedFile) : ℕ :=
  (f.metadata.getU64 "split.tensors.count").getD 0

/-- How the siblings from `i` on are opened: all of them, or up to one that is refused. -/
inductive Siblings (p : Platform) (fs : FilePath → Option (List UInt8)) (count : ℕ) :
    ℕ → List FilePath → Option (List ParsedFile) → Prop
  | done (i : ℕ) : Siblings p fs count i [] (some [])
  | refused {i : ℕ} {path : FilePath} {paths : List FilePath} (h : Refused p fs path) :
      Siblings p fs count i (path :: paths) none
  | next {i : ℕ} {path : FilePath} {paths : List FilePath} {f : ParsedFile}
      {rest : Option (List ParsedFile)} (hread : Reads p fs path f) (hno : f.splitNo = i)
      (hcount : f.splitCount = count) (tail : Siblings p fs count (i + 1) paths rest) :
      Siblings p fs count i (path :: paths) (rest.map (f :: ·))

/-- What `open` makes of the outcome for the siblings. -/
def siblingsResult (o : Option (List ParsedFile)) : Except Failure (List ParsedFile) :=
  o.elim (.error .err) .ok

theorem openShards_cons {count i : ℕ} {paths : List FilePath} {f : ParsedFile}
    (h : Reads p fs path f) :
    openShards p fs 3 count i (path :: paths) =
      if f.splitNo = i ∧ f.splitCount = count then
        (openShards p fs 3 count (i + 1) paths).map (f :: ·)
      else .error .fault := by
  rw [openShards, parseAt_ok_iff.2 h]
  change (do
    orFault (ensure (f.version = 3))
    orFault (ensure (f.splitNo = i))
    orFault (ensure (f.splitCount = count))
    let rest ← openShards p fs 3 count (i + 1) paths
    pure (f :: rest)) = _
  rw [h.version]
  by_cases hno : f.splitNo = i
  · by_cases hcount : f.splitCount = count
    · simp only [hno, hcount, and_self, if_true]
      cases openShards p fs 3 count (i + 1) paths <;> rfl
    · simp only [hno, hcount, and_false, if_false]
      rfl
  · simp only [hno, false_and, if_false]
    rfl

theorem openShards_of_siblings {count i : ℕ} {paths : List FilePath}
    {o : Option (List ParsedFile)} (h : Siblings p fs count i paths o) :
    openShards p fs 3 count i paths = siblingsResult o := by
  induction h with
  | done => rfl
  | refused h =>
    rw [openShards, parseAt_err_iff.2 h]
    rfl
  | @next _ _ _ _ rest hread hno hcount _ ih =>
    rw [openShards_cons hread, if_pos ⟨hno, hcount⟩, ih]
    cases rest <;> rfl

theorem siblings_of_openShards {count i : ℕ} {paths : List FilePath}
    (h : openShards p fs 3 count i paths ≠ .error .fault) :
    ∃ o, Siblings p fs count i paths o := by
  induction paths generalizing i with
  | nil => exact ⟨_, .done i⟩
  | cons path paths ih =>
    cases hparse : parseAt p fs path with
    | error e =>
      cases e with
      | err => exact ⟨_, .refused (parseAt_err_iff.1 hparse)⟩
      | fault =>
        rw [openShards, hparse] at h
        exact absurd rfl h
    | ok f =>
      have hread := parseAt_ok_iff.1 hparse
      rw [openShards_cons hread] at h
      by_cases hsplit : f.splitNo = i ∧ f.splitCount = count
      · rw [if_pos hsplit] at h
        obtain ⟨o, ho⟩ := ih fun hfault => h (by rw [hfault]; rfl)
        exact ⟨_, .next hread hsplit.1 hsplit.2 ho⟩
      · rw [if_neg hsplit] at h
        exact absurd rfl h

/-- All siblings are opened where each reads under its own number. -/
theorem siblings_some_iff {count i : ℕ} {paths : List FilePath} {shards : List ParsedFile} :
    Siblings p fs count i paths (some shards) ↔
      List.Forall₂ (Reads p fs) paths shards ∧
        ∀ j f, shards[j]? = some f → f.splitNo = i + j ∧ f.splitCount = count := by
  constructor
  · intro h
    generalize ho : some shards = o at h
    induction h generalizing shards with
    | done =>
      cases ho
      exact ⟨.nil, by simp⟩
    | refused => cases ho
    | next hread hno hcount _ ih =>
      obtain ⟨rest, hrest, hshards⟩ := Option.map_eq_some_iff.1 ho.symm
      subst hshards
      obtain ⟨hreads, hnumbers⟩ := ih hrest.symm
      refine ⟨.cons hread hreads, ?_⟩
      intro j f hj
      cases j with
      | zero =>
        cases hj
        exact ⟨hno, hcount⟩
      | succ j =>
        obtain ⟨hno', hcount'⟩ := hnumbers j f hj
        exact ⟨by omega, hcount'⟩
  · intro ⟨hreads, hnumbers⟩
    induction hreads generalizing i with
    | nil => exact .done i
    | cons hread _ ih =>
      obtain ⟨hno, hcount⟩ := hnumbers 0 _ rfl
      refine .next hread hno hcount (ih ?_)
      intro j f hj
      obtain ⟨hno', hcount'⟩ := hnumbers (j + 1) f hj
      exact ⟨by omega, hcount'⟩

/-! ## A model -/

/-- The model of one file. -/
def ParsedFile.single (f : ParsedFile) : GgufFile :=
  { shards := [f.shard]
    version := f.version
    metadata := f.metadata
    tensors := f.tensors.map fun t => { t with shard := 0 }
    dataStart := f.shard.dataStart
    alignment := f.metadata.alignment }

/-- The model of the shards behind `head`. -/
def mergedFile (head : ParsedFile) (shards : List ParsedFile) : GgufFile :=
  { shards := shards.map ParsedFile.shard
    version := 3
    metadata := mergeMetadata shards
    tensors := numberTensors shards
    dataStart := head.shard.dataStart
    alignment := (mergeMetadata shards).alignment }

theorem mergeMetadata_eq (shards : List ParsedFile) (k : List UInt8) :
    mergeMetadata shards k = shards.findSome? fun f => f.metadata k := by
  have hfold : ∀ (shards : List ParsedFile) (v : Option MetaValue),
      shards.foldl (fun v s => v.or (s.metadata k)) v =
        v.or (shards.findSome? fun f => f.metadata k) := by
    intro shards
    induction shards with
    | nil => simp
    | cons f shards ih =>
      intro v
      rw [List.foldl_cons, ih, Option.or_assoc, List.findSome?_cons]
      cases f.metadata k <;> rfl
  exact hfold shards none

theorem mergedFile_singleton {f : ParsedFile} (h : f.version = 3) : mergedFile f [f] = f.single := by
  have hmeta : mergeMetadata [f] = f.metadata := by
    funext k
    rw [mergeMetadata_eq]
    cases hk : f.metadata k <;> simp [hk]
  unfold mergedFile ParsedFile.single
  rw [hmeta, h]
  simp [numberTensors]

theorem numberTensors_length (shards : List ParsedFile) :
    (numberTensors shards).length = (shards.map fun f => f.tensors.length).sum := by
  unfold numberTensors
  rw [List.length_flatten, List.map_map, ← List.zipIdx_map_fst 0 shards, List.map_map,
    List.zipIdx_map_fst]
  exact congrArg List.sum (List.map_congr_left fun s _ => List.length_map _)

theorem openGguf_error {e : Failure} (h : parseAt p fs path = .error e) :
    openGguf p fs path = .error e := by
  unfold openGguf
  rw [h]
  rfl

theorem openGguf_single {f : ParsedFile} (h : Reads p fs path f) (hcount : f.splitCount ≤ 1) :
    openGguf p fs path = .ok f.single := by
  unfold openGguf
  rw [parseAt_ok_iff.2 h]
  exact if_pos hcount

theorem openGguf_noName {f : ParsedFile} (h : Reads p fs path f) (hcount : ¬ f.splitCount ≤ 1)
    (hpaths : splitSiblingPaths path f.splitCount = none) : openGguf p fs path = .error .err := by
  unfold openGguf
  rw [parseAt_ok_iff.2 h]
  change (if f.splitCount ≤ 1 then _ else _) = _
  rw [if_neg hcount]
  unfold ParsedFile.splitCount at hpaths
  simp only [hpaths]
  rfl

/-- Capacities for as many paths and shards. -/
def Fits (p : Platform) (n : ℕ) : Prop := n * p.pathSize < 2 ^ 63 ∧ n * p.shardSize < 2 ^ 63

instance (p : Platform) (n : ℕ) : Decidable (Fits p n) := instDecidableAnd

/-- What `open` does with the shards it opened. -/
def mergeShards (total : ℕ) (shards : List ParsedFile) : Except Failure GgufFile :=
  if total > 0 ∧ (numberTensors shards).length ≠ total then .error .fault
  else shards.head?.elim (.error .fault) fun head => .ok (mergedFile head shards)

theorem orFault_ensure {c : Prop} [Decidable c] :
    orFault (ensure c) = if c then .ok () else .error .fault := by
  unfold ensure
  split <;> rfl

theorem openGguf_split {f : ParsedFile} {paths : List FilePath} (h : Reads p fs path f)
    (hcount : ¬ f.splitCount ≤ 1) (hpaths : splitSiblingPaths path f.splitCount = some paths) :
    openGguf p fs path =
      if Fits p f.splitCount then
        openShards p fs 3 f.splitCount 0 paths >>= mergeShards f.splitTensors
      else .error .fault := by
  unfold openGguf
  rw [parseAt_ok_iff.2 h]
  change (if f.splitCount ≤ 1 then _ else _) = _
  rw [if_neg hcount]
  unfold ParsedFile.splitCount at hpaths
  simp only [hpaths]
  change (do
    orFault (withCapacity f.splitCount p.pathSize)
    orFault (withCapacity f.splitCount p.shardSize)
    let shards ← openShards p fs f.version f.splitCount 0 paths
    if f.splitTensors > 0 then do
      orFault (ensure ((numberTensors shards).length = f.splitTensors))
      let head ← orFault shards.head?
      pure { mergedFile head shards with version := f.version }
    else do
      let head ← orFault shards.head?
      pure { mergedFile head shards with version := f.version }) = _
  unfold withCapacity
  rw [h.version, orFault_ensure, orFault_ensure]
  by_cases hpath : f.splitCount * p.pathSize < 2 ^ 63
  · by_cases hshard : f.splitCount * p.shardSize < 2 ^ 63
    · rw [if_pos hpath, if_pos hshard, if_pos ⟨hpath, hshard⟩]
      change openShards p fs 3 f.splitCount 0 paths >>= _ = _
      apply bind_congr
      intro shards
      unfold mergeShards
      rw [orFault_ensure]
      by_cases htotal : f.splitTensors > 0
      · by_cases hlen : (numberTensors shards).length = f.splitTensors
        · rw [if_pos htotal, if_pos hlen, if_neg fun hne => hne.2 hlen]
          cases shards <;> rfl
        · rw [if_pos htotal, if_neg hlen, if_pos ⟨htotal, hlen⟩]
          rfl
      · rw [if_neg htotal, if_neg fun hne => htotal hne.1]
        cases shards <;> rfl
    · have hfits : ¬ Fits p f.splitCount := fun h => hshard h.2
      rw [if_pos hpath, if_neg hshard, if_neg hfits]
      rfl
  · have hfits : ¬ Fits p f.splitCount := fun h => hpath h.1
    rw [if_neg hpath, if_neg hfits]
    rfl

/-- How a model is opened: the files it consists of, or none where there is an error. -/
inductive Opens (p : Platform) (fs : FilePath → Option (List UInt8)) (path : FilePath) :
    Option (List ParsedFile) → Prop
  | refused (h : Refused p fs path) : Opens p fs path none
  | single {f : ParsedFile} (hread : Reads p fs path f) (hcount : f.splitCount ≤ 1) :
      Opens p fs path (some [f])
  | noName {f : ParsedFile} (hread : Reads p fs path f) (hcount : ¬ f.splitCount ≤ 1)
      (hname : ∀ pre, ¬ SplitName path.name pre) : Opens p fs path none
  | split {f : ParsedFile} {pre : List Char} {o : Option (List ParsedFile)}
      (hread : Reads p fs path f) (hcount : ¬ f.splitCount ≤ 1) (hname : SplitName path.name pre)
      (hfits : Fits p f.splitCount)
      (hsiblings : Siblings p fs f.splitCount 0 ((List.range f.splitCount).map fun i =>
        ⟨path.dir, shardName pre (i + 1) f.splitCount⟩) o)
      (htotal : ∀ shards, o = some shards →
        f.splitTensors = 0 ∨ f.splitTensors = (shards.map fun f => f.tensors.length).sum) :
      Opens p fs path o

/-- What `open` makes of the files. -/
def openResult (o : Option (List ParsedFile)) : Except Failure GgufFile :=
  o.elim (.error .err) fun files =>
    files.head?.elim (.error .fault) fun head => .ok (mergedFile head files)

theorem mergeShards_of_total {total : ℕ} {shards : List ParsedFile}
    (h : total = 0 ∨ total = (shards.map fun f => f.tensors.length).sum) :
    mergeShards total shards = openResult (some shards) := by
  apply if_neg
  rw [numberTensors_length]
  omega

theorem openGguf_of_opens {o : Option (List ParsedFile)} (h : Opens p fs path o) :
    openGguf p fs path = openResult o := by
  cases h with
  | refused h => exact openGguf_error (parseAt_err_iff.2 h)
  | single hread hcount =>
    rw [openGguf_single hread hcount, ← mergedFile_singleton hread.version]
    rfl
  | noName hread hcount hname =>
    apply openGguf_noName hread hcount
    rw [Option.eq_none_iff_forall_ne_some]
    intro paths hpaths
    obtain ⟨pre, hpre, -⟩ := splitSiblingPaths_eq_some.1 hpaths
    exact hname pre hpre
  | split hread hcount hname hfits hsiblings htotal =>
    rw [openGguf_split hread hcount (splitSiblingPaths_eq_some.2 ⟨_, hname, rfl⟩), if_pos hfits,
      openShards_of_siblings hsiblings]
    cases o with
    | none => rfl
    | some shards => exact mergeShards_of_total (htotal shards rfl)

theorem opens_of_openGguf (h : openGguf p fs path ≠ .error .fault) : ∃ o, Opens p fs path o := by
  cases hparse : parseAt p fs path with
  | error e =>
    cases e with
    | err => exact ⟨_, .refused (parseAt_err_iff.1 hparse)⟩
    | fault => exact absurd (openGguf_error hparse) h
  | ok f =>
    have hread := parseAt_ok_iff.1 hparse
    by_cases hcount : f.splitCount ≤ 1
    · exact ⟨_, .single hread hcount⟩
    · by_cases hname : ∃ pre, SplitName path.name pre
      · obtain ⟨pre, hname⟩ := hname
        rw [openGguf_split hread hcount (splitSiblingPaths_eq_some.2 ⟨pre, hname, rfl⟩)] at h
        by_cases hfits : Fits p f.splitCount
        · rw [if_pos hfits] at h
          obtain ⟨o, ho⟩ := siblings_of_openShards fun hfault => h (by rw [hfault]; rfl)
          refine ⟨o, .split hread hcount hname hfits ho ?_⟩
          intro shards hshards
          subst hshards
          rw [openShards_of_siblings ho] at h
          by_contra htotal
          apply h
          apply if_pos
          rw [numberTensors_length]
          omega
        · rw [if_neg hfits] at h
          exact absurd rfl h
      · exact ⟨_, .noName hread hcount (not_exists.1 hname)⟩

theorem Opens.ne_nil {files : List ParsedFile} (h : Opens p fs path (some files)) : files ≠ [] := by
  cases h with
  | single => exact List.cons_ne_nil _ _
  | split _ hcount _ _ hsiblings _ =>
    have hlen := (siblings_some_iff.1 hsiblings).1.length_eq
    rw [List.length_map, List.length_range] at hlen
    intro hnil
    rw [hnil, List.length_nil] at hlen
    omega

theorem Opens.reads {files : List ParsedFile} (h : Opens p fs path (some files)) {f : ParsedFile}
    (hf : f ∈ files) : ∃ path, Reads p fs path f := by
  cases h with
  | single hread =>
    rw [List.mem_singleton] at hf
    exact ⟨_, hf ▸ hread⟩
  | split _ _ _ _ hsiblings _ =>
    obtain ⟨hlen, hreads⟩ := List.forall₂_iff_get.1 (siblings_some_iff.1 hsiblings).1
    obtain ⟨i, hi⟩ := List.get_of_mem hf
    have hread := hreads i (by omega) i.2
    rw [Fin.eta, hi] at hread
    exact ⟨_, hread⟩

/-! ## The bytes of a tensor -/

theorem u64Of_of_lt {x : ℕ} (h : x < 2 ^ 64) : u64Of p x = some x := if_pos h

/-- A tensor whose range ends in its file is read. -/
theorem tensorData_of_range {g : GgufFile} {t : TensorInfo} {sh : Shard}
    (hsh : g.shards[t.shard]? = some sh) (hlen : sh.mmap.length < 2 ^ 63)
    (h : sh.dataStart + t.offset + t.nBytes ≤ sh.mmap.length) :
    g.tensorData p t = some ((sh.mmap.drop (sh.dataStart + t.offset)).take t.nBytes) := by
  unfold GgufFile.tensorData ensure
  simp only [hsh, Option.bind_eq_bind, Option.bind_some]
  rw [u64Of_of_lt (by omega), Option.bind_some, u64Of_of_lt (by omega), Option.bind_some,
    if_pos ⟨by omega, h⟩, Nat.add_sub_cancel_left]
  rfl

/-- A small build. -/
def tinyPlatform : Platform where
  overflowChecks := true
  maxMap := 2 ^ 20
  metaSize := 32
  tensorSize := 96
  pathSize := 24
  shardSize := 72
  maxMap_lt := by decide
  meta_fits := by decide
  tensor_fits := by decide
  path_fits := by decide
  shard_fits := by decide

end Memra
