import Memra.Gguf.Repack

/-!
# What `open` has checked

Every step of `open` is inverted once (`openWith_ok`): the tensors are those that the manifest lists, their
paths lead down, every file of theirs is mapped and is at least as long as the sum that was compared
(`Checked`), and a mask leaves experts enough. `Checked` holds of every manifest of a chain
(`levels_checked`).
-/

namespace Memra

open Lib Lib.PathText

namespace Repack

section
variable {S α β ε δ : Type}

theorem bind_ok {x : Except δ α} {f : α → Except δ β} {b : β} (h : (x >>= f) = .ok b) :
    ∃ a, x = .ok a ∧ f a = .ok b := by
  cases x with
  | error e => cases h
  | ok a => exact ⟨a, rfl, h⟩

theorem okOr_ok {e : ε} {o : Option α} {a : α} : okOr e o = .ok a ↔ o = some a := by
  cases o <;> simp [okOr]

theorem ofRes_ok {r : Res α} {a : α} : (ofRes r : Except (Fault ε) α) = .ok a ↔ r = .ok a := by
  match r with
  | .ok b => simp [ofRes]
  | .error .panic => simp [ofRes]
  | .error .fuel => simp [ofRes]

theorem mapError_ok {f : ε → δ} {x : Except ε α} {a : α} : x.mapError f = .ok a ↔ x = .ok a := by
  cases x <;> simp [Except.mapError]

theorem foldlM_invariant {f : β → α → Except ε β} {P : β → Prop}
    (hstep : ∀ s x s', P s → f s x = .ok s' → P s') {l : List α} {s s' : β} (hs : P s)
    (h : l.foldlM f s = .ok s') : P s' := by
  induction l generalizing s with
  | nil =>
    obtain rfl : s = s' := Except.ok.inj h
    exact hs
  | cons x l ih =>
    rw [List.foldlM_cons] at h
    obtain ⟨s₁, h₁, hrest⟩ := bind_ok h
    exact ih (hstep s x s₁ hs h₁) hrest

/-! ## Entries -/

/-- A path that leads down. -/
def LeadsDown (file : List Char) : Prop := file ≠ [] ∧ ∀ c ∈ components file, c.isNormal = true

theorem validatedManifestFile_ok {raw file : List Char} (h : validatedManifestFile raw = .ok file) :
    LeadsDown file := by
  unfold validatedManifestFile at h
  split at h
  · cases h
  · rename_i hraw
    split at h
    · rename_i hall
      obtain rfl : raw = file := Except.ok.inj h
      exact ⟨fun he => hraw (.inl he), List.all_eq_true.1 hall⟩
    · cases h

theorem readTensor_ok {parseF64 : List Char → Option UInt64} {name raw : List Char} {t : RepackTensor}
    (h : readTensor parseF64 name raw = .ok t) : LeadsDown t.file := by
  unfold readTensor at h
  obtain ⟨obj, -, h⟩ := bind_ok h
  obtain ⟨file, -, h⟩ := bind_ok h
  obtain ⟨file', hfile, h⟩ := bind_ok h
  obtain ⟨qtype, -, h⟩ := bind_ok h
  obtain ⟨ne, -, h⟩ := bind_ok h
  obtain ⟨bytes, -, h⟩ := bind_ok h
  obtain ⟨ggmlType, -, h⟩ := bind_ok h
  obtain rfl := Except.ok.inj h
  exact validatedManifestFile_ok (mapError_ok.1 hfile)

/-! ## Masks -/

/-- The mask is one of a layer and leaves experts enough. -/
def MaskOf (moe : MoeConfig) (mask : List Bool) : Prop :=
  mask.length = moe.expertCount ∧ moe.expertUsedCount ≤ mask.count true

theorem readMask_ok {moe : MoeConfig} {layer : ℕ} {raw : List Char} {mask : List Bool}
    (h : readMask moe layer raw = .ok mask) : MaskOf moe mask := by
  unfold readMask at h
  obtain ⟨wrapper, -, h⟩ := bind_ok h
  obtain ⟨ids, -, h⟩ := bind_ok h
  obtain ⟨mask', hmask, h⟩ := bind_ok h
  have hlen : mask'.length = moe.expertCount := by
    refine foldlM_invariant (P := fun s : List Bool => s.length = moe.expertCount) ?_
      List.length_replicate hmask
    intro s id s' hs hid
    split at hid
    · cases hid
    · obtain rfl := Except.ok.inj hid
      rw [List.length_set, hs]
  split at h
  · cases h
  · rename_i hcount
    obtain rfl : mask' = mask := Except.ok.inj h
    exact ⟨hlen, Nat.not_lt.1 hcount⟩

theorem readPruned_ok {cfg : ModelConfig} {top : JsonObj} {masks : AList fun _ : ℕ => List Bool}
    (h : readPruned cfg top = .ok masks) {layer : ℕ} {mask : List Bool}
    (hmask : masks.lookup layer = some mask) : ∃ moe, cfg.moe = some moe ∧ MaskOf moe mask := by
  unfold readPruned at h
  obtain ⟨pruned, -, h⟩ := bind_ok h
  cases pruned with
  | none =>
    obtain rfl := Except.ok.inj h
    cases hmask
  | some pruned =>
    obtain ⟨moe, hmoe, h⟩ := bind_ok h
    refine ⟨moe, okOr_ok.1 hmoe, ?_⟩
    have hall : ∀ layer mask, masks.lookup layer = some mask → MaskOf moe mask := by
      refine foldlM_invariant (P := fun masks : AList fun _ : ℕ => List Bool =>
        ∀ layer mask, masks.lookup layer = some mask → MaskOf moe mask) ?_
        (fun _ _ hnone => by cases hnone) h
      intro masks e masks' hmasks he
      obtain ⟨layer', -, he⟩ := bind_ok he
      obtain ⟨mask', hread, he⟩ := bind_ok he
      obtain rfl := Except.ok.inj he
      intro k v hv
      rcases (lookup_insert_eq_some masks).1 hv with ⟨-, rfl⟩ | ⟨-, hold⟩
      · exact readMask_ok hread
      · exact hmasks k v hold
    exact hall layer mask hmask

/-! ## Files -/

/-- Every file is one that an entry names by the same path. -/
def Mapped (mapFile : List Char → Option Mapping) (dir : List Char) (ts : List RepackTensor)
    (files : Files) : Prop :=
  ∀ cs file, files.lookup cs = some file →
    ∃ t ∈ ts, components t.file = cs ∧ mapFile (join dir t.file) = some file

theorem mapFiles_ok {mapFile : List Char → Option Mapping} {dir : List Char}
    {ts all : List RepackTensor} {files files' : Files} (hsub : ∀ t ∈ ts, t ∈ all)
    (hfiles : Mapped mapFile dir all files) (h : mapFiles mapFile dir ts files = .ok files') :
    Mapped mapFile dir all files' := by
  induction ts generalizing files with
  | nil =>
    obtain rfl : files = files' := Except.ok.inj h
    exact hfiles
  | cons t ts ih =>
    obtain ⟨ht, hts⟩ := List.forall_mem_cons.1 hsub
    unfold mapFiles at h
    split at h
    · exact ih hts hfiles h
    · obtain ⟨map, hmap, h⟩ := bind_ok h
      refine ih hts (fun cs file hlookup => ?_) h
      rcases (lookup_insert_eq_some files).1 hlookup with ⟨rfl, rfl⟩ | ⟨-, hold⟩
      · exact ⟨t, ht, rfl, okOr_ok.1 hmap⟩
      · exact hfiles cs file hold

theorem checkExtent_ok {files : Files} {l : List (List Char × RepackTensor)}
    (h : l.forM (checkExtent files) = .ok ()) {e : List Char × RepackTensor} (he : e ∈ l) :
    ∃ file, files.lookup (components e.2.file) = some file ∧
      (e.2.offset + e.2.bytes).toNat ≤ file.bytes.length := by
  induction l with
  | nil => cases he
  | cons e' l ih =>
    obtain ⟨u, hcheck, hrest⟩ := bind_ok h
    rcases List.mem_cons.1 he with rfl | he
    · unfold checkExtent at hcheck
      obtain ⟨file, hfile, hcheck⟩ := bind_ok hcheck
      split at hcheck
      · cases hcheck
      · rename_i hlen
        exact ⟨file, okOr_ok.1 hfile, Nat.not_lt.1 hlen⟩
    · exact ih hrest he

/-! ## The whole -/

/-- Every entry has a file, that is as long as the sum. -/
def Checked (m : Manifest) : Prop :=
  ∀ name t, m.tensors.lookup name = some t → ∃ file, m.files.lookup (components t.file) = some file ∧
    (t.offset + t.bytes).toNat ≤ file.bytes.length

/-- What `open` leaves. -/
structure Opened (d : Disk S) (path : List Char) (m : Manifest) : Prop where
  tensors : ∀ name t, m.tensors.lookup name = some t ↔ Listed d path name t
  checked : Checked m
  mapped : ∀ cs file, m.files.lookup cs = some file → ∃ name t, Listed d path name t ∧
    components t.file = cs ∧ d.mapFile (join (manifestDir d path) t.file) = some file
  masks : ∀ layer mask, m.activeExperts.lookup layer = some mask →
    ∃ moe, m.cfg.moe = some moe ∧ MaskOf moe mask

variable {sourceConfig : S → ModelConfig} {d : Disk S} {path : List Char} {src : Hy3RepackSource S}

@[simp] theorem Hy3RepackSource.own_withFallback (m : Manifest) (fallback : Option (RepackFallback S)) :
    (Hy3RepackSource.withFallback m fallback).own = m := by
  match fallback with
  | none => rfl
  | some (.safetensors _) => rfl
  | some (.repack _) => rfl

/-- The manifest is opened, and its fallback is what `recur` gives. -/
theorem openWith_ok {recur : List Char → Except (Fault OpenError) (Hy3RepackSource S)}
    (h : openWith sourceConfig d recur path = .ok src) :
    Opened d path src.own ∧ ∃ fallback, src = .withFallback src.own fallback ∧
      ∀ source, fallback = some (.repack source) → ∃ path', recur path' = .ok source := by
  unfold openWith at h
  obtain ⟨txt, htxt, h⟩ := bind_ok h
  obtain ⟨top, htop, h⟩ := bind_ok h
  obtain ⟨tensorsObj?, hobj?, h⟩ := bind_ok h
  obtain ⟨tensorsObj, hobj, h⟩ := bind_ok h
  obtain ⟨tensors, htensors, h⟩ := bind_ok h
  obtain ⟨fallback, hfallback, h⟩ := bind_ok h
  obtain ⟨cfg, hcfg, h⟩ := bind_ok h
  obtain ⟨activeExperts, hactive, h⟩ := bind_ok h
  obtain ⟨files, hfiles, h⟩ := bind_ok h
  obtain ⟨u, hcheck, h⟩ := bind_ok h
  obtain rfl := Except.ok.inj h
  rw [Hy3RepackSource.own_withFallback]
  have hobject : top.object "tensors".toList = .ok (some tensorsObj) := by
    rw [← okOr_ok.1 hobj]
    exact ofRes_ok.1 hobj?
  have hlisted : ∀ name t, tensors.lookup name = some t ↔ Listed d path name t := by
    intro name t
    rw [lookup_insertEachM (nodup_inOrder _) htensors]
    constructor
    · rintro (⟨raw, hraw, hread⟩ | ⟨-, hnone⟩)
      · exact ⟨txt, top, tensorsObj, raw, okOr_ok.1 htxt, ofRes_ok.1 htop, hobject,
          (mem_inOrder _).1 hraw, hread⟩
      · cases hnone
    · rintro ⟨txt', top', obj', raw, htxt', htop', hobj', hraw, hread⟩
      obtain rfl : txt = txt' := Option.some.inj ((okOr_ok.1 htxt).symm.trans htxt')
      obtain rfl : top = top' := Except.ok.inj ((ofRes_ok.1 htop).symm.trans htop')
      obtain rfl : tensorsObj = obj' := Option.some.inj (Except.ok.inj (hobject.symm.trans hobj'))
      exact .inl ⟨raw, (mem_inOrder _).2 hraw, hread⟩
  refine ⟨⟨hlisted, fun name t ht => ?_, fun cs file hfile => ?_, fun layer mask hmask => ?_⟩, fallback,
    rfl, ?_⟩
  · exact checkExtent_ok hcheck ((mem_inOrder tensors).2 ht)
  · have hmapped := mapFiles_ok (fun t ht => ht) (fun _ _ hnone => by cases hnone) hfiles
    obtain ⟨t, ht, hcs, hmap⟩ := hmapped cs file hfile
    obtain ⟨⟨name, t'⟩, hmem, rfl⟩ := List.mem_map.1 ht
    exact ⟨name, t', (hlisted name t').1 ((mem_inOrder tensors).1 hmem), hcs, hmap⟩
  · exact readPruned_ok hactive hmask
  · rintro source rfl
    unfold openFallback at hfallback
    split at hfallback
    · obtain ⟨dir, -, hfallback⟩ := bind_ok hfallback
      split at hfallback
      · cases hrecur : recur dir with
        | error e =>
          rw [hrecur] at hfallback
          cases hfallback
        | ok s =>
          rw [hrecur] at hfallback
          cases hfallback
          exact ⟨dir, hrecur⟩
      · cases hsafe : d.openSafetensors dir with
        | error e =>
          rw [hsafe] at hfallback
          cases hfallback
        | ok s =>
          rw [hsafe] at hfallback
          cases hfallback
    · cases hfallback

theorem openPath_opened {fuel : ℕ} (h : openPath sourceConfig d fuel path = .ok src) :
    Opened d path src.own := by
  cases fuel with
  | zero => cases h
  | succ fuel => exact (openWith_ok h).1

/-- Every manifest of the chain is checked. -/
theorem levels_checked {fuel : ℕ} (h : openPath sourceConfig d fuel path = .ok src) :
    ∀ m ∈ src.levels, Checked m := by
  induction fuel generalizing path src with
  | zero => cases h
  | succ fuel ih =>
    obtain ⟨hopened, fallback, hsrc, hrecur⟩ := openWith_ok h
    rw [hsrc]
    match fallback, hrecur with
    | none, _ => exact List.forall_mem_singleton.2 hopened.checked
    | some (.safetensors _), _ => exact List.forall_mem_singleton.2 hopened.checked
    | some (.repack source), hrecur =>
      obtain ⟨path', hsource⟩ := hrecur source rfl
      exact List.forall_mem_cons.2 ⟨hopened.checked, ih hsource⟩

end

end Repack

end Memra
