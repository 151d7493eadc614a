import Memra.Lib.Utf8Char
import Memra.Server.Proof.Emission

/-!
# The deltas of a stream are its text

`utf8_delta` is called on longer and longer byte strings, each time with the cursor that it left.
Every call goes on with the decoding of the calls before (`utf8Delta_next`), so that after each of them
the text is that of the parts decoded so far (`utf8Deltas_run`), and what is replaced is never a
character of a longer string.
-/

namespace Memra

open Lib

/-- The deltas of calls on the byte strings one after the other, with the cursors they leave. -/
def utf8Deltas (cursor : ℕ) : List (List UInt8) → List (List UInt8 × ℕ)
  | [] => []
  | x :: xs => utf8Delta x cursor :: utf8Deltas (utf8Delta x cursor).2 xs

theorem le_utf8Delta (x : List UInt8) (cursor : ℕ) : cursor ≤ (utf8Delta x cursor).2 := by
  unfold utf8Delta
  split
  · exact Nat.le_refl _
  · exact Nat.le_add_right _ _

theorem utf8Delta_le {x : List UInt8} {cursor : ℕ} (h : cursor ≤ x.length) :
    (utf8Delta x cursor).2 ≤ x.length := by
  have hscan := utf8Scan_le (x.drop cursor)
  rw [List.length_drop] at hscan
  rw [utf8Delta_eq h]
  simp only
  omega

/-- A call on more bytes decodes what the last one left and the new bytes. -/
theorem utf8Delta_next {x y e : List UInt8} {ps : List Part} (h : Lossy x ps e) :
    ∃ ps' e', Lossy (x ++ y) (ps ++ ps') e' ∧
      utf8Delta (x ++ y) (ps.flatMap Part.bytes).length =
        (ps'.flatMap Part.text, ((ps ++ ps').flatMap Part.bytes).length) := by
  obtain ⟨ps', e', hend, hscan⟩ := Lossy.exists_scan (e ++ y)
  refine ⟨ps', e', h.append hend, ?_⟩
  have hx := h.bytes_append
  have hle : (ps.flatMap Part.bytes).length ≤ (x ++ y).length := by
    rw [hx]
    simp only [List.length_append]
    omega
  have hdrop : (x ++ y).drop (ps.flatMap Part.bytes).length = e ++ y := by
    rw [hx, List.append_assoc, List.drop_left]
  rw [utf8Delta_eq hle, hdrop, hscan, List.flatMap_append, List.length_append]

/-- **After every call** the text so far is that of the parts decoded so far. -/
theorem utf8Deltas_run {x e : List UInt8} {ps : List Part} (h : Lossy x ps e)
    {xs : List (List UInt8)} (hchain : (x :: xs).IsChain (· <+: ·)) {i : ℕ} {y : List UInt8}
    (hy : xs[i]? = some y) :
    ∃ ps' e', Lossy y (ps ++ ps') e' ∧
      ((utf8Deltas (ps.flatMap Part.bytes).length xs).take (i + 1)).flatMap Prod.fst =
        ps'.flatMap Part.text := by
  induction xs generalizing x e ps i with
  | nil => cases hy
  | cons z xs ih =>
    rw [List.isChain_cons_cons] at hchain
    obtain ⟨⟨t, rfl⟩, hchain⟩ := hchain
    obtain ⟨qs, f, hqs, hdelta⟩ := utf8Delta_next (y := t) h
    rw [utf8Deltas, hdelta]
    cases i with
    | zero =>
      cases hy
      exact ⟨qs, f, hqs, by simp⟩
    | succ i =>
      obtain ⟨ps', e', hlossy, htext⟩ := ih hqs hchain hy
      refine ⟨qs ++ ps', e', by rwa [← List.append_assoc], ?_⟩
      rw [List.take_succ_cons, List.flatMap_cons, htext]
      exact List.flatMap_append.symm

theorem utf8Deltas_sorted (cursor : ℕ) (xs : List (List UInt8)) :
    (cursor :: (utf8Deltas cursor xs).map Prod.snd).IsChain (· ≤ ·) := by
  induction xs generalizing cursor with
  | nil => exact .singleton _
  | cons x xs ih => exact .cons_cons (le_utf8Delta x cursor) (ih _)

theorem utf8Deltas_le {x : List UInt8} {xs : List (List UInt8)}
    (hchain : (x :: xs).IsChain (· <+: ·)) {cursor : ℕ} (h : cursor ≤ x.length) :
    List.Forall₂ (fun y d => d.2 ≤ y.length) xs (utf8Deltas cursor xs) := by
  induction xs generalizing x cursor with
  | nil => exact .nil
  | cons z xs ih =>
    rw [List.isChain_cons_cons] at hchain
    have hle : (utf8Delta z cursor).2 ≤ z.length := utf8Delta_le (h.trans hchain.1.length_le)
    exact .cons hle (ih hchain.2 hle)

theorem utf8Deltas_length (cursor : ℕ) (xs : List (List UInt8)) :
    (utf8Deltas cursor xs).length = xs.length := by
  induction xs generalizing cursor with
  | nil => rfl
  | cons x xs ih => rw [utf8Deltas, List.length_cons, List.length_cons, ih]

theorem isChain_cons_nil {xs : List (List UInt8)} (h : xs.IsChain (· <+: ·)) :
    ([] :: xs).IsChain (· <+: ·) := by
  cases xs with
  | nil => exact .singleton _
  | cons x xs => exact .cons_cons (List.nil_prefix) h

/-- Every byte string of the stream begins the last one. -/
theorem prefix_getLast {xs : List (List UInt8)} (h : xs.IsChain (· <+: ·)) {x b : List UInt8}
    (hx : x ∈ xs) (hlast : xs.getLast? = some b) : x <+: b := by
  induction xs generalizing x with
  | nil => cases hx
  | cons z xs ih =>
    cases xs with
    | nil =>
      cases hlast
      exact List.mem_singleton.1 hx ▸ List.prefix_refl _
    | cons z' xs =>
      rw [List.isChain_cons_cons] at h
      rw [List.getLast?_cons_cons] at hlast
      rcases List.mem_cons.1 hx with rfl | hx
      · exact h.1.trans (ih h.2 List.mem_cons_self hlast)
      · exact ih h.2 hx hlast

/-- The deltas of a stream that ends in `b` are the lossy text of `b` without the character that its
end cuts off. The cursor only moves on and stays in the bytes, and bytes that were replaced are no
character of `b`. -/
theorem utf8Deltas_lossy {xs : List (List UInt8)} {b : List UInt8} (hchain : xs.IsChain (· <+: ·))
    (hlast : xs.getLast? = some b) :
    (∃ p e ps e', b = p ++ e ∧ CutEnd b e ∧ Lossy p ps e' ∧
      (utf8Deltas 0 xs).flatMap Prod.fst = ps.flatMap Part.text ++ Lossy.endText e') ∧
    (0 :: (utf8Deltas 0 xs).map Prod.snd).IsChain (· ≤ ·) ∧
    List.Forall₂ (fun x d => d.2 ≤ x.length) xs (utf8Deltas 0 xs) ∧
    ∀ i x, xs[i]? = some x → ∃ ps e, Lossy x ps e ∧
      ((utf8Deltas 0 xs).take (i + 1)).flatMap Prod.fst = ps.flatMap Part.text ∧
      ∀ pre w post c, ps = pre ++ ⟨w, true⟩ :: post →
        ¬ String.utf8EncodeChar c <+: b.drop (pre.flatMap Part.bytes).length := by
  have hchain' := isChain_cons_nil hchain
  have hrun : ∀ i x, xs[i]? = some x → ∃ ps e, Lossy x ps e ∧
      ((utf8Deltas 0 xs).take (i + 1)).flatMap Prod.fst = ps.flatMap Part.text :=
    fun i x hx => utf8Deltas_run .done hchain' hx
  have hlen : 0 < xs.length := by
    rw [List.length_pos_iff]
    intro hnil
    rw [hnil] at hlast
    cases hlast
  have hget : xs[xs.length - 1]? = some b := by rwa [← List.getLast?_eq_getElem?]
  obtain ⟨ps, e, hb, htext⟩ := hrun _ _ hget
  refine ⟨?_, utf8Deltas_sorted 0 xs, utf8Deltas_le hchain' (Nat.le_refl 0), ?_⟩
  · obtain ⟨ps', e', hp, hstrip⟩ := hb.strip
    refine ⟨_, e, ps', e', hb.bytes_append, hb.cutEnd, hp, ?_⟩
    rw [hstrip, ← htext, List.take_of_length_le]
    rw [utf8Deltas_length]
    omega
  · intro i x hx
    obtain ⟨qs, f, hqs, hqtext⟩ := hrun i x hx
    refine ⟨qs, f, hqs, hqtext, ?_⟩
    intro pre w post c hsplit
    obtain ⟨y, rfl⟩ := prefix_getLast hchain (List.mem_of_getElem? hx) hlast
    obtain ⟨rest, hrest⟩ := hqs.parts_prefix hb
    apply hb.replaced
    rw [← hrest, hsplit, List.append_assoc, List.cons_append]

theorem utf8Deltas_lossy_euro :
    ∃ p e ps e', [0xe2, 0x82, 0xac] = p ++ e ∧ CutEnd [0xe2, 0x82, 0xac] e ∧ Lossy p ps e' ∧
      (utf8Deltas 0 [[0xe2], [0xe2, 0x82, 0xac]]).flatMap Prod.fst =
        ps.flatMap Part.text ++ Lossy.endText e' := by
  have hchain : List.IsChain (· <+: ·) [[0xe2], [(0xe2 : UInt8), 0x82, 0xac]] := by decide
  exact (utf8Deltas_lossy hchain rfl).1

/-- Behind the first byte of a character that another one follows, the bytes are replaced, although
no prefix but the empty one ends in no cut off character. -/
theorem not_longest_uncut : ¬ ∀ (xs : List (List UInt8)) (b p : List UInt8),
    xs.IsChain (· <+: ·) → xs.getLast? = some b → p <+: b → CutEnd p [] →
    (∀ p', p' <+: b → CutEnd p' [] → p'.length ≤ p.length) → ∃ ps e', Lossy p ps e' ∧
      (utf8Deltas 0 xs).flatMap Prod.fst = ps.flatMap Part.text ++ Lossy.endText e' := by
  intro h
  have hcut : Truncated [0xe2] := ⟨by decide, '€', by decide +kernel, by decide +kernel⟩
  obtain ⟨ps, e', hps, htext⟩ := h [[0xe2, 0xe2]] [0xe2, 0xe2] [] (.singleton _) rfl
    List.nil_prefix ⟨List.nil_suffix, .inr ⟨rfl, fun s hs => by
      rw [List.suffix_nil.1 hs]
      exact fun hcut => hcut.1 rfl⟩⟩ (by
      intro p' hp' hend
      have hno : ∀ s, s <:+ p' → ¬ Truncated s := by
        rcases hend.2 with hcut' | ⟨-, hno⟩
        · exact absurd rfl hcut'.1
        · exact hno
      rcases p'.eq_nil_or_concat with rfl | ⟨q, a, rfl⟩
      · exact Nat.le_refl _
      · rw [List.concat_eq_append] at *
        have ha : a = 0xe2 := by
          have hmem := hp'.subset (List.mem_append_right q List.mem_cons_self)
          simpa using hmem
        subst ha
        exact absurd hcut (hno _ (List.suffix_append q _)))
  obtain ⟨rfl, rfl⟩ := Lossy.done.unique hps
  revert htext
  decide +kernel

end Memra
