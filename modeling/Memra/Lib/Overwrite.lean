import Mathlib.Data.List.Basic

/-!
# Writes into a buffer of fixed size

`overwrite dst off src` writes `src` at `off`, unless it does not fit there. What is below `off` stays
(`take_overwrite_of_le`), and right above it stands what was written (`take_overwrite_add`). A counted loop
over such a buffer is proved with `foldlM_range`.
-/

namespace Lib

variable {α : Type}

/-- `src` written into `dst` at `off`. -/
def overwrite (dst : List α) (off : ℕ) (src : List α) : Option (List α) :=
  if off + src.length ≤ dst.length then
    some (dst.take off ++ src ++ dst.drop (off + src.length))
  else none

variable {dst dst' src : List α} {off : ℕ}

theorem overwrite_eq_some : overwrite dst off src = some dst' ↔
    off + src.length ≤ dst.length ∧ dst.take off ++ src ++ dst.drop (off + src.length) = dst' := by
  unfold overwrite
  split
  · simp_all
  · next h => simp [h]

theorem length_overwrite (h : overwrite dst off src = some dst') : dst'.length = dst.length := by
  obtain ⟨hfit, rfl⟩ := overwrite_eq_some.1 h
  simp only [List.length_append, List.length_take, List.length_drop]
  omega

theorem take_overwrite_of_le (h : overwrite dst off src = some dst') {n : ℕ} (hn : n ≤ off) :
    dst'.take n = dst.take n := by
  obtain ⟨hfit, rfl⟩ := overwrite_eq_some.1 h
  have hlen : (dst.take off).length = off := by simp; omega
  rw [List.append_assoc, List.take_append_of_le_length (by omega), List.take_take,
    Nat.min_eq_left hn]

theorem take_overwrite_add (h : overwrite dst off src = some dst') {n : ℕ} (hn : n ≤ src.length) :
    dst'.take (off + n) = dst.take off ++ src.take n := by
  obtain ⟨hfit, rfl⟩ := overwrite_eq_some.1 h
  have hlen : (dst.take off).length = off := by simp; omega
  rw [List.append_assoc, List.take_append, hlen, Nat.add_sub_cancel_left,
    List.take_of_length_le (by omega), List.take_append_of_le_length hn]

/-- A write of the whole buffer leaves nothing of what it held. -/
theorem overwrite_all (h : src.length = dst.length) : overwrite dst 0 src = some src := by
  rw [overwrite_eq_some]
  simp [h]

/-- **The rule of a counted loop**: a pass that keeps the invariant does not fail. -/
theorem foldlM_range {σ : Type} {f : σ → ℕ → Option σ} (Inv : ℕ → σ → Prop) {n : ℕ}
    (hstep : ∀ i s, i < n → Inv i s → ∃ s', f s i = some s' ∧ Inv (i + 1) s') {s : σ}
    (h0 : Inv 0 s) : ∃ s', (List.range n).foldlM f s = some s' ∧ Inv n s' := by
  induction n with
  | zero => exact ⟨s, rfl, h0⟩
  | succ n ih =>
    obtain ⟨t, hrun, ht⟩ := ih fun i s hi => hstep i s (by omega)
    obtain ⟨u, hf, hu⟩ := hstep n t (by omega) ht
    refine ⟨u, ?_, hu⟩
    rw [List.range_succ, List.foldlM_append, hrun]
    simp [hf]

end Lib
