import Memra.Lib.Overwrite
import Mathlib.Tactic.Ring

/-!
# Buffers filled by loops of writes

A loop nest that fills a buffer writes each cell once, or more often with one value. `Fills n f R step`
says so of a step over buffers of `n` cells: it does not fail, it writes the cells of `R`, each with what
`f` has for it, and it leaves the others alone. A write is such a step (`fills_overwrite`, `fills_copy`),
one after the other they are (`Fills.andThen`), and so is a counted loop of them (`Fills.loop`). When the
cells written are all the cells, or the others hold their values already, the result is `f` (`Fills.all`,
`Fills.over`).
-/

namespace Lib

variable {α : Type}

/-- `src[off..off + len]`. -/
def readAt (src : List α) (off len : ℕ) : Option (List α) :=
  if off + len ≤ src.length then some ((src.drop off).take len) else none

/-- `step` writes the cells of `R` as `f` has them, and no others. -/
def Fills (n : ℕ) (f : ℕ → α) (R : ℕ → Prop) (step : List α → Option (List α)) : Prop :=
  ∀ out, out.length = n → ∃ out', step out = some out' ∧ out'.length = n ∧
    ∀ i, i < n → (R i → out'[i]? = some (f i)) ∧ (¬R i → out'[i]? = out[i]?)

theorem readAt_eq {src : List α} {off len : ℕ} (h : off + len ≤ src.length) :
    readAt src off len = some ((src.drop off).take len) := by
  simp [readAt, h]

theorem getElem?_slice {src : List α} {off len k : ℕ} (hk : k < len) :
    ((src.drop off).take len)[k]? = src[off + k]? := by
  rw [List.getElem?_take_of_lt hk, List.getElem?_drop]

theorem length_slice {src : List α} {off len : ℕ} (h : off + len ≤ src.length) :
    ((src.drop off).take len).length = len := by
  simp only [List.length_take, List.length_drop]
  omega

theorem getElem?_overwrite {dst dst' src : List α} {off : ℕ} (h : overwrite dst off src = some dst')
    (i : ℕ) : dst'[i]? = if off ≤ i ∧ i < off + src.length then src[i - off]? else dst[i]? := by
  obtain ⟨hfit, rfl⟩ := overwrite_eq_some.1 h
  have hlen : (dst.take off).length = off := by simp; omega
  rw [List.append_assoc]
  rcases Nat.lt_or_ge i off with hlt | hge
  · rw [List.getElem?_append_left (by omega), List.getElem?_take_of_lt hlt, if_neg (by omega)]
  · rw [List.getElem?_append_right (by omega), hlen]
    rcases Nat.lt_or_ge (i - off) src.length with hin | hout
    · rw [List.getElem?_append_left hin, if_pos (by omega)]
    · rw [List.getElem?_append_right hout, List.getElem?_drop, if_neg (by omega)]
      congr 1
      omega

variable {n : ℕ} {f : ℕ → α} {R S : ℕ → Prop} {step step' : List α → Option (List α)}

theorem Fills.mono (h : Fills n f R step) (hRS : ∀ i, i < n → (R i ↔ S i)) : Fills n f S step := by
  intro out hout
  obtain ⟨out', hrun, hlen, hcell⟩ := h out hout
  refine ⟨out', hrun, hlen, fun i hi => ?_⟩
  rw [← hRS i hi]
  exact hcell i hi

theorem Fills.congr (h : Fills n f R step) (heq : ∀ out, step' out = step out) :
    Fills n f R step' := by
  rwa [funext heq]

theorem fills_skip : Fills n f (fun _ => False) some :=
  fun out hout => ⟨out, rfl, hout, fun _ _ => ⟨False.elim, fun _ => rfl⟩⟩

theorem fills_overwrite {off : ℕ} {src : List α} (hfit : off + src.length ≤ n)
    (hsrc : ∀ k, k < src.length → src[k]? = some (f (off + k))) :
    Fills n f (fun i => off ≤ i ∧ i < off + src.length) fun out => overwrite out off src := by
  intro out hout
  obtain ⟨out', hrun⟩ : ∃ out', overwrite out off src = some out' :=
    ⟨_, overwrite_eq_some.2 ⟨by omega, rfl⟩⟩
  refine ⟨out', hrun, (length_overwrite hrun).trans hout, fun i _ => ⟨fun hi => ?_, fun hi => ?_⟩⟩
  · rw [getElem?_overwrite hrun, if_pos hi, hsrc _ (by omega), show off + (i - off) = i by omega]
  · rw [getElem?_overwrite hrun, if_neg hi]

/-- `out[i] = x`. -/
theorem fills_set {i : ℕ} {x : α} (hi : i < n) (hx : x = f i) :
    Fills n f (· = i) fun out => overwrite out i [x] := by
  refine (fills_overwrite (by simpa [Nat.succ_le_iff] using hi) fun k hk => ?_).mono fun j _ => ?_
  · obtain rfl : k = 0 := by simpa using hk
    simp [hx]
  · simp only [List.length_singleton]
    omega

/-- `out[off..off + len].copy_from_slice(&src[from..from + len])`. -/
theorem fills_copy {off from' len : ℕ} {src : List α} (hfit : off + len ≤ n)
    (hread : from' + len ≤ src.length)
    (hsrc : ∀ k, k < len → src[from' + k]? = some (f (off + k))) :
    Fills n f (fun i => off ≤ i ∧ i < off + len) fun out =>
      (readAt src from' len).bind fun xs => overwrite out off xs := by
  have hlen := length_slice hread
  have hcell : ∀ k, k < ((src.drop from').take len).length →
      ((src.drop from').take len)[k]? = some (f (off + k)) := fun k hk =>
    (getElem?_slice (by omega)).trans (hsrc k (by omega))
  have hfits : off + ((src.drop from').take len).length ≤ n := by omega
  have hwrite := fills_overwrite hfits hcell
  rw [hlen] at hwrite
  refine hwrite.congr fun out => ?_
  rw [readAt_eq hread, Option.bind_some]

/-- **The rule of a sequence.** -/
theorem Fills.andThen (h : Fills n f R step) (h' : Fills n f S step') :
    Fills n f (fun i => R i ∨ S i) fun out => (step out).bind step' := by
  intro out hout
  obtain ⟨mid, hrun, hmid, hcell⟩ := h out hout
  obtain ⟨out', hrun', hlen, hcell'⟩ := h' mid hmid
  refine ⟨out', by simp only [hrun, Option.bind_some, hrun'], hlen, fun i hi => ?_⟩
  refine ⟨fun hRS => ?_, fun hRS => ?_⟩
  · by_cases hS : S i
    · exact (hcell' i hi).1 hS
    · rw [(hcell' i hi).2 hS]
      exact (hcell i hi).1 (hRS.resolve_right hS)
  · rw [(hcell' i hi).2 fun hS => hRS (Or.inr hS), (hcell i hi).2 fun hR => hRS (Or.inl hR)]

/-- A copy and what comes after it. -/
theorem Fills.copyThen {off from' len : ℕ} {src : List α} (hfit : off + len ≤ n)
    (hread : from' + len ≤ src.length)
    (hsrc : ∀ k, k < len → src[from' + k]? = some (f (off + k))) (h : Fills n f S step) :
    Fills n f (fun i => off ≤ i ∧ i < off + len ∨ S i) fun out =>
      (readAt src from' len).bind fun xs => (overwrite out off xs).bind step :=
  ((fills_copy hfit hread hsrc).andThen h).congr fun out => by rw [Option.bind_assoc]

/-- **The rule of a counted loop.** -/
theorem Fills.loop {m : ℕ} {R : ℕ → ℕ → Prop} {body : List α → ℕ → Option (List α)}
    (h : ∀ k, k < m → Fills n f (R k) fun out => body out k) :
    Fills n f (fun i => ∃ k, k < m ∧ R k i) fun out => (List.range m).foldlM body out := by
  induction m with
  | zero => exact fills_skip.mono fun i _ => by simp
  | succ m ih =>
    refine (((ih fun k hk => h k (by omega)).andThen (h m (by omega))).mono fun i _ => ?_).congr
      fun out => ?_
    · constructor
      · rintro (⟨k, hk, hR⟩ | hR)
        · exact ⟨k, by omega, hR⟩
        · exact ⟨m, by omega, hR⟩
      · rintro ⟨k, hk, hR⟩
        rcases Nat.lt_succ_iff_lt_or_eq.1 hk with hlt | rfl
        · exact Or.inl ⟨k, hlt, hR⟩
        · exact Or.inr hR
    · rw [List.range_succ, List.foldlM_append]
      simp

/-- `out[off + k] = g(src[off + k])` for a range of cells. -/
theorem fills_each {β : Type} (off len : ℕ) (src : List β) (g : β → α) (hfit : off + len ≤ n)
    (hread : off + len ≤ src.length)
    (hsrc : ∀ k b, k < len → src[off + k]? = some b → f (off + k) = g b) :
    Fills n f (fun i => off ≤ i ∧ i < off + len) fun out => (List.range len).foldlM (fun out k =>
      (src[off + k]?).bind fun b => overwrite out (off + k) [g b]) out := by
  have hloop : Fills n f (fun i => ∃ k, k < len ∧ i = off + k) fun out =>
      (List.range len).foldlM (fun out k =>
        (src[off + k]?).bind fun b => overwrite out (off + k) [g b]) out := by
    refine Fills.loop fun k hk => ?_
    obtain ⟨b, hb⟩ : ∃ b, src[off + k]? = some b := ⟨_, List.getElem?_eq_getElem (by omega)⟩
    simp only [hb, Option.bind_some]
    exact fills_set (by omega) (hsrc k b hk hb).symm
  refine hloop.mono fun i _ => ⟨?_, fun h => ⟨i - off, by omega, by omega⟩⟩
  rintro ⟨k, hk, rfl⟩
  omega

/-- **The rule of a loop over chunks**, each from `e` to `stop e`. -/
theorem Fills.chunks {base w : ℕ} {run : ℕ → List α → Option (List α)} (stop : ℕ → ℕ)
    (hstop : ∀ e, e < w → e < stop e ∧ stop e ≤ w)
    (hchunk : ∀ e, e < w → ∃ chunk, Fills n f (fun i => base + e ≤ i ∧ i < base + stop e) chunk ∧
      ∀ out, run e out = (chunk out).bind (run (stop e)))
    (hend : ∀ out, run w out = some out) (e : ℕ) (he : e ≤ w) :
    Fills n f (fun i => base + e ≤ i ∧ i < base + w) (run e) := by
  induction hd : w - e using Nat.strong_induction_on generalizing e with
  | _ d ih =>
    by_cases hlt : e < w
    · obtain ⟨hgt, hle⟩ := hstop e hlt
      obtain ⟨chunk, hfill, hrun⟩ := hchunk e hlt
      have hrest := ih (w - stop e) (by omega) (stop e) hle rfl
      refine ((hfill.andThen hrest).mono fun i _ => ?_).congr hrun
      omega
    · obtain rfl : e = w := by omega
      refine (fills_skip.mono fun i _ => ?_).congr hend
      simp only [false_iff]
      omega

/-- A nest of loops computes `f` when the cells it leaves alone hold it already. -/
theorem Fills.over (h : Fills n f R step) {out : List α} (hout : out.length = n)
    (hkeep : ∀ i, i < n → ¬R i → out[i]? = some (f i)) : step out = some ((List.range n).map f) := by
  obtain ⟨out', hrun, hlen, hcell⟩ := h out hout
  rw [hrun]
  congr 1
  apply List.ext_getElem?
  intro i
  rcases Nat.lt_or_ge i n with hi | hi
  · have hf : out'[i]? = some (f i) := by
      by_cases hR : R i
      · exact (hcell i hi).1 hR
      · exact ((hcell i hi).2 hR).trans (hkeep i hi hR)
    simp [hf, hi]
  · simp [hlen, hi]

/-- A nest of loops that writes every cell computes `f`. -/
theorem Fills.all (h : Fills n f R step) (hall : ∀ i, i < n → R i) {out : List α}
    (hout : out.length = n) : step out = some ((List.range n).map f) :=
  h.over hout fun i hi hR => absurd (hall i hi) hR

/-- Rows of `w` cells: where cell `k` of the row-major order stands. -/
theorem exists_row_col {m w i : ℕ} (hi : i < m * w) : ∃ a, a < m ∧ ∃ b, b < w ∧ i = a * w + b := by
  have hw : 0 < w := Nat.pos_of_ne_zero fun h0 => by simp [h0] at hi
  exact ⟨i / w, (Nat.div_lt_iff_lt_mul hw).2 hi, i % w, Nat.mod_lt i hw, (Nat.div_add_mod' i w).symm⟩

theorem row_add_le {m w a : ℕ} (ha : a < m) : a * w + w ≤ m * w := by
  calc a * w + w = (a + 1) * w := by ring
    _ ≤ m * w := Nat.mul_le_mul_right w ha

theorem row_col_lt {m w a b : ℕ} (ha : a < m) (hb : b < w) : a * w + b < m * w := by
  have := row_add_le (w := w) ha
  omega

end Lib
