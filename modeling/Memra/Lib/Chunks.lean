import Memra.Lib.Fill
import Mathlib.Data.Finset.Card

/-!
# Permutations that move chunks

A stretch of `a * b` chunks of one size is reordered as an `a × b` grid read by columns: chunk `j * a + g`
comes from chunk `g * b + j`. `chunkSrc` says for every index where its element comes from; `b` and `a`
exchanged give the inverse (`chunkSrc_inv`), and elements that consist of `k` cells move as their cells do
(`chunkSrc_scale`). In a matrix of rows of `w` cells `rowMap σ w` moves whole rows by `σ`, and `colMap σ w`
the cells of each row. `MovesBlocks` asks of a permutation that it moves aligned blocks onto aligned blocks,
the last one possibly shorter; it is enough that it does not mix them (`movesBlocks_iff`).
-/

namespace Lib

/-! ## Chunks -/

def transposed (a b h : ℕ) : ℕ := h % a * b + h / a

/-- Where the element at `i` comes from when the `a * b` chunks from `base` on are transposed. -/
def chunkSrc (base size a b i : ℕ) : ℕ :=
  if base ≤ i ∧ i < base + a * b * size then
    base + transposed a b ((i - base) / size) * size + (i - base) % size
  else i

variable {base size a b i j g d n w k t : ℕ}

theorem row_col_div (ht : t < w) : (i * w + t) / w = i ∧ (i * w + t) % w = t := by
  have hw : 0 < w := by omega
  rw [Nat.mul_comm, Nat.mul_add_div hw, Nat.div_eq_of_lt ht, Nat.mul_add_mod, Nat.mod_eq_of_lt ht]
  simp

theorem transposed_grid (hg : g < a) : transposed a b (j * a + g) = g * b + j := by
  rw [transposed, (row_col_div hg).1, (row_col_div hg).2]

theorem chunkSrc_at (hj : j < b) (hg : g < a) (hd : d < size) :
    chunkSrc base size a b (base + (j * a + g) * size + d) = base + (g * b + j) * size + d := by
  have hchunk : (j * a + g) * size + d < a * b * size := by
    rw [Nat.mul_comm a b]
    exact row_col_lt (row_col_lt hj hg) hd
  have hsub : base + (j * a + g) * size + d - base = (j * a + g) * size + d := by omega
  rw [chunkSrc, if_pos (by omega), hsub, (row_col_div hd).1, (row_col_div hd).2, transposed_grid hg]

theorem chunkSrc_outside (h : ¬(base ≤ i ∧ i < base + a * b * size)) : chunkSrc base size a b i = i :=
  if_neg h

/-- An index of the stretch lies in one of its chunks. -/
theorem exists_chunk (h : base ≤ i ∧ i < base + a * b * size) :
    ∃ j, j < b ∧ ∃ g, g < a ∧ ∃ d, d < size ∧ i = base + (j * a + g) * size + d := by
  obtain ⟨c, hc, d, hd, hi⟩ := exists_row_col (m := a * b) (w := size) (i := i - base) (by omega)
  obtain ⟨j, hj, g, hg, rfl⟩ := exists_row_col (m := b) (w := a) (i := c) (by rwa [Nat.mul_comm])
  exact ⟨j, hj, g, hg, d, hd, by omega⟩

theorem chunkSrc_inv : chunkSrc base size b a (chunkSrc base size a b i) = i := by
  by_cases h : base ≤ i ∧ i < base + a * b * size
  · obtain ⟨j, hj, g, hg, d, hd, rfl⟩ := exists_chunk h
    rw [chunkSrc_at hj hg hd, chunkSrc_at hg hj hd]
  · rw [chunkSrc_outside h, chunkSrc_outside (by rwa [Nat.mul_comm b a])]

theorem chunkSrc_lt (hn : base + a * b * size ≤ n) (hi : i < n) : chunkSrc base size a b i < n := by
  by_cases h : base ≤ i ∧ i < base + a * b * size
  · obtain ⟨j, hj, g, hg, d, hd, rfl⟩ := exists_chunk h
    rw [chunkSrc_at hj hg hd]
    have := row_col_lt (row_col_lt hg hj) hd
    omega
  · rwa [chunkSrc_outside h]

theorem chunkSrc_scale (ht : t < k) :
    chunkSrc (base * k) (size * k) a b (i * k + t) = chunkSrc base size a b i * k + t := by
  by_cases h : base ≤ i ∧ i < base + a * b * size
  · obtain ⟨j, hj, g, hg, d, hd, rfl⟩ := exists_chunk h
    have hcell : d * k + t < size * k := row_col_lt hd ht
    have hsplit : (base + (j * a + g) * size + d) * k + t =
        base * k + (j * a + g) * (size * k) + (d * k + t) := by ring
    rw [hsplit, chunkSrc_at hj hg hcell, chunkSrc_at hj hg hd]
    ring
  · rw [chunkSrc_outside h, chunkSrc_outside]
    rintro ⟨hlo, hhi⟩
    refine h ⟨?_, ?_⟩
    · by_contra hlt
      have := row_col_lt (m := base) (w := k) (by omega : i < base) ht
      omega
    · by_contra hge
      have := Nat.mul_le_mul_right k (by omega : base + a * b * size ≤ i)
      have hmul : (base + a * b * size) * k = base * k + a * b * (size * k) := by ring
      omega

/-! ## Rows and columns -/

def rowMap (σ : ℕ → ℕ) (w i : ℕ) : ℕ := σ (i / w) * w + i % w

def colMap (σ : ℕ → ℕ) (w i : ℕ) : ℕ := i / w * w + σ (i % w)

variable {σ τ : ℕ → ℕ}

theorem rowMap_at (ht : t < w) : rowMap σ w (i * w + t) = σ i * w + t := by
  rw [rowMap, (row_col_div ht).1, (row_col_div ht).2]

theorem colMap_at (ht : t < w) : colMap σ w (i * w + t) = i * w + σ t := by
  rw [colMap, (row_col_div ht).1, (row_col_div ht).2]

theorem rowMap_lt {m : ℕ} (hσ : ∀ r, r < m → σ r < m) (hi : i < m * w) : rowMap σ w i < m * w := by
  obtain ⟨r, hr, c, hc, rfl⟩ := exists_row_col hi
  rw [rowMap_at hc]
  exact row_col_lt (hσ r hr) hc

theorem colMap_lt {m : ℕ} (hσ : ∀ c, c < w → σ c < w) (hi : i < m * w) : colMap σ w i < m * w := by
  obtain ⟨r, hr, c, hc, rfl⟩ := exists_row_col hi
  rw [colMap_at hc]
  exact row_col_lt hr (hσ c hc)

theorem rowMap_scale (hw : 0 < w) (ht : t < k) :
    rowMap σ (w * k) (i * k + t) = rowMap σ w i * k + t := by
  obtain ⟨r, c, hc, rfl⟩ : ∃ r c, c < w ∧ i = r * w + c :=
    ⟨i / w, i % w, Nat.mod_lt i hw, (Nat.div_add_mod' i w).symm⟩
  have hcell : c * k + t < w * k := row_col_lt hc ht
  have hsplit : (r * w + c) * k + t = r * (w * k) + (c * k + t) := by ring
  rw [hsplit, rowMap_at hcell, rowMap_at hc]
  ring

theorem colMap_scale (hw : 0 < w) (ht : t < k) (hτ : ∀ x, τ (x * k + t) = σ x * k + t) :
    colMap τ (w * k) (i * k + t) = colMap σ w i * k + t := by
  obtain ⟨r, c, hc, rfl⟩ : ∃ r c, c < w ∧ i = r * w + c :=
    ⟨i / w, i % w, Nat.mod_lt i hw, (Nat.div_add_mod' i w).symm⟩
  have hcell : c * k + t < w * k := row_col_lt hc ht
  have hsplit : (r * w + c) * k + t = r * (w * k) + (c * k + t) := by ring
  rw [hsplit, colMap_at hcell, colMap_at hc, hτ]
  ring

/-! ## Blocks -/

/-- `σ` moves each block of `m` indices below `n` onto a block. -/
def MovesBlocks (n m : ℕ) (σ : ℕ → ℕ) : Prop :=
  ∀ D, D * m < n → ∃ B, ∀ j, (∃ d, d < n ∧ d / m = D ∧ σ d = j) ↔ j < n ∧ j / m = B

/-- A permutation that does not mix blocks moves them as a whole: a block that received two would leave
another without a source. -/
theorem movesBlocks_iff {m : ℕ} (hm : 0 < m) (hlt : ∀ i, i < n → σ i < n)
    (hinv : ∀ i, i < n → τ i < n ∧ σ (τ i) = i) :
    MovesBlocks n m σ ↔ ∃ b : ℕ → ℕ, ∀ d, d < n → σ d / m = b (d / m) := by
  constructor
  · intro h
    refine ⟨fun D => σ (D * m) / m, fun d hd => ?_⟩
    have hblock : d / m * m < n := lt_of_le_of_lt (Nat.div_mul_le_self d m) hd
    obtain ⟨B, hB⟩ := h (d / m) hblock
    have hstart : d / m * m / m = d / m := Nat.mul_div_cancel _ hm
    exact ((hB _).1 ⟨d, hd, rfl, rfl⟩).2.trans ((hB _).1 ⟨_, hblock, hstart, rfl⟩).2.symm
  · rintro ⟨b, hb⟩ D hD
    have hin : ∀ d, d < n → d / m < (n + m - 1) / m := fun d hd => by
      rw [Nat.div_lt_iff_lt_mul hm]
      have := Nat.div_add_mod (n + m - 1) m
      have := Nat.mod_lt (n + m - 1) hm
      have hmul := Nat.mul_comm m ((n + m - 1) / m)
      omega
    have hout : ∀ B, B < (n + m - 1) / m → B * m < n := fun B hB => by
      have := Nat.div_mul_le_self (n + m - 1) m
      have := row_add_le (w := m) hB
      omega
    have hmaps : Set.MapsTo b (Finset.range ((n + m - 1) / m)) (Finset.range ((n + m - 1) / m)) := by
      intro B hB
      have hB := hout B (by simpa using hB)
      have := hb _ hB
      rw [Nat.mul_div_cancel _ hm] at this
      simpa [← this] using hin _ (hlt _ hB)
    have hsurj : Set.SurjOn b (Finset.range ((n + m - 1) / m)) (Finset.range ((n + m - 1) / m)) := by
      intro B hB
      have hB := hout B (by simpa using hB)
      obtain ⟨hτ, hστ⟩ := hinv _ hB
      refine ⟨τ (B * m) / m, by simpa using hin _ hτ, ?_⟩
      rw [← hb _ hτ, hστ, Nat.mul_div_cancel _ hm]
    have hinj := Finset.injOn_of_surjOn_of_card_le b hmaps hsurj le_rfl
    have hDin : D < (n + m - 1) / m := by
      have := hin _ hD
      rwa [Nat.mul_div_cancel _ hm] at this
    refine ⟨b D, fun j => ⟨?_, fun ⟨hj, hjB⟩ => ?_⟩⟩
    · rintro ⟨d, hd, rfl, rfl⟩
      exact ⟨hlt d hd, hb d hd⟩
    · obtain ⟨hτ, hστ⟩ := hinv j hj
      refine ⟨τ j, hτ, ?_, hστ⟩
      refine hinj (by simpa using hin _ hτ) (by simpa using hDin) ?_
      rw [← hb _ hτ, hστ, hjB]

end Lib
