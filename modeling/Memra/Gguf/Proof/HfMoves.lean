import Memra.Gguf.HfMapping
import Memra.Gguf.Proof.Nvfp4

/-!
# The moves of the V-head reorders

Every reorder is the gather of one map: `rowMap σ w` or `colMap σ w` of the axis permutation `σ`, a
`chunkSrc`, where `w` is what a row takes in the form at hand: elements, packed bytes or codes. Packed
blocks in a new order dequantize to the values in that order (`dequantNvfp4_gather`).
-/

namespace Memra.HfMapping

open Lib Nvfp4

/-- The list whose element at `i` is the one of `data` at `f i`. -/
def gather {α : Type} [Inhabited α] (data : List α) (f : ℕ → ℕ) : List α :=
  (List.range data.length).map fun i => data.getD (f i) default

section moves

variable {α : Type} [Inhabited α] {data : List α} {nk vpk headDim outF w lo n : ℕ} {σ : ℕ → ℕ}

theorem getElem?_getD {i : ℕ} (h : i < data.length) : data[i]? = some (data.getD i default) := by
  simp [h]

@[simp] theorem length_gather {f : ℕ → ℕ} : (gather data f).length = data.length := by simp [gather]

theorem getD_gather {f : ℕ → ℕ} {i : ℕ} (h : i < data.length) :
    (gather data f).getD i default = data.getD (f i) default := by
  simp [gather, h]

theorem gather_range {v : ℕ → α} {f : ℕ → ℕ} (hf : ∀ i, i < n → f i < n) :
    gather ((List.range n).map v) f = (List.range n).map fun i => v (f i) := by
  rw [gather, List.length_map, List.length_range]
  refine List.map_congr_left fun i hi => ?_
  simp [hf i (List.mem_range.1 hi)]

/-! ## The moves are gathers -/

theorem moveRows_eq (hnk : 0 < nk) (hfit : lo + nk * vpk * headDim ≤ outF)
    (hlen : data.length = outF * w) :
    moveRows data (nk * vpk) nk headDim w lo =
      some (gather data (rowMap (chunkSrc lo headDim nk vpk) w)) := by
  unfold moveRows gather
  simp only [ensure, hnk.ne', ne_eq, not_false_eq_true, if_true, Option.bind_eq_bind, Option.bind_some,
    Nat.mul_div_cancel_left _ hnk]
  refine Fills.over (R := fun i => ∃ j, j < vpk ∧ ∃ g, g < nk ∧ ∃ d, d < headDim ∧
      (lo + (j * nk + g) * headDim + d) * w ≤ i ∧ i < (lo + (j * nk + g) * headDim + d) * w + w)
    (Fills.loop fun j hj => Fills.loop fun g hg => Fills.loop fun d hd => ?_) rfl fun i hi hR => ?_
  · have hsrc : lo + (g * vpk + j) * headDim + d < outF := by
      have := row_col_lt (row_col_lt hg hj) hd
      omega
    have hdst : lo + (j * nk + g) * headDim + d < outF := by
      have := row_col_lt (row_col_lt hj hg) hd
      rw [Nat.mul_comm vpk nk] at this
      omega
    have hsrcRow := row_add_le (w := w) hsrc
    have hdstRow := row_add_le (w := w) hdst
    refine fills_copy (by omega) (by omega) fun k hk => ?_
    rw [rowMap_at hk, chunkSrc_at hj hg hd]
    exact getElem?_getD (by omega)
  · have hw : 0 < w := Nat.pos_of_ne_zero fun h0 => by simp [hlen, h0] at hi
    have hrow : ¬(lo ≤ i / w ∧ i / w < lo + nk * vpk * headDim) := fun hband => hR <| by
      obtain ⟨j, hj, g, hg, d, hd, hdst⟩ := exists_chunk hband
      have := Nat.div_add_mod' i w
      have := Nat.mod_lt i hw
      refine ⟨j, hj, g, hg, d, hd, ?_⟩
      rw [← hdst]
      omega
    rw [rowMap, chunkSrc_outside hrow, Nat.div_add_mod']
    exact getElem?_getD hi

omit [Inhabited α] in
/-- The loops over rows and heads, when a turn writes the chunk of its head. -/
theorem headLoops_eq {rows size : ℕ} {f : ℕ → α} {body : ℕ → ℕ → ℕ → List α → Option (List α)}
    (hw : w = nk * vpk * size) (hlen : data.length = rows * w)
    (hbody : ∀ r j g, r < rows → j < vpk → g < nk → Fills data.length f
      (fun i => r * w + (j * nk + g) * size ≤ i ∧ i < r * w + (j * nk + g) * size + size)
      (body r j g)) :
    ((List.range rows).foldlM (fun out r => (List.range vpk).foldlM (fun out j =>
      (List.range nk).foldlM (fun out g => body r j g out) out) out) data) =
      some ((List.range data.length).map f) := by
  refine Fills.all (R := fun i => ∃ r, r < rows ∧ ∃ j, j < vpk ∧ ∃ g, g < nk ∧
      r * w + (j * nk + g) * size ≤ i ∧ i < r * w + (j * nk + g) * size + size)
    (Fills.loop fun r hr => Fills.loop fun j hj => Fills.loop fun g hg => hbody r j g hr hj hg)
    (fun i hi => ?_) rfl
  obtain ⟨r, hr, c, hc, rfl⟩ := exists_row_col (by omega : i < rows * w)
  obtain ⟨j, hj, g, hg, d, hd, rfl⟩ :=
    exists_chunk (by omega : 0 ≤ c ∧ c < 0 + nk * vpk * size)
  exact ⟨r, hr, j, hj, g, hg, by omega, by omega⟩

/-- A cell of a head, in a row that consists of heads. -/
theorem colMap_head {r j g d size : ℕ} (hw : w = nk * vpk * size) (hj : j < vpk) (hg : g < nk)
    (hd : d < size) : colMap (chunkSrc 0 size nk vpk) w (r * w + (j * nk + g) * size + d) =
      r * w + (g * vpk + j) * size + d := by
  have hdst : (j * nk + g) * size + d < w := by
    have := row_col_lt (row_col_lt hj hg) hd
    rwa [Nat.mul_comm vpk nk, ← hw] at this
  have hsrc : chunkSrc 0 size nk vpk (0 + (j * nk + g) * size + d) = 0 + (g * vpk + j) * size + d :=
    chunkSrc_at hj hg hd
  rw [Nat.zero_add, Nat.zero_add] at hsrc
  rw [Nat.add_assoc, colMap_at hdst, hsrc, Nat.add_assoc]

theorem reorderColsV_eq {debug : Bool} {rows : ℕ} (hnk : 0 < nk) (hw : w = nk * vpk * headDim)
    (hlen : data.length = rows * w) :
    reorderColsV debug data rows w (nk * vpk) nk headDim =
      some (gather data (colMap (chunkSrc 0 headDim nk vpk) w)) := by
  unfold reorderColsV gather
  simp only [ensure, hnk.ne', hw, ne_eq, not_false_eq_true, if_true, Option.bind_eq_bind,
    Option.bind_some, Nat.mul_div_cancel_left _ hnk, implies_true]
  rw [← hw]
  refine headLoops_eq hw hlen fun r j g hr hj hg => ?_
  refine (Fills.loop (R := fun d i => i = r * w + (j * nk + g) * headDim + d) fun d hd => ?_).mono
    fun i _ => ?_
  · have hsrc : (g * vpk + j) * headDim + d < w := hw ▸ row_col_lt (row_col_lt hg hj) hd
    have hdst : (j * nk + g) * headDim + d < w := by
      have := row_col_lt (row_col_lt hj hg) hd
      rwa [Nat.mul_comm vpk nk, ← hw] at this
    have hsrcCell := row_col_lt hr hsrc
    have hdstCell := row_col_lt hr hdst
    have hread := getElem?_getD (by omega : r * w + (g * vpk + j) * headDim + d < data.length)
    refine (fills_set (by omega) ?_).congr fun out => by rw [hread, Option.bind_some]
    rw [colMap_head hw hj hg hd]
  · constructor
    · rintro ⟨d, hd, rfl⟩
      omega
    · rintro ⟨hlo, hhi⟩
      exact ⟨i - (r * w + (j * nk + g) * headDim), by omega, by omega⟩

end moves

/-- A head of `bph` blocks moves as `bph * 36` bytes. -/
theorem reorderColsNvfp4_eq {packed : List UInt8} {outF nk vpk bph : ℕ} (hnk : 0 < nk)
    (hlen : packed.length = outF * (nk * vpk * bph * 36)) :
    reorderColsNvfp4 packed outF (nk * vpk * bph * 64) (nk * vpk) nk (bph * 64) =
      some (gather packed (colMap (chunkSrc 0 (bph * 36) nk vpk) (nk * vpk * bph * 36))) := by
  have hhead : bph * 64 / 64 = bph := by omega
  have hmod : bph * 64 % 64 = 0 := by omega
  have hrow : nk * vpk * bph * 64 / 64 = nk * vpk * bph := by omega
  have hw : nk * vpk * bph * 36 = nk * vpk * (bph * 36) := Nat.mul_assoc _ _ _
  unfold reorderColsNvfp4 gather
  rw [ensure, if_pos (Nat.mul_assoc _ _ _)]
  simp only [ensure, hhead, hmod, hrow, hlen, hnk.ne', ne_eq, not_false_eq_true, if_true,
    Option.bind_eq_bind, Option.bind_some, Nat.mul_div_cancel_left _ hnk]
  rw [← hlen]
  refine headLoops_eq hw hlen fun r j g hr hj hg => ?_
  have hsrc : (g * vpk + j) * (bph * 36) + bph * 36 ≤ nk * vpk * bph * 36 :=
    hw ▸ row_add_le (row_col_lt hg hj)
  have hdst : (j * nk + g) * (bph * 36) + bph * 36 ≤ nk * vpk * bph * 36 := by
    have := row_add_le (w := bph * 36) (row_col_lt hj hg)
    rwa [Nat.mul_comm vpk nk, ← hw] at this
  have hr := row_add_le (w := nk * vpk * bph * 36) hr
  refine fills_copy (by omega) (by omega) fun k hk => ?_
  rw [colMap_head hw hj hg hk]
  exact getElem?_getD (by omega)

/-! ## The permutation of an axis -/

section perm

variable {α : Type} [Inhabited α] {data : List α} {n nk vpk headDim lo hi w : ℕ} {σ b : ℕ → ℕ}

theorem vPerm_eq (hnk : 0 < nk) (hhi : hi ≤ n) (hband : lo + nk * vpk * headDim = hi) :
    vPerm n (nk * vpk) nk headDim lo hi =
      some (some ((List.range n).map (chunkSrc lo headDim nk vpk))) := by
  have hsub : hi - lo = nk * vpk * headDim := by omega
  unfold vPerm
  rw [if_neg (by omega)]
  simp only [ensure, hnk.ne', ne_eq, not_false_eq_true, if_true, Option.bind_eq_bind, Option.bind_some,
    Nat.mul_div_cancel_left _ hnk, Nat.mul_mod_right, not_true_eq_false, if_false]
  have hfill : Fills n (chunkSrc lo headDim nk vpk)
      (fun i => ∃ j, j < vpk ∧ ∃ g, g < nk ∧ ∃ d, d < headDim ∧ i = lo + (j * nk + g) * headDim + d)
      fun p => (List.range vpk).foldlM (fun p j => (List.range nk).foldlM (fun p g =>
        (List.range headDim).foldlM (fun p d => overwrite p (lo + (j * nk + g) * headDim + d)
          [lo + (g * vpk + j) * headDim + d]) p) p) p :=
    Fills.loop fun j hj => Fills.loop fun g hg => Fills.loop fun d hd => by
      have hdst := row_col_lt (row_col_lt hj hg) hd
      rw [Nat.mul_comm vpk nk] at hdst
      exact fills_set (by omega) (chunkSrc_at hj hg hd).symm
  have hrun := hfill.over List.length_range fun i hi hR => by
    rw [chunkSrc_outside fun h => hR (exists_chunk h)]
    simp [hi]
  rw [hrun, Option.bind_some]

theorem lt_divCeil {m D : ℕ} (hm : 0 < m) : D < divCeil n m ↔ D * m < n := by
  have hmod := Nat.div_add_mod' n m
  have hlt := Nat.mod_lt n hm
  unfold divCeil
  constructor
  · intro h
    by_cases h0 : n % m > 0
    · rw [if_pos h0] at h
      have := Nat.mul_le_mul_right m (by omega : D ≤ n / m)
      omega
    · rw [if_neg h0] at h
      have := row_add_le (w := m) h
      omega
  · intro h
    by_contra hge
    have hle : (if n % m > 0 then n / m + 1 else n / m) * m ≤ D * m :=
      Nat.mul_le_mul_right m (by omega)
    split at hle
    · have hsucc : (n / m + 1) * m = n / m * m + m := by ring
      omega
    · omega

/-- The slots after `i` indices. -/
def slots (σ : ℕ → ℕ) (m i : ℕ) : List (Option ℕ) :=
  (List.range m).map fun D => if D * 128 < i then some (σ (D * 128) / 128) else none

theorem overwrite_map {β : Type} {m k : ℕ} {f g : ℕ → β} (hk : k < m)
    (h : ∀ D, D < m → g D = if D = k then g k else f D) :
    overwrite ((List.range m).map f) k [g k] = some ((List.range m).map g) := by
  obtain ⟨out, hout⟩ : ∃ out, overwrite ((List.range m).map f) k [g k] = some out :=
    ⟨_, overwrite_eq_some.2 ⟨by simpa using hk, rfl⟩⟩
  rw [hout]
  congr 1
  apply List.ext_getElem?
  intro D
  rw [getElem?_overwrite hout]
  rcases Nat.lt_or_ge D m with hD | hD
  · have hg := h D hD
    by_cases hDk : D = k
    · subst hDk
      simp [hD]
    · rw [if_neg hDk] at hg
      rw [if_neg (by simp only [List.length_singleton]; omega)]
      simp [hD, hg]
  · rw [if_neg (by simp only [List.length_singleton]; omega)]
    simp [hD]

/-- One turn of `block128_perm`: the first index of a block fills its slot, the others compare. -/
theorem slots_step {i : ℕ} (hi : i < n) :
    block128Turn ((List.range n).map σ) (slots σ (divCeil n 128) i) i =
    if σ i / 128 = σ (i / 128 * 128) / 128 then some (slots σ (divCeil n 128) (i + 1)) else none := by
  have hin : i / 128 < divCeil n 128 := (lt_divCeil (by decide)).2 (by omega)
  have hs : ((List.range n).map σ)[i]? = some (σ i) := by simp [hi]
  have hslot : (slots σ (divCeil n 128) i)[i / 128]? =
      some (if i / 128 * 128 < i then some (σ (i / 128 * 128) / 128) else none) := by
    simp [slots, hin]
  rw [block128Turn, hs, hslot]
  simp only [Option.bind_eq_bind, Option.bind_some]
  rcases Nat.lt_or_ge (i / 128 * 128) i with hlt | hge
  · have hsame : slots σ (divCeil n 128) (i + 1) = slots σ (divCeil n 128) i := by
      refine List.map_congr_left fun D _ => ?_
      have : D * 128 < i + 1 ↔ D * 128 < i := by omega
      simp only [this]
    rw [if_pos hlt, hsame]
    simp only [ne_eq, ite_not, eq_comm]
  · have hfirst : i / 128 * 128 = i := by omega
    rw [if_neg (by omega), hfirst, if_pos rfl]
    have hval : some (σ i / 128) =
        if i / 128 * 128 < i + 1 then some (σ (i / 128 * 128) / 128) else none := by
      rw [if_pos (by omega), hfirst]
    simp only [hval]
    refine overwrite_map (g := fun D => if D * 128 < i + 1 then some (σ (D * 128) / 128) else none) hin
      fun D _ => ?_
    by_cases hD : D = i / 128
    · rw [if_pos hD, hD]
    · rw [if_neg hD]
      have : D * 128 < i + 1 ↔ D * 128 < i := by omega
      simp only [this]

theorem slots_loop (i : ℕ) (hi : i ≤ n) :
    (List.range i).foldlM (block128Turn ((List.range n).map σ)) (slots σ (divCeil n 128) 0) =
    if ∀ d, d < i → σ d / 128 = σ (d / 128 * 128) / 128 then some (slots σ (divCeil n 128) i)
    else none := by
  induction i with
  | zero => simp
  | succ i ih =>
    rw [List.range_succ, List.foldlM_append, ih (by omega)]
    by_cases hall : ∀ d, d < i → σ d / 128 = σ (d / 128 * 128) / 128
    · have hiff : (∀ d, d < i + 1 → σ d / 128 = σ (d / 128 * 128) / 128) ↔
          σ i / 128 = σ (i / 128 * 128) / 128 := by
        refine ⟨fun h => h i (by omega), fun h d hd => ?_⟩
        rcases Nat.lt_succ_iff_lt_or_eq.1 hd with hlt | rfl
        · exact hall d hlt
        · exact h
      rw [if_pos hall]
      simp only [hiff]
      simpa using slots_step (σ := σ) (by omega : i < n)
    · rw [if_neg hall, if_neg fun h => hall fun d hd => h d (by omega)]
      rfl

/-- `block128_perm` refuses a permutation that mixes a block. -/
theorem block128Perm_eq : block128Perm ((List.range n).map σ) =
    if ∀ d, d < n → σ d / 128 = σ (d / 128 * 128) / 128 then
      some ((List.range (divCeil n 128)).map fun D => σ (D * 128) / 128)
    else none := by
  have hempty : slots σ (divCeil n 128) 0 = List.replicate (divCeil n 128) none := by
    simp [slots]
  have hfull : (slots σ (divCeil n 128) n).map (fun slot => slot.getD usizeMax) =
      (List.range (divCeil n 128)).map fun D => σ (D * 128) / 128 := by
    rw [slots, List.map_map]
    refine List.map_congr_left fun D hD => ?_
    have := (lt_divCeil (by decide)).1 (List.mem_range.1 hD)
    simp [this]
  unfold block128Perm
  rw [List.length_map, List.length_range, ← hempty, slots_loop n le_rfl]
  split
  · simp [← hfull]
  · rfl

theorem gatherRows_eq (hlen : data.length = n * w) (hσ : ∀ d, d < n → σ d < n) :
    gatherRows data ((List.range n).map σ) w = some (gather data (rowMap σ w)) := by
  unfold gatherRows gather
  rw [List.length_map, List.length_range]
  refine Fills.all (R := fun i => ∃ d, d < n ∧ d * w ≤ i ∧ i < d * w + w)
    (Fills.loop fun d hd => ?_) (fun i hi => ?_) (by simp)
  · have hs : ((List.range n).map σ)[d]? = some (σ d) := by simp [hd]
    have hsrcRow := row_add_le (w := w) (hσ d hd)
    have hdstRow := row_add_le (w := w) hd
    simp only [hs, Option.bind_eq_bind, Option.bind_some]
    refine fills_copy (by omega) (by omega) fun k hk => ?_
    rw [rowMap_at hk]
    exact getElem?_getD (by omega)
  · obtain ⟨d, hd, c, hc, rfl⟩ := exists_row_col (m := n) (w := w) (by omega : i < n * w)
    exact ⟨d, hd, by omega, by omega⟩

theorem gatherCols_eq {rows : ℕ} (hlen : data.length = rows * n) (hσ : ∀ d, d < n → σ d < n) :
    gatherCols data ((List.range n).map σ) rows n = some (gather data (colMap σ n)) := by
  unfold gatherCols gather
  rw [List.length_map, List.length_range]
  refine Fills.all (R := fun i => ∃ o, o < rows ∧ ∃ d, d < n ∧ i = o * n + d)
    (Fills.loop fun o ho => Fills.loop fun d hd => ?_) (fun i hi => ?_) (by simp)
  · have hs : ((List.range n).map σ)[d]? = some (σ d) := by simp [hd]
    have hsrcCell := row_col_lt ho (hσ d hd)
    have hdstCell := row_col_lt ho hd
    have hread := getElem?_getD (by omega : o * n + σ d < data.length)
    refine (fills_set (x := data.getD (o * n + σ d) default) (by omega) ?_).congr fun out => by
      simp only [hs, hread, Option.bind_eq_bind, Option.bind_some]
    rw [colMap_at hd]
  · obtain ⟨o, ho, d, hd, rfl⟩ := exists_row_col (m := rows) (w := n) (by omega : i < rows * n)
    exact ⟨o, ho, d, hd, rfl⟩

end perm

/-! ## Dequantization -/

/-- The value of element `i` of packed blocks. -/
def packedValue (packed : List UInt8) (i : ℕ) : ℚ :=
  value ((halfAt packed (ggufLayout.code i)).getD 0) (packed.getD (ggufLayout.scale (i / 16)) 0)

/-- Blocks in a new order have their elements in that order. -/
theorem packedValue_gather {packed : List UInt8} {x : ℕ} {f τ : ℕ → ℕ} (hlen : packed.length = x * 36)
    (hτ : ∀ B, B < x → τ B < x) (hf : ∀ B t, B < x → t < 36 → f (B * 36 + t) = τ B * 36 + t)
    {B e : ℕ} (hB : B < x) (he : e < 64) :
    packedValue (gather packed f) (B * 64 + e) = packedValue packed (τ B * 64 + e) := by
  have hcell : ∀ t, t < 36 → (gather packed f)[B * 36 + t]? = packed[τ B * 36 + t]? := fun t ht => by
    have := hτ B hB
    rw [getElem?_getD (by rw [length_gather]; omega), getD_gather (by omega), hf B t hB ht,
      ← getElem?_getD (by omega)]
  have hcode : ∀ C, ggufLayout.code (C * 64 + e) =
      (C * 36 + (4 + e / 16 * 8 + e % 8), (ggufLayout.code e).2) := fun C => by
    simp only [ggufLayout, Prod.mk.injEq, decide_eq_decide]
    omega
  have hscale : ∀ C, ggufLayout.scale ((C * 64 + e) / 16) = C * 36 + e / 16 := fun C => by
    simp only [ggufLayout]
    omega
  rw [packedValue, packedValue, hcode, hcode, hscale, hscale, halfAt, halfAt, hcell _ (by omega),
    List.getD_eq_getElem?_getD, hcell _ (by omega), List.getD_eq_getElem?_getD]

theorem dequantNvfp4_gather {packed : List UInt8} {x : ℕ} {f36 f64 τ : ℕ → ℕ}
    (hlen : packed.length = x * 36) (hτ : ∀ B, B < x → τ B < x)
    (h36 : ∀ B t, B < x → t < 36 → f36 (B * 36 + t) = τ B * 36 + t)
    (h64 : ∀ B e, B < x → e < 64 → f64 (B * 64 + e) = τ B * 64 + e) :
    ∃ xs, dequantNvfp4 packed (64 * x) = some xs ∧ xs.length = 64 * x ∧
      dequantNvfp4 (gather packed f36) (64 * x) = some (gather xs f64) := by
  have hxs : dequantNvfp4 packed (64 * x) = some ((List.range (64 * x)).map (packedValue packed)) :=
    dequantGgufRow_eq hlen
  have hys : dequantNvfp4 (gather packed f36) (64 * x) =
      some ((List.range (64 * x)).map (packedValue (gather packed f36))) :=
    dequantGgufRow_eq (by simpa using hlen)
  refine ⟨_, hxs, by simp, ?_⟩
  have hlt : ∀ i, i < 64 * x → f64 i < 64 * x := fun i hi => by
    obtain ⟨B, hB, e, he, rfl⟩ := exists_row_col (by omega : i < x * 64)
    have := hτ B hB
    rw [h64 B e hB he]
    omega
  rw [hys, gather_range hlt]
  congr 1
  refine List.map_congr_left fun i hi => ?_
  have hi := List.mem_range.1 hi
  obtain ⟨B, hB, e, he, rfl⟩ := exists_row_col (by omega : i < x * 64)
  rw [packedValue_gather hlen hτ h36 hB he, h64 B e hB he]

section f8

variable {S V : Type} [Inhabited S] [Inhabited V] {deq : UInt8 → S → V} {bytes : List UInt8}
  {scales : List S} {outF inF cols : ℕ}

/-- The value of element `i` of a block-128 weight. -/
def f8Value (deq : UInt8 → S → V) (bytes : List UInt8) (scales : List S) (inF cols i : ℕ) : V :=
  deq (bytes.getD i default) (scales.getD (i / inF / 128 * cols + i % inF / 128) default)

omit [Inhabited V] in
theorem f8Chunks_fills {o : ℕ} (ho : o < outF) (hlen : bytes.length = outF * inF)
    (hcols : cols = divCeil inF 128) (hscales : scales.length = divCeil outF 128 * cols) :
    Fills (outF * inF) (f8Value deq bytes scales inF cols) (fun i => o * inF + 0 ≤ i ∧ i < o * inF + inF)
      (f8Chunks deq bytes inF scales cols o 0) := by
  have hrow := row_add_le (w := inF) ho
  refine Fills.chunks (fun e => min (e + 128 - e % 128) inF) (fun e he => by omega)
    (fun e he => ?_) (fun data => by rw [f8Chunks, if_neg (lt_irrefl _)]) 0 (Nat.zero_le _)
  have hgrid : o / 128 * cols + e / 128 < scales.length := by
    rw [hscales]
    refine row_col_lt ((lt_divCeil (by decide)).2 (by omega)) ?_
    rw [hcols]
    exact (lt_divCeil (by decide)).2 (by omega)
  have hchunk := fills_each (n := outF * inF) (f := f8Value deq bytes scales inF cols)
    (o * inF + e) (min (e + 128 - e % 128) inF - e) bytes
    (fun c => deq c (scales.getD (o / 128 * cols + e / 128) default)) (by omega) (by omega)
    fun k c hk hc => by
      have hcol : e + k < inF := by omega
      have hblock : (e + k) / 128 = e / 128 := by omega
      rw [f8Value, Nat.add_assoc, (row_col_div hcol).1, (row_col_div hcol).2, hblock, ← Nat.add_assoc,
        List.getD_eq_getElem?_getD, hc, Option.getD_some]
  simp only [Nat.add_assoc] at hchunk
  refine ⟨_, hchunk.mono fun i _ => by omega, fun data => ?_⟩
  rw [f8Chunks, if_pos he, getElem?_getD hgrid]
  rfl

theorem f8DeqF32_eq (hlen : bytes.length = outF * inF) (hcols : cols = divCeil inF 128)
    (hscales : scales.length = divCeil outF 128 * cols) : f8DeqF32 deq bytes outF inF scales cols =
      some ((List.range (outF * inF)).map (f8Value deq bytes scales inF cols)) := by
  unfold f8DeqF32
  refine Fills.all (Fills.loop fun o ho => f8Chunks_fills ho hlen hcols hscales)
    (fun i hi => ?_) (by simp)
  obtain ⟨o, ho, c, hc, rfl⟩ := exists_row_col hi
  exact ⟨o, ho, by omega, by omega⟩

end f8

end Memra.HfMapping
