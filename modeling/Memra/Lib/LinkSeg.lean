import Mathlib.Data.List.Nodup
import Mathlib.Logic.Function.Basic

/-!
# Doubly linked lists in an arena

Elements are linked by two maps, `prev` and `next`. `LinkSeg prev next b xs a`: the links run through `xs`,
from `b` before its first element to `a` after its last. A list is such a segment with nothing before or
after it. `LinkSeg.pushBack` and `LinkSeg.unlink` are the two ways a list changes, as point updates of the
maps (`setAt`), and `LinkSeg.congr` is the frame rule.
-/

namespace Lib

open Function

variable {S : Type}

/-- The links run through the elements, from `b` to `a`. -/
def LinkSeg (prev next : S → Option S) : Option S → List S → Option S → Prop
  | _, [], _ => True
  | b, x :: xs, a => prev x = b ∧ next x = xs.head?.or a ∧ LinkSeg prev next (some x) xs a

variable {prev next prev' next' : S → Option S} {b a : Option S} {xs ys : List S} {s : S}

theorem LinkSeg.congr (hp : ∀ x ∈ xs, prev' x = prev x) (hn : ∀ x ∈ xs, next' x = next x)
    (h : LinkSeg prev next b xs a) : LinkSeg prev' next' b xs a := by
  induction xs generalizing b with
  | nil => trivial
  | cons x xs ih =>
    obtain ⟨h1, h2, h3⟩ := h
    exact ⟨(hp x (by simp)).trans h1, (hn x (by simp)).trans h2,
      ih (fun y hy => hp y (by simp [hy])) (fun y hy => hn y (by simp [hy])) h3⟩

theorem linkSeg_append : LinkSeg prev next b (xs ++ ys) a ↔
    LinkSeg prev next b xs (ys.head?.or a) ∧ LinkSeg prev next (xs.getLast?.or b) ys a := by
  induction xs generalizing b with
  | nil => simp [LinkSeg]
  | cons x xs ih =>
    have hlast : (x :: xs).getLast?.or b = xs.getLast?.or (some x) := by
      cases xs with
      | nil => rfl
      | cons y xs => simp [List.getLast?_cons]
    simp [LinkSeg, ih, hlast, List.head?_append, Option.or_assoc, and_assoc]

/-- What comes after the elements is what the last one links to. -/
theorem linkSeg_concat {x : S} : LinkSeg prev next b (xs ++ [x]) a ↔
    LinkSeg prev next b xs (some x) ∧ prev x = xs.getLast?.or b ∧ next x = a := by
  simp [linkSeg_append, LinkSeg]

/-- The elements in order, by following `next`; `none` where `n` steps are not enough. -/
def walk (next : S → Option S) : ℕ → Option S → Option (List S)
  | _, none => some []
  | 0, some _ => none
  | n + 1, some x => (walk next n (next x)).map (x :: ·)

theorem LinkSeg.walk_eq (h : LinkSeg prev next b xs none) {n : ℕ} (hn : xs.length ≤ n) :
    walk next n xs.head? = some xs := by
  induction xs generalizing b n with
  | nil => cases n <;> rfl
  | cons x xs ih =>
    obtain ⟨-, hnext, hrest⟩ := h
    rw [Option.or_none] at hnext
    cases n with
    | zero => simp at hn
    | succ n =>
      have hn' : xs.length ≤ n := by simpa using hn
      simp [walk, hnext, ih hrest hn']

variable [DecidableEq S]

/-- `f` with the value at `o`, if any, replaced. -/
def setAt (f : S → Option S) (o v : Option S) : S → Option S :=
  match o with
  | some x => update f x v
  | none => f

theorem setAt_of_ne {f : S → Option S} {o v : Option S} {x : S} (h : o ≠ some x) :
    setAt f o v x = f x := by
  cases o with
  | none => rfl
  | some y => exact update_of_ne (by rintro rfl; exact h rfl) _ _

theorem LinkSeg.setLast (h : LinkSeg prev next b xs a) (hnd : xs.Nodup) (v : Option S) :
    LinkSeg prev (setAt next xs.getLast? v) b xs v := by
  rcases xs.eq_nil_or_concat with rfl | ⟨ys, y, rfl⟩
  · trivial
  · rw [List.concat_eq_append] at *
    obtain ⟨h1, h2, -⟩ := linkSeg_concat.1 h
    have hy : y ∉ ys := by
      rw [List.nodup_append] at hnd
      exact fun hy => hnd.2.2 y hy y (by simp) rfl
    rw [List.getLast?_concat]
    refine linkSeg_concat.2 ⟨h1.congr (fun _ _ => rfl) fun x hx => ?_, h2, update_self ..⟩
    exact update_of_ne (by rintro rfl; exact hy hx) _ _

theorem LinkSeg.setHead (h : LinkSeg prev next b xs a) (hnd : xs.Nodup) (v : Option S) :
    LinkSeg (setAt prev xs.head? v) next v xs a := by
  cases xs with
  | nil => trivial
  | cons x xs =>
    obtain ⟨-, h2, h3⟩ := h
    refine ⟨update_self .., h2, h3.congr (fun y hy => ?_) fun _ _ => rfl⟩
    exact update_of_ne (by rintro rfl; exact (List.nodup_cons.1 hnd).1 hy) _ _

/-- **A new element at the back.** -/
theorem LinkSeg.pushBack (h : LinkSeg prev next none xs none) (hnd : xs.Nodup) (hs : s ∉ xs) :
    LinkSeg (update prev s xs.getLast?) (setAt (update next s none) xs.getLast? (some s)) none
      (xs ++ [s]) none := by
  have hold : LinkSeg (update prev s xs.getLast?) (update next s none) none xs none :=
    h.congr (fun x hx => update_of_ne (by rintro rfl; exact hs hx) _ _)
      fun x hx => update_of_ne (by rintro rfl; exact hs hx) _ _
  refine linkSeg_concat.2 ⟨hold.setLast hnd _, by simp, ?_⟩
  rw [setAt_of_ne, update_self]
  intro hlast
  exact hs (List.mem_of_getLast? hlast)

/-- **An element taken out**: its neighbours are linked to each other. -/
theorem LinkSeg.unlink (h : LinkSeg prev next none (xs ++ s :: ys) none)
    (hnd : (xs ++ s :: ys).Nodup) :
    prev s = xs.getLast? ∧ next s = ys.head? ∧
    LinkSeg (setAt prev (next s) (prev s)) (setAt next (prev s) (next s)) none (xs ++ ys) none := by
  obtain ⟨hx, hp, hn, hy⟩ := linkSeg_append.1 h
  rw [Option.or_none] at hp hn
  have hnd' : xs.Nodup ∧ ys.Nodup ∧ ∀ x ∈ xs, x ∉ ys := by
    rw [List.nodup_append, List.nodup_cons] at hnd
    exact ⟨hnd.1, hnd.2.1.2, fun x hx hy => hnd.2.2 x hx x (by simp [hy]) rfl⟩
  refine ⟨hp, hn, ?_⟩
  rw [hp, hn, linkSeg_append, Option.or_none, Option.or_none]
  refine ⟨(hx.setLast hnd'.1 _).congr (fun x hx' => ?_) fun _ _ => rfl,
    (hy.setHead hnd'.2.1 _).congr (fun _ _ => rfl) fun y hy' => ?_⟩
  · exact setAt_of_ne fun hhead => hnd'.2.2 x hx' (List.mem_of_head? hhead)
  · exact setAt_of_ne fun hlast => hnd'.2.2 y (List.mem_of_getLast? hlast) hy'

end Lib
