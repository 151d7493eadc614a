import Memra.Engine.Trunk

/-!
# Session affinity

The structural fingerprint of a token stream and the exact comparison that decides a resume
(`conversation_fingerprint`, `fingerprint_affinity`, `affinity_match`).
-/

namespace Memra

/-- `FP_WINDOW`. -/
def fpWindow : ℕ := 8

/-- `FP_MIN_SEGMENTS`. -/
def fpMinSegments : ℕ := 3

/-- One byte of FNV-1a. -/
def fnvByte (h b : ℕ) : ℕ := (h ^^^ b) * 0x100000001b3 % 2 ^ 64

/-- `fnv1a`: the little-endian bytes of each token. -/
def fnv1a (seed : ℕ) (toks : List Tok) : ℕ :=
  toks.foldl (fun h t => (List.range 4).foldl (fun h i => fnvByte h (t / 256 ^ i % 256)) h) seed

/-- The segments of a stream, cut before every boundary token; `seg` is the one being read. -/
def segments (isBoundary : Tok → Bool) : List Tok → List Tok → List (List Tok)
  | seg, [] => if seg = [] then [] else [seg]
  | seg, t :: ts =>
    if isBoundary t ∧ seg ≠ [] then seg :: segments isBoundary [t] ts
    else segments isBoundary (seg ++ [t]) ts

/-- `conversation_fingerprint`: the hash of each segment's head and tail windows. -/
def conversationFingerprint (toks : List Tok) (isBoundary : Tok → Bool) (dropLive : Bool) :
    List ℕ :=
  let segs := segments isBoundary [] toks
  let segs := if dropLive then segs.dropLast else segs
  segs.map fun seg =>
    fnv1a (fnv1a 0xcbf29ce484222325 (seg.take fpWindow)) (seg.drop (seg.length - fpWindow))

/-- `fingerprint_affinity`: the length of the shared leading run. -/
def fingerprintAffinity (a b : List ℕ) : ℕ := ((a.zip b).takeWhile fun p => p.1 = p.2).length

/-- `AffinityMatch`. -/
inductive AffinityMatch
  | exact (suffixFrom : ℕ)
  | diverged (at_ : ℕ)
  deriving DecidableEq

/-- `affinity_match` from position `i` of both; `n` is the length of the committed tokens. -/
def affinityMatchFrom (n : ℕ) : ℕ → List Tok → List Tok → AffinityMatch
  | _, _, [] => .exact n
  | i, [], _ :: _ => .diverged i
  | i, p :: ps, c :: cs => if p = c then affinityMatchFrom n (i + 1) ps cs else .diverged i

/-- `affinity_match`. -/
def affinityMatch (prompt committed : List Tok) : AffinityMatch :=
  affinityMatchFrom committed.length 0 prompt committed

/-- The last position of a list that satisfies `p` (`rposition`). -/
def rposition {α : Type} (p : α → Bool) (l : List α) : Option ℕ :=
  (l.reverse.findIdx? p).map (l.length - 1 - ·)

theorem rposition_some {α : Type} {p : α → Bool} {l : List α} {i : ℕ}
    (h : rposition p l = some i) : ∃ x, l[i]? = some x ∧ p x := by
  obtain ⟨j, hj, rfl⟩ := Option.map_eq_some_iff.1 h
  obtain ⟨hlt, hp, -⟩ := List.findIdx?_eq_some_iff_getElem.1 hj
  refine ⟨l.reverse[j], ?_, hp⟩
  rw [List.length_reverse] at hlt
  rw [List.getElem_reverse]
  exact List.getElem?_eq_getElem _

end Memra
