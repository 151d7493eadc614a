import Mathlib.Data.List.Infix

/-!
# Paths as text

A path of a Unix file system as the text that names it. `components` is what the text means: a
separator that is doubled, one at the end, and a `.` that is not the first part mean nothing, and paths
are equal when their components are. `join` puts a path below another and `parent` takes the last
component off. A path whose components are all names leads to something below what it is joined to
(`components_join`).
-/

namespace Lib.PathText

inductive Component
  | rootDir
  | curDir
  | parentDir
  | normal (name : List Char)
  deriving DecidableEq

/-- What a part between two separators means. -/
def segment (s : List Char) : Option Component :=
  if s = [] then none
  else if s = ['.'] then none
  else if s = ['.', '.'] then some .parentDir
  else some (.normal s)

def segments (p : List Char) : List Component := (p.splitOn '/').filterMap segment

def isAbsolute (p : List Char) : Bool := p.head? = some '/'

def startsAtCurDir (p : List Char) : Bool := p = ['.'] || ['.', '/'].isPrefixOf p

def components (p : List Char) : List Component :=
  if isAbsolute p then .rootDir :: segments p
  else if startsAtCurDir p then .curDir :: segments p
  else segments p

def Component.text : Component → List Char
  | .rootDir => []
  | .curDir => ['.']
  | .parentDir => ['.', '.']
  | .normal name => name

/-- A text with these components. -/
def render (cs : List Component) : List Char :=
  if cs = [.rootDir] then ['/'] else ['/'].intercalate (cs.map Component.text)

def parent (p : List Char) : Option (List Char) :=
  match (components p).getLast? with
  | none => none
  | some .rootDir => none
  | some _ => some (render (components p).dropLast)

def join (dir p : List Char) : List Char :=
  if isAbsolute p then p
  else if dir = [] ∨ dir.getLast? = some '/' then dir ++ p
  else dir ++ '/' :: p

/-- The component leads down. -/
def Component.isNormal : Component → Bool
  | .normal _ => true
  | _ => false

theorem segments_sep (p q : List Char) : segments (p ++ '/' :: q) = segments p ++ segments q := by
  unfold segments
  rw [List.splitOn_append_cons_self, List.filterMap_append]

theorem segments_nil : segments [] = [] := rfl

/-- A separator at the end means nothing. -/
theorem segments_append_sep (p : List Char) : segments (p ++ ['/']) = segments p := by
  rw [segments_sep, segments_nil, List.append_nil]

/-- What a path begins with is not changed by what comes behind a separator. -/
theorem startsAtCurDir_sep {p : List Char} (hp : p ≠ []) (q : List Char) :
    startsAtCurDir (p ++ '/' :: q) = startsAtCurDir p := by
  match p with
  | [c] =>
    by_cases hc : c = '.'
    · subst hc
      simp [startsAtCurDir]
    · have hc' : ('.' == c) = false := beq_false_of_ne (Ne.symm hc)
      simp [startsAtCurDir, List.isPrefixOf, hc, hc']
  | c :: d :: p => simp [startsAtCurDir, List.isPrefixOf]

theorem isAbsolute_append {p : List Char} (hp : p ≠ []) (q : List Char) :
    isAbsolute (p ++ q) = isAbsolute p := by
  unfold isAbsolute
  rw [List.head?_append_of_ne_nil _ hp]

theorem components_sep {p : List Char} (hp : p ≠ []) (q : List Char) :
    components (p ++ '/' :: q) = components p ++ segments q := by
  unfold components
  rw [isAbsolute_append hp, startsAtCurDir_sep hp, segments_sep]
  split
  · rfl
  · split <;> rfl

theorem components_append_sep {p : List Char} (hp : p ≠ []) : components (p ++ ['/']) = components p := by
  rw [components_sep hp, segments_nil, List.append_nil]

/-- Of a path whose components lead down, every part counts. -/
theorem components_of_normal {p : List Char} (h : ∀ c ∈ components p, c.isNormal = true) :
    isAbsolute p = false ∧ components p = segments p := by
  unfold components at h ⊢
  cases ha : isAbsolute p with
  | true =>
    rw [ha, if_pos rfl] at h
    exact absurd (h _ List.mem_cons_self) Bool.false_ne_true
  | false =>
    cases hc : startsAtCurDir p with
    | true =>
      rw [ha, hc, if_neg Bool.false_ne_true, if_pos rfl] at h
      exact absurd (h _ List.mem_cons_self) Bool.false_ne_true
    | false =>
      rw [if_neg Bool.false_ne_true, if_neg Bool.false_ne_true]
      exact ⟨rfl, rfl⟩

/-- A path whose components all lead down, joined to a directory, leads to something in it. -/
theorem components_join {dir p : List Char} (h : ∀ c ∈ components p, c.isNormal = true) :
    components (join dir p) = components dir ++ components p := by
  obtain ⟨ha, hp⟩ := components_of_normal h
  unfold join
  rw [if_neg (by rw [ha]; exact Bool.false_ne_true)]
  by_cases hd : dir = []
  · subst hd
    rw [if_pos (.inl rfl), List.nil_append]
    rfl
  · rw [hp]
    split
    · rename_i hsep
      obtain ⟨init, rfl⟩ : ∃ init, dir = init ++ ['/'] := by
        obtain ⟨init, c, rfl⟩ := (List.eq_nil_or_concat dir).resolve_left hd
        have hc : c = '/' := by simpa using hsep.resolve_left hd
        exact ⟨init, by rw [hc, List.concat_eq_append]⟩
      by_cases hinit : init = []
      · subst hinit
        show components ('/' :: p) = _
        unfold components
        rw [if_pos (by rfl), if_pos (by rfl)]
        have hseg : segments ('/' :: p) = segments [] ++ segments p := segments_sep [] p
        rw [hseg, List.cons_append]
        rfl
      · rw [List.append_assoc, List.singleton_append, components_sep hinit, components_append_sep hinit]
    · exact components_sep hd p

theorem segments_of_mem {s : List Char} (hs : s ≠ []) (hdot : s ≠ ['.']) (hsep : '/' ∉ s)
    (rest : List Component) : (s.splitOn '/').filterMap segment ++ rest ≠ [] := by
  rw [List.splitOn_eq_singleton hsep, List.filterMap_cons, List.filterMap_nil]
  unfold segment
  rw [if_neg hs, if_neg hdot]
  by_cases hup : s = ['.', '.'] <;> simp [hup]

/-- A path that is not empty leads somewhere. -/
theorem components_ne_nil {p : List Char} (hne : p ≠ []) : components p ≠ [] := by
  unfold components
  cases ha : isAbsolute p with
  | true => simp
  | false =>
    cases hc : startsAtCurDir p with
    | true => simp
    | false =>
      rw [if_neg Bool.false_ne_true, if_neg Bool.false_ne_true]
      -- the first part is neither empty nor a dot
      by_cases hslash : '/' ∈ p
      · obtain ⟨s, t, rfl, hs⟩ := List.eq_append_cons_of_mem hslash
        rw [segments_sep]
        refine segments_of_mem ?_ ?_ hs _
        · rintro rfl
          simp [isAbsolute] at ha
        · rintro rfl
          simp [startsAtCurDir, List.isPrefixOf] at hc
      · rw [← List.append_nil (segments p)]
        refine segments_of_mem hne ?_ hslash _
        rintro rfl
        simp [startsAtCurDir] at hc

end Lib.PathText
