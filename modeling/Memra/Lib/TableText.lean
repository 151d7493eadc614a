import Mathlib

/-!
# Text of plain tables

A text of lines: comments, blank lines, headers `[[name]]`, and `key = value` lines that belong to
the table of the last header. Values are strings without escapes, booleans and numbers of 63 bits.
`readTables` reads the tables of one name. `Denotes` says what a text reads as, line by line, which
appending a table keeps (`Denotes.append`); so a written list of tables reads back
(`denotes_writeTables`).
-/

namespace Lib.TableText

inductive Value
  | str (s : List Char)
  | bool (b : Bool)
  | int (n : ℕ)
  deriving DecidableEq

abbrev Table := List (List Char × Value)

/-! ## Reading -/

def readValue (l : List Char) : Option Value :=
  if l ≠ [] ∧ l.all Char.isDigit then
    let n := Nat.ofDigitChars 10 l 0
    if n < 2 ^ 63 then some (.int n) else none
  else if l = "true".toList then some (.bool true)
  else if l = "false".toList then some (.bool false)
  else
    match l with
    | '"' :: r =>
      if r.getLast? = some '"' ∧ r.dropLast.all fun c => c != '"' && c != '\\' then
        some (.str r.dropLast)
      else none
    | _ => none

def readPair (l : List Char) : Option (List Char × Value) :=
  match l.drop (l.takeWhile (· != ' ')).length with
  | ' ' :: '=' :: ' ' :: v => (readValue v).map (l.takeWhile (· != ' '), ·)
  | _ => none

/-- One line; the last table read is the first of the list. -/
def addLine (header : List Char) (ts : List Table) (l : List Char) : Option (List Table) :=
  if l = [] ∨ l.head? = some '#' then some ts
  else if l = header then some ([] :: ts)
  else
    match readPair l, ts with
    | some (k, v), t :: ts => if (t.lookup k).isSome then none else some ((t ++ [(k, v)]) :: ts)
    | _, _ => none

def readTables (header text : List Char) : Option (List Table) :=
  ((text.splitOn '\n').foldlM (addLine header) []).map List.reverse

/-! ## Writing -/

def Value.text : Value → List Char
  | .str s => '"' :: (s ++ ['"'])
  | .bool b => if b then "true".toList else "false".toList
  | .int n => Nat.toDigits 10 n

def pairLine (p : List Char × Value) : List Char := p.1 ++ " = ".toList ++ p.2.text

def tableLines (header : List Char) (t : Table) : List (List Char) := header :: t.map pairLine

def unlines (ls : List (List Char)) : List Char := ls.flatMap (· ++ ['\n'])

/-- A blank line between two tables. -/
def writeTables (header : List Char) : List Table → List Char
  | [] => []
  | t :: ts =>
    unlines (tableLines header t) ++ ts.flatMap fun t => unlines ([] :: tableLines header t)

/-! ## What can be written -/

/-- No escape is needed, and a number fits. -/
def Value.Plain : Value → Prop
  | .str s => ∀ c ∈ s, c ≠ '"' ∧ c ≠ '\\' ∧ c ≠ '\n'
  | .bool _ => True
  | .int n => n < 2 ^ 63

/-- A key that stands without quotes. -/
def Bare (k : List Char) : Prop := k ≠ [] ∧ ∀ c ∈ k, c.isAlphanum ∨ c = '_' ∨ c = '-'

structure Table.Plain (t : Table) : Prop where
  keys : ∀ p ∈ t, Bare p.1
  values : ∀ p ∈ t, p.2.Plain
  nodup : (t.map (·.1)).Nodup

/-- A header begins with a bracket and is one line. -/
def IsHeader (header : List Char) : Prop := header.head? = some '[' ∧ '\n' ∉ header

/-! ## One line reads back -/

theorem Bare.not_mem {k : List Char} (hk : Bare k) {c : Char}
    (hc : (c.isAlphanum || c == '_' || c == '-') = false) : c ∉ k := by
  intro h
  simp only [Bool.or_eq_false_iff, beq_eq_false_iff_ne] at hc
  rcases hk.2 c h with h | h | h
  · rw [hc.1.1] at h
    cases h
  · exact hc.1.2 h
  · exact hc.2 h

theorem readValue_text {v : Value} (hv : v.Plain) : readValue v.text = some v := by
  cases v with
  | bool b => cases b <;> decide
  | int n =>
    have hdig : (Nat.toDigits 10 n).all Char.isDigit = true :=
      List.all_eq_true.2 fun c hc => Nat.isDigit_of_mem_toDigits (by decide) (by decide) hc
    have hval : Nat.ofDigitChars 10 (Nat.toDigits 10 n) 0 = n :=
      Nat.ofDigitChars_toDigits (by decide) (by decide)
    have hlt : n < 2 ^ 63 := hv
    unfold readValue Value.text
    rw [if_pos ⟨Nat.toDigits_ne_nil, hdig⟩, hval]
    exact if_pos hlt
  | str s =>
    have hbody : (s.all fun c => c != '"' && c != '\\') = true := by
      rw [List.all_eq_true]
      intro c hc
      obtain ⟨h1, h2, -⟩ := hv c hc
      simp [h1, h2]
    have hq : ¬ (('"' :: (s ++ ['"'])) ≠ [] ∧ ('"' :: (s ++ ['"'])).all Char.isDigit = true) := by
      intro ⟨_, h⟩
      rw [List.all_cons] at h
      cases h
    unfold readValue Value.text
    rw [if_neg hq, if_neg (by simp), if_neg (by simp)]
    simp only [List.getLast?_concat, List.dropLast_concat, hbody, and_self, if_true]

theorem newline_not_mem_text {v : Value} (hv : v.Plain) : '\n' ∉ v.text := by
  cases v with
  | bool b => cases b <;> decide
  | int n =>
    intro h
    have hd := Nat.isDigit_of_mem_toDigits (b := 10) (by decide) (by decide) h
    cases hd
  | str s =>
    intro h
    simp only [Value.text, List.mem_cons, List.mem_append, List.not_mem_nil, or_false] at h
    rcases h with h | h | h
    · cases h
    · exact (hv _ h).2.2 rfl
    · cases h

theorem readPair_pairLine {p : List Char × Value} (hk : Bare p.1) (hv : p.2.Plain) :
    readPair (pairLine p) = some p := by
  have hkey : ∀ c ∈ p.1, (c != ' ') = true := by
    intro c hc
    rw [bne_iff_ne]
    rintro rfl
    exact hk.not_mem (by decide) hc
  have htake : (pairLine p).takeWhile (· != ' ') = p.1 := by
    unfold pairLine
    rw [List.append_assoc, List.takeWhile_append_of_pos hkey]
    exact List.append_nil _
  have hdrop : (pairLine p).drop p.1.length = ' ' :: '=' :: ' ' :: p.2.text := by
    unfold pairLine
    rw [List.append_assoc, List.drop_left]
    rfl
  unfold readPair
  rw [htake, hdrop]
  simp only [readValue_text hv]
  rfl

theorem newline_not_mem_pairLine {p : List Char × Value} (hk : Bare p.1) (hv : p.2.Plain) :
    '\n' ∉ pairLine p := by
  intro h
  rcases List.mem_append.1 h with h | h
  · rcases List.mem_append.1 h with h | h
    · exact hk.not_mem (by decide) h
    · revert h
      decide
  · exact newline_not_mem_text hv h

theorem addLine_header {header : List Char} (hh : IsHeader header) (ts : List Table) :
    addLine header ts header = some ([] :: ts) := by
  have hne : ¬ (header = [] ∨ header.head? = some '#') := by
    intro h
    rcases h with h | h
    · rw [h] at hh
      cases hh.1
    · rw [hh.1] at h
      cases h
  unfold addLine
  rw [if_neg hne, if_pos rfl]

theorem addLine_pairLine {header : List Char} (hh : IsHeader header) {p : List Char × Value}
    (hk : Bare p.1) (hv : p.2.Plain) {t : Table} (hnew : p.1 ∉ t.map (·.1)) (ts : List Table) :
    addLine header (t :: ts) (pairLine p) = some ((t ++ [p]) :: ts) := by
  obtain ⟨c, k, hck⟩ : ∃ c k, p.1 = c :: k := List.exists_cons_of_ne_nil hk.1
  have hhead : (pairLine p).head? = some c := by
    unfold pairLine
    rw [hck]
    rfl
  have hmem : c ∈ p.1 := by
    rw [hck]
    exact List.mem_cons_self
  have hcomment : ¬ (pairLine p = [] ∨ (pairLine p).head? = some '#') := by
    intro h
    rcases h with h | h
    · rw [h] at hhead
      cases hhead
    · rw [hhead, Option.some.injEq] at h
      exact hk.not_mem (by decide) (h ▸ hmem)
  have hheader : pairLine p ≠ header := by
    intro h
    rw [h, hh.1, Option.some.injEq] at hhead
    exact hk.not_mem (by decide) (hhead ▸ hmem)
  have hlookup : t.lookup p.1 = none := by
    rw [List.lookup_eq_none_iff]
    intro q hq
    rw [bne_iff_ne]
    intro heq
    exact hnew (List.mem_map.2 ⟨q, hq, heq.symm⟩)
  unfold addLine
  rw [if_neg hcomment, if_neg hheader, readPair_pairLine hk hv]
  simp only [hlookup]
  rfl

/-! ## What a text denotes -/

/-- The lines of the text, read in order, leave these tables. -/
def Denotes (header text : List Char) (ts : List Table) : Prop :=
  ∃ ls, text = unlines ls ∧ (∀ l ∈ ls, '\n' ∉ l) ∧ ls.foldlM (addLine header) [] = some ts.reverse

theorem splitOn_unlines {ls : List (List Char)} (h : ∀ l ∈ ls, '\n' ∉ l) :
    (unlines ls).splitOn '\n' = ls ++ [[]] := by
  induction ls with
  | nil => rfl
  | cons l ls ih =>
    have hl : '\n' ∉ l := h l (.head _)
    unfold unlines at ih ⊢
    rw [List.flatMap_cons, List.append_assoc, List.singleton_append,
      List.splitOn_append_cons_self_of_not_mem hl, ih fun l hl => h l (.tail _ hl)]
    rfl

theorem Denotes.read {header text : List Char} {ts : List Table} (h : Denotes header text ts) :
    readTables header text = some ts := by
  obtain ⟨ls, rfl, hls, hfold⟩ := h
  unfold readTables
  rw [splitOn_unlines hls, List.foldlM_append, hfold]
  simp [addLine]

theorem foldlM_pairLines {header : List Char} (hh : IsHeader header) (ts : List Table) :
    ∀ (t₀ t : Table), Table.Plain (t₀ ++ t) →
      (t.map pairLine).foldlM (addLine header) (t₀ :: ts) = some ((t₀ ++ t) :: ts)
  | t₀, [], _ => by
    rw [List.append_nil]
    rfl
  | t₀, p :: t, h => by
    have hp : p ∈ t₀ ++ p :: t := List.mem_append_right _ (.head _)
    have hnd := h.nodup
    rw [List.map_append, List.map_cons] at hnd
    have hnew : p.1 ∉ t₀.map (·.1) := fun hin =>
      (List.nodup_append.1 hnd).2.2 _ hin _ (.head _) rfl
    rw [List.map_cons, List.foldlM_cons, addLine_pairLine hh (h.keys p hp) (h.values p hp) hnew]
    change (t.map pairLine).foldlM (addLine header) ((t₀ ++ [p]) :: ts) = _
    rw [foldlM_pairLines hh ts (t₀ ++ [p]) t (by rwa [List.append_assoc]), List.append_assoc]
    rfl

theorem foldlM_tableLines {header : List Char} (hh : IsHeader header) {t : Table} (ht : t.Plain)
    (ts : List Table) :
    (tableLines header t).foldlM (addLine header) ts = some (t :: ts) := by
  unfold tableLines
  rw [List.foldlM_cons, addLine_header hh]
  exact foldlM_pairLines hh ts [] t ht

theorem newline_not_mem_tableLines {header : List Char} (hh : IsHeader header) {t : Table}
    (ht : t.Plain) : ∀ l ∈ tableLines header t, '\n' ∉ l := by
  intro l hl
  rcases List.mem_cons.1 hl with rfl | hl
  · exact hh.2
  · obtain ⟨p, hp, rfl⟩ := List.mem_map.1 hl
    exact newline_not_mem_pairLine (ht.keys p hp) (ht.values p hp)

theorem unlines_append (as bs : List (List Char)) :
    unlines (as ++ bs) = unlines as ++ unlines bs :=
  List.flatMap_append

/-- **One more table at the end**, behind a blank line. -/
theorem Denotes.append {header text : List Char} {ts : List Table} (h : Denotes header text ts)
    (hh : IsHeader header) {t : Table} (ht : t.Plain) :
    Denotes header (text ++ unlines ([] :: tableLines header t)) (ts ++ [t]) := by
  obtain ⟨ls, rfl, hls, hfold⟩ := h
  refine ⟨ls ++ [] :: tableLines header t, (unlines_append _ _).symm, ?_, ?_⟩
  · intro l hl
    rcases List.mem_append.1 hl with hl | hl
    · exact hls l hl
    · rcases List.mem_cons.1 hl with rfl | hl
      · exact List.not_mem_nil
      · exact newline_not_mem_tableLines hh ht l hl
  · have hblank : addLine header ts.reverse [] = some ts.reverse := if_pos (.inl rfl)
    rw [List.foldlM_append, hfold]
    change ([] :: tableLines header t).foldlM (addLine header) ts.reverse = _
    rw [List.foldlM_cons, hblank]
    change (tableLines header t).foldlM (addLine header) ts.reverse = _
    rw [foldlM_tableLines hh ht, List.reverse_concat]

/-- Comments denote nothing. -/
theorem denotes_comments (header : List Char) {ls : List (List Char)}
    (hls : ∀ l ∈ ls, '\n' ∉ l ∧ l.head? = some '#') : Denotes header (unlines ls) [] := by
  refine ⟨ls, rfl, fun l hl => (hls l hl).1, ?_⟩
  induction ls with
  | nil => rfl
  | cons l ls ih =>
    have hl : addLine header [] l = some [] := if_pos (.inr (hls l (.head _)).2)
    rw [List.foldlM_cons, hl]
    exact ih fun l hl => hls l (.tail _ hl)

/-- **Written tables read back.** -/
theorem denotes_writeTables {header : List Char} (hh : IsHeader header) {ts : List Table}
    (hts : ∀ t ∈ ts, t.Plain) (hne : ts ≠ []) : Denotes header (writeTables header ts) ts := by
  obtain ⟨t, ts, rfl⟩ := List.exists_cons_of_ne_nil hne
  induction ts using List.reverseRecOn with
  | nil =>
    have ht := hts t (.head _)
    refine ⟨tableLines header t, List.append_nil _, newline_not_mem_tableLines hh ht, ?_⟩
    exact foldlM_tableLines hh ht []
  | append_singleton ts u ih =>
    have hprev := ih (fun t' ht' => hts t' (List.mem_append_left [u] ht')) (List.cons_ne_nil _ _)
    have hu : u.Plain := hts u (List.mem_append_right (t :: ts) (List.mem_singleton_self _))
    have hnext := hprev.append hh hu
    have htext : writeTables header (t :: (ts ++ [u])) =
        writeTables header (t :: ts) ++ unlines ([] :: tableLines header u) := by
      simp [writeTables]
    rw [htext]
    exact hnext

end Lib.TableText
