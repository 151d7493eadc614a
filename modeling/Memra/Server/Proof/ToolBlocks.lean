import Memra.Server.Proof.ToolCall

/-!
# No text of a tools stream is lost, but one opening tag

`Reassembles`: a text is put back together from pieces, a call standing for a block of the text that
parses to it. `said_scanning` follows the parser through a text: everything is in the pieces, unless the
text ends right behind an opening tag (`endsOpen`). There `finish` finds an empty buffer and the tag,
taken off the text already, is not given back. `Says.unique` is why nothing else can make up for it.
-/

namespace Memra

open Lib

variable {J : JsonLib}

/-- The text that pieces stand for, `n` calls having been read before: content for itself, a call for
a block that parses to it and ends at its first closing tag. -/
inductive Reassembles (J : JsonLib) (schemas : Schemas) :
    ℕ → List Char → List Piece → Prop
  | nil {n} : Reassembles J schemas n [] []
  | content {n text rest out} (h : Reassembles J schemas n rest out) :
      Reassembles J schemas n (text ++ rest) (.content text :: out)
  | call {n inner rest out c} (hend : findSub (inner ++ closeTag) closeTag = some inner.length)
      (hparse : parseBlock J schemas n inner = some c)
      (h : Reassembles J schemas (n + 1) rest out) :
      Reassembles J schemas n (openTag ++ inner ++ closeTag ++ rest) (.call c :: out)

/-- The same of what an output says. -/
inductive Says (J : JsonLib) (schemas : Schemas) : ℕ → List Char → List Atom → Prop
  | nil {n} : Says J schemas n [] []
  | content {n c rest as} (h : Says J schemas n rest as) :
      Says J schemas n (c :: rest) (.content c :: as)
  | call {n inner rest as c} (hend : findSub (inner ++ closeTag) closeTag = some inner.length)
      (hparse : parseBlock J schemas n inner = some c) (h : Says J schemas (n + 1) rest as) :
      Says J schemas n (openTag ++ inner ++ closeTag ++ rest) (.call c :: as)

/-- The text ends right behind an opening tag that is not inside a block. -/
def endsOpen (text : List Char) : Bool :=
  match ho : findSub text openTag with
  | none => false
  | some i =>
    let body := text.drop (i + openTag.length)
    if body = [] then true
    else
      match findSub body closeTag with
      | none => false
      | some j => endsOpen (body.drop (j + closeTag.length))
termination_by text.length
decreasing_by
  have hle := findSub_le ho
  have hpos : 0 < openTag.length := by decide
  simp only [List.length_drop]
  omega

variable {schemas : Schemas}

theorem endsOpen_none {text : List Char} (ho : findSub text openTag = none) :
    endsOpen text = false := by
  rw [endsOpen]
  split
  · rfl
  · rename_i h
    rw [ho] at h
    cases h

theorem endsOpen_bare {text : List Char} {i : ℕ} (ho : findSub text openTag = some i)
    (hb : text.drop (i + openTag.length) = []) : endsOpen text = true := by
  rw [endsOpen]
  split
  · rename_i h
    rw [ho] at h
    cases h
  · rename_i h
    rw [ho] at h
    cases h
    exact if_pos hb

theorem endsOpen_unclosed {text : List Char} {i : ℕ} (ho : findSub text openTag = some i)
    (hb : text.drop (i + openTag.length) ≠ [])
    (hc : findSub (text.drop (i + openTag.length)) closeTag = none) : endsOpen text = false := by
  rw [endsOpen]
  split
  · rfl
  · rename_i h
    rw [ho] at h
    cases h
    simp only [hb, if_false, hc]

theorem endsOpen_block {text : List Char} {i j : ℕ} (ho : findSub text openTag = some i)
    (hc : findSub (text.drop (i + openTag.length)) closeTag = some j) :
    endsOpen text = endsOpen ((text.drop (i + openTag.length)).drop (j + closeTag.length)) := by
  have hb : text.drop (i + openTag.length) ≠ [] := by
    intro hb
    have hle := findSub_le hc
    have hpos : 0 < closeTag.length := by decide
    rw [hb, List.length_nil] at hle
    omega
  conv => lhs; rw [endsOpen]
  split
  · rename_i h
    rw [ho] at h
    cases h
  · rename_i h
    rw [ho] at h
    cases h
    simp only [hb, if_false, hc]

theorem Says.text {n : ℕ} {rest : List Char} {as : List Atom} (h : Says J schemas n rest as)
    (text : List Char) : Says J schemas n (text ++ rest) (text.map .content ++ as) := by
  induction text with
  | nil => exact h
  | cons c text ih => exact .content ih

theorem says_text_iff {n : ℕ} {t : List Char} {as : List Atom} (text : List Char) :
    Says J schemas n t (text.map .content ++ as) ↔
      ∃ rest, t = text ++ rest ∧ Says J schemas n rest as := by
  constructor
  · intro h
    induction text generalizing t with
    | nil => exact ⟨t, rfl, h⟩
    | cons c text ih =>
      cases h with
      | content h =>
        obtain ⟨rest, rfl, hr⟩ := ih h
        exact ⟨rest, rfl, hr⟩
  · rintro ⟨rest, rfl, h⟩
    exact h.text text

theorem says_all (n : ℕ) (text : List Char) : Says J schemas n text (text.map .content) := by
  have h : Says J schemas n (text ++ []) (text.map .content ++ []) := .text .nil text
  rwa [List.append_nil, List.append_nil] at h

/-- Pieces with text reassemble to what they say. -/
theorem reassembles_iff {out : List Piece} (hfull : ∀ p ∈ out, p.Full) {n : ℕ} {t : List Char} :
    Reassembles J schemas n t out ↔ Says J schemas n t (atoms out) := by
  induction out generalizing n t with
  | nil =>
    constructor
    · intro h
      cases h
      exact .nil
    · intro h
      cases h
      exact .nil
  | cons p out ih =>
    obtain ⟨hp, hout⟩ := List.forall_mem_cons.1 hfull
    have hcons : atoms (p :: out) = p.atoms ++ atoms out := List.flatMap_cons
    rw [hcons]
    cases p with
    | content text =>
      rw [Piece.atoms, says_text_iff]
      constructor
      · intro h
        cases h with
        | content h => exact ⟨_, rfl, (ih hout).1 h⟩
      · rintro ⟨rest, rfl, h⟩
        exact .content ((ih hout).2 h)
    | reasoning text =>
      constructor
      · intro h
        cases h
      · intro h
        cases text with
        | nil => exact absurd rfl hp
        | cons c text => cases h
    | call c =>
      constructor
      · intro h
        cases h with
        | call hend hparse h => exact .call hend hparse ((ih hout).1 h)
      · intro h
        cases h with
        | call hend hparse h => exact .call hend hparse ((ih hout).2 h)

/-- Two texts that the same atoms stand for, one a beginning of the other, are one text. -/
theorem Says.unique {n : ℕ} {t u : List Char} {as : List Atom} (h : Says J schemas n t as)
    (h' : Says J schemas n (t ++ u) as) : u = [] := by
  induction h with
  | nil =>
    cases h'
    rfl
  | @content n c rest as h ih =>
    obtain ⟨rest', ht, h'⟩ := (says_text_iff [c]).1 h'
    cases ht
    exact ih h'
  | @call n inner rest as c hend hparse h ih =>
    generalize ht : openTag ++ inner ++ closeTag ++ rest ++ u = t' at h'
    cases h' with
    | @call _ inner' rest' _ _ hend' hparse' h' =>
      -- both blocks end at the first closing tag of the one text
      have htext : inner ++ closeTag ++ (rest ++ u) = inner' ++ closeTag ++ rest' := by
        have h : openTag ++ (inner ++ closeTag ++ (rest ++ u)) =
            openTag ++ (inner' ++ closeTag ++ rest') := by
          simpa only [List.append_assoc] using ht
        exact List.append_cancel_left h
      have h1 := findSub_append_some hend (rest ++ u)
      have h2 := findSub_append_some hend' rest'
      rw [htext, h2] at h1
      have hlen : inner'.length = inner.length := Option.some.inj h1
      have hcut := List.append_inj htext (by simp [hlen])
      apply ih
      rw [hcut.2]
      exact h'

/-- What stands up to the end of the first occurrence of a tag has its first occurrence there. -/
theorem findSub_take {t tag : List Char} {i : ℕ} (h : findSub t tag = some i) :
    findSub (t.take i ++ tag) tag = some (t.take i).length ∧
      t = t.take i ++ tag ++ t.drop (i + tag.length) := by
  obtain ⟨⟨hi, hp⟩, hmin⟩ := findSub_eq_some.1 h
  have hcut : t = t.take i ++ tag ++ t.drop (i + tag.length) := by
    obtain ⟨r, hr⟩ := hp
    have hdrop : t.drop (i + tag.length) = r := by
      rw [← List.drop_drop, ← hr, List.drop_left]
    rw [hdrop, List.append_assoc, hr, List.take_append_drop]
  refine ⟨?_, hcut⟩
  have hlen : (t.take i).length = i := by
    rw [List.length_take]
    omega
  rw [findSub_eq_some, hlen]
  refine ⟨⟨by simp [hlen], by rw [List.drop_left' hlen]⟩, fun j hj hocc => ?_⟩
  apply hmin j hj
  rw [hcut]
  exact hocc.append _

namespace ToolStreamParser

/-- A tools parser that looks for an opening tag. -/
structure Scanning (p : ToolStreamParser J) (schemas : Schemas) : Prop where
  state : p.state = .scan
  gemma : p.gemma = false
  tools : p.scanTools = true
  schemas : p.schemas = schemas

/-- What the stream of a buffer says. -/
def said (p : ToolStreamParser J) : List Atom :=
  atoms (p.drain []).2 ++ atoms (p.drain []).1.finish.2

theorem said_go {p q : ToolStreamParser J} {out : List Piece} (h : p.step [] = (true, q, out)) :
    p.said = atoms out ++ q.said := by
  obtain ⟨h1, h2⟩ := drain_out q out
  unfold said
  rw [drain_go h, h1, h2, List.append_assoc]

theorem said_stop {p q : ToolStreamParser J} {out : List Piece} (h : p.step [] = (false, q, out)) :
    p.said = atoms out ++ atoms q.finish.2 := by
  unfold said
  rw [drain_stop h]

theorem atoms_finish_scan {p : ToolStreamParser J} (h : p.state = .scan) :
    atoms p.finish.2 = p.buf.map .content := by
  unfold finish
  by_cases hb : p.buf = [] <;> simp [h, hb]

theorem atoms_finish_inCall {p : ToolStreamParser J} (h : p.state = .inCall) :
    atoms p.finish.2 = if p.buf = [] then [] else (openTag ++ p.buf).map .content := by
  unfold finish
  by_cases hb : p.buf = [] <;> simp [h, hb]

/-- A stream without an opening tag says its text. -/
theorem said_plain {p : ToolStreamParser J} (hp : Scanning p schemas)
    (ho : findSub p.buf openTag = none) : p.said = p.buf.map .content := by
  have hs : scanTag openTag (fun buf => partialSuffixLen buf openTag) p.buf =
      (false, p.buf.take (p.buf.length - partialSuffixLen p.buf openTag),
        p.buf.drop (p.buf.length - partialSuffixLen p.buf openTag)) := by
    unfold scanTag
    rw [ho]
  have hstep := step_scanTools hp.state hp.gemma hp.tools []
  rw [hs] at hstep
  rw [said_stop hstep, atoms_finish_scan rfl, atoms_emitContent, atoms_nil, List.nil_append,
    ← List.map_append, List.take_append_drop]

/-- The parser behind an opening tag at `i`. -/
def opened (p : ToolStreamParser J) (i : ℕ) : ToolStreamParser J :=
  { p with buf := p.buf.drop (i + openTag.length), state := .inCall }

theorem said_opened {p : ToolStreamParser J} (hp : Scanning p schemas) {i : ℕ}
    (ho : findSub p.buf openTag = some i) :
    p.said = (p.buf.take i).map .content ++ (p.opened i).said := by
  have hs : scanTag openTag (fun buf => partialSuffixLen buf openTag) p.buf =
      (true, p.buf.take i, p.buf.drop (i + openTag.length)) := by
    unfold scanTag
    rw [ho]
  have hstep := step_scanTools hp.state hp.gemma hp.tools []
  rw [hs] at hstep
  rw [said_go hstep, atoms_emitContent, atoms_nil, List.nil_append]
  rfl

/-- A block that is never closed comes out with its tag, unless nothing is in it. -/
theorem said_unclosed {p : ToolStreamParser J} (h : p.state = .inCall)
    (hc : findSub p.buf closeTag = none) :
    p.said = if p.buf = [] then [] else (openTag ++ p.buf).map .content := by
  have hstep : p.step [] = (false, p, []) := by
    unfold step
    rw [h]
    simp only [hc]
  rw [said_stop hstep, atoms_finish_inCall h, atoms_nil, List.nil_append]

/-- The parser behind a block that ends at `j`, `k` calls read from it. -/
def closed (p : ToolStreamParser J) (j k : ℕ) : ToolStreamParser J :=
  { p with buf := p.buf.drop (j + closeTag.length), state := .scan, nCalls := p.nCalls + k }

theorem said_call {p : ToolStreamParser J} (h : p.state = .inCall) {j : ℕ}
    (hc : findSub p.buf closeTag = some j) {c : ParsedToolCall}
    (hparse : parseBlock J p.schemas p.nCalls (p.buf.take j) = some c) :
    p.said = .call c :: (p.closed j 1).said := by
  have hstep : p.step [] = (true, p.closed j 1, [.call c]) := by
    unfold step
    rw [h]
    simp only [hc, hparse]
    rfl
  rw [said_go hstep]
  rfl

theorem said_malformed {p : ToolStreamParser J} (h : p.state = .inCall) {j : ℕ}
    (hc : findSub p.buf closeTag = some j)
    (hparse : parseBlock J p.schemas p.nCalls (p.buf.take j) = none) :
    p.said = (openTag ++ p.buf.take j ++ closeTag).map .content ++ (p.closed j 0).said := by
  have hstep : p.step [] =
      (true, p.closed j 0, emitContent [] (openTag ++ p.buf.take j ++ closeTag)) := by
    unfold step
    rw [h]
    simp only [hc, hparse]
    rfl
  rw [said_go hstep, atoms_emitContent, atoms_nil, List.nil_append]

/-- A whole text read from the scan state: it is in what the stream says, but for an opening tag at
its end. -/
theorem said_scanning {p : ToolStreamParser J} (hp : Scanning p schemas) :
    ∃ t, p.buf = t ++ (if endsOpen p.buf then openTag else []) ∧
      Says J schemas p.nCalls t p.said := by
  induction hw : p.buf.length using Nat.strong_induction_on generalizing p with
  | _ w ih =>
    cases ho : findSub p.buf openTag with
    | none =>
      refine ⟨p.buf, by rw [endsOpen_none ho]; simp, ?_⟩
      rw [said_plain hp ho]
      exact says_all _ _
    | some i =>
      obtain ⟨-, hcut⟩ := findSub_take ho
      have hle := findSub_le ho
      have hpos : 0 < openTag.length := by decide
      rw [said_opened hp ho]
      cases hc : findSub (p.opened i).buf closeTag with
      | none =>
        rw [said_unclosed rfl hc]
        by_cases hb : (p.opened i).buf = []
        · -- the tag ends the text: it is lost
          refine ⟨p.buf.take i, ?_, ?_⟩
          · rw [endsOpen_bare ho hb, if_pos rfl]
            have hb : p.buf.drop (i + openTag.length) = [] := hb
            rw [hb, List.append_nil] at hcut
            exact hcut
          · rw [if_pos hb, List.append_nil]
            exact says_all _ _
        · refine ⟨p.buf, by rw [endsOpen_unclosed ho hb hc]; simp, ?_⟩
          have hcut : p.buf.take i ++ (openTag ++ (p.opened i).buf) = p.buf := by
            rw [← List.append_assoc]
            exact hcut.symm
          rw [if_neg hb, ← List.map_append, hcut]
          exact says_all _ _
      | some j =>
        obtain ⟨hend, hblock⟩ := findSub_take hc
        have hlt : ∀ k, ((p.opened i).closed j k).buf.length < w := by
          intro k
          show ((p.buf.drop (i + openTag.length)).drop (j + closeTag.length)).length < w
          simp only [List.length_drop]
          omega
        have hscan : ∀ k, Scanning ((p.opened i).closed j k) schemas :=
          fun k => ⟨rfl, hp.gemma, hp.tools, hp.schemas⟩
        -- what stands behind the block is read in the same way
        have hnext : ∀ k t, ((p.opened i).closed j k).buf =
            t ++ (if endsOpen ((p.opened i).closed j k).buf then openTag else []) →
            p.buf = p.buf.take i ++ (openTag ++ (p.opened i).buf.take j ++ closeTag ++ t) ++
              (if endsOpen p.buf then openTag else []) := by
          intro k t ht
          have hrest : (p.opened i).buf.drop (j + closeTag.length) =
              t ++ (if endsOpen p.buf then openTag else []) := by
            rw [endsOpen_block ho hc]
            exact ht
          calc p.buf
              = p.buf.take i ++ openTag ++ (p.opened i).buf := hcut
            _ = p.buf.take i ++ openTag ++ ((p.opened i).buf.take j ++ closeTag ++
                  (p.opened i).buf.drop (j + closeTag.length)) := by rw [← hblock]
            _ = _ := by
              rw [hrest]
              simp only [List.append_assoc]
        cases hparse : parseBlock J (p.opened i).schemas (p.opened i).nCalls
            ((p.opened i).buf.take j) with
        | some c =>
          obtain ⟨t, ht, hsay⟩ := ih _ (hlt 1) (hscan 1) rfl
          refine ⟨_, hnext 1 t ht, ?_⟩
          rw [said_call rfl hc hparse]
          apply Says.text
          have hparse : parseBlock J p.schemas p.nCalls ((p.opened i).buf.take j) = some c := hparse
          rw [hp.schemas] at hparse
          exact .call hend hparse hsay
        | none =>
          obtain ⟨t, ht, hsay⟩ := ih _ (hlt 0) (hscan 0) rfl
          refine ⟨_, hnext 0 t ht, ?_⟩
          rw [said_malformed rfl hc hparse]
          exact (hsay.text _).text _

/-- The pieces of a tools stream, however it is cut, put its text back together exactly when the text
does not end right behind an opening tag. -/
theorem reassembles_streamPieces (schemas : Schemas) (chunks : List (List Char)) :
    Reassembles J schemas 0 chunks.flatten
        ((new schemas false : ToolStreamParser J).streamPieces chunks) ↔
      endsOpen chunks.flatten = false := by
  have hdrained : Drained (new schemas false : ToolStreamParser J) :=
    drained_start rfl (.inr rfl)
  have hscan : Scanning ((new schemas false : ToolStreamParser J).feed chunks.flatten) schemas :=
    ⟨rfl, rfl, rfl, rfl⟩
  obtain ⟨t, ht, hsay⟩ := said_scanning hscan
  rw [reassembles_iff (streamPieces_full _ _), atoms_streamPieces hdrained]
  have ht : chunks.flatten = t ++ (if endsOpen chunks.flatten then openTag else []) := ht
  have hsay : Says J schemas 0 t ((new schemas false).feed chunks.flatten).said := hsay
  constructor
  · intro h
    have h : Says J schemas 0 chunks.flatten ((new schemas false).feed chunks.flatten).said := h
    by_contra hopen
    rw [Bool.not_eq_false] at hopen
    rw [if_pos hopen] at ht
    generalize ((new schemas false : ToolStreamParser J).feed chunks.flatten).said = S at h hsay
    rw [ht] at h
    exact absurd (hsay.unique h) (by decide)
  · intro h
    rw [h] at ht
    simp only [Bool.false_eq_true, if_false, List.append_nil] at ht
    rw [← ht] at hsay
    exact hsay

/-- A stream of an opening tag alone says nothing. -/
theorem not_reassembles_openTag :
    ¬ ∀ (J : JsonLib) (schemas : Schemas) (chunks : List (List Char)),
      Reassembles J schemas 0 chunks.flatten
        ((new schemas false : ToolStreamParser J).streamPieces chunks) := by
  intro hall
  have h := hall ⟨Unit, fun _ => (), fun _ => none, fun _ => none⟩ (fun _ _ => none) [openTag]
  rw [reassembles_iff (streamPieces_full _ _), atoms_streamPieces (drained_start rfl (.inr rfl)),
    List.flatten_singleton] at h
  generalize hp : (new (fun _ _ => none) false : ToolStreamParser _).feed openTag = p at h
  have hscan : Scanning p (fun _ _ => none) := hp ▸ ⟨rfl, rfl, rfl, rfl⟩
  have hbuf : p.buf = openTag := hp ▸ rfl
  have hfind : findSub p.buf openTag = some 0 := by
    rw [hbuf]
    decide
  have hopened : (p.opened 0).buf = [] := by
    show p.buf.drop (0 + openTag.length) = []
    rw [hbuf]
    decide
  have hsaid : p.said = [] := by
    rw [said_opened hscan hfind, said_unclosed rfl (by rw [hopened]; decide), if_pos hopened]
    simp
  have h : Says _ _ 0 openTag p.said := h
  rw [hsaid] at h
  generalize ht : openTag = t at h
  cases h
  exact absurd ht (by decide)

end ToolStreamParser

end Memra
