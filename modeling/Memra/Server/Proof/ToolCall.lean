import Memra.Server.ToolCall

/-!
# The tool-call stream does not depend on where it is cut

`atoms`: what the pieces of an output say, a character or a call at a time. A turn of the parser's
loop appends to the output (`step_out`), so that outputs compare by their atoms. `drain_append`: a
parser that has drained its buffer and gets more text goes on as if it had had the whole text from
the start; a chunked stream therefore ends with the parser and the atoms of one push
(`pushAll_drain`). Atoms that agree are pieces that agree once adjacent ones are merged
(`mergePieces_eq`).
-/

namespace Memra

open Lib

variable {J : JsonLib}

/-! ## Pieces and atoms -/

/-- One character of content or of reasoning, or a call. -/
inductive Atom
  | content (c : Char)
  | reasoning (c : Char)
  | call (c : ParsedToolCall)

/-- What a piece says. -/
def Piece.atoms : Piece → List Atom
  | .content text => text.map .content
  | .reasoning text => text.map .reasoning
  | .call c => [.call c]

/-- What an output says. -/
def atoms (out : List Piece) : List Atom := out.flatMap Piece.atoms

/-- A piece with text has some. -/
def Piece.Full : Piece → Prop
  | .content text => text ≠ []
  | .reasoning text => text ≠ []
  | .call _ => True

/-- Content in front of an output, joined with content that stands there. -/
def joinContent (a : List Char) : List Piece → List Piece
  | .content b :: out => .content (a ++ b) :: out
  | out => .content a :: out

/-- Reasoning in front of an output, joined with reasoning that stands there. -/
def joinReasoning (a : List Char) : List Piece → List Piece
  | .reasoning b :: out => .reasoning (a ++ b) :: out
  | out => .reasoning a :: out

/-- Adjacent content pieces and adjacent reasoning pieces are joined. -/
def mergePieces : List Piece → List Piece
  | [] => []
  | .content a :: out => joinContent a (mergePieces out)
  | .reasoning a :: out => joinReasoning a (mergePieces out)
  | .call c :: out => .call c :: mergePieces out

/-- The merged pieces that say `as`. -/
def regroup : List Atom → List Piece
  | [] => []
  | .content c :: as => joinContent [c] (regroup as)
  | .reasoning c :: as => joinReasoning [c] (regroup as)
  | .call c :: as => .call c :: regroup as

theorem joinContent_append (a b : List Char) (out : List Piece) :
    joinContent (a ++ b) out = joinContent a (joinContent b out) := by
  cases out with
  | nil => rfl
  | cons p out => cases p <;> simp [joinContent]

theorem joinReasoning_append (a b : List Char) (out : List Piece) :
    joinReasoning (a ++ b) out = joinReasoning a (joinReasoning b out) := by
  cases out with
  | nil => rfl
  | cons p out => cases p <;> simp [joinReasoning]

theorem regroup_content {a : List Char} (ha : a ≠ []) (as : List Atom) :
    regroup (a.map .content ++ as) = joinContent a (regroup as) := by
  induction a with
  | nil => exact absurd rfl ha
  | cons c a ih =>
    cases a with
    | nil => rfl
    | cons d a =>
      have h : regroup ((c :: d :: a).map .content ++ as) =
          joinContent [c] (regroup ((d :: a).map .content ++ as)) := rfl
      rw [h, ih (by simp), ← joinContent_append]
      rfl

theorem regroup_reasoning {a : List Char} (ha : a ≠ []) (as : List Atom) :
    regroup (a.map .reasoning ++ as) = joinReasoning a (regroup as) := by
  induction a with
  | nil => exact absurd rfl ha
  | cons c a ih =>
    cases a with
    | nil => rfl
    | cons d a =>
      have h : regroup ((c :: d :: a).map .reasoning ++ as) =
          joinReasoning [c] (regroup ((d :: a).map .reasoning ++ as)) := rfl
      rw [h, ih (by simp), ← joinReasoning_append]
      rfl

/-- Merged pieces are what their atoms say. -/
theorem mergePieces_eq {out : List Piece} (h : ∀ p ∈ out, p.Full) :
    mergePieces out = regroup (atoms out) := by
  induction out with
  | nil => rfl
  | cons p out ih =>
    obtain ⟨hp, hout⟩ := List.forall_mem_cons.1 h
    have hcons : atoms (p :: out) = p.atoms ++ atoms out := List.flatMap_cons
    rw [hcons]
    cases p with
    | content a => exact (congrArg (joinContent a) (ih hout)).trans (regroup_content hp _).symm
    | reasoning a =>
      exact (congrArg (joinReasoning a) (ih hout)).trans (regroup_reasoning hp _).symm
    | call c => exact congrArg (Piece.call c :: ·) (ih hout)

@[simp] theorem atoms_nil : atoms [] = [] := rfl

@[simp] theorem atoms_append (a b : List Piece) : atoms (a ++ b) = atoms a ++ atoms b :=
  List.flatMap_append

@[simp] theorem atoms_call (c : ParsedToolCall) : atoms [.call c] = [.call c] := rfl

/-! ## Emission -/

/-- The last piece taken off. -/
theorem getLast?_split {out : List Piece} {p : Piece} (h : out.getLast? = some p) :
    out = out.dropLast ++ [p] := by
  obtain ⟨init, rfl⟩ := List.getLast?_eq_some_iff.1 h
  simp

@[simp] theorem atoms_emitContent (out : List Piece) (text : List Char) :
    atoms (emitContent out text) = atoms out ++ text.map .content := by
  unfold emitContent
  split
  · rename_i h
    simp [h]
  · split
    · rename_i prev h
      conv => rhs; rw [getLast?_split h]
      simp [atoms, Piece.atoms]
    · simp [atoms, Piece.atoms]

theorem full_emitContent {out : List Piece} (h : ∀ p ∈ out, p.Full) (text : List Char) :
    ∀ p ∈ emitContent out text, p.Full := by
  unfold emitContent
  split
  · exact h
  · rename_i hne
    split
    · rename_i prev hlast
      intro p hp
      rcases List.mem_append.1 hp with hp | hp
      · exact h p (List.dropLast_subset _ hp)
      · rw [List.mem_singleton.1 hp]
        simp [Piece.Full, hne]
    · intro p hp
      rcases List.mem_append.1 hp with hp | hp
      · exact h p hp
      · rw [List.mem_singleton.1 hp]
        exact hne

namespace ToolStreamParser

/-- What reasoning text says: nothing when it is not included. -/
def thinkAtoms (p : ToolStreamParser J) (text : List Char) : List Atom :=
  if p.includeReasoning then text.map .reasoning else []

theorem thinkAtoms_append (p : ToolStreamParser J) (a b : List Char) :
    p.thinkAtoms (a ++ b) = p.thinkAtoms a ++ p.thinkAtoms b := by
  unfold thinkAtoms
  split <;> simp

@[simp] theorem atoms_emitReasoning (p : ToolStreamParser J) (out : List Piece)
    (text : List Char) : atoms (p.emitReasoning out text) = atoms out ++ p.thinkAtoms text := by
  unfold emitReasoning thinkAtoms
  cases hinc : p.includeReasoning with
  | false => simp
  | true =>
    by_cases hne : text = []
    · simp [hne]
    · simp only [hne, not_true_eq_false, or_self, if_false, if_true]
      split
      · rename_i prev h
        conv => rhs; rw [getLast?_split h]
        simp [atoms, Piece.atoms]
      · simp [atoms, Piece.atoms]

theorem full_emitReasoning (p : ToolStreamParser J) {out : List Piece} (h : ∀ p ∈ out, p.Full)
    (text : List Char) : ∀ q ∈ p.emitReasoning out text, q.Full := by
  unfold emitReasoning
  split
  · exact h
  · rename_i hne
    rw [not_or] at hne
    split
    · rename_i prev hlast
      intro q hq
      rcases List.mem_append.1 hq with hq | hq
      · exact h q (List.dropLast_subset _ hq)
      · rw [List.mem_singleton.1 hq]
        simp [Piece.Full, hne.2]
    · intro q hq
      rcases List.mem_append.1 hq with hq | hq
      · exact h q hq
      · rw [List.mem_singleton.1 hq]
        exact hne.2

/-- A turn of the loop only appends to what the output says, and takes no other notice of it. -/
theorem step_out (p : ToolStreamParser J) (out : List Piece) :
    (p.step out).1 = (p.step []).1 ∧ (p.step out).2.1 = (p.step []).2.1 ∧
      atoms (p.step out).2.2 = atoms out ++ atoms (p.step []).2.2 := by
  unfold step flush
  cases p.state with
  | prethink => cases findSub p.buf thinkEnd <;> simp
  | postThink =>
    simp only
    split <;> simp
  | scan =>
    simp only
    split
    · cases findSub p.buf gemmaOpen <;> simp
    · split
      · simp
      · cases findSub p.buf openTag <;> simp
  | inCall =>
    cases findSub p.buf closeTag with
    | none => simp
    | some i => cases hb : parseBlock J p.schemas p.nCalls (p.buf.take i) <;> simp [hb]
  | gemmaLabel => cases findSub p.buf ['\n'] <;> simp
  | gemmaThought => cases findSub p.buf gemmaClose <;> simp

theorem step_full (p : ToolStreamParser J) {out : List Piece} (h : ∀ q ∈ out, q.Full) :
    ∀ q ∈ (p.step out).2.2, q.Full := by
  have hr := fun text => full_emitReasoning p h text
  have hc := fun text => full_emitContent h text
  unfold step flush
  cases p.state with
  | prethink => cases findSub p.buf thinkEnd <;> exact hr _
  | postThink =>
    simp only
    split <;> exact h
  | scan =>
    simp only
    split
    · cases findSub p.buf gemmaOpen <;> exact hc _
    · split
      · exact hc _
      · cases findSub p.buf openTag <;> exact hc _
  | inCall =>
    cases findSub p.buf closeTag with
    | none => exact h
    | some i =>
      cases hb : parseBlock J p.schemas p.nCalls (p.buf.take i) with
      | none => simpa only [hb] using hc _
      | some c =>
        simp only [hb]
        intro q hq
        rcases List.mem_append.1 hq with hq | hq
        · exact h q hq
        · rw [List.mem_singleton.1 hq]
          trivial
  | gemmaLabel => cases findSub p.buf ['\n'] <;> exact h
  | gemmaThought => cases findSub p.buf gemmaClose <;> exact hr _

end ToolStreamParser

/-! ## Scanning for a tag -/

/-- Scan a buffer for a tag: the text before it and after it, or, when it has not come yet, the text
that goes out and the `keep` characters held back. -/
def scanTag (tag : List Char) (keep : List Char → ℕ) (buf : List Char) :
    Bool × List Char × List Char :=
  match findSub buf tag with
  | some i => (true, buf.take i, buf.drop (i + tag.length))
  | none => (false, buf.take (buf.length - keep buf), buf.drop (buf.length - keep buf))

/-- What is held back can be given up to more text: the border of the tag is held, and the same is
held of the held part with more text as of the whole buffer with it. -/
structure Keeps (tag : List Char) (keep : List Char → ℕ) : Prop where
  le : ∀ buf, keep buf ≤ buf.length
  border : ∀ buf, borderLen buf tag ≤ keep buf
  held : ∀ e r y, r.length = keep (e ++ r) → keep (e ++ r ++ y) = keep (r ++ y)

theorem scanTag_found {tag : List Char} {keep : List Char → ℕ} {buf e r : List Char}
    (h : scanTag tag keep buf = (true, e, r)) (y : List Char) :
    scanTag tag keep (buf ++ y) = (true, e, r ++ y) := by
  unfold scanTag at h ⊢
  split at h
  · rename_i i hf
    cases h
    have hle := findSub_le hf
    rw [findSub_append_some hf y]
    simp only
    rw [List.take_append_of_le_length (by omega), List.drop_append_of_le_length hle]
  · cases h

theorem scanTag_false {tag : List Char} {keep : List Char → ℕ} (hk : Keeps tag keep)
    {buf e r : List Char} (h : scanTag tag keep buf = (false, e, r)) :
    buf = e ++ r ∧ findSub (e ++ r) tag = none ∧ r.length = keep (e ++ r) := by
  unfold scanTag at h
  split at h
  · cases h
  · rename_i hf
    simp only [Prod.mk.injEq, true_and] at h
    obtain ⟨he, hr⟩ := h
    have hbuf : buf = e ++ r := by rw [← he, ← hr, List.take_append_drop]
    refine ⟨hbuf, hbuf ▸ hf, ?_⟩
    have := hk.le buf
    rw [← hbuf, ← hr, List.length_drop]
    omega

theorem scanTag_held {tag : List Char} {keep : List Char → ℕ} (hk : Keeps tag keep)
    {buf e r : List Char} (h : scanTag tag keep buf = (false, e, r)) (y : List Char) :
    scanTag tag keep (buf ++ y) =
      ((scanTag tag keep (r ++ y)).1, e ++ (scanTag tag keep (r ++ y)).2.1,
        (scanTag tag keep (r ++ y)).2.2) := by
  obtain ⟨rfl, hf, hlen⟩ := scanTag_false hk h
  have hfind := findSub_held hf (hlen ▸ hk.border (e ++ r)) y
  have hheld := hk.held e r y hlen
  unfold scanTag
  rw [hfind]
  cases findSub (r ++ y) tag with
  | some k =>
    simp only [Option.map_some, List.append_assoc]
    rw [List.take_length_add_append, Nat.add_assoc, List.drop_length_add_append]
  | none =>
    have hle := hk.le (r ++ y)
    have hn : (e ++ r ++ y).length - keep (r ++ y) =
        e.length + ((r ++ y).length - keep (r ++ y)) := by
      rw [List.append_assoc, List.length_append]
      omega
    simp only [Option.map_none]
    rw [hheld, hn, List.append_assoc, List.take_length_add_append, List.drop_length_add_append]

theorem keeps_partialSuffixLen (tag : List Char) :
    Keeps tag (fun buf => partialSuffixLen buf tag) where
  le buf := borderLen_le buf tag
  border _ := Nat.le_refl _
  held _ _ y h := borderLen_held (Nat.le_of_eq h.symm) y

/-- The last character of a text and a nonempty end is that of the end. -/
theorem getLast?_append_right {e w : List Char} (h : w ≠ []) : (e ++ w).getLast? = w.getLast? := by
  obtain ⟨init, c, rfl⟩ := (List.eq_nil_or_concat w).resolve_left h
  rw [List.concat_eq_append, ← List.append_assoc]
  simp

theorem thoughtKeep_le (buf : List Char) : ToolStreamParser.thoughtKeep buf ≤ buf.length := by
  have hb : partialSuffixLen buf gemmaClose ≤ buf.length := borderLen_le _ _
  unfold ToolStreamParser.thoughtKeep
  simp only
  split
  · rename_i h
    rcases Nat.lt_or_ge (partialSuffixLen buf gemmaClose) buf.length with hlt | hge
    · exact hlt
    · rw [Nat.sub_eq_zero_of_le hge] at h
      cases h
  · exact hb

theorem le_thoughtKeep (buf : List Char) :
    borderLen buf gemmaClose ≤ ToolStreamParser.thoughtKeep buf := by
  unfold ToolStreamParser.thoughtKeep
  simp only
  split
  · exact Nat.le_succ _
  · exact Nat.le_refl _

/-- A thought that goes out ends in no newline, or a newline is held back behind it. -/
theorem thoughtKeep_newline {e r : List Char}
    (h : r.length = ToolStreamParser.thoughtKeep (e ++ r)) :
    e.getLast? ≠ some '\n' ∨ ∃ w, r = '\n' :: w := by
  unfold ToolStreamParser.thoughtKeep at h
  simp only at h
  split at h
  · rename_i hlast
    right
    -- the held back part is the newline and the border behind it
    have hlen : (e ++ r).length - partialSuffixLen (e ++ r) gemmaClose = e.length + 1 := by
      rw [List.length_append]
      omega
    rw [hlen, List.take_length_add_append] at hlast
    cases r with
    | nil => cases h
    | cons c w =>
      refine ⟨w, ?_⟩
      simp at hlast
      rw [hlast]
  · rename_i hlast
    left
    have hlen : (e ++ r).length - partialSuffixLen (e ++ r) gemmaClose = e.length := by
      rw [List.length_append]
      omega
    rw [hlen, List.take_left] at hlast
    exact hlast

/-- A newline is not in the closing tag, so that it is not in a border. -/
theorem border_ne_newline (w y : List Char) :
    borderLen ('\n' :: w ++ y) gemmaClose < ('\n' :: w ++ y).length := by
  have hle := borderLen_le ('\n' :: w ++ y) gemmaClose
  refine lt_of_le_of_ne hle fun heq => ?_
  have hsuf := borderLen_suffix ('\n' :: w ++ y) gemmaClose
  have hlt : borderLen ('\n' :: w ++ y) gemmaClose ≤ gemmaClose.length := by
    rcases borderLen_lt_or ('\n' :: w ++ y) gemmaClose with h | h <;> omega
  have hall := hsuf.eq_of_length (by rw [List.length_take, Nat.min_eq_left hlt, heq])
  have hmem : '\n' ∈ gemmaClose := by
    apply List.mem_of_mem_take (i := borderLen ('\n' :: w ++ y) gemmaClose)
    rw [hall]
    simp
  exact absurd hmem (by decide)

theorem keeps_thoughtKeep : Keeps gemmaClose ToolStreamParser.thoughtKeep where
  le := thoughtKeep_le
  border := le_thoughtKeep
  held e r y h := by
    have hb : borderLen (e ++ r ++ y) gemmaClose = borderLen (r ++ y) gemmaClose :=
      borderLen_held (h ▸ le_thoughtKeep (e ++ r)) y
    have hle := borderLen_le (r ++ y) gemmaClose
    unfold ToolStreamParser.thoughtKeep partialSuffixLen
    have htake : (e ++ r ++ y).take ((e ++ r ++ y).length - borderLen (r ++ y) gemmaClose) =
        e ++ (r ++ y).take ((r ++ y).length - borderLen (r ++ y) gemmaClose) := by
      rw [List.append_assoc, List.length_append, Nat.add_sub_assoc hle,
        List.take_length_add_append]
    simp only [hb, htake]
    by_cases hw : (r ++ y).take ((r ++ y).length - borderLen (r ++ y) gemmaClose) = []
    · -- nothing but a border is left: no newline is held back, and none ends what went out
      rw [hw, List.append_nil]
      rcases thoughtKeep_newline h with hne | ⟨w, rfl⟩
      · simp [hne]
      · exfalso
        have hlt := border_ne_newline w y
        rw [List.take_eq_nil_iff] at hw
        rcases hw with hw | hw
        · omega
        · cases hw
    · rw [getLast?_append_right hw]

theorem swallowNl_append (y : List Char) : ∀ (nl : ℕ) (buf : List Char),
    swallowNl nl (buf ++ y) =
      if (swallowNl nl buf).2 = [] then swallowNl (swallowNl nl buf).1 y
      else ((swallowNl nl buf).1, (swallowNl nl buf).2 ++ y)
  | 0, [] => rfl
  | 0, _ :: _ => rfl
  | _ + 1, [] => rfl
  | nl + 1, c :: buf => by
    by_cases hc : c = '\n'
    · subst hc
      exact swallowNl_append y nl buf
    · have hstop : ∀ t, swallowNl (nl + 1) (c :: t) = (nl + 1, c :: t) := by
        intro t
        unfold swallowNl
        split
        · rename_i h
          exact absurd (List.cons.inj h).1 hc
        · rfl
      rw [List.cons_append, hstop, hstop]
      simp

/-! ## Turns of the loop by state -/

namespace ToolStreamParser

theorem step_prethink {p : ToolStreamParser J} (h : p.state = .prethink) (out : List Piece) :
    p.step out =
      let s := scanTag thinkEnd (fun buf => partialSuffixLen buf thinkEnd) p.buf
      (s.1, (if s.1 then { p with buf := s.2.2, state := .postThink, postthinkNl := 2 }
        else { p with buf := s.2.2 }), p.emitReasoning out s.2.1) := by
  unfold step scanTag
  rw [h]
  cases findSub p.buf thinkEnd <;> simp

theorem step_scanGemma {p : ToolStreamParser J} (h : p.state = .scan) (hg : p.gemma = true)
    (out : List Piece) :
    p.step out =
      let s := scanTag gemmaOpen (fun buf => partialSuffixLen buf gemmaOpen) p.buf
      (s.1, { p with buf := s.2.2, state := if s.1 then .gemmaLabel else .scan },
        emitContent out s.2.1) := by
  unfold step scanTag flush
  rw [h]
  cases findSub p.buf gemmaOpen <;> simp [hg]

theorem step_scanTools {p : ToolStreamParser J} (h : p.state = .scan) (hg : p.gemma = false)
    (ht : p.scanTools = true) (out : List Piece) :
    p.step out =
      let s := scanTag openTag (fun buf => partialSuffixLen buf openTag) p.buf
      (s.1, { p with buf := s.2.2, state := if s.1 then .inCall else .scan },
        emitContent out s.2.1) := by
  unfold step scanTag flush
  rw [h]
  cases findSub p.buf openTag <;> simp [hg, ht]

theorem step_gemmaThought {p : ToolStreamParser J} (h : p.state = .gemmaThought)
    (out : List Piece) :
    p.step out =
      let s := scanTag gemmaClose thoughtKeep p.buf
      (s.1, { p with buf := s.2.2, state := if s.1 then .scan else .gemmaThought },
        p.emitReasoning out (if s.1 then stripNlSuffix s.2.1 else s.2.1)) := by
  unfold step scanTag
  rw [h]
  cases findSub p.buf gemmaClose <;> simp

/-! ## More text -/

/-- More text at the end of the buffer. -/
def feed (p : ToolStreamParser J) (y : List Char) : ToolStreamParser J :=
  { p with buf := p.buf ++ y }

/-- A thought that is closed after its text went out loses the same newline as the whole. -/
theorem scanTag_thought {buf e r : List Char}
    (h : scanTag gemmaClose thoughtKeep buf = (false, e, r)) (y : List Char) :
    (scanTag gemmaClose thoughtKeep (r ++ y)).1 = true →
      stripNlSuffix (e ++ (scanTag gemmaClose thoughtKeep (r ++ y)).2.1) =
        e ++ stripNlSuffix (scanTag gemmaClose thoughtKeep (r ++ y)).2.1 := by
  intro hfound
  obtain ⟨rfl, -, hlen⟩ := scanTag_false keeps_thoughtKeep h
  apply stripNlSuffix_append
  apply (thoughtKeep_newline hlen).imp_right
  rintro ⟨w, rfl⟩
  -- the newline held back stands before the tag
  unfold scanTag at hfound ⊢
  cases hf : findSub ('\n' :: w ++ y) gemmaClose with
  | none =>
    rw [hf] at hfound
    cases hfound
  | some i =>
    cases i with
    | zero =>
      obtain ⟨-, t, ht⟩ := (findSub_eq_some.1 hf).1
      cases ht
    | succ i => exact List.cons_ne_nil _ _

/-- A turn after which the loop goes on is the same with more text. -/
theorem step_feed_go {p q : ToolStreamParser J} {out : List Piece}
    (h : p.step [] = (true, q, out)) (y : List Char) :
    (p.feed y).step [] = (true, q.feed y, out) := by
  cases hst : p.state with
  | prethink =>
    rw [step_prethink hst] at h
    rw [step_prethink (p := p.feed y) hst]
    cases hs : scanTag thinkEnd (fun buf => partialSuffixLen buf thinkEnd) p.buf with
    | mk f er =>
      rw [hs] at h
      cases h
      rw [feed, scanTag_found hs]
      rfl
  | postThink =>
    unfold step at h ⊢
    rw [hst] at h
    simp only [feed, hst] at h ⊢
    rw [swallowNl_append]
    split at h
    · cases h
    · rename_i hstop
      cases h
      by_cases hb : (swallowNl p.postthinkNl p.buf).2 = []
      · have hnl : (swallowNl p.postthinkNl p.buf).1 = 0 :=
          Nat.eq_zero_of_not_pos fun h0 => hstop ⟨h0, hb⟩
        have hzero : swallowNl 0 y = (0, y) := by unfold swallowNl; rfl
        simp [hb, hnl, hzero]
      · simp [hb]
  | scan =>
    cases hg : p.gemma with
    | true =>
      rw [step_scanGemma hst hg] at h
      rw [step_scanGemma (p := p.feed y) hst hg]
      cases hs : scanTag gemmaOpen (fun buf => partialSuffixLen buf gemmaOpen) p.buf with
      | mk f er =>
        rw [hs] at h
        cases h
        rw [feed, scanTag_found hs]
        rfl
    | false =>
      cases ht : p.scanTools with
      | true =>
        rw [step_scanTools hst hg ht] at h
        rw [step_scanTools (p := p.feed y) hst hg ht]
        cases hs : scanTag openTag (fun buf => partialSuffixLen buf openTag) p.buf with
        | mk f er =>
          rw [hs] at h
          cases h
          rw [feed, scanTag_found hs]
          rfl
      | false =>
        unfold step flush at h
        simp [hst, hg, ht] at h
  | inCall =>
    unfold step at h ⊢
    simp only [feed, hst] at h ⊢
    cases hf : findSub p.buf closeTag with
    | none =>
      rw [hf] at h
      cases h
    | some i =>
      have hle := findSub_le hf
      rw [hf] at h
      rw [findSub_append_some hf y]
      simp only at h ⊢
      rw [List.take_append_of_le_length (by omega), List.drop_append_of_le_length hle]
      cases hb : parseBlock J p.schemas p.nCalls (p.buf.take i) with
      | none =>
        rw [hb] at h
        cases h
        rfl
      | some c =>
        rw [hb] at h
        cases h
        rfl
  | gemmaLabel =>
    unfold step at h ⊢
    simp only [feed, hst] at h ⊢
    cases hf : findSub p.buf ['\n'] with
    | none =>
      rw [hf] at h
      cases h
    | some i =>
      have hle : i + 1 ≤ p.buf.length := findSub_le hf
      rw [hf] at h
      rw [findSub_append_some hf y]
      cases h
      simp only
      rw [List.drop_append_of_le_length hle]
  | gemmaThought =>
    rw [step_gemmaThought hst] at h
    rw [step_gemmaThought (p := p.feed y) hst]
    cases hs : scanTag gemmaClose thoughtKeep p.buf with
    | mk f er =>
      rw [hs] at h
      cases h
      rw [feed, scanTag_found hs]
      rfl

/-- After a turn that ends the loop, more text is treated like the whole: the held back part and
the new text do what the whole buffer and the new text do. -/
theorem step_feed_stop {p q : ToolStreamParser J} {out : List Piece}
    (h : p.step [] = (false, q, out)) (y : List Char) :
    ((p.feed y).step []).1 = ((q.feed y).step []).1 ∧
      ((p.feed y).step []).2.1 = ((q.feed y).step []).2.1 ∧
      atoms ((p.feed y).step []).2.2 = atoms out ++ atoms ((q.feed y).step []).2.2 := by
  cases hst : p.state with
  | prethink =>
    rw [step_prethink hst] at h
    cases hs : scanTag thinkEnd (fun buf => partialSuffixLen buf thinkEnd) p.buf with
    | mk f er =>
      rw [hs] at h
      have hq : q.state = .prethink := by cases h; exact hst
      rw [step_prethink (p := p.feed y) hst, step_prethink (p := q.feed y) hq]
      cases h
      rw [feed, scanTag_held (keeps_partialSuffixLen _) hs]
      refine ⟨rfl, rfl, ?_⟩
      simp only [atoms_emitReasoning, atoms_nil, List.nil_append]
      exact thinkAtoms_append p _ _
  | postThink =>
    unfold step at h ⊢
    rw [hst] at h
    simp only [feed, hst] at h ⊢
    rw [swallowNl_append]
    split at h
    · rename_i hstop
      cases h
      simp [hstop.2]
    · cases h
  | scan =>
    cases hg : p.gemma with
    | true =>
      rw [step_scanGemma hst hg] at h
      cases hs : scanTag gemmaOpen (fun buf => partialSuffixLen buf gemmaOpen) p.buf with
      | mk f er =>
        rw [hs] at h
        have hq : q.state = .scan ∧ q.gemma = true := by cases h; exact ⟨rfl, hg⟩
        rw [step_scanGemma (p := p.feed y) hst hg, step_scanGemma (p := q.feed y) hq.1 hq.2]
        cases h
        rw [feed, scanTag_held (keeps_partialSuffixLen _) hs]
        exact ⟨rfl, rfl, by simp [feed]⟩
    | false =>
      cases ht : p.scanTools with
      | true =>
        rw [step_scanTools hst hg ht] at h
        cases hs : scanTag openTag (fun buf => partialSuffixLen buf openTag) p.buf with
        | mk f er =>
          rw [hs] at h
          have hq : q.state = .scan ∧ q.gemma = false ∧ q.scanTools = true := by
            cases h
            exact ⟨rfl, hg, ht⟩
          rw [step_scanTools (p := p.feed y) hst hg ht,
            step_scanTools (p := q.feed y) hq.1 hq.2.1 hq.2.2]
          cases h
          rw [feed, scanTag_held (keeps_partialSuffixLen _) hs]
          exact ⟨rfl, rfl, by simp [feed]⟩
      | false =>
        have hall : ∀ (r : ToolStreamParser J) (o : List Piece), r.state = .scan →
            r.gemma = false → r.scanTools = false →
            r.step o = (false, { r with buf := [] }, emitContent o r.buf) := by
          intro r o h1 h2 h3
          unfold step flush
          simp [h1, h2, h3]
        rw [hall p [] hst hg ht] at h
        have hq : q.state = .scan ∧ q.gemma = false ∧ q.scanTools = false := by
          cases h
          exact ⟨hst, hg, ht⟩
        rw [hall (p.feed y) [] hst hg ht, hall (q.feed y) [] hq.1 hq.2.1 hq.2.2]
        cases h
        exact ⟨rfl, rfl, by simp [feed]⟩
  | inCall =>
    unfold step at h
    simp only [hst] at h
    cases hf : findSub p.buf closeTag with
    | none =>
      rw [hf] at h
      cases h
      exact ⟨rfl, rfl, rfl⟩
    | some i =>
      rw [hf] at h
      cases hb : parseBlock J p.schemas p.nCalls (p.buf.take i) <;> simp [hb] at h
  | gemmaLabel =>
    unfold step at h
    simp only [hst] at h
    cases hf : findSub p.buf ['\n'] with
    | none =>
      rw [hf] at h
      cases h
      exact ⟨rfl, rfl, rfl⟩
    | some i =>
      rw [hf] at h
      cases h
  | gemmaThought =>
    rw [step_gemmaThought hst] at h
    cases hs : scanTag gemmaClose thoughtKeep p.buf with
    | mk f er =>
      obtain ⟨e, r⟩ := er
      rw [hs] at h
      have hq : q.state = .gemmaThought := by cases h; rfl
      rw [step_gemmaThought (p := p.feed y) hst, step_gemmaThought (p := q.feed y) hq]
      cases h
      have hstrip := scanTag_thought hs y
      rw [feed, scanTag_held keeps_thoughtKeep hs]
      refine ⟨rfl, rfl, ?_⟩
      simp only [atoms_emitReasoning, atoms_nil, List.nil_append, feed]
      by_cases hf : (scanTag gemmaClose thoughtKeep (r ++ y)).1 = true
      · simp only [hf, if_true, hstrip hf]
        exact thinkAtoms_append p _ _
      · simp only [hf]
        exact thinkAtoms_append p _ _

/-! ## The loop -/

theorem drain_go {p q : ToolStreamParser J} {out out' : List Piece}
    (h : p.step out = (true, q, out')) : p.drain out = q.drain out' := by
  rw [drain]
  split
  · rename_i h'
    rw [h] at h'
    cases h'
    rfl
  · rename_i h'
    rw [h] at h'
    cases h'

theorem drain_stop {p q : ToolStreamParser J} {out out' : List Piece}
    (h : p.step out = (false, q, out')) : p.drain out = (q, out') := by
  rw [drain]
  split
  · rename_i h'
    rw [h] at h'
    cases h'
  · rename_i h'
    rw [h] at h'
    cases h'
    rfl

/-- The loop only appends to what the output says, and takes no other notice of it. -/
theorem drain_out (p : ToolStreamParser J) (out : List Piece) :
    (p.drain out).1 = (p.drain []).1 ∧ atoms (p.drain out).2 = atoms out ++ atoms (p.drain []).2 := by
  induction hw : p.weight using Nat.strong_induction_on generalizing p out with
  | _ w ih =>
    obtain ⟨hgo, hq, ho⟩ := step_out p out
    cases hs : p.step [] with
    | mk go qo =>
      obtain ⟨q, o⟩ := qo
      cases hs' : p.step out with
      | mk go' qo' =>
        obtain ⟨q', o'⟩ := qo'
        rw [hs, hs'] at hgo hq ho
        simp only at hgo hq ho
        subst hgo hq
        cases go' with
        | true =>
          rw [drain_go hs, drain_go hs']
          have hlt := hw ▸ step_weight hs
          obtain ⟨h1, h2⟩ := ih _ hlt q' o' rfl
          obtain ⟨h3, h4⟩ := ih _ hlt q' o rfl
          exact ⟨h1.trans h3.symm, by rw [h2, h4, ho, List.append_assoc]⟩
        | false =>
          rw [drain_stop hs, drain_stop hs']
          exact ⟨rfl, ho⟩

theorem drain_full (p : ToolStreamParser J) {out : List Piece} (h : ∀ q ∈ out, q.Full) :
    ∀ q ∈ (p.drain out).2, q.Full := by
  induction hw : p.weight using Nat.strong_induction_on generalizing p out with
  | _ w ih =>
    have hfull := step_full p h
    cases hs : p.step out with
    | mk go qo =>
      rw [hs] at hfull
      cases go with
      | true =>
        rw [drain_go hs]
        exact ih _ (hw ▸ step_weight hs) _ hfull rfl
      | false =>
        rw [drain_stop hs]
        exact hfull

/-- Draining the buffer and then more text is draining both. -/
theorem drain_append (p : ToolStreamParser J) (y : List Char) :
    ((p.feed y).drain []).1 = (((p.drain []).1.feed y).drain []).1 ∧
      atoms ((p.feed y).drain []).2 =
        atoms (p.drain []).2 ++ atoms (((p.drain []).1.feed y).drain []).2 := by
  induction hw : p.weight using Nat.strong_induction_on generalizing p with
  | _ w ih =>
    cases hs : p.step [] with
    | mk go qo =>
      obtain ⟨q, o⟩ := qo
      cases go with
      | true =>
        rw [drain_go hs, drain_go (step_feed_go hs y)]
        obtain ⟨h1, h2⟩ := ih _ (hw ▸ step_weight hs) q rfl
        obtain ⟨h3, h4⟩ := drain_out q o
        obtain ⟨h5, h6⟩ := drain_out (q.feed y) o
        rw [h3]
        exact ⟨h5.trans h1, by rw [h6, h2, h4, List.append_assoc]⟩
      | false =>
        rw [drain_stop hs]
        obtain ⟨hgo, hr, ho⟩ := step_feed_stop hs y
        cases hp : (p.feed y).step [] with
        | mk go ro =>
          obtain ⟨r, u⟩ := ro
          cases hq : (q.feed y).step [] with
          | mk go' ro' =>
            obtain ⟨r', u'⟩ := ro'
            rw [hp, hq] at hgo hr ho
            simp only at hgo hr ho
            subst hgo hr
            cases go with
            | true =>
              rw [drain_go hp, drain_go hq]
              obtain ⟨h1, h2⟩ := drain_out r u
              obtain ⟨h3, h4⟩ := drain_out r u'
              exact ⟨h1.trans h3.symm, by rw [h2, h4, ho, List.append_assoc]⟩
            | false =>
              rw [drain_stop hp, drain_stop hq]
              exact ⟨rfl, ho⟩

/-! ## Whole streams -/

/-- Nothing in the buffer can go out before more text comes. -/
def Drained (p : ToolStreamParser J) : Prop :=
  (p.drain []).1 = p ∧ atoms (p.drain []).2 = []

theorem feed_nil (p : ToolStreamParser J) : p.feed [] = p := by simp [feed]

theorem feed_feed (p : ToolStreamParser J) (x y : List Char) :
    (p.feed x).feed y = p.feed (x ++ y) := by simp [feed]

theorem drained_drain (p : ToolStreamParser J) : Drained (p.drain []).1 := by
  obtain ⟨h1, h2⟩ := drain_append p []
  rw [feed_nil, feed_nil] at h1 h2
  exact ⟨h1.symm, List.self_eq_append_right.1 h2⟩

/-- A chunked text leaves the parser that the whole text leaves, and has said the same. -/
theorem pushAll_drain {p : ToolStreamParser J} (hp : Drained p) (chunks : List (List Char)) :
    (p.pushAll chunks).1 = ((p.feed chunks.flatten).drain []).1 ∧
      atoms (p.pushAll chunks).2 = atoms ((p.feed chunks.flatten).drain []).2 := by
  induction chunks generalizing p with
  | nil =>
    rw [List.flatten_nil, feed_nil, hp.1, hp.2]
    exact ⟨rfl, rfl⟩
  | cons x chunks ih =>
    obtain ⟨h1, h2⟩ := ih (drained_drain (p.feed x))
    obtain ⟨h3, h4⟩ := drain_append (p.feed x) chunks.flatten
    rw [feed_feed] at h3 h4
    have hatoms : atoms (p.pushAll (x :: chunks)).2 =
        atoms ((p.feed x).drain []).2 ++ atoms (((p.feed x).drain []).1.pushAll chunks).2 :=
      atoms_append _ _
    rw [List.flatten_cons, hatoms, h4, h2]
    exact ⟨h1.trans h3.symm, rfl⟩

theorem pushAll_full (p : ToolStreamParser J) (chunks : List (List Char)) :
    ∀ q ∈ (p.pushAll chunks).2, q.Full := by
  induction chunks generalizing p with
  | nil => exact fun q hq => absurd hq List.not_mem_nil
  | cons x chunks ih =>
    intro q hq
    rcases List.mem_append.1 hq with hq | hq
    · exact drain_full _ (fun _ h => absurd h List.not_mem_nil) q hq
    · exact ih _ q hq

theorem finish_full (p : ToolStreamParser J) : ∀ q ∈ p.finish.2, q.Full := by
  have hnil : ∀ q ∈ ([] : List Piece), q.Full := fun _ h => absurd h List.not_mem_nil
  unfold finish
  split
  · exact hnil
  · split
    · exact full_emitReasoning p hnil p.buf
    · exact full_emitContent hnil (openTag ++ p.buf)
    · exact full_emitReasoning p hnil (stripNlSuffix p.buf)
    · exact hnil
    · exact full_emitContent hnil p.buf

theorem streamPieces_full (p : ToolStreamParser J) (chunks : List (List Char)) :
    ∀ q ∈ p.streamPieces chunks, q.Full := by
  intro q hq
  rcases List.mem_append.1 hq with hq | hq
  · exact pushAll_full p chunks q hq
  · exact finish_full _ q hq

/-- What a finished stream says is decided by its text. -/
theorem atoms_streamPieces {p : ToolStreamParser J} (hp : Drained p) (chunks : List (List Char)) :
    atoms (p.streamPieces chunks) =
      atoms ((p.feed chunks.flatten).drain []).2 ++
        atoms ((p.feed chunks.flatten).drain []).1.finish.2 := by
  obtain ⟨h1, h2⟩ := pushAll_drain hp chunks
  have h : atoms (p.streamPieces chunks) =
      atoms (p.pushAll chunks).2 ++ atoms (p.pushAll chunks).1.finish.2 := atoms_append _ _
  rw [h, h1, h2]

theorem mergePieces_streamPieces {p : ToolStreamParser J} (hp : Drained p)
    (chunks : List (List Char)) :
    mergePieces (p.streamPieces chunks) = mergePieces (p.streamPieces [chunks.flatten]) := by
  rw [mergePieces_eq (streamPieces_full p _), mergePieces_eq (streamPieces_full p _),
    atoms_streamPieces hp, atoms_streamPieces hp, List.flatten_singleton]

/-- A parser that waits for a tag and has no text yet. -/
theorem drained_start {p : ToolStreamParser J} (hbuf : p.buf = [])
    (hst : p.state = .prethink ∨ p.state = .scan) : Drained p := by
  have hstep : p.step [] = (false, p, []) := by
    rcases p with ⟨st, buf, schemas, nCalls, scanTools, gemma, inc, nl⟩
    simp only at hbuf hst
    subst hbuf
    have hnone : ∀ tag ∈ [thinkEnd, gemmaOpen, openTag], findSub [] tag = none := by decide
    obtain ⟨h1, h2, h3⟩ : findSub [] thinkEnd = none ∧ findSub [] gemmaOpen = none ∧
        findSub [] openTag = none := ⟨hnone _ (by simp), hnone _ (by simp), hnone _ (by simp)⟩
    rcases hst with rfl | rfl
    · simp [step, h1, emitReasoning]
    · cases gemma <;> cases scanTools <;> simp [step, h2, h3, flush, emitContent]
  unfold Drained
  rw [drain_stop hstep]
  exact ⟨rfl, rfl⟩

/-- However a text is cut into chunks, a parser of any mode reads the same pieces from it. -/
theorem streamPieces_cut (schemas : Schemas) (skipThink inc : Bool) (chunks : List (List Char)) :
    let tools : ToolStreamParser J := (new schemas skipThink).withIncludeReasoning inc
    let reasoning : ToolStreamParser J := reasoningOnly inc
    let gemma : ToolStreamParser J := gemmaThought inc
    mergePieces (tools.streamPieces chunks) = mergePieces (tools.streamPieces [chunks.flatten]) ∧
      mergePieces (reasoning.streamPieces chunks) =
        mergePieces (reasoning.streamPieces [chunks.flatten]) ∧
      mergePieces (gemma.streamPieces chunks) =
        mergePieces (gemma.streamPieces [chunks.flatten]) := by
  refine ⟨mergePieces_streamPieces (drained_start rfl ?_) _,
    mergePieces_streamPieces (drained_start rfl (.inl rfl)) _,
    mergePieces_streamPieces (drained_start rfl (.inr rfl)) _⟩
  cases skipThink
  · exact .inr rfl
  · exact .inl rfl

end ToolStreamParser

end Memra
