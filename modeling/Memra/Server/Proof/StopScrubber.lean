import Memra.Server.StopScrubber

/-!
# The stop scrubber against the blocking cut

`Held`: what a scrubber that has not cut yet has emitted and holds. `push_held`: a push keeps it
until the received text contains a stop string; then the emitted text is that received text cut at
its earliest stop (`pushAll_cut`). Whether this is the cut of the whole text is decided by the
deltas still to come: `streamText_eq_iff`.
-/

namespace Memra

open Lib

/-- Some stop string stands at `i`. -/
def StopAt (stops : List (List Char)) (t : List Char) (i : ℕ) : Prop := ∃ s ∈ stops, OccursAt s t i

theorem earliest_some_iff {stops : List (List Char)} {t : List Char} {i : ℕ} :
    earliest stops t = some i ↔ StopAt stops t i ∧ ∀ j, StopAt stops t j → i ≤ j := by
  rw [earliest_eq_some]
  constructor
  · rintro ⟨h, hmin⟩
    exact ⟨h, fun j ⟨s, hs, hj⟩ => hmin s hs j hj⟩
  · rintro ⟨h, hmin⟩
    exact ⟨h, fun s hs j hj => hmin j ⟨s, hs, hj⟩⟩

theorem earliest_none_iff {stops : List (List Char)} {t : List Char} :
    earliest stops t = none ↔ ∀ i, ¬ StopAt stops t i := by
  rw [earliest_eq_none]
  constructor
  · rintro h i ⟨s, hs, hi⟩
    exact h s hs i hi
  · intro h s hs i hi
    exact h i ⟨s, hs, hi⟩

theorem StopAt.append {stops : List (List Char)} {t : List Char} {i : ℕ} (h : StopAt stops t i)
    (u : List Char) : StopAt stops (t ++ u) i := by
  obtain ⟨s, hs, hi⟩ := h
  exact ⟨s, hs, hi.append u⟩

theorem stopAt_append_left {stops : List (List Char)} {s t : List Char} (i : ℕ) :
    StopAt stops (s ++ t) (s.length + i) ↔ StopAt stops t i := by
  unfold StopAt
  simp only [occursAt_append_left]

namespace StopScrubber

theorem le_keep {stops : List (List Char)} {buf s : List Char} (hs : s ∈ stops) :
    borderLen buf s ≤ keep stops buf := by
  unfold keep partialStopSuffix
  cases hm : (stops.map fun s => borderLen buf s).max? with
  | none =>
    rw [List.max?_eq_none_iff, List.map_eq_nil_iff] at hm
    rw [hm] at hs
    cases hs
  | some m => exact (List.max?_eq_some_iff.1 hm).2 _ (List.mem_map.2 ⟨s, hs, rfl⟩)

/-- A scrubber that has not cut: `out` is emitted, the rest of the received text `r` is held, no
stop string stands in `r`, and none can have begun in the emitted part. -/
structure Held (stops : List (List Char)) (r out : List Char) (st : StopScrubber) : Prop where
  stops_eq : st.stops = stops
  running : st.done = false
  split : out ++ st.buf = r
  clean : ∀ i, ¬ StopAt stops r i
  settled : ∀ s ∈ stops, ∀ j < out.length, ¬ r.drop j <+: s

theorem held_new {stops : List (List Char)} (hne : ∀ s ∈ stops, s ≠ []) :
    Held stops [] [] (new stops) := by
  refine ⟨rfl, rfl, rfl, ?_, fun s _ j hj => absurd hj (Nat.not_lt_zero j)⟩
  rintro i ⟨s, hs, -, hp⟩
  exact hne s hs (List.prefix_nil.1 (by simpa using hp))

/-- A stop string of the received text and a new delta begins in the held part. -/
theorem Held.start_ge {stops : List (List Char)} {r out : List Char} {st : StopScrubber}
    (h : Held stops r out st) {text : List Char} {j : ℕ} (hj : StopAt stops (r ++ text) j) :
    out.length ≤ j := by
  obtain ⟨s, hs, hocc⟩ := hj
  by_contra hlt
  have hr : r.length = out.length + st.buf.length := by rw [← h.split, List.length_append]
  rcases Nat.lt_or_ge r.length (j + s.length) with hlong | hshort
  · exact h.settled s hs j (by omega) (hocc.head (by omega) hlong)
  · exact h.clean j ⟨s, hs, hocc.of_append hshort⟩

/-- The buffer's earliest stop is that of the received text. -/
theorem Held.earliest_buf {stops : List (List Char)} {r out : List Char} {st : StopScrubber}
    (h : Held stops r out st) (text : List Char) :
    earliest stops (r ++ text) = (earliest stops (st.buf ++ text)).map (out.length + ·) := by
  have hat : ∀ i, StopAt stops (r ++ text) (out.length + i) ↔ StopAt stops (st.buf ++ text) i := by
    intro i
    rw [← h.split, List.append_assoc]
    exact stopAt_append_left i
  cases he : earliest stops (st.buf ++ text) with
  | none =>
    apply earliest_none_iff.2
    intro j hj
    have hle := h.start_ge hj
    rw [show j = out.length + (j - out.length) by omega] at hj
    exact earliest_none_iff.1 he _ ((hat _).1 hj)
  | some i =>
    obtain ⟨hi, hmin⟩ := earliest_some_iff.1 he
    apply earliest_some_iff.2
    refine ⟨(hat i).2 hi, fun j hj => ?_⟩
    have hle := h.start_ge hj
    rw [show j = out.length + (j - out.length) by omega] at hj
    have := hmin _ ((hat _).1 hj)
    show out.length + i ≤ j
    omega

/-- A push whose received text has no stop string yet. -/
theorem Held.push {stops : List (List Char)} {r out : List Char} {st : StopScrubber}
    (h : Held stops r out st) {text : List Char} (hnone : earliest stops (r ++ text) = none) :
    Held stops (r ++ text) (out ++ (st.push text).2) (st.push text).1 := by
  have hbuf : earliest stops (st.buf ++ text) = none := by
    rwa [h.earliest_buf text, Option.map_eq_none_iff] at hnone
  have hclean := earliest_none_iff.1 hnone
  have hpush : st.push text =
      ({ st with
          buf := (st.buf ++ text).drop ((st.buf ++ text).length - keep stops (st.buf ++ text)) },
        (st.buf ++ text).take ((st.buf ++ text).length - keep stops (st.buf ++ text))) := by
    unfold StopScrubber.push
    simp only [h.running, Bool.false_eq_true, if_false, h.stops_eq, hbuf]
  have hsplit : out ++ (st.buf ++ text) = r ++ text := by rw [← h.split, List.append_assoc]
  rw [hpush]
  refine ⟨h.stops_eq, h.running, ?_, hclean, ?_⟩
  · rw [List.append_assoc, List.take_append_drop]
    exact hsplit
  · intro s hs j hj hpre
    rw [List.length_append, List.length_take] at hj
    rcases Nat.lt_or_ge j out.length with hlt | hge
    · -- begun in what was emitted before: settled already
      apply h.settled s hs j hlt
      have hr : j ≤ r.length := by rw [← h.split, List.length_append]; omega
      rw [List.drop_append_of_le_length hr] at hpre
      exact (List.prefix_append _ _).trans hpre
    · -- begun in what this push emits: it would be a longer border than the one kept
      have hd : (r ++ text).drop j = (st.buf ++ text).drop (j - out.length) := by
        rw [← hsplit, List.drop_append, List.drop_of_length_le hge, List.nil_append]
      have hlen : ((st.buf ++ text).drop (j - out.length)).length =
          (st.buf ++ text).length - (j - out.length) := List.length_drop
      rw [hd] at hpre
      have hle := hpre.length_le
      rcases Nat.eq_or_lt_of_le hle with heq | hlt
      · refine hclean j ⟨s, hs, ?_, ?_⟩
        · rw [← hsplit, List.length_append]
          omega
        · rw [hd, hpre.eq_of_length heq]
      · have hk := le_borderLen (t := st.buf ++ text) (p := s)
          (k := ((st.buf ++ text).drop (j - out.length)).length) (by omega) hlt
          (by rw [← List.prefix_iff_eq_take.1 hpre]; exact List.drop_suffix _ _)
        have hkeep : borderLen (st.buf ++ text) s ≤ keep stops (st.buf ++ text) := le_keep hs
        omega

/-- A push that completes a stop string: the emitted text is the received text up to the earliest
one. -/
theorem Held.push_cut {stops : List (List Char)} {r out : List Char} {st : StopScrubber}
    (h : Held stops r out st) {text : List Char} {i : ℕ}
    (hsome : earliest stops (r ++ text) = some i) :
    (st.push text).1.done = true ∧ out ++ (st.push text).2 = (r ++ text).take i := by
  rw [h.earliest_buf text, Option.map_eq_some_iff] at hsome
  obtain ⟨k, hk, rfl⟩ := hsome
  have hpush : st.push text = ({ st with buf := [], done := true }, (st.buf ++ text).take k) := by
    unfold StopScrubber.push
    simp only [h.running, Bool.false_eq_true, if_false, h.stops_eq, hk]
  rw [hpush]
  refine ⟨rfl, ?_⟩
  rw [← h.split, List.append_assoc, List.take_length_add_append]

theorem pushAll_of_done {st : StopScrubber} (h : st.done = true) (deltas : List (List Char)) :
    (st.pushAll deltas).2 ++ (st.pushAll deltas).1.finish.2 = [] := by
  induction deltas with
  | nil => simp [pushAll, finish, h]
  | cons text rest ih => simpa [pushAll, push, h] using ih

/-- No delta completes a stop string: everything is emitted. -/
theorem Held.pushAll_all {stops : List (List Char)} {deltas : List (List Char)} :
    ∀ {r out : List Char} {st : StopScrubber}, Held stops r out st →
      earliest stops (r ++ deltas.flatten) = none →
      out ++ ((st.pushAll deltas).2 ++ (st.pushAll deltas).1.finish.2) = r ++ deltas.flatten := by
  induction deltas with
  | nil =>
    intro r out st h _
    simpa [pushAll, finish, h.running] using h.split
  | cons text rest ih =>
    intro r out st h hnone
    rw [List.flatten_cons, ← List.append_assoc] at hnone
    have hpush : earliest stops (r ++ text) = none :=
      earliest_none_iff.2 fun i hi => earliest_none_iff.1 hnone i (hi.append _)
    have := ih (h.push hpush) hnone
    simpa [pushAll, List.append_assoc] using this

/-- The delta `text` completes the first stop string: what is emitted, before, by it and after it,
is the text received by then, cut at its earliest stop. -/
theorem Held.pushAll_cut {stops pre : List (List Char)} (post : List (List Char))
    {text : List Char} {i : ℕ} :
    ∀ {r out : List Char} {st : StopScrubber}, Held stops r out st →
      earliest stops (r ++ pre.flatten) = none →
      earliest stops (r ++ pre.flatten ++ text) = some i →
      out ++ ((st.pushAll (pre ++ text :: post)).2 ++
        (st.pushAll (pre ++ text :: post)).1.finish.2) = (r ++ pre.flatten ++ text).take i := by
  induction pre with
  | nil =>
    intro r out st h _ hsome
    rw [List.flatten_nil, List.append_nil] at hsome ⊢
    obtain ⟨hdone, hout⟩ := h.push_cut hsome
    have hrest := pushAll_of_done hdone post
    simp only [List.nil_append, pushAll, List.append_assoc, hrest, List.append_nil]
    exact hout
  | cons a pre ih =>
    intro r out st h hnone hsome
    rw [List.flatten_cons, ← List.append_assoc] at hnone hsome ⊢
    have hpush : earliest stops (r ++ a) = none :=
      earliest_none_iff.2 fun i hi => earliest_none_iff.1 hnone i (hi.append _)
    have := ih (h.push hpush) hnone hsome
    simpa [pushAll, List.append_assoc] using this

end StopScrubber

/-- Either no stop string stands in the text, or one delta completes the first one. -/
theorem completes_or_not (stops : List (List Char)) :
    ∀ (deltas : List (List Char)) (r : List Char), earliest stops r = none →
      earliest stops (r ++ deltas.flatten) = none ∨
        ∃ pre text post i, deltas = pre ++ text :: post ∧
          earliest stops (r ++ pre.flatten) = none ∧
          earliest stops (r ++ pre.flatten ++ text) = some i
  | [], r, h => .inl (by simpa using h)
  | text :: rest, r, h => by
    cases he : earliest stops (r ++ text) with
    | some i => exact .inr ⟨[], text, rest, i, rfl, by simpa using h, by simpa using he⟩
    | none =>
      rcases completes_or_not stops rest (r ++ text) he with hn | ⟨pre, t, post, i, rfl, h1, h2⟩
      · exact .inl (by simpa [List.append_assoc] using hn)
      · exact .inr ⟨text :: pre, t, post, i, rfl, by simpa [List.append_assoc] using h1,
          by simpa [List.append_assoc] using h2⟩

/-- No stop string that begins before a completed one is completed by a later delta: whenever the
received text contains a stop string, every stop of the whole text has one of the received text at
or before it. -/
def NoneOvertaken (stops deltas : List (List Char)) : Prop :=
  ∀ pre post, deltas = pre ++ post → (∃ i, StopAt stops pre.flatten i) →
    ∀ j, StopAt stops deltas.flatten j → ∃ i ≤ j, StopAt stops pre.flatten i

theorem earliest_nil {stops : List (List Char)} (hne : ∀ s ∈ stops, s ≠ []) :
    earliest stops [] = none :=
  earliest_none_iff.2 (StopScrubber.held_new hne).clean

/-- The streamed text at the delta that completes the first stop string. -/
theorem streamText_cut {stops pre post : List (List Char)} {text : List Char} {i : ℕ}
    (hne : ∀ s ∈ stops, s ≠ []) (hnone : earliest stops pre.flatten = none)
    (hsome : earliest stops (pre.flatten ++ text) = some i) :
    streamText stops (pre ++ text :: post) = (pre.flatten ++ text).take i := by
  have hemp : stops.isEmpty = false := by
    obtain ⟨s, hs, -⟩ := (earliest_some_iff.1 hsome).1
    cases stops with
    | nil => cases hs
    | cons a l => rfl
  have := (StopScrubber.held_new hne).pushAll_cut post hnone hsome
  simpa [streamText, hemp] using this

/-- No stop string in the text: the stream carries all of it. -/
theorem streamText_all {stops deltas : List (List Char)} (hne : ∀ s ∈ stops, s ≠ [])
    (hnone : earliest stops deltas.flatten = none) :
    streamText stops deltas = deltas.flatten := by
  cases stops with
  | nil => simp [streamText]
  | cons s l =>
    have := (StopScrubber.held_new hne).pushAll_all hnone
    simpa [streamText] using this

/-- **The stream and the blocking response carry the same text** exactly when no stop string that
begins before the first completed one is completed by a later delta. -/
theorem streamText_eq_iff {stops : List (List Char)} (hne : ∀ s ∈ stops, s ≠ [])
    (deltas : List (List Char)) :
    streamText stops deltas = blockingText stops deltas ↔ NoneOvertaken stops deltas := by
  rcases completes_or_not stops deltas [] (earliest_nil hne) with
    hnone | ⟨pre, text, post, i, rfl, hnone, hsome⟩
  · have hnone : earliest stops deltas.flatten = none := hnone
    rw [streamText_all hne hnone]
    refine iff_of_true ?_ fun pre post _ _ j hj => ?_
    · simp [blockingText, truncateAtStop, hnone]
    · exact absurd hj (earliest_none_iff.1 hnone j)
  · have hnone : earliest stops pre.flatten = none := hnone
    have hsome : earliest stops (pre.flatten ++ text) = some i := hsome
    obtain ⟨hi, hmin⟩ := earliest_some_iff.1 hsome
    have hflat : (pre ++ text :: post).flatten = pre.flatten ++ text ++ post.flatten := by
      simp [List.append_assoc]
    obtain ⟨k, hk⟩ : ∃ k, earliest stops (pre ++ text :: post).flatten = some k := by
      rw [hflat]
      cases he : earliest stops (pre.flatten ++ text ++ post.flatten) with
      | none => exact absurd (hi.append _) (earliest_none_iff.1 he i)
      | some k => exact ⟨k, rfl⟩
    obtain ⟨hkat, hkmin⟩ := earliest_some_iff.1 hk
    have hki : k ≤ i := hkmin i (by rw [hflat]; exact hi.append _)
    have hilen : i ≤ (pre.flatten ++ text).length := by
      obtain ⟨s, -, hle, -⟩ := hi
      exact hle
    rw [streamText_cut hne hnone hsome]
    have hblock : blockingText stops (pre ++ text :: post) = (pre.flatten ++ text).take k := by
      simp only [blockingText, truncateAtStop, hk]
      rw [hflat, List.take_append_of_le_length (by omega)]
    rw [hblock]
    constructor
    · intro heq pre' post' hsplit hat' j hj
      have hik : i = k := by
        have := congrArg List.length heq
        rw [List.length_take, List.length_take] at this
        omega
      have hlate : ∀ l : List (List Char), pre ≠ pre' ++ l := by
        rintro l rfl
        obtain ⟨i', hi'⟩ := hat'
        apply earliest_none_iff.1 hnone i'
        rw [List.flatten_append]
        exact hi'.append _
      rcases List.append_eq_append_iff.1 hsplit.symm with ⟨l, hl, -⟩ | ⟨l, hl, htail⟩
      · exact absurd hl (hlate l)
      · cases l with
        | nil => exact absurd (by simpa using hl.symm) (hlate [])
        | cons t l =>
          obtain ⟨rfl, -⟩ := List.cons.inj htail
          refine ⟨i, by rw [hik]; exact hkmin j hj, ?_⟩
          rw [hl, List.flatten_append, List.flatten_cons, ← List.append_assoc]
          exact hi.append _
    · intro hover
      have hpt : (pre ++ [text]).flatten = pre.flatten ++ text := by simp
      obtain ⟨i', hle, hi'⟩ := hover (pre ++ [text]) post (by simp) ⟨i, by rwa [hpt]⟩ k hkat
      rw [hpt] at hi'
      have := hmin i' hi'
      rw [show i = k by omega]

/-- Overlapping stop strings whose completions no later delta overtakes. -/
theorem streamText_eq_iff_overlapping :
    (∀ s ∈ [['a', 'b', 'c'], ['b', 'c']], s ≠ []) ∧
      (streamText [['a', 'b', 'c'], ['b', 'c']] [['x', 'a'], ['b'], ['c', 'd']] =
          blockingText [['a', 'b', 'c'], ['b', 'c']] [['x', 'a'], ['b'], ['c', 'd']] ↔
        NoneOvertaken [['a', 'b', 'c'], ['b', 'c']] [['x', 'a'], ['b'], ['c', 'd']]) :=
  ⟨by decide, streamText_eq_iff (by decide) _⟩

/-- **A stop string completed inside a longer, unfinished one**: the stream has sent `ab` when the
longer stop string, which begins at the first character, is completed. -/
theorem streamText_overtaken :
    (∀ s ∈ [['a', 'b', 'c', 'd'], ['c']], s ≠ []) ∧
      streamText [['a', 'b', 'c', 'd'], ['c']] [['a', 'b', 'c'], ['d']] = ['a', 'b'] ∧
      blockingText [['a', 'b', 'c', 'd'], ['c']] [['a', 'b', 'c'], ['d']] = [] := by
  decide

end Memra
