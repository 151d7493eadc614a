import Memra.Server.Emission

/-!
# Round by round and per burst, the same text

`Resumes`: what was sent, and what the cursor still finds in the tokens so far and any bytes after
them, is what a single `utf8_delta` finds from the old cursor. A send keeps it (`Resumes.send_eq`)
because decoding can stop and go on (`utf8Delta_twice`), so that the rounds keep it wherever they
are cut (`flush_rounds`). The tail then sends the rest: `emitBurst_text` gives the text of either path
in terms of the burst alone.
-/

namespace Memra

open Lib

/-! ## `utf8_delta` -/

theorem utf8Loop_eq_scan (x : List UInt8) : utf8Loop x = utf8Scan x := by
  induction hl : x.length using Nat.strongRecOn generalizing x with
  | ind l ih =>
    rw [utf8Loop]
    split
    · rename_i hx
      rw [hx]
      exact utf8Scan_nil.symm
    · split
      · rename_i h
        exact (utf8Scan_valid h).symm
      · rename_i h
        exact (utf8Scan_cut h).symm
      · rename_i v n h
        obtain ⟨hn, hle, hscan⟩ := utf8Scan_replaced h
        rw [hscan, ih _ (by rw [List.length_drop]; omega) (x.drop (v + n)) rfl]

theorem utf8Scan_le (x : List UInt8) : (utf8Scan x).2 ≤ x.length := by
  induction hl : x.length using Nat.strongRecOn generalizing x with
  | ind l ih =>
    cases hh : utf8Head x with
    | incomplete =>
      rw [utf8Scan_incomplete hh]
      exact Nat.zero_le _
    | char n =>
      obtain ⟨hpos, hle⟩ := utf8Head_char hh
      have hlen : (x.drop n).length = x.length - n := List.length_drop
      have h := ih _ (by omega) (x.drop n) rfl
      rw [utf8Scan_char hh]
      simp only
      omega
    | invalid n =>
      obtain ⟨hpos, hle⟩ := utf8Head_invalid hh
      have hlen : (x.drop n).length = x.length - n := List.length_drop
      have h := ih _ (by omega) (x.drop n) rfl
      rw [utf8Scan_invalid hh]
      simp only
      omega

theorem utf8Delta_eq {x : List UInt8} {cursor : ℕ} (h : cursor ≤ x.length) :
    utf8Delta x cursor =
      ((utf8Scan (x.drop cursor)).1, cursor + (utf8Scan (x.drop cursor)).2) := by
  unfold utf8Delta
  rw [if_neg (by omega), utf8Loop_eq_scan]

/-- The delta of more bytes is the delta of the first ones and the delta from where that stopped. -/
theorem utf8Delta_twice (x y : List UInt8) (cursor : ℕ) :
    utf8Delta (x ++ y) cursor =
      ((utf8Delta x cursor).1 ++ (utf8Delta (x ++ y) (utf8Delta x cursor).2).1,
        (utf8Delta (x ++ y) (utf8Delta x cursor).2).2) := by
  rcases Nat.lt_or_ge x.length cursor with hlt | hle
  · have h : utf8Delta x cursor = ([], cursor) := if_pos hlt
    rw [h, List.nil_append]
  · have hscan := utf8Scan_le (x.drop cursor)
    rw [List.length_drop] at hscan
    have hlen : (x ++ y).length = x.length + y.length := List.length_append
    have h1 : utf8Delta x cursor =
        ((utf8Scan (x.drop cursor)).1, cursor + (utf8Scan (x.drop cursor)).2) := utf8Delta_eq hle
    rw [h1, utf8Delta_eq (x := x ++ y) (by omega), utf8Delta_eq (x := x ++ y) (by simp only; omega),
      List.drop_append_of_le_length hle, utf8Scan_append, List.drop_drop]
    simp only
    rw [List.drop_append_of_le_length (by omega), Nat.add_assoc]

/-- A delta leaves nothing for its own cursor. -/
theorem utf8Delta_done (x : List UInt8) (cursor : ℕ) :
    utf8Delta x (utf8Delta x cursor).2 = ([], (utf8Delta x cursor).2) := by
  have h := utf8Delta_twice x [] cursor
  rw [List.append_nil] at h
  have h1 := congrArg Prod.fst h
  have h2 := congrArg Prod.snd h
  exact Prod.ext (List.self_eq_append_right.1 h1) h2.symm

/-! ## Sends -/

/-- The text sent so far. -/
def Flush.text (f : Flush) : List UInt8 := f.events.flatMap (·.text)

/-- What was sent and what the cursor finds from here on is what the old cursor finds. -/
def Flush.Resumes (c : EmitCtx) (start : ℕ) (f : Flush) : Prop :=
  ∀ y, utf8Delta (c.decode f.vis ++ y) start =
    (f.text ++ (utf8Delta (c.decode f.vis ++ y) f.cursor).1,
      (utf8Delta (c.decode f.vis ++ y) f.cursor).2)

theorem send_vis (c : EmitCtx) (f : Flush) (ids : List ℕ) (id : ℕ) :
    (f.send c ids id).vis = f.vis ∧ (f.send c ids id).eosSeen = f.eosSeen := by
  unfold Flush.send
  simp only
  split
  · exact ⟨rfl, rfl⟩
  · split <;> exact ⟨rfl, rfl⟩

/-- A send that finds a receiver adds the new text and moves the cursor behind it. -/
theorem send_text {c : EmitCtx} {f : Flush} {ids : List ℕ} {id : ℕ}
    (hok : (f.send c ids id).sendOk = true) :
    (f.send c ids id).text = f.text ++ (utf8Delta (c.decode ids) f.cursor).1 ∧
      (f.send c ids id).cursor = (utf8Delta (c.decode ids) f.cursor).2 := by
  unfold Flush.send at hok ⊢
  simp only at hok ⊢
  split
  · rename_i hnil
    exact ⟨by rw [hnil, List.append_nil]; rfl, rfl⟩
  · split
    · exact ⟨by simp [Flush.text], rfl⟩
    · rename_i hne hsend
      rw [if_neg hne, if_neg hsend] at hok
      cases hok

/-- More visible tokens are more bytes. -/
theorem decode_append (c : EmitCtx) (a b : List ℕ) : c.decode (a ++ b) = c.decode a ++ c.decode b :=
  List.flatMap_append

/-- What a send leaves finds with what was sent before what the old cursor finds. -/
theorem Flush.Resumes.send_eq {c : EmitCtx} {start : ℕ} {f g : Flush} (h : Flush.Resumes c start f)
    (hcursor : g.cursor = f.cursor) (hevents : g.events = f.events) (more : List ℕ) {id : ℕ}
    (hok : (g.send c (f.vis ++ more) id).sendOk = true) (y : List UInt8) :
    utf8Delta (c.decode (f.vis ++ more) ++ y) start =
      ((g.send c (f.vis ++ more) id).text ++
          (utf8Delta (c.decode (f.vis ++ more) ++ y) (g.send c (f.vis ++ more) id).cursor).1,
        (utf8Delta (c.decode (f.vis ++ more) ++ y) (g.send c (f.vis ++ more) id).cursor).2) := by
  obtain ⟨htext, hcur⟩ := send_text hok
  have hfirst := h (c.decode more ++ y)
  have hsent : g.text = f.text := by rw [Flush.text, hevents, Flush.text]
  rw [← List.append_assoc, ← decode_append] at hfirst
  rw [hfirst, utf8Delta_twice (c.decode (f.vis ++ more)) y f.cursor, htext, hcur, hcursor, hsent,
    List.append_assoc]

/-! ## The callback -/

/-- The tokens before the first end token. -/
def visibleOf (eos : List ℕ) (ids : List ℕ) : List ℕ := ids.takeWhile fun t => t ∉ eos

theorem visibleOf_cons (eos : List ℕ) (t : ℕ) (w : List ℕ) :
    visibleOf eos (t :: w) = if t ∈ eos then [] else t :: visibleOf eos w := by
  unfold visibleOf
  rw [List.takeWhile_cons]
  by_cases ht : t ∈ eos <;> simp [ht]

theorem pushVisible_eq (eos vis : List ℕ) (id : ℕ) (slice : List ℕ) :
    (pushVisible eos vis id slice).1 = vis ++ visibleOf eos slice ∧
      ((pushVisible eos vis id slice).2.2 = true ↔ ∃ t ∈ slice, t ∈ eos) := by
  induction slice generalizing vis id with
  | nil => simp [pushVisible, visibleOf]
  | cons t slice ih =>
    unfold pushVisible
    rw [visibleOf_cons]
    by_cases ht : t ∈ eos
    · simp [ht]
    · obtain ⟨h1, h2⟩ := ih (vis ++ [t]) t
      rw [if_neg ht, if_neg ht, h1]
      refine ⟨List.append_assoc _ _ _, ?_⟩
      rw [h2]
      simp [ht]

/-- Nothing behind an end token is visible. -/
theorem visibleOf_append_of_mem {eos w : List ℕ} (h : ∃ t ∈ w, t ∈ eos) (z : List ℕ) :
    visibleOf eos (w ++ z) = visibleOf eos w := by
  induction w with
  | nil => simp at h
  | cons t w ih =>
    rw [List.cons_append, visibleOf_cons, visibleOf_cons]
    by_cases ht : t ∈ eos
    · rw [if_pos ht, if_pos ht]
    · obtain ⟨s, hs, he⟩ := h
      rcases List.mem_cons.1 hs with rfl | hs
      · exact absurd he ht
      · rw [if_neg ht, if_neg ht, ih ⟨s, hs, he⟩]

theorem visibleOf_append_of_not {eos w : List ℕ} (h : ¬ ∃ t ∈ w, t ∈ eos) (z : List ℕ) :
    visibleOf eos (w ++ z) = visibleOf eos w ++ visibleOf eos z := by
  induction w with
  | nil => rfl
  | cons t w ih =>
    have ht : t ∉ eos := fun he => h ⟨t, List.mem_cons_self, he⟩
    rw [List.cons_append, visibleOf_cons, visibleOf_cons, if_neg ht, if_neg ht,
      ih fun ⟨s, hs, he⟩ => h ⟨s, List.mem_cons_of_mem t hs, he⟩]
    rfl

/-- What the callback knows after the tokens `w` were handed to it. -/
structure Flushed (c : EmitCtx) (generated : List ℕ) (start : ℕ) (w : List ℕ) (f : Flush) : Prop where
  vis : f.vis = generated ++ visibleOf c.eos w
  eos : f.eosSeen = true ↔ ∃ t ∈ w, t ∈ c.eos
  resumes : f.sendOk = true → Flush.Resumes c start f

theorem flushed_start (c : EmitCtx) (generated : List ℕ) (start : ℕ) :
    Flushed c generated start [] { vis := generated, cursor := start } where
  vis := by simp [visibleOf]
  eos := by simp
  resumes _ y := by simp [Flush.text]

/-- One committed round. -/
theorem Flushed.flushCb {c : EmitCtx} (hb : c.perBurst = false) {generated : List ℕ} {start : ℕ}
    {w : List ℕ} {f : Flush} (h : Flushed c generated start w f) (slice : List ℕ) :
    Flushed c generated start (w ++ slice) (flushCb c f slice) := by
  have hmem : ∀ z : List ℕ, (∃ t ∈ w ++ z, t ∈ c.eos) ↔
      (∃ t ∈ w, t ∈ c.eos) ∨ ∃ t ∈ z, t ∈ c.eos := by
    intro z
    simp only [List.mem_append, or_and_right, exists_or]
  unfold Memra.flushCb
  split
  · rename_i hstop
    rcases hstop with hp | hseen | hnil
    · rw [hb] at hp
      cases hp
    · -- an end token came in an earlier round
      have hw := h.eos.1 hseen
      exact ⟨by rw [h.vis, visibleOf_append_of_mem hw],
        by rw [hmem, h.eos]; exact ⟨.inl, fun _ => hw⟩, h.resumes⟩
    · rw [hnil, List.append_nil]
      exact h
  · rename_i hgo
    simp only [not_or] at hgo
    have hw : ¬ ∃ t ∈ w, t ∈ c.eos := fun hw => hgo.2.1 (h.eos.2 hw)
    obtain ⟨hvis, heos⟩ := pushVisible_eq c.eos f.vis 0 slice
    have hvis' : f.vis ++ visibleOf c.eos slice = generated ++ visibleOf c.eos (w ++ slice) := by
      rw [h.vis, visibleOf_append_of_not hw, List.append_assoc]
    have heos' : (pushVisible c.eos f.vis 0 slice).2.2 = true ↔ ∃ t ∈ w ++ slice, t ∈ c.eos := by
      rw [hmem, heos]
      exact ⟨.inr, fun h => h.resolve_left hw⟩
    simp only [hvis]
    split
    · rename_i hok
      refine ⟨?_, ?_, fun hsend y => ?_⟩
      · rw [(send_vis _ _ _ _).1, hvis']
      · rw [(send_vis _ _ _ _).2]
        exact heos'
      · rw [(send_vis _ _ _ _).1]
        refine Flush.Resumes.send_eq (h.resumes hok) ?_ ?_ _ hsend y
        · rfl
        · rfl
    · rename_i hok
      exact ⟨hvis', heos', fun h => absurd h hok⟩

/-- The rounds of a burst. -/
theorem flush_rounds {c : EmitCtx} (hb : c.perBurst = false) {generated : List ℕ} {start : ℕ}
    {w : List ℕ} {f : Flush} (h : Flushed c generated start w f) (rounds : List (List ℕ)) :
    Flushed c generated start (w ++ rounds.flatten) (rounds.foldl (flushCb c) f) := by
  induction rounds generalizing w f with
  | nil =>
    rw [List.flatten_nil, List.append_nil]
    exact h
  | cons slice rounds ih =>
    rw [List.flatten_cons, ← List.append_assoc, List.foldl_cons]
    exact ih (h.flushCb hb slice)

/-- Under the rollback seam the callback does nothing. -/
theorem flush_perBurst {c : EmitCtx} (hb : c.perBurst = true) (f : Flush)
    (rounds : List (List ℕ)) : rounds.foldl (flushCb c) f = f := by
  induction rounds generalizing f with
  | nil => rfl
  | cons slice rounds ih =>
    have h : flushCb c f slice = f := if_pos (.inl hb)
    rw [List.foldl_cons, h, ih]

/-! ## The burst -/

theorem acceptBurst_visible (eos generated burst : List ℕ) :
    (if (acceptBurst eos generated burst).2 then (acceptBurst eos generated burst).1.dropLast
      else (acceptBurst eos generated burst).1) = generated ++ visibleOf eos burst := by
  induction burst generalizing generated with
  | nil => simp [acceptBurst, visibleOf]
  | cons t burst ih =>
    unfold acceptBurst
    rw [visibleOf_cons]
    by_cases ht : t ∈ eos
    · simp [ht]
    · rw [if_neg ht, if_neg ht, ih, List.append_assoc]
      rfl

/-- The visible tokens of the rounds begin those of the burst. -/
theorem visibleOf_prefix (eos : List ℕ) {w burst : List ℕ} (h : w <+: burst) :
    ∃ more, visibleOf eos burst = visibleOf eos w ++ more := by
  obtain ⟨z, rfl⟩ := h
  by_cases hw : ∃ t ∈ w, t ∈ eos
  · exact ⟨[], by rw [visibleOf_append_of_mem hw, List.append_nil]⟩
  · exact ⟨_, visibleOf_append_of_not hw z⟩

/-- A burst whose sends find a receiver sends, on either path, the text that one `utf8_delta` finds in
the visible tokens, and leaves its cursor. -/
theorem emitBurst_text {c : EmitCtx} {generated : List ℕ} {start : ℕ} {burst : List ℕ}
    {rounds : List (List ℕ)} (hcut : rounds.flatten <+: burst)
    (hok : (emitBurst c generated start burst rounds).sendOk = true) :
    (emitBurst c generated start burst rounds).text =
        (utf8Delta (c.decode (generated ++ visibleOf c.eos burst)) start).1 ∧
      (emitBurst c generated start burst rounds).emittedBytes =
        (utf8Delta (c.decode (generated ++ visibleOf c.eos burst)) start).2 := by
  generalize hf : rounds.foldl (flushCb c) { vis := generated, cursor := start } = f
  have hmore : ∃ more, generated ++ visibleOf c.eos burst = f.vis ++ more ∧
      (f.sendOk = true → Flush.Resumes c start f) := by
    cases hb : c.perBurst with
    | true =>
      rw [flush_perBurst hb] at hf
      exact ⟨visibleOf c.eos burst, by rw [← hf], fun h => hf ▸ (flushed_start c _ _).resumes rfl⟩
    | false =>
      have h := flush_rounds hb (flushed_start c generated start) rounds
      rw [List.nil_append, hf] at h
      obtain ⟨more, hvis⟩ := visibleOf_prefix c.eos hcut
      exact ⟨more, by rw [hvis, h.vis, List.append_assoc], h.resumes⟩
  obtain ⟨more, hvis, hres⟩ := hmore
  unfold emitBurst at hok ⊢
  simp only [hf, acceptBurst_visible] at hok ⊢
  split at hok
  · rename_i hsend
    rw [if_pos hsend]
    rw [hvis] at hok ⊢
    have hall := (hres hsend).send_eq rfl rfl more hok []
    rw [List.append_nil, (send_text hok).2, utf8Delta_done, List.append_nil] at hall
    rw [hall]
    exact ⟨rfl, (send_text hok).2⟩
  · cases hok

/-- With a receiver that stays, no send fails. -/
theorem emitBurst_sendOk {c : EmitCtx} (h : ∀ n, c.sends n = true) (generated : List ℕ) (start : ℕ)
    (burst : List ℕ) (rounds : List (List ℕ)) :
    (emitBurst c generated start burst rounds).sendOk = true := by
  have hsend : ∀ (f : Flush) ids id, f.sendOk = true → (f.send c ids id).sendOk = true := by
    intro f ids id hf
    unfold Flush.send
    simp only
    split
    · exact hf
    · rw [if_pos (h _)]
      exact hf
  have hflush : ∀ (f : Flush) slice, f.sendOk = true → (flushCb c f slice).sendOk = true := by
    intro f slice hf
    unfold flushCb
    split
    · exact hf
    · simp only
      rw [if_pos hf]
      exact hsend _ _ _ hf
  have hrounds : ∀ (f : Flush), f.sendOk = true → (rounds.foldl (flushCb c) f).sendOk = true := by
    induction rounds with
    | nil => exact fun f hf => hf
    | cons slice rounds ih => exact fun f hf => ih _ (hflush f slice hf)
  unfold emitBurst
  simp only
  rw [if_pos (hrounds _ rfl)]
  exact hsend _ _ _ (hrounds _ rfl)

/-- Round by round and per burst, a burst sends the same text and leaves the same cursor, however the
engine cuts it into rounds; the text is that of the tokens before the first end token. -/
theorem emitBurst_rounds {tokenBytes : ℕ → List UInt8} {eos : List ℕ} {sends sends' : ℕ → Bool}
    {generated : List ℕ} {start : ℕ} {burst : List ℕ} {rounds rounds' : List (List ℕ)}
    (hcut : rounds.flatten <+: burst) (hcut' : rounds'.flatten <+: burst)
    (hok : (emitBurst ⟨tokenBytes, eos, false, sends⟩ generated start burst rounds).sendOk = true)
    (hok' : (emitBurst ⟨tokenBytes, eos, true, sends'⟩ generated start burst rounds').sendOk = true) :
    let byRound := emitBurst ⟨tokenBytes, eos, false, sends⟩ generated start burst rounds
    let perBurst := emitBurst ⟨tokenBytes, eos, true, sends'⟩ generated start burst rounds'
    byRound.text = perBurst.text ∧ byRound.emittedBytes = perBurst.emittedBytes ∧
      byRound.text = (utf8Delta ((generated ++ burst.takeWhile fun t => t ∉ eos).flatMap tokenBytes)
        start).1 := by
  obtain ⟨h1, h2⟩ := emitBurst_text hcut hok
  obtain ⟨h3, h4⟩ := emitBurst_text hcut' hok'
  exact ⟨h1.trans h3.symm, h2.trans h4.symm, h1⟩

/-- A character of three bytes cut between two rounds, then the end token. -/
theorem emitBurst_rounds_split :
    (emitBurst ⟨fun t => if t = 0 then [0xe2, 0x82] else if t = 1 then [0xac] else [0x78], [9],
        false, fun _ => true⟩ [2] 1 [0, 1, 2, 9] [[0], [1, 2], [9]]).text =
      (emitBurst ⟨fun t => if t = 0 then [0xe2, 0x82] else if t = 1 then [0xac] else [0x78], [9],
        true, fun _ => true⟩ [2] 1 [0, 1, 2, 9] []).text :=
  (emitBurst_rounds (by decide) (by decide) (emitBurst_sendOk (fun _ => rfl) _ _ _ _)
    (emitBurst_sendOk (fun _ => rfl) _ _ _ _)).1

end Memra
