import Memra.Engine.SpillPread
import Mathlib.Data.Multiset.Filter
import Mathlib.Algebra.Order.Group.Multiset

/-!
# Who owns a pread buffer

`Owned held p`: every buffer of the pool is in order (`PinnedBuffer.Ok`): with a worker exactly when
there is one message for it, with the pool or with the caller (`held`) when there is none. A step of the
pool changes one buffer, and `Owned.change` says what it has to show of that one buffer.
-/

namespace Memra

/-- An allocation has an extent's bytes in front, all of them. -/
def Files.Reads (files : Files) (x : Extent) (data : Bytes) : Prop :=
  data.take x.len = files.extent x ∧ (files.extent x).length = x.len

/-- A buffer's phase with what it stands for: the live tickets, the tickets of the messages for the
buffer, whether the caller holds it. -/
def PinnedBuffer.Ok (files : Files) (asked : ℕ → Option Extent) (live : List ℕ) (mail : Multiset ℕ)
    (held : Prop) (b : PinnedBuffer) : Prop :=
  match b.phase with
  | .free => b.ticket = none ∧ b.data.isSome ∧ mail = 0 ∧ ¬ held
  | .reading => b.data = none ∧ ¬ held ∧ ∃ t, b.ticket = some t ∧ t ∈ live ∧ mail = {t}
  | .canceled => b.data = none ∧ ¬ held ∧ ∃ t, b.ticket = some t ∧ t ∉ live ∧ mail = {t}
  | .ready => mail = 0 ∧ ∃ d, b.data = some d ∧
      (held ∧ (∀ t, b.ticket = some t → t ∉ live) ∨
        ¬ held ∧ ∃ t x, b.ticket = some t ∧ t ∈ live ∧ asked t = some x ∧
          files.Reads x d)
  | .failed => b.data.isSome ∧ mail = 0 ∧ ¬ held ∧ ∃ t, b.ticket = some t ∧ t ∈ live
  | .h2d => b.ticket = none ∧ b.data.isSome ∧ mail = 0 ∧ ¬ held

namespace PinnedBuffer

variable {files : Files} {asked : ℕ → Option Extent} {live : List ℕ} {mail : Multiset ℕ}
  {held : Prop} {b : PinnedBuffer}

theorem ok_free (h : b.phase = .free) : b.Ok files asked live mail held ↔
    b.ticket = none ∧ b.data.isSome ∧ mail = 0 ∧ ¬ held := by
  simp only [Ok, h]

theorem ok_reading (h : b.phase = .reading) : b.Ok files asked live mail held ↔
    b.data = none ∧ ¬ held ∧ ∃ t, b.ticket = some t ∧ t ∈ live ∧ mail = {t} := by
  simp only [Ok, h]

theorem ok_canceled (h : b.phase = .canceled) : b.Ok files asked live mail held ↔
    b.data = none ∧ ¬ held ∧ ∃ t, b.ticket = some t ∧ t ∉ live ∧ mail = {t} := by
  simp only [Ok, h]

theorem ok_ready (h : b.phase = .ready) : b.Ok files asked live mail held ↔
    mail = 0 ∧ ∃ d, b.data = some d ∧
      (held ∧ (∀ t, b.ticket = some t → t ∉ live) ∨
        ¬ held ∧ ∃ t x, b.ticket = some t ∧ t ∈ live ∧ asked t = some x ∧
          files.Reads x d) := by
  simp only [Ok, h]

theorem ok_failed (h : b.phase = .failed) : b.Ok files asked live mail held ↔
    b.data.isSome ∧ mail = 0 ∧ ¬ held ∧ ∃ t, b.ticket = some t ∧ t ∈ live := by
  simp only [Ok, h]

theorem ok_h2d (h : b.phase = .h2d) : b.Ok files asked live mail held ↔
    b.ticket = none ∧ b.data.isSome ∧ mail = 0 ∧ ¬ held := by
  simp only [Ok, h]

/-- The buffer of a live ticket is at its read or past it. -/
theorem Ok.phase_live (h : b.Ok files asked live mail held) {t : ℕ} (ht : b.ticket = some t)
    (hl : t ∈ live) : b.phase = .reading ∨ b.phase = .ready ∨ b.phase = .failed := by
  cases hp : b.phase with
  | reading => exact .inl rfl
  | ready => exact .inr (.inl rfl)
  | failed => exact .inr (.inr rfl)
  | free => exact absurd (ht.symm.trans ((ok_free hp).1 h).1) (by simp)
  | h2d => exact absurd (ht.symm.trans ((ok_h2d hp).1 h).1) (by simp)
  | canceled =>
    obtain ⟨-, -, t', ht', hdead, -⟩ := (ok_canceled hp).1 h
    obtain rfl : t = t' := Option.some.inj (ht.symm.trans ht')
    exact absurd hl hdead

/-- A held buffer is ready and nobody's ticket. -/
theorem Ok.phase_held (h : b.Ok files asked live mail held) (hh : held) : b.phase = .ready := by
  cases hp : b.phase with
  | ready => rfl
  | free => exact absurd hh ((ok_free hp).1 h).2.2.2
  | h2d => exact absurd hh ((ok_h2d hp).1 h).2.2.2
  | reading => exact absurd hh ((ok_reading hp).1 h).2.1
  | canceled => exact absurd hh ((ok_canceled hp).1 h).2.1
  | failed => exact absurd hh ((ok_failed hp).1 h).2.2.1

end PinnedBuffer

open PinnedBuffer

theorem preadExactAt_ok {files : Files} {x : Extent} {data left : Bytes} {io : IoOutcome}
    (h : preadExactAt files x data io = (.ok (), left)) : files.Reads x left := by
  cases io with
  | fails l message => simp [preadExactAt] at h
  | runs =>
    by_cases hlen : (files.extent x).length = x.len
    · simp only [preadExactAt, hlen, if_true, Prod.mk.injEq, true_and] at h
      refine ⟨?_, hlen⟩
      rw [← h, ← hlen, List.take_left']
      rfl
    · simp [preadExactAt, hlen] at h

namespace PreadPool

/-- The messages between the owner and the workers, as tickets and buffers. -/
def inFlight (p : PreadPool) : Multiset (ℕ × ℕ) :=
  ((p.requests.map fun r => (r.ticket, r.index) : List (ℕ × ℕ)) : Multiset (ℕ × ℕ)) +
    ((p.busy.map fun r => (r.ticket, r.index) : List (ℕ × ℕ)) : Multiset (ℕ × ℕ)) +
    ((p.completions.map fun c => (c.ticket, c.index) : List (ℕ × ℕ)) : Multiset (ℕ × ℕ))

/-- The tickets of the messages for a buffer. -/
def mail (p : PreadPool) (i : ℕ) : Multiset ℕ := (p.inFlight.filter fun m => m.2 = i).map Prod.fst

theorem mem_mail {p : PreadPool} {t i : ℕ} : t ∈ p.mail i ↔ (t, i) ∈ p.inFlight := by
  simp only [mail, Multiset.mem_map, Multiset.mem_filter]
  constructor
  · rintro ⟨⟨t', i'⟩, ⟨h, rfl⟩, rfl⟩
    exact h
  · intro h
    exact ⟨(t, i), ⟨h, rfl⟩, rfl⟩

structure Owned (files : Files) (held : List ℕ) (p : PreadPool) : Prop where
  buffers : ∀ i < p.depth, (p.buffers i).Ok files p.asked p.tickets (p.mail i) (i ∈ held)
  mail : ∀ m ∈ p.inFlight, m.2 < p.depth
  distinct : ∀ i < p.depth, ∀ j < p.depth, ∀ t, (p.buffers i).ticket = some t →
    (p.buffers j).ticket = some t → i = j
  fresh : ∀ i < p.depth, ∀ t, (p.buffers i).ticket = some t → t < p.nextTicket
  live : ∀ t ∈ p.tickets, ∃ i < p.depth, (p.buffers i).ticket = some t
  tickets : p.tickets.Nodup
  held : held.Nodup ∧ ∀ i ∈ held, i < p.depth
  requests : ∀ r ∈ p.requests ++ p.busy, p.asked r.ticket = some r.extent
  completions : ∀ c ∈ p.completions, c.result = .ok () →
    ∃ x, p.asked c.ticket = some x ∧ files.Reads x c.data
  fault : p.fault = false
  /-- only a worker pool gives tickets out -/
  mode : p.mode.isWorker = false → p.tickets = []

variable {files : Files} {held : List ℕ} {p : PreadPool}

namespace Owned

/-- A message's ticket is the ticket of its buffer. -/
theorem mail_ticket (h : Owned files held p) {t i : ℕ} (hm : (t, i) ∈ p.inFlight) :
    i < p.depth ∧ (p.buffers i).ticket = some t ∧ (p.buffers i).data = none ∧
      ((p.buffers i).phase = .reading ∨ (p.buffers i).phase = .canceled) ∧ p.mail i = {t} := by
  have hi := h.mail _ hm
  have hok := h.buffers i hi
  have hmem := mem_mail.2 hm
  have hempty : p.mail i ≠ 0 := fun h0 => absurd (h0 ▸ hmem) (Multiset.notMem_zero t)
  cases hp : (p.buffers i).phase with
  | free => exact absurd ((ok_free hp).1 hok).2.2.1 hempty
  | h2d => exact absurd ((ok_h2d hp).1 hok).2.2.1 hempty
  | ready => exact absurd ((ok_ready hp).1 hok).1 hempty
  | failed => exact absurd ((ok_failed hp).1 hok).2.1 hempty
  | reading =>
    obtain ⟨hd, -, t', ht, -, hmail⟩ := (ok_reading hp).1 hok
    obtain rfl : t = t' := by simpa [hmail] using hmem
    exact ⟨hi, ht, hd, .inl rfl, hmail⟩
  | canceled =>
    obtain ⟨hd, -, t', ht, -, hmail⟩ := (ok_canceled hp).1 hok
    obtain rfl : t = t' := by simpa [hmail] using hmem
    exact ⟨hi, ht, hd, .inr rfl, hmail⟩

/-- **A change to one buffer.** -/
theorem change (h : Owned files held p) {p' : PreadPool} {held' : List ℕ} {i : ℕ}
    {b' : PinnedBuffer} (hi : i < p.depth) (hdepth : p'.depth = p.depth)
    (hb : p'.buffers = Function.update p.buffers i b')
    (hmail : ∀ j ≠ i, p'.mail j = p.mail j) (hheld : ∀ j ≠ i, j ∈ held' ↔ j ∈ held)
    (hlive : ∀ t, (p.buffers i).ticket ≠ some t → t < p.nextTicket →
      (t ∈ p'.tickets ↔ t ∈ p.tickets))
    (hasked : ∀ t < p.nextTicket, p'.asked t = p.asked t) (hnext : p.nextTicket ≤ p'.nextTicket)
    (hticket : ∀ t, b'.ticket = some t →
      (p.buffers i).ticket = some t ∨ t = p.nextTicket ∧ t < p'.nextTicket)
    (hok : b'.Ok files p'.asked p'.tickets (p'.mail i) (i ∈ held'))
    (hkeep : ∀ t ∈ p'.tickets,
      t ∈ p.tickets ∧ (p.buffers i).ticket ≠ some t ∨ b'.ticket = some t)
    (htickets : p'.tickets.Nodup) (hheld' : held'.Nodup)
    (hreq : ∀ r ∈ p'.requests ++ p'.busy, p'.asked r.ticket = some r.extent)
    (hcomp : ∀ c ∈ p'.completions, c.result = .ok () →
      ∃ x, p'.asked c.ticket = some x ∧ files.Reads x c.data)
    (hfault : p'.fault = false) (hmode : p'.mode.isWorker = false → p'.tickets = []) :
    Owned files held' p' := by
  have hself : p'.buffers i = b' := by rw [hb, Function.update_self]
  have hother : ∀ j ≠ i, p'.buffers j = p.buffers j := fun j hj => by
    rw [hb, Function.update_of_ne hj]
  have hheldlt : ∀ j ∈ held', j < p'.depth := by
    intro j hj
    rw [hdepth]
    by_cases hji : j = i
    · exact hji ▸ hi
    · exact h.held.2 j ((hheld j hji).1 hj)
  refine ⟨fun j hj => ?_, ?_, ?_, ?_, ?_, htickets, ⟨hheld', hheldlt⟩, hreq, hcomp, hfault, hmode⟩
  · rw [hdepth] at hj
    by_cases hji : j = i
    · subst hji
      rw [hself]
      exact hok
    · have hj' := h.buffers j hj
      -- the ticket of another buffer is another one, and an old one
      have htk : ∀ t, (p.buffers j).ticket = some t →
          (t ∈ p'.tickets ↔ t ∈ p.tickets) ∧ p'.asked t = p.asked t := by
        intro t ht
        have hlt := h.fresh j hj t ht
        exact ⟨hlive t (fun hit => hji (h.distinct j hj i hi t ht hit)) hlt, hasked t hlt⟩
      rw [hother j hji, hmail j hji, propext (hheld j hji)]
      cases hp : (p.buffers j).phase with
      | free => exact (ok_free hp).2 ((ok_free hp).1 hj')
      | h2d => exact (ok_h2d hp).2 ((ok_h2d hp).1 hj')
      | reading =>
        obtain ⟨hd, hh, t, ht, htl, hm⟩ := (ok_reading hp).1 hj'
        exact (ok_reading hp).2 ⟨hd, hh, t, ht, (htk t ht).1.2 htl, hm⟩
      | canceled =>
        obtain ⟨hd, hh, t, ht, htl, hm⟩ := (ok_canceled hp).1 hj'
        exact (ok_canceled hp).2 ⟨hd, hh, t, ht, fun hl => htl ((htk t ht).1.1 hl), hm⟩
      | failed =>
        obtain ⟨hd, hm, hh, t, ht, htl⟩ := (ok_failed hp).1 hj'
        exact (ok_failed hp).2 ⟨hd, hm, hh, t, ht, (htk t ht).1.2 htl⟩
      | ready =>
        obtain ⟨hm, d, hd, ⟨hh, hdead⟩ | ⟨hh, t, x, ht, htl, hx, hex⟩⟩ := (ok_ready hp).1 hj'
        · exact (ok_ready hp).2
            ⟨hm, d, hd, .inl ⟨hh, fun t ht hl => hdead t ht ((htk t ht).1.1 hl)⟩⟩
        · exact (ok_ready hp).2 ⟨hm, d, hd,
            .inr ⟨hh, t, x, ht, (htk t ht).1.2 htl, (htk t ht).2.trans hx, hex⟩⟩
  · intro m hm
    rw [hdepth]
    by_cases hmi : m.2 = i
    · exact hmi ▸ hi
    · have : m.1 ∈ p'.mail m.2 := mem_mail.2 hm
      rw [hmail _ hmi] at this
      exact h.mail _ (mem_mail.1 this)
  · intro j hj k hk t htj htk
    rw [hdepth] at hj hk
    by_cases hji : j = i
    · by_cases hki : k = i
      · rw [hji, hki]
      · subst hji
        rw [hself] at htj
        rw [hother k hki] at htk
        rcases hticket t htj with hold | ⟨rfl, -⟩
        · exact h.distinct j hj k hk t hold htk
        · exact absurd (h.fresh k hk _ htk) (lt_irrefl _)
    · rw [hother j hji] at htj
      by_cases hki : k = i
      · subst hki
        rw [hself] at htk
        rcases hticket t htk with hold | ⟨rfl, -⟩
        · exact h.distinct j hj k hk t htj hold
        · exact absurd (h.fresh j hj _ htj) (lt_irrefl _)
      · rw [hother k hki] at htk
        exact h.distinct j hj k hk t htj htk
  · intro j hj t ht
    rw [hdepth] at hj
    by_cases hji : j = i
    · subst hji
      rw [hself] at ht
      rcases hticket t ht with hold | ⟨-, hlt⟩
      · exact (h.fresh j hj t hold).trans_le hnext
      · exact hlt
    · rw [hother j hji] at ht
      exact (h.fresh j hj t ht).trans_le hnext
  · intro t ht
    rw [hdepth]
    rcases hkeep t ht with ⟨hold, hne⟩ | hbt
    · obtain ⟨j, hj, hjt⟩ := h.live t hold
      have hji : j ≠ i := by rintro rfl; exact hne hjt
      exact ⟨j, hj, by rw [hother j hji]; exact hjt⟩
    · exact ⟨i, hi, by rw [hself]; exact hbt⟩

/-- A change to one buffer and its ticket on the owner's side. -/
theorem setBuffer (h : Owned files held p) {held' tickets' : List ℕ} {i : ℕ} {b' : PinnedBuffer}
    (hi : i < p.depth) (hheld : ∀ j ≠ i, j ∈ held' ↔ j ∈ held)
    (hlive : ∀ t, (p.buffers i).ticket ≠ some t → (t ∈ tickets' ↔ t ∈ p.tickets))
    (hticket : ∀ t, b'.ticket = some t → (p.buffers i).ticket = some t)
    (hok : b'.Ok files p.asked tickets' (p.mail i) (i ∈ held'))
    (hkeep : ∀ t ∈ tickets', (p.buffers i).ticket = some t → b'.ticket = some t)
    (htickets : tickets'.Sublist p.tickets) (hheld' : held'.Nodup) :
    Owned files held' { p.setBuffer i b' with tickets := tickets' } := by
  refine h.change hi rfl rfl (fun _ _ => rfl) hheld (fun t ht _ => hlive t ht) (fun _ _ => rfl)
    le_rfl (fun t ht => .inl (hticket t ht)) hok (fun t ht => ?_) (h.tickets.sublist htickets)
    hheld' h.requests h.completions h.fault fun hm =>
      List.sublist_nil.1 (h.mode hm ▸ htickets)
  by_cases hit : (p.buffers i).ticket = some t
  · exact .inr (hkeep t ht hit)
  · exact .inl ⟨(hlive t hit).1 ht, hit⟩

end Owned

/-! ## Positions -/

theorem position_spec {f : PinnedBuffer → Bool} {i : ℕ} (h : p.position f = some i) :
    i < p.depth ∧ f (p.buffers i) = true :=
  ⟨List.mem_range.1 (List.mem_of_find?_eq_some h), by simpa using List.find?_some h⟩

theorem position_isSome {f : PinnedBuffer → Bool} {i : ℕ} (hi : i < p.depth)
    (hf : f (p.buffers i) = true) : ∃ j, p.position f = some j := by
  rw [← Option.isSome_iff_exists, position, List.find?_isSome]
  exact ⟨i, List.mem_range.2 hi, hf⟩

/-- The buffer of a live ticket. -/
theorem Owned.position_live (h : Owned files held p) {t : ℕ} (ht : t ∈ p.tickets) :
    ∃ i, (p.position fun b => b.ticket = some t) = some i ∧ i < p.depth ∧
      (p.buffers i).ticket = some t := by
  obtain ⟨j, hj, hjt⟩ := h.live t ht
  obtain ⟨i, hi⟩ := position_isSome (f := fun b => b.ticket = some t) hj (by simpa using hjt)
  obtain ⟨hlt, hf⟩ := position_spec hi
  exact ⟨i, hi, hlt, by simpa using hf⟩

/-! ## Completions -/

theorem inFlight_completion (p : PreadPool) (c : ReadCompletion) (rest : List ReadCompletion) :
    inFlight { p with completions := c :: rest } =
      (c.ticket, c.index) ::ₘ inFlight { p with completions := rest } := by
  simp only [inFlight, List.map_cons, ← Multiset.cons_coe, Multiset.add_cons]

theorem mail_completion (p : PreadPool) (c : ReadCompletion) (rest : List ReadCompletion) (j : ℕ) :
    mail { p with completions := c :: rest } j =
      if c.index = j then c.ticket ::ₘ mail { p with completions := rest } j
      else mail { p with completions := rest } j := by
  rw [mail, inFlight_completion]
  split
  · rename_i h
    rw [Multiset.filter_cons_of_pos (p := fun m : ℕ × ℕ => m.2 = j) _ h, Multiset.map_cons]
    rfl
  · rename_i h
    rw [Multiset.filter_cons_of_neg (p := fun m : ℕ × ℕ => m.2 = j) _ h]
    rfl

/-- A received completion is never stale, and gives the buffer back to the owner. -/
theorem Owned.finish {c : ReadCompletion} {rest : List ReadCompletion}
    (h : Owned files held { p with completions := c :: rest }) :
    Owned files held (finishWorkerCompletion { p with completions := rest } c) := by
  have hin : (c.ticket, c.index) ∈ inFlight { p with completions := c :: rest } := by
    rw [inFlight_completion]
    exact Multiset.mem_cons_self _ _
  obtain ⟨hi, ht, hd, hph, hmail⟩ := h.mail_ticket hin
  have hi' : c.index < p.depth := hi
  have hok := h.buffers c.index hi
  have hmail' : PreadPool.mail { p with completions := rest } c.index = 0 := by
    rw [mail_completion, if_pos rfl] at hmail
    exact (Multiset.cons_eq_cons.1 hmail).elim And.right fun hne => absurd rfl hne.1
  have hmo : ∀ j ≠ c.index,
      PreadPool.mail { p with completions := rest } j = PreadPool.mail { p with completions := c :: rest } j := by
    intro j hj
    rw [mail_completion, if_neg (Ne.symm hj)]
  have hcomp : ∀ c' ∈ rest, c'.result = .ok () →
      ∃ x, p.asked c'.ticket = some x ∧ files.Reads x c'.data :=
    fun c' hc' => h.completions c' (List.mem_cons_of_mem _ hc')
  have hnot : ¬ ((p.buffers c.index).ticket ≠ some c.ticket ∨
      (p.buffers c.index).data.isSome = true) := by
    rintro (hne | hsome)
    · exact hne ht
    · rw [show (p.buffers c.index).data = none from hd] at hsome
      exact absurd hsome (by simp)
  -- the one buffer, by what has become of the read
  have hset : ∀ b' : PinnedBuffer, (∀ t, b'.ticket = some t → (p.buffers c.index).ticket = some t) →
      b'.Ok files p.asked p.tickets 0 (c.index ∈ held) →
      (∀ t ∈ p.tickets, (p.buffers c.index).ticket = some t → b'.ticket = some t) →
      Owned files held (({ p with completions := rest } : PreadPool).setBuffer c.index b') := by
    intro b' htk hok' hkeep
    refine h.change hi rfl rfl hmo (fun _ _ => Iff.rfl) (fun _ _ _ => Iff.rfl) (fun _ _ => rfl)
      le_rfl (fun t ht => .inl (htk t ht)) ?_ (fun t ht => ?_) h.tickets h.held.1 h.requests hcomp
      h.fault h.mode
    · show b'.Ok files p.asked p.tickets (PreadPool.mail { p with completions := rest } c.index) _
      rw [hmail']
      exact hok'
    · by_cases hit : (p.buffers c.index).ticket = some t
      · exact .inr (hkeep t ht hit)
      · exact .inl ⟨ht, hit⟩
  have hticket : (p.buffers c.index).ticket = some c.ticket := ht
  rw [finishWorkerCompletion, if_pos hi']
  simp only [Bool.or_eq_true, decide_eq_true_eq, if_neg hnot]
  rcases hph with hph | hph
  · have hph' : (p.buffers c.index).phase = .reading := hph
    obtain ⟨-, hh, t, ht', htl, -⟩ := (ok_reading hph).1 hok
    obtain rfl : c.ticket = t := Option.some.inj (ht.symm.trans ht')
    simp only [hph']
    rcases hres : c.result with e | u
    · refine hset _ (fun t ht => ht) ?_ (fun t _ ht => ht)
      exact ⟨rfl, rfl, hh, c.ticket, hticket, htl⟩
    · obtain ⟨x, hx, hex⟩ := h.completions c List.mem_cons_self hres
      refine hset _ (fun t ht => ht) ?_ (fun t _ ht => ht)
      exact ⟨rfl, c.data, rfl, .inr ⟨hh, c.ticket, x, hticket, htl, hx, hex⟩⟩
  · have hph' : (p.buffers c.index).phase = .canceled := hph
    obtain ⟨-, hh, t, ht', htl, -⟩ := (ok_canceled hph).1 hok
    obtain rfl : c.ticket = t := Option.some.inj (ht.symm.trans ht')
    simp only [hph']
    refine hset _ (fun t ht => nomatch ht) ⟨rfl, rfl, rfl, hh⟩ (fun t htk hit => ?_)
    obtain rfl : c.ticket = t := Option.some.inj (hticket.symm.trans hit)
    exact absurd htk htl

/-- What reading the completion channel leaves alone. -/
structure SameOwner (p p' : PreadPool) : Prop where
  depth : p'.depth = p.depth
  capacity : p'.capacity = p.capacity
  mode : p'.mode = p.mode
  tickets : p'.tickets = p.tickets
  nextTicket : p'.nextTicket = p.nextTicket
  asked : p'.asked = p.asked

theorem SameOwner.trans {p p' p'' : PreadPool} (h : SameOwner p p') (h' : SameOwner p' p'') :
    SameOwner p p'' :=
  ⟨h'.1.trans h.1, h'.2.trans h.2, h'.3.trans h.3, h'.4.trans h.4, h'.5.trans h.5, h'.6.trans h.6⟩

theorem sameOwner_finish (p : PreadPool) (c : ReadCompletion) :
    SameOwner p (p.finishWorkerCompletion c) := by
  unfold finishWorkerCompletion
  dsimp only
  repeat' split
  all_goals exact ⟨rfl, rfl, rfl, rfl, rfl, rfl⟩

theorem finish_completions (p : PreadPool) (c : ReadCompletion) (l : List ReadCompletion) :
    finishWorkerCompletion { p with completions := l } c =
      { finishWorkerCompletion p c with completions := l } := by
  unfold finishWorkerCompletion
  dsimp only
  repeat' split
  all_goals rfl

theorem Owned.poll_from (rest : List ReadCompletion)
    (h : Owned files held { p with completions := rest }) :
    Owned files held (rest.foldl finishWorkerCompletion { p with completions := [] }) ∧
      SameOwner p (rest.foldl finishWorkerCompletion { p with completions := [] }) := by
  induction rest generalizing p with
  | nil => exact ⟨h, ⟨rfl, rfl, rfl, rfl, rfl, rfl⟩⟩
  | cons c rest ih =>
    have hf := h.finish
    rw [finish_completions] at hf
    obtain ⟨ho, hs⟩ := ih hf
    rw [List.foldl_cons, finish_completions]
    exact ⟨ho, (p.sameOwner_finish c).trans hs⟩

theorem Owned.poll (h : Owned files held p) :
    Owned files held p.pollWorkerCompletions ∧ SameOwner p p.pollWorkerCompletions :=
  Owned.poll_from p.completions h

/-- A completed copy gives its buffer back. -/
theorem Owned.reap (h : Owned files held p) (complete : ℕ → Bool) :
    Owned files held (p.reapCompleted complete) ∧ SameOwner p (p.reapCompleted complete) := by
  obtain ⟨hq, hs⟩ := h.poll
  have hbuf : ∀ i, ((p.reapCompleted complete).buffers i) = p.pollWorkerCompletions.buffers i ∨
      (p.pollWorkerCompletions.buffers i).phase = .h2d ∧ (p.reapCompleted complete).buffers i =
        { p.pollWorkerCompletions.buffers i with phase := .free, event := false } := by
    intro i
    show reapBuffer (complete i) _ = _ ∨ _ ∧ reapBuffer (complete i) _ = _
    unfold reapBuffer
    split
    · rename_i hc
      exact .inr ⟨by simpa using (Bool.and_eq_true_iff.1 (Bool.and_eq_true_iff.1 hc).1).1, rfl⟩
    · exact .inl rfl
  have hticket : ∀ i, ((p.reapCompleted complete).buffers i).ticket =
      (p.pollWorkerCompletions.buffers i).ticket := by
    intro i
    rcases hbuf i with hb | ⟨-, hb⟩ <;> rw [hb]
  refine ⟨⟨fun i hi => ?_, hq.mail, fun i hi j hj t hti htj => ?_, fun i hi t ht => ?_,
    fun t ht => ?_, hq.tickets, hq.held, hq.requests, hq.completions, hq.fault, hq.mode⟩,
    ⟨hs.1, hs.2, hs.3, hs.4, hs.5, hs.6⟩⟩
  · have hok := hq.buffers i hi
    rcases hbuf i with hb | ⟨hp, hb⟩
    · rw [hb]
      exact hok
    · rw [hb]
      exact (ok_h2d hp).1 hok
  · exact hq.distinct i hi j hj t (hticket i ▸ hti) (hticket j ▸ htj)
  · exact hq.fresh i hi t (hticket i ▸ ht)
  · obtain ⟨i, hi, hit⟩ := hq.live t ht
    exact ⟨i, hi, (hticket i).trans hit⟩

/-! ## Waiting and cancelling -/

/-- What `wait_worker` finds. -/
inductive Waited (files : Files) (held : List ℕ) (p : PreadPool) (t : ℕ) :
    WaitResult × PreadPool → Prop
  /-- the buffer of the ticket, with the bytes it was submitted for -/
  | got {i : ℕ} {x : Extent} {p' : PreadPool} : Owned files (i :: held) p' →
      p'.tickets = p.tickets.erase t → p.asked t = some x →
      p'.bytes i x.len = .ok (files.extent x) → (files.extent x).length = x.len →
      Waited files held p t (.got i, p')
  | failed {e : String} {p' : PreadPool} : Owned files held p' →
      p'.tickets = p.tickets.erase t → Waited files held p t (.err e, p')
  | block {p' : PreadPool} : Owned files held p' → p'.tickets = p.tickets → t ∈ p'.tickets →
      Waited files held p t (.block, p')

theorem Waited.of_same {q : PreadPool} {t : ℕ} {r : WaitResult × PreadPool} (hs : SameOwner p q)
    (h : Waited files held q t r) : Waited files held p t r := by
  cases h with
  | got ho ht hx hb hl => exact .got ho (hs.tickets ▸ ht) (hs.asked ▸ hx) hb hl
  | failed ho ht => exact .failed ho (hs.tickets ▸ ht)
  | block ho ht hl => exact .block ho (hs.tickets ▸ ht) hl

theorem Owned.waitRound (h : Owned files held p) {t : ℕ} (ht : t ∈ p.tickets) :
    Waited files held p t (p.waitRound t) := by
  obtain ⟨i, hpos, hi, hti⟩ := h.position_live ht
  have hok := h.buffers i hi
  have herase : ∀ t', (p.buffers i).ticket ≠ some t' → (t' ∈ p.tickets.erase t ↔ t' ∈ p.tickets) := by
    intro t' hne
    exact List.mem_erase_of_ne (by rintro rfl; exact hne hti)
  have hgone : t ∉ p.tickets.erase t := List.Nodup.not_mem_erase h.tickets
  unfold PreadPool.waitRound
  simp only [hpos]
  rcases hok.phase_live hti ht with hp | hp | hp
  · simp only [hp]
    exact .block h rfl ht
  · obtain ⟨hm, d, hd, ⟨-, hdead⟩ | ⟨hh, t', x, ht', htl, hx, hex⟩⟩ := (ok_ready hp).1 hok
    · exact absurd ht (hdead t hti)
    · obtain rfl : t = t' := Option.some.inj (hti.symm.trans ht')
      simp only [hp]
      have hq : Owned files (i :: held)
          { p.setBuffer i (p.buffers i) with tickets := p.tickets.erase t } := by
        refine h.setBuffer hi (fun j hj => by simp [hj]) herase (fun _ ht => ht)
          ((ok_ready hp).2 ⟨hm, d, hd, .inl ⟨List.mem_cons_self, fun t' ht' hl => ?_⟩⟩)
          (fun t' hl hit => ?_) List.erase_sublist (List.nodup_cons.2 ⟨hh, h.held.1⟩)
        · obtain rfl : t = t' := Option.some.inj (hti.symm.trans ht')
          exact hgone hl
        · exact hit
      simp only [PreadPool.setBuffer, Function.update_eq_self] at hq
      refine .got hq rfl hx ?_ hex.2
      simp [bytes, hp, hd, hex.1]
  · obtain ⟨hd, hm, hh, -⟩ := (ok_failed hp).1 hok
    simp only [hp]
    refine .failed (h.setBuffer hi (fun _ _ => Iff.rfl) herase (fun _ ht => nomatch ht)
      ((ok_free rfl).2 ⟨rfl, hd, hm, hh⟩) (fun t' hl hit => ?_) List.erase_sublist h.held.1) rfl
    obtain rfl : t = t' := Option.some.inj (hti.symm.trans hit)
    exact absurd hl hgone

/-- `wait_worker` up to its receive, of a ticket that is live. -/
theorem Owned.wait (h : Owned files held p) {t : ℕ} (ht : t ∈ p.tickets) :
    Waited files held p t (p.wait t) := by
  obtain ⟨hq, hs⟩ := h.poll
  rw [PreadPool.wait, if_pos ht]
  exact (hq.waitRound (hs.tickets ▸ ht)).of_same hs

/-- `wait_worker` from a received completion on. -/
theorem Owned.recv (h : Owned files held p) {t : ℕ} (ht : t ∈ p.tickets)
    {r : WaitResult × PreadPool} (hr : p.recv t = some r) : Waited files held p t r := by
  unfold PreadPool.recv at hr
  rcases hc : p.completions with _ | ⟨c, rest⟩
  · simp [hc] at hr
  · simp only [hc, Option.some.injEq] at hr
    have h' : Owned files held { p with completions := c :: rest } := by
      rw [← hc]
      exact h
    have hs := sameOwner_finish { p with completions := rest } c
    rw [← hr]
    have hw := (h'.finish.waitRound (hs.tickets ▸ ht)).of_same hs
    cases hres : PreadPool.waitRound (finishWorkerCompletion { p with completions := rest } c) t
    rw [hres] at hw
    cases hw with
    | got ho ht hx hb hl => exact .got ho ht hx hb hl
    | failed ho ht => exact .failed ho ht
    | block ho ht hl => exact .block ho ht hl

/-- `cancel_worker` takes the ticket, and the buffer back, now or when its read has come back. -/
theorem Owned.cancel (h : Owned files held p) (t : ℕ) :
    Owned files held (p.cancelWorker t).2 ∧
      (p.cancelWorker t).2.tickets = p.tickets.erase t := by
  obtain ⟨hq, hs⟩ := h.poll
  unfold cancelWorker
  dsimp only
  generalize p.pollWorkerCompletions = q at hq hs
  by_cases ht : t ∈ q.tickets
  · rw [if_pos ht]
    obtain ⟨i, hpos, hi, hti⟩ := hq.position_live ht
    have hok := hq.buffers i hi
    have herase : ∀ t', (q.buffers i).ticket ≠ some t' →
        (t' ∈ q.tickets.erase t ↔ t' ∈ q.tickets) := by
      intro t' hne
      exact List.mem_erase_of_ne (by rintro rfl; exact hne hti)
    have hgone : t ∉ q.tickets.erase t := List.Nodup.not_mem_erase hq.tickets
    have hkeep : ∀ b' : PinnedBuffer, ∀ t' ∈ q.tickets.erase t, (q.buffers i).ticket = some t' →
        b'.ticket = some t' := by
      intro b' t' hl hit
      obtain rfl : t = t' := Option.some.inj (hti.symm.trans hit)
      exact absurd hl hgone
    have hback : (q.buffers i).data.isSome ∧ q.mail i = 0 ∧ i ∉ held →
        Owned files held { q.setBuffer i
          { q.buffers i with phase := .free, ticket := none, error := none } with
            tickets := q.tickets.erase t } := by
      rintro ⟨hd, hm, hh⟩
      exact hq.setBuffer hi (fun _ _ => Iff.rfl) herase (fun _ ht => nomatch ht)
        ((ok_free rfl).2 ⟨rfl, hd, hm, hh⟩) (hkeep _) List.erase_sublist hq.held.1
    rw [show PreadPool.position { q with tickets := q.tickets.erase t }
      (fun b => b.ticket = some t) = some i from hpos]
    rcases hok.phase_live hti ht with hp | hp | hp
    · obtain ⟨hd, hh, t', ht', -, hm⟩ := (ok_reading hp).1 hok
      obtain rfl : t = t' := Option.some.inj (hti.symm.trans ht')
      simp only [hp]
      refine ⟨hq.setBuffer hi (fun _ _ => Iff.rfl) herase (fun _ ht => ht)
        ((ok_canceled rfl).2 ⟨hd, hh, t, hti, hgone, hm⟩) ?_ List.erase_sublist hq.held.1,
        by rw [← hs.tickets]; rfl⟩
      exact fun t' hl hit => hit
    · obtain ⟨hm, d, hd, ⟨-, hdead⟩ | ⟨hh, -⟩⟩ := (ok_ready hp).1 hok
      · exact absurd ht (hdead t hti)
      · simp only [hp]
        exact ⟨hback ⟨by simp [hd], hm, hh⟩, by rw [← hs.tickets]; rfl⟩
    · obtain ⟨hd, hm, hh, -⟩ := (ok_failed hp).1 hok
      simp only [hp]
      exact ⟨hback ⟨hd, hm, hh⟩, by rw [← hs.tickets]; rfl⟩
  · rw [if_neg ht]
    refine ⟨hq, ?_⟩
    rw [← hs.tickets, List.erase_of_not_mem ht]

/-! ## Held buffers -/

/-- A held buffer leaves the hold. -/
theorem Owned.unhold (h : Owned files held p) {i : ℕ} (hi : i ∈ held) {b' : PinnedBuffer}
    (hp : b'.phase = .free ∨ b'.phase = .h2d) (hd : b'.data = (p.buffers i).data)
    (ht : b'.ticket = none) : Owned files (held.erase i) (p.setBuffer i b') := by
  have hlt := h.held.2 i hi
  have hok := h.buffers i hlt
  have hready := hok.phase_held hi
  obtain ⟨hm, d, hd', ⟨-, hdead⟩ | ⟨hh, -⟩⟩ := (ok_ready hready).1 hok
  · have hgone : i ∉ held.erase i := List.Nodup.not_mem_erase h.held.1
    have hsome : b'.data.isSome := by rw [hd, hd']; rfl
    refine h.setBuffer hlt (fun j hj => List.mem_erase_of_ne hj) (fun _ _ => Iff.rfl)
      (fun t ht' => ?_) ?_ (fun t hl hit => absurd hl (hdead t hit)) (List.Sublist.refl _) (h.held.1.erase i)
    · rw [ht] at ht'
      exact nomatch ht'
    · rcases hp with hp | hp
      · exact (ok_free hp).2 ⟨ht, hsome, hm, hgone⟩
      · exact (ok_h2d hp).2 ⟨ht, hsome, hm, hgone⟩
  · exact absurd hi hh

theorem Owned.markH2d (h : Owned files held p) {i : ℕ} (hi : i ∈ held) (event : Bool) :
    Owned files (held.erase i) (p.markH2d i event) ∧ (p.markH2d i event).tickets = p.tickets := by
  have hready := (h.buffers i (h.held.2 i hi)).phase_held hi
  simp only [PreadPool.markH2d, hready, if_true]
  exact ⟨h.unhold hi (.inr rfl) rfl rfl, rfl⟩

theorem Owned.abortRead (h : Owned files held p) {i : ℕ} (hi : i ∈ held) :
    Owned files (held.erase i) (p.abortRead i) ∧ (p.abortRead i).tickets = p.tickets := by
  have hready := (h.buffers i (h.held.2 i hi)).phase_held hi
  have hmem : (p.buffers i).phase ∈ [BufferPhase.reading, .canceled, .ready, .failed] := by
    rw [hready]
    decide
  simp only [PreadPool.abortRead, if_pos hmem]
  exact ⟨h.unhold hi (.inl rfl) rfl rfl, rfl⟩

/-! ## Blocking reads -/

theorem Owned.waitForOne (h : Owned files held p) (env : ReadEnv) :
    Owned files held (p.waitForOne env).2 ∧ (p.waitForOne env).2.tickets = p.tickets ∧
      ((p.waitForOne env).1 = .ok () →
        ∃ i, ((p.waitForOne env).2.position fun b => b.phase = .free) = some i) := by
  unfold PreadPool.waitForOne
  rcases hpos : p.position fun b => b.phase = .h2d with _ | i
  · exact ⟨h, rfl, fun he => nomatch he⟩
  · obtain ⟨hi, hp⟩ := position_spec hpos
    have hp : (p.buffers i).phase = .h2d := by simpa using hp
    obtain ⟨ht, hd, hm, hh⟩ := (ok_h2d hp).1 (h.buffers i hi)
    dsimp only
    split
    · rcases env.synchronize with _ | e
      · refine ⟨h.setBuffer hi (fun _ _ => Iff.rfl) (fun _ _ => Iff.rfl) (fun t ht => ht)
          ((ok_free rfl).2 ⟨ht, hd, hm, hh⟩) (fun t _ hit => hit) (List.Sublist.refl _) h.held.1, rfl,
          fun _ => position_isSome (i := i) hi ?_⟩
        simp [PreadPool.setBuffer]
      · exact ⟨h, rfl, fun he => nomatch he⟩
    · exact ⟨h, rfl, fun he => nomatch he⟩

/-- What `read` comes back with. -/
inductive ReadBack (files : Files) (held : List ℕ) (p : PreadPool) :
    Except String ℕ × PreadPool → Prop
  | ok {i : ℕ} {p' : PreadPool} : Owned files (i :: held) p' → p'.tickets = p.tickets →
      ReadBack files held p (.ok i, p')
  | error {e : String} {p' : PreadPool} : Owned files held p' → p'.tickets = p.tickets →
      ReadBack files held p (.error e, p')

theorem ReadBack.of_tickets {q : PreadPool} {r : Except String ℕ × PreadPool}
    (ht : q.tickets = p.tickets) (h : ReadBack files held q r) : ReadBack files held p r := by
  cases h with
  | ok ho h => exact .ok ho (h.trans ht)
  | error ho h => exact .error ho (h.trans ht)

/-- A free buffer is filled and handed over. -/
theorem Owned.readFree (h : Owned files held p) (x : Extent) (io : IoOutcome) {i : ℕ}
    (hpos : (p.position fun b => b.phase = .free) = some i) :
    ReadBack files held p (p.readFree files x io) := by
  obtain ⟨hi, hp⟩ := position_spec hpos
  have hp : (p.buffers i).phase = .free := by simpa using hp
  obtain ⟨ht, hd, hm, hh⟩ := (ok_free hp).1 (h.buffers i hi)
  obtain ⟨data, hd⟩ := Option.isSome_iff_exists.1 hd
  unfold PreadPool.readFree
  simp only [hpos, hd]
  rcases preadExactAt files x data io with ⟨e | u, left⟩
  · refine .error ?_ rfl
    exact h.setBuffer hi (fun _ _ => Iff.rfl) (fun _ _ => Iff.rfl) (fun t ht => ht)
      ((ok_free rfl).2 ⟨ht, rfl, hm, hh⟩) (fun t _ hit => hit) (List.Sublist.refl _) h.held.1
  · refine .ok ?_ rfl
    refine h.setBuffer hi (fun j hj => by simp [hj]) (fun _ _ => Iff.rfl) (fun t ht => ht)
      ((ok_ready rfl).2 ⟨hm, left, rfl, .inl ⟨List.mem_cons_self, fun t ht' => ?_⟩⟩)
      (fun t _ hit => hit) (List.Sublist.refl _) (List.nodup_cons.2 ⟨hh, h.held.1⟩)
    exact absurd (ht.symm.trans ht') (by simp)

/-- `read` fills a free buffer and hands it over. -/
theorem Owned.read (h : Owned files held p) (x : Extent) (env : ReadEnv) :
    ReadBack files held p (p.read files x env) := by
  unfold PreadPool.read
  split
  · exact .error h rfl
  · obtain ⟨hq, hs⟩ := h.reap env.complete
    dsimp only
    split
    · rename_i hfree
      obtain ⟨i, hi⟩ := Option.isSome_iff_exists.1 hfree
      exact (hq.readFree x env.io hi).of_tickets hs.tickets
    · obtain ⟨ho, ht, hfree⟩ := hq.waitForOne env
      rcases hwr : (p.reapCompleted env.complete).waitForOne env with ⟨e | u, q⟩
      · rw [hwr] at ho ht
        exact .error ho (ht.trans hs.tickets)
      · rw [hwr] at ho ht hfree
        obtain ⟨i, hi⟩ := hfree rfl
        exact (ho.readFree x env.io hi).of_tickets (ht.trans hs.tickets)

/-! ## Submission -/

/-- What `submit_worker` comes back with: a new live ticket, for a free buffer given to the workers, or
nothing. A speculative ticket leaves a free buffer. -/
inductive Submitted (files : Files) (held : List ℕ) (p : PreadPool) (admission : WorkerAdmission)
    (x : Extent) : Except String (Option ℕ) × PreadPool → Prop
  | ticket {t : ℕ} {p' : PreadPool} : Owned files held p' → p'.tickets = t :: p.tickets →
      p'.asked t = some x →
      (admission = .speculative → ∃ i < p'.depth, (p'.buffers i).phase = .free) →
      Submitted files held p admission x (.ok (some t), p')
  | busy {p' : PreadPool} : Owned files held p' → p'.tickets = p.tickets →
      Submitted files held p admission x (.ok none, p')
  | error {e : String} {p' : PreadPool} : Owned files held p' → p'.tickets = p.tickets →
      Submitted files held p admission x (.error e, p')

theorem mail_request {p' : PreadPool} {r : ReadRequest} (hr : p'.requests = p.requests ++ [r])
    (hb : p'.busy = p.busy) (hc : p'.completions = p.completions) (j : ℕ) :
    p'.mail j = if r.index = j then r.ticket ::ₘ p.mail j else p.mail j := by
  have hin : p'.inFlight = (r.ticket, r.index) ::ₘ p.inFlight := by
    simp only [inFlight, hr, hb, hc, List.map_append, List.map_cons, List.map_nil,
      ← Multiset.coe_add, Multiset.coe_singleton, ← Multiset.singleton_add]
    ac_rfl
  rw [mail, hin]
  split
  · rename_i h
    rw [Multiset.filter_cons_of_pos (p := fun m : ℕ × ℕ => m.2 = j) _ h, Multiset.map_cons]
    rfl
  · rename_i h
    rw [Multiset.filter_cons_of_neg (p := fun m : ℕ × ℕ => m.2 = j) _ h]
    rfl

/-- Two of the buffers are free, so that one is left when the first has gone. -/
theorem exists_free_ne {n : ℕ} {f : ℕ → Bool} (h : 1 < (List.range n).countP f) (i : ℕ) :
    ∃ j < n, j ≠ i ∧ f j = true := by
  by_contra hno
  have hle : (List.range n).countP f ≤ (List.range n).count i := by
    refine List.countP_mono_left fun j hj hf => ?_
    by_contra hne
    exact hno ⟨j, List.mem_range.1 hj, by simpa using hne, hf⟩
  have hone := List.nodup_iff_count_le_one.1 (List.nodup_range (n := n)) i
  omega

/-- A free buffer goes to the workers under a new ticket. -/
theorem Owned.send (h : Owned files held p) {p' : PreadPool} {i : ℕ} {x : Extent} {data : Bytes}
    {b' : PinnedBuffer} (hi : i < p.depth) (hp : (p.buffers i).phase = .free)
    (hdepth : p'.depth = p.depth) (hb : p'.buffers = Function.update p.buffers i b')
    (hphase : b'.phase = .reading) (hdata : b'.data = none) (hbt : b'.ticket = some p.nextTicket)
    (hnext : p'.nextTicket = p.nextTicket + 1) (htickets : p'.tickets = p.nextTicket :: p.tickets)
    (hreq : p'.requests = p.requests ++ [⟨p.nextTicket, i, x, data⟩]) (hbusy : p'.busy = p.busy)
    (hcomp : p'.completions = p.completions) (hfault : p'.fault = p.fault)
    (hasked : p'.asked = Function.update p.asked p.nextTicket (some x))
    (hmode : p'.mode.isWorker = true) : Owned files held p' := by
  obtain ⟨ht, -, hm, hh⟩ := (ok_free hp).1 (h.buffers i hi)
  have hold : ∀ t ∈ p.tickets, t < p.nextTicket := by
    intro t hl
    obtain ⟨j, hj, hjt⟩ := h.live t hl
    exact h.fresh j hj t hjt
  have hmsg : ∀ m ∈ p.inFlight, m.1 < p.nextTicket := by
    intro m hmem
    obtain ⟨hj, hjt, -⟩ := h.mail_ticket (t := m.1) (i := m.2) hmem
    exact h.fresh m.2 hj m.1 hjt
  have hsame : ∀ t < p.nextTicket, p'.asked t = p.asked t := by
    intro t hlt
    rw [hasked, Function.update_of_ne (Nat.ne_of_lt hlt)]
  have hmail := mail_request hreq hbusy hcomp
  refine h.change hi hdepth hb (fun j hj => ?_) (fun _ _ => Iff.rfl) (fun t _ hlt => ?_) hsame
    (by omega) (fun t htk => ?_) ?_ (fun t hl => ?_) ?_ h.held.1 (fun r hr => ?_)
    (fun c hc hres => ?_) (hfault.trans h.fault) (fun hm => by simp [hmode] at hm)
  · rw [hmail j, if_neg (Ne.symm hj)]
  · rw [htickets, List.mem_cons, or_iff_right (Nat.ne_of_lt hlt)]
  · obtain rfl : p.nextTicket = t := Option.some.inj (hbt.symm.trans htk)
    exact .inr ⟨rfl, by omega⟩
  · refine (ok_reading hphase).2 ⟨hdata, hh, p.nextTicket, hbt, ?_, ?_⟩
    · rw [htickets]
      exact List.mem_cons_self
    · rw [hmail i, if_pos rfl, hm]
      rfl
  · rw [htickets] at hl
    rcases List.mem_cons.1 hl with rfl | hl
    · exact .inr hbt
    · exact .inl ⟨hl, by rw [ht]; simp⟩
  · rw [htickets]
    exact List.nodup_cons.2 ⟨fun hl => lt_irrefl _ (hold _ hl), h.tickets⟩
  · rw [hreq, hbusy] at hr
    have hcase : r ∈ p.requests ++ p.busy ∨ r = ⟨p.nextTicket, i, x, data⟩ := by
      simp only [List.mem_append, List.mem_singleton] at hr ⊢
      tauto
    rcases hcase with hr | rfl
    · have hmem : (r.ticket, r.index) ∈ p.inFlight := by
        simp only [inFlight, Multiset.mem_add, Multiset.mem_coe, List.mem_map]
        rcases List.mem_append.1 hr with hr | hr
        · exact .inl (.inl ⟨r, hr, rfl⟩)
        · exact .inl (.inr ⟨r, hr, rfl⟩)
      rw [hsame _ (hmsg _ hmem)]
      exact h.requests r hr
    · rw [hasked]
      exact Function.update_self ..
  · rw [hcomp] at hc
    obtain ⟨y, hy, hex⟩ := h.completions c hc hres
    have hmem : (c.ticket, c.index) ∈ p.inFlight := by
      simp only [inFlight, Multiset.mem_add, Multiset.mem_coe, List.mem_map]
      exact .inr ⟨c, hc, rfl⟩
    exact ⟨y, (hsame _ (hmsg _ hmem)).trans hy, hex⟩

theorem Owned.submit (h : Owned files held p) (admission : WorkerAdmission) (x : Extent)
    (env : SubmitEnv) : Submitted files held p admission x (p.submit admission x env) := by
  unfold PreadPool.submit
  split
  · exact .error h rfl
  rename_i hmode
  have hmode : p.mode.isWorker = true := by simpa using hmode
  split
  · exact .error h rfl
  split
  · exact .error h rfl
  rcases env.ioFile with _ | e
  swap
  · exact .error h rfl
  obtain ⟨hq, hs⟩ := h.reap env.complete
  dsimp only
  generalize p.reapCompleted env.complete = q at hq hs
  split
  · exact .busy hq hs.tickets
  rename_i hfree
  rw [not_le] at hfree
  have hpos : ∃ i, (q.position fun b => b.phase = .free) = some i := by
    obtain ⟨i, hi, hp⟩ := List.countP_pos_iff.1 (Nat.zero_lt_of_lt hfree)
    exact position_isSome (List.mem_range.1 hi) hp
  obtain ⟨i, hpos⟩ := hpos
  obtain ⟨hi, hp⟩ := position_spec hpos
  have hp : (q.buffers i).phase = .free := by simpa using hp
  obtain ⟨ht, hd, hm, hh⟩ := (ok_free hp).1 (hq.buffers i hi)
  obtain ⟨data, hd⟩ := Option.isSome_iff_exists.1 hd
  simp only [hpos]
  split
  · exact .error hq hs.tickets
  simp only [hd]
  split
  · refine .ticket ?_ (by rw [← hs.tickets]) (Function.update_self ..) fun hspec => ?_
    · exact hq.send hi hp rfl rfl rfl rfl rfl rfl rfl rfl rfl rfl rfl rfl (by rw [← hmode, ← hs.mode]; rfl)
    · rw [hspec] at hfree
      obtain ⟨j, hj, hne, hf⟩ := exists_free_ne hfree i
      refine ⟨j, hj, ?_⟩
      simp only [PreadPool.setBuffer, Function.update_of_ne hne]
      simpa using hf
  · refine .busy ?_ hs.tickets
    exact hq.change hi rfl rfl (fun _ _ => rfl) (fun _ _ => Iff.rfl) (fun _ _ _ => Iff.rfl)
      (fun _ _ => rfl) (Nat.le_succ _) (fun t ht => nomatch ht)
      ((ok_free (by exact hp)).2 ⟨rfl, rfl, hm, hh⟩)
      (fun t hl => .inl ⟨hl, by rw [ht]; simp⟩) hq.tickets hq.held.1 hq.requests hq.completions
      hq.fault hq.mode

/-! ## Workers -/

theorem Owned.workerStep (h : Owned files held p) (a : WorkerAct) :
    Owned files held (p.workerStep files a) ∧ (p.workerStep files a).tickets = p.tickets := by
  -- a worker moves a message on, and touches no buffer of the owner's
  have hmove : ∀ p' : PreadPool, p'.depth = p.depth → p'.buffers = p.buffers →
      p'.nextTicket = p.nextTicket → p'.tickets = p.tickets → p'.asked = p.asked →
      p'.fault = p.fault → p'.mode = p.mode → p'.inFlight = p.inFlight →
      (∀ r ∈ p'.requests ++ p'.busy, r ∈ p.requests ++ p.busy) →
      (∀ c ∈ p'.completions, c ∈ p.completions ∨ (c.result = .ok () →
        ∃ x, p.asked c.ticket = some x ∧ files.Reads x c.data)) → Owned files held p' := by
    rintro ⟨⟩ rfl rfl rfl rfl rfl rfl rfl hin hr hc
    refine ⟨fun i hi => ?_, fun m hm => h.mail m (hin ▸ hm), h.distinct, h.fresh, h.live, h.tickets,
      h.held, fun r hr' => h.requests r (hr r hr'), fun c hc' hres => ?_, h.fault, h.mode⟩
    · rw [PreadPool.mail, hin]
      exact h.buffers i hi
    · rcases hc c hc' with hold | hnew
      · exact h.completions c hold hres
      · exact hnew hres
  cases a with
  | take =>
    unfold PreadPool.workerStep
    rcases hreq : p.requests with _ | ⟨r, rest⟩
    · exact ⟨h, rfl⟩
    · refine ⟨hmove _ rfl rfl rfl rfl rfl rfl rfl ?_ ?_ fun c hc => .inl hc, rfl⟩
      · simp only [inFlight, hreq, List.map_append, List.map_cons, List.map_nil, ← Multiset.coe_add,
          ← Multiset.cons_coe, ← Multiset.singleton_add]
        ac_rfl
      · intro r' hr'
        rw [hreq]
        simp only [List.mem_append, List.mem_cons, List.not_mem_nil, or_false] at hr' ⊢
        tauto
  | finish i io =>
    rcases hbusy : p.busy[i]? with _ | r
    · simp only [PreadPool.workerStep, hbusy]
      exact ⟨h, trivial⟩
    · have hr : r ∈ p.busy := List.mem_of_getElem? hbusy
      rcases hread : preadExactAt files r.extent r.data io with ⟨result, data⟩
      simp only [PreadPool.workerStep, hbusy, hread]
      refine ⟨hmove _ rfl rfl rfl rfl rfl rfl rfl ?_ ?_ fun c hc => ?_, trivial⟩
      · have hperm : List.Perm (r :: p.busy.eraseIdx i) p.busy := by
          obtain ⟨hlt, rfl⟩ := List.getElem?_eq_some_iff.1 hbusy
          exact List.getElem_cons_eraseIdx_perm hlt
        have hmap := Multiset.coe_eq_coe.2 (hperm.map fun r => (r.ticket, r.index))
        simp only [inFlight, ← hmap, List.map_append, List.map_cons, List.map_nil,
          ← Multiset.coe_add, ← Multiset.cons_coe, ← Multiset.singleton_add]
        ac_rfl
      · intro r' hr'
        rcases List.mem_append.1 hr' with hr' | hr'
        · exact List.mem_append.2 (.inl hr')
        · exact List.mem_append.2 (.inr (List.mem_of_mem_eraseIdx hr'))
      · rcases List.mem_append.1 hc with hc | hc
        · exact .inl hc
        · rw [List.mem_singleton.1 hc]
          refine .inr fun hres => ⟨r.extent, h.requests r (List.mem_append.2 (.inr hr)), ?_⟩
          have hres : result = .ok () := hres
          rw [hres] at hread
          exact preadExactAt_ok hread

/-- A new pool. -/
theorem new_owned (files : Files) (depth capacity : ℕ) (mode : SpillIoMode) :
    Owned files [] (new depth capacity mode) where
  buffers _ _ := (ok_free rfl).2 ⟨rfl, rfl, rfl, List.not_mem_nil⟩
  mail m hm := absurd hm (Multiset.notMem_zero m)
  distinct _ _ _ _ _ ht := nomatch ht
  fresh _ _ _ ht := nomatch ht
  live _ ht := absurd ht List.not_mem_nil
  tickets := List.nodup_nil
  held := ⟨List.nodup_nil, fun _ hi => absurd hi List.not_mem_nil⟩
  requests _ hr := absurd hr List.not_mem_nil
  completions _ hc := absurd hc List.not_mem_nil
  fault := rfl
  mode _ := rfl

end PreadPool

end Memra
