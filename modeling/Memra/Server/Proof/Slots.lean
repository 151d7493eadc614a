import Memra.Server.Slots
import Mathlib.Data.List.Perm.Basic

/-!
# Slot accounting over every interleaving

`SlotInv`: each lane counter is the number of live guards of the lane; each tenant's row is the
number of its guards between the two locked steps, and there is no row at zero. `step_inv`: every
step of every party keeps it. A refused request finds its tenant at its cap, which is positive
(`authenticateWith_ok`), so its row was there before.
-/

namespace Memra

open Lib

/-- Taking one element out of a list takes it out of every count. -/
theorem countP_eraseIdx {α : Type} (p : α → Bool) {l : List α} {i : ℕ} {a : α}
    (h : l[i]? = some a) : (l.eraseIdx i).countP p + (if p a then 1 else 0) = l.countP p := by
  obtain ⟨hi, rfl⟩ := List.getElem?_eq_some_iff.1 h
  rw [← (List.getElem_cons_eraseIdx_perm hi).countP_eq p, List.countP_cons]

namespace SlotSystem

/-- The guards of `t` between the locked step that counted them and the one that uncounts them. -/
def held (s : SlotSystem) (t : String) : ℕ :=
  (s.acquiring ++ s.live ++ s.releasing).countP fun g => g.tenant = t

/-- What the gauges say about the parties. -/
structure SlotInv (s : SlotSystem) : Prop where
  lanes : ∀ lane, s.gauges.counts lane = s.live.countP fun g => g.lane = lane
  rows : ∀ t, s.gauges.tenants.lookup t = if s.held t = 0 then none else some (s.held t)
  ok : s.gauges.underflow = false
  caps : ∀ w ∈ s.waiting, w.1.rateLimit ≠ some 0

theorem slotInv_init (ring : Option Keyring) : SlotInv { ring } :=
  ⟨fun _ => rfl, fun t => by simp [held, Gauges.new], rfl, by simp⟩

theorem bindingCap_ne_zero {laneCap : Lane → ℕ} {lane : Lane} {ctx : TenantCtx}
    (h : ctx.rateLimit ≠ some 0) : bindingCap laneCap lane ctx ≠ some 0 := by
  unfold bindingCap
  intro hf
  exact h (Option.filter_eq_some_iff.1 hf).1

/-- **The locked step of an acquire** on a tenant with `n` guards: refused at the cap with the map
as it was, else one more guard. -/
theorem lockAcquire_spec {g : Gauges} {t : String} {cap : Option ℕ} {n : ℕ}
    (hrow : g.tenants.lookup t = if n = 0 then none else some n) (hcap : cap ≠ some 0) :
    (∃ c, cap = some c ∧ c ≤ n ∧ g.lockAcquire t cap = (.error n, g)) ∨
    ((∀ c, cap = some c → n + 1 ≤ c) ∧ ∃ tenants,
      g.lockAcquire t cap = (.ok (n + 1), { g with tenants }) ∧
      ∀ u, tenants.lookup u = if u = t then some (n + 1) else g.tenants.lookup u) := by
  have hins : ∀ (m : AList fun _ : String => ℕ) u,
      (m.insert t (n + 1)).lookup u = if u = t then some (n + 1) else m.lookup u := by
    intro m u
    by_cases hu : u = t
    · rw [if_pos hu, hu, AList.lookup_insert]
    · rw [if_neg hu, AList.lookup_insert_ne hu]
  by_cases hle : cap.any (n ≥ ·) = true
  · left
    obtain ⟨c, rfl, hc⟩ : ∃ c, cap = some c ∧ c ≤ n := by
      cases cap with
      | none => cases hle
      | some c => exact ⟨c, rfl, by simpa using hle⟩
    have hn : n ≠ 0 := by
      rintro rfl
      exact hcap (congrArg some (Nat.le_zero.1 hc))
    rw [if_neg hn] at hrow
    refine ⟨c, rfl, hc, ?_⟩
    simp [Gauges.lockAcquire, hrow, hc]
  · right
    refine ⟨?_, ?_⟩
    · rintro c rfl
      have : ¬ c ≤ n := by simpa using hle
      omega
    by_cases hn : n = 0
    · rw [if_pos hn] at hrow
      refine ⟨(g.tenants.insert t 0).insert t (n + 1), ?_, fun u => ?_⟩
      · have hpass : cap.any (0 ≥ ·) = false := by simpa [hn] using hle
        simp only [Gauges.lockAcquire, hrow, Option.isSome_none, Bool.false_eq_true, if_false,
          AList.lookup_insert, Option.getD_some, hpass, hn]
      · rw [hins]
        by_cases hu : u = t
        · rw [if_pos hu, if_pos hu]
        · rw [if_neg hu, if_neg hu, AList.lookup_insert_ne hu]
    · rw [if_neg hn] at hrow
      refine ⟨g.tenants.insert t (n + 1), ?_, hins _⟩
      simp only [Bool.not_eq_true] at hle
      simp [Gauges.lockAcquire, hrow, hle]

/-- The locked step of a drop on a tenant with `n + 1` guards: one guard less. -/
theorem lockRelease_spec {g : Gauges} {t : String} {n : ℕ}
    (hrow : g.tenants.lookup t = some (n + 1)) :
    ∃ tenants, g.lockRelease t = { g with tenants } ∧
      ∀ u, tenants.lookup u =
        if u = t then (if n = 0 then none else some n) else g.tenants.lookup u := by
  by_cases hn : n = 0
  · refine ⟨g.tenants.erase t, by simp [Gauges.lockRelease, hrow, hn], fun u => ?_⟩
    by_cases hu : u = t
    · rw [if_pos hu, if_pos hn, hu, AList.lookup_erase]
    · rw [if_neg hu, AList.lookup_erase_ne hu]
  · refine ⟨g.tenants.insert t n, by simp [Gauges.lockRelease, hrow, hn], fun u => ?_⟩
    by_cases hu : u = t
    · rw [if_pos hu, if_neg hn, hu, AList.lookup_insert]
    · rw [if_neg hu, AList.lookup_insert_ne hu]

variable {cfg : SlotConfig} {s : SlotSystem}

theorem SlotInv.reload (h : SlotInv s) (entries : List KeyEntry) : SlotInv (s.reload entries) := by
  unfold SlotSystem.reload
  split
  · exact ⟨h.lanes, h.rows, h.ok, h.caps⟩
  · exact h

theorem SlotInv.authenticate (h : SlotInv s) (bearer : Option String) (lane : Lane) :
    SlotInv (s.authenticate cfg bearer lane) := by
  unfold SlotSystem.authenticate
  split
  · rename_i ctx hctx
    refine ⟨h.lanes, h.rows, h.ok, fun w hw => ?_⟩
    rcases List.mem_append.1 hw with hw | hw
    · exact h.caps w hw
    · obtain rfl := List.mem_singleton.1 hw
      exact (authenticateWith_ok hctx).2
  · exact h

/-- What the locked step of an acquire does to the system. -/
theorem SlotInv.lockAcquire_cases (cfg : SlotConfig) (h : SlotInv s) {i : ℕ} {ctx : TenantCtx} {lane : Lane}
    (hi : s.waiting[i]? = some (ctx, lane)) :
    (∃ c, bindingCap cfg.laneCap lane ctx = some c ∧ c ≤ s.held ctx.tenant ∧
      s.gauges.lockAcquire ctx.tenant (bindingCap cfg.laneCap lane ctx) =
        (.error (s.held ctx.tenant), s.gauges)) ∨
    ((∀ c, bindingCap cfg.laneCap lane ctx = some c → s.held ctx.tenant + 1 ≤ c) ∧ ∃ tenants,
      s.gauges.lockAcquire ctx.tenant (bindingCap cfg.laneCap lane ctx) =
        (.ok (s.held ctx.tenant + 1), { s.gauges with tenants }) ∧
      ∀ u, tenants.lookup u =
        if u = ctx.tenant then some (s.held ctx.tenant + 1) else s.gauges.tenants.lookup u) :=
  lockAcquire_spec (h.rows ctx.tenant)
    (bindingCap_ne_zero (h.caps _ (List.mem_of_getElem? hi)))

theorem SlotInv.lockAcquire (h : SlotInv s) (i : ℕ) : SlotInv (s.lockAcquire cfg i) := by
  unfold SlotSystem.lockAcquire
  split
  · exact h
  · rename_i ctx lane hi
    have hcaps : ∀ w ∈ s.waiting.eraseIdx i, w.1.rateLimit ≠ some 0 :=
      fun w hw => h.caps w (List.mem_of_mem_eraseIdx hw)
    rcases h.lockAcquire_cases cfg hi with ⟨c, -, -, heq⟩ | ⟨-, tenants, heq, hlook⟩
    · simp only [heq]
      exact ⟨h.lanes, h.rows, h.ok, hcaps⟩
    · simp only [heq]
      refine ⟨h.lanes, fun u => ?_, h.ok, hcaps⟩
      show tenants.lookup u = _
      have hheld : held
          { s with
            gauges := { s.gauges with tenants }
            waiting := s.waiting.eraseIdx i
            acquiring := s.acquiring ++ [{ lane, tenant := ctx.tenant }] } u =
          s.held u + if ctx.tenant = u then 1 else 0 := by
        simp only [held, List.countP_append, List.countP_cons, List.countP_nil, decide_eq_true_eq]
        omega
      rw [hlook, hheld]
      by_cases hu : u = ctx.tenant
      · rw [if_pos hu, hu, if_pos rfl, if_neg (by omega)]
      · rw [if_neg hu, if_neg (Ne.symm hu), h.rows u, Nat.add_zero]

theorem SlotInv.addLane (h : SlotInv s) (i : ℕ) : SlotInv (s.addLane i) := by
  unfold SlotSystem.addLane
  split
  · exact h
  · rename_i g hi
    refine ⟨fun lane => ?_, fun u => ?_, h.ok, h.caps⟩
    · show Function.update s.gauges.counts g.lane (s.gauges.counts g.lane + 1) lane = _
      rw [List.countP_append, List.countP_singleton]
      by_cases hl : lane = g.lane
      · rw [hl, Function.update_self, h.lanes]
        simp
      · rw [Function.update_of_ne hl, h.lanes]
        simp [Ne.symm hl]
    · refine (h.rows u).trans ?_
      have hheld : held
          { s with
            gauges := (s.gauges.addLane g.lane).2
            acquiring := s.acquiring.eraseIdx i
            live := s.live ++ [g] } u = s.held u := by
        have := countP_eraseIdx (fun g => decide (g.tenant = u)) hi
        simp only [held, List.countP_append, List.countP_singleton]
        omega
      rw [hheld]

theorem SlotInv.subLane (h : SlotInv s) (i : ℕ) : SlotInv (s.subLane i) := by
  unfold SlotSystem.subLane
  split
  · exact h
  · rename_i g hi
    have hcount := fun lane => countP_eraseIdx (fun g => decide (g.lane = lane)) hi
    have hpos : s.gauges.counts g.lane ≠ 0 := by
      have := hcount g.lane
      rw [if_pos (decide_eq_true rfl)] at this
      rw [h.lanes]
      omega
    have hgauges : s.gauges.subLane g.lane = { s.gauges with
        counts := Function.update s.gauges.counts g.lane (s.gauges.counts g.lane - 1) } :=
      if_neg hpos
    rw [hgauges]
    refine ⟨fun lane => ?_, fun u => ?_, h.ok, h.caps⟩
    · show Function.update s.gauges.counts g.lane (s.gauges.counts g.lane - 1) lane =
        (s.live.eraseIdx i).countP fun g => g.lane = lane
      have hc := hcount lane
      by_cases hl : lane = g.lane
      · rw [hl] at hc ⊢
        rw [if_pos (decide_eq_true rfl)] at hc
        rw [Function.update_self, h.lanes]
        omega
      · rw [if_neg (by simpa using Ne.symm hl)] at hc
        rw [Function.update_of_ne hl, h.lanes]
        omega
    · refine (h.rows u).trans ?_
      have hheld : held
          { s with
            gauges := { s.gauges with
              counts := Function.update s.gauges.counts g.lane (s.gauges.counts g.lane - 1) }
            live := s.live.eraseIdx i
            releasing := s.releasing ++ [g] } u = s.held u := by
        have := countP_eraseIdx (fun g => decide (g.tenant = u)) hi
        simp only [held, List.countP_append, List.countP_singleton]
        omega
      rw [hheld]

theorem SlotInv.lockRelease (h : SlotInv s) (i : ℕ) : SlotInv (s.lockRelease i) := by
  unfold SlotSystem.lockRelease
  split
  · exact h
  · rename_i g hi
    have hheld : ∀ gauges u, s.held u =
        held { s with gauges, releasing := s.releasing.eraseIdx i } u +
          if g.tenant = u then 1 else 0 := by
      intro gauges u
      have := countP_eraseIdx (fun g => decide (g.tenant = u)) hi
      simp only [decide_eq_true_eq] at this
      simp only [held, List.countP_append]
      omega
    obtain ⟨n, hn⟩ : ∃ n, s.held g.tenant = n + 1 := by
      have := hheld s.gauges g.tenant
      rw [if_pos rfl] at this
      exact ⟨_, this⟩
    have hrow := h.rows g.tenant
    rw [hn, if_neg (by omega)] at hrow
    obtain ⟨tenants, heq, hlook⟩ := lockRelease_spec hrow
    rw [heq]
    refine ⟨h.lanes, fun u => ?_, h.ok, h.caps⟩
    have hu := hheld { s.gauges with tenants } u
    refine (hlook u).trans ?_
    by_cases hgu : u = g.tenant
    · rw [hgu] at hu ⊢
      rw [if_pos rfl] at hu ⊢
      rw [← Nat.add_right_cancel (hn.symm.trans hu)]
    · rw [if_neg (Ne.symm hgu), Nat.add_zero] at hu
      rw [if_neg hgu, h.rows u, hu]

theorem SlotInv.step (h : SlotInv s) (a : PermitAct) : SlotInv (s.step cfg a) := by
  cases a with
  | reload entries => exact h.reload entries
  | authenticate bearer lane => exact h.authenticate bearer lane
  | lockAcquire i => exact h.lockAcquire i
  | addLane i => exact h.addLane i
  | subLane i => exact h.subLane i
  | lockRelease i => exact h.lockRelease i

theorem run_inv (cfg : SlotConfig) (ring : Option Keyring) (acts : List PermitAct) :
    SlotInv (run cfg ring acts) := by
  have h : ∀ (l : List PermitAct) (s : SlotSystem), SlotInv s →
      SlotInv (l.foldl (SlotSystem.step cfg) s) := by
    intro l
    induction l with
    | nil => exact fun _ h => h
    | cons a l ih => exact fun s h => ih _ (h.step a)
  exact h acts _ (slotInv_init ring)

/-- The accounting of one state. -/
structure Accounted (cfg : SlotConfig) (s : SlotSystem) : Prop where
  /-- At a quiescent point the gauges count the live guards, and the rows are the tenants with one. -/
  quiescent : s.Quiescent →
    (∀ lane, s.gauges.counts lane = s.live.countP fun g => g.lane = lane) ∧
    (∀ t, (s.gauges.tenants.lookup t).getD 0 = s.live.countP fun g => g.tenant = t) ∧
    (∀ t, (s.gauges.tenants.lookup t).isSome ↔ ∃ g ∈ s.live, g.tenant = t)
  no_underflow : s.gauges.underflow = false
  /-- An acquire that passes leaves its tenant within the cap it was given. -/
  within : ∀ (i : ℕ) (ctx : TenantCtx) (lane : Lane) (n : ℕ), s.waiting[i]? = some (ctx, lane) →
    (s.gauges.lockAcquire ctx.tenant (bindingCap cfg.laneCap lane ctx)).1 = .ok n →
    n = s.held ctx.tenant + 1 ∧
      ∀ cap, bindingCap cfg.laneCap lane ctx = some cap → s.held ctx.tenant + 1 ≤ cap
  /-- A refused acquire leaves the gauges as they were. -/
  refusal : ∀ (i : ℕ) (ctx : TenantCtx) (lane : Lane) (n : ℕ), s.waiting[i]? = some (ctx, lane) →
    (s.gauges.lockAcquire ctx.tenant (bindingCap cfg.laneCap lane ctx)).1 = .error n →
    (s.step cfg (.lockAcquire i)).gauges = s.gauges

theorem held_of_quiescent (h : s.Quiescent) (t : String) :
    s.held t = s.live.countP fun g => g.tenant = t := by
  simp [held, h.1, h.2]

/-- **Slot accounting** in every state of every interleaving of acquires, drops, reloads of the keyring
and new requests. -/
theorem run_accounted (cfg : SlotConfig) (ring : Option Keyring) (acts : List PermitAct) :
    Accounted cfg (run cfg ring acts) := by
  have h := run_inv cfg ring acts
  refine ⟨fun hq => ⟨h.lanes, fun t => ?_, fun t => ?_⟩, h.ok, ?_, ?_⟩
  · rw [h.rows t, held_of_quiescent hq]
    split
    · rename_i h0
      rw [h0]
      rfl
    · rfl
  · rw [h.rows t, held_of_quiescent hq]
    constructor
    · intro hs
      have hpos : 0 < (run cfg ring acts).live.countP fun g => decide (g.tenant = t) := by
        by_contra h0
        rw [if_pos (by omega)] at hs
        cases hs
      obtain ⟨g, hg, hgt⟩ := List.countP_pos_iff.1 hpos
      exact ⟨g, hg, of_decide_eq_true hgt⟩
    · rintro ⟨g, hg, hgt⟩
      have hpos := List.countP_pos_iff (p := fun g : InflightGuard => decide (g.tenant = t)) |>.2
        ⟨g, hg, decide_eq_true hgt⟩
      rw [if_neg (by omega)]
      rfl
  · intro i ctx lane n hi hok
    rcases h.lockAcquire_cases cfg hi with ⟨c, -, -, heq⟩ | ⟨hcap, tenants, heq, -⟩
    · rw [heq] at hok
      cases hok
    · rw [heq] at hok
      exact ⟨(Except.ok.inj hok).symm, hcap⟩
  · intro i ctx lane n hi herr
    rcases h.lockAcquire_cases cfg hi with ⟨c, -, -, heq⟩ | ⟨-, tenants, heq, -⟩
    · simp only [SlotSystem.step, SlotSystem.lockAcquire, hi, heq]
    · rw [heq] at herr
      cases herr

end SlotSystem

end Memra
