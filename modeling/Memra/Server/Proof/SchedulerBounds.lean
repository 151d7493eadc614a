import Memra.Server.Proof.SchedulerTracked
import Memra.Server.Proof.PrefixCacheRun
import Mathlib.Data.List.Chain

/-!
# What a run may hold

`run_bounded`: over every run, faults or not, no pool of parked sessions outgrows `reusePool`, and the prefix cache
keeps its index and stays within its byte budget. `chunksOf_grouped`: a batched step takes the ready rows in order,
never of two models and never beyond the width of the model.
-/

namespace Memra

open Lib

variable {σ η γ : Type}

/-! ## The prefix cache -/

/-- The prefix cache within its budget: the index is one of the entries, the byte count is theirs. -/
structure PrefixCache.Fits {κ π : Type} [DecidableEq κ] (budget : ℕ) (c : PrefixCache κ π) : Prop where
  rep : c.Rep
  bytes : c.totalBytes = c.storedBytes
  budget : c.totalBytes ≤ budget

theorem PrefixCache.Rep.congr {κ π : Type} [DecidableEq κ] {c c' : PrefixCache κ π} (h : c.Rep)
    (he : c'.entries = c.entries) (hl : c'.lru = c.lru) (hn : c'.nextId = c.nextId) : c'.Rep := by
  have hat : c'.entryAt = c.entryAt := by
    funext s
    rw [entryAt, entryAt, pool, pool, he]
  refine ⟨?_, ?_, ?_, ?_, ?_⟩
  · rw [hat, hl]
    exact h.index
  · rw [hat, hn]
    exact h.fresh
  · rw [hat]
    exact h.ids
  · rw [he]
    exact h.pools
  · rw [hat]
    exact h.keys

theorem PrefixCache.touch_totalBytes {κ π : Type} [DecidableEq κ] (c : PrefixCache κ π) (key : κ) (i now : ℕ) :
    (c.touch key i now).totalBytes = c.totalBytes := by
  unfold touch
  split
  · rfl
  · split <;> rfl

theorem PrefixCache.Fits.closed {κ π : Type} [DecidableEq κ] (budget : ℕ) :
    Closed budget (fun (_ : κ) _ (_ : π) => True) (Fits budget) := by
  refine ⟨fun {c c'} h he hl hn ht => ?_, fun {c} key i now h => ?_, fun {c key e} _ h => ?_, fun c => ?_⟩
  · refine ⟨h.rep.congr he hl hn, ?_, ht ▸ h.budget⟩
    rw [ht, h.bytes, storedBytes, storedBytes, he]
  · refine ⟨h.rep.touch key i now, ?_, ?_⟩
    · rw [touch_totalBytes, touch_storedBytes, h.bytes]
    · rw [touch_totalBytes]
      exact h.budget
  · obtain ⟨⟨hskip, hstore⟩, hrep, hbytes⟩ := h.rep.insertWithBudget (h.bytes.trans (Nat.add_zero _).symm) key e
      budget
    refine ⟨hrep, hbytes, ?_⟩
    by_cases hs : c.Skips key e budget
    · rw [hskip hs]
      exact h.budget
    · exact (hstore hs).1.trans (by simp)
  · exact ⟨.evictAll c, rfl, Nat.zero_le _⟩

/-! ## The visits -/

theorem RowVisit.px_same {H : Host σ η γ} {cfg : SchedConfig} {hung : ℕ → ℕ → Bool} {f : Visit σ η γ}
    (h : RowVisit H cfg hung f) (sh : Shared σ) (s : Session σ η γ) : (f sh s).1.px = sh.px := by
  cases h with
  | decode i env =>
    unfold Visit.decode
    split
    · split <;> rfl
    · rfl
  | batchRow tok => rfl
  | batchFail spoil err => rfl

section

variable {H : Host σ η γ} {cfg : SchedConfig} {hung : ℕ → ℕ → Bool}
  {P : PrefixCache PoolKey (Snapshot σ) → Prop}
  (hP : PrefixCache.Closed cfg.prefixCacheBytes (fun _ _ _ => True) P)

include hP

/-- What holds of the prefix cache whatever is filed, every visit keeps. -/
theorem TickVisit.px_keeps {f : Visit σ η γ} {Q : Session σ η γ → Prop} (h : TickVisit H cfg hung f Q)
    {sh : Shared σ} {s : Session σ η γ} (hpx : P sh.px) : P (f sh s).1.px := by
  cases h with
  | abort gone =>
    unfold Visit.abort
    split <;> exact hpx
  | legacy env hb => exact hpx
  | degrade env => exact hpx
  | graph env hb =>
    rw [(Visit.graph_same env sh s).2]
    exact hpx
  | demote nLive env => exact hpx
  | burst env => exact hpx
  | primeRow seed env =>
    cases seed with
    | true => exact Prefill.maybePrefixSeed_keeps hP hpx fun _ _ => trivial
    | false => exact hpx
  | tear spoil => exact hpx
  | prefill p budget env =>
    unfold Visit.guarded
    split
    · rw [Visit.prefill_px]
      exact prefillTick_keeps hP hpx budget (fun _ _ _ => trivial) fun _ _ _ _ _ _ => trivial
    · exact hpx
  | eager env =>
    unfold Visit.guarded
    split
    · rw [(Visit.eager_same env sh s).2]
      exact hpx
    · exact hpx

theorem phases_px {B : TickBoard σ η γ} (env : World σ η) (h : P B.shared.px) :
    P (Scheduler.phases H cfg hung env B).shared.px := by
  have hstep : ∀ {B' : TickBoard σ η γ} {f : Visit σ η γ} {i : ℕ},
      (∀ s, P B'.shared.px → P (f B'.shared s).1.px) → P B'.shared.px → P (B'.visit f i).shared.px :=
    fun hf hB' => Board.visit_shared (P := fun sh : Shared σ => P sh.px) hB' fun s _ => hf s hB'
  refine Scheduler.phases_induction (P := fun B' => P B'.shared.px)
    (fun i f Q hf B' hB' _ => hstep (fun s => hf.px_keeps hP) hB') (fun B' hB' => ?_)
    (fun B' sh hst hB' => hst.px ▸ hB') h
  exact Scheduler.decodePhase_keeps (P := fun B' => P B'.shared.px)
    (fun i f hrow B' hB' => hstep (fun s hpx => (hrow.px_same B'.shared s).symm ▸ hpx) hB')
    (fun B' sh hst hB' => hst.px ▸ hB') hB'

end

/-! ## The pools -/

/-- No pool outgrows `reusePool`, and the prefix cache fits. -/
structure Pools.Bounded (cfg : Config) (p : Pools σ η) : Prop where
  reuse : ∀ key, (p.reuse key).length ≤ cfg.reusePool
  spec : ∀ key, (p.specReuse key).length ≤ cfg.reusePool
  px : p.px.Fits cfg.prefixCacheBytes

theorem Pools.bounded_empty (cfg : Config) : Pools.Bounded cfg ({} : Pools σ η) :=
  ⟨fun _ => Nat.zero_le _, fun _ => Nat.zero_le _, .empty, rfl, Nat.zero_le _⟩

theorem Pools.Bounded.shrink {cfg : Config} {p p' : Pools σ η} (h : p.Bounded cfg)
    (hs : Pools.Shrinks (PrefixCache.Fits cfg.prefixCacheBytes) p p') : p'.Bounded cfg :=
  ⟨fun key => (hs.reuse key).length_le.trans (h.reuse key), fun key => (hs.spec key).length_le.trans (h.spec key),
    hs.px h.px⟩

theorem length_update_poolPush {α : Type} {cap : ℕ} {pools : PoolKey → List α} (h : ∀ key, (pools key).length ≤ cap)
    (key : PoolKey) (e : α) (key' : PoolKey) :
    (Function.update pools key (poolPush cap (pools key) e) key').length ≤ cap := by
  by_cases hk : key' = key
  · subst hk
    rw [Function.update_self]
    exact length_poolPush_le cap _ e
  · rw [Function.update_of_ne hk]
    exact h key'

theorem parkSession_bounded {H : Host σ η γ} {cfg : Config} {env : VisitEnv σ η} {s : Session σ η γ}
    {p : Pools σ η} (h : p.Bounded cfg) : (parkSession H cfg env s p).Bounded cfg := by
  unfold parkSession
  split
  · split
    · exact h
    · exact ⟨h.reuse, length_update_poolPush h.spec _ _, h.px⟩
  · split
    · exact h
    · exact ⟨length_update_poolPush h.reuse _ _, h.spec, h.px⟩

/-! ## A run -/

namespace Scheduler

variable {H : Host σ η γ} {cfg : SchedConfig} {hung : ℕ → ℕ → Bool} {w : Scheduler σ η γ}

theorem commands_pools (cmds : List Request) (w : Scheduler σ η γ) :
    (cmds.foldl (handleCmd H hung) w).pools = w.pools := by
  induction cmds generalizing w with
  | nil => rfl
  | cons req cmds ih =>
    rw [List.foldl_cons, ih]
    unfold handleCmd
    split <;> rfl

theorem admitOne_bounded {env : AdmitEnv} {req : Request} (h : w.pools.Bounded cfg.toConfig) :
    (w.admitOne H cfg hung env req).1.pools.Bounded cfg.toConfig := by
  have hadmit : (admitRequest H cfg.toConfig env w.pools w.active.length req).2.Bounded cfg.toConfig :=
    h.shrink (admitRequest_shrinks (PrefixCache.Fits.closed _))
  unfold Scheduler.admitOne
  split
  · exact h
  · split
    · split <;> exact h
    · simp only
      split
      · exact h
      · split
        · exact h
        · split
          all_goals next hq => exact (congrArg (fun r => Pools.Bounded cfg.toConfig r.2) hq).mp hadmit

theorem admitAll_bounded {admits : ℕ → AdmitEnv} : ∀ (reqs : List Request) (i : ℕ) {w : Scheduler σ η γ},
    w.pools.Bounded cfg.toConfig → (w.admitAll H cfg hung admits i reqs).1.pools.Bounded cfg.toConfig
  | [], _, _, h => h
  | _ :: reqs, i, _, h => admitAll_bounded reqs (i + 1) (admitOne_bounded h)

theorem retireSlots_bounded (env : World σ η) : ∀ (slots : List (Berth (Session σ η γ) Exit)) (i : ℕ)
    {w : Scheduler σ η γ}, w.pools.Bounded cfg.toConfig →
    (retireSlots H cfg env slots i w).pools.Bounded cfg.toConfig
  | [], _, _, h => h
  | x :: xs, i, w, h => by
    have h' := retireSlots_bounded env xs (i + 1) h
    unfold retireSlots
    simp only
    split
    · exact h'
    · exact parkSession_bounded h'

theorem tick_bounded {env : World σ η} (h : w.pools.Bounded cfg.toConfig) :
    (w.tick H cfg hung env).pools.Bounded cfg.toConfig := by
  have hcmds : (env.cmds.foldl (handleCmd H hung) w).pools.Bounded cfg.toConfig := by
    rwa [commands_pools]
  have hopened : (w.opened H cfg hung env).pools.Bounded cfg.toConfig := admitAll_bounded _ 0 hcmds
  have hpx : (w.turned H cfg hung env).shared.px.Fits cfg.prefixCacheBytes :=
    phases_px (PrefixCache.Fits.closed _) env hopened.px
  exact retireSlots_bounded env _ 0 ⟨hopened.reuse, hopened.spec, hpx⟩

end Scheduler

/-- **What a run may hold.** Over every run no pool of parked sessions outgrows `reusePool`, and the prefix cache's
index is that of its entries, and their bytes are within the budget. -/
theorem run_bounded (H : Host σ η γ) (cfg : SchedConfig) (hung : ℕ → ℕ → Bool) (envs : List (World σ η)) :
    (({} : Scheduler σ η γ).run H cfg hung envs).pools.Bounded cfg.toConfig := by
  suffices ∀ w : Scheduler σ η γ, w.pools.Bounded cfg.toConfig →
      (w.run H cfg hung envs).pools.Bounded cfg.toConfig from this {} (Pools.bounded_empty _)
  induction envs with
  | nil => exact fun w h => h
  | cons env envs ih => exact fun w h => ih _ (Scheduler.tick_bounded h)

/-! ## The chunks of batched decode -/

/-- Chunks of rows: none is empty, none is of two models or wider than its model allows, and none is cut before a
row that it could have taken. -/
structure Grouped (model : ℕ → Option String) (cap : ℕ → ℕ) (chunks : List (List (ℕ × Tok))) : Prop where
  nonempty : ∀ c ∈ chunks, c ≠ []
  uniform : ∀ c ∈ chunks, ∀ r ∈ c, ∀ r' ∈ c, model r.1 = model r'.1
  width : ∀ c ∈ chunks, ∀ r ∈ c, c.length ≤ max 1 (cap r.1)
  full : chunks.IsChain fun c d => ∀ r ∈ d.head?, cap r.1 ≤ c.length ∨ ∀ r' ∈ c, model r'.1 ≠ model r.1

section

variable {model : ℕ → Option String} {cap : ℕ → ℕ} {chunks : List (List (ℕ × Tok))} {c : List (ℕ × Tok)}

theorem Grouped.nil : Grouped model cap [] :=
  ⟨fun c hc => (by cases hc), fun c hc => (by cases hc), fun c hc => (by cases hc), List.isChain_nil⟩

/-- The chunks before the last. -/
theorem Grouped.init (h : Grouped model cap (chunks ++ [c])) : Grouped model cap chunks where
  nonempty d hd := h.nonempty d (List.mem_append_left _ hd)
  uniform d hd := h.uniform d (List.mem_append_left _ hd)
  width d hd := h.width d (List.mem_append_left _ hd)
  full := (List.isChain_append.1 h.full).1

/-- One chunk more. -/
theorem Grouped.concat (h : Grouped model cap chunks) (hne : c ≠ [])
    (huniform : ∀ r ∈ c, ∀ r' ∈ c, model r.1 = model r'.1) (hwidth : ∀ r ∈ c, c.length ≤ max 1 (cap r.1))
    (hfull : ∀ d ∈ chunks.getLast?, ∀ r ∈ c.head?, cap r.1 ≤ d.length ∨ ∀ r' ∈ d, model r'.1 ≠ model r.1) :
    Grouped model cap (chunks ++ [c]) := by
  have hmem : ∀ d ∈ chunks ++ [c], d ∈ chunks ∨ d = c := fun d hd =>
    (List.mem_append.1 hd).imp_right List.mem_singleton.1
  refine ⟨fun d hd => ?_, fun d hd => ?_, fun d hd => ?_, ?_⟩
  · rcases hmem d hd with hd | rfl
    · exact h.nonempty d hd
    · exact hne
  · rcases hmem d hd with hd | rfl
    · exact h.uniform d hd
    · exact huniform
  · rcases hmem d hd with hd | rfl
    · exact h.width d hd
    · exact hwidth
  · refine List.isChain_append.2 ⟨h.full, List.isChain_singleton _, fun d hd e he => ?_⟩
    obtain rfl : c = e := Option.some.inj he
    exact hfull d hd

/-- A chunk of one row. -/
theorem Grouped.single (h : Grouped model cap chunks) (row : ℕ × Tok)
    (hfull : ∀ d ∈ chunks.getLast?, cap row.1 ≤ d.length ∨ ∀ r' ∈ d, model r'.1 ≠ model row.1) :
    Grouped model cap (chunks ++ [[row]]) := by
  refine h.concat (by simp) (fun r hr r' hr' => ?_) (fun r _ => Nat.le_max_left _ _) fun d hd r hr => ?_
  · rw [List.mem_singleton.1 hr, List.mem_singleton.1 hr']
  · obtain rfl : row = r := Option.some.inj hr
    exact hfull d hd

/-- One row more in the last chunk, which has room for it. -/
theorem Grouped.extend (h : Grouped model cap (chunks ++ [c])) (hcap : ∀ i j, model i = model j → cap i = cap j)
    {row : ℕ × Tok} (hroom : c.length < cap row.1) (hmodel : ∀ r ∈ c, model r.1 = model row.1) :
    Grouped model cap (chunks ++ [c ++ [row]]) := by
  have hrow : ∀ r ∈ c ++ [row], model r.1 = model row.1 := by
    intro r hr
    rcases List.mem_append.1 hr with hr | hr
    · exact hmodel r hr
    · rw [List.mem_singleton.1 hr]
  refine h.init.concat (by simp) (fun r hr r' hr' => (hrow r hr).trans (hrow r' hr').symm) (fun r hr => ?_)
    fun d hd r hr => ?_
  · rw [hcap _ _ (hrow r hr), List.length_append]
    exact (Nat.succ_le_of_lt hroom).trans (Nat.le_max_right _ _)
  · have hhead : (c ++ [row]).head? = c.head? := List.head?_append_of_ne_nil c (h.nonempty c (by simp))
    rw [hhead] at hr
    exact (List.isChain_append.1 h.full).2.2 d hd c rfl r hr

/-- One more row. -/
theorem Grouped.row (h : Grouped model cap chunks) (hcap : ∀ i j, model i = model j → cap i = cap j)
    (row : ℕ × Tok) : Grouped model cap (Scheduler.groupRow model cap chunks row) := by
  unfold Scheduler.groupRow
  split
  · next c hc =>
    obtain ⟨cs, rfl⟩ := List.getLast?_eq_some_iff.1 hc
    have hmem : c ∈ cs ++ [c] := by simp
    obtain ⟨first, rest, rfl⟩ := List.exists_cons_of_ne_nil (h.nonempty c hmem)
    -- the first row of a chunk stands for the model of them all
    have hsame : ∀ r ∈ first :: rest, model r.1 = model first.1 := fun r hr =>
      h.uniform _ hmem r hr first (List.mem_cons_self ..)
    split
    · next hfits =>
      rw [List.dropLast_concat]
      exact h.extend hcap hfits.1 fun r hr => (hsame r hr).trans hfits.2
    · next hfits =>
      refine h.single row fun d hd => ?_
      obtain rfl : first :: rest = d := Option.some.inj (hc.symm.trans hd)
      by_cases hroom : cap row.1 ≤ (first :: rest).length
      · exact .inl hroom
      · exact .inr fun r' hr' heq => hfits ⟨Nat.lt_of_not_le hroom, (hsame r' hr').symm.trans heq⟩
  · next hc =>
    obtain rfl := List.getLast?_eq_none_iff.1 hc
    exact Grouped.nil.single row fun d hd => by cases hd

theorem groupChunks_grouped (hcap : ∀ i j, model i = model j → cap i = cap j) (ready : List (ℕ × Tok)) :
    Grouped model cap (Scheduler.groupChunks model cap ready) := by
  have hfold : ∀ (rows : List (ℕ × Tok)) (chunks : List (List (ℕ × Tok))), Grouped model cap chunks →
      Grouped model cap (rows.foldl (Scheduler.groupRow model cap) chunks) := by
    intro rows
    induction rows with
    | nil => exact fun chunks h => h
    | cons row rows ih => exact fun chunks h => ih _ (h.row hcap row)
  exact hfold ready [] .nil

end

/-- **The chunks of batched decode** are the ready rows in order, cut only where the model changes or its width is
reached. -/
theorem chunksOf_grouped (H : Host σ η γ) (B : TickBoard σ η γ) :
    (Scheduler.chunksOf H B).flatten = B.shared.ready ∧
      Grouped (fun i => (B.running? i).map (·.model))
        (fun i => ((B.running? i).map fun s => (H.loaded s.model).chunkCap).getD 8) (Scheduler.chunksOf H B) := by
  refine ⟨groupChunks_flatten _ _ _, ?_⟩
  have hcap : ∀ i j, (B.running? i).map (·.model) = (B.running? j).map (·.model) →
      ((B.running? i).map fun s => (H.loaded s.model).chunkCap).getD 8 =
        ((B.running? j).map fun s => (H.loaded s.model).chunkCap).getD 8 := by
    intro i j hij
    have hwidth : ∀ k, ((B.running? k).map fun s => (H.loaded s.model).chunkCap) =
        ((B.running? k).map (·.model)).map fun m => (H.loaded m).chunkCap := fun k => by
      rw [Option.map_map]
      rfl
    rw [hwidth i, hwidth j, hij]
  exact groupChunks_grouped hcap _

end Memra
