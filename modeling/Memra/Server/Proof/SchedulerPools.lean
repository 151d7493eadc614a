import Memra.Server.Scheduler
import Memra.Server.Proof.TrackedSpec
import Memra.Server.Proof.PrefixCacheRep

/-!
# What the pools hold

`Pools.Sound`: a parked plain session, a parked speculative session and an entry of the prefix cache each hold
exactly the tokens they are filed under, with the row or the prediction behind them. Admission and the retiring of
a `Parkable` session keep it, and what an admission takes from sound pools starts at a stage (`AdmitStages.tracked`).
-/

namespace Memra

open Lib

/-! ## The prefix cache -/

namespace PrefixCache

variable {κ π : Type} [DecidableEq κ] {c c' : PrefixCache κ π} {Q : κ → List Tok → π → Prop}

/-- Every stored entry is as `Q` says of its key, tokens and payload. -/
def Stores (Q : κ → List Tok → π → Prop) (c : PrefixCache κ π) : Prop :=
  ∀ s e, c.entryAt s = some e → Q s.1 e.toks e.payload

theorem Stores.congr (h : Stores Q c) (he : c'.entries = c.entries) : Stores Q c' := by
  intro s e hs
  refine h s e ?_
  rw [← hs, entryAt, entryAt, pool, pool, he]

theorem stores_of_empty (he : c.entries = ∅) : Stores Q c := by
  intro s e hs
  simp [entryAt, pool, he] at hs

theorem Stores.touch (h : Stores Q c) (key : κ) (i now : ℕ) : Stores Q (c.touch key i now) := by
  cases hi : c.entryAt (key, i) with
  | none => rwa [touch_of_none now hi]
  | some e =>
    intro s e' hs
    rw [touch_entryAt now hi] at hs
    by_cases hk : s = (key, i)
    · subst hk
      rw [Function.update_self] at hs
      obtain rfl := Option.some.inj hs
      exact h (key, i) e hi
    · rw [Function.update_of_ne hk] at hs
      exact h s e' hs

theorem Stores.push (h : Stores Q c) {key : κ} {e : PrefixEntry π} (hQ : Q key e.toks e.payload) :
    Stores Q (c.push key e) := by
  intro s e' hs
  rw [push_entryAt] at hs
  by_cases hk : s = (key, (c.pool key).length)
  · subst hk
    rw [Function.update_self] at hs
    obtain rfl := Option.some.inj hs
    exact hQ
  · rw [Function.update_of_ne hk] at hs
    exact h s e' hs

theorem Stores.removeAt (h : Stores Q c) {key : κ} {i : ℕ} {dead : PrefixEntry π}
    (hr : c.removeAt key i = some (dead, c')) : Stores Q c' := by
  obtain ⟨hdead, -⟩ := removeAt_some hr
  intro s e hs
  rw [removeAt_pool hr] at hs
  split at hs
  · next hk =>
    obtain ⟨k, j⟩ := s
    obtain rfl : k = key := hk
    have hmem : e ∈ c.pool k :=
      (perm_swapRemove hdead).subset (List.mem_cons_of_mem _ (List.mem_of_getElem? hs))
    obtain ⟨j', hj'⟩ := List.getElem?_of_mem hmem
    exact h (k, j') e hj'
  · exact h s e hs

theorem Stores.evictLoop (budget : ℕ) : ∀ (fuel : ℕ) {c : PrefixCache κ π}, Stores Q c →
    Stores Q (evictLoop budget fuel c)
  | 0, _, h => h
  | fuel + 1, c, h => by
    unfold PrefixCache.evictLoop
    split
    · split
      · exact h
      · split
        · exact h
        · next dead c' hr =>
          exact Stores.evictLoop budget fuel ((h.removeAt hr).congr rfl)
    · exact h

theorem Stores.insertWithBudget (h : Stores Q c) {key : κ} {e : PrefixEntry π} (budget : ℕ)
    (hQ : Q key e.toks e.payload) : Stores Q (c.insertWithBudget key e budget) := by
  unfold PrefixCache.insertWithBudget
  split
  · exact h
  · split
    · exact h
    · exact (h.push hQ).evictLoop budget _

/-- What the worker does to the prefix cache keeps `P`: counters move, an entry is touched, what `R` says of its
key, tokens and payload is inserted, all entries go. -/
structure Closed (budget : ℕ) (R : κ → List Tok → π → Prop) (P : PrefixCache κ π → Prop) : Prop where
  congr : ∀ {c c' : PrefixCache κ π}, P c → c'.entries = c.entries → c'.lru = c.lru → c'.nextId = c.nextId →
    c'.totalBytes = c.totalBytes → P c'
  touch : ∀ {c : PrefixCache κ π} (key : κ) (i now : ℕ), P c → P (c.touch key i now)
  insert : ∀ {c : PrefixCache κ π} {key : κ} {e : PrefixEntry π}, R key e.toks e.payload → P c →
    P (c.insertWithBudget key e budget)
  evictAll : ∀ c : PrefixCache κ π, P c.evictAll

theorem Stores.closed (budget : ℕ) : Closed budget Q (Stores Q) :=
  ⟨fun h he _ _ _ => h.congr he, fun key i now h => h.touch key i now, fun hQ h => h.insertWithBudget budget hQ,
    fun _ => stores_of_empty rfl⟩

end PrefixCache

variable {σ η γ : Type}

/-! ## The entries -/

/-- A prefix entry holds its tokens, and their last row. -/
def SnapshotOk (H : Host σ η γ) (key : PoolKey) (toks : List Tok) (x : Snapshot σ) : Prop :=
  x.cache.Holds (H.loaded key.1).E.T toks ∧
    x.lastLogits = (H.loaded key.1).E.T.row ((H.loaded key.1).E.T.after toks)

/-- A parked plain session holds its tokens, and their last row. -/
structure ReuseEntry.Ok (T : Trunk σ η) (e : ReuseEntry σ) : Prop where
  holds : e.cache.Holds T e.fed
  row : e.lastLogits = T.row (T.after e.fed)

/-- A parked speculative session is committed in full, and is filed under its text. -/
structure SpecReuseEntry.Ok (lm : LoadedModel σ η γ) (e : SpecReuseEntry σ η) : Prop where
  sound : SpecSound lm.E.T e.caches.sess
  ready : e.caches.sess.pendingTok = none
  next : e.caches.sess.nextPred = some (lm.E.T.pred (lm.E.T.after e.caches.sess.committed))
  long : reuseMinPrefix ≤ e.caches.sess.committed.length
  text : e.committedText = Memra.committedText lm e.caches.sess.committed

/-- Every entry is as it is filed. -/
structure Pools.Sound (H : Host σ η γ) (p : Pools σ η) : Prop where
  reuse : ∀ key, ∀ e ∈ p.reuse key, e.Ok (H.loaded key.1).E.T
  spec : ∀ key, ∀ e ∈ p.specReuse key, e.Ok (H.loaded key.1)
  px : p.px.Stores (SnapshotOk H)

theorem Pools.sound_empty (H : Host σ η γ) : Pools.Sound H ({} : Pools σ η) :=
  ⟨fun _ e he => (by cases he), fun _ e he => (by cases he), PrefixCache.stores_of_empty rfl⟩

theorem Pools.Sound.updateReuse {H : Host σ η γ} {p : Pools σ η} (h : p.Sound H) {key : PoolKey}
    {pool : List (ReuseEntry σ)} (hpool : ∀ e ∈ pool, e.Ok (H.loaded key.1).E.T) :
    ({ p with reuse := Function.update p.reuse key pool } : Pools σ η).Sound H := by
  refine ⟨fun k e he => ?_, h.spec, h.px⟩
  by_cases hk : k = key
  · subst hk
    simp only [Function.update_self] at he
    exact hpool e he
  · simp only [Function.update_of_ne hk] at he
    exact h.reuse k e he

theorem Pools.Sound.updateSpec {H : Host σ η γ} {p : Pools σ η} (h : p.Sound H) {key : PoolKey}
    {pool : List (SpecReuseEntry σ η)} (hpool : ∀ e ∈ pool, e.Ok (H.loaded key.1)) (sizing : SpecSizing) :
    ({ p with specSizing := sizing, specReuse := Function.update p.specReuse key pool } : Pools σ η).Sound H := by
  refine ⟨h.reuse, fun k e he => ?_, h.px⟩
  by_cases hk : k = key
  · subst hk
    simp only [Function.update_self] at he
    exact hpool e he
  · simp only [Function.update_of_ne hk] at he
    exact h.spec k e he

/-! ## Inserts into the prefix cache -/

section

variable {H : Host σ η γ} {cfg : Config} {env : TickEnv} {t : Prefill σ η γ}
  {R : PoolKey → List Tok → Snapshot σ → Prop} {P : PrefixCache PoolKey (Snapshot σ) → Prop}

/-- What an insert from the session would store is as `R` says. -/
def Session.Files (R : PoolKey → List Tok → Snapshot σ → Prop) (s : Session σ η γ) : Prop :=
  ∀ c, s.cache = some c → R s.poolKey s.fed { cache := c.toCache, lastLogits := s.lastLogits }

theorem Primed.files {model : String} {prompt : List Tok} {s : Session σ η γ}
    (h : Primed (H.loaded model).E.T prompt s.work) (hmodel : s.model = model) : s.Files (SnapshotOk H) := by
  subst hmodel
  intro c hc
  obtain ⟨c', hc', hholds⟩ := h.cache
  obtain rfl : c = c' := Option.some.inj (hc.symm.trans hc')
  exact ⟨hholds, h.row⟩

theorem Prefill.prefixInsert_keeps (hP : PrefixCache.Closed cfg.prefixCacheBytes R P) (why : String) (hpx : P t.px)
    (hs : t.s.Files R) : P (t.prefixInsertFromSession cfg env why).px := by
  unfold Prefill.prefixInsertFromSession
  split
  · exact hpx
  · next c hc =>
    split
    · exact hpx
    · simp only
      split
      · exact hpx
      · exact hP.insert (hs c hc) hpx

theorem Prefill.maybePrefixSeed_keeps (hP : PrefixCache.Closed cfg.prefixCacheBytes R P) (hpx : P t.px)
    (hs : t.s.Files R) : P (t.maybePrefixSeed cfg env).px := by
  unfold Prefill.maybePrefixSeed
  split
  · simp only
    split
    · exact hpx
    · split
      · exact hpx
      · exact prefixInsert_keeps hP "seed" hpx hs
  · exact hpx

theorem Prefill.settle_keeps (hP : PrefixCache.Closed cfg.prefixCacheBytes R P) (hpx : P t.px) (hs : t.s.Files R) :
    P (t.settle cfg env).px := by
  have hdue : P (snapshotDue cfg env t).px := by
    unfold snapshotDue
    split
    · exact prefixInsert_keeps hP "lcp-split" hpx hs
    · exact hpx
  rw [settle_eq]
  split
  · refine maybePrefixSeed_keeps hP hdue ?_
    rw [snapshotDue_s]
    exact hs
  · exact hdue

theorem feedTick_px (lm : LoadedModel σ η γ) (cfg : Config) (env : TickEnv) (s : Session σ η γ)
    (px : PrefixCache PoolKey (Snapshot σ)) (budget : ℕ) (tok : Tok) (queue : List Tok) :
    (feedTick lm cfg env s px budget tok queue).2.2.px = px := by
  unfold feedTick
  simp only
  split
  · unfold Prefill.primeChunk
    simp only
    split
    · rfl
    · split <;> rfl
  · unfold Prefill.stepToken
    simp only
    split
    · rfl
    · split
      · rfl
      · split <;> rfl

theorem feedTick_model (lm : LoadedModel σ η γ) (cfg : Config) (env : TickEnv) (s : Session σ η γ)
    (px : PrefixCache PoolKey (Snapshot σ)) (budget : ℕ) (tok : Tok) (queue : List Tok) :
    (feedTick lm cfg env s px budget tok queue).2.2.s.model = s.model := by
  unfold feedTick
  simp only
  split
  · exact congrArg (fun x : SessionInfo × ℕ × Tx => x.1.model) (Prefill.primeChunk_card lm env _ _)
  · exact congrArg (fun x : SessionInfo × ℕ × Tx => x.1.model) (Prefill.stepToken_card lm cfg env tok queue _)

/-- A prefill tick does to the prefix cache what the session behind the feed may store. -/
theorem prefillTick_keeps {lm : LoadedModel σ η γ} (hP : PrefixCache.Closed cfg.prefixCacheBytes R P)
    {s : Session σ η γ} {px : PrefixCache PoolKey (Snapshot σ)} (hpx : P px) (budget : ℕ)
    (hnil : s.prefillQueue = [] → s.Files R)
    (hs : ∀ tok queue, s.prefillQueue = tok :: queue →
      (feedTick lm cfg env (dropBoundary lm s) px budget tok queue).2.1 = none →
      (feedTick lm cfg env (dropBoundary lm s) px budget tok queue).2.2.s.Files R) :
    P (prefillTick lm cfg env s px budget).2.px := by
  cases hq : s.prefillQueue with
  | nil =>
    unfold prefillTick
    simp only [hq]
    exact Prefill.maybePrefixSeed_keeps hP hpx (hnil hq)
  | cons tok queue =>
    have hkept := feedTick_px lm cfg env (dropBoundary lm s) px budget tok queue
    have hfiles := hs tok queue hq
    rcases hfeed : feedTick lm cfg env (dropBoundary lm s) px budget tok queue with ⟨n, err, t⟩
    rw [hfeed] at hkept hfiles
    have hpx' : P t.px := (show t.px = px from hkept) ▸ hpx
    cases err with
    | some e =>
      rw [prefillTick_err hq hfeed]
      exact hpx'
    | none =>
      rw [prefillTick_ok_eq hq hfeed]
      exact Prefill.settle_keeps hP hpx' (hfiles rfl)

/-- A prefill tick files what it has fed. -/
theorem Prefilling.tick_stores {G : Prop} {prompt : List Tok} {s : Session σ η γ}
    (h : Prefilling (H.loaded s.model).E.T prompt s.work) (hs : Served (H.loaded s.model) G prompt s.work)
    {px : PrefixCache PoolKey (Snapshot σ)} (hpx : px.Stores (SnapshotOk H)) (budget : ℕ) :
    (prefillTick (H.loaded s.model) cfg env s px budget).2.px.Stores (SnapshotOk H) := by
  refine prefillTick_keeps (PrefixCache.Stores.closed _) hpx budget (fun hq => absurd hq h.queue)
    fun tok queue hq hok => ?_
  have hdrop : (dropBoundary (H.loaded s.model) s).prefillQueue = tok :: queue :=
    (congrArg Work.prefillQueue (dropBoundary_work (H.loaded s.model) s)).trans hq
  have hmodel : (dropBoundary (H.loaded s.model) s).model = s.model :=
    congrArg (fun w : Work σ η γ => w.model) (dropBoundary_work (H.loaded s.model) s)
  have hsame := feedTick_model (H.loaded s.model) cfg env (dropBoundary (H.loaded s.model) s) px budget tok queue
  rw [← dropBoundary_work (H.loaded s.model) s] at h hs
  exact ((h.feedTick hs env hdrop px budget).primed hok).files (hsame.trans hmodel)

/-- A row of a batched prime is filed. -/
theorem Stage.primeRow_stores {b : Bool} {G : Prop} {prompt : List Tok}
    {s : Session σ η γ} (h : Stage (H.loaded s.model).E.T b G prompt s.work)
    {px : PrefixCache PoolKey (Snapshot σ)} (hpx : px.Stores (SnapshotOk H)) :
    (Prefill.maybePrefixSeed cfg env { s := s.primeRow (H.loaded s.model), px }).px.Stores (SnapshotOk H) := by
  refine Prefill.maybePrefixSeed_keeps (PrefixCache.Stores.closed _) hpx ?_
  have hcache : ∀ c, s.cache = some c → c.Holds (H.loaded s.model).E.T s.fed := by
    intro c hc
    cases h with
    | prefilling h =>
      obtain ⟨c', hc', hholds⟩ := h.cache
      exact Option.some.inj (hc'.symm.trans hc) ▸ hholds
    | decoding h =>
      obtain ⟨c', hc', hholds, -⟩ := h.cache
      exact Option.some.inj (hc'.symm.trans hc) ▸ hholds
    | graphing hb h => exact absurd (h.cache.symm.trans hc) (by simp)
    | specing h => exact absurd (h.cache.symm.trans hc) (by simp)
  unfold Session.primeRow
  split
  · next hnone =>
    intro c hc
    exact absurd (hnone.symm.trans hc) (by simp)
  · next c hc =>
    intro c' hc'
    obtain rfl := Option.some.inj hc'
    exact ⟨KvCache.feed_holds (hcache c hc) _, KvCache.feed_row (hcache c hc) _⟩

end

/-! ## Admission -/

/-- What an admission may do to the pools: parked sessions are taken out, and the prefix cache keeps `P`. -/
structure Pools.Shrinks (P : PrefixCache PoolKey (Snapshot σ) → Prop) (p p' : Pools σ η) : Prop where
  reuse : ∀ key, (p'.reuse key).Sublist (p.reuse key)
  spec : ∀ key, (p'.specReuse key).Sublist (p.specReuse key)
  px : P p.px → P p'.px

section

variable {R : PoolKey → List Tok → Snapshot σ → Prop} {P : PrefixCache PoolKey (Snapshot σ) → Prop}
  {H : Host σ η γ} {cfg : Config} {env : AdmitEnv} {p p' p'' : Pools σ η} {nActive : ℕ} {req : Request}
  {key : PoolKey} {pl : Plan}

theorem Pools.Shrinks.rfl : Pools.Shrinks P p p :=
  ⟨fun _ => List.Sublist.refl _, fun _ => List.Sublist.refl _, id⟩

theorem Pools.Shrinks.trans (h : Pools.Shrinks P p p') (h' : Pools.Shrinks P p' p'') : Pools.Shrinks P p p'' :=
  ⟨fun key => (h'.reuse key).trans (h.reuse key), fun key => (h'.spec key).trans (h.spec key),
    fun hp => h'.px (h.px hp)⟩

theorem Pools.Sound.shrink (h : p.Sound H) (hs : Pools.Shrinks (PrefixCache.Stores (SnapshotOk H)) p p') :
    p'.Sound H :=
  ⟨fun key e he => h.reuse key e ((hs.reuse key).subset he), fun key e he => h.spec key e ((hs.spec key).subset he),
    hs.px h.px⟩

theorem sublist_update {ι α : Type} [DecidableEq ι] {f : ι → List α} {i : ι} {l : List α} (h : l.Sublist (f i))
    (j : ι) : (Function.update f i l j).Sublist (f j) := by
  by_cases hj : j = i
  · subst hj
    rwa [Function.update_self]
  · rw [Function.update_of_ne hj]

theorem admitReuse_shrinks : Pools.Shrinks P p (admitReuse cfg key pl p).2 := by
  unfold admitReuse
  split
  · exact .rfl
  · split
    · exact .rfl
    · exact ⟨sublist_update (List.eraseIdx_sublist ..), fun _ => List.Sublist.refl _, id⟩

/-- A plain session is resumed as it was filed. -/
theorem admitReuse_ok (h : p.Sound H) {e : ReuseEntry σ} (he : (admitReuse cfg key pl p).1 = some e) :
    e.Ok (H.loaded key.1).E.T := by
  unfold admitReuse at he
  split at he
  · cases he
  · split at he
    · cases he
    · exact h.reuse key e (List.mem_of_getElem? he)

theorem prefixHit_px (hP : PrefixCache.Closed cfg.prefixCacheBytes R P)
    {px : PrefixCache PoolKey (Snapshot σ)} (h : P px) : P (prefixHit env key pl px).2 := by
  unfold prefixHit
  split
  · exact h
  · split
    · exact h
    · split
      · exact hP.evictAll px
      · split
        · exact h
        · exact hP.congr (hP.touch key _ env.now h) (by rfl) (by rfl) (by rfl) (by rfl)

theorem prefixHit_ok {px : PrefixCache PoolKey (Snapshot σ)} (h : px.Stores (SnapshotOk H)) {e : ReuseEntry σ}
    (he : (prefixHit env key pl px).1 = some e) : e.Ok (H.loaded key.1).E.T := by
  unfold prefixHit at he
  split at he
  · cases he
  · split at he
    · cases he
    · next x hx =>
      split at he
      · cases he
      · split at he
        · cases he
        · obtain rfl := Option.some.inj he
          obtain ⟨hholds, hrow⟩ := h _ x hx
          exact ⟨hholds, hrow⟩

theorem admitPrefix_shrinks (hP : PrefixCache.Closed cfg.prefixCacheBytes R P) {re : Option (ReuseEntry σ)}
    {eligible : Bool} : Pools.Shrinks P p (admitPrefix cfg env key pl p re eligible).2 := by
  have hhit : P p.px → P (prefixHit env key pl p.px).2 := prefixHit_px hP
  unfold admitPrefix
  split
  · exact .rfl
  · split
    · next e px hq =>
      rw [hq] at hhit
      exact ⟨fun _ => List.Sublist.refl _, fun _ => List.Sublist.refl _, hhit⟩
    · next px hq =>
      rw [hq] at hhit
      exact ⟨fun _ => List.Sublist.refl _, fun _ => List.Sublist.refl _,
        fun h => hP.congr (hhit h) (by rfl) (by rfl) (by rfl) (by rfl)⟩

/-- So is an entry of the prefix cache. -/
theorem admitPrefix_ok (h : p.Sound H) {re : Option (ReuseEntry σ)} {eligible : Bool}
    (hre : ∀ e, re = some e → e.Ok (H.loaded key.1).E.T) {e : ReuseEntry σ}
    (he : (admitPrefix cfg env key pl p re eligible).1.1 = some e) : e.Ok (H.loaded key.1).E.T := by
  unfold admitPrefix at he
  split at he
  · exact hre e he
  · split at he
    · next e' px hq =>
      obtain rfl := Option.some.inj he
      exact prefixHit_ok h.px (congrArg Prod.fst hq)
    · cases he

theorem probeSpecPool_sublist (lm : LoadedModel σ η γ) (pl : Plan) (pool : List (SpecReuseEntry σ η)) :
    (probeSpecPool cfg lm env req pl pool).2.Sublist pool := by
  unfold probeSpecPool
  simp only
  split
  · exact List.eraseIdx_sublist ..
  · split
    · exact List.eraseIdx_sublist ..
    · split
      · exact List.Sublist.refl _
      · split
        · exact List.Sublist.refl _
        · exact List.eraseIdx_sublist ..

theorem allocSpec_sublist (lm : LoadedModel σ η γ) (model : String) (pl : Plan) (sz : SpecSizing)
    (pool : List (SpecReuseEntry σ η)) : (allocSpec lm env model pl sz pool).2.2.Sublist pool := by
  unfold allocSpec
  simp only
  split
  · show (if model ∈ sz.evictFirst then [] else pool).Sublist pool
    split
    · exact List.nil_sublist _
    · exact List.Sublist.refl _
  · repeat' split
    all_goals exact List.nil_sublist _

theorem admitSpec_shrinks (lm : LoadedModel σ η γ) (constrained : Bool) :
    Pools.Shrinks P p (admitSpec cfg lm env req key pl constrained p).2 := by
  have hprobe : (if constrained = true then (none, p.specReuse key)
      else probeSpecPool cfg lm env req pl (p.specReuse key)).2.Sublist (p.specReuse key) := by
    split
    · exact List.Sublist.refl _
    · exact probeSpecPool_sublist _ pl _
  unfold admitSpec
  split
  next res pool hq =>
  rw [hq] at hprobe
  split
  · exact ⟨fun _ => List.Sublist.refl _, sublist_update hprobe, id⟩
  · exact ⟨fun _ => List.Sublist.refl _, sublist_update ((allocSpec_sublist ..).trans hprobe), id⟩

theorem admitCache_shrinks (hP : PrefixCache.Closed cfg.prefixCacheBytes R P) {lm : LoadedModel σ η γ}
    {spec : Option (SpecCaches σ η)} {cache : Option (KvCache σ)} :
    Pools.Shrinks P p (admitCache lm env pl p spec cache).2 := by
  unfold admitCache
  split
  · exact .rfl
  · split
    · exact .rfl
    · have hevict : Pools.Shrinks P p ({ p with px := p.px.evictAll } : Pools σ η) :=
        ⟨fun _ => List.Sublist.refl _, fun _ => List.Sublist.refl _, fun _ => hP.evictAll p.px⟩
      simp only
      split
      · split <;> exact hevict
      · exact hevict

/-- **Admission** only takes out of the pools, whatever it comes to. -/
theorem admitRequest_shrinks (hP : PrefixCache.Closed cfg.prefixCacheBytes R P) :
    Pools.Shrinks P p (admitRequest H cfg env p nActive req).2 := by
  unfold admitRequest
  simp only
  split
  · exact .rfl
  · split
    · exact admitReuse_shrinks
    · have hfront : ∀ {re : Option (ReuseEntry σ)} {eligible : Bool} (pl : Plan), Pools.Shrinks P p
          (admitPrefix cfg env (req.model, req.cacheNs) pl (admitReuse cfg (req.model, req.cacheNs) pl p).2 re
            eligible).2 := fun pl => admitReuse_shrinks.trans (admitPrefix_shrinks hP)
      have hspec : ∀ {q : Pools σ η} {Q : Prop} [Decidable Q] {pl : Plan} {constrained : Bool}, Pools.Shrinks P p q →
          Pools.Shrinks P p (if Q then admitSpec cfg (H.loaded req.model) env req (req.model, req.cacheNs) pl
            constrained q else ({}, q)).2 := by
        intro q Q _ pl constrained h
        split
        · exact h.trans (admitSpec_shrinks _ _)
        · exact h
      split
      all_goals next hq =>
        exact (congrArg (fun r => Pools.Shrinks P p r.2) hq).mp ((hspec (hfront _)).trans (admitCache_shrinks hP))

theorem admitRequest_sound (h : p.Sound H) : (admitRequest H cfg env p nActive req).2.Sound H :=
  h.shrink (admitRequest_shrinks (PrefixCache.Stores.closed _))

end

/-! ## Parking -/

section

variable {H : Host σ η γ} {env : VisitEnv σ η} {p : Pools σ η}

theorem mem_poolPush {α : Type} {cap : ℕ} {pool : List α} {e x : α} (h : x ∈ poolPush cap pool e) :
    x ∈ pool ∨ x = e := by
  unfold poolPush at h
  simp only at h
  split at h
  · rcases List.mem_append.1 h with h | h
    · exact .inl (List.mem_of_mem_drop h)
    · exact .inr (List.mem_singleton.1 h)
  · exact .inl (List.mem_of_mem_drop h)

theorem length_poolPush_le {α : Type} (cap : ℕ) (pool : List α) (e : α) : (poolPush cap pool e).length ≤ cap := by
  unfold poolPush
  simp only
  split
  · next hcap =>
    simp only [List.length_append, List.length_drop, List.length_singleton]
    omega
  · simp only [List.length_drop]
    omega

/-- A retired speculative session is filed with its bonus committed. -/
theorem specEntry_ok {lm : LoadedModel σ η γ} {caches : SpecCaches σ η} {affinity : Option String}
    {e : SpecReuseEntry σ η} (h : SpecSound lm.E.T caches.sess)
    (he : specEntry lm env caches affinity = some e) : e.Ok lm := by
  unfold specEntry at he
  split at he
  · cases he
  · simp only at he
    split at he
    · next hlong =>
      obtain ⟨hlong, hsome⟩ := hlong
      obtain rfl := Option.some.inj he
      have hflush : SpecSound lm.E.T (specFlushPending lm.E.T caches.sess) := h.flush
      have hidle : (specFlushPending lm.E.T caches.sess).pendingTok = none := by
        unfold specFlushPending
        split
        · assumption
        · rfl
      obtain ⟨t, ht⟩ := Option.isSome_iff_exists.1 hsome
      refine ⟨hflush, hidle, ?_, hlong, rfl⟩
      obtain ⟨base, log, hi⟩ := hflush
      have hpred : (specFlushPending lm.E.T caches.sess).nextPred = _ := hi.pred hidle
      split at hpred
      · exact absurd (ht.symm.trans hpred) (by simp)
      · exact hpred
    · cases he

/-- A retired plain session is filed with its last row. -/
theorem plainEntry_ok {lm : LoadedModel σ η γ} {s : Session σ η γ} {e : ReuseEntry σ}
    (h : Parkable lm.E.T s.work) (hspec : s.spec = none) (he : plainEntry env s = some e) : e.Ok lm.E.T := by
  unfold plainEntry at he
  split at he
  · next hlong =>
    obtain ⟨-, hdone⟩ := hlong
    split at he
    · cases he
    · next c hc =>
      obtain ⟨hholds, hkept⟩ : c.Holds lm.E.T s.fed ∧ RowKept lm.E.T s.fed s.lastLogits c.lastLogitsDev :=
        h.plain hspec hdone c hc
      extract_lets row at he
      split at he
      · cases he
      · next hrow =>
        obtain rfl := Option.some.inj he
        refine ⟨hholds, show row = lm.E.T.row (lm.E.T.after s.fed) from ?_⟩
        rcases hkept with hkept | ⟨hnil, hdev⟩
        · exact (if_neg (hkept.trans_ne (row_ne_nil lm _))).trans hkept
        · -- the host holds no row: what is filed came back from the device
          have hback : row = if env.dtohErr.isSome then [] else c.lastLogitsDev.getD [] := if_pos hnil
          rw [hback] at hrow ⊢
          split at hrow
          · exact absurd rfl hrow
          · next herr =>
            rw [if_neg herr]
            cases hd : c.lastLogitsDev with
            | none => exact absurd (by rw [hd]; rfl) hrow
            | some r => exact hdev r hd
  · cases he

/-- What a retired session leaves keeps the pools sound. -/
theorem parkSession_sound {cfg : Config} {s : Session σ η γ} (hp : p.Sound H)
    (h : Parkable (H.loaded s.model).E.T s.work) : (parkSession H cfg env s p).Sound H := by
  unfold parkSession
  split
  · next caches hspec =>
    split
    · exact hp
    · next e he =>
      refine hp.updateSpec (fun x hx => ?_) p.specSizing
      rcases mem_poolPush hx with hx | rfl
      · exact hp.spec s.poolKey x hx
      · exact specEntry_ok (h.spec caches hspec) he
  · next hspec =>
    split
    · exact hp
    · next e he =>
      refine hp.updateReuse fun x hx => ?_
      rcases mem_poolPush hx with hx | rfl
      · exact hp.reuse s.poolKey x hx
      · exact plainEntry_ok h hspec he

end

/-! ## The session of an admission -/

theorem plan_nonempty {cfg : Config} {lm : LoadedModel σ η γ} {rp : ReplayPlan} {pl : Plan}
    (h : plan cfg lm rp = .ok pl) : pl.prompt ≠ [] := by
  unfold plan at h
  split at h
  · cases h
  · simp only at h
    split at h
    · cases h
    · next hne =>
      split at h
      · cases h
      · obtain rfl := Except.ok.inj h
        exact hne

/-- The plain cache of an admission: none beside a speculative session, the resumed one, else a new one. -/
theorem admitCache_ok {lm : LoadedModel σ η γ} {env : AdmitEnv} {pl : Plan} {p p' : Pools σ η}
    {spec : Option (SpecCaches σ η)} {cache out : Option (KvCache σ)}
    (h : admitCache lm env pl p spec cache = (.ok out, p')) :
    out = if spec.isSome ∨ cache.isSome then cache else some (.new lm.E.T pl.ctxCap) := by
  unfold admitCache at h
  split
  · next hor =>
    rw [if_pos hor] at h
    exact (Except.ok.inj (Prod.mk.inj h).1).symm
  · next hor =>
    rw [if_neg hor] at h
    split at h
    · exact (Except.ok.inj (Prod.mk.inj h).1).symm
    · simp only at h
      split at h
      · split at h
        · exact (Except.ok.inj (Prod.mk.inj h).1).symm
        · cases (Prod.mk.inj h).1
      · cases (Prod.mk.inj h).1

/-- What a tier resumes is sound, committed in full, and starts what the request is answered on. -/
theorem SpecReuseEntry.Ok.tier {lm : LoadedModel σ η γ} {req : Request} {pl : Plan}
    {e : SpecReuseEntry σ η} (h : e.Ok lm) {tier : SpecTier} (hm : TierMatch req pl e tier) :
    SpecSound lm.E.T (tierCaches e tier).sess ∧ (tierCaches e tier).sess.pendingTok = none ∧
      0 < (tierCaches e tier).sess.committed.length ∧
      (tierSuffix lm req e tier = none → (tierCaches e tier).sess.committed <+: pl.prompt) ∧
      ∀ ts, tierSuffix lm req e tier = some ts → ∃ rest, ts = lm.encode rest false ∧
        req.promptText = Memra.committedText lm (tierCaches e tier).sess.committed ++ rest := by
  have hlong : 0 < e.caches.sess.committed.length := lt_of_lt_of_le (by decide) h.long
  cases tier with
  | token => exact ⟨h.sound, h.ready, hlong, fun _ => hm, fun ts hts => by cases hts⟩
  | text =>
    refine ⟨h.sound, h.ready, hlong, fun hts => (by cases hts), fun ts hts => ?_⟩
    refine ⟨textRest req e, (Option.some.inj hts).symm, ?_⟩
    rw [← committedText_rest hm, h.text]
    rfl
  | affinity =>
    obtain ⟨ck, hck, hpre, hlen, hpos, -⟩ := hm
    have hsess : (tierCaches e .affinity).sess = specRewindToCheckpoint e.caches.sess := rfl
    have hcommitted : (specRewindToCheckpoint e.caches.sess).committed =
        e.caches.sess.committed.take ck.pos := by
      simp [specRewindToCheckpoint, hck]
    refine ⟨h.sound.rewind hck, ?_, ?_, fun _ => ?_, fun ts hts => by cases hts⟩
    · rw [hsess]
      simp [specRewindToCheckpoint, hck]
    · rw [hsess, hcommitted, hlen]
      exact hpos
    · rw [hsess, hcommitted]
      exact hpre

theorem KvCache.new_holds (T : Trunk σ η) (maxCtx : ℕ) : (KvCache.new T maxCtx).Holds T [] := ⟨rfl, rfl⟩

/-- What an admitted session starts with, at whatever stage. -/
theorem mkSession_served {lm : LoadedModel σ η γ} {req : Request} {pl : Plan} {c : Option γ}
    {re : Option (ReuseEntry σ)} {snapshotAt : Option ℕ} {seedPrefix : Bool} {choice : SpecChoice σ η}
    {cache : Option (KvCache σ)} {P : Prop} {prompt : List Tok}
    (hgrammar : compileGrammar lm req.grammar = .ok c) (hprompted : Prompted lm req.toReplayPlan prompt)
    (hne : prompt ≠ [])
    (hn : (mkSession lm req pl c re snapshotAt seedPrefix choice cache).nPrompt = prompt.length)
    (hcached : (mkSession lm req pl c re snapshotAt seedPrefix choice cache).nCached ≤ prompt.length) :
    Served lm (P ∧ req.toReplayPlan.Greedy) prompt
      (mkSession lm req pl c re snapshotAt seedPrefix choice cache).work where
  prompted := hprompted
  nonempty := hne
  nPrompt := hn
  nCached := hcached.trans hn.ge
  plain := by
    rintro ⟨-, hgreedy, hpen, hnone⟩
    have hcfg : (mkSession lm req pl c re snapshotAt seedPrefix choice cache).sampler.cfg = req.samplerCfg := by
      simp only [mkSession]
      split <;> rfl
    have hc : c = none := by
      rw [show req.grammar = none from hnone] at hgrammar
      exact (Except.ok.inj hgrammar).symm
    refine ⟨?_, ?_, hc⟩
    · exact (congrArg SamplerConfig.isGreedy hcfg).trans hgreedy
    · exact (congrArg SamplerConfig.noPen hcfg).trans hpen
  greedy := fun _ => rfl

namespace AdmitStages

variable {H : Host σ η γ} {cfg : Config} {env : AdmitEnv} {p p' : Pools σ η} {nActive : ℕ}
  {req : Request} {s : Session σ η γ}

/-- The plain session or prefix entry of an admission is as it was filed. -/
theorem resumed_ok (a : AdmitStages H cfg env p p' nActive req s) (hp : p.Sound H) :
    a.p₂.Sound H ∧ ∀ e, a.re' = some e → e.Ok (H.loaded req.model).E.T := by
  have hclosed : PrefixCache.Closed cfg.prefixCacheBytes (SnapshotOk H) (PrefixCache.Stores (SnapshotOk H)) :=
    PrefixCache.Stores.closed _
  have hp₁ : a.p₁.Sound H := by
    have hout : (admitReuse cfg (req.model, req.cacheNs) a.pl p).2.Sound H := hp.shrink admitReuse_shrinks
    rwa [a.reuse] at hout
  have hre : ∀ e, a.re = some e → e.Ok (H.loaded req.model).E.T := fun e he =>
    admitReuse_ok hp ((congrArg Prod.fst a.reuse).trans he)
  refine ⟨?_, fun e he => admitPrefix_ok hp₁ hre ((congrArg (fun r => r.1.1) a.pre).trans he)⟩
  have hout : (admitPrefix cfg env (req.model, req.cacheNs) a.pl a.p₁ a.re
    (specEligible cfg (H.loaded req.model) nActive req.samplerCfg a.c.isSome)).2.Sound H :=
    hp₁.shrink (admitPrefix_shrinks hclosed)
  rwa [a.pre] at hout

/-- The speculative session of an admission: none or a fresh one, or the one of a tier. Beside one nothing
plain was resumed. -/
theorem choice_cases (a : AdmitStages H cfg env p p' nActive req s) :
    (a.choice.specResumed = 0 ∧ a.choice.textSuffix = none ∧ ∀ caches, a.choice.spec = some caches →
      a.re' = none ∧ caches.sess = newSession (H.loaded req.model).E.T) ∨
    ∃ tier e, e ∈ a.p₂.specReuse (req.model, req.cacheNs) ∧ TierMatch req a.pl e tier ∧ a.re' = none ∧
      a.choice = tierChoice (H.loaded req.model) req (tier, e) := by
  have hspec := a.spec
  split at hspec
  · next hel =>
    obtain ⟨hel, hfed⟩ := hel
    have hnone : a.re' = none := by
      have hpre := a.pre
      rw [hel, admitPrefix_eligible] at hpre
      obtain ⟨hout, -⟩ := Prod.mk.inj hpre
      obtain ⟨hsame, -⟩ := Prod.mk.inj hout
      cases hre : a.re' with
      | none => rfl
      | some e =>
        have hne : e.fed ≠ [] := admitReuse_fed (by rw [a.reuse]; exact hsame.trans hre)
        rw [hre] at hfed
        exact absurd hfed hne
    cases hc : a.c.isSome with
    | true =>
      have hfresh : (admitSpec cfg (H.loaded req.model) env req (req.model, req.cacheNs) a.pl a.c.isSome
          a.p₂).1.specResumed = 0 ∧ _ := admitSpec_fresh (.inl hc)
      rw [hspec] at hfresh
      exact .inl ⟨hfresh.1, hfresh.2.1, fun caches h => ⟨hnone, hfresh.2.2 caches h⟩⟩
    | false =>
      rw [hc] at hspec
      cases ht : specTier cfg (H.loaded req.model) env req a.pl (a.p₂.specReuse (req.model, req.cacheNs)) with
      | none =>
        have hfresh : (admitSpec cfg (H.loaded req.model) env req (req.model, req.cacheNs) a.pl false
            a.p₂).1.specResumed = 0 ∧ _ := admitSpec_fresh (.inr ht)
        rw [hspec] at hfresh
        exact .inl ⟨hfresh.1, hfresh.2.1, fun caches h => ⟨hnone, hfresh.2.2 caches h⟩⟩
      | some r =>
        obtain ⟨tier, e⟩ := r
        obtain ⟨hmem, hm⟩ := specTier_some ht
        have hres := admitSpec_resumed ht
        rw [hspec] at hres
        exact .inr ⟨tier, e, hmem, hm, hnone, hres⟩
  · obtain ⟨hchoice, -⟩ := Prod.mk.inj hspec
    rw [← hchoice]
    exact .inl ⟨rfl, rfl, fun caches h => by cases h⟩

/-- Resumed from a parked speculative session. -/
theorem tracked_tier (a : AdmitStages H cfg env p p' nActive req s) (hp : p.Sound H) {tier : SpecTier}
    {e : SpecReuseEntry σ η} (hmem : e ∈ a.p₂.specReuse (req.model, req.cacheNs))
    (hm : TierMatch req a.pl e tier) (hnone : a.re' = none)
    (hchoice : a.choice = tierChoice (H.loaded req.model) req (tier, e)) :
    ∃ prompt caches, Served (H.loaded s.model) (H.ArgmaxChain ∧ s.replay.Greedy) prompt s.work ∧
      Specing (H.loaded s.model).E.T prompt caches s.work := by
  obtain ⟨hsound, hidle, hpos, hpre, htext⟩ := ((a.resumed_ok hp).1.spec _ e hmem).tier hm
  have hcache : a.cache = none := by
    rw [admitCache_ok a.alloc, hnone, hchoice]
    rfl
  have hgrammar := a.grammar
  have hprompt := plan_prompt a.plan
  have hne := plan_nonempty a.plan
  rw [a.session, hcache, hnone, hchoice]
  generalize hC : (tierCaches e tier).sess.committed = committed at hpos hpre htext
  cases hts : tierSuffix (H.loaded req.model) req e tier with
  | none =>
    obtain ⟨rest, hrest⟩ := hpre hts
    refine ⟨a.pl.prompt, _, mkSession_served hgrammar (.inl hprompt) hne ?_ ?_, ⟨rfl, rfl, rfl,
      hsound.resetGraphFallback, ?_, ?_, fun _ => ⟨rfl, hidle⟩, fun _ => rfl, rfl⟩⟩
    · simp [mkSession, tierChoice, hC, hpos, hts, ← hrest]
    · simp [mkSession, tierChoice, hC, hpos, ← hrest]
    · simp [mkSession, Session.work, tierChoice, resetGraphFallback, hC, hpos, hts, hidle, ← hrest]
    · simp [mkSession, Session.work, tierChoice, hC, hpos, hts]
  | some ts =>
    obtain ⟨rest, hrest, htxt⟩ := htext ts hts
    have hhead : committed ++ ts ≠ [] := by
      intro hnil
      rw [(List.append_eq_nil_iff.1 hnil).1] at hpos
      exact absurd hpos (by simp)
    refine ⟨committed ++ ts, _, mkSession_served hgrammar (.inr ⟨committed, rest,
      congrArg (committed ++ ·) hrest, htxt⟩) hhead ?_ ?_, ⟨rfl, rfl, rfl, hsound.resetGraphFallback, ?_, ?_,
      fun _ => ⟨rfl, hidle⟩, fun _ => rfl, rfl⟩⟩
    · simp [mkSession, tierChoice, hC, hpos, hts]
    · simp [mkSession, tierChoice, hC, hpos]
    · simp [mkSession, Session.work, tierChoice, resetGraphFallback, hC, hts, hidle]
    · simp [mkSession, Session.work, tierChoice, hC, hpos, hts]

/-- With a fresh speculative session. -/
theorem tracked_fresh (a : AdmitStages H cfg env p p' nActive req s) (hzero : a.choice.specResumed = 0)
    (hsuffix : a.choice.textSuffix = none) {caches : SpecCaches σ η} (hspec : a.choice.spec = some caches)
    (hnone : a.re' = none) (hnew : caches.sess = newSession (H.loaded req.model).E.T) :
    ∃ prompt, Served (H.loaded s.model) (H.ArgmaxChain ∧ s.replay.Greedy) prompt s.work ∧
      Specing (H.loaded s.model).E.T prompt caches s.work := by
  have hcache : a.cache = none := by
    rw [admitCache_ok a.alloc, hnone, hspec]
    rfl
  have hgrammar := a.grammar
  have hprompt := plan_prompt a.plan
  have hne := plan_nonempty a.plan
  rw [a.session, hcache, hnone]
  refine ⟨a.pl.prompt, mkSession_served hgrammar (.inl hprompt) hne ?_ ?_, ⟨hspec, rfl, rfl,
    hnew ▸ SpecSound.new _, ?_, ?_, fun _ => ⟨rfl, ?_⟩, fun _ => rfl, rfl⟩⟩
  · simp [mkSession, hzero]
  · simp [mkSession, hzero]
  · simp [mkSession, Session.work, hzero, hsuffix, hnew, newSession]
  · simp [mkSession, Session.work, hzero, hsuffix]
  · rw [hnew]
    rfl

/-- With a plain cache. -/
theorem tracked_plain (a : AdmitStages H cfg env p p' nActive req s) (hp : p.Sound H)
    (hzero : a.choice.specResumed = 0) (hsuffix : a.choice.textSuffix = none) (hspec : a.choice.spec = none)
    (b : Bool) :
    ∃ prompt, Served (H.loaded s.model) (H.ArgmaxChain ∧ s.replay.Greedy) prompt s.work ∧
      Stage (H.loaded s.model).E.T b (H.ArgmaxChain ∧ s.replay.Greedy) prompt s.work := by
  have hok := (a.resumed_ok hp).2
  have hfed := a.fed_prefix
  have hcache := admitCache_ok a.alloc
  have hgrammar := a.grammar
  have hprompt := plan_prompt a.plan
  have hne := plan_nonempty a.plan
  rw [hspec] at hcache
  rw [a.session]
  generalize a.re' = re at hok hfed hcache
  generalize a.cache = cache at hcache
  have hserved : Served (H.loaded req.model) (H.ArgmaxChain ∧ req.toReplayPlan.Greedy) a.pl.prompt
      (mkSession (H.loaded req.model) req a.pl a.c re a.snapshotAt a.seedPrefix a.choice cache).work := by
    refine mkSession_served hgrammar (.inl hprompt) hne ?_ ?_
    · simp [mkSession, hzero]
    · simpa [mkSession, hzero] using hfed.length_le
  refine ⟨a.pl.prompt, hserved, ?_⟩
  have hholds : ∃ c, cache = some c ∧ c.Holds (H.loaded req.model).E.T ((re.map (·.fed)).getD []) := by
    cases re with
    | none => exact ⟨_, hcache, KvCache.new_holds _ _⟩
    | some e => exact ⟨_, hcache, (hok e rfl).holds⟩
  by_cases hrest : a.pl.prompt.drop ((re.map (·.fed)).getD []).length = []
  · cases re with
    | none => exact absurd hrest hne
    | some e =>
      have hall : e.fed = a.pl.prompt := hfed.eq_of_length_le (List.drop_eq_nil_iff.1 hrest)
      obtain ⟨c, hc, hc'⟩ := hholds
      refine .decoding ⟨hspec, rfl, ⟨c, hc, hc', .inl (hok e rfl).row⟩, ?_, ?_, ?_, fun hnil => ?_, fun _ => rfl,
        fun _ t ht => by cases ht⟩
      · simpa [mkSession, Session.work] using hrest
      · simpa [mkSession, Session.work, hzero, hsuffix] using hrest
      · simp [mkSession, Session.work, hall]
      · exact absurd ((hok e rfl).row.symm.trans hnil) (row_ne_nil _ _)
  · refine .prefilling ⟨hspec, rfl, hholds, ?_, ?_, ?_, rfl, rfl⟩
    · simpa [mkSession, Session.work] using hrest
    · simpa [mkSession, Session.work, hzero, hsuffix] using hrest
    · simpa [mkSession, Session.work, hzero, hsuffix] using (List.prefix_append_drop hfed).symm

/-- **An admitted session** starts at a stage. -/
theorem tracked (a : AdmitStages H cfg env p p' nActive req s) (hp : p.Sound H) (b : Bool) :
    ∃ prompt, Served (H.loaded s.model) (H.ArgmaxChain ∧ s.replay.Greedy) prompt s.work ∧
      Stage (H.loaded s.model).E.T b (H.ArgmaxChain ∧ s.replay.Greedy) prompt s.work := by
  rcases a.choice_cases with ⟨hzero, hsuffix, hfresh⟩ | ⟨tier, e, hmem, hm, hnone, hchoice⟩
  · cases hspec : a.choice.spec with
    | none => exact a.tracked_plain hp hzero hsuffix hspec b
    | some caches =>
      obtain ⟨hnone, hnew⟩ := hfresh caches hspec
      obtain ⟨prompt, hs, h⟩ := a.tracked_fresh hzero hsuffix hspec hnone hnew
      exact ⟨prompt, hs, .specing h⟩
  · obtain ⟨prompt, caches, hs, h⟩ := a.tracked_tier hp hmem hm hnone hchoice
    exact ⟨prompt, hs, .specing h⟩

end AdmitStages

end Memra
