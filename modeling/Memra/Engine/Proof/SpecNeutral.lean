import Memra.Engine.Proof.SpecGreedy
import Memra.Engine.Proof.SpecSampled

/-!
# Burst boundaries of a sampled request

The first token of every burst is an argmax, so where bursts end decides which tokens are sampled at
all. `burst_neutral_iff`: the law of a sampled request is the target law for every partition into
bursts exactly when, all along the greedy path of its prompt, the filtered target is a point mass.
One direction cuts the request into bursts of one token (`ones_greedy`); for the other a round
settles on the greedy segment almost surely (`settlesGreedy_of_point`), whatever was drafted.
-/

namespace Memra

open Lib Lib.Prog

/-! ## Partitions -/

/-- Where a burst ends: its budget and its verdicts. -/
structure Cut where
  maxNew : ℕ
  onCommit : List (List Tok) → Bool

/-- A burst of a request, fed `suffix` first. -/
def Burst.part (R : Burst) (suffix : List Tok) (c : Cut) : Burst :=
  { R with suffix, maxNew := c.maxNew, onCommit := c.onCommit }

variable {σ η γ : Type} {E : SpecEngine σ η} {R B : Burst} {sp : SpecSampling} {start : List Tok}

/-- The request `R` cut into bursts. -/
def runPartition (E : SpecEngine σ η) (R : Burst) (c : Cut) (cs : List Cut) :
    Prog (Except SpecErr (List (BurstOut σ η Unit))) :=
  runBursts E (R.part R.suffix c :: cs.map (R.part [])) (newSession E.T) none

/-- The tokens of a partition. -/
def tokensOf : Except SpecErr (List (BurstOut σ η γ)) → List Tok
  | .ok rs => outputs rs
  | .error _ => []

/-- The target distribution after the tokens `xs` of a request. -/
def targetOf (E : SpecEngine σ η) (R : Burst) (sp : SpecSampling) (xs : List Tok) : Pmf :=
  E.softmax sp (E.T.row (E.T.after (R.suffix ++ xs)))

/-- A partition emits the law of drawing every token, the first one included, from the target. -/
def PartitionExact (E : SpecEngine σ η) (R : Burst) (sp : SpecSampling) (c : Cut) (cs : List Cut) :
    Prop :=
  ∀ xs y, (runPartition E R c cs).mass (fun r => xs ++ [y] <+: tokensOf r) =
    (runPartition E R c cs).mass (fun r => xs <+: tokensOf r ∧ xs.length < (tokensOf r).length) *
      (targetOf E R sp xs).prob y

/-- The filtered target is a point mass on the argmax all along the greedy path. -/
def PointTarget (E : SpecEngine σ η) (sp : SpecSampling) (start : List Tok) : Prop :=
  ∀ n, (E.softmax sp (E.T.row (E.T.after (start ++ E.T.greedy (E.T.after start) n)))).prob
    (E.T.pred (E.T.after (start ++ E.T.greedy (E.T.after start) n))) = 1

theorem PointTarget.drop (h : PointTarget E sp start) (m : ℕ) :
    PointTarget E sp (start ++ E.T.greedy (E.T.after start) m) := by
  intro n
  have := h (m + n)
  rwa [E.T.greedy_add, ← E.T.after_append, ← List.append_assoc] at this

/-! ## Rounds over a point target -/

/-- The walk accepts greedy drafts only: the rest have no target mass. -/
theorem acceptSampled_point (h : PointTarget E sp start) {draft : List Tok} (row : ℕ → Row)
    (hrow : ∀ j ≤ draft.length, row j = E.T.row (E.T.after (start ++ draft.take j)))
    (z : List (ℕ × Row)) (l : List (Tok × ℕ × Row)) (j uctr : ℕ) (hl : (draft.zip z).drop j = l)
    (hj : j ≤ draft.length) (hpre : draft.take j = E.T.greedy (E.T.after start) j) :
    Surely (fun r => r.1 ≤ draft.length ∧ draft.take r.1 = E.T.greedy (E.T.after start) r.1)
      (acceptSampled E sp row j uctr l) := by
  induction l generalizing j uctr with
  | nil => exact ⟨hj, hpre⟩
  | cons x l ih =>
    obtain ⟨d, i, qrow⟩ := x
    have hlt : j < (draft.zip z).length := by
      by_contra hge
      rw [List.drop_eq_nil_of_le (not_lt.1 hge)] at hl
      cases hl
    obtain ⟨hx, hrest⟩ := List.cons.inj ((List.drop_eq_getElem_cons hlt).symm.trans hl)
    have hjd : j < draft.length := lt_of_lt_of_le hlt (by rw [List.length_zip]; exact min_le_left _ _)
    have hd : draft[j] = d := by
      rw [List.getElem_zip] at hx
      exact (Prod.mk.inj hx).1
    unfold acceptSampled
    intro ok hok
    cases ok with
    | false => exact ⟨hj, hpre⟩
    | true =>
      have hpos : (E.softmax sp (row j)).prob d ≠ 0 := by
        intro h0
        refine hok ?_
        rw [h0]
        unfold acceptBias
        split
        · rw [if_neg (lt_irrefl 0)]
        · simp
      rw [hrow j hj, hpre] at hpos
      have hd' := Pmf.eq_of_prob_eq_one (h j) hpos
      refine ih (j + 1) (bump uctr) hrest hjd ?_
      rw [List.take_succ_eq_append_getElem hjd, hpre, hd, hd', E.T.greedy_succ, ← E.T.after_append]

/-- **Over a point target every sampled round settles on a greedy segment**, almost surely. -/
theorem settlesGreedy_of_point (hs : B.sampled = some sp) (h : PointTarget E sp start) :
    SettlesGreedy .possible γ E B start := by
  intro st fed hinv hout _ _ ch hch
  have hpt : PointTarget E sp (start ++ st.out) := by
    rw [hout]
    exact h.drop _
  have hrow : ∀ j ≤ ch.draft.length, tRow st.base (st.lastCol.getD [])
      ((E.T.cols st.cache.st (st.pending.toList ++ ch.draft)).map E.T.row) j =
        E.T.row (E.T.after (start ++ st.out ++ ch.draft.take j)) :=
    fun j hj => hinv.tRow (by rw [hs]; rfl) ch.draft hj
  have hwalk := acceptSampled_point hpt _ hrow (ch.idx.zip ch.rows) _ 0 st.uctr rfl
    (Nat.zero_le _) rfl
  rw [List.drop_zero] at hwalk
  unfold settle accept
  rw [hs]
  simp only [bind_assoc', pure_bind', hch]
  refine hwalk.bind fun r hr => ?_
  obtain ⟨hle, hpre⟩ := hr
  intro bonus hbonus
  have hpred : bonus = E.T.pred (E.T.after (start ++ st.out ++ ch.draft.take r.1)) := by
    have hone := hpt r.1
    rw [← hpre] at hone
    rw [hrow r.1 hle] at hbonus
    dsimp only [Via.possible] at hbonus
    split at hbonus
    · exact Pmf.eq_of_prob_eq_one hone hbonus
    · rcases Pmf.residual_support hbonus with hdef | hpos
      · exact hdef
      · exact Pmf.eq_of_prob_eq_one hone hpos
  refine ⟨rfl, hle, ?_⟩
  rw [E.T.greedy_succ, ← hpre, hpred, ← E.T.after_append]

/-! ## Partitions of a request -/

/-- Bursts of one token run no round. -/
theorem settlesGreedy_of_one {V : Via} (hs : B.sampled.isSome) (hone : B.maxNew ≤ 1) :
    SettlesGreedy V γ E B start := by
  intro st fed _ _ hlt hbegun
  have := List.length_pos_iff.2 (hbegun hs)
  omega

/-- A partition whose bursts all settle greedily emits the greedy continuation. -/
theorem runPartition_greedy {V : Via} (hprompt : R.suffix ≠ []) {c : Cut} {cs : List Cut}
    (hset : ∀ c' ∈ c :: cs, ∀ suffix n, SettlesGreedy V Unit E (R.part suffix c')
      (R.suffix ++ E.T.greedy (E.T.after R.suffix) n)) :
    Along V (Ends (fun _ => False) (GreedyRun E R.suffix (R.part R.suffix c :: cs.map (R.part []))))
      (runPartition E R c cs) := by
  have hcold := hset c List.mem_cons_self R.suffix 0
  rw [Trunk.greedy, List.append_nil] at hcold
  refine greedy_bursts (R.part R.suffix c) hprompt hcold (cs.map (R.part [])) fun B hB => ?_
  obtain ⟨c', hc', rfl⟩ := List.mem_map.1 hB
  exact ⟨rfl, hset c' (List.mem_cons_of_mem _ hc') []⟩

/-- The cut after every token. -/
def oneCut : Cut := { maxNew := 1, onCommit := fun _ => true }

/-- Cut after every token, a request emits its greedy path. -/
theorem ones_greedy (hprompt : R.suffix ≠ []) (hs : R.sampled = some sp) (n : ℕ) :
    Always (fun r => tokensOf r = E.T.greedy (E.T.after R.suffix) (tokensOf r).length ∧
      n < (tokensOf r).length) (runPartition E R oneCut (List.replicate n oneCut)) := by
  have hset : ∀ c' ∈ oneCut :: List.replicate n oneCut, ∀ suffix m,
      SettlesGreedy .any Unit E (R.part suffix c')
        (R.suffix ++ E.T.greedy (E.T.after R.suffix) m) := by
    intro c' hc' suffix m
    obtain rfl : c' = oneCut := by
      rcases List.mem_cons.1 hc' with h | h
      · exact h
      · exact List.eq_of_mem_replicate h
    exact settlesGreedy_of_one (by show R.sampled.isSome = true; rw [hs]; rfl) le_rfl
  refine (runPartition_greedy hprompt hset).mono fun r hr => ?_
  cases r with
  | error e => exact hr.elim
  | ok rs =>
    refine ⟨hr.greedy, ?_⟩
    -- every burst reaches its budget of one token
    have hlen : ∀ (Bs : List Burst) (rs : List (BurstOut σ η Unit)), List.Forall₂ (fun B r =>
        r.calls.flatten = r.out ∧ ((∀ cs, B.onCommit cs = true) → B.maxNew ≤ r.out.length)) Bs rs →
        (∀ B ∈ Bs, 1 ≤ B.maxNew ∧ ∀ cs, B.onCommit cs = true) →
        Bs.length ≤ (outputs rs).length := by
      intro Bs rs hall
      induction hall with
      | nil => exact fun _ => le_rfl
      | cons hB _ ih =>
        intro hBs
        obtain ⟨h1, hk⟩ := hBs _ List.mem_cons_self
        have := ih fun B' hB' => hBs B' (List.mem_cons_of_mem _ hB')
        have := hB.2 hk
        rw [outputs_cons, List.length_append, List.length_cons]
        omega
    have := hlen _ _ hr.each fun B hB => by
      rcases List.mem_cons.1 hB with rfl | hB
      · exact ⟨le_rfl, fun _ => rfl⟩
      · obtain ⟨c', hc', rfl⟩ := List.mem_map.1 hB
        rw [List.eq_of_mem_replicate hc']
        exact ⟨le_rfl, fun _ => rfl⟩
    rw [List.length_cons, List.length_map, List.length_replicate] at this
    exact this

/-- Over a point target every partition emits the greedy path, almost surely. -/
theorem partition_point (hprompt : R.suffix ≠ []) (hs : R.sampled = some sp)
    (h : PointTarget E sp R.suffix) (c : Cut) (cs : List Cut) :
    Surely (fun r => tokensOf r = E.T.greedy (E.T.after R.suffix) (tokensOf r).length)
      (runPartition E R c cs) := by
  refine (runPartition_greedy hprompt fun c' _ suffix n =>
    settlesGreedy_of_point (by exact hs) (h.drop n)).mono fun r hr => ?_
  cases r with
  | error e => exact hr.elim
  | ok rs => exact hr.greedy

theorem greedy_concat_iff (T : Trunk σ η) (s : σ) (n : ℕ) (xs : List Tok) (y : Tok) :
    xs ++ [y] <+: T.greedy s n ↔ (xs <+: T.greedy s n ∧ xs.length < n) ∧
      y = T.pred (T.feed s xs) := by
  have htake : ∀ m, m ≤ n → (T.greedy s n).take m = T.greedy s m := fun m hm => by
    rw [T.greedy_take, Nat.min_eq_left hm]
  constructor
  · intro h
    have hlen := h.length_le
    rw [List.length_append, List.length_singleton, T.greedy_length] at hlen
    have hall := List.prefix_iff_eq_take.1 h
    rw [List.length_append, List.length_singleton, htake _ hlen, T.greedy_succ] at hall
    obtain ⟨hxs, hy⟩ := List.append_inj hall (by rw [T.greedy_length])
    refine ⟨⟨(List.prefix_append xs [y]).trans h, hlen⟩, ?_⟩
    rw [← hxs] at hy
    exact (List.cons.inj hy).1
  · rintro ⟨⟨hxs, hlen⟩, rfl⟩
    have hxs := List.prefix_iff_eq_take.1 hxs
    rw [htake _ hlen.le] at hxs
    have : xs ++ [T.pred (T.feed s xs)] = T.greedy s (xs.length + 1) := by
      rw [T.greedy_succ, ← hxs]
    rw [this, ← htake _ hlen]
    exact List.take_prefix _ _

/-- **When burst boundaries are neutral for a sampled request**: every partition emits the law of
drawing every token from the filtered target exactly when that target is a point mass on the argmax
all along the greedy path of the prompt. -/
theorem burst_neutral_iff (E : SpecEngine σ η) (R : Burst) (sp : SpecSampling)
    (hprompt : R.suffix ≠ []) (hs : R.sampled = some sp) :
    (∀ c cs, PartitionExact E R sp c cs) ↔ PointTarget E sp R.suffix := by
  constructor
  · intro h n
    -- cut after every token, the greedy path has mass one
    have hones := ones_greedy (E := E) hprompt hs n
    have hex := h oneCut (List.replicate n oneCut) (E.T.greedy (E.T.after R.suffix) n)
      (E.T.pred (E.T.after (R.suffix ++ E.T.greedy (E.T.after R.suffix) n)))
    have hpre : ∀ r : Except SpecErr (List (BurstOut σ η Unit)),
        tokensOf r = E.T.greedy (E.T.after R.suffix) (tokensOf r).length ∧ n < (tokensOf r).length →
        E.T.greedy (E.T.after R.suffix) n <+: tokensOf r := fun r hr => by
      rw [hr.1, List.prefix_iff_eq_take, E.T.greedy_length, E.T.greedy_take,
        Nat.min_eq_left hr.2.le]
    have hfull := hones.mono fun r hr => by
      have := (greedy_concat_iff E.T (E.T.after R.suffix) (tokensOf r).length
        (E.T.greedy (E.T.after R.suffix) n)
        (E.T.pred (E.T.after (R.suffix ++ E.T.greedy (E.T.after R.suffix) n)))).2
        ⟨⟨by rw [← hr.1]; exact hpre r hr, by rw [E.T.greedy_length]; exact hr.2⟩,
          by rw [E.T.after_append]⟩
      rwa [← hr.1] at this
    have hpart := hones.mono fun r hr => show E.T.greedy (E.T.after R.suffix) n <+: tokensOf r ∧
      (E.T.greedy (E.T.after R.suffix) n).length < (tokensOf r).length from
      ⟨hpre r hr, by rw [E.T.greedy_length]; exact hr.2⟩
    rw [Always.mass_eq_one hfull, Always.mass_eq_one hpart, one_mul] at hex
    exact hex.symm
  · intro h c cs xs y
    have hpoint := partition_point hprompt hs h c cs
    by_cases hxs : xs = E.T.greedy (E.T.after R.suffix) xs.length
    · have hone := h xs.length
      rw [← hxs] at hone
      by_cases hy : y = E.T.pred (E.T.after (R.suffix ++ xs))
      · -- the prediction follows whenever there is a next token
        rw [hy, targetOf, hone, mul_one]
        refine Surely.mass_congr hpoint fun r hr => ?_
        have := greedy_concat_iff E.T (E.T.after R.suffix) (tokensOf r).length xs
          (E.T.pred (E.T.after (R.suffix ++ xs)))
        rw [← hr] at this
        rw [this, E.T.after_append, and_iff_left rfl]
      · -- no other token has target mass, and none comes out
        have hzero : (targetOf E R sp xs).prob y = 0 :=
          Decidable.not_not.1 fun hne => hy (Pmf.eq_of_prob_eq_one hone hne)
        rw [hzero, mul_zero]
        refine Surely.mass_eq_zero (hpoint.mono fun r hr hpre => hy ?_)
        rw [hr, greedy_concat_iff, ← E.T.after_append] at hpre
        exact hpre.2
    · -- off the greedy path nothing has mass
      have hoff : Surely (fun r => ¬ xs <+: tokensOf r) (runPartition E R c cs) :=
        hpoint.mono fun r hr hpre => hxs <| by
          have hlen := hpre.length_le
          rw [hr, List.prefix_iff_eq_take, E.T.greedy_take, Nat.min_eq_left hlen] at hpre
          exact hpre
      rw [Surely.mass_eq_zero (hoff.mono fun r hr hpre => hr ((List.prefix_append _ _).trans hpre)),
        Surely.mass_eq_zero (hoff.mono fun r hr hpre => hr hpre.1), zero_mul]

/-- A sampled request over the point targets of `listEngine`. -/
def pointRequest : Burst := { demoBurst [0] 2 true with sampling := some coinSampling }

theorem burst_neutral_iff_demo :
    PartitionExact listEngine pointRequest coinSampling oneCut [oneCut] :=
  (burst_neutral_iff listEngine pointRequest coinSampling (by decide) rfl).2
    (fun n => by simp [listEngine, Trunk.pred, Pmf.point]) oneCut [oneCut]

/-- The first token of a burst is no draw: cut after it, a request whose target is a fair bit emits
the argmax with mass one. -/
theorem burst_neutral_fails : ¬ PartitionExact coinEngine coinBurst coinSampling oneCut [] := by
  intro hex
  have hones := ones_greedy (E := coinEngine) (R := coinBurst) (by decide)
    (show coinBurst.sampled = some coinSampling from rfl) 0
  have h0 := hex [] 0
  have hfirst : Always (fun r => [] ++ [0] <+: tokensOf r) (runPartition coinEngine coinBurst oneCut []) :=
    hones.mono fun r hr => by
      rw [hr.1, greedy_concat_iff]
      exact ⟨⟨List.nil_prefix, hr.2⟩, by decide⟩
  have hsome : Always (fun r => [] <+: tokensOf r ∧ ([] : List Tok).length < (tokensOf r).length)
      (runPartition coinEngine coinBurst oneCut []) :=
    hones.mono fun r hr => ⟨List.nil_prefix, hr.2⟩
  rw [Always.mass_eq_one hfirst, Always.mass_eq_one hsome, one_mul, targetOf,
    show coinEngine.softmax coinSampling = coinSoftmax from rfl, coinRow] at h0
  norm_num [Pmf.two] at h0

end Memra
