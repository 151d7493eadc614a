import Memra.Server.Constrained

/-!
# Draft masking does not touch the committed grammar

`Coherent`: the matcher stands behind the committed tokens, a cached mask is the mask of that state, and
the clone stands behind the accepted tokens of the draft chain. Every call keeps it
(`Coherent.step`), so that the answers of any sequence of calls are those of the committed state
(`answers_committed`).
-/

namespace Memra.Constrained

variable {γ : Type} {M : Matcher γ}

/-- The hook behind the committed tokens, with the chain of a draft. -/
structure Coherent (M : Matcher γ) (m : γ) (on : Bool) (eos : Tok) (toks : List Tok)
    (chain : Option (List Tok)) (g : SpecGrammar γ) : Prop where
  on_eq : g.on = on
  eos_eq : g.eos = eos
  state : M.consumeAll m toks = .ok g.c.m
  cur : ∀ v, g.cur = some v → M.computeMaskOrEos g.c.m = .ok v
  spec : g.spec.isSome = chain.isSome
  chain : ∀ d ts, g.spec = some d → chain = some ts → M.consumeAll g.c.m ts = .ok d
  off : on = false → g.spec = none

theorem consumeAll_snoc {m s s' : γ} {toks : List Tok} {tok : Tok}
    (h : M.consumeAll m toks = .ok s) (hs : M.consumeToken s tok = .ok s') :
    M.consumeAll m (toks ++ [tok]) = .ok s' := by
  unfold Matcher.consumeAll at *
  rw [List.foldlM_append, h]
  change (List.foldlM M.consumeToken s [tok]) = _
  rw [List.foldlM_cons, hs]
  rfl

theorem curMask_spec {g : SpecGrammar γ}
    (hcur : ∀ v, g.cur = some v → M.computeMaskOrEos g.c.m = .ok v) :
    (g.curMask M).1 = M.computeMaskOrEos g.c.m ∧
      (∀ v, (g.curMask M).2.cur = some v → M.computeMaskOrEos g.c.m = .ok v) ∧
      (g.curMask M).2.c.m = g.c.m ∧ (g.curMask M).2.spec = g.spec ∧
      (g.curMask M).2.on = g.on ∧ (g.curMask M).2.eos = g.eos := by
  unfold SpecGrammar.curMask
  split
  · rename_i v hv
    exact ⟨(hcur v hv).symm, hcur, rfl, rfl, rfl, rfl⟩
  · split
    · rename_i e he
      exact ⟨he.symm, hcur, rfl, rfl, rfl, rfl⟩
    · rename_i v hv
      refine ⟨hv.symm, ?_, rfl, rfl, rfl, rfl⟩
      intro v' hv'
      cases hv'
      exact hv

theorem Coherent.curMask {m : γ} {on : Bool} {eos : Tok} {toks : List Tok}
    {chain : Option (List Tok)} {g : SpecGrammar γ} (h : Coherent M m on eos toks chain g) :
    Coherent M m on eos toks chain (g.curMask M).2 := by
  obtain ⟨-, hcur, hm, hspec, hon, heos⟩ := curMask_spec h.cur
  refine ⟨hon.trans h.on_eq, heos.trans h.eos_eq, ?_, ?_, ?_, ?_, ?_⟩
  · rw [hm]
    exact h.state
  · rw [hm]
    exact hcur
  · rw [hspec]
    exact h.spec
  · rw [hm, hspec]
    exact h.chain
  · rw [hspec]
    exact h.off

section

variable {m : γ} {on : Bool} {eos : Tok} {toks : List Tok} {chain : Option (List Tok)}
  {g : SpecGrammar γ}

theorem Coherent.consume (h : Coherent M m on eos toks chain g) {tok : Tok}
    (hok : ∀ e, (g.consume M tok).1 ≠ .error e) :
    Coherent M m on eos (toks ++ committed eos [.consume tok]) none (g.consume M tok).2 := by
  unfold SpecGrammar.consume at hok ⊢
  by_cases htok : tok = g.eos
  · have hnone : committed eos [.consume tok] = [] := by simp [committed, htok, h.eos_eq]
    rw [hnone, List.append_nil]
    simp only [if_pos htok]
    exact ⟨h.on_eq, h.eos_eq, h.state, h.cur, rfl, nofun, fun _ => rfl⟩
  · have hone : committed eos [.consume tok] = [tok] := by
      simp [committed, ← h.eos_eq, htok]
    rw [hone]
    simp only [if_neg htok] at hok ⊢
    split
    · rename_i e he
      simp only [he] at hok
      exact absurd rfl (hok e)
    · rename_i s hs
      exact ⟨h.on_eq, h.eos_eq, consumeAll_snoc h.state hs, nofun, rfl, nofun, fun _ => rfl⟩

theorem draftBegin_of_on (hon : g.on = true) :
    g.draftBegin =
      { g with c := { g.c with specClones := g.c.specClones + 1 }, spec := some g.c.m } :=
  if_pos hon

theorem draftBegin_of_off (hon : g.on = false) : g.draftBegin = { g with spec := none } :=
  if_neg (by simp [hon])

theorem Coherent.draftBegin (h : Coherent M m on eos toks chain g) :
    Coherent M m on eos toks (if on then some [] else none) g.draftBegin := by
  have hon := h.on_eq
  cases on with
  | false =>
    rw [draftBegin_of_off hon]
    exact ⟨hon, h.eos_eq, h.state, h.cur, rfl, nofun, fun _ => rfl⟩
  | true =>
    rw [draftBegin_of_on hon]
    refine ⟨hon, h.eos_eq, h.state, h.cur, rfl, ?_, nofun⟩
    intro d ts hd hts
    cases hd
    cases hts
    rfl

theorem draftMaskWords_none (hspec : g.spec = none) : (g.draftMaskWords M).1 = .ok none := by
  unfold SpecGrammar.draftMaskWords
  rw [hspec]
  split
  · rfl
  · rfl

theorem draftMaskWords_some {d : γ} (hon : g.on = true) (hspec : g.spec = some d) :
    (g.draftMaskWords M).1 = (M.computeMaskOrEos d).map fun mask => some (asSlice mask) := by
  unfold SpecGrammar.draftMaskWords
  rw [if_pos hon, hspec]
  cases hmask : M.computeMaskOrEos d with
  | error e => simp only [hmask, Except.map]
  | ok mask => simp only [hmask, Except.map]

theorem Coherent.draftMaskWords (h : Coherent M m on eos toks chain g) :
    Coherent M m on eos toks chain (g.draftMaskWords M).2 := by
  unfold SpecGrammar.draftMaskWords
  split
  · split
    · exact h
    · split
      · exact h
      · exact ⟨h.on_eq, h.eos_eq, h.state, h.cur, h.spec, h.chain, h.off⟩
  · exact h

theorem Coherent.draftAdvance (h : Coherent M m on eos toks chain g) (tok : Tok) :
    Coherent M m on eos toks
      (draftStep on chain (.draftAdvance tok, .advanced (g.draftAdvance M tok).1))
      (g.draftAdvance M tok).2 := by
  unfold SpecGrammar.draftAdvance
  split
  · split
    · exact h
    · rename_i d hd
      split
      · exact h
      · split
        · rename_i d' hd'
          have hspec := h.spec
          rw [hd] at hspec
          obtain ⟨ts, hts⟩ := Option.isSome_iff_exists.1 hspec.symm
          refine ⟨h.on_eq, h.eos_eq, h.state, h.cur, ?_, ?_, ?_⟩
          · rw [hts]
            rfl
          · intro d'' ts' hd'' hts'
            rw [hts] at hts'
            cases hd''
            cases hts'
            exact consumeAll_snoc (h.chain d ts hd hts) hd'
          · intro hoff
            rw [h.off hoff] at hd
            cases hd
        · exact h
  · exact h

/-- **Every call keeps it.** -/
theorem Coherent.step (h : Coherent M m on eos toks chain g) {call : Call}
    (hok : ∀ e, (g.step M call).1 ≠ .consumed (.error e)) :
    Coherent M m on eos (toks ++ committed eos [call])
      (draftStep on chain (call, (g.step M call).1)) (g.step M call).2 := by
  cases call with
  | maskLogits logits =>
    rw [show committed eos [.maskLogits logits] = [] from rfl, List.append_nil]
    exact h.curMask
  | maskWords =>
    rw [show committed eos [.maskWords] = [] from rfl, List.append_nil]
    exact h.curMask
  | isAllowed tok =>
    rw [show committed eos [.isAllowed tok] = [] from rfl, List.append_nil]
    exact h.curMask
  | consume tok => exact h.consume fun e he => hok e (congrArg Answer.consumed he)
  | draftBegin =>
    rw [show committed eos [.draftBegin] = [] from rfl, List.append_nil]
    exact h.draftBegin
  | draftMaskWords =>
    rw [show committed eos [.draftMaskWords] = [] from rfl, List.append_nil]
    exact h.draftMaskWords
  | draftAdvance tok =>
    rw [show committed eos [.draftAdvance tok] = [] from rfl, List.append_nil]
    exact h.draftAdvance tok

end

/-! ## Any sequence of calls -/

theorem run_snoc (M : Matcher γ) (g : SpecGrammar γ) (calls : List Call) (call : Call) :
    g.run M (calls ++ [call]) =
      ((g.run M calls).1 ++ [(call, ((g.run M calls).2.step M call).1)],
        ((g.run M calls).2.step M call).2) := by
  unfold SpecGrammar.run
  rw [List.foldl_append]
  rfl

theorem run_coherent {m : γ} {eos : Tok} {on : Bool} {calls : List Call}
    (hok : ∀ tok e, (.consume tok, .consumed (.error e)) ∉ ((SpecGrammar.new m eos on).run M calls).1) :
    Coherent M m on eos (committed eos calls)
      (drafted on ((SpecGrammar.new m eos on).run M calls).1)
      ((SpecGrammar.new m eos on).run M calls).2 := by
  induction calls using List.reverseRecOn with
  | nil => exact ⟨rfl, rfl, rfl, nofun, rfl, nofun, fun _ => rfl⟩
  | append_singleton calls call ih =>
    rw [run_snoc] at hok ⊢
    have hcalls := ih fun tok e hmem => hok tok e (List.mem_append_left _ hmem)
    have hlast : ∀ e, (((SpecGrammar.new m eos on).run M calls).2.step M call).1 ≠
        .consumed (.error e) := by
      intro e he
      cases call with
      | consume tok => exact hok tok e (List.mem_append_right _ (by rw [he]; exact List.mem_cons_self))
      | _ => cases he
    have hstep := hcalls.step hlast
    rw [committed, List.filterMap_append, drafted, List.foldl_append]
    exact hstep

/-- **The answers are those of the committed state**, whatever the draft chain does: the state behind
exactly the non-EOS tokens passed to `consume`. The cached mask is never stale, and the draft masks
are those of the committed state behind the tokens that the chain accepted since it began. -/
theorem answers_committed {m : γ} {eos : Tok} {on : Bool} {calls : List Call}
    {trace : List (Call × Answer)} {g : SpecGrammar γ}
    (hrun : (SpecGrammar.new m eos on).run M calls = (trace, g))
    (hok : ∀ tok e, (.consume tok, .consumed (.error e)) ∉ trace) :
    ∃ s, M.consumeAll m (committed eos calls) = .ok s ∧
      (∀ v, g.cur = some v → M.computeMaskOrEos s = .ok v) ∧
      (∀ logits, (g.step M (.maskLogits logits)).1 =
        .logits ((M.computeMaskOrEos s).map fun mask => applyMask mask logits)) ∧
      (g.step M .maskWords).1 = .words ((M.computeMaskOrEos s).map asSlice) ∧
      (∀ tok, (g.step M (.isAllowed tok)).1 = .allowed
        ((M.computeMaskOrEos s).map fun mask => tok < mask.length && mask.getD tok false)) ∧
      (drafted on trace = none → (g.step M .draftMaskWords).1 = .draftWords (.ok none)) ∧
      ∀ toks, drafted on trace = some toks → ∃ d, M.consumeAll s toks = .ok d ∧
        (g.step M .draftMaskWords).1 =
          .draftWords ((M.computeMaskOrEos d).map fun mask => some (asSlice mask)) := by
  have htrace : ((SpecGrammar.new m eos on).run M calls).1 = trace := by rw [hrun]
  have hcoh : Coherent M m on eos (committed eos calls) (drafted on trace) g := by
    have hok' : ∀ tok e, (.consume tok, .consumed (.error e)) ∉
        ((SpecGrammar.new m eos on).run M calls).1 := by
      rwa [htrace]
    have h := run_coherent hok'
    rwa [hrun] at h
  obtain ⟨hmask, -⟩ := curMask_spec hcoh.cur
  refine ⟨g.c.m, hcoh.state, hcoh.cur, ?_, ?_, ?_, ?_, ?_⟩
  · intro logits
    change Answer.logits ((g.curMask M).1.map _) = _
    rw [hmask]
  · change Answer.words ((g.curMask M).1.map _) = _
    rw [hmask]
  · intro tok
    change Answer.allowed ((g.curMask M).1.map _) = _
    rw [hmask]
  · intro hnone
    have hspec := hcoh.spec
    rw [hnone, Option.isSome_none, Option.isSome_eq_false_iff, Option.isNone_iff_eq_none] at hspec
    change Answer.draftWords (g.draftMaskWords M).1 = _
    rw [draftMaskWords_none hspec]
  · intro toks hsome
    have hspec := hcoh.spec
    rw [hsome, Option.isSome_some] at hspec
    obtain ⟨d, hd⟩ := Option.isSome_iff_exists.1 hspec
    refine ⟨d, hcoh.chain d toks hd hsome, ?_⟩
    change Answer.draftWords (g.draftMaskWords M).1 = _
    have hon : g.on = true := by
      rw [hcoh.on_eq]
      by_contra hoff
      rw [hcoh.off (by simpa using hoff)] at hd
      cases hd
    rw [draftMaskWords_some hon hd]

/-- Round brackets: the state counts the open ones, and the end is legal when none is open. -/
def brackets : Matcher ℕ where
  computeMaskOrEos opened := .ok [true, opened != 0, opened == 0]
  consumeToken opened tok :=
    match tok, opened with
    | 0, n => .ok (n + 1)
    | 1, n + 1 => .ok n
    | _, _ => .error "not allowed"

theorem answers_committed_brackets :
    ∃ s d, brackets.consumeAll 0 [0] = .ok s ∧ s = 1 ∧ brackets.consumeAll s [1] = .ok d ∧ d = 0 := by
  have hrun : (SpecGrammar.new 0 2 true).run brackets
      [.consume 0, .draftBegin, .draftAdvance 1, .draftAdvance 1] =
      ([(.consume 0, .consumed (.ok ())), (.draftBegin, .begun),
        (.draftAdvance 1, .advanced true), (.draftAdvance 1, .advanced false)],
        { c := { m := 1, specClones := 1 }, eos := 2, spec := some 0, on := true }) := rfl
  obtain ⟨s, hs, -, -, -, -, -, hdraft⟩ := answers_committed hrun (by simp)
  obtain ⟨d, hd, -⟩ := hdraft [1] rfl
  have hs' : brackets.consumeAll 0 [0] = .ok s := hs
  refine ⟨s, d, hs', ?_, hd, ?_⟩
  · cases hs'
    rfl
  · cases hs'
    cases hd
    rfl

end Memra.Constrained
