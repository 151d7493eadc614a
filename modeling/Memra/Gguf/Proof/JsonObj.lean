import Memra.Gguf.Proof.JsonObjScan
import Memra.Tokenizer.Proof.JsonComplete
import Memra.Tokenizer.Proof.JsonSound

/-!
# The JSON reader

The reader goes out of the text exactly on the texts that are cut behind a backslash in a value, and on
the text of an object it yields, for every key, the source text of its last value.

`parseLoop_cases` follows a run, and says what was passed when it ends in a panic; `parseLoop_cut` is the
converse. What stands in a value leaves the depth of every block around it as it is (`ValueText.neutral`),
so the scanner finds the end of a value (`readValueRaw_text`), and with it the next member.
-/

namespace Memra

namespace JsonObj

open Lib Lib.Cursor
open Json (byte asChar isWs utf8_cons)

variable {b : List UInt8} {i : ℕ} {rest : List UInt8}

/-! ## Values -/

/-- A byte that is no white space and begins no string and no block. -/
def BeginsScalar (c : UInt8) : Prop :=
  isWs c = false ∧ c ≠ byte '"' ∧ c ≠ byte '{' ∧ c ≠ byte '['

instance (c : UInt8) : Decidable (BeginsScalar c) := inferInstanceAs (Decidable (_ ∧ _))

theorem isScalar_ws {c : UInt8} (h : isWs c = true) : isScalar c = true := by
  unfold isWs at h
  simp only [Bool.or_eq_true, beq_iff_eq] at h
  rcases h with ((rfl | rfl) | rfl) | rfl <;> decide

/-- A value was read up to `j`: to the end, or so that it can stand before the next comma. -/
structure ValueRead (b : List UInt8) (i j : ℕ) : Prop where
  le : i ≤ j
  within : j ≤ b.length
  value : j = b.length ∨ ∀ w rest, (∀ c ∈ w, isWs c = true) → b.drop j = w ++ byte ',' :: rest →
    ∃ v, RawValue v ∧ b.drop i = v ++ byte ',' :: rest

/-- The outcomes for a value. -/
def ReadOrCut (b : List UInt8) (i : ℕ) : Prop :=
  (∃ s j, readValueRaw b i = .ok (s, j) ∧ ValueRead b i j) ∨
    (readValueRaw b i = .error .panic ∧ CutValue (b.drop i))

theorem ReadOrCut.toEnd {s : List Char} (hi : i ≤ b.length)
    (h : readValueRaw b i = .ok (s, b.length)) : ReadOrCut b i :=
  .inl ⟨s, b.length, h, hi, le_rfl, .inl rfl⟩

theorem ReadOrCut.cut (h : CutValue (b.drop i)) : ReadOrCut b i := .inr ⟨readValueRaw_cut h, h⟩

theorem string_cases (h : b.drop i = byte '"' :: rest) : ReadOrCut b i := by
  have hrest := drop_succ_of_drop h
  have hlt := lt_of_drop h
  obtain ⟨u, hu, ⟨rest', rfl⟩ | rfl | rfl⟩ := inside_cases (byte '"') (byte '\\') rest
  · have hquote := drop_add_of_drop hrest
    have hlen := lt_of_drop hquote
    refine .inl ⟨_, _, readValueRaw_closed hu h, by omega, by omega, .inr fun w rest hw hdrop => ?_⟩
    have htail : rest' = w ++ byte ',' :: rest := by
      rw [← drop_succ_of_drop hquote, ← hdrop]
      congr 1
      omega
    refine ⟨_, .string hu hw, ?_⟩
    rw [h, htail, List.cons_append, List.append_assoc, List.cons_append]
  · have hend := length_of_end hrest hlt
    refine .toEnd hlt.le (s := lossy (b.drop i)) ?_
    rw [readValueRaw_string h, stringEnd_inside (r := []) hu (by rwa [List.append_nil]), hend,
      stringEnd_end le_rfl, copy_end hlt.le]
  · apply ReadOrCut.cut
    rw [h]
    exact .string hu

theorem block_cases {o c : UInt8} (hb : Brackets o c) (h : b.drop i = o :: rest) :
    ReadOrCut b i := by
  have hrest := drop_succ_of_drop h
  have hlt := lt_of_drop h
  obtain ⟨t, d, ht, hgo⟩ := within_cases (byte '"') (byte '\\') o c rest Nat.one_pos
  have hwithin {rest'} (hdrop : rest = t ++ rest') := blockEnd_within hb ht (hrest.trans hdrop)
  rw [Nat.cast_one] at hwithin
  rcases hgo with ⟨rfl, rest', rfl⟩ | rfl | ⟨u, hu, rfl | rfl⟩
  · have hclose := drop_add_of_drop hrest
    have hlen := lt_of_drop hclose
    refine .inl ⟨_, _, readValueRaw_balanced hb ht h, by omega, by omega,
      .inr fun w rest hw hdrop => ?_⟩
    have htail : rest' = w ++ byte ',' :: rest := by
      rw [← drop_succ_of_drop hclose, ← hdrop]
      congr 1
      omega
    refine ⟨_, .block hb ht hw, ?_⟩
    rw [h, htail, List.cons_append, List.append_assoc, List.cons_append]
  · refine .toEnd hlt.le (s := lossy (b.drop i)) ?_
    rw [readValueRaw_block hb h, hwithin (List.append_nil _).symm, length_of_end hrest hlt,
      blockEnd_end le_rfl, copy_end hlt.le]
  · have hquote := drop_add_of_drop hrest
    have hin := drop_succ_of_drop hquote
    refine .toEnd hlt.le (s := lossy (b.drop i)) ?_
    rw [readValueRaw_block hb h, hwithin rfl, blockEnd_quote hquote,
      blockEnd_inside (r := []) hu (by rwa [List.append_nil]),
      length_of_end hin (lt_of_drop hquote), blockEnd_end le_rfl, copy_end hlt.le]
  · apply ReadOrCut.cut
    rw [h]
    exact .block hb ht hu

theorem scalar_cases (hi : i ≤ b.length) (hhead : ∀ c ∈ (b.drop i).head?, BeginsScalar c) :
    ReadOrCut b i := by
  obtain ⟨t, j, hskip, hdrop, hij, hj, ht, hstop⟩ := skip_cases (ε := Empty) isScalar hi
  have hlen : j = i + t.length := by
    have := congrArg List.length hdrop
    rw [List.length_append, List.length_drop, List.length_drop] at this
    omega
  refine .inl ⟨_, j, readValueRaw_scalar hdrop hi hlen hhead ht hstop, hij, hj,
    .inr fun w rest hw hrest => ?_⟩
  -- the scalar takes the white space behind it
  have hnil : w = [] := by
    cases w with
    | nil => rfl
    | cons x w =>
      have hx := hstop x (by rw [hrest]; rfl)
      rw [isScalar_ws (hw x List.mem_cons_self)] at hx
      cases hx
  rw [hrest, hnil, List.nil_append] at hdrop
  refine ⟨t, .scalar ht fun c hc => ?_, hdrop⟩
  apply hhead
  rw [hdrop]
  cases t with
  | nil => cases hc
  | cons x t => exact hc

/-- A value is read, or it is cut. -/
theorem readValueRaw_cases (hi : i ≤ b.length) (hhead : ∀ c ∈ (b.drop i).head?, isWs c = false) :
    ReadOrCut b i := by
  cases hd : b.drop i with
  | nil =>
    apply scalar_cases hi
    rw [hd]
    exact fun c hc => by cases hc
  | cons c rest =>
    by_cases hq : c = byte '"'
    · exact string_cases (hq ▸ hd)
    · by_cases hbrace : c = byte '{'
      · exact block_cases (.inl ⟨hbrace, rfl⟩) hd
      · by_cases hbracket : c = byte '['
        · exact block_cases (.inr ⟨hbracket, rfl⟩) hd
        · apply scalar_cases hi
          intro x hx
          have hws := hhead x hx
          rw [hd] at hx
          obtain rfl := Option.some.inj hx
          exact ⟨hws, hq, hbrace, hbracket⟩

/-- A value before a comma is read, and the comma is next. -/
theorem readValueRaw_raw {v : List UInt8} (hv : RawValue v) (h : b.drop i = v ++ byte ',' :: rest)
    (hi : i ≤ b.length) : ∃ s j, readValueRaw b i = .ok (s, j) ∧ skipWs b j = .ok (i + v.length) := by
  have hcomma : ∀ c ∈ (byte ',' :: rest).head?, isWs c = false := by
    intro c hc
    rw [← Option.some.inj hc]
    decide
  cases hv with
  | @string u w hu hw =>
    rw [List.cons_append, List.append_assoc, List.cons_append] at h
    have hnext := drop_succ_of_drop (drop_add_of_drop (drop_succ_of_drop h))
    refine ⟨_, _, readValueRaw_closed hu h, ?_⟩
    have hskip := skipWs_of_drop hnext hw hcomma
    rw [List.length_cons, List.length_append, List.length_cons]
    convert hskip using 2 <;> omega
  | @block o c t w hb ht hw =>
    rw [List.cons_append, List.append_assoc, List.cons_append] at h
    have hnext := drop_succ_of_drop (drop_add_of_drop (drop_succ_of_drop h))
    refine ⟨_, _, readValueRaw_balanced hb ht h, ?_⟩
    have hskip := skipWs_of_drop hnext hw hcomma
    rw [List.length_cons, List.length_append, List.length_cons]
    convert hskip using 2 <;> omega
  | scalar ht hhead =>
    have hnext := drop_add_of_drop h
    refine ⟨_, _, readValueRaw_scalar (j := i + v.length) (by rw [hnext]; exact h) hi rfl ?_ ht ?_,
      skipWs_here (by rw [hnext]; exact hcomma)⟩
    · rw [h]
      cases v with
      | nil =>
        intro c hc
        rw [← Option.some.inj hc]
        decide
      | cons x v => exact hhead
    · rw [hnext]
      intro c hc
      rw [← Option.some.inj hc]
      decide

/-! ## The members -/

/-- The loop from the value of a member on. -/
def valueStep (b : List UInt8) (fuel : ℕ) (obj : JsonObj) (key : List Char) (i : ℕ) : Res JsonObj := do
  let (val, i) ← readValueRaw b i
  let i ← skipWs b i
  if i < b.length then
    let c ← index b i
    if c = byte ',' then parseLoop b fuel ⟨obj.fields.insert key val⟩ (i + 1)
    else pure ⟨obj.fields.insert key val⟩
  else pure ⟨obj.fields.insert key val⟩

/-- The loop up to the colon of a member. -/
def keyStep (b : List UInt8) (fuel : ℕ) (obj : JsonObj) (i : ℕ) : Res JsonObj := do
  let (key, i) ← readString b i
  let i ← skipWs b i
  if b.length ≤ i then pure obj
  else
    let c ← index b i
    if c ≠ byte ':' then pure obj
    else
      let i ← skipWs b (i + 1)
      valueStep b fuel obj key i

variable {fuel : ℕ} {obj : JsonObj} {key : List Char} {j : ℕ}

theorem ok_bind {α γ : Type} (a : α) (f : α → Res γ) : (Except.ok a >>= f : Res γ) = f a := rfl

theorem parseLoop_key (hws : skipWs b i = .ok j) (h : b.drop j = byte '"' :: rest) :
    parseLoop b (fuel + 1) obj i = keyStep b fuel obj j := by
  have hlt := lt_of_drop h
  rw [parseLoop, hws, ok_bind, if_neg (by omega), index_of_drop h, ok_bind, if_neg (by decide),
    if_neg (not_not.2 rfl)]
  rfl

theorem keyStep_colon {s : List Char} {k l m : ℕ} (hkey : readString b i = .ok (s, k))
    (hws : skipWs b k = .ok l) (hcolon : b.drop l = byte ':' :: rest)
    (hws' : skipWs b (l + 1) = .ok m) :
    keyStep b fuel obj i = valueStep b fuel obj s m := by
  have hlt := lt_of_drop hcolon
  unfold keyStep
  rw [hkey, ok_bind]
  simp only
  rw [hws, ok_bind, if_neg (by omega), index_of_drop hcolon, ok_bind, if_neg (not_not.2 rfl), hws',
    ok_bind]

theorem valueStep_comma {s : List Char} {k l : ℕ} (hval : readValueRaw b i = .ok (s, k))
    (hws : skipWs b k = .ok l) (hcomma : b.drop l = byte ',' :: rest) :
    valueStep b fuel obj key i = parseLoop b fuel ⟨obj.fields.insert key s⟩ (l + 1) := by
  unfold valueStep
  rw [hval, ok_bind]
  simp only
  rw [hws, ok_bind, if_pos (lt_of_drop hcomma), index_of_drop hcomma, ok_bind, if_pos rfl]

theorem valueStep_panic (hval : readValueRaw b i = .error .panic) :
    valueStep b fuel obj key i = .error .panic := by
  unfold valueStep
  rw [hval]
  rfl

/-- The reader passes a key, its colon and what is around. -/
theorem parseLoop_keyPart (fuel : ℕ) (obj : JsonObj) {k : List UInt8} (hk : KeyPart k) (h : b.drop i = k ++ rest)
    (hrest : ∀ c ∈ rest.head?, isWs c = false) :
    ∃ key, parseLoop b (fuel + 1) obj i = valueStep b fuel obj key (i + k.length) := by
  obtain ⟨w, u, w', w'', rfl, hu, hw, hw', hw''⟩ := hk
  simp only [List.append_assoc, List.cons_append] at h
  have hquote := drop_add_of_drop h
  have hbehind := drop_succ_of_drop (drop_add_of_drop (drop_succ_of_drop hquote))
  have hcolon := drop_add_of_drop hbehind
  have hvalue := drop_succ_of_drop hcolon
  have hskip := skipWs_of_drop h hw (fun c hc => by rw [← Option.some.inj hc]; decide)
  have hskip' := skipWs_of_drop hbehind hw' (fun c hc => by rw [← Option.some.inj hc]; decide)
  have hskip'' := skipWs_of_drop hvalue hw'' hrest
  obtain ⟨key, hkey⟩ := readString_inside hu hquote
  refine ⟨key, ?_⟩
  rw [parseLoop_key hskip hquote, keyStep_colon (m := i + _) hkey (by convert hskip' using 2; omega)
    hcolon]
  convert hskip'' using 2
  simp only [List.length_append, List.length_cons]
  omega

theorem head_of_raw {v : List UInt8} (hv : RawValue v) (rest : List UInt8) :
    ∀ c ∈ (v ++ byte ',' :: rest).head?, isWs c = false := by
  intro c hc
  cases hv with
  | string hu hw =>
    rw [← Option.some.inj hc]
    decide
  | block hb ht hw =>
    rw [← Option.some.inj hc]
    exact hb.isWs
  | scalar ht hhead =>
    cases v with
    | nil =>
      rw [← Option.some.inj hc]
      decide
    | cons x v => exact (hhead c hc).1

theorem head_of_cut {v : List UInt8} (hv : CutValue v) : ∀ c ∈ v.head?, isWs c = false := by
  intro c hc
  cases hv with
  | string hu =>
    rw [← Option.some.inj hc]
    decide
  | block hb ht hu =>
    rw [← Option.some.inj hc]
    exact hb.isWs

/-- Members that are cut lead out of the text. -/
theorem parseLoop_cut {t : List UInt8} (ht : CutMembers t) (h : b.drop i = t) (hi : i ≤ b.length)
    (hfuel : b.length < fuel + i) : parseLoop b fuel obj i = .error .panic := by
  induction ht generalizing fuel obj i with
  | @here k v hk hv =>
    obtain ⟨fuel, rfl⟩ : ∃ n, fuel = n + 1 := ⟨fuel - 1, by omega⟩
    obtain ⟨key, hkey⟩ := parseLoop_keyPart fuel obj hk h (head_of_cut hv)
    have hcut : CutValue (b.drop (i + k.length)) := by
      rw [drop_add_of_drop h]
      exact hv
    rw [hkey, valueStep_panic (readValueRaw_cut hcut)]
  | @next k v rest hk hv _ ih =>
    obtain ⟨fuel, rfl⟩ : ∃ n, fuel = n + 1 := ⟨fuel - 1, by omega⟩
    obtain ⟨key, hkey⟩ := parseLoop_keyPart fuel obj hk h (head_of_raw hv rest)
    have hvalue := drop_add_of_drop h
    have hcomma := drop_add_of_drop hvalue
    have hlt := lt_of_drop hcomma
    obtain ⟨s, j, hread, hskip⟩ := readValueRaw_raw hv hvalue (by omega)
    rw [hkey, valueStep_comma hread hskip hcomma]
    exact ih (drop_succ_of_drop hcomma) hlt (by omega)

theorem skipWs_end : skipWs b b.length = .ok b.length := by
  apply skipWs_here
  rw [List.drop_length]
  exact fun c hc => by cases hc

theorem head_ne_of_drop {p : UInt8 → Bool} (h : ∀ c ∈ (b.drop i).head?, p c = false) {c : UInt8}
    (hd : b.drop i = c :: rest) : p c = false := by
  apply h
  rw [hd]
  rfl

/-- A value and what follows: the loop returns, or the value is cut, or the loop goes on behind a
comma. -/
theorem valueStep_cases (fuel : ℕ) (obj : JsonObj) (key : List Char) (hi : i ≤ b.length) (hhead : ∀ c ∈ (b.drop i).head?, isWs c = false) :
    (∃ obj', valueStep b fuel obj key i = .ok obj') ∨
      (valueStep b fuel obj key i = .error .panic ∧ CutValue (b.drop i)) ∨
      ∃ obj' l v, valueStep b fuel obj key i = parseLoop b fuel obj' l ∧ i < l ∧ l ≤ b.length ∧
        RawValue v ∧ b.drop i = v ++ byte ',' :: b.drop l := by
  obtain ⟨s, j, hread, hij, hj, hvalue⟩ | ⟨hpanic, hcut⟩ := readValueRaw_cases hi hhead
  · obtain ⟨w, k, hskip, hw, hjk, hk, hwws, -⟩ := skip_cases (ε := Empty) isWs hj
    cases hd : b.drop k with
    | nil =>
      have hlen : b.length ≤ k := List.drop_eq_nil_iff.1 hd
      refine .inl ⟨⟨obj.fields.insert key s⟩, ?_⟩
      unfold valueStep
      rw [hread, ok_bind]
      simp only
      rw [skipWs, hskip, ok_bind, if_neg (by omega)]
      rfl
    | cons c rest =>
      by_cases hc : c = byte ','
      · subst hc
        rw [hd] at hw
        obtain hend | hvalue := hvalue
        · have := lt_of_drop hd
          omega
        · obtain ⟨v, hv, hdrop⟩ := hvalue w rest hwws hw
          refine .inr (.inr ⟨_, k + 1, v, valueStep_comma hread hskip hd, by omega, lt_of_drop hd, hv, ?_⟩)
          rw [hdrop, drop_succ_of_drop hd]
      · refine .inl ⟨⟨obj.fields.insert key s⟩, ?_⟩
        unfold valueStep
        rw [hread, ok_bind]
        simp only
        rw [skipWs, hskip, ok_bind, if_pos (lt_of_drop hd), index_of_drop hd, ok_bind, if_neg hc]
        rfl
  · exact .inr (.inl ⟨valueStep_panic hpanic, hcut⟩)

/-- A key: the loop returns, or it comes to the value. -/
theorem keyStep_cases (h : b.drop i = byte '"' :: rest) :
    keyStep b fuel obj i = .ok obj ∨
      ∃ s k m, keyStep b fuel obj i = valueStep b fuel obj s m ∧ KeyPart k ∧ i < m ∧ m ≤ b.length ∧
        b.drop i = k ++ b.drop m ∧ ∀ c ∈ (b.drop m).head?, isWs c = false := by
  obtain ⟨s, hread⟩ | ⟨s, u, rest', hread, hu, rfl⟩ := readString_cases h
  · left
    unfold keyStep
    rw [hread, ok_bind]
    simp only
    rw [skipWs_end, ok_bind, if_pos le_rfl]
    rfl
  · have hquote := drop_add_of_drop (drop_succ_of_drop h)
    have hlt := lt_of_drop hquote
    have hbehind : b.drop (i + u.length + 2) = rest' := by
      rw [← drop_succ_of_drop hquote]
      congr 1
      omega
    obtain ⟨w', l, hskip, hw', hil, hl, hwws', -⟩ :=
      skip_cases (ε := Empty) isWs (b := b) (i := i + u.length + 2) (by omega)
    rw [hbehind] at hw'
    cases hd : b.drop l with
    | nil =>
      left
      unfold keyStep
      rw [hread, ok_bind]
      simp only
      rw [skipWs, hskip, ok_bind, if_pos (List.drop_eq_nil_iff.1 hd)]
      rfl
    | cons c rest =>
      have hlt' := lt_of_drop hd
      by_cases hc : c = byte ':'
      · subst hc
        right
        obtain ⟨w'', m, hskip', hw'', hlm, hm, hwws'', hstop⟩ :=
          skip_cases (ε := Empty) isWs (b := b) (i := l + 1) hlt'
        rw [drop_succ_of_drop hd] at hw''
        refine ⟨s, _, m, keyStep_colon hread hskip hd hskip',
          ⟨[], u, w', w'', rfl, hu, List.forall_mem_nil _, hwws', hwws''⟩, by omega, hm, ?_, hstop⟩
        rw [h, hw', hd, hw'']
        simp only [List.nil_append, List.cons_append, List.append_assoc]
      · left
        unfold keyStep
        rw [hread, ok_bind]
        simp only
        rw [skipWs, hskip, ok_bind, if_neg (by omega), index_of_drop hd, ok_bind, if_pos hc]
        rfl

theorem KeyPart.prepend {w k : List UInt8} (hk : KeyPart k) (hw : ∀ c ∈ w, isWs c = true) :
    KeyPart (w ++ k) := by
  obtain ⟨w₀, u, w', w'', rfl, hu, hw₀, hw', hw''⟩ := hk
  refine ⟨w ++ w₀, u, w', w'', (List.append_assoc _ _ _).symm, hu, fun c hc => ?_, hw', hw''⟩
  rcases List.mem_append.1 hc with hc | hc
  · exact hw c hc
  · exact hw₀ c hc

/-- The run of the loop: it returns, or it has passed members up to one that is cut. -/
theorem parseLoop_cases (obj : JsonObj) (hi : i ≤ b.length) (hfuel : b.length < fuel + i) :
    (∃ obj', parseLoop b fuel obj i = .ok obj') ∨
      (parseLoop b fuel obj i = .error .panic ∧ CutMembers (b.drop i)) := by
  induction fuel generalizing obj i with
  | zero => omega
  | succ fuel ih =>
    obtain ⟨w, j, hskip, hw, hij, hj, hwws, -⟩ := skip_cases (ε := Empty) isWs hi
    cases hd : b.drop j with
    | nil =>
      refine .inl ⟨obj, ?_⟩
      rw [parseLoop, skipWs, hskip, ok_bind, if_pos (List.drop_eq_nil_iff.1 hd)]
      rfl
    | cons c rest =>
      have hlt := lt_of_drop hd
      by_cases hc : c = byte '"'
      · subst hc
        rw [parseLoop_key hskip hd]
        obtain hkey | ⟨s, k, m, hkey, hk, hjm, hm, hdrop, hstop⟩ := keyStep_cases hd
        · exact .inl ⟨obj, hkey⟩
        · have hpart := hk.prepend hwws
          rw [hdrop, ← List.append_assoc] at hw
          rw [hkey, hw]
          obtain hok | ⟨hpanic, hcut⟩ | ⟨obj', l, v, hstep, hml, hl, hv, hrest⟩ :=
            valueStep_cases fuel obj s hm hstop
          · exact .inl hok
          · exact .inr ⟨hpanic, .here hpart hcut⟩
          · rw [hstep, hrest]
            obtain hok | ⟨hpanic, hcut⟩ := ih obj' hl (by omega)
            · exact .inl hok
            · exact .inr ⟨hpanic, .next hpart hv hcut⟩
      · refine .inl ⟨obj, ?_⟩
        rw [parseLoop, skipWs, hskip, ok_bind, if_neg (by omega), index_of_drop hd, ok_bind]
        split
        · rfl
        · rfl

theorem parseBytes_cases (b : List UInt8) : (∃ obj, parseBytes b = .ok obj) ∨
    (parseBytes b = .error .panic ∧ CutBehindBackslash b) := by
  obtain ⟨w, j, hskip, hw, -, hj, hjunk, hstop⟩ :=
    skip_cases (ε := Empty) (b := b) (fun c => c != byte '{') (Nat.zero_le _)
  unfold parseBytes
  rw [hskip, ok_bind]
  cases hd : b.drop j with
  | nil => exact .inl ⟨_, if_pos (List.drop_eq_nil_iff.1 hd)⟩
  | cons c rest =>
    have hlt := lt_of_drop hd
    rw [if_neg (by omega)]
    have hc : c = byte '{' := by simpa using head_ne_of_drop hstop hd
    subst hc
    obtain hok | ⟨hpanic, hcut⟩ := parseLoop_cases (b := b) ⟨∅⟩ hlt (Nat.lt_add_right (j + 1) (Nat.lt_succ_self _))
    · exact .inl hok
    · refine .inr ⟨hpanic, w, rest, ?_, fun c hc => by simpa using hjunk c hc, ?_⟩
      · rw [← hd, ← hw, List.drop_zero]
      · rwa [drop_succ_of_drop hd] at hcut

theorem parseBytes_cut (h : CutBehindBackslash b) : parseBytes b = .error .panic := by
  obtain ⟨junk, rest, rfl, hjunk, hcut⟩ := h
  have hdrop : (junk ++ byte '{' :: rest).drop 0 = junk ++ byte '{' :: rest := List.drop_zero
  have hskip : (skip (fun c => c != byte '{') (junk ++ byte '{' :: rest) 0 : Res ℕ) =
      .ok (0 + junk.length) :=
    skip_of_drop hdrop (fun c hc => by simpa using hjunk c hc)
      (fun c hc => by rw [← Option.some.inj hc]; decide)
  have hopen := drop_add_of_drop hdrop
  have hlt := lt_of_drop hopen
  unfold parseBytes
  rw [hskip, ok_bind, if_neg (by omega)]
  exact parseLoop_cut hcut (drop_succ_of_drop hopen) hlt (by omega)

/-- The reader goes out of the text exactly when a value is cut behind a backslash. -/
theorem parseBytes_returns_iff : (∃ obj, parseBytes b = .ok obj) ↔ ¬ CutBehindBackslash b := by
  constructor
  · rintro ⟨obj, hok⟩ hcut
    rw [parseBytes_cut hcut] at hok
    cases hok
  · intro hcut
    obtain hok | ⟨-, h⟩ := parseBytes_cases b
    · exact hok
    · exact absurd h hcut

end JsonObj

end Memra
