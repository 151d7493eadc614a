import Memra.Server.Proof.ToolBlocks
import Memra.Tokenizer.Chat

/-!
# Rendered tool calls parse back

The renderer of the chat template and the stream parser share a syntax without escapes. The newlines
it puts around every tag are in none of the tags, so that a tag is looked for line by line
(`Absent.sep`): `parseParams_render` reads the parameters back, `parseBlock_render` a call,
`said_calls` the calls of a whole turn.
-/

namespace Memra

open Lib

variable {J : JsonLib} {schemas : Schemas}

/-- A name or key that can stand in a tag. -/
structure WellNamed (s : List Char) : Prop where
  ne_nil : s ≠ []
  no_lt : '<' ∉ s
  no_gt : '>' ∉ s
  no_nl : '\n' ∉ s

/-- A call that the syntax can spell. -/
structure ChatToolCall.Spelled (call : ChatToolCall) : Prop where
  name : WellNamed call.name
  keys : ∀ param ∈ call.params, WellNamed param.1
  distinct : (call.params.map (·.1)).Nodup
  values : ∀ param ∈ call.params,
    ¬ "</parameter>".toList <:+: param.2 ∧ ¬ "</tool_call>".toList <:+: param.2

/-- Every parameter of the call is declared a string. -/
def ChatToolCall.Strings (schemas : Schemas) (call : ChatToolCall) : Prop :=
  ∀ param ∈ call.params, schemas call.name param.1 = some "string".toList

/-- The arguments of a call, every value a string. -/
def stringArgs (J : JsonLib) (params : List (List Char × List Char)) :
    List (List Char × J.Value) :=
  params.map fun param => (param.1, J.string param.2)

theorem WellNamed.not_bad {s : List Char} (h : WellNamed s) : badName s = false := by
  unfold badName
  rw [Bool.or_eq_false_iff, List.any_eq_false]
  refine ⟨by simpa using h.ne_nil, fun c hc => ?_⟩
  have h1 : c ≠ '<' := fun he => h.no_lt (he ▸ hc)
  have h2 : c ≠ '>' := fun he => h.no_gt (he ▸ hc)
  have h3 : c ≠ '\n' := fun he => h.no_nl (he ▸ hc)
  simp [h1, h2, h3]

/-- A key that is not there yet goes to the end. -/
theorem insertArg_new {args : List (List Char × J.Value)} {key : List Char}
    (h : key ∉ args.map (·.1)) (v : J.Value) : insertArg args key v = args ++ [(key, v)] := by
  induction args with
  | nil => rfl
  | cons a args ih =>
    rw [List.map_cons, List.mem_cons, not_or] at h
    unfold insertArg
    rw [if_neg (Ne.symm h.1), ih h.2]
    rfl

theorem coerce_string {func param : List Char} (h : schemas func param = some "string".toList)
    (raw : List Char) : coerce J schemas func param raw = J.string raw := by
  unfold coerce
  rw [h]
  simp

/-- A rendered parameter, with the tags that the parser looks for. -/
theorem renderParam_eq (key val body : List Char) :
    renderParam (key, val) ++ body = "<parameter=".toList ++
      (key ++ '>' :: '\n' :: (val ++ '\n' :: ("</parameter>".toList ++ '\n' :: body))) := by
  have h1 : ">\n".toList = ['>', '\n'] := by decide
  have h2 : "\n</parameter>\n".toList = '\n' :: ("</parameter>".toList ++ ['\n']) := by decide
  unfold renderParam
  rw [h1, h2]
  generalize "<parameter=".toList = t1
  generalize "</parameter>".toList = t2
  simp

theorem trimStart_renderParam (param : List Char × List Char) (body : List Char) :
    trimStart ('\n' :: (renderParam param ++ body)) = renderParam param ++ body := by
  rw [trimStart_cons (by decide)]
  apply trimStart_of_head
  have h : (renderParam param ++ body).head? = some '<' := by
    rw [renderParam_eq, List.head?_append_of_ne_nil _ (by decide)]
    decide
  rw [h]
  intro c hc
  rw [← Option.mem_some_iff.1 hc]
  decide

/-- One turn of the parser's loop over the parameters. -/
theorem parseParams_cons {name body r : List Char} {gt e : ℕ} {args : List (List Char × J.Value)}
    (hbody : trimStart body = "<parameter=".toList ++ r) (hgt : findSub r ['>'] = some gt)
    (hkey : badName (r.take gt) = false)
    (hend : findSub (stripNlPrefix (r.drop (gt + 1))) "</parameter>".toList = some e) :
    parseParams J schemas name body args =
      parseParams J schemas name
        ((stripNlPrefix (r.drop (gt + 1))).drop (e + "</parameter>".toList.length))
        (insertArg args (r.take gt) (coerce J schemas name (r.take gt)
          (stripNlSuffix ((stripNlPrefix (r.drop (gt + 1))).take e)))) := by
  have hne : trimStart body ≠ [] := by
    rw [hbody]
    exact List.append_ne_nil_of_left_ne_nil (by decide) r
  have hdrop : (trimStart body).dropPrefix? "<parameter=".toList = some r := by
    rw [hbody]
    exact dropPrefix?_append _ _
  conv => lhs; rw [parseParams]
  simp only [hne, if_false]
  split
  · rename_i h
    rw [hdrop] at h
    cases h
  · rename_i h
    rw [hdrop] at h
    cases h
    simp only [hgt, hkey, Bool.false_eq_true, if_false, hend]

/-- One rendered parameter is read back, and the body goes on behind it. -/
theorem parseParams_step {name body : List Char} {param : List Char × List Char}
    (hkey : WellNamed param.1) (hval : ¬ "</parameter>".toList <:+: param.2)
    (hty : schemas name param.1 = some "string".toList) (args : List (List Char × J.Value)) :
    parseParams J schemas name ('\n' :: (renderParam param ++ body)) args =
      parseParams J schemas name ('\n' :: body)
        (insertArg args param.1 (J.string param.2)) := by
  obtain ⟨key, val⟩ := param
  generalize hr : key ++ '>' :: '\n' ::
    (val ++ '\n' :: ("</parameter>".toList ++ '\n' :: body)) = r
  have hbody : trimStart ('\n' :: (renderParam (key, val) ++ body)) = "<parameter=".toList ++ r := by
    rw [trimStart_renderParam, renderParam_eq, hr]
  have hgt : findSub r ['>'] = some key.length := hr ▸ findSub_char hkey.no_gt _
  have htake : r.take key.length = key := by
    rw [← hr]
    exact List.take_left
  have hafter : stripNlPrefix (r.drop (key.length + 1)) =
      val ++ '\n' :: ("</parameter>".toList ++ '\n' :: body) := by
    rw [← hr, List.drop_length_add_append]
    exact stripNlPrefix_newline _
  have hend : findSub (stripNlPrefix (r.drop (key.length + 1))) "</parameter>".toList =
      some (val.length + 1) := by
    rw [hafter]
    exact findSub_sep (absent_of_not_isInfix hval) (by decide) _
  have hraw : stripNlSuffix ((stripNlPrefix (r.drop (key.length + 1))).take (val.length + 1)) =
      val := by
    rw [hafter, List.take_length_add_append]
    exact stripNlSuffix_newline val
  have hrest : (stripNlPrefix (r.drop (key.length + 1))).drop
      (val.length + 1 + "</parameter>".toList.length) = '\n' :: body := by
    rw [hafter, Nat.add_assoc, List.drop_length_add_append, Nat.add_comm 1, List.drop_succ_cons,
      List.drop_left]
  rw [parseParams_cons hbody hgt (by rw [htake]; exact hkey.not_bad) hend, htake, hraw, hrest,
    coerce_string hty]

/-- Rendered parameters are read back in order. -/
theorem parseParams_render {name : List Char} {params : List (List Char × List Char)}
    (hkeys : ∀ param ∈ params, WellNamed param.1)
    (hvals : ∀ param ∈ params, ¬ "</parameter>".toList <:+: param.2)
    (hty : ∀ param ∈ params, schemas name param.1 = some "string".toList)
    {args : List (List Char × J.Value)} (hnew : (args.map (·.1) ++ params.map (·.1)).Nodup) :
    parseParams J schemas name ('\n' :: params.flatMap renderParam) args =
      some (args ++ stringArgs J params) := by
  induction params generalizing args with
  | nil =>
    have htrim : trimStart ['\n'] = [] := trimStart_cons (by decide) []
    rw [parseParams]
    simp [htrim, stringArgs]
  | cons param params ih =>
    obtain ⟨hkey, hkeys⟩ := List.forall_mem_cons.1 hkeys
    obtain ⟨hval, hvals⟩ := List.forall_mem_cons.1 hvals
    obtain ⟨hpty, hty⟩ := List.forall_mem_cons.1 hty
    have hfresh : param.1 ∉ args.map (·.1) := by
      intro hmem
      exact (List.nodup_append.1 hnew).2.2 _ hmem _ List.mem_cons_self rfl
    rw [List.flatMap_cons, parseParams_step hkey hval hpty, insertArg_new hfresh, ih hkeys hvals hty]
    · simp [stringArgs]
    · simpa using hnew

/-! ## One call -/

/-- A rendered call between its tags, without the newlines next to them. -/
def callText (call : ChatToolCall) : List Char :=
  "<function=".toList ++
    (call.name ++ '>' :: ('\n' :: call.params.flatMap renderParam ++ "</function>".toList))

theorem renderCall_eq (call : ChatToolCall) :
    renderCall call = openTag ++ '\n' :: (callText call ++ ['\n']) ++ closeTag := by
  have h1 : "<tool_call>\n<function=".toList = openTag ++ '\n' :: "<function=".toList := by decide
  have h2 : ">\n".toList = ['>', '\n'] := by decide
  have h3 : "</function>\n</tool_call>".toList = "</function>".toList ++ '\n' :: closeTag := by decide
  unfold renderCall callText
  rw [h1, h2, h3]
  generalize "<function=".toList = t1
  generalize "</function>".toList = t2
  simp

/-- A tag with a name in it is not the closing tag, and does not contain it. -/
theorem absent_named {a : Char} {t name : List Char} (ha : a ≠ '/') (hlt : '<' ∉ a :: t)
    (hname : WellNamed name) : Absent closeTag ('<' :: (a :: t ++ name ++ ['>'])) := by
  have hclose : closeTag = '<' :: "/tool_call>".toList := by decide
  rw [hclose]
  apply absent_of_head
  · simp only [List.mem_append, List.mem_singleton, not_or]
    exact ⟨⟨hlt, hname.no_lt⟩, by decide⟩
  · have hslash : "/tool_call>".toList = '/' :: "tool_call>".toList := by decide
    intro h
    rw [hslash, List.cons_append, List.cons_append, List.cons_prefix_cons] at h
    exact ha h.1.symm

theorem absent_params {params : List (List Char × List Char)}
    (hkeys : ∀ param ∈ params, WellNamed param.1)
    (hvals : ∀ param ∈ params, ¬ "</tool_call>".toList <:+: param.2) :
    Absent closeTag (params.flatMap renderParam ++ "</function>".toList) := by
  induction params with
  | nil => exact findSub_eq_none.1 (by decide)
  | cons param params ih =>
    obtain ⟨key, val⟩ := param
    obtain ⟨hkey, hkeys⟩ := List.forall_mem_cons.1 hkeys
    obtain ⟨hval, hvals⟩ := List.forall_mem_cons.1 hvals
    have htag : "<parameter=".toList ++ key ++ ['>'] =
        '<' :: ('p' :: "arameter=".toList ++ key ++ ['>']) := by
      have h : "<parameter=".toList = '<' :: 'p' :: "arameter=".toList := by decide
      rw [h]
      rfl
    have hopen : Absent closeTag ("<parameter=".toList ++ key ++ ['>']) := by
      rw [htag]
      exact absent_named (by decide) (by decide) hkey
    have hclose : Absent closeTag "</parameter>".toList := findSub_eq_none.1 (by decide)
    have hnl : '\n' ∉ closeTag := by decide
    have hlines : ((key, val) :: params).flatMap renderParam ++ "</function>".toList =
        ("<parameter=".toList ++ key ++ ['>']) ++ '\n' :: (val ++ '\n' ::
          ("</parameter>".toList ++ '\n' ::
            (params.flatMap renderParam ++ "</function>".toList))) := by
      rw [List.flatMap_cons, List.append_assoc, renderParam_eq]
      generalize "<parameter=".toList = t1
      simp
    rw [hlines]
    exact hopen.sep hnl ((absent_of_not_isInfix hval).sep hnl (hclose.sep hnl (ih hkeys hvals)))

theorem absent_callText {call : ChatToolCall} (h : call.Spelled) :
    Absent closeTag ('\n' :: callText call) := by
  have hnl : '\n' ∉ closeTag := by decide
  have htag : "<function=".toList ++ call.name ++ ['>'] =
      '<' :: ('f' :: "unction=".toList ++ call.name ++ ['>']) := by
    have h : "<function=".toList = '<' :: 'f' :: "unction=".toList := by decide
    rw [h]
    rfl
  have hopen : Absent closeTag ("<function=".toList ++ call.name ++ ['>']) := by
    rw [htag]
    exact absent_named (by decide) (by decide) h.name
  have hbody := absent_params h.keys fun param hp => (h.values param hp).2
  have hlines : '\n' :: callText call = [] ++ '\n' ::
      (("<function=".toList ++ call.name ++ ['>']) ++ '\n' ::
        (call.params.flatMap renderParam ++ "</function>".toList)) := by
    unfold callText
    generalize "<function=".toList = t1
    simp
  rw [hlines]
  exact (absent_nil (by decide)).sep hnl (hopen.sep hnl hbody)

theorem trim_callText (call : ChatToolCall) : trim ('\n' :: (callText call ++ ['\n'])) = callText call := by
  have hhead : (callText call).head? = some '<' := by
    unfold callText
    rw [List.head?_append_of_ne_nil _ (by decide)]
    decide
  have hlast : (callText call).getLast? = some '>' := by
    have h : "</function>".toList = "</function".toList ++ ['>'] := by decide
    unfold callText
    rw [h, ← List.append_assoc, List.append_cons, ← List.append_assoc, ← List.append_assoc]
    exact List.getLast?_concat
  apply trim_between (by decide) (by decide)
  · intro h
    rw [h] at hhead
    cases hhead
  · rw [hhead]
    intro c hc
    rw [← Option.mem_some_iff.1 hc]
    decide
  · rw [hlast]
    intro c hc
    rw [← Option.mem_some_iff.1 hc]
    decide

/-- The body of a rendered call parses to it. -/
theorem parseBlock_render {call : ChatToolCall} (h : call.Spelled) (hty : call.Strings schemas)
    {arguments : List Char} (harg : J.objectText (stringArgs J call.params) = some arguments)
    (n : ℕ) :
    parseBlock J schemas n ('\n' :: (callText call ++ ['\n'])) =
      some { id := callId n call.name arguments, name := call.name, arguments } := by
  have hparams : parseParams J schemas call.name ('\n' :: call.params.flatMap renderParam) [] =
      some ([] ++ stringArgs J call.params) :=
    parseParams_render h.keys (fun param hp => (h.values param hp).1) hty
      (by simpa using h.distinct)
  have hfun : (callText call).dropPrefix? "<function=".toList = some (call.name ++ '>' ::
      ('\n' :: call.params.flatMap renderParam ++ "</function>".toList)) := dropPrefix?_append _ _
  have hgt := findSub_char h.name.no_gt
    ('\n' :: call.params.flatMap renderParam ++ "</function>".toList)
  unfold parseBlock
  rw [trim_callText, hfun]
  simp only [hgt, List.take_left, h.name.not_bad, Bool.false_eq_true, if_false,
    List.drop_length_add_append, List.drop_succ_cons, List.drop_zero, dropSuffix?_append, hparams,
    List.nil_append, harg, Option.map_some]

/-! ## Whole turns -/

/-- The call that a piece is. -/
def Piece.call? : Piece → Option ParsedToolCall
  | .call c => some c
  | _ => none

/-- The call that an atom is. -/
def Atom.call? : Atom → Option ParsedToolCall
  | .call c => some c
  | _ => none

/-- The calls of an output. -/
def callsOf (out : List Piece) : List ParsedToolCall := out.filterMap Piece.call?

/-- A parsed call is the rendered one: its name, and each key with exactly its value. -/
def SameCall (J : JsonLib) (c : ParsedToolCall) (call : ChatToolCall) : Prop :=
  c.name = call.name ∧ J.objectText (stringArgs J call.params) = some c.arguments

theorem calls_content (text : List Char) : (text.map Atom.content).filterMap Atom.call? = [] := by
  rw [List.filterMap_map, List.filterMap_eq_nil_iff]
  exact fun _ _ => rfl

theorem callsOf_eq (out : List Piece) : callsOf out = (atoms out).filterMap Atom.call? := by
  induction out with
  | nil => rfl
  | cons p out ih =>
    have hcons : atoms (p :: out) = p.atoms ++ atoms out := List.flatMap_cons
    rw [hcons, List.filterMap_append, ← ih]
    cases p with
    | content text =>
      rw [Piece.atoms, calls_content]
      rfl
    | reasoning text =>
      have h : (text.map Atom.reasoning).filterMap Atom.call? = [] := by
        rw [List.filterMap_map, List.filterMap_eq_nil_iff]
        exact fun _ _ => rfl
      rw [Piece.atoms, h]
      rfl
    | call c => rfl

namespace ToolStreamParser

/-- A rendered call behind text without an opening tag is read, and the stream goes on. -/
theorem said_renderCall {p : ToolStreamParser J} (hp : Scanning p schemas) {call : ChatToolCall}
    (h : call.Spelled) (hty : call.Strings schemas)
    (harg : (J.objectText (stringArgs J call.params)).isSome) {pre rest : List Char}
    (hbuf : p.buf = pre ++ (renderCall call ++ rest)) (ho : findSub p.buf openTag = some pre.length) :
    ∃ (q : ToolStreamParser J) (c : ParsedToolCall), Scanning q schemas ∧ q.buf = rest ∧ SameCall J c call ∧
      p.said = pre.map .content ++ .call c :: q.said := by
  obtain ⟨arguments, harg⟩ := Option.isSome_iff_exists.1 harg
  have hopen : (p.opened pre.length).buf =
      ('\n' :: callText call) ++ '\n' :: (closeTag ++ rest) := by
    show p.buf.drop (pre.length + openTag.length) = _
    rw [hbuf, List.drop_length_add_append, renderCall_eq, List.append_assoc, List.append_assoc,
      List.drop_left]
    simp
  have hc : findSub (p.opened pre.length).buf closeTag = some (('\n' :: callText call).length + 1) := by
    rw [hopen]
    exact findSub_sep (absent_callText h) (by decide) rest
  have hinner : (p.opened pre.length).buf.take (('\n' :: callText call).length + 1) =
      '\n' :: (callText call ++ ['\n']) := by
    rw [hopen, List.take_length_add_append]
    rfl
  have hparse : parseBlock J (p.opened pre.length).schemas (p.opened pre.length).nCalls
      ((p.opened pre.length).buf.take (('\n' :: callText call).length + 1)) =
        some { id := callId p.nCalls call.name arguments, name := call.name, arguments } := by
    rw [hinner]
    exact hp.schemas ▸ parseBlock_render h (hp.schemas ▸ hty) harg _
  refine ⟨(p.opened pre.length).closed (('\n' :: callText call).length + 1) 1,
    { id := callId p.nCalls call.name arguments, name := call.name, arguments },
    ⟨rfl, hp.gemma, hp.tools, hp.schemas⟩, ?_, ⟨rfl, harg⟩, ?_⟩
  · show (p.opened pre.length).buf.drop
      (('\n' :: callText call).length + 1 + closeTag.length) = rest
    rw [hopen, Nat.add_assoc, List.drop_length_add_append, Nat.add_comm 1, List.drop_succ_cons,
      List.drop_left]
  · rw [said_opened hp ho, said_call rfl hc hparse, hbuf, List.take_left]

/-- The calls behind the first one, each on its own line. -/
theorem said_calls {calls : List ChatToolCall} (h : ∀ call ∈ calls, call.Spelled)
    (hty : ∀ call ∈ calls, call.Strings schemas)
    (harg : ∀ call ∈ calls, (J.objectText (stringArgs J call.params)).isSome)
    {p : ToolStreamParser J} (hp : Scanning p schemas)
    (hbuf : p.buf = calls.flatMap fun call => '\n' :: renderCall call) :
    List.Forall₂ (SameCall J) (p.said.filterMap Atom.call?) calls := by
  induction calls generalizing p with
  | nil =>
    have hnil : p.buf = [] := hbuf
    rw [said_plain hp (by rw [hnil]; decide), hnil]
    exact .nil
  | cons call calls ih =>
    obtain ⟨hcall, h⟩ := List.forall_mem_cons.1 h
    obtain ⟨hcty, hty⟩ := List.forall_mem_cons.1 hty
    obtain ⟨hcarg, harg⟩ := List.forall_mem_cons.1 harg
    have hbuf : p.buf = ['\n'] ++
        (renderCall call ++ calls.flatMap fun call => '\n' :: renderCall call) := hbuf
    have ho : findSub p.buf openTag = some ['\n'].length := by
      rw [hbuf, renderCall_eq, List.append_assoc, List.append_assoc]
      exact findSub_sep (s := []) (absent_nil (by decide)) (by decide) _
    obtain ⟨q, c, hq, hqbuf, hsame, hsaid⟩ := said_renderCall hp hcall hcty hcarg hbuf ho
    rw [hsaid, List.filterMap_append, calls_content, List.nil_append]
    exact .cons hsame (ih h hty harg hq hqbuf)

/-- What a turn renders is read back. -/
theorem said_assistantBody {turn : ChatTurn} (hcontent : ¬ openTag <:+: turn.content)
    (h : ∀ call ∈ turn.toolCalls, call.Spelled)
    (hty : ∀ call ∈ turn.toolCalls, call.Strings schemas)
    (harg : ∀ call ∈ turn.toolCalls, (J.objectText (stringArgs J call.params)).isSome)
    {p : ToolStreamParser J} (hp : Scanning p schemas) (hbuf : p.buf = assistantBody turn) :
    List.Forall₂ (SameCall J) (p.said.filterMap Atom.call?) turn.toolCalls := by
  have habs : Absent openTag (trim turn.content) :=
    absent_of_not_isInfix fun hin => hcontent (hin.trans (trim_isInfix _))
  unfold assistantBody at hbuf
  cases hcalls : turn.toolCalls with
  | nil =>
    rw [hcalls] at hbuf
    have hbuf : p.buf = trim turn.content := hbuf.trans (List.append_nil _)
    rw [said_plain hp (by rw [hbuf]; exact findSub_eq_none.2 habs), calls_content]
    exact .nil
  | cons call calls =>
    rw [hcalls] at hbuf h hty harg
    obtain ⟨hcall, h⟩ := List.forall_mem_cons.1 h
    obtain ⟨hcty, hty⟩ := List.forall_mem_cons.1 hty
    obtain ⟨hcarg, harg⟩ := List.forall_mem_cons.1 harg
    generalize hpre : trim turn.content ++
      (if trim turn.content = [] then [] else "\n\n".toList) = pre
    have hbuf : p.buf = pre ++
        (renderCall call ++ calls.flatMap fun call => '\n' :: renderCall call) := by
      rw [hbuf, ← hpre]
      simp only [List.append_assoc]
    have ho : findSub p.buf openTag = some pre.length := by
      rw [hbuf, renderCall_eq, List.append_assoc, List.append_assoc, ← hpre]
      by_cases hnil : trim turn.content = []
      · rw [if_pos hnil, hnil]
        exact findSub_self _ _
      · rw [if_neg hnil]
        have hnl : "\n\n".toList = ['\n', '\n'] := by decide
        have hline : trim turn.content ++ ['\n', '\n'] = (trim turn.content ++ ['\n']) ++ ['\n'] := by
          simp
        have hlen : (trim turn.content ++ ['\n'] ++ ['\n']).length =
            (trim turn.content ++ ['\n']).length + 1 := by simp
        rw [hnl, hline, hlen, List.append_assoc (trim turn.content ++ ['\n'])]
        exact findSub_sep (habs.sep (by decide) (absent_nil (by decide))) (by decide) _
    obtain ⟨q, c, hq, hqbuf, hsame, hsaid⟩ := said_renderCall hp hcall hcty hcarg hbuf ho
    rw [hsaid, List.filterMap_append, calls_content, List.nil_append]
    exact .cons hsame (said_calls h hty harg hq hqbuf)

/-- The calls of a rendered assistant turn are read back from it, in order, however it is cut. -/
theorem callsOf_renderTurn {turn : ChatTurn} {prev next : Option (List Char)} {chunks : List (List Char)}
    (hrole : turn.role = "assistant".toList)
    (hrender : renderTurn prev turn next =
      "<|im_start|>assistant\n".toList ++ chunks.flatten ++ "<|im_end|>\n".toList)
    (hcontent : ¬ openTag <:+: turn.content)
    (h : ∀ call ∈ turn.toolCalls, call.Spelled)
    (hty : ∀ call ∈ turn.toolCalls, call.Strings schemas)
    (harg : ∀ params, (J.objectText (stringArgs J params)).isSome) :
    List.Forall₂ (SameCall J)
      (callsOf ((new schemas false : ToolStreamParser J).streamPieces chunks)) turn.toolCalls := by
  have hbody : chunks.flatten = assistantBody turn := by
    unfold renderTurn at hrender
    rw [if_pos hrole] at hrender
    exact (List.append_cancel_left (List.append_cancel_right hrender)).symm
  rw [callsOf_eq, atoms_streamPieces (drained_start rfl (.inr rfl))]
  exact said_assistantBody (p := (new schemas false).feed chunks.flatten) hcontent h hty
    (fun call _ => harg call.params) ⟨rfl, rfl, rfl, rfl⟩ hbody

/-- Objects of strings that need no escapes, as JSON writes them. -/
def plainJson : JsonLib where
  Value := List Char
  string s := s
  fromStr _ := none
  objectText args := some ('{' :: ((args.map fun a =>
    ['"'] ++ a.1 ++ "\":\"".toList ++ a.2 ++ ['"']).intersperse [',']).flatten ++ ['}'])

/-- The turn "ok" with the call `f(k = "v")`, cut in two. -/
theorem callsOf_renderTurn_one :
    List.Forall₂ (SameCall plainJson)
      (callsOf ((new (fun _ _ => some "string".toList) false :
        ToolStreamParser plainJson).streamPieces
          ["ok\n\n<tool_".toList, "call>\n<function=f>\n<parameter=k>\nv\n</parameter>\n".toList,
            "</function>\n</tool_call>".toList]))
      [⟨['f'], [(['k'], ['v'])]⟩] := by
  have hrender : renderTurn none ⟨"assistant".toList, "ok ".toList, [⟨['f'], [(['k'], ['v'])]⟩]⟩ none =
      "<|im_start|>assistant\n".toList ++ ["ok\n\n<tool_".toList,
        "call>\n<function=f>\n<parameter=k>\nv\n</parameter>\n".toList,
        "</function>\n</tool_call>".toList].flatten ++ "<|im_end|>\n".toList := by decide
  exact callsOf_renderTurn rfl hrender (by decide)
    (List.forall_mem_singleton.2
      ⟨⟨by decide, by decide, by decide, by decide⟩,
        List.forall_mem_singleton.2 ⟨by decide, by decide, by decide, by decide⟩, by decide,
        List.forall_mem_singleton.2 ⟨by decide, by decide⟩⟩)
    (List.forall_mem_singleton.2 fun _ _ => rfl) (fun _ => rfl)

end ToolStreamParser

end Memra
