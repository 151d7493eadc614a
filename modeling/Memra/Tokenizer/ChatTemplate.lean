import Memra.Tokenizer.Chat
import Memra.Lib.Occurs

/-!
# The chat renderers

`chat.rs`: `apply_chat_template_str` renders plain messages, `apply_chat_template_tools` turns with
tools and tool calls. Both look for markers in the template's text to choose a dialect (hy3, step35,
gemma4, else ChatML with or without the `<think>` tail), each in its own order. Texts are lists of
characters.
-/

namespace Memra

open Lib

/-- A role and a content. -/
abbrev ChatMessage := List Char × List Char

/-- `chat::ThinkMode`. -/
inductive ChatThinkMode
  | default
  | noThink
  | think
  deriving DecidableEq

/-- Whether there is a template, and it contains the marker. -/
def marked (template : Option (List Char)) (marker : String) : Bool :=
  template.any fun t => decide (marker.toList <:+: t)

/-- The frame of a ChatML turn. -/
def imTurn (role content : List Char) : List Char :=
  "<|im_start|>".toList ++ role ++ '\n' :: content ++ "<|im_end|>\n".toList

/-! ## Hy3 -/

/-- The turns of the hy3 dialect: system turns stand in the header, and an assistant turn that is not
the last is ended. -/
def hy3Turns : List ChatMessage → List Char
  | [] => []
  | (role, content) :: rest =>
    (if role = "user".toList then "<\uff5chy_User:opensource\uff5c>".toList ++ content
      else if role = "assistant".toList then
        "<\uff5chy_Assistant:opensource\uff5c>".toList ++ "<think:opensource>".toList ++
          "</think:opensource>".toList ++ content ++
          (if rest = [] then [] else "<\uff5chy_eos:opensource\uff5c>".toList)
      else []) ++ hy3Turns rest

/-- `apply_hy3_template`. -/
def applyHy3Template (messages : List ChatMessage) (addGenerationPrompt : Bool)
    (effort : List Char) : List Char :=
  let lastIsAssistant := messages.getLast?.any fun m => m.1 = "assistant".toList
  "<\uff5chy_begin_of_sentence:opensource\uff5c>".toList ++
    (messages.filter fun m => m.1 = "system".toList).flatMap (·.2) ++
    "<\uff5creasoning_mode:opensource\uff5c>".toList ++ "reasoning_effort:".toList ++ effort ++
    hy3Turns messages ++
    (if addGenerationPrompt ∧ ¬ lastIsAssistant then
      "<\uff5chy_Assistant:opensource\uff5c>".toList ++ "<think:opensource>".toList ++
        (if effort = "no_think".toList then "</think:opensource>".toList else [])
    else [])

/-! ## Gemma 4 -/

/-- One turn of the gemma4 dialect. -/
def gemma4Turn (m : ChatMessage) : List Char :=
  "<|turn>".toList ++ (if m.1 = "assistant".toList then "model".toList else m.1) ++
    '\n' :: trim m.2 ++ "<turn|>\n".toList

/-- `apply_gemma4_template`: a leading system turn, or thinking, opens with a system turn. -/
def applyGemma4Template (messages : List ChatMessage) (addGenerationPrompt thinking : Bool) :
    List Char :=
  let leading := messages.head?.filter fun m => m.1 = "system".toList
  let msgs := if leading.isSome then messages.drop 1 else messages
  (if thinking ∨ leading.isSome then
      "<|turn>system\n".toList ++ (if thinking then "<|think|>\n".toList else []) ++
        ((leading.map fun m => trim m.2).getD []) ++ "<turn|>\n".toList
    else []) ++
    msgs.flatMap gemma4Turn ++
    (if addGenerationPrompt then
      "<|turn>model\n".toList ++
        (if thinking then [] else "<|channel>thought\n<channel|>".toList)
    else [])

/-! ## Step35 -/

/-- `STEP35_TOOLS_INSTRUCTION`. -/
def step35ToolsInstruction : List Char :=
  ("\n\nIf you choose to call a function ONLY reply in the " ++
   "following format with NO suffix:\n\n<tool_call>\n<function=example_function_name>\n" ++
   "<parameter=example_parameter_1>\nvalue_1\n</parameter>\n<parameter=example_parameter_2>\n" ++
   "This is the value for the second parameter\nthat can span\nmultiple lines\n</parameter>\n" ++
   "</function>\n</tool_call>\n\n<IMPORTANT>\nReminder:\n- Function calls MUST follow the specified " ++
   "format: an inner <function=...>\n...\n</function> block must be nested within <tool_call>\n" ++
   "...\n</tool_call> XML tags\n- Required parameters MUST be specified\n</IMPORTANT>").toList

/-- The last occurrence of `p` (`str::rfind`). -/
def rfindSub (t p : List Char) : Option ℕ :=
  (List.range (t.length + 1)).reverse.find? fun i => OccursAt p t i

/-- `trim_start_matches` of newlines. -/
def trimStartNewlines (s : List Char) : List Char := s.dropWhile (· = '\n')

/-- `trim_end_matches` of newlines. -/
def trimEndNewlines (s : List Char) : List Char := (trimStartNewlines s.reverse).reverse

/-- An assistant content's reasoning and body. -/
def splitThink (content : List Char) : List Char × List Char :=
  match findSub content "</think>".toList with
  | none => ([], content)
  | some first =>
    let pre := trimEndNewlines (content.take first)
    let pre :=
      match rfindSub pre "<think>".toList with
      | some o => pre.drop (o + "<think>".toList.length)
      | none => pre
    let last := (rfindSub content "</think>".toList).getD first
    (trimStartNewlines pre, trimStartNewlines (content.drop (last + "</think>".toList.length)))

/-- A user turn that is a query, not a replayed tool response. -/
def isQuery (turn : ChatTurn) : Bool :=
  turn.role = "user".toList &&
    !("<tool_response>".toList.isPrefixOf turn.content &&
      "</tool_response>".toList.isSuffixOf turn.content)

/-- `last_query_index`. -/
def lastQueryIndex (turns : List ChatTurn) : ℕ :=
  ((List.range turns.length).reverse.find? fun i => turns[i]?.any isQuery).getD (turns.length - 1)

/-- The `Reasoning:` line of a system turn. -/
def reasoningLine : Option (List Char) → List Char
  | none => []
  | some effort => "Reasoning: ".toList ++ effort ++ "\n\n".toList

/-- The system header of the step35 dialect. -/
def step35Header (leading : Option (List Char)) (toolsJson : List (List Char))
    (effort : Option (List Char)) : List Char :=
  if toolsJson ≠ [] then
    "<|im_start|>system\n".toList ++ reasoningLine effort ++
      ((leading.map (· ++ "\n\n".toList)).getD []) ++
      "# Tools\n\nYou have access to the following functions in JSONSchema format:\n\n<tools>".toList ++
      toolsJson.flatMap ('\n' :: ·) ++ "\n</tools>".toList ++ step35ToolsInstruction ++
      "<|im_end|>\n".toList
  else
    match leading with
    | some sys =>
      "<|im_start|>system\n".toList ++ reasoningLine effort ++ sys ++ "<|im_end|>\n".toList
    | none =>
      if effort.isSome then
        "<|im_start|>system\n".toList ++ reasoningLine effort ++ "<|im_end|>\n".toList
      else []

/-- Turn `i` of the step35 dialect, between turns of the roles `prev` and `next`. -/
def step35Turn (lastQuery i : ℕ) (prev : Option (List Char)) (turn : ChatTurn)
    (next : Option (List Char)) : List Char :=
  if turn.role = "system".toList ∧ i = 0 then []
  else if turn.role = "assistant".toList then
    let split := splitThink turn.content
    "<|im_start|>assistant\n".toList ++
      (if lastQuery < i then "<think>\n".toList ++ split.1 ++ "\n</think>\n".toList else []) ++
      split.2 ++ turn.toolCalls.flatMap renderCall ++ "<|im_end|>\n".toList
  else if turn.role = "tool".toList then
    (if prev = some "tool".toList then [] else "<|im_start|>tool_response\n".toList) ++
      "<tool_response>".toList ++ turn.content ++ "</tool_response>".toList ++
      (if next = some "tool".toList then [] else "<|im_end|>\n".toList)
  else
    -- `system` behind the first turn, `user` and any other role
    imTurn turn.role turn.content

/-- The turns from `i` on, behind a turn of the role `prev`. -/
def step35Turns (lastQuery : ℕ) : ℕ → Option (List Char) → List ChatTurn → List Char
  | _, _, [] => []
  | i, prev, turn :: turns =>
    step35Turn lastQuery i prev turn (turns.head?.map (·.role)) ++
      step35Turns lastQuery (i + 1) (some turn.role) turns

/-- `apply_step35_template`. -/
def applyStep35Template (turns : List ChatTurn) (addGenerationPrompt : Bool)
    (toolsJson : List (List Char)) (effort : Option (List Char)) : List Char :=
  let leading := (turns.head?.filter fun t => t.role = "system".toList).map (·.content)
  step35Header leading toolsJson effort ++ step35Turns (lastQueryIndex turns) 0 none turns ++
    (if addGenerationPrompt then "<|im_start|>assistant\n<think>\n".toList else [])

/-! ## The two renderers -/

/-- A template whose generation prompt opens a thought. -/
def qwenThink (template : Option (List Char)) : Bool :=
  marked template "<think>" && marked template "add_generation_prompt"

/-- A message as a turn. -/
def ChatTurn.ofMessage (m : ChatMessage) : ChatTurn :=
  { role := m.1, content := m.2, toolCalls := [] }

/-- One message of the plain ChatML renderer. -/
def renderMessage (m : ChatMessage) : List Char :=
  if m.1 = "system".toList then
    "<|im_start|>system\n".toList ++ trim m.2 ++ "<|im_end|>\n".toList
  else if m.1 = "user".toList then
    "<|im_start|>user\n".toList ++ trim m.2 ++ "<|im_end|>\n".toList
  else if m.1 = "assistant".toList then
    "<|im_start|>assistant\n".toList ++ trim m.2 ++ "<|im_end|>\n".toList
  else imTurn m.1 (trim m.2)

/-- `apply_chat_template_str`. -/
def applyChatTemplateStr (template : Option (List Char)) (messages : List ChatMessage)
    (addGenerationPrompt : Bool) : List Char :=
  if marked template "hy_User" then
    applyHy3Template messages addGenerationPrompt "no_think".toList
  else if marked template "render_message_content" then
    applyStep35Template (messages.map .ofMessage) addGenerationPrompt [] none
  else if marked template "<|turn>" then applyGemma4Template messages addGenerationPrompt false
  else
    messages.flatMap renderMessage ++
      (if addGenerationPrompt then
        "<|im_start|>assistant\n".toList ++ (if qwenThink template then "<think>\n".toList else [])
      else [])

/-- `QWEN_TOOLS_INSTRUCTION`. -/
def qwenToolsInstruction : List Char :=
  ("\n\nIf you choose to call a function ONLY reply in the " ++
   "following format with NO suffix:\n\n<tool_call>\n<function=example_function_name>\n" ++
   "<parameter=example_parameter_1>\nvalue_1\n</parameter>\n<parameter=example_parameter_2>\n" ++
   "This is the value for the second parameter\nthat can span\nmultiple lines\n</parameter>\n" ++
   "</function>\n</tool_call>\n\n<IMPORTANT>\nReminder:\n- Function calls MUST follow the specified " ++
   "format: an inner <function=...></function> block must be nested within <tool_call></tool_call> " ++
   "XML tags\n- Required parameters MUST be specified\n- You may provide optional reasoning for " ++
   "your function call in natural language BEFORE the function call, but NOT after\n- If there is " ++
   "no function call available, answer the question like normal with your current knowledge and do " ++
   "not tell the user about function calls\n</IMPORTANT>").toList

/-- The tools header of the qwen dialect; a leading system turn is folded into it. -/
def qwenToolsHeader (toolsJson : List (List Char)) (leading : Option (List Char)) : List Char :=
  let folded := trim (leading.getD [])
  "<|im_start|>system\n".toList ++
    "# Tools\n\nYou have access to the following functions:\n\n<tools>".toList ++
    toolsJson.flatMap ('\n' :: ·) ++ "\n</tools>".toList ++ qwenToolsInstruction ++
    (if folded = [] then [] else "\n\n".toList ++ folded) ++ "<|im_end|>\n".toList

/-- The qwen branch of `apply_chat_template_tools`. -/
def applyQwenTools (template : Option (List Char)) (turns : List ChatTurn)
    (addGenerationPrompt : Bool) (toolsJson : List (List Char)) (mode : ChatThinkMode) :
    List Char :=
  let leading := (turns.head?.filter fun t => t.role = "system".toList).map (·.content)
  (if toolsJson = [] then renderTurns none turns
    else qwenToolsHeader toolsJson leading ++
      (if leading.isSome then renderTurns (some "system".toList) (turns.drop 1)
      else renderTurns none turns)) ++
    (if addGenerationPrompt then
      "<|im_start|>assistant\n".toList ++
        (if qwenThink template then
          if mode = .noThink ∧ marked template "enable_thinking" then
            "<think>\n\n</think>\n\n".toList
          else "<think>\n".toList
        else [])
    else [])

/-- The effort of the hy3 dialect. -/
def hy3Effort (mode : ChatThinkMode) (effort : Option (List Char)) : List Char :=
  if mode = .think then
    if effort = some "high".toList then "high".toList else "low".toList
  else "no_think".toList

/-- `apply_chat_template_tools`. -/
def applyChatTemplateTools (template : Option (List Char)) (turns : List ChatTurn)
    (addGenerationPrompt : Bool) (toolsJson : List (List Char)) (mode : ChatThinkMode)
    (effort : Option (List Char)) : Except String (List Char) :=
  let hasToolFeatures := toolsJson ≠ [] ∨
    turns.any fun t => t.role = "tool".toList || !t.toolCalls.isEmpty
  if hasToolFeatures ∧ ¬ marked template "<tools>" then
    .error "model chat template has no tools branch"
  else if marked template "render_message_content" then
    .ok (applyStep35Template turns addGenerationPrompt toolsJson effort)
  else if marked template "hy_User" ∨ marked template "<|turn>" then
    if hasToolFeatures then
      .error "tools are not supported on this model's chat-template dialect"
    else
      let messages := turns.map fun t => (t.role, t.content)
      if marked template "hy_User" then
        .ok (applyHy3Template messages addGenerationPrompt (hy3Effort mode effort))
      else .ok (applyGemma4Template messages addGenerationPrompt (mode = .think))
  else .ok (applyQwenTools template turns addGenerationPrompt toolsJson mode)

end Memra
