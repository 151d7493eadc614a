import Memra.Lib.Str

/-!
# The chat turns of the qwen template

`chat.rs`: the loop over the turns in the qwen branch of `apply_chat_template_tools`. A turn is
rendered by its role; a run of `tool` turns is one user turn, so that the roles before and after
count.
-/

namespace Memra

open Lib

/-- `chat::ToolCall`. -/
structure ChatToolCall where
  name : List Char
  params : List (List Char × List Char)

/-- `chat::Turn`. -/
structure ChatTurn where
  role : List Char
  content : List Char
  toolCalls : List ChatToolCall

/-- One parameter of a call. -/
def renderParam (param : List Char × List Char) : List Char :=
  "<parameter=".toList ++ param.1 ++ ">\n".toList ++ param.2 ++ "\n</parameter>\n".toList

/-- One call, tags included. -/
def renderCall (call : ChatToolCall) : List Char :=
  "<tool_call>\n<function=".toList ++ call.name ++ ">\n".toList ++ call.params.flatMap renderParam ++
    "</function>\n</tool_call>".toList

/-- What an assistant turn renders between its header and its end. -/
def assistantBody (turn : ChatTurn) : List Char :=
  let content := trim turn.content
  content ++
    match turn.toolCalls with
    | [] => []
    | call :: calls =>
      (if content = [] then [] else "\n\n".toList) ++ renderCall call ++
        calls.flatMap fun call => '\n' :: renderCall call

/-- One turn, between turns of the roles `prev` and `next`. -/
def renderTurn (prev : Option (List Char)) (turn : ChatTurn) (next : Option (List Char)) :
    List Char :=
  if turn.role = "assistant".toList then
    "<|im_start|>assistant\n".toList ++ assistantBody turn ++ "<|im_end|>\n".toList
  else if turn.role = "tool".toList then
    (if prev = some "tool".toList then [] else "<|im_start|>user".toList) ++
      "\n<tool_response>\n".toList ++ trim turn.content ++ "\n</tool_response>".toList ++
      (if next = some "tool".toList then [] else "<|im_end|>\n".toList)
  else
    -- `system`, `user` and any other role
    "<|im_start|>".toList ++ turn.role ++ '\n' :: trim turn.content ++ "<|im_end|>\n".toList

/-- The turns of a conversation behind a turn of the role `prev`. -/
def renderTurns (prev : Option (List Char)) : List ChatTurn → List Char
  | [] => []
  | turn :: turns =>
    renderTurn prev turn (turns.head?.map (·.role)) ++ renderTurns (some turn.role) turns

end Memra
