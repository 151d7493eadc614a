import Memra.Tokenizer.ChatTemplate

/-!
# Plain requests and the two renderers

A plain request (no tools, no tool turns, the default thinking mode) takes the same dialect in both
renderers unless the template carries the markers of hy3 and of step35 at once: the two look for
them in opposite orders, and a text of the one dialect never is a text of the other
(`plain_isolated_iff`).
-/

namespace Memra

open Lib

/-! ## ChatML -/

theorem renderMessage_eq (m : ChatMessage) : renderMessage m = imTurn m.1 (trim m.2) := by
  obtain ⟨role, content⟩ := m
  unfold renderMessage
  split
  · rename_i hrole
    have hrole : role = "system".toList := hrole
    rw [hrole]
    rfl
  · split
    · rename_i hrole
      have hrole : role = "user".toList := hrole
      rw [hrole]
      rfl
    · split
      · rename_i hrole
        have hrole : role = "assistant".toList := hrole
        rw [hrole]
        rfl
      · rfl

/-- A plain turn is rendered as its message, whatever stands around it. -/
theorem renderTurn_ofMessage {m : ChatMessage} (hrole : m.1 ≠ "tool".toList)
    (prev next : Option (List Char)) : renderTurn prev (.ofMessage m) next = renderMessage m := by
  rw [renderMessage_eq]
  unfold renderTurn
  split
  · rename_i hassistant
    have hassistant : m.1 = "assistant".toList := hassistant
    rw [hassistant, assistantBody]
    simp only [ChatTurn.ofMessage, List.append_nil]
    rfl
  · split
    · rename_i htool
      exact absurd htool hrole
    · rfl

theorem renderTurns_ofMessage {messages : List ChatMessage}
    (hrole : ∀ m ∈ messages, m.1 ≠ "tool".toList) (prev : Option (List Char)) :
    renderTurns prev (messages.map .ofMessage) = messages.flatMap renderMessage := by
  induction messages generalizing prev with
  | nil => rfl
  | cons m messages ih =>
    rw [List.map_cons, renderTurns, renderTurn_ofMessage (hrole m List.mem_cons_self),
      ih (fun m hm => hrole m (List.mem_cons_of_mem _ hm)), List.flatMap_cons]

/-! ## The first characters of two dialects -/

/-- Nothing, or a text that opens a turn. -/
def Framed (s : List Char) : Prop := s = [] ∨ "<|im_start|>".toList <+: s

theorem Framed.append {s t : List Char} (hs : Framed s) (ht : Framed t) : Framed (s ++ t) := by
  rcases hs with rfl | hs
  · exact ht
  · exact .inr (hs.trans (List.prefix_append _ _))

theorem framed_imTurn (role content : List Char) : Framed (imTurn role content) := by
  right
  unfold imTurn
  rw [List.append_assoc, List.append_assoc]
  exact List.prefix_append _ _

theorem framed_step35Turns {turns : List ChatTurn}
    (hrole : ∀ t ∈ turns, t.role ≠ "tool".toList) (lastQuery i : ℕ) (prev : Option (List Char)) :
    Framed (step35Turns lastQuery i prev turns) := by
  induction turns generalizing i prev with
  | nil => exact .inl rfl
  | cons turn turns ih =>
    rw [step35Turns]
    refine Framed.append ?_ (ih (fun t ht => hrole t (List.mem_cons_of_mem _ ht)) _ _)
    unfold step35Turn
    split
    · exact .inl rfl
    · split
      · right
        exact ⟨_, rfl⟩
      · rw [if_neg (hrole turn List.mem_cons_self)]
        exact framed_imTurn _ _

theorem framed_step35 {turns : List ChatTurn} (hrole : ∀ t ∈ turns, t.role ≠ "tool".toList)
    (addGenerationPrompt : Bool) : Framed (applyStep35Template turns addGenerationPrompt [] none) := by
  unfold applyStep35Template
  refine Framed.append (Framed.append ?_ (framed_step35Turns hrole _ _ _)) ?_
  · unfold step35Header
    rw [if_neg (by simp)]
    split
    · right
      exact ⟨_, rfl⟩
    · exact .inl rfl
  · split
    · right
      exact ⟨_, rfl⟩
    · exact .inl rfl

/-- A text of the hy3 dialect begins with its own begin-of-sentence. -/
theorem not_framed_hy3 (messages : List ChatMessage) (addGenerationPrompt : Bool)
    (effort : List Char) : ¬ Framed (applyHy3Template messages addGenerationPrompt effort) := by
  intro hframed
  obtain ⟨rest, hrest⟩ : ∃ rest, applyHy3Template messages addGenerationPrompt effort =
      '<' :: '\uff5c' :: rest := ⟨_, rfl⟩
  rw [hrest] at hframed
  rcases hframed with hnil | ⟨t, ht⟩
  · cases hnil
  · have htail := (List.cons.inj ht).2
    exact absurd (List.cons.inj htail).1 (by decide)

/-! ## Plain requests -/

/-- A request with nothing but messages. -/
theorem no_tool_features {messages : List ChatMessage}
    (hrole : ∀ m ∈ messages, m.1 ≠ "tool".toList) :
    ¬ (([] : List (List Char)) ≠ [] ∨ ((messages.map ChatTurn.ofMessage).any fun t =>
      t.role = "tool".toList || !t.toolCalls.isEmpty) = true) := by
  intro h
  rcases h with h | h
  · exact h rfl
  · obtain ⟨t, ht, hany⟩ := List.any_eq_true.1 h
    obtain ⟨m, hm, rfl⟩ := List.mem_map.1 ht
    have hany : (decide (m.1 = "tool".toList) || false) = true := hany
    rw [Bool.or_false] at hany
    exact hrole m hm (of_decide_eq_true hany)

theorem applyChatTemplateTools_plain (template : Option (List Char)) {messages : List ChatMessage}
    (hrole : ∀ m ∈ messages, m.1 ≠ "tool".toList) (addGenerationPrompt : Bool) :
    applyChatTemplateTools template (messages.map .ofMessage) addGenerationPrompt [] .default none =
      .ok (if marked template "render_message_content" then
          applyStep35Template (messages.map .ofMessage) addGenerationPrompt [] none
        else applyChatTemplateStr template messages addGenerationPrompt) := by
  have hmessages : (messages.map ChatTurn.ofMessage).map (fun t => (t.role, t.content)) =
      messages := by
    rw [List.map_map]
    exact List.map_id _
  have hnone := no_tool_features hrole
  have hqwen : applyQwenTools template (messages.map .ofMessage) addGenerationPrompt [] .default =
      messages.flatMap renderMessage ++
        (if addGenerationPrompt then
          "<|im_start|>assistant\n".toList ++ (if qwenThink template then "<think>\n".toList else [])
        else []) := by
    rw [← renderTurns_ofMessage hrole none]
    rfl
  unfold applyChatTemplateTools applyChatTemplateStr
  simp only [hmessages, hqwen, if_neg (fun h : _ ∧ _ => hnone h.1), if_neg hnone]
  by_cases hstep : marked template "render_message_content" = true
  · simp only [if_pos hstep]
  · simp only [if_neg hstep]
    by_cases hhy : marked template "hy_User" = true
    · simp only [if_pos hhy, if_pos (Or.inl hhy)]
      rfl
    · by_cases hturn : marked template "<|turn>" = true
      · simp only [if_neg hhy, if_pos hturn, if_pos (Or.inr hturn)]
        rfl
      · simp only [if_neg hhy, if_neg hturn, if_neg (not_or.2 ⟨hhy, hturn⟩)]

/-- **A plain request is rendered alike** exactly when the template does not carry the markers of both
hy3 and step35. -/
theorem plain_isolated_iff (template : Option (List Char)) {messages : List ChatMessage}
    (hrole : ∀ m ∈ messages, m.1 ≠ "tool".toList) (addGenerationPrompt : Bool) :
    applyChatTemplateTools template (messages.map .ofMessage) addGenerationPrompt [] .default none =
        .ok (applyChatTemplateStr template messages addGenerationPrompt) ↔
      ¬ (marked template "hy_User" ∧ marked template "render_message_content") := by
  rw [applyChatTemplateTools_plain template hrole, Except.ok.injEq]
  by_cases hstep : marked template "render_message_content" = true
  · rw [if_pos hstep]
    by_cases hhy : marked template "hy_User" = true
    · refine ⟨fun heq => ?_, fun hnot => absurd ⟨hhy, hstep⟩ hnot⟩
      have hstr : applyChatTemplateStr template messages addGenerationPrompt =
          applyHy3Template messages addGenerationPrompt "no_think".toList := if_pos hhy
      have hturns : ∀ t ∈ messages.map ChatTurn.ofMessage, t.role ≠ "tool".toList := by
        intro t ht
        obtain ⟨m, hm, rfl⟩ := List.mem_map.1 ht
        exact hrole m hm
      have hframed := framed_step35 hturns addGenerationPrompt
      rw [heq, hstr] at hframed
      exact absurd hframed (not_framed_hy3 _ _ _)
    · refine ⟨fun _ hboth => hhy hboth.1, fun _ => ?_⟩
      rw [applyChatTemplateStr, if_neg hhy, if_pos hstep]
  · rw [if_neg hstep]
    exact ⟨fun _ hboth => hstep hboth.2, fun _ => rfl⟩

/-- A template with one marker. -/
theorem plain_isolated_hy3 :
    applyChatTemplateTools (some "hy_User".toList)
        ([("user".toList, "hi".toList)].map .ofMessage) true [] .default none =
      .ok (applyChatTemplateStr (some "hy_User".toList) [("user".toList, "hi".toList)] true) :=
  (plain_isolated_iff _ (by decide) true).2 (by decide)

/-- A template with both. -/
theorem not_plain_isolated :
    applyChatTemplateTools (some "hy_User render_message_content".toList)
        ([("user".toList, "hi".toList)].map .ofMessage) true [] .default none ≠
      .ok (applyChatTemplateStr (some "hy_User render_message_content".toList)
        [("user".toList, "hi".toList)] true) := by
  decide +kernel

end Memra
