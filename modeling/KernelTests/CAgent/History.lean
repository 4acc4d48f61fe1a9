import KernelTests.CAgent.Trace
import KernelTests.Json.Bounds
import KernelTests.Json.RoundTrip
import Mathlib.Data.List.Forall2

/-!
# The conversation

Which histories the agent sends.  A conversation opens with the system message and
the prompt; every further round is a message of the server that carries tool calls,
followed by the answers to those of its calls that can be run.
-/

namespace KernelTests.CAgent

open Effects

variable {ν : Type}

/-- A call is executable if it has a function and the function has a name. -/
def executable (toolCall : Json ν) : Bool :=
  (Json.getString (Json.getObjectItem (some toolCall) (.lit "function")) (.lit "name")).isSome

/-- A tool message with the identifier of the call, if that is a string. -/
def AnswerTo (toolCall answer : Json ν) : Prop :=
  ∃ output, answer = toolMessage (Json.getString (some toolCall) (.lit "id")) output

/-- The answers to the executable calls, one for each, in order. -/
def Answers (toolCalls answers : List (Json ν)) : Prop :=
  List.Forall₂ AnswerTo (toolCalls.filter executable) answers

/-- The histories that grow from a prompt. -/
inductive Conversation (prompt : CString) : List (Json ν) → Prop
  /-- The system message and the prompt. -/
  | start : Conversation prompt (initialMessages prompt)
  /-- A message with tool calls and their answers. -/
  | round {messages answers : List (Json ν)} {message : Json ν} :
      Conversation prompt messages → toolCalls (some message) ≠ [] →
      Answers (toolCalls (some message)) answers → message.height ≤ 997 →
      Conversation prompt (messages ++ message :: answers)

/-! ## Rounds -/

section Rounds

variable {σ : Type} [CNumber ν] (k : Kernel σ) (ctx : ToolContext)

/-- An executable call gets its answer, any other call none. -/
theorem answers_runToolCall (toolCall : Json ν) (w : σ) :
    Answers [toolCall] ((runToolCall k ctx toolCall).run w).val := by
  rw [runToolCall]
  cases hf : Json.getObjectItem (some toolCall) (.lit "function") with
  | none =>
      have he : executable toolCall = false := by rw [executable, hf]; rfl
      simp [Answers, he]
  | some function =>
      cases hn : Json.getString (some function) (.lit "name") with
      | none =>
          have he : executable toolCall = false := by rw [executable, hf, hn]; rfl
          simp [Answers, he, hn]
      | some name =>
          have he : executable toolCall = true := by rw [executable, hf, hn]; rfl
          simp [Answers, he, hn, AnswerTo]

omit [CNumber ν] in
theorem Answers.append {calls calls' answers answers' : List (Json ν)} (h : Answers calls answers)
    (h' : Answers calls' answers') : Answers (calls ++ calls') (answers ++ answers') := by
  rw [Answers, List.filter_append]
  exact List.rel_append h h'

theorem answers_runToolCalls (toolCalls : List (Json ν)) (w : σ) :
    Answers toolCalls ((runToolCalls k ctx toolCalls).run w).val := by
  induction toolCalls generalizing w with
  | nil => exact .nil
  | cons toolCall toolCalls ih => exact (answers_runToolCall k ctx toolCall w).append (ih _)

/-- A message the agent copies is part of a value that has been parsed. -/
theorem height_chosenMessage {reply : Option CString} {message : Json ν}
    (h : chosenMessage reply = some (some message)) : message.height ≤ 997 := by
  simp only [chosenMessage, Option.bind_eq_bind, Option.bind_eq_some_iff, Option.pure_def,
    Option.some.injEq] at h
  obtain ⟨text, _, response, hp, choice, hc, hm⟩ := h
  refine Json.height_getObjectItem hm ?_
  cases hch : Json.getObjectItem (some response) (.lit "choices") with
  | none => rw [hch] at hc; cases hc
  | some choices =>
      rw [hch] at hc
      refine Json.height_elements (List.mem_of_head? hc) ?_
      exact Json.height_getObjectItem hch (Json.height_le_of_parse hp)

/-- What the agent reads out of a printed value that respects the nesting limit. -/
theorem chosenMessage_print {v : Json ν} (h : v.height ≤ Json.nestingLimit) :
    chosenMessage (some v.printUnformatted) =
      (Json.elements (Json.getObjectItem (some v.reread) (.lit "choices"))).head?.map fun choice ↦
        Json.getObjectItem (some choice) (.lit "message") := by
  simp only [chosenMessage, Json.parse_printUnformatted, if_pos h, Option.bind_eq_bind,
    Option.bind_some, Option.pure_def, Option.map_eq_bind]
  rfl

variable (client : HttpClient)

/-- A step that goes on adds a round to its history. -/
theorem conversation_agentStep {prompt : CString} {state state' : ℕ × List (Json ν)} {w : σ}
    (h : Conversation prompt state.2)
    (hs : ((agentStep k ctx client state).run w).val = .inr state') :
    Conversation prompt state'.2 := by
  cases hm : chosenMessage (ν := ν) (stepReply k client state.2 w) with
  | none =>
      rw [val_agentStep_of_none k ctx client state hm] at hs
      cases hs
  | some message =>
      by_cases hc : toolCalls message = []
      · rw [val_agentStep_of_nil k ctx client state hm hc] at hs
        cases hs
      · have he := (agentStep_of_cons k ctx client state hm hc).1
        obtain ⟨m, rfl⟩ := exists_of_toolCalls_ne_nil hc
        rw [he] at hs
        cases hs
        simpa using h.round hc (answers_runToolCalls k ctx _ _) (height_chosenMessage hm)

/-- Every history that is sent is a conversation. -/
theorem conversation_of_mem_requests {prompt : CString} {messages : List (Json ν)} {w : σ}
    (h : messages ∈ requests ((agentRun k ctx client prompt).run w).trace) :
    Conversation prompt messages := by
  obtain ⟨ts, state, w', hr, rfl⟩ := exists_of_mem_requests k ctx client h
  exact hr.invariant (I := fun state ↦ Conversation prompt state.2) .start
    fun _ _ _ hi hv ↦ conversation_agentStep k ctx client hi hv

end Rounds

/-! ## Pairing -/

/-- Every message that carries tool calls is directly followed by the answers to those of its
calls that are `answered`, and behind them comes the next message with tool calls or nothing. -/
def Paired (answered : Json ν → Bool) (messages : List (Json ν)) : Prop :=
  ∀ pre message post, messages = pre ++ message :: post → toolCalls (some message) ≠ [] →
    ∃ answers rest, post = answers ++ rest ∧
      List.Forall₂ AnswerTo ((toolCalls (some message)).filter answered) answers ∧
      ∀ next ∈ rest.head?, toolCalls (some next) ≠ []

theorem toolCalls_toolMessage (id : Option CString) (output : CString) :
    toolCalls (some (toolMessage (ν := ν) id output)) = [] := by
  cases id <;> rfl

/-- Answers are tool messages. -/
theorem Answers.exists_eq {calls answers : List (Json ν)} (h : Answers calls answers) :
    ∀ answer ∈ answers, ∃ id output, answer = toolMessage id output := by
  rw [Answers] at h
  generalize calls.filter executable = calls at h
  induction h with
  | nil => simp
  | cons ha _ ih =>
      obtain ⟨output, rfl⟩ := ha
      exact List.forall_mem_cons.mpr ⟨⟨_, output, rfl⟩, ih⟩

/-- No answer carries tool calls of its own. -/
theorem Answers.toolCalls_eq_nil {calls answers : List (Json ν)} (h : Answers calls answers) :
    ∀ answer ∈ answers, toolCalls (some answer) = [] := by
  intro answer ha
  obtain ⟨id, output, rfl⟩ := h.exists_eq answer ha
  exact toolCalls_toolMessage id output

theorem toolCalls_initialMessages (prompt : CString) :
    ∀ message ∈ initialMessages (ν := ν) prompt, toolCalls (some message) = [] := by
  intro message h
  rcases List.mem_cons.mp h with rfl | h
  · rfl
  · rw [List.mem_singleton.mp h]
    rfl

theorem Conversation.paired {prompt : CString} {messages : List (Json ν)}
    (h : Conversation prompt messages) : Paired executable messages := by
  induction h with
  | start =>
      intro pre message post he hc
      exact absurd (toolCalls_initialMessages prompt message (by rw [he]; simp)) hc
  | @round messages answers message₀ _ hc₀ ha _ ih =>
      intro pre message post he hc
      rcases List.append_eq_append_iff.mp he with ⟨as, rfl, hpost⟩ | ⟨bs, hm, hpost⟩
      · -- the message stands in the last round: it opens it
        cases as with
        | nil =>
            cases hpost
            exact ⟨answers, [], by simp, ha, by simp⟩
        | cons a as =>
            cases hpost
            exact absurd (ha.toolCalls_eq_nil message (by simp)) hc
      · -- the message stands in an earlier round
        cases bs with
        | nil =>
            cases hpost
            exact ⟨answers, [], by simp, ha, by simp⟩
        | cons b bs =>
            cases hpost
            obtain ⟨as, rest, rfl, has, hrest⟩ := ih pre message bs hm hc
            refine ⟨as, rest ++ message₀ :: answers, by simp, has, ?_⟩
            cases rest with
            | nil => simpa using hc₀
            | cons next rest => simpa using hrest

/-- Every history the agent sends is a conversation: each message that carries tool calls is
followed by exactly one answer for each call that has a function with a name, in order, before
the next message that carries tool calls. -/
theorem agentRun_paired {σ : Type} [CNumber ν] (k : Kernel σ) (ctx : ToolContext)
    (client : HttpClient) (prompt : CString) (w : σ) :
    ∀ messages ∈ requests ((agentRun (ν := ν) k ctx client prompt).run w).trace,
      Conversation prompt messages ∧ Paired executable messages := by
  intro messages h
  have hc := conversation_of_mem_requests k ctx client h
  exact ⟨hc, hc.paired⟩

/-! ### A message with two calls -/

/-- The arguments of a call that lists the directory. -/
def listing : Json ℤ := .object [member "command" (str "ls")]

/-- The function of that call. -/
def listingFunction : Json ℤ :=
  .object [member "name" (str "bash"), member "arguments" (.string listing.printUnformatted)]

/-- A call that is answered. -/
def listingCall : Json ℤ :=
  .object [member "id" (str "call_1"), member "function" listingFunction]

/-- A message with this call, behind one that has no function. -/
def mixedCalls : Json ℤ :=
  .object [member "role" (str "assistant"), member "tool_calls" (.array [.object [], listingCall])]

/-- The reply that carries it. -/
def mixedReply : CString :=
  Json.printUnformatted
    (.object [member "choices" (.array [.object [member "message" mixedCalls]])] : Json ℤ)

/-- The history behind that reply, when the command prints `a`. -/
def mixedHistory : List (Json ℤ) :=
  initialMessages (.lit "hi") ++ [mixedCalls, toolMessage (some (.lit "call_1")) (.lit "a")]

theorem parse_listing : Json.parse listing.printUnformatted = some listing := by
  rw [Json.parse_printUnformatted, if_pos (by decide)]
  rfl

theorem callArguments_listing : callArguments listingFunction = some listing := by
  have hstring : Json.getString (some listingFunction) (.lit "arguments") =
      some listing.printUnformatted := rfl
  rw [callArguments, hstring, Option.bind_some, parse_listing]

/-- Only the second call is answered. -/
theorem val_runToolCalls_mixedCalls (w : List CString) :
    ((runToolCalls (replay (ascii "a")) ⟨.lit "."⟩ (toolCalls (some mixedCalls))).run w).val =
      [toolMessage (some (.lit "call_1")) (.lit "a")] := by
  have hcalls : toolCalls (some mixedCalls) = [.object [], listingCall] := rfl
  have hnone : Json.getObjectItem (some (.object [] : Json ℤ)) (.lit "function") = none := rfl
  have hfunction : Json.getObjectItem (some listingCall) (.lit "function") =
      some listingFunction := rfl
  have hname : Json.getString (some listingFunction) (.lit "name") = some (.lit "bash") := rfl
  simp only [hcalls, runToolCalls, runToolCall, hnone, hfunction, hname, callArguments_listing,
    Traced.run_bind]
  rfl

theorem mixedHistory_mem_requests :
    mixedHistory ∈ requests ((agentRun (replay (ascii "a")) ⟨.lit "."⟩ localClient
      (.lit "hi")).run [mixedReply]).trace := by
  have hchosen : chosenMessage (stepReply (ν := ℤ) (replay (ascii "a")) localClient
      (initialMessages (.lit "hi")) [mixedReply]) = some (some mixedCalls) := by
    rw [stepReply_replay, mixedReply, chosenMessage_print (by decide)]
    rfl
  have hval := (agentStep_of_cons (replay (ascii "a")) ⟨.lit "."⟩ localClient
    (0, initialMessages (.lit "hi")) hchosen (by decide)).1
  rw [val_runToolCalls_mixedCalls] at hval
  exact mem_requests_of_inr (replay (ascii "a")) ⟨.lit "."⟩ localClient hval

/-- The pairing at the run whose first reply carries these calls. -/
theorem agentRun_paired_mixedCalls :
    Conversation (.lit "hi") mixedHistory ∧ Paired executable mixedHistory :=
  agentRun_paired (replay (ascii "a")) ⟨.lit "."⟩ localClient (.lit "hi") [mixedReply] _
    mixedHistory_mem_requests

/-- The call without a function is not answered. -/
theorem agentRun_not_paired :
    ¬ ∀ messages ∈ requests ((agentRun (ν := ℤ) (replay (ascii "a")) ⟨.lit "."⟩ localClient
      (.lit "hi")).run [mixedReply]).trace, Paired (fun _ ↦ true) messages := by
  intro h
  obtain ⟨answers, rest, he, ha, _⟩ := h _ mixedHistory_mem_requests (initialMessages (.lit "hi"))
    mixedCalls [toolMessage (some (.lit "call_1")) (.lit "a")] rfl (by decide)
  have hanswers : 2 = answers.length := ha.length_eq
  have hpost := congrArg List.length he
  rw [List.length_append, List.length_singleton] at hpost
  omega

end KernelTests.CAgent
