import KernelTests.CAgent.Trace
import KernelTests.Effects.Erasure

/-!
# The strings of a reply

The loop of the agent once more, with every `char` pointer in sight: a pointer that
reaches `printf`, `strcmp`, `strlen` or `cJSON_Parse` leaves a note.  Without the notes
this is the agent; the notes tell for which replies it passes `NULL` on.
-/

namespace KernelTests.CAgent.Pointers

open Effects
open scoped Effects.Traced

/-! ## Calls -/

/-- A `const char *`; none is `NULL`. -/
abbrev CharPtr := Option CString

/-- A call that reads the strings its arguments point to. -/
inductive StringCall where
  /-- `printf`, with the argument of `%s` -/
  | printf (s : CharPtr)
  | strcmp (s t : CharPtr)
  | strlen (s : CharPtr)
  /-- `cJSON_Parse` -/
  | parse (value : CharPtr)
deriving DecidableEq

/-- The pointers handed over. -/
def StringCall.pointers : StringCall → List CharPtr
  | .printf s => [s]
  | .strcmp s t => [s, t]
  | .strlen s => [s]
  | .parse value => [value]

/-- No pointer is `NULL`. -/
def StringCall.Safe (c : StringCall) : Prop := none ∉ c.pointers

instance : DecidablePred StringCall.Safe := fun c ↦
  inferInstanceAs (Decidable (none ∉ c.pointers))

variable {ν σ : Type}

/-- A computation of the agent that notes its calls. -/
abbrev Noted (ν σ : Type) := Traced (Event ν ⊕ StringCall) σ

/-- `printf`; glibc writes `(null)` for a missing string. -/
def printf (before : String) (s : CharPtr) (behind : String) : Noted ν σ Unit := do
  Traced.note (.printf s)
  Traced.plain (Traced.emit
    (.stdout (ascii before ++ (s.getD (.lit "(null)")).bytes ++ ascii behind)))

/-- `strcmp(s, t) == 0`, against a literal -/
def strcmp (s : CharPtr) (t : String) : Noted ν σ Bool := do
  Traced.note (.strcmp s (some (.lit t)))
  return s = some (.lit t)

/-- `strlen` -/
def strlen (s : CharPtr) : Noted ν σ ℕ := do
  Traced.note (.strlen s)
  return (s.getD (.lit "")).strlen

/-- `cJSON_Parse` -/
def parse [CNumber ν] (value : CharPtr) : Noted ν σ (Option (Json ν)) := do
  Traced.note (.parse value)
  return value.bind Json.parse

/-! ## The agent -/

/-- What runs the tools.  The output of a tool may be missing. -/
abbrev Tools (ν σ : Type) := Action → Agent ν σ ToolResult

variable (tool : Tools ν σ)

/-- `execute_tool` -/
def executeTool (toolName : CharPtr) (arguments : Option (Json ν)) : Noted ν σ ToolResult := do
  printf "  [Tool] " toolName "\n"
  if ← strcmp toolName "read_file" then
    match Json.getString arguments (.lit "file_path") with
    | some path => Traced.plain (tool (.readFile path))
    | none => return invalidArguments
  else if ← strcmp toolName "write_file" then
    match Json.getString arguments (.lit "file_path"),
        Json.getString arguments (.lit "content") with
    | some path, some content => Traced.plain (tool (.writeFile path content))
    | _, _ => return invalidArguments
  else if ← strcmp toolName "list_files" then
    Traced.plain (tool
      (.listFiles ((Json.getString arguments (.lit "path")).getD (.lit ""))))
  else if ← strcmp toolName "bash" then
    match Json.getString arguments (.lit "command") with
    | some command => Traced.plain (tool (.bash command))
    | none => return invalidArguments
  else return invalidArguments

variable [CNumber ν]

/-- The arguments of a call; a node that is not a string is not parsed. -/
def callArguments (argumentsStr : Option (Json ν)) : Noted ν σ (Option (Json ν)) :=
  match argumentsStr with
  | none => return none
  | some node => if node.isString then parse node.valuestring else return none

/-- One round of the loop over the tool calls. -/
def runToolCall (toolCall : Json ν) : Noted ν σ (List (Json ν)) := do
  match Json.getObjectItem (some toolCall) (.lit "function") with
  | none => return []
  | some function =>
    match Json.getObjectItem (some function) (.lit "name") with
    | none => return []
    | some name =>
      if name.isString then
        let arguments ← callArguments (Json.getObjectItem (some function) (.lit "arguments"))
        let result ← executeTool tool name.valuestring arguments
        printf "  [Result] " (result.output.or (some (.lit "(empty)"))) "\n"
        return [toolMessage (Json.getString (some toolCall) (.lit "id"))
          (result.output.getD (.lit ""))]
      else return []

/-- The loop over the tool calls. -/
def runToolCalls : List (Json ν) → Noted ν σ (List (Json ν))
  | [] => return []
  | toolCall :: toolCalls => do
    let answers ← runToolCall tool toolCall
    let rest ← runToolCalls toolCalls
    return answers ++ rest

/-- The content, if it is a string that is not empty. -/
def printAssistant (content : Option (Json ν)) : Noted ν σ Unit := do
  match content with
  | none => return ()
  | some node =>
    if node.isString then
      if 0 < (← strlen node.valuestring) then printf "  [Assistant] " node.valuestring "\n"

/-- `content ? content->valuestring : "(empty)"` -/
def answerText : Option (Json ν) → CharPtr
  | none => some (.lit "(empty)")
  | some content => content.valuestring

/-- What a step does with the message of the first choice. -/
def handleMessage (messages : List (Json ν)) (message : Option (Json ν)) :
    Noted ν σ (ℤ ⊕ List (Json ν)) := do
  let content := Json.getObjectItem message (.lit "content")
  printAssistant content
  match Json.elements (Json.getObjectItem message (.lit "tool_calls")) with
  | [] =>
    printf "\n[Final Answer]\n" (answerText content) "\n"
    return .inl 0
  | toolCall :: toolCalls =>
    let answers ← runToolCalls tool (toolCall :: toolCalls)
    return .inr (messages ++ message.toList ++ answers)

/-- What a step does with the reply, once it is parsed. -/
def handleResponse (messages : List (Json ν)) (response : Json ν) :
    Noted ν σ (ℤ ⊕ List (Json ν)) := do
  match Json.elements (Json.getObjectItem (some response) (.lit "choices")) with
  | [] =>
    Traced.plain (Traced.emit (.stderr (ascii "Error: No choices in response\n")))
    return .inl (-1)
  | choice :: _ =>
    handleMessage tool messages (Json.getObjectItem (some choice) (.lit "message"))

/-- What a step does with the reply of the server. -/
def handleReply (messages : List (Json ν)) (reply : CharPtr) :
    Noted ν σ (ℤ ⊕ List (Json ν)) := do
  match reply with
  | none =>
    Traced.plain (Traced.emit (.stderr (ascii "Error: Failed to get response from LLM\n")))
    return .inl (-1)
  | some text =>
    match ← parse (some text) with
    | none =>
      Traced.plain (Traced.emit (.stderr (ascii "Error: Failed to parse LLM response\n")))
      return .inl (-1)
    | some response => handleResponse tool messages response

variable (k : Kernel σ) (client : HttpClient)

/-- The body of the loop. -/
def agentStep (state : ℕ × List (Json ν)) : Noted ν σ (ℤ ⊕ ℕ × List (Json ν)) := do
  let (step, messages) := state
  let reply ← Traced.plain do
    Traced.emit (.stdout (ascii "\n[Step " ++ decimalNat (step + 1) ++ ascii "]\n"))
    Traced.emit (.request messages)
    Traced.emit (.stdout (ascii "  Calling LLM...\n"))
    let reply ← httpPost k client endpoint (buildRequest messages client.model)
    Traced.emit (.reply reply)
    return reply
  match ← handleReply tool messages reply with
  | .inl code => return .inl code
  | .inr messages => return .inr (step + 1, messages)

/-- `agent_run` -/
def agentRun (prompt : CString) : Noted ν σ ℤ :=
  Traced.iterate (agentStep tool k client) (Traced.plain budgetExhausted) maxSteps
    (0, initialMessages prompt)

/-! ## Without the notes -/

omit [CNumber ν] in
@[simp] theorem erase_printf (before : String) (s : CharPtr) (behind : String) :
    Traced.erase (printf before s behind : Noted ν σ Unit) = Traced.emit
      (.stdout (ascii before ++ (s.getD (.lit "(null)")).bytes ++ ascii behind)) := rfl

omit [CNumber ν] in
@[simp] theorem erase_strlen (s : CharPtr) :
    Traced.erase (strlen s : Noted ν σ ℕ) = pure (s.getD (.lit "")).strlen := rfl

@[simp] theorem erase_parse (value : CharPtr) :
    Traced.erase (parse value : Noted ν σ (Option (Json ν))) = pure (value.bind Json.parse) := rfl

omit [CNumber ν] in
/-- A branch on a comparison. -/
theorem erase_ite_strcmp {A : Type} (name : CString) (t : String) (x y : Noted ν σ A) :
    Traced.erase (do if ← strcmp (some name) t then x else y) =
      if name = .lit t then Traced.erase x else Traced.erase y := by
  have hcmp : Traced.erase (strcmp (some name) t : Noted ν σ Bool) =
      pure (decide (some name = some (.lit t))) := rfl
  rw [Traced.erase_bind, hcmp, pure_bind]
  by_cases h : name = .lit t <;> simp [h]

/-- The tools of the agent. -/
def runAction (ctx : ToolContext) : Tools ν σ
  | .readFile path => toolReadFile k ctx path
  | .writeFile path content => toolWriteFile k ctx path content
  | .listFiles path => toolListFiles k ctx path
  | .bash command => toolBash k command

variable (ctx : ToolContext)

omit [CNumber ν] in
theorem erase_executeTool (name : CString) (arguments : Option (Json ν)) :
    Traced.erase (executeTool (runAction k ctx) (some name) arguments) =
      CAgent.executeTool k ctx name arguments := by
  rw [executeTool, CAgent.executeTool, Traced.erase_bind, erase_printf]
  congr 1
  funext _
  iterate 4 rw [erase_ite_strcmp]
  cases Json.getString arguments (.lit "file_path") <;>
    cases Json.getString arguments (.lit "content") <;>
      cases Json.getString arguments (.lit "command") <;>
        simp [runAction]

theorem erase_runToolCall (toolCall : Json ν) :
    Traced.erase (runToolCall (runAction k ctx) toolCall) = CAgent.runToolCall k ctx toolCall := by
  rw [runToolCall, CAgent.runToolCall]
  cases Json.getObjectItem (some toolCall) (.lit "function") with
  | none => rfl
  | some function =>
      have harguments : ∀ node, Traced.erase (callArguments node : Noted ν σ _) =
          pure ((node.bind Json.valuestring).bind Json.parse) := by
        rintro (_ | node)
        · rfl
        · cases node <;> rfl
      cases hname : Json.getObjectItem (some function) (.lit "name") with
      | none => simp [Json.getString, hname]
      | some name =>
          cases name with
          | string s =>
              simp [Json.getString, hname, Json.isString, Json.valuestring, harguments,
                erase_executeTool, CAgent.callArguments]
          | _ => simp [Json.getString, hname, Json.isString, Json.valuestring]

theorem erase_runToolCalls (toolCalls : List (Json ν)) :
    Traced.erase (runToolCalls (runAction k ctx) toolCalls) =
      CAgent.runToolCalls k ctx toolCalls := by
  induction toolCalls with
  | nil => rfl
  | cons toolCall toolCalls ih => simp [runToolCalls, CAgent.runToolCalls, erase_runToolCall, ih]

omit [CNumber ν] in
theorem erase_printAssistant (content : Option (Json ν)) :
    Traced.erase (printAssistant content : Noted ν σ Unit) = CAgent.printAssistant content := by
  rcases content with _ | node
  · rfl
  · cases node with
    | string s =>
        rcases hs : s.bytes with _ | ⟨c, cs⟩ <;>
          simp [printAssistant, CAgent.printAssistant, Json.isString, Json.valuestring,
            CString.strlen, hs]
    | _ => rfl

omit [CNumber ν] in
/-- What `printf` makes of the answer. -/
theorem getD_answerText (content : Option (Json ν)) :
    (answerText content).getD (.lit "(null)") = finalAnswer content := by
  cases content <;> rfl

theorem erase_handleMessage (messages : List (Json ν)) (message : Option (Json ν)) :
    Traced.erase (handleMessage (runAction k ctx) messages message) =
      CAgent.handleMessage k ctx messages message := by
  simp only [handleMessage, CAgent.handleMessage, Traced.erase_bind, erase_printAssistant]
  congr 1
  funext _
  cases Json.elements (Json.getObjectItem message (.lit "tool_calls")) with
  | nil => simp [getD_answerText]
  | cons toolCall toolCalls => simp [erase_runToolCalls]

theorem erase_handleReply (messages : List (Json ν)) (reply : Option CString) :
    Traced.erase (handleReply (runAction k ctx) messages reply) =
      CAgent.handleReply k ctx messages reply := by
  cases reply with
  | none => rfl
  | some text =>
      simp only [handleReply, CAgent.handleReply, Traced.erase_bind, erase_parse, pure_bind,
        Option.bind_some]
      cases Json.parse (ν := ν) text with
      | none => rfl
      | some response =>
          simp only [handleResponse]
          cases Json.elements (Json.getObjectItem (some response) (.lit "choices")) with
          | nil => rfl
          | cons choice choices => exact erase_handleMessage k ctx messages _

theorem erase_agentStep (state : ℕ × List (Json ν)) :
    Traced.erase (agentStep (runAction k ctx) k client state) =
      CAgent.agentStep k ctx client state := by
  simp only [agentStep, CAgent.agentStep, Traced.erase_bind, Traced.erase_plain, bind_assoc,
    pure_bind, erase_handleReply]
  iterate 6 refine bind_congr fun next ↦ ?_
  cases next <;> rfl

/-- Without its notes this is the agent. -/
theorem erase_agentRun (prompt : CString) :
    Traced.erase (agentRun (runAction k ctx) k client prompt : Noted ν σ ℤ) =
      (CAgent.agentRun k ctx client prompt : Agent ν σ ℤ) := by
  rw [agentRun, Traced.erase_iterate, Traced.erase_plain]
  simp only [erase_agentStep]
  rfl

/-! ## The notes -/

omit [CNumber ν] in
theorem notes_printf {s : CharPtr} (h : s ≠ none) (before behind : String) :
    Traced.Notes StringCall.Safe (printf before s behind : Noted ν σ Unit) :=
  .bind (.note fun hs ↦ h (List.mem_singleton.mp hs).symm) fun _ ↦ .plain _

omit [CNumber ν] in
/-- A branch on a comparison with a string that is there. -/
theorem notes_ite_strcmp {A : Type} (name : CString) (t : String) {x y : Noted ν σ A}
    (hx : Traced.Notes StringCall.Safe x) (hy : Traced.Notes StringCall.Safe y) :
    Traced.Notes StringCall.Safe (do if ← strcmp (some name) t then x else y) := by
  refine .bind (.bind (.note ?_) fun _ ↦ .pure _) fun b ↦ ?_
  · simp [StringCall.Safe, StringCall.pointers]
  · cases b
    · exact hy
    · exact hx

omit [CNumber ν] in
theorem notes_executeTool (name : CString) (arguments : Option (Json ν)) :
    Traced.Notes StringCall.Safe (executeTool tool (some name) arguments) := by
  refine .bind (notes_printf (by simp) _ _) fun _ ↦ ?_
  refine notes_ite_strcmp name _ ?_ (notes_ite_strcmp name _ ?_
    (notes_ite_strcmp name _ (.plain _) (notes_ite_strcmp name _ ?_ (.pure _))))
  all_goals split
  all_goals first | exact .plain _ | exact .pure _

theorem notes_callArguments (argumentsStr : Option (Json ν)) :
    Traced.Notes StringCall.Safe (callArguments argumentsStr : Noted ν σ _) := by
  rcases argumentsStr with _ | node
  · exact .pure _
  · cases node with
    | string s =>
        refine .bind (.note ?_) fun _ ↦ .pure _
        simp [StringCall.Safe, StringCall.pointers, Json.valuestring]
    | _ => exact .pure _

/-- No tool call and no output of a tool leads to a missing string. -/
theorem notes_runToolCall (toolCall : Json ν) :
    Traced.Notes StringCall.Safe (runToolCall tool toolCall) := by
  rw [runToolCall]
  split
  · exact .pure _
  · split
    · exact .pure _
    · rename_i name _
      cases name with
      | string s =>
          refine .bind (notes_callArguments _) fun arguments ↦
            .bind (notes_executeTool tool s arguments) fun result ↦
              .bind (notes_printf ?_ _ _) fun _ ↦ .pure _
          cases result.output <;> simp
      | _ => exact .pure _

theorem notes_runToolCalls (toolCalls : List (Json ν)) :
    Traced.Notes StringCall.Safe (runToolCalls tool toolCalls) := by
  induction toolCalls with
  | nil => exact .pure _
  | cons toolCall toolCalls ih =>
      exact .bind (notes_runToolCall tool toolCall) fun _ ↦ .bind ih fun _ ↦ .pure _

omit [CNumber ν] in
theorem notes_printAssistant (content : Option (Json ν)) :
    Traced.Notes StringCall.Safe (printAssistant content : Noted ν σ Unit) := by
  rcases content with _ | node
  · exact .pure _
  · cases node with
    | string s =>
        refine .bind (.bind (.note ?_) fun _ ↦ .pure _) fun n ↦ ?_
        · simp [StringCall.Safe, StringCall.pointers, Json.valuestring]
        · split
          · exact notes_printf (by simp [Json.valuestring]) _ _
          · exact .pure _
    | _ => exact .pure _

/-! ## Replies without an answer -/

/-- A message that ends the run, and whose content is there but is not a string. -/
def NullAnswer (message : Option (Json ν)) : Prop :=
  toolCalls message = [] ∧
    ∃ content, Json.getObjectItem message (.lit "content") = some content ∧ ¬ content.isString

omit [CNumber ν] in
theorem answerText_eq_none_iff {content : Option (Json ν)} :
    answerText content = none ↔ ∃ node, content = some node ∧ ¬ node.isString := by
  rcases content with _ | node
  · simp [answerText]
  · cases node <;> simp [answerText, Json.valuestring, Json.isString]

theorem safe_handleMessage_iff (messages : List (Json ν)) (message : Option (Json ν)) (w : σ) :
    (∀ c ∈ Traced.notes (handleMessage tool messages message) w, c.Safe) ↔
      ¬ NullAnswer message := by
  have hassistant := notes_printAssistant (σ := σ) (Json.getObjectItem message (.lit "content")) w
  rw [NullAnswer, ← answerText_eq_none_iff, not_and]
  cases hcalls : toolCalls message with
  | nil =>
      unfold toolCalls at hcalls
      have hnotes : Traced.notes (handleMessage tool messages message) w =
          Traced.notes (printAssistant (Json.getObjectItem message (.lit "content")) : Noted ν σ _) w ++
            [.printf (answerText (Json.getObjectItem message (.lit "content")))] := by
        simp only [handleMessage, hcalls, Traced.notes_bind, Traced.notes_pure, List.append_nil]
        rfl
      rw [hnotes, List.forall_mem_append, and_iff_right hassistant, List.forall_mem_singleton]
      simp [StringCall.Safe, StringCall.pointers, eq_comm]
  | cons toolCall calls =>
      unfold toolCalls at hcalls
      refine iff_of_true ?_ (by simp)
      simp only [handleMessage, hcalls]
      exact Traced.Notes.bind (notes_printAssistant _) (fun _ ↦
        .bind (notes_runToolCalls tool _) fun _ ↦ .pure _) w

/-- The message of the first choice, if there is a choice. -/
def choiceMessage (response : Json ν) : Option (Option (Json ν)) :=
  (Json.elements (Json.getObjectItem (some response) (.lit "choices"))).head?.map fun choice ↦
    Json.getObjectItem (some choice) (.lit "message")

theorem safe_handleResponse_iff (messages : List (Json ν)) (response : Json ν) (w : σ) :
    (∀ c ∈ Traced.notes (handleResponse tool messages response) w, c.Safe) ↔
      ∀ message ∈ choiceMessage response, ¬ NullAnswer message := by
  cases hchoices : Json.elements (Json.getObjectItem (some response) (.lit "choices")) with
  | nil => simp [handleResponse, choiceMessage, hchoices]
  | cons choice choices =>
      simp only [handleResponse, choiceMessage, hchoices]
      simpa using safe_handleMessage_iff tool messages _ w

theorem chosenMessage_some (text : CString) :
    chosenMessage (ν := ν) (some text) = (Json.parse text).bind choiceMessage := by
  cases h : Json.parse (ν := ν) text with
  | none => simp [chosenMessage, h]
  | some response =>
      cases hc : (Json.elements (Json.getObjectItem (some response) (.lit "choices"))).head? <;>
        simp [chosenMessage, choiceMessage, h, hc]

theorem safe_handleReply_iff (messages : List (Json ν)) (reply : Option CString) (w : σ) :
    (∀ c ∈ Traced.notes (handleReply tool messages reply) w, c.Safe) ↔
      ∀ message ∈ chosenMessage (ν := ν) reply, ¬ NullAnswer message := by
  cases reply with
  | none => simp [handleReply, chosenMessage]
  | some text =>
      have hparse : StringCall.Safe (.parse (some text)) := by
        simp [StringCall.Safe, StringCall.pointers]
      rw [chosenMessage_some]
      cases h : Json.parse (ν := ν) text with
      | none => simp [handleReply, parse, h, hparse]
      | some response =>
          simpa [handleReply, parse, h, hparse] using
            safe_handleResponse_iff tool messages response w

theorem safe_agentStep_iff (state : ℕ × List (Json ν)) (w : σ) :
    (∀ c ∈ Traced.notes (agentStep tool k client state) w, c.Safe) ↔
      ∀ message ∈ chosenMessage (ν := ν) (stepReply k client state.2 w),
        ¬ NullAnswer message := by
  rw [← safe_handleReply_iff tool state.2 _
    ((httpPost (ν := ν) k client endpoint (buildRequest state.2 client.model)).run w).world]
  have hnext : ∀ (next : ℤ ⊕ List (Json ν)) (w : σ), Traced.notes (match next with
      | .inl code => return .inl code
      | .inr messages => return .inr (state.1 + 1, messages) :
        Noted ν σ (ℤ ⊕ ℕ × List (Json ν))) w = [] := by
    rintro (code | messages) w <;> rfl
  simp only [agentStep, Traced.notes_bind, Traced.notes_plain, List.nil_append, hnext,
    List.append_nil]
  rfl

/-- The notes of a run follow from its replies. -/
theorem safe_agentRun_iff (prompt : CString) (w : σ) :
    (∀ c ∈ Traced.notes (agentRun (runAction k ctx) k client prompt : Noted ν σ ℤ) w, c.Safe) ↔
      ∀ reply ∈ replies ((CAgent.agentRun k ctx client prompt : Agent ν σ ℤ).run w).trace,
        ∀ message ∈ chosenMessage (ν := ν) reply, ¬ NullAnswer message := by
  rw [← erase_agentRun, Traced.trace_erase, Traced.notes]
  refine Traced.trace_iterate (T := fun t : List (Event ν ⊕ StringCall) ↦
    (∀ c ∈ t.filterMap Sum.getRight?, c.Safe) ↔ ∀ reply ∈ replies (t.filterMap Sum.getLeft?),
      ∀ message ∈ chosenMessage (ν := ν) reply, ¬ NullAnswer message) ?_ ?_ ?_ _ _ w
  · intro t u ht hu
    rw [List.filterMap_append, List.filterMap_append, replies_append, List.forall_mem_append,
      List.forall_mem_append, ht, hu]
  · intro state w
    have hreplies := replies_agentStep k ctx client state w
    rw [← erase_agentStep, Traced.trace_erase] at hreplies
    rw [hreplies, List.forall_mem_singleton]
    exact safe_agentStep_iff (runAction k ctx) k client state w
  · intro w
    refine iff_of_true ?_ ?_
    · exact Traced.Notes.plain (budgetExhausted : Agent ν σ ℤ) w
    · have hnone : replies ((budgetExhausted : Agent ν σ ℤ).run w).trace = [] := rfl
      rw [← Traced.trace_erase, Traced.erase_plain, hnone]
      exact fun _ h ↦ absurd h List.not_mem_nil

/-- **Missing strings.**  The agent hands `NULL` to a call that reads a string exactly for the
replies whose message ends the run with a content that is not a string.  This holds for every
value of a reply and all outcomes of the tools, and so for every run. -/
theorem safe_iff :
    (∀ (tool : Tools ν σ) (messages : List (Json ν)) (response : Json ν) (w : σ),
      (∀ c ∈ Traced.notes (handleResponse tool messages response) w, c.Safe) ↔
        ∀ message ∈ choiceMessage response, ¬ NullAnswer message) ∧
    ∀ (k : Kernel σ) (ctx : ToolContext) (client : HttpClient) (prompt : CString) (w : σ),
      (∀ c ∈ Traced.notes (agentRun (runAction k ctx) k client prompt : Noted ν σ ℤ) w, c.Safe) ↔
        ∀ reply ∈ replies ((CAgent.agentRun k ctx client prompt : Agent ν σ ℤ).run w).trace,
          ∀ message ∈ chosenMessage (ν := ν) reply, ¬ NullAnswer message :=
  ⟨fun tool ↦ safe_handleResponse_iff tool, fun k ctx client ↦ safe_agentRun_iff k client ctx⟩

/-- A reply whose content is `null`. -/
def nullReply : CString :=
  .lit "\x7b\"choices\":[\x7b\"message\":\x7b\"role\":\"assistant\",\"content\":null\x7d\x7d]\x7d"

/-- An agent that gets this reply prints `NULL` as its final answer. -/
theorem not_safe_nullReply :
    .printf none ∈ Traced.notes (agentRun (runAction (replay []) ⟨.lit "."⟩) (replay [])
        localClient (.lit "hi") : Noted ℤ (List CString) ℤ) [nullReply] ∧
      ¬ (StringCall.printf none).Safe := by
  decide +kernel

end KernelTests.CAgent.Pointers
