import KernelTests.CAgent.RequestHeap
import KernelTests.CAgent.Session
import KernelTests.Effects.Hosted

/-!
# The agent and its memory

`agent_run` once more, with the conversation, the responses and the arguments of the tools as
trees on the heap.  The model without a heap leaves marks in its trace for the histories it
sends and the replies it gets; here there are none.  If no request for memory fails, a run is
the run of that model, and releases everything.
-/

namespace KernelTests.CAgent.OnHeap

open Memory CJson Effects

variable {A ν σ : Type} [DecidableEq A] [CDouble ν] (M : Allocator A (Cell A ν))
  (k : Kernel σ) (ctx : ToolContext)

/-! ## The program -/

/-- A computation of the agent over a heap. -/
abbrev HeapAgent (A ν σ α : Type) := Hosted (Event ν) σ A (Cell A ν) α

/-- `printf` to standard output. -/
def printOut (text : Bytes) : HeapAgent A ν σ Unit := Hosted.onWorld (Traced.emit (.stdout text))

/-- `fprintf` to standard error. -/
def printErr (text : Bytes) : HeapAgent A ν σ Unit := Hosted.onWorld (Traced.emit (.stderr text))

/-- `execute_tool` -/
def executeTool (toolName : CString) (arguments : Option A) : HeapAgent A ν σ ToolResult := do
  printOut (ascii "  [Tool] " ++ toolName.bytes ++ ascii "\n")
  if toolName = .lit "read_file" then
    let path ← Hosted.onHeap (stringMember arguments (.lit "file_path"))
    match path with
    | some path => Hosted.onWorld (toolReadFile k ctx path)
    | none => return invalidArguments
  else if toolName = .lit "write_file" then
    let path ← Hosted.onHeap (stringMember arguments (.lit "file_path"))
    let content ← Hosted.onHeap (stringMember arguments (.lit "content"))
    match path, content with
    | some path, some content => Hosted.onWorld (toolWriteFile k ctx path content)
    | _, _ => return invalidArguments
  else if toolName = .lit "list_files" then
    let path ← Hosted.onHeap (stringMember arguments (.lit "path"))
    Hosted.onWorld (toolListFiles k ctx (path.getD (.lit "")))
  else if toolName = .lit "bash" then
    let command ← Hosted.onHeap (stringMember arguments (.lit "command"))
    match command with
    | some command => Hosted.onWorld (toolBash k command)
    | none => return invalidArguments
  else return invalidArguments

/-- The arguments of a call, parsed if they are a string -/
def callArguments (argumentsStr : Option CString) : Prog A (Cell A ν) (Option A) :=
  match argumentsStr with
  | some text => parse M (some text)
  | none => return none

/-- One round of the loop over the tool calls -/
def runToolCall (messages toolCall : Option A) : HeapAgent A ν σ Unit := do
  let id ← Hosted.onHeap (getObjectItem toolCall (some (.lit "id")))
  let function ← Hosted.onHeap (getObjectItem toolCall (some (.lit "function")))
  if function.isNone then
    return ()
  else
    let name ← Hosted.onHeap (stringMember function (.lit "name"))
    match name with
    | none => return ()
    | some name =>
      let argumentsStr ← Hosted.onHeap (stringMember function (.lit "arguments"))
      let arguments ← Hosted.onHeap (callArguments M argumentsStr)
      let result ← executeTool k ctx name arguments
      printOut (ascii "  [Result] " ++ (result.output.getD (.lit "(empty)")).bytes ++ ascii "\n")
      let id ← Hosted.onHeap (stringValue id)
      Hosted.onHeap (addToolMessage M messages id (result.output.getD (.lit "")))
      Hosted.onHeap (delete arguments)

/-- The loop over the tool calls, from the call with the index `i` on -/
def runToolCalls (messages toolCalls : Option A) : ℕ → ℕ → HeapAgent A ν σ Unit
  | _, 0 => return ()
  | i, n + 1 => do
    let toolCall ← Hosted.onHeap (getArrayItem toolCalls i)
    runToolCall M k ctx messages toolCall
    runToolCalls messages toolCalls (i + 1) n

/-- `content ? content->valuestring : "(empty)"`, as it is printed -/
def finalAnswer (content : Option A) : Prog A (Cell A ν) CString := do
  if content.isNone then
    return .lit "(empty)"
  else
    let n ← loadNode content
    if n.valuestring.isNone then return .lit "(null)" else loadText n.valuestring

/-- `printf("  [Assistant] %s\n", ...)`, for a content that is not empty -/
def printAssistant (content : Option A) : HeapAgent A ν σ Unit := do
  let text ← Hosted.onHeap (stringValue content)
  match text with
  | some text =>
    if text.bytes = [] then return ()
    else printOut (ascii "  [Assistant] " ++ text.bytes ++ ascii "\n")
  | none => return ()

/-- The number of tool calls; none if they are no array -/
def countCalls (toolCalls : Option A) : Prog A (Cell A ν) ℤ := do
  let isArray ← hasKind toolCalls .array
  if isArray then getArraySize toolCalls else return 0

/-- What a step does with the message of the first choice; a result ends the run. -/
def handleMessage (messages message : Option A) : HeapAgent A ν σ (Option ℤ) := do
  let content ← Hosted.onHeap (getObjectItem message (some (.lit "content")))
  printAssistant content
  let toolCalls ← Hosted.onHeap (getObjectItem message (some (.lit "tool_calls")))
  let count ← Hosted.onHeap (countCalls toolCalls)
  if count = 0 then
    let answer ← Hosted.onHeap (finalAnswer content)
    printOut (ascii "\n[Final Answer]\n" ++ answer.bytes ++ ascii "\n")
    return some 0
  else
    runToolCalls M k ctx messages toolCalls 0 count.toNat
    return none

/-- What a step does with the reply of the server -/
def handleReply (messages : Option A) (reply : Option CString) :
    HeapAgent A ν σ (Option ℤ) := do
  match reply with
  | none =>
    printErr (ascii "Error: Failed to get response from LLM\n")
    return some (-1)
  | some text =>
    let response ← Hosted.onHeap (parse M (some text))
    if response.isNone then
      printErr (ascii "Error: Failed to parse LLM response\n")
      return some (-1)
    else
      let taken ← Hosted.onHeap (takeMessage M messages response)
      match taken with
      | none =>
        printErr (ascii "Error: No choices in response\n")
        Hosted.onHeap (delete response)
        return some (-1)
      | some message =>
        let code ← handleMessage M k ctx messages message
        Hosted.onHeap (delete response)
        return code

variable (client : HttpClient)

/-- The body of the loop -/
def agentStep (messages : Option A) (step : ℕ) : HeapAgent A ν σ (ℤ ⊕ ℕ) := do
  printOut (ascii "\n[Step " ++ decimalNat (step + 1) ++ ascii "]\n")
  let requestBody ← Hosted.onHeap (buildRequest M messages client.model)
  printOut (ascii "  Calling LLM...\n")
  let body ← Hosted.onHeap (loadText requestBody)
  let reply ← Hosted.onWorld (httpPost k client endpoint body)
  Hosted.onHeap (free requestBody)
  let code ← handleReply M k ctx messages reply
  match code with
  | some code =>
    Hosted.onHeap (delete messages)
    return .inl code
  | none => return .inr (step + 1)

/-- What happens when the budget is used up -/
def budgetExhausted (messages : Option A) : HeapAgent A ν σ ℤ := do
  printErr (ascii "Warning: Reached maximum steps (50)\n")
  Hosted.onHeap (delete messages)
  return 0

/-- `agent_run` -/
def agentRun (prompt : CString) : HeapAgent A ν σ ℤ := do
  let messages ← Hosted.onHeap (startMessages M prompt)
  Hosted.iterate (agentStep M k ctx client messages) (budgetExhausted messages) maxSteps 0

/-! ## Refinement -/

variable {M}

/-- The events that both models leave behind. -/
def visible : Event ν → Bool
  | .request _ | .reply _ => false
  | _ => true

variable {G : Event ν → Prop} {t : Item A ν} {next prev p q : Option A} {v : Option (Json ν)}
  {P R : Multiset (A × Cell A ν)} {vs : List (Json ν)} {messages : Option A}

theorem executeTool_refines (toolName : CString) (h : Points t p v)
    (hP : P = t.cells next prev + R) :
    Refines G visible (executeTool k ctx toolName p) P (CAgent.executeTool k ctx toolName v)
      fun r s P' ↦ r = s ∧ P' = P := by
  have hmember := fun name ↦ stringMember_spec h name hP
  refine Refines.world fun _ ↦ ?_
  split
  · refine Refines.look (hmember _) ?_
    rintro _ rfl
    cases Json.getString v (.lit "file_path") with
    | none => exact Refines.pure ⟨rfl, rfl⟩
    | some path => exact Refines.same _
  split
  · refine Refines.look (hmember _) ?_
    rintro _ rfl
    refine Refines.look (hmember _) ?_
    rintro _ rfl
    cases Json.getString v (.lit "file_path") with
    | none => exact Refines.pure ⟨rfl, rfl⟩
    | some path =>
        cases Json.getString v (.lit "content") with
        | none => exact Refines.pure ⟨rfl, rfl⟩
        | some content => exact Refines.same _
  split
  · refine Refines.look (hmember _) ?_
    rintro _ rfl
    exact Refines.same _
  split
  · refine Refines.look (hmember _) ?_
    rintro _ rfl
    cases Json.getString v (.lit "command") with
    | none => exact Refines.pure ⟨rfl, rfl⟩
    | some command => exact Refines.same _
  · exact Refines.pure ⟨rfl, rfl⟩

/-- The null pointer, or a tree of its own. -/
def Parsed (v : Option (Json ν)) (r : Option A) (P : Multiset (A × Cell A ν)) : Prop :=
  (r = none ∧ P = 0 ∧ v = none) ∨
    ∃ (t : Item A ν) (w : Json ν), r = some t.addr ∧ P = t.cells none none ∧ v = some w ∧ t.Denotes w

theorem parse_parsed (hM : M.Unfailing) (text : CString) :
    Spec (parse M (some text)) 0 (Parsed (Json.parse (ν := ν) text)) := by
  refine (parse_spec text).mono ?_
  rintro r P (⟨hr, hP, hnone⟩ | ⟨t, hr, hP, -, w, hw, ht⟩)
  · exact Or.inl ⟨hr, hP, hnone.resolve_right (not_not_intro hM)⟩
  · exact Or.inr ⟨t, w, hr, hP, hw, ht⟩

theorem Parsed.delete (h : Parsed v p P) : Spec (delete p) P fun _ P' ↦ P' = 0 := by
  rcases h with ⟨rfl, rfl, -⟩ | ⟨t, w, rfl, rfl, -, -⟩
  · exact delete_null 0
  · exact delete_item t none

theorem callArguments_spec (hM : M.Unfailing) (argumentsStr : Option CString) :
    Spec (callArguments M argumentsStr) 0 (Parsed (argumentsStr.bind Json.parse)) := by
  cases argumentsStr with
  | none => exact Memory.Spec.pure (Or.inl ⟨rfl, rfl, rfl⟩)
  | some text => exact parse_parsed hM text

/-- The tool works on the arguments, or on nothing. -/
theorem executeTool_parsed (toolName : CString) (h : Parsed v p P) (R : Multiset (A × Cell A ν)) :
    Refines G visible (executeTool k ctx toolName p) (P + (t.cells none none + R))
      (CAgent.executeTool k ctx toolName v)
      fun r s P' ↦ r = s ∧ P' = P + (t.cells none none + R) := by
  rcases h with ⟨rfl, rfl, rfl⟩ | ⟨u, w, rfl, rfl, rfl, hw⟩
  · have hnull : Points t none (none : Option (Json ν)) := trivial
    exact executeTool_refines k ctx toolName hnull (zero_add _)
  · exact executeTool_refines k ctx toolName hw.points rfl

/-- The tree of the response beside the conversation with further messages. -/
def Answered (M : Allocator A (Cell A ν)) (messages : Option A) (vs : List (Json ν))
    (R P : Multiset (A × Cell A ν)) : Prop :=
  ∃ P₁, P = R + P₁ ∧ Draft M none (.array vs) none none messages P₁

theorem runToolCall_refines (hM : M.Unfailing) {call : Json ν} (hcall : Points t q (some call))
    (h : Draft M none (.array vs) none none messages P) :
    Refines G visible (runToolCall M k ctx messages q) (t.cells none none + P)
      (CAgent.runToolCall k ctx call) fun _ answers P' ↦
        Answered M messages (vs ++ answers) (t.cells none none) P' := by
  refine Refines.look (getObjectItem_points hcall (.lit "id") rfl) fun id hid ↦ ?_
  refine Refines.look (getObjectItem_points hcall (.lit "function") rfl) fun function hf ↦ ?_
  have hid' : Json.getString (some call) (.lit "id") =
    (Json.getObjectItem (some call) (.lit "id")).bind Json.valuestring := rfl
  rw [CAgent.runToolCall, hid']
  generalize Json.getObjectItem (some call) (.lit "function") = v at *
  cases v with
  | none =>
      rw [if_pos (by simp [hf.isNone_eq])]
      exact Refines.pure ⟨P, rfl, by rwa [List.append_nil]⟩
  | some v =>
  rw [if_neg (by simp [hf.isNone_eq])]
  refine Refines.look (stringMember_spec hf (.lit "name") rfl) ?_
  rintro _ rfl
  dsimp only
  cases Json.getString (some v) (.lit "name") with
  | none => exact Refines.pure ⟨P, rfl, by rwa [List.append_nil]⟩
  | some name =>
      refine Refines.look (stringMember_spec hf (.lit "arguments") rfl) ?_
      rintro _ rfl
      refine Refines.heap (callArguments_spec hM _) (zero_add _).symm
        fun arguments Pa ha ↦ ?_
      refine Refines.bind (executeTool_parsed k ctx name ha P) ?_
      rintro result _ _ ⟨rfl, rfl⟩
      refine Refines.world fun _ ↦ ?_
      refine Refines.look (stringValue_spec (R := Pa + P) hid (by abel)) ?_
      rintro _ rfl
      refine Refines.heap (R := Pa + t.cells none none) (addToolMessage_spec _ _ h) (by abel)
        fun _ P h ↦ ?_
      refine Refines.last (Refines.heap (R := t.cells none none + P) ha.delete (by abel) ?_)
      rintro _ _ rfl
      exact Refines.pure ⟨P, zero_add _, h⟩

/-- The calls from the index `i` on. -/
theorem runToolCalls_refines (hM : M.Unfailing) {calls : List (Json ν)}
    (hcalls : Points t q (some (.array calls))) (us : List (Json ν)) (i : ℕ)
    (hus : calls.drop i = us)
    (h : Draft M none (.array vs) none none messages P) :
    Refines G visible (runToolCalls M k ctx messages q i us.length) (t.cells none none + P)
      (CAgent.runToolCalls k ctx us) fun _ answers P' ↦
        Answered M messages (vs ++ answers) (t.cells none none) P' := by
  induction us generalizing i vs P with
  | nil => exact Refines.pure ⟨P, rfl, by rwa [List.append_nil]⟩
  | cons u us ih =>
      obtain ⟨hu, hus⟩ : calls[i]? = some u ∧ calls.drop (i + 1) = us := by
        rw [← List.head?_drop, ← List.tail_drop, hus]
        exact ⟨rfl, rfl⟩
      refine Refines.look (getArrayItem_points hcalls i rfl) fun call hcall ↦ ?_
      rw [hu] at hcall
      refine Refines.bind (runToolCall_refines k ctx hM hcall h) ?_
      rintro _ answers _ ⟨P, rfl, h⟩
      refine Refines.last (Refines.bind (ih (i + 1) hus h) ?_)
      rintro _ rest _ ⟨P, rfl, h⟩
      exact Refines.pure ⟨P, rfl, by rwa [← List.append_assoc]⟩

/-! ## Messages and replies -/

theorem countCalls_spec (h : Points t p v) (hlen : (Json.elements v).length < 2 ^ 31)
    (hP : P = t.cells next prev + R) :
    Spec (countCalls p) P (Reads ((Json.elements v).length : ℤ) P) := by
  refine CJson.Spec.hasKind h .array hP ?_
  rcases array_or v with ⟨us, rfl⟩ | ⟨hkind, hnil⟩
  · rw [if_pos (by simp [kindOf])]
    exact Memory.Spec.last (CJson.Spec.getArraySize h hlen hP (Memory.Spec.pure ⟨rfl, rfl⟩))
  · rw [if_neg (by simp [hkind]), hnil]
    exact Memory.Spec.pure ⟨rfl, rfl⟩

theorem finalAnswer_spec (h : Points t p v) (hP : P = t.cells next prev + R) :
    Spec (finalAnswer p) P (Reads (CAgent.finalAnswer v) P) := by
  cases v with
  | none =>
      rw [finalAnswer, if_pos (by simp [h.isNone_eq])]
      exact Memory.Spec.pure ⟨rfl, rfl⟩
  | some v =>
      rw [finalAnswer, if_neg (by simp [h.isNone_eq])]
      refine CJson.Spec.loadValue h hP fun n hn ↦ ?_
      rw [CAgent.finalAnswer]
      generalize n.valuestring = s at *
      match s, v.valuestring, hn with
      | none, none, _ => exact Memory.Spec.pure ⟨rfl, rfl⟩
      | some a, some text, hn =>
          rw [if_neg (by simp)]
          exact Memory.Spec.last (CJson.Spec.loadPointed hn hP (Memory.Spec.pure ⟨rfl, rfl⟩))

theorem printAssistant_refines (h : Points t p v) (hP : P = t.cells next prev + R) :
    Refines G visible (printAssistant p : HeapAgent A ν σ Unit) P (CAgent.printAssistant v)
      fun _ _ P' ↦ P' = P := by
  refine Refines.look (stringValue_spec h hP) ?_
  rintro _ rfl
  rw [CAgent.printAssistant]
  cases v.bind Json.valuestring with
  | none => exact Refines.pure rfl
  | some text =>
      dsimp only
      split
      · exact Refines.pure rfl
      · exact (Refines.same _).mono fun _ _ _ h ↦ h.2

/-- The step returned, or goes on with a longer conversation. -/
def Handled (M : Allocator A (Cell A ν)) (messages : Option A) (R : Multiset (A × Cell A ν))
    (r : Option ℤ) (s : ℤ ⊕ List (Json ν)) (P : Multiset (A × Cell A ν)) : Prop :=
  ∃ us, Answered M messages us R P ∧ ((∃ code, r = some code ∧ s = .inl code) ∨
    (r = none ∧ s = .inr us))

theorem handleMessage_refines (hM : M.Unfailing) {message : Option (Json ν)}
    (hmessage : Points t q message) (hlen : (toolCalls message).length < 2 ^ 31)
    (h : Draft M none (.array (vs ++ message.toList)) none none messages P) :
    Refines G visible (handleMessage M k ctx messages q) (t.cells none none + P)
      (CAgent.handleMessage k ctx vs message) (Handled M messages (t.cells none none)) := by
  refine Refines.look (getObjectItem_points hmessage (.lit "content") rfl) fun content hc ↦ ?_
  refine Refines.bind (printAssistant_refines hc rfl) ?_
  rintro _ _ _ rfl
  refine Refines.look (getObjectItem_points hmessage (.lit "tool_calls") rfl) fun calls hcalls ↦ ?_
  refine Refines.look (countCalls_spec hcalls hlen rfl) ?_
  rintro _ rfl
  unfold toolCalls at hlen
  generalize Json.getObjectItem message (.lit "tool_calls") = v at *
  by_cases hnil : Json.elements v = []
  · rw [if_pos (by simp [hnil]), hnil]
    refine Refines.look (finalAnswer_spec hc rfl) ?_
    rintro _ rfl
    refine Refines.world fun _ ↦ ?_
    exact Refines.pure ⟨_, ⟨P, rfl, h⟩, Or.inl ⟨0, rfl, rfl⟩⟩
  · obtain ⟨us, rfl⟩ := (array_or v).resolve_right fun h ↦ hnil h.2
    cases us with
    | nil => exact absurd rfl hnil
    | cons u us =>
        rw [if_neg (by simp [Json.elements]; omega)]
        refine Refines.bind (runToolCalls_refines k ctx hM hcalls (u :: us) 0 rfl h) ?_
        intro _ answers P h
        exact Refines.pure ⟨_, h, Or.inr ⟨rfl, rfl⟩⟩

omit [CDouble ν] in
theorem length_toolCalls_le {choice w : Json ν}
    (h : choice ∈ Json.elements (Json.getObjectItem (some w) (.lit "choices"))) :
    (toolCalls (Json.getObjectItem (some choice) (.lit "message"))).length ≤ extent w := by
  have hchoice : extent choice ≤ extent w := by
    cases hv : Json.getObjectItem (some w) (.lit "choices") with
    | none =>
        rw [hv] at h
        cases h
    | some v =>
        rw [hv] at h
        exact (extent_of_mem_elements h).trans (extent_getObjectItem hv)
  calc (toolCalls (Json.getObjectItem (some choice) (.lit "message"))).length
    _ ≤ _ := length_elements_le _
    _ ≤ _ := extent_lookup_le _ _
    _ ≤ _ := extent_lookup_le (some choice) _
    _ ≤ extent w := hchoice

theorem handleReply_refines (hM : M.Unfailing) (reply : Option CString)
    (hreply : ∀ text, reply = some text → text.strlen < 2 ^ 31)
    (h : Draft M none (.array vs) none none messages P) :
    Refines G visible (handleReply M k ctx messages reply) P
      (CAgent.handleReply k ctx vs reply) (Handled M messages 0) := by
  have hdone : Answered M messages vs 0 P := ⟨P, (zero_add P).symm, h⟩
  cases reply with
  | none =>
      refine Refines.world fun _ ↦ ?_
      exact Refines.pure ⟨vs, hdone, Or.inl ⟨-1, rfl, rfl⟩⟩
  | some text =>
  have hlen := hreply text rfl
  refine Refines.heap (R := P) (parse_parsed hM text) (zero_add P).symm ?_
  rw [CAgent.handleReply]
  rintro response _ (⟨rfl, rfl, hnone⟩ | ⟨t, w, rfl, rfl, hw, ht⟩)
  · rw [if_pos Option.isNone_none, hnone]
    refine Refines.world fun _ ↦ ?_
    exact Refines.pure ⟨vs, by rwa [zero_add], Or.inl ⟨-1, rfl, rfl⟩⟩
  · have hext : extent w < 2 ^ 31 := (extent_le_of_parse hw).trans_lt hlen
    rw [if_neg (by simp), hw]
    refine Refines.heap (R := 0) (takeMessage_spec ht hext h) (add_zero _).symm ?_
    rintro taken _ ⟨P, rfl, h, hcase⟩
    rw [add_zero]
    rw [firstMessage] at h hcase
    dsimp only
    cases hchoices : Json.elements (Json.getObjectItem (some w) (.lit "choices")) with
    | nil =>
        rw [hchoices] at h hcase
        obtain ⟨-, rfl⟩ := hcase.resolve_right (by rintro ⟨_, _, hn, _⟩; cases hn)
        refine Refines.world fun _ ↦ ?_
        refine Refines.heap (R := P) (delete_item t none) rfl ?_
        rintro _ _ rfl
        exact Refines.pure ⟨_, ⟨P, rfl, h⟩, Or.inl ⟨-1, rfl, rfl⟩⟩
    | cons choice choices =>
        rw [hchoices] at h hcase
        obtain ⟨message, q, he, rfl, hq⟩ := hcase.resolve_left fun hn ↦ by cases hn.1
        cases he
        have hcount := (length_toolCalls_le
          (hchoices ▸ List.mem_cons_self)).trans_lt hext
        dsimp only at hq h ⊢
        refine Refines.finish (handleMessage_refines k ctx hM hq hcount h) ?_
        rintro code next _ ⟨us, ⟨P, rfl, h⟩, hcode⟩
        refine Refines.heap (R := P) (delete_item t none) rfl ?_
        rintro _ _ rfl
        exact Refines.pure ⟨us, ⟨P, rfl, h⟩, hcode⟩

/-! ## Runs -/

/-- What is asked of the events of a run: the requests have room in a buffer whose size is an
`int`, and the lengths of the replies are `int`s. -/
def Manageable (model : CString) : Event ν → Prop
  | .request messages => (requestRoot messages model).print.length + 2 ≤ intMax
  | .reply (some text) => text.strlen < 2 ^ 31
  | _ => True

/-- One step: the conversation stays in memory, and nothing else. -/
theorem agentStep_refines (hM : M.Unfailing) (client : HttpClient) (step : ℕ)
    (h : Draft M none (.array vs) none none messages P) :
    Refines (Manageable client.model) visible (agentStep M k ctx client messages step) P
      (CAgent.agentStep k ctx client (step, vs)) fun r s P' ↦
        (∃ a b, r = .inl a ∧ s = .inl b ∧ a = b ∧ P' = 0) ∨
          ∃ i us, r = .inr i ∧ s = .inr us ∧ us.1 = i ∧
            Draft M none (.array us.2) none none messages P' := by
  refine Refines.world fun _ ↦ Refines.unseen rfl fun hrequest ↦ ?_
  refine Refines.heap (R := 0) (buildRequest_spec h client.model) (add_zero P).symm ?_
  rintro requestBody _ ⟨P₂, L, rfl, htext, hL⟩
  rw [hL hM, add_zero, add_zero]
  obtain ⟨a, s, rfl, rfl, hs⟩ := htext.resolve_left fun ⟨_, _, hlong⟩ ↦ hlong.elim
    (fun hn ↦ hn hM) (Nat.not_lt.mpr hrequest)
  rw [hs hM]
  refine Refines.world fun _ ↦ ?_
  refine Refines.look (φ := (· = CAgent.buildRequest vs client.model)) (Memory.Spec.last
    (CJson.Spec.loadCString rfl (by simp) (Memory.Spec.pure ⟨rfl, rfl⟩))) ?_
  rintro _ rfl
  refine Refines.world fun reply ↦ Refines.unseen rfl fun hreply ↦ ?_
  have hfree : Spec (free (some a)) {(a, Cell.chars (.ofCString
      (CAgent.buildRequest vs client.model)))} fun _ (P' : Multiset (A × Cell A ν)) ↦ P' = 0 :=
    Memory.Spec.last (Memory.Spec.free rfl (add_zero _).symm (Memory.Spec.pure rfl))
  refine Refines.heap (R := P) hfree rfl ?_
  rintro _ _ rfl
  rw [zero_add]
  refine Refines.bind (handleReply_refines k ctx hM reply ?_ h) ?_
  · rintro text rfl
    exact hreply
  rintro code next _ ⟨us, ⟨P, rfl, h⟩, ⟨code, rfl, rfl⟩ | ⟨rfl, rfl⟩⟩
  · refine Refines.heap (R := 0) h.delete (by abel) ?_
    intro _ P' hP'
    rw [hP' hM, add_zero]
    exact Refines.pure (Or.inl ⟨code, code, rfl, rfl, rfl, rfl⟩)
  · rw [zero_add]
    exact Refines.pure (Or.inr ⟨_, _, rfl, rfl, rfl, h⟩)

theorem agentRun_refines (hM : M.Unfailing) (client : HttpClient) (prompt : CString) :
    Refines (Manageable client.model) visible (agentRun M k ctx client prompt) 0
      (CAgent.agentRun k ctx client prompt) fun r s P ↦ r = s ∧ P = 0 := by
  refine Refines.heap (R := 0) (startMessages_spec prompt) (add_zero 0).symm ?_
  intro messages P h
  rw [add_zero]
  refine Refines.iterate (I := fun i us P ↦ us.1 = i ∧
    Draft M none (.array us.2) none none messages P) ?_ ?_ maxSteps 0 _ ⟨rfl, h⟩
  · rintro _ ⟨step, us⟩ P ⟨rfl, h⟩
    refine (agentStep_refines k ctx hM client step h).mono ?_
    rintro _ _ P' (⟨a, b, rfl, rfl, hab⟩ | ⟨i, us, rfl, rfl, h⟩)
    · exact Or.inl ⟨a, b, rfl, rfl, hab⟩
    · exact Or.inr ⟨i, us, rfl, rfl, h⟩
  · rintro _ ⟨step, us⟩ P ⟨-, h⟩
    refine Refines.world fun _ ↦ ?_
    refine Refines.heap (R := 0) h.delete (add_zero P).symm ?_
    intro _ P' hP'
    rw [hP' hM, add_zero]
    exact Refines.pure ⟨rfl, rfl⟩

/-- **The agent and its memory.**  If no request for memory fails, and the requests and replies
of the run without a heap are manageable, then the run on any heap ends without undefined
behaviour, with the same exit code, the same world and the same visible events, and leaves
exactly what was allocated before. -/
theorem agentRun_onHeap (hM : M.Unfailing) (client : HttpClient) (prompt : CString)
    {h : Heap A (Cell A ν)} {F : Multiset (A × Cell A ν)} (hF : h.Holds F) (w : σ)
    (hrun : ∀ e ∈ ((CAgent.agentRun (ν := ν) k ctx client prompt).run w).trace,
      Manageable client.model e) :
    let o := (agentRun M k ctx client prompt).outcome h w
    let o' := (CAgent.agentRun (ν := ν) k ctx client prompt).run w
    ∃ h', o.val = some (o'.val, h') ∧ h'.cells = h.cells ∧ h'.live = h.live ∧
      o.trace.filter visible = o'.trace.filter visible ∧ o.world = o'.world := by
  obtain ⟨_, h', _, hval, htrace, hworld, hh', rfl, rfl⟩ :=
    agentRun_refines k ctx hM client prompt F h w ((zero_add F).symm ▸ hF) hrun
  rw [zero_add] at hh'
  obtain ⟨hcells, hlive⟩ := hh'.unique hF
  exact ⟨h', hval, hcells, hlive, htrace, hworld⟩

/-! ### A run that calls a tool -/

omit [DecidableEq A] in
/-- A run is manageable if its requests and replies are. -/
theorem manageable_of {t : List (Event ν)} {model : CString}
    (hrequests : ∀ messages ∈ requests t, (requestRoot messages model).print.length + 2 ≤ intMax)
    (hreplies : ∀ text, some text ∈ replies t → text.strlen < 2 ^ 31) :
    ∀ e ∈ t, Manageable model e := by
  intro e he
  cases e with
  | request messages => exact hrequests messages (mem_requests.mpr he)
  | reply body =>
      cases body with
      | none => trivial
      | some text => exact hreplies text (List.mem_filterMap.mpr ⟨_, he, rfl⟩)
  | stdout | stderr | action => trivial

variable (ν) in
/-- The kernel under the session about the number of cores. -/
def coresKernel : Kernel Unit := serving (ν := ν) neuralInference (ascii "4\n")

variable (ν) in
/-- That session without a heap. -/
def coresOutcome : Outcome (Event ν) Unit ℤ :=
  (CAgent.agentRun (coresKernel ν) ⟨.lit "."⟩ localClient coresPrompt).run ()

variable (ν) in
/-- The same session on an empty heap. -/
noncomputable def coresOutcomeOnHeap :
    Outcome (Event ν) Unit (Option (ℤ × Heap ℕ (Cell ℕ ν))) :=
  (agentRun .leastFree (coresKernel ν) ⟨.lit "."⟩ localClient coresPrompt).outcome
    ⟨fun _ ↦ none, 0, 0⟩ ()

variable (ν) in
/-- The history of its second request. -/
def coresAnswered : List (Json ν) :=
  answeredMessages coresPrompt (.lit "nproc") (pipeOutput (ascii "4\n"))

/-- The requests and the replies of the session. -/
theorem coresOutcome_eq
    (h₁ : (requestOf (ν := ν) localClient (initialMessages coresPrompt)).length ≤ 65535)
    (h₂ : (requestOf localClient (coresAnswered ν)).length ≤ 65535) :
    requests (coresOutcome ν).trace = [initialMessages coresPrompt, coresAnswered ν] ∧
      replies (coresOutcome ν).trace =
        [some (completion ν neuralInference
            (requestRoot (initialMessages coresPrompt) localClient.model).reread),
          some (completion ν neuralInference
            (requestRoot (coresAnswered ν) localClient.model).reread)] ∧
      actions (coresOutcome ν).trace = [.bash (.lit "nproc")] := by
  have hrun := agentRun_of_call (serves_serving (ν := ν) neuralInference (ascii "4\n")) ⟨.lit "."⟩
    inetPton_localClient (by simp [localClient]) chosenCommand_coresPrompt writtenAs_nproc () h₁
    (by rw [callOutput_serving]; exact h₂)
  simp only [callOutput_serving] at hrun
  rw [coresOutcome, coresKernel, coresAnswered]
  exact hrun.2

/-- The sizes of all of them. -/
theorem length_cores :
    (requestOf localClient (coresAnswered ℤ)).length ≤ 65535 ∧
      (requestRoot (ν := ℤ) (initialMessages coresPrompt) localClient.model).print.length + 2 ≤ intMax ∧
      (requestRoot (coresAnswered ℤ) localClient.model).print.length + 2 ≤ intMax ∧
      (completion ℤ neuralInference (requestRoot (initialMessages coresPrompt)
        localClient.model).reread).strlen < 2 ^ 31 ∧
      (completion ℤ neuralInference (requestRoot (coresAnswered ℤ)
        localClient.model).reread).strlen < 2 ^ 31 := by
  decide +kernel

/-- The session about the number of cores, with its call of `bash`. -/
theorem agentRun_onHeap_cores : actions (coresOutcome ℤ).trace = [.bash (.lit "nproc")] ∧
    ∃ h' : Heap ℕ (Cell ℕ ℤ),
      (coresOutcomeOnHeap ℤ).val = some ((coresOutcome ℤ).val, h') ∧ h'.cells = (fun _ ↦ none) ∧
      h'.live = 0 ∧
      (coresOutcomeOnHeap ℤ).trace.filter visible = (coresOutcome ℤ).trace.filter visible ∧
      (coresOutcomeOnHeap ℤ).world = (coresOutcome ℤ).world := by
  obtain ⟨hlen, hprint₁, hprint₂, hreply₁, hreply₂⟩ := length_cores
  obtain ⟨hrequests, hreplies, hactions⟩ := coresOutcome_eq (ν := ℤ) length_coresRequest hlen
  refine ⟨hactions, ?_⟩
  have hrun : ∀ e ∈ (coresOutcome ℤ).trace, Manageable localClient.model e := by
    refine manageable_of ?_ ?_
    · rw [hrequests]
      exact List.forall_mem_cons.mpr ⟨hprint₁, List.forall_mem_singleton.mpr hprint₂⟩
    · intro text h
      rw [hreplies, List.mem_pair, Option.some.injEq, Option.some.injEq] at h
      rcases h with rfl | rfl
      · exact hreply₁
      · exact hreply₂
  obtain ⟨h', hval, hcells, hlive, htrace, hworld⟩ := agentRun_onHeap (A := ℕ) (coresKernel ℤ)
    ⟨.lit "."⟩ Allocator.unfailing_leastFree localClient coresPrompt Heap.holds_empty () hrun
  exact ⟨h', hval, hcells, hlive, htrace, hworld⟩

end KernelTests.CAgent.OnHeap
