import KernelTests.CAgent.Server
import KernelTests.CJson.Draft
import KernelTests.CJson.Extent
import KernelTests.CJson.Parse

/-!
# The server and its memory

`handle_client` once more, with the trees on the heap and every request for memory it makes.
The server never looks whether a request failed, and does not have to: whichever of them
fail, it runs into no undefined behaviour.  If none fails, it answers what the model without
a heap answers, and releases everything.
-/

namespace KernelTests.CAgent.OnHeap

open Memory CJson

variable {A ν β : Type} [DecidableEq A] [CDouble ν] (M : Allocator A (Cell A ν))

/-! ## The program -/

/-- `is_tool_result` -/
def isToolResult (messages : Option A) : Prog A (Cell A ν) Bool := do
  let isArray ← hasKind messages .array
  if !isArray then
    return false
  else
    let count ← getArraySize messages
    if count = 0 then
      return false
    else
      let last ← getArrayItem messages (count - 1)
      if last.isNone then
        return false
      else
        let role ← getObjectItem last (some (.lit "role"))
        let isString ← hasKind role .string
        if !isString then
          return false
        else
          let n ← loadNode role
          let s ← loadText n.valuestring
          return decide (s = .lit "tool")

/-- `build_tool_call` -/
def buildToolCall (id name arguments : CString) : Prog A (Cell A ν) (Option A) := do
  let toolCall ← createObject M
  let _ ← addStringToObject M toolCall (some (.lit "id")) (some id)
  let _ ← addStringToObject M toolCall (some (.lit "type")) (some (.lit "function"))
  let function ← createObject M
  let _ ← addStringToObject M function (some (.lit "name")) (some name)
  let _ ← addStringToObject M function (some (.lit "arguments")) (some arguments)
  let _ ← addItemToObject M toolCall (some (.lit "function")) function
  return toolCall

/-- `generate_tool_calls` -/
def generateToolCalls (c : Classifier) (messages : Option A) :
    Prog A (Cell A ν) (Option A) := do
  let isArray ← hasKind messages .array
  if !isArray then
    return none
  else
    let count ← getArraySize messages
    if count = 0 then
      return none
    else
      let last ← getArrayItem messages (count - 1)
      if last.isNone then
        return none
      else
        let content ← getObjectItem last (some (.lit "content"))
        let isString ← hasKind content .string
        if !isString then
          return none
        else
          let n ← loadNode content
          let text ← loadText n.valuestring
          match chosenCommand c text with
          | none => return none
          | some command =>
            let toolCalls ← createArray M
            let call ← buildToolCall M (.lit "call_bash") (.lit "bash") (commandArguments command)
            let _ ← addItemToArray toolCalls call
            return toolCalls

/-- The two branches of `build_chat_response` -/
def addAnswer (content : Option CString) (toolCalls message choice : Option A) :
    Prog A (Cell A ν) Unit := do
  let size ← getArraySize toolCalls
  if toolCalls.isSome ∧ 0 < size then
    let _ ← addStringToObject M message (some (.lit "content")) (some (.lit ""))
    let copy ← duplicate M toolCalls true
    let _ ← addItemToObject M message (some (.lit "tool_calls")) copy
    let _ ← addStringToObject M choice (some (.lit "finish_reason")) (some (.lit "tool_calls"))
    return ()
  else
    let _ ← addStringToObject M message (some (.lit "content")) (some (content.getD (.lit "")))
    let _ ← addStringToObject M choice (some (.lit "finish_reason")) (some (.lit "stop"))
    return ()

/-- `build_chat_response` -/
def buildChatResponse (content : Option CString) (toolCalls model : Option A) :
    Prog A (Cell A ν) (Option A) := do
  let root ← createObject M
  let _ ← addStringToObject M root (some (.lit "id")) (some (.lit "chatcmpl-test-001"))
  let _ ← addStringToObject M root (some (.lit "object")) (some (.lit "chat.completion"))
  let _ ← addNumberToObject M root (some (.lit "created")) (CNumber.ofInt 1234567890)
  let name ← (if model.isSome then loadText model else return .lit "test-model")
  let _ ← addStringToObject M root (some (.lit "model")) (some name)
  let choices ← addArrayToObject M root (some (.lit "choices"))
  let choice ← createObject M
  let _ ← addNumberToObject M choice (some (.lit "index")) (CNumber.ofInt 0)
  let message ← createObject M
  let _ ← addStringToObject M message (some (.lit "role")) (some (.lit "assistant"))
  addAnswer M content toolCalls message choice
  let _ ← addItemToObject M choice (some (.lit "message")) message
  let _ ← addItemToArray choices choice
  let usage ← createObject M
  let _ ← addNumberToObject M usage (some (.lit "prompt_tokens")) (CNumber.ofInt 10)
  let _ ← addNumberToObject M usage (some (.lit "completion_tokens")) (CNumber.ofInt 20)
  let _ ← addNumberToObject M usage (some (.lit "total_tokens")) (CNumber.ofInt 30)
  let _ ← addItemToObject M root (some (.lit "usage")) usage
  let response ← printUnformatted M root
  delete root
  return response

/-- The answer of `handle_chat_completions` to a request that parses -/
def completion (c : Classifier) (messages model : Option A) : Prog A (Cell A ν) (Option A) := do
  let done ← isToolResult messages
  if done then
    buildChatResponse M (some (.lit "Task completed successfully.")) none model
  else
    let toolCalls ← generateToolCalls M c messages
    if toolCalls.isSome then
      let response ← buildChatResponse M none toolCalls model
      delete toolCalls
      return response
    else
      buildChatResponse M (some (.lit "I understand. How can I help you?")) none model

/-- `handle_chat_completions` -/
def handleChatCompletions (c : Classifier) (jsonBody : CString) :
    Prog A (Cell A ν) (Option A) := do
  let req ← parse M (some jsonBody)
  if req.isNone then
    strdup M (some (.lit "\x7b\"error\":\"Invalid JSON\"\x7d"))
  else
    let messages ← getObjectItem req (some (.lit "messages"))
    let model ← getObjectItem req (some (.lit "model"))
    let isString ← hasKind model .string
    let modelStr ← (if isString then loadNode model >>= fun n ↦ return n.valuestring
      else return none)
    let response ← completion M c messages modelStr
    delete req
    return response

/-- `extract_post_body` -/
def extractPostBody (request : CString) : Prog A (Cell A ν) (Option A) :=
  strdup M (extractBody request)

/-- `handle_client`, with what is sent as the result -/
def handleClient (c : Classifier) (read : Bytes) : Prog A (Cell A ν) (Option Bytes) := do
  let buffer := CString.ofBytes read
  if read = [] then
    return none
  else if hasPrefix (.lit "OPTIONS") buffer then
    return some (sendHttpResponse 200 "OK" "text/plain" (.lit ""))
  else if hasPrefix (.lit "POST /v1/chat/completions") buffer then
    let body ← extractPostBody M buffer
    if body.isSome then
      let jsonBody ← loadText body
      let response ← handleChatCompletions M c jsonBody
      let text ← (if response.isSome then loadText response else return .lit "")
      let reply := sendHttpResponse 200 "OK" "application/json" text
      free response
      free body
      return some reply
    else
      return some (sendHttpResponse 400 "Bad Request" "application/json"
        (.lit "\x7b\"error\":\"No body\"\x7d"))
  else if hasPrefix (.lit "GET / ") buffer ∨ hasPrefix (.lit "GET /health") buffer then
    return some (sendHttpResponse 200 "OK" "text/plain" (.lit "Simple LLM Server Running"))
  else return some (sendHttpResponse 404 "Not Found" "text/plain" (.lit "Not Found"))

variable {M}

/-! ## Looking at the request -/

/-- The last element of an array, found by its index. -/
theorem Spec.lastItem {t : Item A ν} {p next prev : Option A} {vs : List (Json ν)}
    {P R : Multiset (A × Cell A ν)} {Q : β → Multiset (A × Cell A ν) → Prop}
    {k : Option A → Prog A (Cell A ν) β} (h : Points t p (some (.array vs))) (hvs : vs ≠ [])
    (hP : P = t.cells next prev + R)
    (hk : ∀ q, Points t q (some (vs.getLast hvs)) → Spec (k q) P Q) :
    Spec (getArrayItem p ((vs.length : ℤ) - 1) >>= k) P Q := by
  have hpos := List.length_pos_iff.mpr hvs
  have hindex : (vs.length : ℤ) - 1 = ((vs.length - 1 : ℕ) : ℤ) := by omega
  rw [hindex]
  refine CJson.Spec.getArrayItem h _ hP fun q hq ↦ hk q ?_
  rwa [← List.getLast?_eq_getElem?, List.getLast?_eq_some_getLast hvs] at hq

section Request

variable {t : Item A ν} {p next prev : Option A} {v : Option (Json ν)}
  {P R : Multiset (A × Cell A ν)}

theorem isToolResult_spec (h : Points t p v) (hlen : (Json.elements v).length < 2 ^ 31)
    (hP : P = t.cells next prev + R) :
    Spec (isToolResult p) P (Reads (CAgent.isToolResult v) P) := by
  refine CJson.Spec.hasKind h .array hP ?_
  rcases array_or v with ⟨vs, rfl⟩ | ⟨hkind, hnil⟩
  swap
  · rw [if_pos (by simp [hkind])]
    refine Memory.Spec.pure ⟨?_, rfl⟩
    rw [CAgent.isToolResult, hnil]
    rfl
  rw [if_neg (by simp [kindOf])]
  refine CJson.Spec.getArraySize h hlen hP ?_
  by_cases hvs : vs = []
  · subst hvs
    exact Memory.Spec.pure ⟨rfl, rfl⟩
  have hlast : vs.getLast? = some (vs.getLast hvs) := List.getLast?_eq_some_getLast hvs
  rw [if_neg (by simpa using hvs)]
  refine Spec.lastItem h hvs hP fun q hq ↦ ?_
  rw [if_neg (by simp [hq.isNone_eq])]
  refine CJson.Spec.getObjectItem hq (.lit "role") hP fun role hrole ↦ ?_
  refine CJson.Spec.hasKind hrole .string hP ?_
  have hresult : CAgent.isToolResult (some (.array vs)) =
      decide (Json.getString (some (vs.getLast hvs)) (.lit "role") = some (.lit "tool")) := by
    simp [CAgent.isToolResult, Json.elements, hlast]
  rw [hresult, Json.getString]
  generalize Json.getObjectItem (some (vs.getLast hvs)) (.lit "role") = w at hrole ⊢
  rcases string_or w with ⟨s, rfl⟩ | ⟨hkind, hnone⟩
  · rw [if_neg (by simp [kindOf])]
    refine CJson.Spec.loadValue hrole hP fun n hn ↦ CJson.Spec.loadPointed hn hP ?_
    exact Memory.Spec.pure ⟨by simp [Json.valuestring], rfl⟩
  · rw [if_pos (by simp [hkind]), hnone]
    exact Memory.Spec.pure ⟨by simp, rfl⟩

/-! ## Tool calls -/

theorem buildToolCall_spec (id name arguments : CString) :
    Spec (buildToolCall M id name arguments) 0
      (Draft M none (CAgent.buildToolCall id name arguments) none none) := by
  refine Memory.Spec.bind creates_object.draft fun toolCall P h ↦ ?_
  refine Memory.Spec.bind (h.addString _ _) fun _ P h ↦ ?_
  refine Memory.Spec.bind (h.addString _ _) fun _ P h ↦ ?_
  refine Memory.Spec.call (R := P) creates_object.draft (zero_add P).symm fun function P' h' ↦ ?_
  refine Memory.Spec.call (h'.addString _ _) rfl fun _ P' h' ↦ ?_
  refine Memory.Spec.call (h'.addString _ _) rfl fun _ P' h' ↦ ?_
  rw [add_comm]
  exact Memory.Spec.bind (h.addMember h' _) fun _ P h ↦ Memory.Spec.pure h

variable (M) in
/-- The pointer to the tool calls, or null if there are none. -/
def Calls (calls : Option (List (Json ν))) (r : Option A) (P : Multiset (A × Cell A ν)) : Prop :=
  match calls with
  | none => r = none ∧ P = 0
  | some vs => Draft M none (.array vs) none none r P

theorem generateToolCalls_spec (c : Classifier) (h : Points t p v)
    (hlen : (Json.elements v).length < 2 ^ 31) (hP : P = t.cells next prev + R) :
    Spec (generateToolCalls M c p) P fun r P' ↦
      ∃ P₁, P' = P₁ + P ∧ Calls M (CAgent.generateToolCalls c v) r P₁ := by
  have hnone : CAgent.generateToolCalls c v = none →
      Spec (pure none) P fun r P' ↦ ∃ P₁, P' = P₁ + P ∧
        Calls M (CAgent.generateToolCalls c v) r P₁ := by
    intro h
    rw [h]
    exact Memory.Spec.pure ⟨0, (zero_add P).symm, rfl, rfl⟩
  refine CJson.Spec.hasKind h .array hP ?_
  rcases array_or v with ⟨vs, rfl⟩ | ⟨hkind, hnil⟩
  swap
  · rw [if_pos (by simp [hkind])]
    exact hnone (by simp [CAgent.generateToolCalls, hnil])
  rw [if_neg (by simp [kindOf])]
  refine CJson.Spec.getArraySize h hlen hP ?_
  by_cases hvs : vs = []
  · subst hvs
    exact hnone rfl
  have hlast : vs.getLast? = some (vs.getLast hvs) := List.getLast?_eq_some_getLast hvs
  rw [if_neg (by simpa using hvs)]
  refine Spec.lastItem h hvs hP fun q hq ↦ ?_
  rw [if_neg (by simp [hq.isNone_eq])]
  refine CJson.Spec.getObjectItem hq (.lit "content") hP fun content hcontent ↦ ?_
  refine CJson.Spec.hasKind hcontent .string hP ?_
  have hresult : CAgent.generateToolCalls c (some (.array vs)) = (do
      let text ← Json.getString (some (vs.getLast hvs)) (.lit "content")
      let command ← chosenCommand c text
      return [CAgent.buildToolCall (.lit "call_bash") (.lit "bash") (commandArguments command)]) := by
    simp [CAgent.generateToolCalls, Json.elements, hlast]
  rw [Json.getString] at hresult
  generalize Json.getObjectItem (some (vs.getLast hvs)) (.lit "content") = w at hcontent hresult ⊢
  rcases string_or w with ⟨s, rfl⟩ | ⟨hkind, hw⟩
  swap
  · rw [if_pos (by simp [hkind])]
    exact hnone (by rw [hresult, hw]; rfl)
  rw [if_neg (by simp [kindOf])]
  refine CJson.Spec.loadValue hcontent hP fun n hn ↦ CJson.Spec.loadPointed hn hP ?_
  have hbind : (some (Json.string s : Json ν)).bind Json.valuestring = some s := rfl
  rw [hbind] at hresult
  cases hcommand : chosenCommand c s with
  | none => exact hnone (by rw [hresult]; simp [hcommand])
  | some command =>
      simp only [hcommand, Option.bind_eq_bind, Option.bind_some, Option.pure_def] at hresult
      rw [hresult]
      refine Memory.Spec.call (R := P) creates_array.draft (zero_add P).symm fun calls P₁ h₁ ↦ ?_
      refine Memory.Spec.call (R := P₁ + P) (buildToolCall_spec _ _ _) (zero_add _).symm
        fun call P₂ h₂ ↦ ?_
      refine Memory.Spec.call (R := P) (h₁.addElement h₂) (by abel) fun _ P₃ h₃ ↦ ?_
      exact Memory.Spec.pure ⟨P₃, rfl, h₃⟩

end Request

/-! ## Responses -/

section Response

variable (content : Option CString) {calls : Option (List (Json ν))}
  {toolCalls message choice : Option A} {P₁ P₂ P₃ : Multiset (A × Cell A ν)}

theorem Calls.getArraySize (h : Calls M calls toolCalls P₁)
    (hlen : ∀ vs, calls = some vs → vs.length < 2 ^ 31) :
    Spec (getArraySize toolCalls) P₁ fun r P ↦ P = P₁ ∧
      (M.Unfailing → r = (calls.getD []).length) := by
  cases calls with
  | none =>
      obtain ⟨rfl, rfl⟩ := h
      exact Memory.Spec.pure ⟨rfl, fun _ ↦ rfl⟩
  | some vs =>
      have hint : Int.bmod vs.length (2 ^ 32) = vs.length := by
        have hvs := hlen vs rfl
        exact Int.bmod_eq_of_le (by omega) (by omega)
      have hsize := CJson.Draft.getArraySize h
      rw [hint] at hsize
      exact hsize

/-- The members the message has besides its role. -/
def answerMembers (content : Option CString) (calls : Option (List (Json ν))) :
    List (CString × Json ν) :=
  match calls with
  | some (call :: calls) => [member "content" (str ""), member "tool_calls" (.array (call :: calls))]
  | _ => [member "content" (.string (content.getD (.lit "")))]

theorem addAnswer_spec {ms cs : List (CString × Json ν)} (ht : Calls M calls toolCalls P₁)
    (hlen : ∀ vs, calls = some vs → vs.length < 2 ^ 31)
    (hm : Draft M none (.object ms) none none message P₂)
    (hc : Draft M none (.object cs) none none choice P₃) :
    Spec (addAnswer M content toolCalls message choice) (P₂ + P₃ + P₁) fun _ P ↦
      ∃ P₂ P₃, P = P₂ + P₃ + P₁ ∧
        Draft M none (.object (ms ++ answerMembers content calls)) none none message P₂ ∧
        Draft M none (.object (cs ++ [member "finish_reason" (finishReason calls)])) none none
          choice P₃ := by
  refine Memory.Spec.call (R := P₂ + P₃) (ht.getArraySize hlen) (by abel) ?_
  rintro size P₁ ⟨rfl, hsize⟩
  split
  · next hcalls =>
      cases calls with
      | none => simp [ht.1] at hcalls
      | some vs =>
          have hexact : M.Unfailing → ∃ u us, vs = u :: us := by
            intro hM
            rw [hsize hM] at hcalls
            exact List.exists_cons_of_length_pos (by simpa using hcalls.2)
          refine Memory.Spec.call (R := P₁ + P₃) (hm.addString (.lit "content") (.lit ""))
            (by abel) fun _ P₂ hm ↦ ?_
          refine Memory.Spec.call (R := P₂ + P₃) (CJson.Draft.duplicate ht) (by abel) ?_
          rintro copy _ ⟨P₄, rfl, hcopy⟩
          refine Memory.Spec.call (R := P₁ + P₃) (hm.addMember hcopy (.lit "tool_calls"))
            (by abel) fun _ P₂ hm ↦ ?_
          refine Memory.Spec.call (R := P₂ + P₁) (hc.addString (.lit "finish_reason")
            (.lit "tool_calls")) (by abel) fun _ P₃ hc ↦ ?_
          refine Memory.Spec.pure ⟨P₂, P₃, by abel, hm.congr rfl fun hM ↦ ?_,
            hc.congr rfl fun hM ↦ ?_⟩
          · obtain ⟨u, us, rfl⟩ := hexact hM
            rw [List.append_assoc]
            rfl
          · obtain ⟨u, us, rfl⟩ := hexact hM
            rfl
  · next hcalls =>
      have hexact : M.Unfailing → calls.getD [] = [] := by
        intro hM
        rw [hsize hM] at hcalls
        cases calls with
        | none => rfl
        | some vs =>
            rcases ht with ⟨-, h⟩ | ⟨t, -, -, rfl, -⟩
            · exact absurd hM h
            · simpa using hcalls
      refine Memory.Spec.call (R := P₁ + P₃) (hm.addString (.lit "content")
        (content.getD (.lit ""))) (by abel) fun _ P₂ hm ↦ ?_
      refine Memory.Spec.call (R := P₂ + P₁) (hc.addString (.lit "finish_reason")
        (.lit "stop")) (by abel) fun _ P₃ hc ↦ ?_
      refine Memory.Spec.pure ⟨P₂, P₃, by abel, hm.congr rfl fun hM ↦ ?_, hc.congr rfl fun hM ↦ ?_⟩
      · match calls, hexact hM with
        | none, _ | some [], _ => rfl
      · match calls, hexact hM with
        | none, _ | some [], _ => rfl

omit [DecidableEq A] [CDouble ν] in
theorem responseMessage_eq (content : Option CString) (calls : Option (List (Json ν))) :
    responseMessage content calls =
      .object (member "role" (str "assistant") :: answerMembers content calls) := by
  match calls with
  | none | some [] | some (_ :: _) => rfl

omit [CDouble ν] in
/-- The name of the model, or the default. -/
theorem Spec.modelName {t : Item A ν} {model next prev : Option A} {s : Option CString}
    {P R : Multiset (A × Cell A ν)} {Q : β → Multiset (A × Cell A ν) → Prop}
    {k : CString → Prog A (Cell A ν) β} (h : PointsText t model s) (hP : P = t.cells next prev + R)
    (hk : Spec (k (s.getD (.lit "test-model"))) P Q) :
    Spec ((if model.isSome then loadText model else pure (.lit "test-model")) >>= k) P Q := by
  match model, s, h with
  | none, none, _ =>
      rw [if_neg (by simp), pure_bind]
      exact hk
  | some a, some s, h =>
      rw [if_pos Option.isSome_some]
      exact CJson.Spec.loadPointed h hP hk

/-- The response as a text of its own; what it was built from stays as it is. -/
theorem buildChatResponse_spec {t : Item A ν} {model : Option A} {s : Option CString}
    (ht : Calls M calls toolCalls P₁) (hlen : ∀ vs, calls = some vs → vs.length < 2 ^ 31)
    (hmodel : PointsText t model s) :
    Spec (buildChatResponse M content toolCalls model) (P₁ + t.cells none none) fun r P ↦
      ∃ P₂ L, P = P₂ + L + (P₁ + t.cells none none) ∧
        Text M (Overlong M (responseRoot content calls s).print.length)
          (CAgent.buildChatResponse ν content calls s) r P₂ ∧ (M.Unfailing → L = 0) := by
  generalize hF : P₁ + t.cells none none = F
  refine Memory.Spec.call (R := F) creates_object.draft (zero_add F).symm fun root P h ↦ ?_
  refine Memory.Spec.call (h.addString _ _) rfl fun _ P h ↦ ?_
  refine Memory.Spec.call (h.addString _ _) rfl fun _ P h ↦ ?_
  refine Memory.Spec.call (h.addNumber _ _) rfl fun _ P h ↦ ?_
  refine Spec.modelName (R := P + P₁) hmodel (by rw [← hF]; abel) ?_
  refine Memory.Spec.call (h.addString _ _) rfl fun _ P h ↦ ?_
  refine Memory.Spec.call (h.addChild creates_array (.lit "choices")) rfl ?_
  rintro choices _ ⟨prev', Pa, Pr, rfl, ha, hclose⟩
  refine Memory.Spec.call (R := Pa + Pr + F) creates_object.draft (zero_add _).symm
    fun choice Pc hc ↦ ?_
  refine Memory.Spec.call (hc.addNumber _ _) rfl fun _ Pc hc ↦ ?_
  refine Memory.Spec.call (R := Pc + (Pa + Pr + F)) creates_object.draft (zero_add _).symm
    fun message Pm hm ↦ ?_
  refine Memory.Spec.call (hm.addString _ _) rfl fun _ Pm hm ↦ ?_
  refine Memory.Spec.call (R := Pa + Pr + t.cells none none)
    (addAnswer_spec content ht hlen hm hc) (by rw [← hF]; abel) ?_
  rintro _ _ ⟨Pm, Pc, rfl, hm, hc⟩
  refine Memory.Spec.call (R := Pa + Pr + F) (hc.addMember hm _) (by rw [← hF]; abel)
    fun _ Pc hc ↦ ?_
  refine Memory.Spec.call (R := Pr + F) (ha.addElement hc) (by abel) fun _ Pa ha ↦ ?_
  have h := hclose _ Pa ha rfl
  refine Memory.Spec.call (R := Pa + Pr + F) creates_object.draft (by rw [zero_add, add_assoc])
    fun usage Pu hu ↦ ?_
  refine Memory.Spec.call (hu.addNumber _ _) rfl fun _ Pu hu ↦ ?_
  refine Memory.Spec.call (hu.addNumber _ _) rfl fun _ Pu hu ↦ ?_
  refine Memory.Spec.call (hu.addNumber _ _) rfl fun _ Pu hu ↦ ?_
  refine Memory.Spec.call (R := F) (h.addMember hu _) (by abel) fun _ P h ↦ ?_
  have h : Draft M none (responseRoot content calls s) none none root P := by
    refine h.congr rfl fun _ ↦ ?_
    rw [responseRoot, responseMessage_eq]
    rfl
  refine Memory.Spec.call (R := F) h.print rfl ?_
  rintro response _ ⟨P₂, rfl, htext⟩
  refine Memory.Spec.call (R := P₂ + F) h.delete (by abel) fun _ L hL ↦ ?_
  exact Memory.Spec.pure ⟨P₂, L, by abel, htext, hL⟩

end Response

/-! ## Answers -/

omit [DecidableEq A] in
/-- A response around a text that is not too long is printed. -/
theorem not_overlong {v : Json ν} (h : weight v < 2 ^ 25) (hM : M.Unfailing) :
    ¬ Overlong M v.print.length := by
  rintro (h' | h')
  · exact h' hM
  · have hlen := length_print_le v
    rw [intMax] at h'
    omega

theorem weight_responseRoot_le (content : Option CString) (calls : Option (List (Json ν)))
    (s : Option CString) : weight (responseRoot content calls s) ≤
      weight (responseMessage content calls) + (s.getD (.lit "")).strlen + 200 := by
  have hreason : weight (finishReason calls) ≤ 11 := by
    match calls with
    | none | some [] | some (_ :: _) => simp [finishReason, weight, str, CString.strlen, ascii]
  have hname : (s.getD (.lit "test-model")).bytes.length ≤ (s.getD (.lit "")).strlen + 10 := by
    cases s with
    | none => simp [CString.strlen, ascii]
    | some s => exact Nat.le_add_right _ _
  simp only [responseRoot, weight, weightMembers, weightItems, member, str, num, CString.strlen] at *
  simp [ascii]
  omega

omit [CDouble ν] in
theorem weight_textMessage_le (content : CString) :
    weight (responseMessage (ν := ν) (some content) none) ≤ content.strlen + 40 := by
  simp only [responseMessage, weight, weightMembers, member, str, CString.strlen, Option.getD_some]
  simp [ascii]
  omega

omit [CDouble ν] in
theorem weight_callMessage_le (arguments : CString) : weight (responseMessage (ν := ν) none
    (some [CAgent.buildToolCall (.lit "call_bash") (.lit "bash") arguments])) ≤
      arguments.strlen + 200 := by
  simp only [responseMessage, CAgent.buildToolCall, weight, weightMembers, weightItems, member, str,
    CString.strlen]
  simp [ascii]
  omega

/-- The text of an answer beside the request. -/
def Answers (M : Allocator A (Cell A ν)) (text : CString) (R : Multiset (A × Cell A ν))
    (r : Option A) (P : Multiset (A × Cell A ν)) : Prop :=
  ∃ P₂ L, P = P₂ + L + R ∧ Text M (¬ M.Unfailing) text r P₂ ∧ (M.Unfailing → L = 0)

section Answer

variable {t : Item A ν} {model : Option A} {s : Option CString}

/-- A response without tool calls. -/
theorem textResponse_spec (content : CString) (hcontent : content.strlen < 2 ^ 16)
    (hmodel : PointsText t model s) (hs : (s.getD (.lit "")).strlen < 2 ^ 16) :
    Spec (buildChatResponse M (some content) none model) (t.cells none none)
      (Answers M (CAgent.buildChatResponse ν (some content) none s) (t.cells none none)) := by
  have hcalls : Calls (ν := ν) M none none 0 := ⟨rfl, rfl⟩
  have h := buildChatResponse_spec (some content) hcalls (fun _ h ↦ by cases h) hmodel
  rw [zero_add] at h
  refine h.mono ?_
  rintro r _ ⟨P₂, L, rfl, htext, hL⟩
  refine ⟨P₂, L, rfl, htext.congr (fun hlong hM ↦ not_overlong ?_ hM hlong) fun _ ↦ rfl, hL⟩
  have hroot := weight_responseRoot_le (ν := ν) (some content) none s
  have hmessage := weight_textMessage_le (ν := ν) content
  omega

omit [CDouble ν] in
/-- What tool calls the server makes: none, or one of a command that is cut to the buffer. -/
theorem generateToolCalls_cases (c : Classifier) (messages : Option (Json ν)) :
    CAgent.generateToolCalls c messages = none ∨ ∃ arguments : CString, arguments.strlen ≤ 2047 ∧
      CAgent.generateToolCalls c messages =
        some [CAgent.buildToolCall (.lit "call_bash") (.lit "bash") arguments] := by
  cases h : CAgent.generateToolCalls c messages with
  | none => exact Or.inl rfl
  | some calls =>
      simp only [CAgent.generateToolCalls, Option.bind_eq_bind, Option.bind_eq_some_iff] at h
      obtain ⟨-, -, -, -, command, -, he⟩ := h
      cases he
      exact Or.inr ⟨commandArguments command, (List.takeWhile_sublist _).length_le.trans
        (List.length_take_le _ _), rfl⟩

/-- The answer to a request that parses; the request stays as it is. -/
theorem completion_spec (c : Classifier) {req : Json ν} {messages : Option A}
    (hmessages : Points t messages (Json.getObjectItem (some req) (.lit "messages")))
    (hmodel : PointsText t model (Json.getString (some req) (.lit "model")))
    (hreq : extent req < 2 ^ 16) :
    Spec (completion M c messages model) (t.cells none none)
      (Answers M (CAgent.completion ν c req) (t.cells none none)) := by
  have hlen : (Json.elements (Json.getObjectItem (some req) (.lit "messages"))).length < 2 ^ 31 := by
    have hle := length_elements_le (Json.getObjectItem (some req) (.lit "messages"))
    cases hv : Json.getObjectItem (some req) (.lit "messages") with
    | none => simp [Json.elements]
    | some v =>
        have hv' := extent_getObjectItem hv
        rw [hv, Option.map_some, Option.getD_some] at hle
        omega
  have hs : ((Json.getString (some req) (.lit "model")).getD (.lit "")).strlen < 2 ^ 16 := by
    cases hv : Json.getString (some req) (.lit "model") with
    | none => simp [CString.strlen, ascii]
    | some s =>
        obtain ⟨v, hv, hvs⟩ := Option.bind_eq_some_iff.mp hv
        have hv' := extent_getObjectItem hv
        cases v with
        | string s' =>
            cases hvs
            exact hv'.trans_lt hreq
        | _ => cases hvs
  unfold completion CAgent.completion
  refine Memory.Spec.bind (isToolResult_spec hmessages hlen (add_zero _).symm) ?_
  rintro done _ ⟨rfl, rfl⟩
  simp only
  generalize Json.getObjectItem (some req) (.lit "messages") = v at hmessages hlen ⊢
  split
  · exact textResponse_spec _ (by decide) hmodel hs
  refine Memory.Spec.bind (generateToolCalls_spec c hmessages hlen (add_zero _).symm) ?_
  rintro toolCalls _ ⟨P₁, rfl, hcalls⟩
  rcases generateToolCalls_cases c v with hv | ⟨arguments, harguments, hv⟩
  · rw [hv] at hcalls ⊢
    obtain ⟨rfl, rfl⟩ := hcalls
    rw [if_neg (by simp), zero_add]
    exact textResponse_spec _ (by decide) hmodel hs
  rw [hv] at hcalls ⊢
  simp only
  split
  · have hone : ∀ vs, some [CAgent.buildToolCall (ν := ν) (.lit "call_bash") (.lit "bash") arguments] =
        some vs → vs.length < 2 ^ 31 := by
      rintro _ ⟨⟩
      simp
    refine Memory.Spec.bind (buildChatResponse_spec none hcalls hone hmodel) ?_
    rintro r _ ⟨P₂, L, rfl, htext, hL⟩
    refine Memory.Spec.call (R := P₂ + L + t.cells none none) hcalls.delete (by abel)
      fun _ L' hL' ↦ Memory.Spec.pure ⟨P₂, L + L', by abel,
        htext.congr (fun hlong hM ↦ not_overlong ?_ hM hlong) fun _ ↦ rfl, fun hM ↦ ?_⟩
    · have hroot := weight_responseRoot_le none (some [CAgent.buildToolCall (ν := ν)
        (.lit "call_bash") (.lit "bash") arguments]) (Json.getString (some req) (.lit "model"))
      have hmessage := weight_callMessage_le (ν := ν) arguments
      omega
    · rw [hL hM, hL' hM, add_zero]
  · next hnone =>
      have hM : ¬ M.Unfailing := by
        rcases hcalls with ⟨-, hM⟩ | ⟨u, -, -, rfl, -⟩
        · exact hM
        · simp at hnone
      rw [add_comm]
      refine Memory.Spec.tail (textResponse_spec _ (by decide) hmodel hs) rfl ?_
      rintro r _ ⟨P₂, L, rfl, htext, -⟩
      exact ⟨P₂, L + P₁, by abel, htext.congr id fun h ↦ absurd h hM, fun h ↦ absurd h hM⟩

end Answer

/-- The string of the item, or null. -/
theorem Spec.stringOf {t : Item A ν} {p next prev : Option A} {v : Option (Json ν)}
    {P R : Multiset (A × Cell A ν)} {Q : β → Multiset (A × Cell A ν) → Prop}
    {k : Option A → Prog A (Cell A ν) β} (h : Points t p v) (hP : P = t.cells next prev + R)
    (hk : ∀ q, PointsText t q (v.bind Json.valuestring) → Spec (k q) P Q) :
    Spec (hasKind p .string >>= fun isString ↦
      (if isString then loadNode p >>= fun n ↦ pure n.valuestring else pure none) >>= k) P Q := by
  refine CJson.Spec.hasKind h .string hP ?_
  rcases string_or v with ⟨s, rfl⟩ | ⟨hkind, hnone⟩
  · rw [if_pos (by simp [kindOf]), bind_assoc]
    exact CJson.Spec.loadValue h hP fun n hn ↦ hk _ hn
  · rw [if_neg (by simp [hkind]), pure_bind]
    refine hk none ?_
    rw [hnone]
    trivial

/-- Only the answer is left on the heap. -/
theorem handleChatCompletions_spec (c : Classifier) (jsonBody : CString)
    (hbody : jsonBody.strlen < 2 ^ 16) :
    Spec (handleChatCompletions M c jsonBody) 0
      (Answers M (CAgent.handleChatCompletions ν c jsonBody) 0) := by
  rw [CAgent.handleChatCompletions]
  refine Memory.Spec.bind (parse_spec jsonBody) ?_
  rintro _ _ (⟨rfl, rfl, hread⟩ | ⟨t, rfl, rfl, -, req, hread, hv⟩)
  · rw [if_pos Option.isNone_none]
    refine Memory.Spec.last (Memory.Spec.alloc (fun hM ↦ ?_) fun a ↦ ?_)
    · exact Memory.Spec.pure ⟨0, 0, rfl, Or.inl ⟨rfl, rfl, hM⟩, fun _ ↦ rfl⟩
    · refine Memory.Spec.pure ⟨_, 0, (add_zero _).symm, Or.inr ⟨a, _, rfl, rfl, fun hM ↦ ?_⟩,
        fun _ ↦ rfl⟩
      rw [hread.resolve_right (not_not_intro hM)]
  have hext : extent req < 2 ^ 16 := (extent_le_of_parse hread).trans_lt hbody
  have hcells : t.cells none none = t.cells none none + 0 := (add_zero _).symm
  rw [if_neg (by simp), hread]
  refine CJson.Spec.getObjectItem hv.points (.lit "messages") hcells fun messages hmessages ↦ ?_
  refine CJson.Spec.getObjectItem hv.points (.lit "model") hcells fun model hmodel ↦ ?_
  refine Spec.stringOf hmodel hcells fun modelStr hmodelStr ↦ ?_
  refine Memory.Spec.bind (completion_spec c hmessages hmodelStr hext) ?_
  rintro r _ ⟨P₂, L, rfl, htext, hL⟩
  refine Memory.Spec.call (R := P₂ + L) (delete_item t none) (add_comm _ _) ?_
  rintro _ _ rfl
  exact Memory.Spec.pure ⟨P₂, L, by abel, htext, hL⟩

omit [DecidableEq A] [CDouble ν] in
theorem strlen_extractBody {request body : CString} (h : extractBody request = some body) :
    body.strlen ≤ request.strlen := by
  obtain ⟨rest, hrest, rfl⟩ := Option.map_eq_some_iff.mp h
  obtain ⟨front, hfront⟩ := Text.after_eq_some hrest
  refine (List.takeWhile_sublist _).length_le.trans ?_
  rw [CString.strlen, hfront, List.length_append]
  exact Nat.le_add_left _ _

/-- The answer to a request whose body was found. -/
theorem answerBody_spec (c : Classifier) (body : CString) (hbody : body.strlen < 2 ^ 16) (a : A) :
    Spec (do
        let jsonBody ← loadText (some a)
        let response ← handleChatCompletions (ν := ν) M c jsonBody
        let text ← (if response.isSome then loadText response else return .lit "")
        let reply := sendHttpResponse 200 "OK" "application/json" text
        free response
        free (some a)
        return some reply) {(a, .chars (.ofCString body))} fun reply P ↦ M.Unfailing → P = 0 ∧
      reply = some (sendHttpResponse 200 "OK" "application/json"
        (CAgent.handleChatCompletions ν c body)) := by
  refine CJson.Spec.loadCString rfl (Multiset.mem_singleton_self _) ?_
  refine Memory.Spec.call (handleChatCompletions_spec c body hbody) (zero_add _).symm ?_
  rintro response _ ⟨P₂, L, rfl, ⟨rfl, rfl, hM⟩ | ⟨b, s, rfl, rfl, hs⟩, hL⟩
  · rw [if_neg (by simp), pure_bind]
    refine Memory.Spec.free_null (Memory.Spec.free (R := 0 + L + 0) rfl (add_comm _ _) ?_)
    exact Memory.Spec.pure fun h ↦ absurd h hM
  · rw [if_pos Option.isSome_some]
    refine CJson.Spec.loadCString (s := s) rfl (by simp) ?_
    refine Memory.Spec.free (R := L + {(a, .chars (.ofCString body))}) rfl (by abel) ?_
    refine Memory.Spec.free (R := L) rfl (add_comm _ _) (Memory.Spec.pure fun hM ↦ ?_)
    rw [hs hM]
    exact ⟨hL hM, rfl⟩

/-- **The server and its memory.**  Whatever requests for memory fail, a connection is served
without undefined behaviour.  If none fails, everything is released, and the reply is the one
of the model without a heap. -/
theorem handleClient_spec (c : Classifier) (buffer : Bytes) (hbuffer : buffer.length < 2 ^ 16) :
    Spec (handleClient (ν := ν) M c buffer) 0 fun reply P ↦ M.Unfailing → P = 0 ∧
      reply = CAgent.handleClient ν c buffer := by
  unfold handleClient CAgent.handleClient
  simp only
  split
  · exact Memory.Spec.pure fun _ ↦ ⟨rfl, rfl⟩
  split
  · exact Memory.Spec.pure fun _ ↦ ⟨rfl, rfl⟩
  split
  · rw [extractPostBody]
    cases hbody : extractBody (.ofBytes buffer) with
    | none => exact Memory.Spec.pure fun _ ↦ ⟨rfl, rfl⟩
    | some body =>
        have hshort : body.strlen < 2 ^ 16 :=
          (strlen_extractBody hbody).trans_lt ((List.takeWhile_sublist _).length_le.trans_lt hbuffer)
        refine Memory.Spec.alloc (fun hM ↦ Memory.Spec.pure fun h ↦ absurd h hM) fun a ↦ ?_
        rw [if_pos Option.isSome_some, add_zero]
        exact answerBody_spec c body hshort a
  split
  · exact Memory.Spec.pure fun _ ↦ ⟨rfl, rfl⟩
  · exact Memory.Spec.pure fun _ ↦ ⟨rfl, rfl⟩

/-! ## The accept loop -/

variable (M) in
/-- The loop of `main`: one connection after the other, each with what `read` delivers into the
buffer of `BUFFER_SIZE` bytes. -/
def acceptLoop (c : Classifier) :
    List {buffer : Bytes // buffer.length < 65536} → Prog A (Cell A ν) (List (Option Bytes))
  | [] => return []
  | buffer :: buffers => do
    let reply ← handleClient M c buffer
    let replies ← acceptLoop c buffers
    return reply :: replies

/-- **The memory of a server run.**  Whatever connections come and whatever requests for memory
fail, the server never runs into undefined behaviour.  If none fails, nothing that was requested
is left at the end of any run, and every reply is the one of the model without a heap. -/
theorem acceptLoop_spec (c : Classifier)
    (buffers : List {buffer : Bytes // buffer.length < 65536}) :
    Spec (acceptLoop (ν := ν) M c buffers) 0 fun replies P ↦ M.Unfailing → P = 0 ∧
      replies = buffers.map (CAgent.handleClient ν c ·.1) := by
  induction buffers with
  | nil => exact Memory.Spec.pure fun _ ↦ ⟨rfl, rfl⟩
  | cons buffer buffers ih =>
      refine Memory.Spec.bind (handleClient_spec c buffer buffer.2) fun reply P hreply ↦ ?_
      refine Memory.Spec.call (R := P) ih (zero_add P).symm fun replies P' hreplies ↦ ?_
      refine Memory.Spec.pure fun hM ↦ ?_
      obtain ⟨rfl, hone⟩ := hreply hM
      obtain ⟨rfl, hrest⟩ := hreplies hM
      exact ⟨add_zero 0, by rw [List.map_cons, hone, hrest]⟩

end KernelTests.CAgent.OnHeap
