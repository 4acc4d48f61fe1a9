import KernelTests.CAgent.Http
import KernelTests.Json.Print
import KernelTests.Json.Parse

/-!
# The agent loop

`agent_run` keeps the conversation as a list of messages.  In every step it sends
the whole history, copies the message of the first choice into it, and answers the
tool calls of that message by running tools.  A reply without tool calls ends the
run.
-/

namespace KernelTests.CAgent

open Effects

variable {ν σ : Type}

/-! ## Messages -/

/-- A member with a string literal for a key. -/
def member (key : String) (v : Json ν) : CString × Json ν := (.lit key, v)

/-- A string literal. -/
def str (s : String) : Json ν := .string (.lit s)

/-- The message that opens every conversation. -/
def systemMessage : Json ν :=
  .object [member "role" (str "system"),
    member "content" (str ("You are a helpful assistant that can use tools to help users. " ++
      "When a user asks you to do something, use the appropriate tools."))]

/-- The message that carries the prompt. -/
def userMessage (prompt : CString) : Json ν :=
  .object [member "role" (str "user"), member "content" (.string prompt)]

/-- The answer to a tool call; only a string is passed on as its identifier. -/
def toolMessage (id : Option CString) (output : CString) : Json ν :=
  .object ([member "role" (str "tool")] ++
    (match id with
      | some id => [member "tool_call_id" (.string id)]
      | none => []) ++
    [member "content" (.string output)])

/-! ## Requests -/

/-- The description of a tool; every declared parameter is a string. -/
def toolDefinition (name description : String) (properties : List String)
    (required : Option (List String)) : Json ν :=
  .object [member "type" (str "function"),
    member "function" (.object [member "name" (str name),
      member "description" (str description),
      member "parameters" (.object ([member "type" (str "object"),
        member "properties" (.object (properties.map fun key ↦
          member key (.object [member "type" (str "string")])))] ++
        (match required with
          | some keys => [member "required" (.array (keys.map str))]
          | none => [])))])]

/-- `read_tool` -/
def readTool : Json ν :=
  toolDefinition "read_file" "Read contents of a file" ["file_path"] (some ["file_path"])

/-- `write_tool` -/
def writeTool : Json ν :=
  toolDefinition "write_file" "Write content to a file" ["file_path", "content"]
    (some ["file_path", "content"])

/-- `list_tool` -/
def listTool : Json ν :=
  toolDefinition "list_files" "List files in a directory" ["path"] none

/-- `bash_tool` -/
def bashTool : Json ν :=
  toolDefinition "bash" "Execute a bash command" ["command"] (some ["command"])

/-- The tools announced to the model. -/
def tools : List (Json ν) := [readTool, writeTool, listTool, bashTool]

/-- The value `build_request` prints. -/
def requestRoot (messages : List (Json ν)) (model : CString) : Json ν :=
  .object [member "model" (.string model), member "messages" (.array messages),
    member "tools" (.array tools)]

variable [CNumber ν]

/-- `build_request` -/
def buildRequest (messages : List (Json ν)) (model : CString) : CString :=
  (requestRoot messages model).printUnformatted

/-! ## Tool calls -/

variable (k : Kernel σ) (ctx : ToolContext)

/-- The arguments of a call: what `cJSON_Parse` makes of the string. -/
def callArguments (function : Json ν) : Option (Json ν) :=
  (Json.getString (some function) (.lit "arguments")).bind Json.parse

/-- One round of the loop over the tool calls.  A call without a function, or whose function
has no name, is passed over; otherwise the tool runs and its output becomes a message. -/
def runToolCall (toolCall : Json ν) : Agent ν σ (List (Json ν)) := do
  match Json.getObjectItem (some toolCall) (.lit "function") with
  | none => return []
  | some function =>
    match Json.getString (some function) (.lit "name") with
    | none => return []
    | some name =>
      let result ← executeTool k ctx name (callArguments function)
      Traced.emit (.stdout (ascii "  [Result] " ++
        (result.output.getD (.lit "(empty)")).bytes ++ ascii "\n"))
      return [toolMessage (Json.getString (some toolCall) (.lit "id"))
        (result.output.getD (.lit ""))]

/-- The loop over the tool calls; the messages it appends to the history. -/
def runToolCalls : List (Json ν) → Agent ν σ (List (Json ν))
  | [] => return []
  | toolCall :: toolCalls => do
    let answers ← runToolCall k ctx toolCall
    let rest ← runToolCalls toolCalls
    return answers ++ rest

/-! ## Steps -/

variable (client : HttpClient)

/-- `printf("  [Assistant] %s\n", ...)`, for a content that is not empty -/
def printAssistant (content : Option (Json ν)) : Agent ν σ Unit :=
  match content.bind Json.valuestring with
  | some text =>
    if text.bytes = [] then return ()
    else Traced.emit (.stdout (ascii "  [Assistant] " ++ text.bytes ++ ascii "\n"))
  | none => return ()

/-- The final answer; `printf` writes `(null)` for the string of a node that has none. -/
def finalAnswer : Option (Json ν) → CString
  | none => .lit "(empty)"
  | some content => content.valuestring.getD (.lit "(null)")

/-- What a step does with the message of the first choice. -/
def handleMessage (messages : List (Json ν)) (message : Option (Json ν)) :
    Agent ν σ (ℤ ⊕ List (Json ν)) := do
  let content := Json.getObjectItem message (.lit "content")
  printAssistant content
  match Json.elements (Json.getObjectItem message (.lit "tool_calls")) with
  | [] =>
    Traced.emit (.stdout (ascii "\n[Final Answer]\n" ++ (finalAnswer content).bytes ++ ascii "\n"))
    return .inl 0
  | toolCall :: toolCalls =>
    let answers ← runToolCalls k ctx (toolCall :: toolCalls)
    return .inr (messages ++ message.toList ++ answers)

/-- What a step does with the reply of the server. -/
def handleReply (messages : List (Json ν)) (reply : Option CString) :
    Agent ν σ (ℤ ⊕ List (Json ν)) := do
  match reply with
  | none =>
    Traced.emit (.stderr (ascii "Error: Failed to get response from LLM\n"))
    return .inl (-1)
  | some text =>
    match Json.parse text with
    | none =>
      Traced.emit (.stderr (ascii "Error: Failed to parse LLM response\n"))
      return .inl (-1)
    | some response =>
      match Json.elements (Json.getObjectItem (some response) (.lit "choices")) with
      | [] =>
        Traced.emit (.stderr (ascii "Error: No choices in response\n"))
        return .inl (-1)
      | choice :: _ =>
        handleMessage k ctx messages (Json.getObjectItem (some choice) (.lit "message"))

/-- The path of the endpoint. -/
def endpoint : CString := .lit "/v1/chat/completions"

/-- The body of the loop: step number and history in, exit code or the next two out. -/
def agentStep (state : ℕ × List (Json ν)) : Agent ν σ (ℤ ⊕ ℕ × List (Json ν)) := do
  let (step, messages) := state
  Traced.emit (.stdout (ascii "\n[Step " ++ decimalNat (step + 1) ++ ascii "]\n"))
  Traced.emit (.request messages)
  Traced.emit (.stdout (ascii "  Calling LLM...\n"))
  let reply ← httpPost k client endpoint (buildRequest messages client.model)
  Traced.emit (.reply reply)
  match ← handleReply k ctx messages reply with
  | .inl code => return .inl code
  | .inr messages => return .inr (step + 1, messages)

/-- `MAX_STEPS` -/
def maxSteps : ℕ := 50

/-- The history a run starts from. -/
def initialMessages (prompt : CString) : List (Json ν) := [systemMessage, userMessage prompt]

/-- What happens when the budget is used up. -/
def budgetExhausted : Agent ν σ ℤ := do
  Traced.emit (.stderr (ascii "Warning: Reached maximum steps (50)\n"))
  return 0

/-- `agent_run` -/
def agentRun (prompt : CString) : Agent ν σ ℤ :=
  Traced.iterate (agentStep k ctx client) budgetExhausted maxSteps (0, initialMessages prompt)

end KernelTests.CAgent
