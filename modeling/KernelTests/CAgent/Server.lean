import KernelTests.CAgent.Inference
import KernelTests.CAgent.Agent

/-!
# The server

`simple_llm_server` answers one request per connection, from the bytes a single
`read` delivers.  A request that ends with a tool message is answered with a text;
any other is turned into a call of `bash`, if the text of its last message selects a
command.
-/

namespace KernelTests.CAgent

variable {ν : Type}

/-! ## Choosing a tool call -/

/-- `is_tool_result` -/
def isToolResult (messages : Option (Json ν)) : Bool :=
  match (Json.elements messages).getLast? with
  | none => false
  | some last => Json.getString (some last) (.lit "role") = some (.lit "tool")

/-- `build_tool_call` -/
def buildToolCall (id name arguments : CString) : Json ν :=
  .object [member "id" (.string id), member "type" (str "function"),
    member "function" (.object [member "name" (.string name),
      member "arguments" (.string arguments)])]

/-- `snprintf(args, sizeof(args), ...)` -/
def commandArguments (command : CString) : CString :=
  .ofBytes ((ascii "\x7b\"command\":\"" ++ command.bytes ++ ascii "\"\x7d").take 2047)

/-- The commands of the filesystem tasks, which bypass the inference layer. -/
def directCommand (text : CString) : Option CString :=
  if strcasestr text (.lit "test_file.txt") ∧ strcasestr text (.lit "Hello OS") then
    some (.lit "printf 'Hello OS\\n' > test_file.txt")
  else if strcasestr text (.lit "test_input.txt") then
    some (.lit ("printf '1\\n2\\n3\\n4\\n5\\n' > test_input.txt && " ++
      "awk '\x7bsum += $1\x7d END \x7bprint sum\x7d' test_input.txt"))
  else if strcasestr text (.lit "test_dir") then
    some (.lit ("mkdir -p test_dir && touch test_dir/file1 test_dir/file2 test_dir/file3 && " ++
      "ls test_dir | wc -l"))
  else if strcasestr text (.lit ".sh files") then some (.lit "find . -name '*.sh' | wc -l")
  else none

variable (c : Classifier)

/-- The command for a text. -/
def chosenCommand (text : CString) : Option CString :=
  match directCommand text with
  | some command => some command
  | none => (c.infer text).map Template.command

/-- `generate_tool_calls` -/
def generateToolCalls (messages : Option (Json ν)) : Option (List (Json ν)) := do
  let last ← (Json.elements messages).getLast?
  let text ← Json.getString (some last) (.lit "content")
  let command ← chosenCommand c text
  return [buildToolCall (.lit "call_bash") (.lit "bash") (commandArguments command)]

/-! ## Responses -/

variable [CNumber ν]

/-- A number literal. -/
def num (z : ℤ) : Json ν := .number (CNumber.ofInt z)

/-- The message of the only choice. -/
def responseMessage (content : Option CString) (calls : Option (List (Json ν))) : Json ν :=
  match calls with
  | some (call :: calls) =>
    .object [member "role" (str "assistant"), member "content" (str ""),
      member "tool_calls" (.array (call :: calls))]
  | _ =>
    .object [member "role" (str "assistant"),
      member "content" (.string (content.getD (.lit "")))]

/-- Why the model stopped. -/
def finishReason (calls : Option (List (Json ν))) : Json ν :=
  match calls with
  | some (_ :: _) => str "tool_calls"
  | _ => str "stop"

/-- The value `build_chat_response` prints. -/
def responseRoot (content : Option CString) (calls : Option (List (Json ν)))
    (model : Option CString) : Json ν :=
  .object [member "id" (str "chatcmpl-test-001"), member "object" (str "chat.completion"),
    member "created" (num 1234567890), member "model" (.string (model.getD (.lit "test-model"))),
    member "choices" (.array [.object [member "index" (num 0),
      member "finish_reason" (finishReason calls),
      member "message" (responseMessage content calls)]]),
    member "usage" (.object [member "prompt_tokens" (num 10),
      member "completion_tokens" (num 20), member "total_tokens" (num 30)])]

variable (ν)

/-- `build_chat_response` -/
def buildChatResponse (content : Option CString) (calls : Option (List (Json ν)))
    (model : Option CString) : CString :=
  (responseRoot content calls model).printUnformatted

/-- The response to a request that parses. -/
def completion (req : Json ν) : CString :=
  let messages := Json.getObjectItem (some req) (.lit "messages")
  let model := Json.getString (some req) (.lit "model")
  if isToolResult messages then
    buildChatResponse ν (some (.lit "Task completed successfully.")) none model
  else match generateToolCalls c messages with
    | some calls => buildChatResponse ν none (some calls) model
    | none => buildChatResponse ν (some (.lit "I understand. How can I help you?")) none model

/-- `handle_chat_completions` -/
def handleChatCompletions (jsonBody : CString) : CString :=
  match Json.parse jsonBody with
  | none => .lit "\x7b\"error\":\"Invalid JSON\"\x7d"
  | some req => completion ν c req

/-! ## Connections -/

/-- `send_http_response`: what is written to the connection.  The length of the body is
printed as an `int`. -/
def sendHttpResponse (statusCode : ℕ) (statusText contentType : String) (body : CString) : Bytes :=
  (ascii "HTTP/1.1 " ++ decimalNat statusCode ++ ascii " " ++ ascii statusText ++ ascii "\r\n" ++
    ascii "Content-Type: " ++ ascii contentType ++ ascii "\r\n" ++
    ascii "Content-Length: " ++ decimal (Int.bmod body.strlen (2 ^ 32)) ++ ascii "\r\n" ++
    ascii "Access-Control-Allow-Origin: *\r\n" ++
    ascii "Connection: close\r\n" ++
    ascii "\r\n").take 1023 ++ body.bytes

/-- `handle_client`: the reply to what `read` delivered, or none if it delivered nothing. -/
def handleClient (read : Bytes) : Option Bytes :=
  let buffer := CString.ofBytes read
  if read = [] then none
  else if hasPrefix (.lit "OPTIONS") buffer then
    some (sendHttpResponse 200 "OK" "text/plain" (.lit ""))
  else if hasPrefix (.lit "POST /v1/chat/completions") buffer then
    match extractBody buffer with
    | some body =>
      some (sendHttpResponse 200 "OK" "application/json" (handleChatCompletions ν c body))
    | none =>
      some (sendHttpResponse 400 "Bad Request" "application/json"
        (.lit "\x7b\"error\":\"No body\"\x7d"))
  else if hasPrefix (.lit "GET / ") buffer ∨ hasPrefix (.lit "GET /health") buffer then
    some (sendHttpResponse 200 "OK" "text/plain" (.lit "Simple LLM Server Running"))
  else some (sendHttpResponse 404 "Not Found" "text/plain" (.lit "Not Found"))

end KernelTests.CAgent
