import KernelTests.CAgent.Segmentation
import KernelTests.CAgent.Schema

/-!
# Agent and server together

The replies of `handle_chat_completions` to the histories of an agent.  Every such
history fits the nesting limit, so a whole request is never refused; its reply
carries either a text or a single call of `bash`.  From this follow what becomes of
a request that arrives in pieces, and that a run with whole requests ends after at
most two of them.
-/

namespace KernelTests.CAgent

open Effects

variable {ν : Type}

/-! ## Commands -/

/-- The call the server makes. -/
def serverCall (command : CString) : Json ν :=
  buildToolCall (.lit "call_bash") (.lit "bash") (commandArguments command)

/-- A command as it is written inside a JSON string, short enough for the argument buffer. -/
def WrittenAs (command executed : CString) : Prop :=
  Json.escape executed.bytes = command.bytes ∧ command.bytes.length ≤ 2000

theorem writtenAs_of_mem_templates : ∀ t ∈ templates, WrittenAs t.command t.command := by
  have h : ∀ t ∈ templates, Json.escape t.command.bytes = t.command.bytes ∧
      t.command.bytes.length ≤ 2000 := by decide +kernel
  exact h

theorem exists_writtenAs_of_directCommand {text command : CString}
    (h : directCommand text = some command) : ∃ executed, WrittenAs command executed := by
  unfold directCommand at h
  split at h
  · cases h
    exact ⟨.lit "printf 'Hello OS\n' > test_file.txt", by decide +kernel, by decide +kernel⟩
  split at h
  · cases h
    exact ⟨.lit ("printf '1\n2\n3\n4\n5\n' > test_input.txt && " ++
      "awk '\x7bsum += $1\x7d END \x7bprint sum\x7d' test_input.txt"), by decide +kernel, by decide +kernel⟩
  split at h
  · cases h
    exact ⟨.lit ("mkdir -p test_dir && touch test_dir/file1 test_dir/file2 test_dir/file3 && " ++
      "ls test_dir | wc -l"), by decide +kernel, by decide +kernel⟩
  split at h
  · cases h
    exact ⟨.lit "find . -name '*.sh' | wc -l", by decide +kernel, by decide +kernel⟩
  · cases h

/-- Every command the server can choose is written as some text. -/
theorem exists_writtenAs {c : Classifier} {text command : CString}
    (h : chosenCommand c text = some command) : ∃ executed, WrittenAs command executed := by
  unfold chosenCommand at h
  split at h
  · next direct hd =>
      cases h
      exact exists_writtenAs_of_directCommand hd
  · obtain ⟨t, ht, rfl⟩ := Option.map_eq_some_iff.mp h
    exact ⟨t.command, writtenAs_of_mem_templates t (c.mem ht)⟩

/-- The arguments of the call are the printed object with the command. -/
theorem commandArguments_eq [CNumber ν] {command executed : CString}
    (h : WrittenAs command executed) : commandArguments command =
      (Json.object [member "command" (.string executed)] : Json ν).printUnformatted := by
  have hprint : (Json.object [member "command" (.string executed)] : Json ν).print =
      ascii "\x7b\"command\":\"" ++ command.bytes ++ ascii "\"\x7d" := by
    rw [← h.1]
    simp only [member, Json.print, Json.printMembers, Json.printString, List.nil_append]
    have hkey : Json.escape (CString.lit "command").bytes = ascii "command" := by decide
    rw [hkey]
    simp [ascii]
  have hlen : (ascii "\x7b\"command\":\"" ++ command.bytes ++ ascii "\"\x7d").length ≤ 2047 := by
    have h₁ : (ascii "\x7b\"command\":\"").length = 12 := by decide
    have h₂ : (ascii "\"\x7d").length = 2 := by decide
    have := h.2
    simp only [List.length_append]
    omega
  rw [commandArguments, Json.printUnformatted, hprint, List.take_of_length_le hlen]

variable [CNumber ν]

/-- What the agent makes of these arguments. -/
theorem parse_commandArguments {command executed : CString} (h : WrittenAs command executed) :
    Json.parse (commandArguments command) =
      some (Json.object [member "command" (.string executed)] : Json ν) := by
  rw [commandArguments_eq (ν := ν) h, Json.parse_printUnformatted,
    if_pos (Nat.le_of_ble_eq_true rfl)]
  rfl

/-! ## Replies as values -/

/-- A text reply. -/
def textMessage (text : CString) : Json ν :=
  .object [member "role" (str "assistant"), member "content" (.string text)]

/-- A reply with the call of a command. -/
def callMessage (command : CString) : Json ν :=
  .object [member "role" (str "assistant"), member "content" (str ""),
    member "tool_calls" (.array [serverCall command])]

theorem chosenMessage_text (text : CString) (model : Option CString) :
    chosenMessage (ν := ν) (some (buildChatResponse ν (some text) none model)) =
      some (some (textMessage text)) := by
  rw [buildChatResponse, chosenMessage_print (Nat.le_of_ble_eq_true rfl)]
  rfl

theorem chosenMessage_call (command : CString) (model : Option CString) :
    chosenMessage (ν := ν) (some (buildChatResponse ν none (some [serverCall command]) model)) =
      some (some (callMessage command)) := by
  rw [buildChatResponse, chosenMessage_print (Nat.le_of_ble_eq_true rfl)]
  rfl

/-- The round of the loop over a call of the server: `bash` gets the arguments, its output is
printed and becomes the answer. -/
theorem run_runToolCall_serverCall {σ : Type} (k : Kernel σ) (ctx : ToolContext)
    (command : CString) (w : σ) :
    let r := (executeTool (ν := ν) k ctx (.lit "bash")
      (Json.parse (commandArguments command))).run w
    (runToolCall (ν := ν) k ctx (serverCall command)).run w =
      ⟨[toolMessage (some (.lit "call_bash")) (r.val.output.getD (.lit ""))],
        r.trace ++ [.stdout (ascii "  [Result] " ++
          (r.val.output.getD (.lit "(empty)")).bytes ++ ascii "\n")], r.world⟩ := by
  have hfunction : Json.getObjectItem (some (serverCall (ν := ν) command)) (.lit "function") =
      some (.object [member "name" (.string (.lit "bash")),
        member "arguments" (.string (commandArguments command))]) := rfl
  have hname : Json.getString (some (Json.object [member "name" (.string (.lit "bash")),
      member "arguments" (.string (commandArguments command))] : Json ν)) (.lit "name") =
      some (.lit "bash") := rfl
  have hid : Json.getString (some (serverCall (ν := ν) command)) (.lit "id") =
      some (.lit "call_bash") := rfl
  have hstring : Json.getString (some (Json.object [member "name" (.string (.lit "bash")),
      member "arguments" (.string (commandArguments command))] : Json ν)) (.lit "arguments") =
      some (commandArguments command) := rfl
  simp only [runToolCall, hfunction, hname, hid, callArguments, hstring, Option.bind_some,
    Traced.run_bind, Traced.run_emit, Traced.run_pure, List.append_nil]

variable (c : Classifier)

omit [CNumber ν] in
/-- The server makes no call, or the call of a command it has chosen. -/
theorem generateToolCalls_cases (messages : Option (Json ν)) :
    generateToolCalls c messages = none ∨ ∃ text command,
      chosenCommand c text = some command ∧
      generateToolCalls c messages = some [serverCall command] := by
  cases hg : generateToolCalls c messages with
  | none => exact Or.inl rfl
  | some calls =>
      simp only [generateToolCalls, Option.bind_eq_bind, Option.bind_eq_some_iff,
        Option.pure_def, Option.some.injEq] at hg
      obtain ⟨_, _, text, _, command, hc, rfl⟩ := hg
      exact Or.inr ⟨text, command, hc, rfl⟩

/-- The response to any request that parses carries a text or one call. -/
theorem chosenMessage_completion (req : Json ν) :
    (∃ text, chosenMessage (ν := ν) (some (completion ν c req)) = some (some (textMessage text))) ∨
      ∃ command,
        chosenMessage (ν := ν) (some (completion ν c req)) = some (some (callMessage command)) := by
  simp only [completion]
  split
  · exact Or.inl ⟨_, chosenMessage_text _ _⟩
  · rcases generateToolCalls_cases c (Json.getObjectItem (some req) (.lit "messages")) with
      hg | ⟨text, command, _, hg⟩
    · rw [hg]
      exact Or.inl ⟨_, chosenMessage_text _ _⟩
    · rw [hg]
      exact Or.inr ⟨command, chosenMessage_call _ _⟩

/-! ## Histories -/

omit [CNumber ν] in
theorem height_toolMessage (id : Option CString) (output : CString) :
    (toolMessage (ν := ν) id output).height = 1 := by
  cases id <;> rfl

omit [CNumber ν] in
/-- The messages of a conversation leave room for the arrays and objects around them. -/
theorem Conversation.height_le {prompt : CString} {messages : List (Json ν)}
    (h : Conversation prompt messages) : ∀ message ∈ messages, message.height ≤ 997 := by
  induction h with
  | start =>
      intro message hm
      rcases List.mem_cons.mp hm with rfl | hm
      · exact Nat.le_of_ble_eq_true rfl
      · rw [List.mem_singleton.mp hm]
        exact Nat.le_of_ble_eq_true rfl
  | @round messages answers message _ _ ha hh ih =>
      intro m hm
      rcases List.mem_append.mp hm with hm | hm
      · exact ih m hm
      rcases List.mem_cons.mp hm with rfl | hm
      · exact hh
      · obtain ⟨id, output, rfl⟩ := ha.exists_eq m hm
        rw [height_toolMessage]
        decide

omit [CNumber ν] in
/-- A request fits the nesting limit. -/
theorem height_requestRoot {messages : List (Json ν)} (h : ∀ message ∈ messages,
    message.height ≤ 997) (model : CString) :
    (requestRoot messages model).height ≤ Json.nestingLimit := by
  have hm : (Json.array messages).height ≤ 998 :=
    Nat.succ_le_succ (Json.heightItems_le_iff.mpr h)
  have ht : (Json.array (tools (ν := ν))).height ≤ 998 := Nat.le_of_ble_eq_true rfl
  refine Nat.succ_le_succ (Json.heightMembers_le_iff.mpr fun m hmem ↦ ?_)
  simp only [List.mem_cons, List.not_mem_nil, or_false] at hmem
  rcases hmem with rfl | rfl | rfl
  · exact Nat.zero_le _
  · exact hm.trans (by decide)
  · exact ht.trans (by decide)

/-- The complete body of a request is read back, up to its numbers. -/
theorem handleChatCompletions_buildRequest {messages : List (Json ν)}
    (h : ∀ message ∈ messages, message.height ≤ 997) (model : CString) :
    handleChatCompletions ν c (buildRequest messages model) =
      completion ν c (requestRoot messages model).reread := by
  rw [handleChatCompletions, buildRequest, Json.parse_printUnformatted,
    if_pos (height_requestRoot h model)]

/-! ## Requests in pieces -/

variable {σ : Type} (k : Kernel σ) (ctx : ToolContext) {client : HttpClient} {addr : List UInt8}

/-- The reply to a whole request is none of the error replies. -/
theorem chatReply_notMem_failureReplies {messages : List (Json ν)}
    (h : ∀ message ∈ messages, message.height ≤ 997) (model : CString) :
    chatReply (ν := ν) c (buildRequest messages model) ∉ failureReplies := by
  intro hmem
  have hwhole : Whole [chatReply (ν := ν) c (buildRequest messages model)]
      (some (chatReply (ν := ν) c (buildRequest messages model))) := by
    refine ⟨fun hnil ↦ ?_, by simp⟩
    have he := List.mem_singleton.mp hnil
    rw [chatReply, sendHttpResponse_eq (by decide) (by decide)] at he
    cases he
  have hbody : extractBody (recvAll [chatReply (ν := ν) c (buildRequest messages model)]) =
      some (handleChatCompletions ν c (buildRequest messages model)) :=
    extractBody_of_whole (by decide) (by decide) hwhole
  have hnone := chosenMessage_of_failure (ν := ν) hmem hwhole
  rw [hbody, handleChatCompletions_buildRequest c h] at hnone
  rcases chosenMessage_completion c (requestRoot messages model).reread with ⟨_, he⟩ | ⟨_, he⟩
  · rw [he] at hnone
    cases hnone
  · rw [he] at hnone
    cases hnone

/-- The first read is the whole request, whose key has no blank line; or it ends with a copy of the
body, directly behind a blank line in the key. -/
def DeliversBody (client : HttpClient) (body : CString) (reads : List Bytes) : Prop :=
  BlankLineFree client.apiKey ∧ reads.length = 1 ∨
    CopiedInKey client body (reads.head?.getD [])

/-- **Segmentation.**  For every history an agent sends, the server computes its reply on the
complete body exactly if the first read delivers it: if the request comes in a single read, its key
being without blank lines.  With such a key a reply to anything else is another reply. -/
theorem reply_complete_iff (hhost : inetPton client.host = some addr) {prompt : CString} {w : σ}
    {messages : List (Json ν)}
    (hm : messages ∈ requests ((agentRun k ctx client prompt).run w).trace) {reads : List Bytes}
    (hflat : reads.flatten = httpRequest client endpoint (buildRequest messages client.model))
    (hreads : ∀ read ∈ reads, read ≠ [] ∧ read.length ≤ 65535) :
    let body := buildRequest messages client.model
    let first := reads.head?.getD []
    (chatBody first = some body ∧ handleClient ν c first = some (chatReply (ν := ν) c body) ↔
        DeliversBody client body reads) ∧
      (BlankLineFree client.apiKey →
        (handleClient ν c first = some (chatReply (ν := ν) c body) ↔ reads.length = 1)) := by
  intro body first
  have hheight := (conversation_of_mem_requests k ctx client hm).height_le
  have hsplit : first ++ reads.tail.flatten = httpRequest client endpoint body := by
    cases reads with
    | nil => exact hflat
    | cons read reads => exact hflat
  have hwhole : reads.tail.flatten = [] ↔ reads.length = 1 := by
    cases reads with
    | nil =>
        obtain ⟨rest, hpost⟩ := post_prefix_httpRequest client body
        rw [← hflat] at hpost
        cases hpost
    | cons read rest =>
        rw [List.tail_cons, List.flatten_eq_nil_iff, List.length_cons, Nat.add_eq_right,
          List.length_eq_zero_iff]
        constructor
        · exact fun hnil ↦ List.eq_nil_iff_forall_not_mem.mpr fun next hnext ↦
            (hreads next (List.mem_cons_of_mem read hnext)).1 (hnil next hnext)
        · rintro rfl
          simp
  have hnul : 0 ∉ first := fun h0 ↦
    zero_notMem_httpRequest client body (hsplit ▸ List.mem_append_left _ h0)
  refine ⟨?_, fun hkey ↦ ⟨fun he ↦ ?_, fun hone ↦ ?_⟩⟩
  · rw [DeliversBody, ← hwhole, ← chatBody_eq_body_iff hhost hsplit]
    exact and_iff_left_of_imp (handleClient_of_chatBody c hnul)
  · by_contra hne
    exact chatReply_notMem_failureReplies c hheight client.model
      (handleClient_truncated c hhost hkey hsplit (fun hnil ↦ hne (hwhole.mp hnil)) _ he)
  · exact handleClient_of_chatBody c hnul
      ((chatBody_eq_body_iff hhost hsplit).mpr (Or.inl ⟨hkey, hwhole.mpr hone⟩))

example : ¬ BlankLineFree (some (.lit "x\r\n\r\ny")) := by decide

/-- The first request of a run, one byte at a time. -/
def byteReads : List Bytes := firstRequest.map fun b ↦ [b]

theorem initialMessages_mem_replay : initialMessages (.lit "hi") ∈
    requests ((agentRun (ν := ℤ) (replay []) ⟨.lit "."⟩ localClient (.lit "hi")).run []).trace :=
  initialMessages_mem_requests (replay []) ⟨.lit "."⟩ localClient (.lit "hi") []

theorem flatten_byteReads : byteReads.flatten = firstRequest := by
  rw [byteReads, ← List.flatMap_def, List.flatMap_singleton']

theorem byteReads_bounds : ∀ read ∈ byteReads, read ≠ [] ∧ read.length ≤ 65535 := by
  intro read hr
  obtain ⟨b, _, rfl⟩ := List.mem_map.mp hr
  exact ⟨List.cons_ne_nil b [], by simp⟩

/-- The condition at the first request of a run, read one byte at a time. -/
theorem reply_complete_iff_byteReads :
    let body := buildRequest (initialMessages (ν := ℤ) (.lit "hi")) localClient.model
    let first := byteReads.head?.getD []
    (chatBody first = some body ∧
        handleClient ℤ neuralInference first = some (chatReply (ν := ℤ) neuralInference body) ↔
      DeliversBody localClient body byteReads) ∧
      (BlankLineFree localClient.apiKey →
        (handleClient ℤ neuralInference first = some (chatReply (ν := ℤ) neuralInference body) ↔
          byteReads.length = 1)) :=
  reply_complete_iff neuralInference (replay []) ⟨.lit "."⟩ inetPton_localClient
    initialMessages_mem_replay flatten_byteReads byteReads_bounds

theorem head_byteReads : byteReads.head?.getD [] = [80] := by
  obtain ⟨rest, hr⟩ := post_prefix_httpRequest localClient
    (buildRequest (initialMessages (ν := ℤ) (.lit "hi")) localClient.model)
  rw [byteReads, firstRequest, ← hr]
  rfl

/-- The reply to the first byte of a request. -/
theorem handleClient_firstByte : handleClient ℤ neuralInference [80] =
    some (sendHttpResponse 404 "Not Found" "text/plain" (.lit "Not Found")) := rfl

/-- Read that way, the request is not answered with the reply to its body. -/
theorem reply_not_complete :
    initialMessages (.lit "hi") ∈ requests ((agentRun (ν := ℤ) (replay []) ⟨.lit "."⟩ localClient
        (.lit "hi")).run []).trace ∧
      byteReads.flatten = httpRequest localClient endpoint
        (buildRequest (initialMessages (ν := ℤ) (.lit "hi")) localClient.model) ∧
      (∀ read ∈ byteReads, read ≠ [] ∧ read.length ≤ 65535) ∧
      handleClient ℤ neuralInference (byteReads.head?.getD []) ≠
        some (chatReply (ν := ℤ) neuralInference
          (buildRequest (initialMessages (ν := ℤ) (.lit "hi")) localClient.model)) := by
  refine ⟨initialMessages_mem_replay, flatten_byteReads, byteReads_bounds, ?_⟩
  rw [head_byteReads, handleClient_firstByte]
  intro he
  refine chatReply_notMem_failureReplies neuralInference (ν := ℤ)
    (Conversation.start : Conversation (.lit "hi") _).height_le localClient.model ?_
  rw [← Option.some.inj he]
  simp [failureReplies]

end KernelTests.CAgent
