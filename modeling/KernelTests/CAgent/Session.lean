import KernelTests.CAgent.Completion

/-!
# A session of agent and server

With a transport that delivers requests and replies whole, every run of the agent
ends with 0: either the first reply is a text, or it calls `bash` once and the reply
to the answer is a text.
-/

namespace KernelTests.CAgent

open Effects

variable {ν σ : Type} [CNumber ν]

variable (ν) in
/-- The kernel connects the agent to the server: a request that fits the buffer is delivered in
one read, and the reply arrives whole. -/
structure Serves (k : Kernel σ) (c : Classifier) : Prop where
  socket : ∀ w, (k.socket w).1 = true
  connect : ∀ server w, (k.connect server w).1 = true
  exchange : ∀ server request w, request.length ≤ 65535 →
    Whole (k.exchange server request w).1 (handleClient ν c request)

variable {k : Kernel σ} {c : Classifier} (hs : Serves ν k c) (ctx : ToolContext)
  {client : HttpClient} {addr : List UInt8} (hhost : inetPton client.host = some addr)
  (hkey : ∀ apiKey ∈ client.apiKey, FreeOfLineEnds apiKey)

/-- The request a history is sent in. -/
def requestOf (client : HttpClient) (messages : List (Json ν)) : Bytes :=
  httpRequest client endpoint (buildRequest messages client.model)

include hs hhost hkey

/-- In a session the reply is the response to the complete body. -/
theorem stepReply_of_serves {messages : List (Json ν)} (h : ∀ message ∈ messages,
    message.height ≤ 997) (hlen : (requestOf client messages).length ≤ 65535) (w : σ) :
    stepReply k client messages w =
      some (completion ν c (requestRoot messages client.model).reread) := by
  have hwhole := fun server w ↦ hs.exchange server (requestOf client messages) w hlen
  rw [requestOf, handleClient_httpRequest c hhost (blankLineFree_of_freeOfLineEnds hkey)] at hwhole
  have hbody : ∀ server w, extractBody (recvAll (k.exchange server (httpRequest client endpoint
      (buildRequest messages client.model)) w).1) =
      some (completion ν c (requestRoot messages client.model).reread) := by
    intro server w
    rw [← handleChatCompletions_buildRequest c h]
    exact extractBody_of_whole (by decide) (by decide) (hwhole server w)
  simp only [stepReply, httpPost, Traced.run_bind, Traced.run_act, hs.socket, hhost, hs.connect,
    hbody, Traced.run_pure]

omit hs hhost hkey

/-! ## The two replies -/

/-- The response to a prompt. -/
theorem completion_initial (prompt model : CString) :
    completion ν c (requestRoot (initialMessages prompt) model).reread =
      match chosenCommand c prompt with
      | none => buildChatResponse ν (some (.lit "I understand. How can I help you?")) none
          (some model)
      | some command => buildChatResponse ν none (some [serverCall command]) (some model) := by
  have hmessages : Json.getObjectItem (some (requestRoot (initialMessages prompt) model).reread)
      (.lit "messages") = some (.array (initialMessages (ν := ν) prompt)) := rfl
  have htool : isToolResult (some (.array (initialMessages (ν := ν) prompt))) = false := rfl
  have hlast : (Json.elements (some (.array (initialMessages (ν := ν) prompt)))).getLast? =
      some (userMessage prompt) := rfl
  have htext : Json.getString (some (userMessage (ν := ν) prompt)) (.lit "content") =
      some prompt := rfl
  simp only [completion, hmessages, htool, generateToolCalls, hlast, htext, Option.bind_eq_bind,
    Option.bind_some, Bool.false_eq_true, if_false]
  cases chosenCommand c prompt <;> rfl

/-- A prompt that selects no command is answered with a text. -/
theorem chosenMessage_initial_of_none {prompt : CString} (h : chosenCommand c prompt = none)
    (model : CString) :
    chosenMessage (ν := ν) (some (completion ν c
      (requestRoot (initialMessages prompt) model).reread)) =
      some (some (textMessage (.lit "I understand. How can I help you?"))) := by
  rw [completion_initial, h]
  exact chosenMessage_text _ _

/-- Any other prompt is answered with the call of its command. -/
theorem chosenMessage_initial_of_some {prompt command : CString}
    (h : chosenCommand c prompt = some command) (model : CString) :
    chosenMessage (ν := ν) (some (completion ν c
      (requestRoot (initialMessages prompt) model).reread)) =
      some (some (callMessage command)) := by
  rw [completion_initial, h]
  exact chosenMessage_call command _

/-- The history behind the answer to the call. -/
def answeredMessages (prompt command output : CString) : List (Json ν) :=
  initialMessages prompt ++
    [callMessage command, toolMessage (some (.lit "call_bash")) output]

/-- The answer is answered with a text. -/
theorem chosenMessage_answered (prompt model command output : CString) :
    chosenMessage (ν := ν) (some (completion ν c
      (requestRoot (answeredMessages prompt command output) model).reread)) =
      some (some (textMessage (.lit "Task completed successfully."))) := by
  have hmessages : Json.getObjectItem
      (some (requestRoot (answeredMessages prompt command output) model).reread)
      (.lit "messages") = some (.array (answeredMessages (ν := ν) prompt command output)) := rfl
  have htool : isToolResult (some (.array (answeredMessages (ν := ν) prompt command output))) =
      true := rfl
  simp only [completion, hmessages, htool, if_true]
  exact chosenMessage_text _ _

omit [CNumber ν] in
theorem height_answeredMessages (prompt command output : CString) :
    ∀ message ∈ answeredMessages (ν := ν) prompt command output, message.height ≤ 997 := by
  intro message h
  simp only [answeredMessages, initialMessages, List.cons_append, List.nil_append, List.mem_cons,
    List.not_mem_nil, or_false] at h
  rcases h with rfl | rfl | rfl | rfl <;> exact Nat.le_of_ble_eq_true rfl

omit [CNumber ν] in
/-- A command has a result in any case. -/
theorem exists_output_toolBash (k : Kernel σ) (command : CString) (w : σ) :
    ∃ output, ((toolBash (ν := ν) k command).run w).val.output = some output := by
  simp only [toolBash, Traced.run_bind, Traced.run_act]
  split <;> exact ⟨_, rfl⟩

/-- The call runs its command; the output of the command is printed and becomes the answer. -/
theorem runToolCalls_serverCall (k : Kernel σ) (ctx : ToolContext) {command executed : CString}
    (h : WrittenAs command executed) (w : σ) :
    ∃ output, ((toolBash (ν := ν) k executed).run w).val.output = some output ∧
      ((runToolCalls (ν := ν) k ctx [serverCall command]).run w).val =
        [toolMessage (some (.lit "call_bash")) output] ∧
      ((runToolCalls (ν := ν) k ctx [serverCall command]).run w).trace =
        toolLine (.lit "bash") :: (((toolBash (ν := ν) k executed).run w).trace ++
          [.stdout (ascii "  [Result] " ++ output.bytes ++ ascii "\n")]) := by
  obtain ⟨output, hout⟩ := exists_output_toolBash (ν := ν) k executed w
  have hexec : Ran k ctx (.lit "bash")
      (some (.object [member "command" (.string executed)] : Json ν)) (.bash executed) := rfl
  rw [Ran] at hexec
  refine ⟨output, hout, ?_⟩
  simp [runToolCalls, run_runToolCall_serverCall, parse_commandArguments h, hexec, Action.perform,
    hout]

/-! ## Runs -/

/-- What a command gives the agent that calls it in its first step. -/
def callOutput (k : Kernel σ) (client : HttpClient) (prompt executed : CString) (w : σ) : CString :=
  ((toolBash (ν := ν) k executed).run
    (stepWorld (ν := ν) k client (initialMessages prompt) w)).val.output.getD (.lit "")

include hs hhost hkey

/-- A session about a prompt that selects no command. -/
theorem agentRun_of_no_call {prompt : CString} (hcmd : chosenCommand c prompt = none) (w : σ)
    (hlen : (requestOf (ν := ν) client (initialMessages prompt)).length ≤ 65535) :
    let o := (agentRun (ν := ν) k ctx client prompt).run w
    o.val = 0 ∧ requests o.trace = [initialMessages prompt] ∧ actions o.trace = [] := by
  have ht := chosenMessage_initial_of_none (ν := ν) hcmd client.model
  rw [← stepReply_of_serves hs hhost hkey (Conversation.start).height_le hlen w] at ht
  obtain ⟨hval, hreq, _, hact⟩ := agentRun_of_inl k ctx client
    (val_agentStep_of_nil k ctx client (0, initialMessages prompt) ht rfl)
  exact ⟨hval, hreq, hact.trans
    (actions_agentStep_of_nil k ctx client (0, initialMessages prompt) ht rfl)⟩

/-- The first step of a session about any other prompt runs its command. -/
theorem agentStep_of_call {prompt command executed : CString}
    (hcmd : chosenCommand c prompt = some command) (hexec : WrittenAs command executed) (w : σ)
    (hlen : (requestOf (ν := ν) client (initialMessages prompt)).length ≤ 65535) :
    ((agentStep (ν := ν) k ctx client (0, initialMessages prompt)).run w).val =
        .inr (1, answeredMessages prompt command (callOutput (ν := ν) k client prompt executed w)) ∧
      actions ((agentStep (ν := ν) k ctx client (0, initialMessages prompt)).run w).trace =
        [.bash executed] := by
  have ht := chosenMessage_initial_of_some (ν := ν) hcmd client.model
  rw [← stepReply_of_serves hs hhost hkey (Conversation.start).height_le hlen w] at ht
  have hcalls : toolCalls (some (callMessage (ν := ν) command)) = [serverCall command] := rfl
  obtain ⟨hval, hact⟩ := agentStep_of_cons k ctx client (0, initialMessages prompt) ht
    (by rw [hcalls]; exact List.cons_ne_nil _ _)
  obtain ⟨output, hout, hanswer, htrace⟩ := runToolCalls_serverCall (ν := ν) k ctx hexec
    (stepWorld (ν := ν) k client (initialMessages prompt) w)
  have hcall : callOutput (ν := ν) k client prompt executed w = output := by
    rw [callOutput, hout, Option.getD_some]
  simp only [hcalls, hanswer] at hval
  simp only [hcalls] at hact
  rw [htrace, ← List.singleton_append, actions_append, actions_append, actions_toolBash] at hact
  rw [hcall]
  exact ⟨hval, hact.trans rfl⟩

/-- The second step ends it. -/
theorem agentRun_of_call {prompt command executed : CString}
    (hcmd : chosenCommand c prompt = some command) (hexec : WrittenAs command executed) (w : σ)
    (h₁ : (requestOf (ν := ν) client (initialMessages prompt)).length ≤ 65535)
    (h₂ : (requestOf (ν := ν) client (answeredMessages prompt command
      (callOutput (ν := ν) k client prompt executed w))).length ≤ 65535) :
    let answered := answeredMessages prompt command (callOutput (ν := ν) k client prompt executed w)
    let o := (agentRun (ν := ν) k ctx client prompt).run w
    o.val = 0 ∧ requests o.trace = [initialMessages prompt, answered] ∧
      replies o.trace =
        [some (completion ν c (requestRoot (initialMessages prompt) client.model).reread),
          some (completion ν c (requestRoot answered client.model).reread)] ∧
      actions o.trace = [.bash executed] := by
  intro answered
  obtain ⟨hval, hact⟩ := agentStep_of_call hs ctx hhost hkey hcmd hexec w h₁
  have hreply₁ := stepReply_of_serves hs hhost hkey
    (Conversation.start : Conversation prompt (initialMessages (ν := ν) prompt)).height_le h₁ w
  have hreply₂ := stepReply_of_serves hs hhost hkey
    (height_answeredMessages prompt command (callOutput (ν := ν) k client prompt executed w)) h₂
    ((agentStep (ν := ν) k ctx client (0, initialMessages prompt)).run w).world
  have ht := chosenMessage_answered (ν := ν) (c := c) prompt client.model command
    (callOutput (ν := ν) k client prompt executed w)
  rw [← hreply₂] at ht
  obtain ⟨hval', hreq, hrep, hacts⟩ := agentRun_of_inr_inl k ctx client hval
    (val_agentStep_of_nil k ctx client (1, answered) ht rfl)
  rw [hreply₁, hreply₂] at hrep
  rw [hact, actions_agentStep_of_nil k ctx client (1, answered) ht rfl, List.append_nil] at hacts
  exact ⟨hval', hreq, hrep, hacts⟩

/-- **Completion.**  In a session whose requests fit the buffer the agent returns 0 after at most
two requests.  If the prompt selects a command the agent runs it, in a `bash` call and once, and
the second history holds the call and the answer with its identifier and what that call put out;
otherwise it runs nothing. -/
theorem agentRun_completes (prompt : CString) (w : σ)
    (hlen : ∀ messages ∈ requests ((agentRun (ν := ν) k ctx client prompt).run w).trace,
      (requestOf client messages).length ≤ 65535) :
    let o := (agentRun (ν := ν) k ctx client prompt).run w
    o.val = 0 ∧
      ((chosenCommand c prompt = none ∧ requests o.trace = [initialMessages prompt] ∧
          actions o.trace = []) ∨
        ∃ command executed, chosenCommand c prompt = some command ∧
          Json.getString (Json.parse (ν := ν) (commandArguments command)) (.lit "command") =
            some executed ∧
          requests o.trace = [initialMessages prompt, answeredMessages prompt command
            (callOutput (ν := ν) k client prompt executed w)] ∧
          actions o.trace = [.bash executed]) := by
  intro o
  have hfirst := hlen _ (initialMessages_mem_requests k ctx client prompt w)
  cases hcmd : chosenCommand c prompt with
  | none =>
      obtain ⟨hval, hreq, hact⟩ := agentRun_of_no_call hs ctx hhost hkey hcmd w hfirst
      exact ⟨hval, Or.inl ⟨rfl, hreq, hact⟩⟩
  | some command =>
      obtain ⟨executed, hexec⟩ := exists_writtenAs hcmd
      obtain ⟨hstep, _⟩ := agentStep_of_call hs ctx hhost hkey hcmd hexec w hfirst
      have hsecond := hlen _ (mem_requests_of_inr k ctx client hstep)
      obtain ⟨hval, hreq, _, hact⟩ := agentRun_of_call hs ctx hhost hkey hcmd hexec w hfirst hsecond
      refine ⟨hval, Or.inr ⟨command, executed, rfl, ?_, hreq, hact⟩⟩
      rw [parse_commandArguments hexec]
      rfl

omit hs hhost hkey

/-- A kernel with a server on it. -/
def serving (c : Classifier) (output : Bytes) : Kernel Unit where
  fopenRead _ w := (none, w)
  fopenWrite _ _ w := (false, w)
  opendir _ w := (none, w)
  popen _ w := (some ⟨output, [], 0⟩, w)
  socket w := (true, w)
  connect _ w := (true, w)
  exchange _ request w := ((handleClient ν c request).toList.filter (· ≠ []), w)

/-- Its replies arrive whole, also those to longer requests. -/
theorem whole_serving (c : Classifier) (output : Bytes) (server : SockAddr) (request : Bytes) :
    Whole ((serving (ν := ν) c output).exchange server request ()).1
      (handleClient ν c request) := by
  refine ⟨by simp [serving], ?_⟩
  simp only [serving]
  cases handleClient ν c request with
  | none => rfl
  | some reply => by_cases hnil : reply = [] <;> simp [hnil]

theorem serves_serving (c : Classifier) (output : Bytes) :
    Serves ν (serving (ν := ν) c output) c where
  socket _ := rfl
  connect _ _ := rfl
  exchange server request _ _ := whole_serving c output server request

/-- Its commands put out what it holds for them. -/
theorem callOutput_serving (c : Classifier) (output : Bytes) (client : HttpClient)
    (prompt executed : CString) (w : Unit) :
    callOutput (ν := ν) (serving (ν := ν) c output) client prompt executed w = pipeOutput output := by
  simp only [callOutput, toolBash, Traced.run_bind, Traced.run_act, Traced.run_emit, serving,
    Traced.run_pure, Option.getD_some]

/-- A prompt that selects a command. -/
def coresPrompt : CString := .lit "How many CPU cores?"

theorem chosenCommand_coresPrompt :
    chosenCommand neuralInference coresPrompt = some (.lit "nproc") := by
  decide +kernel

theorem writtenAs_nproc : WrittenAs (.lit "nproc") (.lit "nproc") := ⟨by decide, by decide⟩

/-- Its first request, with a command that prints `4`. -/
theorem length_coresRequest :
    (requestOf localClient (initialMessages (ν := ℤ) coresPrompt)).length ≤ 65535 := by
  decide +kernel

/-- Its second request. -/
theorem length_answeredRequest (w : Unit) :
    (requestOf localClient (answeredMessages (ν := ℤ) coresPrompt (.lit "nproc")
      (callOutput (ν := ℤ) (serving (ν := ℤ) neuralInference (ascii "4\n")) localClient coresPrompt
        (.lit "nproc") w))).length ≤ 65535 := by
  rw [callOutput_serving]
  decide +kernel

/-- The session about this prompt runs `nproc` and makes both requests. -/
theorem agentRun_completes_cores :
    let k := serving (ν := ℤ) neuralInference (ascii "4\n")
    let o := (agentRun (ν := ℤ) k ⟨.lit "."⟩ localClient coresPrompt).run ()
    (requests o.trace).length = 2 ∧ o.val = 0 ∧
      ((chosenCommand neuralInference coresPrompt = none ∧
          requests o.trace = [initialMessages coresPrompt] ∧ actions o.trace = []) ∨
        ∃ command executed, chosenCommand neuralInference coresPrompt = some command ∧
          Json.getString (Json.parse (ν := ℤ) (commandArguments command)) (.lit "command") =
            some executed ∧
          requests o.trace = [initialMessages coresPrompt, answeredMessages coresPrompt command
            (callOutput (ν := ℤ) k localClient coresPrompt executed ())] ∧
          actions o.trace = [.bash executed]) := by
  intro k o
  have hserves : Serves ℤ k neuralInference := serves_serving neuralInference (ascii "4\n")
  have hkey : ∀ apiKey ∈ localClient.apiKey, FreeOfLineEnds apiKey := by simp [localClient]
  obtain ⟨_, hreq, _, _⟩ := agentRun_of_call hserves ⟨.lit "."⟩ inetPton_localClient hkey
    chosenCommand_coresPrompt writtenAs_nproc () length_coresRequest (length_answeredRequest ())
  refine ⟨congrArg List.length hreq, agentRun_completes hserves ⟨.lit "."⟩ inetPton_localClient hkey
    coresPrompt () ?_⟩
  rw [hreq]
  exact List.forall_mem_cons.mpr ⟨length_coresRequest,
    List.forall_mem_singleton.mpr (length_answeredRequest ())⟩

end KernelTests.CAgent
