import KernelTests.CAgent.Agent

/-!
# What a step of the agent does

The events of a run are read through three projections: the histories that were
sent, the reply bodies that came back and the tools that ran.  Only `agent_run`
itself sends and receives; everything it calls is `Quiet`.  From the outside a step
is determined by the reply it gets: `chosenMessage` says whether there is a choice
at all and which message it carries.
-/

namespace KernelTests.CAgent

open Effects

variable {ν σ : Type}

/-! ## Projections of a trace -/

/-- The histories sent to the server. -/
def requests (t : List (Event ν)) : List (List (Json ν)) :=
  t.filterMap fun e ↦ match e with
    | .request messages => some messages
    | _ => none

/-- The reply bodies received. -/
def replies (t : List (Event ν)) : List (Option CString) :=
  t.filterMap fun e ↦ match e with
    | .reply body => some body
    | _ => none

/-- The tools that ran. -/
def actions (t : List (Event ν)) : List Action :=
  t.filterMap fun e ↦ match e with
    | .action a => some a
    | _ => none

@[simp] theorem requests_append (t u : List (Event ν)) :
    requests (t ++ u) = requests t ++ requests u := List.filterMap_append

@[simp] theorem replies_append (t u : List (Event ν)) :
    replies (t ++ u) = replies t ++ replies u := List.filterMap_append

@[simp] theorem actions_append (t u : List (Event ν)) :
    actions (t ++ u) = actions t ++ actions u := List.filterMap_append

theorem mem_requests {messages : List (Json ν)} {t : List (Event ν)} :
    messages ∈ requests t ↔ .request messages ∈ t := by
  simp only [requests, List.mem_filterMap]
  constructor
  · rintro ⟨e, he, hm⟩
    cases e <;> cases hm
    exact he
  · exact fun h ↦ ⟨_, h, rfl⟩

/-- Nothing is sent and nothing is received. -/
structure Quiet (t : List (Event ν)) : Prop where
  requests : requests t = []
  replies : replies t = []

theorem Quiet.append {t u : List (Event ν)} (ht : Quiet t) (hu : Quiet u) : Quiet (t ++ u) :=
  ⟨by simp [ht.requests, hu.requests], by simp [ht.replies, hu.replies]⟩

theorem quiet_nil : Quiet ([] : List (Event ν)) := ⟨rfl, rfl⟩

theorem quiet_stdout (text : Bytes) : Quiet [(.stdout text : Event ν)] := ⟨rfl, rfl⟩

theorem quiet_stderr (text : Bytes) : Quiet [(.stderr text : Event ν)] := ⟨rfl, rfl⟩

theorem quiet_action (a : Action) : Quiet [(.action a : Event ν)] := ⟨rfl, rfl⟩

/-! ## Tools -/

variable (k : Kernel σ) (ctx : ToolContext)

theorem trace_toolReadFile (path : CString) (w : σ) :
    ((toolReadFile (ν := ν) k ctx path).run w).trace = [.action (.readFile path)] := by
  simp only [toolReadFile, Traced.run_bind, Traced.run_emit, Traced.run_act]
  split <;> rfl

theorem trace_toolWriteFile (path content : CString) (w : σ) :
    ((toolWriteFile (ν := ν) k ctx path content).run w).trace = [.action (.writeFile path content)] := by
  simp only [toolWriteFile, Traced.run_bind, Traced.run_emit, Traced.run_act]
  split <;> rfl

theorem trace_toolListFiles (path : CString) (w : σ) :
    ((toolListFiles (ν := ν) k ctx path).run w).trace = [.action (.listFiles path)] := by
  simp only [toolListFiles, Traced.run_bind, Traced.run_emit, Traced.run_act]
  split <;> rfl

theorem trace_toolBash (command : CString) (w : σ) :
    ((toolBash (ν := ν) k command).run w).trace = .action (.bash command) ::
      (k.popen command w).1.toList.map fun piped ↦ .stderr piped.errors := by
  simp only [toolBash, Traced.run_bind, Traced.run_emit, Traced.run_act]
  cases (k.popen command w).1 <;> rfl

theorem quiet_toolBash (command : CString) (w : σ) :
    Quiet ((toolBash (ν := ν) k command).run w).trace := by
  rw [trace_toolBash]
  cases (k.popen command w).1
  · exact quiet_action _
  · exact (quiet_action _).append (quiet_stderr _)

theorem actions_toolBash (command : CString) (w : σ) :
    actions ((toolBash (ν := ν) k command).run w).trace = [.bash command] := by
  rw [trace_toolBash]
  cases (k.popen command w).1 <;> rfl

/-- The dispatcher only prints and runs a tool. -/
theorem quiet_executeTool (name : CString) (arguments : Option (Json ν)) (w : σ) :
    Quiet ((executeTool k ctx name arguments).run w).trace := by
  simp only [executeTool, Traced.run_bind, Traced.run_emit]
  refine (quiet_stdout _).append ?_
  split
  · split
    · exact trace_toolReadFile k ctx _ w ▸ quiet_action _
    · exact quiet_nil
  split
  · split
    · exact trace_toolWriteFile k ctx _ _ w ▸ quiet_action _
    · exact quiet_nil
  split
  · exact trace_toolListFiles k ctx _ w ▸ quiet_action _
  split
  · split
    · exact quiet_toolBash k _ w
    · exact quiet_nil
  · exact quiet_nil

/-- The connection leaves only error messages in the output. -/
theorem quiet_httpPost (client : HttpClient) (path body : CString) (w : σ) :
    Quiet ((httpPost (ν := ν) k client path body).run w).trace := by
  simp only [httpPost, Traced.run_bind, Traced.run_act]
  refine quiet_nil.append ?_
  split
  · exact quiet_stderr _
  · split
    · exact quiet_stderr _
    · simp only [Traced.run_bind, Traced.run_act]
      refine quiet_nil.append ?_
      split
      · exact quiet_stderr _
      · exact quiet_nil

variable [CNumber ν]

theorem quiet_runToolCall (toolCall : Json ν) (w : σ) :
    Quiet ((runToolCall k ctx toolCall).run w).trace := by
  rw [runToolCall]
  split
  · exact quiet_nil
  · split
    · exact quiet_nil
    · exact (quiet_executeTool k ctx _ _ w).append (quiet_stdout _)

theorem quiet_runToolCalls (toolCalls : List (Json ν)) (w : σ) :
    Quiet ((runToolCalls k ctx toolCalls).run w).trace := by
  induction toolCalls generalizing w with
  | nil => exact quiet_nil
  | cons toolCall toolCalls ih =>
      exact (quiet_runToolCall k ctx toolCall w).append ((ih _).append quiet_nil)

omit [CNumber ν] in
theorem quiet_printAssistant (content : Option (Json ν)) (w : σ) :
    Quiet ((printAssistant content).run w).trace := by
  rw [printAssistant]
  split
  · split
    · exact quiet_nil
    · exact quiet_stdout _
  · exact quiet_nil

omit [CNumber ν] in
theorem actions_printAssistant (content : Option (Json ν)) (w : σ) :
    actions ((printAssistant content).run w).trace = [] := by
  rw [printAssistant]
  split
  · split <;> rfl
  · rfl

omit [CNumber ν] in
theorem world_printAssistant (content : Option (Json ν)) (w : σ) :
    ((printAssistant content).run w).world = w := by
  rw [printAssistant]
  split
  · split <;> rfl
  · rfl

/-! ## Replies -/

/-- The message of the first choice of a reply.  Without a result the reply is missing, is
not JSON or has no choices; the choice itself need not have a message. -/
def chosenMessage (reply : Option CString) : Option (Option (Json ν)) := do
  let text ← reply
  let response ← Json.parse text
  let choice ← (Json.elements (Json.getObjectItem (some response) (.lit "choices"))).head?
  return Json.getObjectItem (some choice) (.lit "message")

/-- The tool calls of a message. -/
def toolCalls (message : Option (Json ν)) : List (Json ν) :=
  Json.elements (Json.getObjectItem message (.lit "tool_calls"))

omit [CNumber ν] in
/-- A message with tool calls exists. -/
theorem exists_of_toolCalls_ne_nil {message : Option (Json ν)} (h : toolCalls message ≠ []) :
    ∃ m, message = some m := by
  cases message with
  | none => exact absurd rfl h
  | some m => exact ⟨m, rfl⟩

/-- Without a choice the step fails, after an error message. -/
theorem handleReply_of_none (messages : List (Json ν)) {reply : Option CString}
    (h : chosenMessage (ν := ν) reply = none) (w : σ) :
    ∃ text, (handleReply k ctx messages reply).run w = ⟨.inl (-1), [.stderr text], w⟩ := by
  cases reply with
  | none => exact ⟨_, rfl⟩
  | some text =>
      cases hp : Json.parse (ν := ν) text with
      | none => exact ⟨_, by simp only [handleReply, hp]; rfl⟩
      | some response =>
          cases hc : Json.elements (Json.getObjectItem (some response) (.lit "choices")) with
          | nil => exact ⟨_, by simp only [handleReply, hp, hc]; rfl⟩
          | cons choice choices => simp [chosenMessage, hp, hc] at h

/-- With a choice the step goes on with its message. -/
theorem handleReply_of_some (messages : List (Json ν)) {reply : Option CString}
    {message : Option (Json ν)} (h : chosenMessage reply = some message) :
    (handleReply k ctx messages reply : Agent ν σ _) = handleMessage k ctx messages message := by
  cases reply with
  | none => cases h
  | some text =>
      cases hp : Json.parse (ν := ν) text with
      | none => simp [chosenMessage, hp] at h
      | some response =>
          cases hc : Json.elements (Json.getObjectItem (some response) (.lit "choices")) with
          | nil => simp [chosenMessage, hp, hc] at h
          | cons choice choices =>
              have hm : Json.getObjectItem (some choice) (.lit "message") = message := by
                simpa [chosenMessage, hp, hc] using h
              simp only [handleReply, hp, hc, hm]

/-- A message without tool calls ends the run with code 0. -/
theorem val_handleMessage_nil (messages : List (Json ν)) {message : Option (Json ν)}
    (h : toolCalls message = []) (w : σ) :
    ((handleMessage k ctx messages message).run w).val = .inl 0 := by
  unfold toolCalls at h
  simp [handleMessage, h]

/-- The tool calls of a message are answered, and the run goes on. -/
theorem handleMessage_cons (messages : List (Json ν)) {message : Option (Json ν)}
    (h : toolCalls message ≠ []) :
    (handleMessage k ctx messages message : Agent ν σ _) = do
      printAssistant (Json.getObjectItem message (.lit "content"))
      let answers ← runToolCalls k ctx (toolCalls message)
      return .inr (messages ++ message.toList ++ answers) := by
  unfold toolCalls at h ⊢
  rw [handleMessage]
  cases hc : Json.elements (Json.getObjectItem message (.lit "tool_calls")) with
  | nil => exact absurd hc h
  | cons toolCall toolCalls => rfl

theorem quiet_handleReply (messages : List (Json ν)) (reply : Option CString) (w : σ) :
    Quiet ((handleReply k ctx messages reply).run w).trace := by
  cases hm : chosenMessage (ν := ν) reply with
  | none =>
      obtain ⟨text, he⟩ := handleReply_of_none k ctx messages hm w
      exact he ▸ quiet_stderr text
  | some message =>
      rw [handleReply_of_some k ctx messages hm]
      by_cases hc : toolCalls message = []
      · unfold toolCalls at hc
        simp only [handleMessage, hc, Traced.run_bind]
        exact (quiet_printAssistant _ w).append (quiet_stdout _)
      · rw [handleMessage_cons k ctx messages hc]
        exact (quiet_printAssistant _ w).append ((quiet_runToolCalls k ctx _ _).append quiet_nil)

/-! ## Steps -/

variable (client : HttpClient)

/-- The reply a step works with. -/
def stepReply (messages : List (Json ν)) (w : σ) : Option CString :=
  ((httpPost (ν := ν) k client endpoint (buildRequest messages client.model)).run w).val

/-- The world behind the exchange of a step. -/
def stepWorld (messages : List (Json ν)) (w : σ) : σ :=
  ((httpPost (ν := ν) k client endpoint (buildRequest messages client.model)).run w).world

theorem val_httpPost (messages : List (Json ν)) (w : σ) :
    ((httpPost (ν := ν) k client endpoint (buildRequest messages client.model)).run w).val =
      stepReply k client messages w := rfl

theorem world_httpPost (messages : List (Json ν)) (w : σ) :
    ((httpPost (ν := ν) k client endpoint (buildRequest messages client.model)).run w).world =
      stepWorld k client messages w := rfl

/-- A reply comes from an exchange, if there is one at all. -/
theorem stepReply_eq_none_or (messages : List (Json ν)) (w : σ) :
    stepReply k client messages w = none ∨ ∃ server w',
      stepReply k client messages w = extractBody (recvAll (k.exchange server
        (httpRequest client endpoint (buildRequest messages client.model)) w').1) := by
  simp only [stepReply, httpPost, Traced.run_bind, Traced.run_act]
  split
  · exact Or.inl rfl
  · split
    · exact Or.inl rfl
    · simp only [Traced.run_bind, Traced.run_act]
      split
      · exact Or.inl rfl
      · exact Or.inr ⟨_, _, rfl⟩

/-- A step sends its history once. -/
theorem requests_agentStep (state : ℕ × List (Json ν)) (w : σ) :
    requests ((agentStep k ctx client state).run w).trace = [state.2] := by
  have h₁ := (quiet_httpPost (ν := ν) k client endpoint (buildRequest state.2 client.model) w)
  have h₂ := quiet_handleReply k ctx state.2 (stepReply k client state.2 w)
    (stepWorld k client state.2 w)
  simp only [agentStep, Traced.run_bind, Traced.run_emit, requests_append, h₁.requests,
    val_httpPost, world_httpPost, h₂.requests]
  split <;> rfl

/-- A step receives one reply. -/
theorem replies_agentStep (state : ℕ × List (Json ν)) (w : σ) :
    replies ((agentStep k ctx client state).run w).trace = [stepReply k client state.2 w] := by
  have h₁ := (quiet_httpPost (ν := ν) k client endpoint (buildRequest state.2 client.model) w)
  have h₂ := quiet_handleReply k ctx state.2 (stepReply k client state.2 w)
    (stepWorld k client state.2 w)
  simp only [agentStep, Traced.run_bind, Traced.run_emit, replies_append, h₁.replies,
    val_httpPost, world_httpPost, h₂.replies]
  split <;> rfl

/-- Without a choice in the reply the run ends with -1. -/
theorem val_agentStep_of_none (state : ℕ × List (Json ν)) {w : σ}
    (h : chosenMessage (ν := ν) (stepReply k client state.2 w) = none) :
    ((agentStep k ctx client state).run w).val = .inl (-1) := by
  obtain ⟨text, he⟩ := handleReply_of_none k ctx state.2 h
    (stepWorld k client state.2 w)
  simp only [agentStep, Traced.run_bind, Traced.run_emit, val_httpPost, world_httpPost, he]
  rfl

omit [CNumber ν] in
/-- Reaching the server runs no tool. -/
theorem actions_httpPost (path body : CString) (w : σ) :
    actions ((httpPost (ν := ν) k client path body).run w).trace = [] := by
  simp only [httpPost, Traced.run_bind, Traced.run_act, List.nil_append]
  split
  · rfl
  · split
    · rfl
    · simp only [Traced.run_bind, Traced.run_act, List.nil_append]
      split <;> rfl

/-- Nor does a step whose reply has no choice. -/
theorem actions_agentStep_of_none (state : ℕ × List (Json ν)) {w : σ}
    (h : chosenMessage (ν := ν) (stepReply k client state.2 w) = none) :
    actions ((agentStep k ctx client state).run w).trace = [] := by
  obtain ⟨text, he⟩ := handleReply_of_none k ctx state.2 h
    (stepWorld k client state.2 w)
  simp only [agentStep, Traced.run_bind, Traced.run_emit, actions_append, actions_httpPost,
    val_httpPost, world_httpPost, he]
  rfl

/-- A choice without tool calls ends the run with 0. -/
theorem val_agentStep_of_nil (state : ℕ × List (Json ν)) {w : σ} {message : Option (Json ν)}
    (h : chosenMessage (stepReply k client state.2 w) = some message)
    (hc : toolCalls message = []) : ((agentStep k ctx client state).run w).val = .inl 0 := by
  have he := val_handleMessage_nil k ctx state.2 hc
    (stepWorld k client state.2 w)
  simp only [agentStep, Traced.run_bind, Traced.run_emit, val_httpPost, world_httpPost,
    handleReply_of_some k ctx state.2 h, he]
  rfl

/-- It runs no tool either. -/
theorem actions_agentStep_of_nil (state : ℕ × List (Json ν)) {w : σ} {message : Option (Json ν)}
    (h : chosenMessage (stepReply k client state.2 w) = some message)
    (hc : toolCalls message = []) : actions ((agentStep k ctx client state).run w).trace = [] := by
  have hprint := actions_printAssistant (Json.getObjectItem message (.lit "content"))
    (stepWorld k client state.2 w)
  unfold toolCalls at hc
  simp only [agentStep, Traced.run_bind, Traced.run_emit, actions_append, actions_httpPost,
    val_httpPost, world_httpPost, handleReply_of_some k ctx state.2 h, handleMessage, hc, hprint]
  rfl

/-- A choice with tool calls extends the history: by the message and by the answers.  The tools
that run are those of its calls, in the world behind the exchange. -/
theorem agentStep_of_cons (state : ℕ × List (Json ν)) {w : σ} {message : Option (Json ν)}
    (h : chosenMessage (stepReply k client state.2 w) = some message)
    (hc : toolCalls message ≠ []) :
    ((agentStep k ctx client state).run w).val = .inr (state.1 + 1, state.2 ++ message.toList ++
        ((runToolCalls k ctx (toolCalls message)).run (stepWorld k client state.2 w)).val) ∧
      actions ((agentStep k ctx client state).run w).trace =
        actions ((runToolCalls k ctx (toolCalls message)).run (stepWorld k client state.2 w)).trace := by
  simp only [agentStep, Traced.run_bind, Traced.run_emit, val_httpPost, world_httpPost,
    handleReply_of_some k ctx state.2 h, handleMessage_cons k ctx state.2 hc, actions_append,
    actions_httpPost, actions_printAssistant, world_printAssistant]
  exact ⟨rfl, by simp [actions]⟩

/-! ## Runs -/

/-- Every history that is sent is the history of a loop state that was reached. -/
theorem exists_of_mem_requests {prompt : CString} {messages : List (Json ν)} {w : σ}
    (h : messages ∈ requests ((agentRun k ctx client prompt).run w).trace) :
    ∃ ts state w', Traced.Rounds (agentStep k ctx client) (0, initialMessages prompt) w ts state w' ∧
      state.2 = messages := by
  rcases Traced.exists_of_mem_iterate (mem_requests.mp h) with ⟨ts, state, w', hr, he⟩ | ⟨w', he⟩
  · rw [← mem_requests, requests_agentStep, List.mem_singleton] at he
    exact ⟨ts, state, w', hr, he.symm⟩
  · simp [budgetExhausted] at he

/-- Every run sends the history it starts from. -/
theorem initialMessages_mem_requests (prompt : CString) (w : σ) :
    initialMessages prompt ∈ requests ((agentRun (ν := ν) k ctx client prompt).run w).trace := by
  simp only [agentRun, maxSteps, Traced.iterate, Traced.run_bind, requests_append,
    requests_agentStep]
  exact List.mem_append_left _ (List.mem_singleton.mpr rfl)

/-- A first step that goes on makes a second request, with the history it arrived at. -/
theorem mem_requests_of_inr {prompt : CString} {w : σ} {state : ℕ × List (Json ν)}
    (h : ((agentStep k ctx client (0, initialMessages prompt)).run w).val = .inr state) :
    state.2 ∈ requests ((agentRun k ctx client prompt).run w).trace := by
  rw [agentRun, maxSteps, Traced.run_iterate_of_inr budgetExhausted 49 h, requests_append]
  refine List.mem_append_right _ ?_
  simp only [Traced.iterate, Traced.run_bind, requests_append, requests_agentStep]
  exact List.mem_append_left _ (List.mem_singleton.mpr rfl)

/-- A run whose first step ends it has sent one request. -/
theorem agentRun_of_inl {prompt : CString} {w : σ} {code : ℤ}
    (h : ((agentStep (ν := ν) k ctx client (0, initialMessages prompt)).run w).val = .inl code) :
    let first := (agentStep (ν := ν) k ctx client (0, initialMessages prompt)).run w
    let o := (agentRun (ν := ν) k ctx client prompt).run w
    o.val = code ∧ requests o.trace = [initialMessages prompt] ∧
      replies o.trace = [stepReply (ν := ν) k client (initialMessages prompt) w] ∧
      actions o.trace = actions first.trace := by
  have hreq := requests_agentStep k ctx client (0, initialMessages (ν := ν) prompt) w
  have hrep := replies_agentStep k ctx client (0, initialMessages (ν := ν) prompt) w
  rw [agentRun, maxSteps, Traced.run_iterate_of_inl budgetExhausted 49 h]
  exact ⟨rfl, hreq, hrep, rfl⟩

/-- A run whose second step ends it has sent two requests. -/
theorem agentRun_of_inr_inl {prompt : CString} {w : σ} {state : ℕ × List (Json ν)} {code : ℤ}
    (h₁ : ((agentStep (ν := ν) k ctx client (0, initialMessages prompt)).run w).val = .inr state)
    (h₂ : ((agentStep (ν := ν) k ctx client state).run
      ((agentStep (ν := ν) k ctx client (0, initialMessages prompt)).run w).world).val = .inl code) :
    let first := (agentStep (ν := ν) k ctx client (0, initialMessages prompt)).run w
    let second := (agentStep (ν := ν) k ctx client state).run first.world
    let o := (agentRun (ν := ν) k ctx client prompt).run w
    o.val = code ∧ requests o.trace = [initialMessages prompt, state.2] ∧
      replies o.trace = [stepReply (ν := ν) k client (initialMessages prompt) w,
        stepReply (ν := ν) k client state.2 first.world] ∧
      actions o.trace = actions first.trace ++ actions second.trace := by
  rw [agentRun, maxSteps, Traced.run_iterate_of_inr budgetExhausted 49 h₁,
    Traced.run_iterate_of_inl budgetExhausted 48 h₂]
  simp only [requests_append, replies_append, requests_agentStep, replies_agentStep, actions_append,
    List.singleton_append, and_self]

/-! ## Responses -/

/-- Text without NUL arrives as it was sent, in whatever pieces. -/
theorem bytes_recvAll {chunks : List Bytes} (h : ∀ chunk ∈ chunks, chunk ≠ [] ∧ 0 ∉ chunk) :
    (recvAll chunks).bytes = chunks.flatten := by
  have htake : chunks.takeWhile (· ≠ []) = chunks :=
    List.takeWhile_eq_self_iff.mpr fun chunk hc ↦ by simpa using (h chunk hc).1
  have hflat : (chunks.flatMap fun chunk ↦ (CString.ofBytes chunk).bytes) = chunks.flatten := by
    rw [List.flatMap_def,
      List.map_congr_left fun chunk hc ↦ CString.bytes_ofBytes (h chunk hc).2, List.map_id']
  rw [recvAll, htake, hflat, CString.bytes_ofBytes]
  intro h0
  obtain ⟨chunk, hc, hm⟩ := List.mem_flatten.mp h0
  exact (h chunk hc).2 hm

/-- The body is everything behind a header without blank lines. -/
theorem extractBody_of_after {message body : CString}
    (h : Text.after blankLine message.bytes = some body.bytes) : extractBody message = some body := by
  rw [extractBody, h, Option.map_some, CString.ofBytes_bytes]

/-- A kernel on which every connection succeeds: the listed bodies come back one after the
other, and every command prints `output`. -/
def replay (output : Bytes) : Kernel (List CString) where
  fopenRead _ w := (none, w)
  fopenWrite _ _ w := (false, w)
  opendir _ w := (none, w)
  popen _ w := (some ⟨output, [], 0⟩, w)
  socket w := (true, w)
  connect _ w := (true, w)
  exchange _ _ w := ((w.take 1).map fun body ↦ ascii "HTTP/1.1 200 OK" ++ blankLine ++ body.bytes,
    w.drop 1)

/-- The client the test script starts. -/
def localClient : HttpClient := ⟨.lit "127.0.0.1", 8080, none, .lit "test-model"⟩

theorem inetPton_localClient : inetPton localClient.host = some [127, 0, 0, 1] := by decide

/-- The first body that is left is the reply. -/
theorem stepReply_replay (output : Bytes) (messages : List (Json ν)) (body : CString)
    (bodies : List CString) :
    stepReply (ν := ν) (replay output) localClient messages (body :: bodies) = some body := by
  have hchunk : ascii "HTTP/1.1 200 OK" ++ blankLine ++ body.bytes ≠ [] ∧
      0 ∉ ascii "HTTP/1.1 200 OK" ++ blankLine ++ body.bytes := by
    refine ⟨List.cons_ne_nil _ _, ?_⟩
    rw [List.mem_append, not_or]
    exact ⟨by decide, body.noNul⟩
  have hbytes : (recvAll [ascii "HTTP/1.1 200 OK" ++ blankLine ++ body.bytes]).bytes =
      ascii "HTTP/1.1 200 OK" ++ (blankLine ++ body.bytes) := by
    rw [bytes_recvAll (by simpa using hchunk), List.flatten_singleton, List.append_assoc]
  have hafter : Text.after blankLine
      (ascii "HTTP/1.1 200 OK" ++ (blankLine ++ body.bytes)) = some body.bytes := by
    rw [blankLine, Text.after_skip (by decide), Text.after_self_append (by decide)]
  have h := extractBody_of_after (hbytes ▸ hafter)
  simp only [stepReply, httpPost, Traced.run_bind, Traced.run_act, replay, inetPton_localClient]
  exact h

end KernelTests.CAgent
