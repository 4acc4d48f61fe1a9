import KernelTests.CAgent.Session
import KernelTests.CAgent.Main

/-!
# What a run prints

The text a run leaves on standard output, as a function of the output of the tool.
The server may have read less than the whole request and the connection may have
failed; a run that nevertheless ends with 0 prints one of two texts, `answerText`
without a tool or `resultText` around its output.
-/

namespace KernelTests.CAgent

open Effects

variable {ν σ : Type}

/-! ## Projections -/

/-- Standard output. -/
def stdoutText (t : List (Event ν)) : Bytes :=
  t.flatMap fun e ↦ match e with
    | .stdout text => text
    | _ => []

/-- Standard error. -/
def stderrText (t : List (Event ν)) : Bytes :=
  t.flatMap fun e ↦ match e with
    | .stderr text => text
    | _ => []

/-- The label of a tool result. -/
def resultLabel : Bytes := ascii "  [Result] "

/-- The texts printed behind the label, without the newline that ends them. -/
def toolOutputs (t : List (Event ν)) : List Bytes :=
  t.filterMap fun e ↦ match e with
    | .stdout text => if resultLabel <+: text then some (text.drop resultLabel.length).dropLast
      else none
    | _ => none

/-- What a trace printed: on standard output, on standard error, and behind the label. -/
structure Printed (t : List (Event ν)) (out err : Bytes) (results : List Bytes) : Prop where
  stdout : stdoutText t = out
  stderr : stderrText t = err
  outputs : toolOutputs t = results

theorem Printed.append {t u : List (Event ν)} {out out' err err' : Bytes}
    {results results' : List Bytes} (ht : Printed t out err results)
    (hu : Printed u out' err' results') :
    Printed (t ++ u) (out ++ out') (err ++ err') (results ++ results') where
  stdout := by rw [← ht.stdout, ← hu.stdout]; exact List.flatMap_append
  stderr := by rw [← ht.stderr, ← hu.stderr]; exact List.flatMap_append
  outputs := by rw [← ht.outputs, ← hu.outputs]; exact List.filterMap_append

theorem printed_stderr (text : Bytes) : Printed [(.stderr text : Event ν)] [] text [] :=
  ⟨rfl, List.append_nil text, rfl⟩

/-- A text with another label. -/
theorem printed_stdout {label : Bytes} (h : ¬ label <+: resultLabel ∧ ¬ resultLabel <+: label)
    (text : Bytes) : Printed [(.stdout (label ++ text) : Event ν)] (label ++ text) [] [] where
  stdout := List.append_nil _
  stderr := rfl
  outputs := by
    have hlabel : ¬ resultLabel <+: label ++ text := fun hp ↦
      (List.prefix_or_prefix_of_prefix hp (List.prefix_append label text)).elim h.2 h.1
    simp [toolOutputs, hlabel]

theorem printed_line {text : Bytes} (h : ¬ text <+: resultLabel ∧ ¬ resultLabel <+: text) :
    Printed [(.stdout text : Event ν)] text [] [] :=
  List.append_nil text ▸ printed_stdout h []

/-! ## The lines of a step -/

/-- The line that opens a step. -/
def stepLine (step : ℕ) : Bytes := ascii "\n[Step " ++ decimalNat step ++ ascii "]\n"

/-- The line in front of a request. -/
def callingLine : Bytes := ascii "  Calling LLM...\n"

/-- The line for the content of a message. -/
def assistantLine (text : CString) : Bytes := ascii "  [Assistant] " ++ text.bytes ++ ascii "\n"

/-- The lines that end a run. -/
def finalLines (text : CString) : Bytes := ascii "\n[Final Answer]\n" ++ text.bytes ++ ascii "\n"

/-- The line for the result of a tool. -/
def resultLine (output : Bytes) : Bytes := resultLabel ++ output ++ ascii "\n"

variable [CNumber ν] (k : Kernel σ) (ctx : ToolContext) (client : HttpClient)

omit [CNumber ν] in
/-- Nothing is printed on the way to a reply. -/
theorem trace_httpPost_of_isSome {path body : CString} {w : σ}
    (h : ((httpPost (ν := ν) k client path body).run w).val.isSome) :
    ((httpPost (ν := ν) k client path body).run w).trace = [] := by
  simp only [httpPost, Traced.run_bind, Traced.run_act] at h ⊢
  split at h
  · cases h
  · split at h
    · cases h
    · simp only [Traced.run_bind, Traced.run_act] at h ⊢
      split at h
      · cases h
      · rfl

/-- The events of a step whose reply has a choice. -/
theorem run_agentStep (step : ℕ) {messages : List (Json ν)} {w : σ} {message : Option (Json ν)}
    (h : chosenMessage (stepReply k client messages w) = some message) :
    ∃ w', ((agentStep k ctx client (step, messages)).run w).val =
        ((handleMessage k ctx messages message).run w').val.map id (step + 1, ·) ∧
      ((agentStep k ctx client (step, messages)).run w).trace =
        [.stdout (stepLine (step + 1)), .request messages, .stdout callingLine,
          .reply (stepReply (ν := ν) k client messages w)] ++
        ((handleMessage k ctx messages message).run w').trace := by
  have hsome : ((httpPost (ν := ν) k client endpoint
      (buildRequest messages client.model)).run w).val.isSome := by
    cases hr : stepReply (ν := ν) k client messages w with
    | none => rw [hr] at h; cases h
    | some body => rw [val_httpPost, hr]; rfl
  refine ⟨((httpPost (ν := ν) k client endpoint (buildRequest messages client.model)).run w).world, ?_⟩
  simp only [agentStep, Traced.run_bind, Traced.run_emit, trace_httpPost_of_isSome k client hsome,
    val_httpPost, handleReply_of_some k ctx messages h]
  split
  · next code hv =>
      rw [hv]
      exact ⟨rfl, by simp [stepLine, callingLine]⟩
  · next ms hv =>
      rw [hv]
      exact ⟨rfl, by simp [stepLine, callingLine]⟩

/-- The lines of a step that ends the run with a text. -/
def textLines (step : ℕ) (text : CString) : Bytes :=
  stepLine step ++ callingLine ++ assistantLine text ++ finalLines text

omit [CNumber ν] in
theorem printed_stepLine (step : ℕ) :
    Printed [(.stdout (stepLine step) : Event ν)] (stepLine step) [] [] := by
  rw [stepLine, List.append_assoc]
  exact printed_stdout (by decide) _

omit [CNumber ν] in
/-- The events in front of the message. -/
theorem printed_opening (step : ℕ) (messages : List (Json ν)) (reply : Option CString) :
    Printed [(.stdout (stepLine step) : Event ν), .request messages, .stdout callingLine,
      .reply reply] (stepLine step ++ callingLine) [] [] := by
  have hcalling : Printed [(.stdout callingLine : Event ν)] callingLine [] [] :=
    printed_line (by decide)
  exact (printed_stepLine step).append
    ((⟨rfl, rfl, rfl⟩ : Printed [(.request messages : Event ν)] [] [] []).append
      (hcalling.append ⟨rfl, rfl, rfl⟩))

/-- A text that is not empty is printed twice, and ends the run with 0. -/
theorem agentStep_text (step : ℕ) {messages : List (Json ν)} {w : σ} {text : CString}
    (h : chosenMessage (ν := ν) (stepReply (ν := ν) k client messages w) =
      some (some (textMessage text))) (hne : text.bytes ≠ []) :
    ((agentStep k ctx client (step, messages)).run w).val = .inl 0 ∧
      Printed ((agentStep k ctx client (step, messages)).run w).trace
        (textLines (step + 1) text) [] [] := by
  obtain ⟨w', _, ht⟩ := run_agentStep k ctx client step h
  have hcontent : Json.getObjectItem (some (textMessage (ν := ν) text)) (.lit "content") =
      some (.string text) := rfl
  have hcalls : Json.elements (Json.getObjectItem (some (textMessage (ν := ν) text))
      (.lit "tool_calls")) = [] := rfl
  have htail : ((handleMessage k ctx messages (some (textMessage (ν := ν) text))).run w').trace =
      [.stdout (assistantLine text), .stdout (finalLines text)] := by
    simp only [handleMessage, hcontent, hcalls, Traced.run_bind, printAssistant, Option.bind_some,
      Json.valuestring, if_neg hne]
    rfl
  refine ⟨val_agentStep_of_nil k ctx client (step, messages) h rfl, ?_⟩
  have hassistant : Printed [(.stdout (assistantLine text) : Event ν)] (assistantLine text) [] [] := by
    rw [assistantLine, List.append_assoc]
    exact printed_stdout (by decide) _
  have hfinal : Printed [(.stdout (finalLines text) : Event ν)] (finalLines text) [] [] := by
    rw [finalLines, List.append_assoc]
    exact printed_stdout (by decide) _
  rw [ht, htail, textLines, List.append_assoc]
  exact (printed_opening (step + 1) messages _).append (hassistant.append hfinal)

/-! ## Commands -/

/-- What the agent takes for the output of a command.  Without a result the command could not be
started. -/
def commandOutput : Option Piped → CString
  | none => .lit "Error: Failed to execute command"
  | some piped => pipeOutput piped.output

/-- What the command wrote to standard error. -/
def commandErrors : Option Piped → Bytes
  | none => []
  | some piped => piped.errors

/-- The lines of a step that runs a command. -/
def commandLines (step : ℕ) (output : Bytes) : Bytes :=
  stepLine step ++ callingLine ++ ascii "  [Tool] bash\n" ++ resultLine output

omit [CNumber ν] in
theorem output_toolBash (command : CString) (w : σ) :
    ((toolBash (ν := ν) k command).run w).val.output =
      some (commandOutput (k.popen command w).1) := by
  simp only [toolBash, Traced.run_bind, Traced.run_emit, Traced.run_act]
  cases (k.popen command w).1 <;> rfl

omit [CNumber ν] in
theorem printed_result (output : Bytes) :
    Printed [(.stdout (resultLine output) : Event ν)] (resultLine output) [] [output] where
  stdout := List.append_nil _
  stderr := rfl
  outputs := by
    have hprefix : resultLabel <+: resultLine output :=
      ⟨output ++ ascii "\n", (List.append_assoc _ _ _).symm⟩
    have hdrop : ((resultLine output).drop resultLabel.length).dropLast = output := by
      rw [resultLine, List.append_assoc, List.drop_left]
      exact List.dropLast_concat
    simp [toolOutputs, hprefix, hdrop]

/-- A call prints the output of its command and adds it to the history; the errors of the command
go to standard error. -/
theorem agentStep_call (step : ℕ) {messages : List (Json ν)} {w : σ} {command executed : CString}
    (hexec : WrittenAs command executed)
    (h : chosenMessage (ν := ν) (stepReply (ν := ν) k client messages w) =
      some (some (callMessage command))) :
    ∃ w', ((agentStep k ctx client (step, messages)).run w).val = .inr (step + 1,
        messages ++ [callMessage command,
          toolMessage (some (.lit "call_bash")) (commandOutput (k.popen executed w').1)]) ∧
      Printed ((agentStep k ctx client (step, messages)).run w).trace
        (commandLines (step + 1) (commandOutput (k.popen executed w').1).bytes)
        (commandErrors (k.popen executed w').1) [(commandOutput (k.popen executed w').1).bytes] := by
  obtain ⟨w', hv, ht⟩ := run_agentStep k ctx client step h
  have hcontent : Json.getObjectItem (some (callMessage (ν := ν) command)) (.lit "content") =
      some (str "") := rfl
  have hcalls : toolCalls (some (callMessage (ν := ν) command)) = [serverCall command] := rfl
  have hprint : (printAssistant (some (str "")) : Agent ν σ Unit) = pure () := rfl
  obtain ⟨output, hout, hval, htrace⟩ := runToolCalls_serverCall (ν := ν) k ctx hexec w'
  rw [output_toolBash, Option.some.injEq] at hout
  rw [trace_toolBash, ← hout] at htrace
  refine ⟨w', ?_, ?_⟩
  · rw [hv, handleMessage_cons k ctx messages (by rw [hcalls]; exact List.cons_ne_nil _ _), hcalls,
      hcontent, hprint]
    simp [hval, hout]
  · have htail : ((handleMessage k ctx messages (some (callMessage (ν := ν) command))).run w').trace =
        [toolLine (.lit "bash"), .action (.bash executed)] ++
          ((k.popen executed w').1.toList.map fun piped ↦ .stderr piped.errors) ++
          [.stdout (resultLine (commandOutput (k.popen executed w').1).bytes)] := by
      rw [handleMessage_cons k ctx messages (by rw [hcalls]; exact List.cons_ne_nil _ _), hcalls,
        hcontent, hprint]
      simp [htrace, resultLine, resultLabel]
    have herrors : Printed ((k.popen executed w').1.toList.map fun piped ↦
        (.stderr piped.errors : Event ν)) [] (commandErrors (k.popen executed w').1) [] := by
      cases (k.popen executed w').1 with
      | none => exact ⟨rfl, rfl, rfl⟩
      | some piped => exact printed_stderr piped.errors
    have htool : Printed [(toolLine (.lit "bash") : Event ν), .action (.bash executed)]
        (ascii "  [Tool] bash\n") [] [] := by
      have hline : (toolLine (.lit "bash") : Event ν) = .stdout (ascii "  [Tool] bash\n") := rfl
      exact hline ▸ (printed_line (by decide)).append ⟨rfl, rfl, rfl⟩
    rw [ht, htail, commandLines]
    simpa using (printed_opening (step + 1) messages _).append
      ((htool.append herrors).append (printed_result _))

/-! ## Sessions that end with 0 -/

/-- The server gets some prefix of every request, and its reply arrives whole or not at all. -/
structure Relays (ν : Type) [CNumber ν] (k : Kernel σ) (c : Classifier) : Prop where
  exchange : ∀ server request w, (k.exchange server request w).1 = [] ∨
    ∃ p, p <+: request ∧ Whole (k.exchange server request w).1 (handleClient ν c p)

/-- A step then fails, or works with the reply to the complete body. -/
theorem chosenMessage_of_relays {k : Kernel σ} {c : Classifier} (hr : Relays ν k c)
    {client : HttpClient} {addr : List UInt8} (hhost : inetPton client.host = some addr)
    (hkey : ∀ apiKey ∈ client.apiKey, FreeOfLineEnds apiKey) {messages : List (Json ν)}
    (h : ∀ message ∈ messages, message.height ≤ 997) (w : σ) :
    chosenMessage (ν := ν) (stepReply (ν := ν) k client messages w) = none ∨
      chosenMessage (ν := ν) (stepReply (ν := ν) k client messages w) =
        chosenMessage (some (completion ν c (requestRoot messages client.model).reread)) := by
  rcases stepReply_eq_none_or k client messages w with he | ⟨server, w', he⟩
  · rw [he]
    exact Or.inl rfl
  · rw [he]
    rcases hr.exchange server (httpRequest client endpoint
      (buildRequest messages client.model)) w' with hnil | ⟨p, ⟨q, hq⟩, hwhole⟩
    · rw [hnil]
      exact Or.inl rfl
    · by_cases hq0 : q = []
      · rw [hq0, List.append_nil] at hq
        rw [hq, handleClient_httpRequest c hhost (blankLineFree_of_freeOfLineEnds hkey)] at hwhole
        rw [extractBody_of_whole (by decide) (by decide) hwhole,
          handleChatCompletions_buildRequest c h]
        exact Or.inr rfl
      · cases hreply : handleClient ν c p with
        | none =>
            rw [hreply] at hwhole
            rw [extractBody_of_whole_none hwhole]
            exact Or.inl rfl
        | some reply =>
            rw [hreply] at hwhole
            exact Or.inl (chosenMessage_of_failure
              (handleClient_truncated c hhost (blankLineFree_of_freeOfLineEnds hkey) hq hq0 reply hreply)
              hwhole)

/-- The text reply to a prompt that selects no command. -/
def greeting : CString := .lit "I understand. How can I help you?"

/-- The text reply to an answer. -/
def completed : CString := .lit "Task completed successfully."

/-- What a session prints, given what became of its command, if it ran one. -/
def sessionText : Option (Option Piped) → Bytes
  | none => textLines 1 greeting
  | some piped => commandLines 1 (commandOutput piped).bytes ++ textLines 2 completed

/-- What the command of a session wrote to standard error. -/
def sessionErrors : Option (Option Piped) → Bytes
  | none => []
  | some piped => commandErrors piped

/-- The outputs of tools in a session. -/
def sessionOutputs : Option (Option Piped) → List Bytes
  | none => []
  | some piped => [(commandOutput piped).bytes]

/-- The session whose first reply is a text. -/
theorem agentRun_text {prompt : CString} {w : σ}
    (h : chosenMessage (ν := ν) (stepReply (ν := ν) k client (initialMessages prompt) w) =
      some (some (textMessage greeting))) :
    ((agentRun (ν := ν) k ctx client prompt).run w).val = 0 ∧
      Printed ((agentRun (ν := ν) k ctx client prompt).run w).trace
        (sessionText none) (sessionErrors none) (sessionOutputs none) := by
  obtain ⟨hv, ht⟩ := agentStep_text k ctx client 0 h (by decide)
  rw [agentRun, maxSteps, Traced.run_iterate_of_inl budgetExhausted 49 hv]
  exact ⟨rfl, ht⟩

/-- The session whose first reply is a call.  The second reply decides whether it ends with 0. -/
theorem agentRun_call {prompt command executed : CString} {w : σ} (hexec : WrittenAs command executed)
    (h : chosenMessage (ν := ν) (stepReply (ν := ν) k client (initialMessages prompt) w) =
      some (some (callMessage command))) :
    ∃ w₁ w₂, ∀ second, chosenMessage (ν := ν) (stepReply (ν := ν) k client
        (answeredMessages prompt command (commandOutput (k.popen executed w₁).1)) w₂) = second →
      (second = none → ((agentRun (ν := ν) k ctx client prompt).run w).val = -1) ∧
      (second = some (some (textMessage completed)) →
        ((agentRun (ν := ν) k ctx client prompt).run w).val = 0 ∧
          Printed ((agentRun (ν := ν) k ctx client prompt).run w).trace
            (sessionText (some (k.popen executed w₁).1))
            (sessionErrors (some (k.popen executed w₁).1))
            (sessionOutputs (some (k.popen executed w₁).1))) := by
  obtain ⟨w₁, hv, ht⟩ := agentStep_call k ctx client 0 hexec h
  refine ⟨w₁, ((agentStep (ν := ν) k ctx client (0, initialMessages prompt)).run w).world,
    fun second h₂ ↦ ?_⟩
  have hv₁ : ((agentStep (ν := ν) k ctx client (0, initialMessages prompt)).run w).val = .inr (1,
      answeredMessages prompt command (commandOutput (k.popen executed w₁).1)) := hv
  rw [agentRun, maxSteps, Traced.run_iterate_of_inr budgetExhausted 49 hv₁]
  constructor
  · rintro rfl
    have hv₂ := val_agentStep_of_none k ctx client
      (1, answeredMessages prompt command (commandOutput (k.popen executed w₁).1)) h₂
    rw [Traced.run_iterate_of_inl budgetExhausted 48 hv₂]
  · rintro rfl
    obtain ⟨hv₂, ht₂⟩ := agentStep_text k ctx client 1 h₂ (by decide)
    rw [Traced.run_iterate_of_inl budgetExhausted 48 hv₂]
    exact ⟨rfl, by simpa [sessionText, sessionErrors, sessionOutputs] using ht.append ht₂⟩

/-- **Output.**  A session fails with -1, or it ends with 0 and prints the lines around the output
of its command. -/
theorem agentRun_printed {k : Kernel σ} {c : Classifier} (hr : Relays ν k c)
    {client : HttpClient} {addr : List UInt8} (hhost : inetPton client.host = some addr)
    (hkey : ∀ apiKey ∈ client.apiKey, FreeOfLineEnds apiKey) (prompt : CString) (w : σ)
    {piped : Option Piped} (hp : ∀ command w, (k.popen command w).1 = piped) :
    ((agentRun (ν := ν) k ctx client prompt).run w).val = -1 ∨
      ((agentRun (ν := ν) k ctx client prompt).run w).val = 0 ∧
        Printed ((agentRun (ν := ν) k ctx client prompt).run w).trace
          (sessionText ((chosenCommand c prompt).map fun _ ↦ piped))
          (sessionErrors ((chosenCommand c prompt).map fun _ ↦ piped))
          (sessionOutputs ((chosenCommand c prompt).map fun _ ↦ piped)) := by
  rcases chosenMessage_of_relays hr hhost hkey (Conversation.start : Conversation prompt _).height_le w
    with hnone | hsome
  · have hv := val_agentStep_of_none k ctx client (0, initialMessages prompt) hnone
    rw [agentRun, maxSteps, Traced.run_iterate_of_inl budgetExhausted 49 hv]
    exact Or.inl rfl
  · cases hc : chosenCommand c prompt with
    | none =>
        exact Or.inr (agentRun_text k ctx client
          (hsome.trans (chosenMessage_initial_of_none hc client.model)))
    | some command =>
        obtain ⟨executed, hexec⟩ := exists_writtenAs hc
        obtain ⟨w₁, w₂, hcall⟩ := agentRun_call k ctx client hexec
          (hsome.trans (chosenMessage_initial_of_some hc client.model))
        rw [hp] at hcall
        rcases chosenMessage_of_relays hr hhost hkey
          (height_answeredMessages prompt command (commandOutput piped)) w₂ with hnone₂ | hsome₂
        · exact Or.inl ((hcall _ hnone₂).1 rfl)
        · exact Or.inr ((hcall _ (hsome₂.trans
            (chosenMessage_answered prompt client.model command (commandOutput piped)))).2 rfl)

end KernelTests.CAgent
