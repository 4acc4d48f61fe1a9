import KernelTests.CAgent.Framing
import KernelTests.CAgent.Main

/-!
# The port

Both programs read the port with `atoi`.  The server refuses what is not a port; the
agent prints the number and narrows it to 16 bits.  Here is the start of the server, the
addresses an agent connects to, and for which texts the two programs agree.
-/

namespace KernelTests.CAgent

open Effects

/-! ## Decimal texts -/

/-- The number a row of digits stands for. -/
def digitsValue (digits : Bytes) : ℤ :=
  digits.foldl (fun n c ↦ 10 * n + (c.toNat - 48 : ℤ)) 0

/-- A decimal text: digits, perhaps behind a sign. -/
inductive IsDecimal : Bytes → ℤ → Prop
  | plain {digits : Bytes} : digits ≠ [] → digits.all isDigit → IsDecimal digits (digitsValue digits)
  | plus {digits : Bytes} : digits ≠ [] → digits.all isDigit →
      IsDecimal (43 :: digits) (digitsValue digits)
  | minus {digits : Bytes} : digits ≠ [] → digits.all isDigit →
      IsDecimal (45 :: digits) (-digitsValue digits)

/-- The conversion to `long` and to `int` does not change an `int`. -/
theorem bmod_of_isInt {n : ℤ} (hn : IsInt n) :
    Int.bmod (max (-2 ^ 63) (min n (2 ^ 63 - 1))) (2 ^ 32) = n := by
  obtain ⟨hlow, hhigh⟩ := hn
  have hlong : max (-2 ^ 63) (min n (2 ^ 63 - 1)) = n := by omega
  rw [hlong]
  exact Int.bmod_eq_of_le (by omega) (by omega)

/-- `atoi` reads a number that fits into an `int`. -/
theorem atoi_of_isDecimal {text : CString} {n : ℤ} (h : IsDecimal text.bytes n) (hn : IsInt n) :
    atoi text = n := by
  have htake {digits : Bytes} (hd : digits.all isDigit) : digits.takeWhile isDigit = digits :=
    List.takeWhile_eq_self_iff.mpr (List.all_eq_true.mp hd)
  refine Eq.trans ?_ (bmod_of_isInt hn)
  unfold atoi
  generalize text.bytes = b at h
  cases h with
  | plain hne hd =>
      rcases b with _ | ⟨c, b⟩
      · exact absurd rfl hne
      · have hc : 48 ≤ c ∧ c ≤ 57 := by
          simpa [isDigit] using List.all_eq_true.mp hd c List.mem_cons_self
        have hspace : ¬ (c = 32 ∨ 9 ≤ c ∧ c ≤ 13) := by
          rintro (rfl | ⟨_, h13⟩)
          · exact absurd hc.1 (by decide)
          · exact absurd (UInt8.le_trans hc.1 h13) (by decide)
        have hsign : c ≠ 43 ∧ c ≠ 45 :=
          ⟨fun h ↦ absurd (h ▸ hc.1) (by decide), fun h ↦ absurd (h ▸ hc.1) (by decide)⟩
        simp only [List.dropWhile_cons, hspace, decide_false, Bool.false_eq_true, if_false,
          List.head?_cons, Option.some.injEq, hsign.1, hsign.2, or_self, htake hd]
        rfl
  | plus hne hd =>
      have hspace : ¬ ((43 : UInt8) = 32 ∨ (9 : UInt8) ≤ 43 ∧ (43 : UInt8) ≤ 13) := by decide
      have hsign : (43 : UInt8) ≠ 45 := by decide
      simp only [List.dropWhile_cons, hspace, decide_false, Bool.false_eq_true, if_false,
        List.head?_cons, Option.some.injEq, hsign, true_or, if_true, List.tail_cons, htake hd]
      rfl
  | minus hne hd =>
      have hspace : ¬ ((45 : UInt8) = 32 ∨ (9 : UInt8) ≤ 45 ∧ (45 : UInt8) ≤ 13) := by decide
      simp only [List.dropWhile_cons, hspace, decide_false, Bool.false_eq_true, if_false,
        List.head?_cons, or_true, if_true, List.tail_cons, htake hd]
      rfl

/-! ## The start of the server -/

/-- What the server leaves behind while it starts. -/
inductive StartEvent where
  | stdout (text : Bytes)
  | stderr (text : Bytes)

/-- The calls `main` of the server makes before it accepts connections.  A call that fails
delivers the message of its error. -/
structure ListenerCalls (σ : Type) where
  socket : σ → Option Bytes × σ
  setsockopt : σ → Option Bytes × σ
  bind : SockAddr → σ → Option Bytes × σ
  listen : σ → Option Bytes × σ

variable {ν σ : Type}

/-- A call; if it fails, `perror` reports it and the server exits with 1. -/
def orExit (name : String) (call : σ → Option Bytes × σ)
    (next : Traced StartEvent σ (ℤ ⊕ SockAddr)) : Traced StartEvent σ (ℤ ⊕ SockAddr) := do
  match ← Traced.act call with
  | some message =>
    Traced.emit (.stderr (ascii name ++ ascii ": " ++ message ++ ascii "\n"))
    return .inl 1
  | none => next

/-- `DEFAULT_PORT` -/
def defaultPort : ℤ := 8080

/-- `main` of the server from its port on. -/
def listenOn (calls : ListenerCalls σ) (port : ℤ) : Traced StartEvent σ (ℤ ⊕ SockAddr) :=
  let addr : SockAddr := ⟨[127, 0, 0, 1], UInt16.ofInt port⟩
  orExit "socket" calls.socket <| orExit "setsockopt" calls.setsockopt <|
    orExit "bind" (calls.bind addr) <| orExit "listen" calls.listen do
      Traced.emit (.stdout (ascii "Simple LLM Server listening on http://127.0.0.1:" ++
        decimal port ++ ascii "\n"))
      Traced.emit (.stdout (ascii "API endpoint: http://127.0.0.1:" ++ decimal port ++
        ascii "/v1/chat/completions\n"))
      Traced.emit (.stdout (ascii "Press Ctrl+C to stop\n\n"))
      return .inr addr

/-- `main` of the server up to its accept loop: an exit code, or the address it listens on. -/
def startServer (calls : ListenerCalls σ) (args : List CString) :
    Traced StartEvent σ (ℤ ⊕ SockAddr) :=
  match args with
  | [] => listenOn calls defaultPort
  | arg :: _ =>
    if atoi arg ≤ 0 ∨ 65535 < atoi arg then do
      Traced.emit (.stderr (ascii "Invalid port number\n"))
      return .inl 1
    else listenOn calls (atoi arg)

/-! ## The options of the agent -/

/-- The text of the last `--port` among the arguments. -/
def portArgument : List CString → Option CString
  | [] => none
  | arg :: args =>
    if hasPrefix (.lit "--") arg then
      match args with
      | [] => none
      | value :: args =>
        (portArgument args).or (if arg = .lit "--port" then some value else none)
    else portArgument args

theorem port_of_set {o o' : Options} {arg value : CString} (h : o.set arg value = some o') :
    o'.client.port = if arg = .lit "--port" then atoi value else o.client.port := by
  unfold Options.set at h
  split at h
  · next hhost =>
    subst hhost
    cases h
    rw [if_neg (by decide)]
  split at h
  · next hport =>
    cases h
    rw [if_pos hport]
  · next hport =>
    rw [if_neg hport]
    split at h
    · cases h; rfl
    split at h
    · cases h; rfl
    split at h
    · cases h; rfl
    · cases h

/-- The arguments are read without a call to the system; the last `--port` counts. -/
theorem run_parseArguments (argv0 : CString) (w : σ) : (args : List CString) → (o : Options) →
    ((parseArguments (ν := ν) argv0 args o).run w).world = w ∧
      ∀ o', ((parseArguments (ν := ν) argv0 args o).run w).val = .inr o' →
        o'.client.port = ((portArgument args).map atoi).getD o.client.port
  | [], o => ⟨rfl, by rintro o' h; cases h; rfl⟩
  | arg :: args, o => by
    unfold parseArguments portArgument
    by_cases hhelp : arg = .lit "--help" ∨ arg = .lit "-h"
    · rw [if_pos hhelp]
      exact ⟨rfl, by rintro o' h; cases h⟩
    rw [if_neg hhelp]
    by_cases hoption : hasPrefix (.lit "--") arg
    · rw [if_pos hoption, if_pos hoption]
      cases args with
      | nil => exact ⟨rfl, by rintro o' h; cases h⟩
      | cons value args =>
          cases hset : o.set arg value with
          | none =>
              simp only [hset]
              exact ⟨rfl, by rintro o' h; cases h⟩
          | some o₁ =>
              simp only [hset]
              obtain ⟨hworld, hport⟩ := run_parseArguments argv0 w args o₁
              refine ⟨hworld, fun o' h ↦ (hport o' h).trans ?_⟩
              rw [port_of_set hset]
              cases portArgument args with
              | none => split <;> rfl
              | some text => rfl
    · rw [if_neg hoption, if_neg hoption]
      cases hprompt : o.prompt with
      | none => exact run_parseArguments argv0 w args { o with prompt := some arg }
      | some prompt => exact ⟨rfl, by rintro o' h; cases h⟩
  termination_by args => args.length

/-! ## The addresses of the agent -/

/-- A kernel that lists the addresses it is asked to connect to. -/
def recording (k : Kernel σ) : Kernel (σ × List SockAddr) where
  fopenRead path w := ((k.fopenRead path w.1).1, (k.fopenRead path w.1).2, w.2)
  fopenWrite path content w :=
    ((k.fopenWrite path content w.1).1, (k.fopenWrite path content w.1).2, w.2)
  opendir path w := ((k.opendir path w.1).1, (k.opendir path w.1).2, w.2)
  popen command w := ((k.popen command w.1).1, (k.popen command w.1).2, w.2)
  socket w := ((k.socket w.1).1, (k.socket w.1).2, w.2)
  connect server w := ((k.connect server w.1).1, (k.connect server w.1).2, w.2 ++ [server])
  exchange server request w :=
    ((k.exchange server request w.1).1, (k.exchange server request w.1).2, w.2)

section

variable (k : Kernel σ) (ctx : ToolContext) {I : List SockAddr → Prop}

/-- Tools connect to nothing. -/
theorem keeps_executeTool (name : CString) (arguments : Option (Json ν)) :
    Traced.Keeps (fun w ↦ I w.2) (executeTool (recording k) ctx name arguments) := by
  refine .bind (.emit _) fun _ ↦ ?_
  split
  · split
    · refine .bind (.emit _) fun _ ↦ .bind (.act fun _ h ↦ h) fun content ↦ ?_
      cases content <;> exact .pure _
    · exact .pure _
  split
  · split
    · refine .bind (.emit _) fun _ ↦ .bind (.act fun _ h ↦ h) fun opened ↦ ?_
      cases opened <;> exact .pure _
    · exact .pure _
  split
  · refine .bind (.emit _) fun _ ↦ .bind (.act fun _ h ↦ h) fun entries ↦ ?_
    cases entries <;> exact .pure _
  split
  · split
    · refine .bind (.emit _) fun _ ↦ .bind (.act fun _ h ↦ h) fun piped ↦ ?_
      cases piped with
      | none => exact .pure _
      | some piped => exact .bind (.emit _) fun _ ↦ .pure _
    · exact .pure _
  · exact .pure _

variable [CNumber ν] (client : HttpClient)

theorem keeps_runToolCalls (toolCalls : List (Json ν)) :
    Traced.Keeps (fun w ↦ I w.2) (runToolCalls (recording k) ctx toolCalls) := by
  induction toolCalls with
  | nil => exact .pure _
  | cons toolCall toolCalls ih =>
      refine .bind ?_ fun _ ↦ .bind ih fun _ ↦ .pure _
      rw [runToolCall]
      split
      · exact .pure _
      · split
        · exact .pure _
        · exact .bind (keeps_executeTool k ctx _ _) fun _ ↦ .bind (.emit _) fun _ ↦ .pure _

theorem keeps_handleReply (messages : List (Json ν)) (reply : Option CString) :
    Traced.Keeps (fun w ↦ I w.2) (handleReply (recording k) ctx messages reply) := by
  cases hm : chosenMessage (ν := ν) reply with
  | none =>
      intro w hw
      obtain ⟨text, he⟩ := handleReply_of_none (recording k) ctx messages hm w
      rw [he]
      exact hw
  | some message =>
      rw [handleReply_of_some (recording k) ctx messages hm]
      refine .bind ?_ fun _ ↦ ?_
      · rw [printAssistant]
        split
        · split
          · exact .pure _
          · exact .emit _
        · exact .pure _
      · split
        · exact .bind (.emit _) fun _ ↦ .pure _
        · exact .bind (keeps_runToolCalls k ctx _) fun _ ↦ .pure _

omit [CNumber ν] in
/-- The connections of a run. -/
theorem keeps_httpPost (path body : CString)
    (h : ∀ addrs addr, I addrs → inetPton client.host = some addr →
      I (addrs ++ [⟨addr, UInt16.ofInt client.port⟩])) :
    Traced.Keeps (fun w ↦ I w.2) (httpPost (ν := ν) (recording k) client path body) := by
  refine .bind (.act fun _ h ↦ h) fun opened ↦ ?_
  cases opened with
  | false => exact .bind (.emit _) fun _ ↦ .pure _
  | true =>
      cases haddr : inetPton client.host with
      | none => exact .bind (.emit _) fun _ ↦ .pure _
      | some addr =>
          refine .bind (.act fun w hw ↦ h w.2 addr hw haddr) fun connected ↦ ?_
          cases connected with
          | false => exact .bind (.emit _) fun _ ↦ .pure _
          | true => exact .bind (.act fun _ h ↦ h) fun _ ↦ .pure _

theorem keeps_agentStep (state : ℕ × List (Json ν))
    (h : ∀ addrs addr, I addrs → inetPton client.host = some addr →
      I (addrs ++ [⟨addr, UInt16.ofInt client.port⟩])) :
    Traced.Keeps (fun w ↦ I w.2) (agentStep (recording k) ctx client state) := by
  refine .bind (.emit _) fun _ ↦ .bind (.emit _) fun _ ↦ .bind (.emit _) fun _ ↦
    .bind (keeps_httpPost k client _ _ h) fun reply ↦ .bind (.emit _) fun _ ↦
      .bind (keeps_handleReply k ctx _ _) fun next ↦ ?_
  cases next <;> exact .pure _

/-- An agent connects to the address of its client only. -/
theorem keeps_agentRun (prompt : CString)
    (h : ∀ addrs addr, I addrs → inetPton client.host = some addr →
      I (addrs ++ [⟨addr, UInt16.ofInt client.port⟩])) :
    Traced.Keeps (fun w ↦ I w.2) (agentRun (ν := ν) (recording k) ctx client prompt) :=
  .iterate (fun state ↦ keeps_agentStep k ctx client state h) (.bind (.emit _) fun _ ↦ .pure _) _ _

/-- An agent that gets a socket connects. -/
theorem connections_agentRun_ne_nil {w : σ × List SockAddr} {addr : List UInt8}
    (hsocket : (k.socket w.1).1 = true) (haddr : inetPton client.host = some addr)
    (prompt : CString) :
    ((agentRun (ν := ν) (recording k) ctx client prompt).run w).world.2 ≠ [] := by
  have hgrow : ∀ (addrs : List SockAddr) (a : List UInt8), addrs ≠ [] →
      inetPton client.host = some a → addrs ++ [⟨a, UInt16.ofInt client.port⟩] ≠ [] :=
    fun _ _ _ _ ↦ List.append_ne_nil_of_right_ne_nil _ (List.cons_ne_nil _ _)
  have hpost : ((httpPost (ν := ν) (recording k) client endpoint
      (buildRequest (initialMessages (ν := ν) prompt) client.model)).run w).world.2 ≠ [] := by
    simp only [httpPost, Traced.run_bind, Traced.run_act, recording, hsocket, haddr]
    split <;> simp
  have hfirst : ((agentStep (ν := ν) (recording k) ctx client
      (0, initialMessages prompt)).run w).world.2 ≠ [] := by
    have hreply := keeps_handleReply (ν := ν) (I := (· ≠ [])) k ctx (initialMessages prompt)
      (stepReply (ν := ν) (recording k) client (initialMessages prompt) w) _ hpost
    simp only [agentStep, Traced.run_bind, Traced.run_emit]
    split <;> exact hreply
  exact Traced.world_iterate_succ (I := fun w : σ × List SockAddr ↦ w.2 ≠ [])
    (fun state ↦ keeps_agentStep (ν := ν) k ctx client state hgrow)
    (.bind (.emit _) fun _ ↦ .pure _) 49 hfirst

end

/-! ## Agreement -/

section

variable (ν) [CNumber ν]

/-- A run of the agent on a kernel that lists its connections. -/
def recordedMain (k : Kernel σ) (argv0 : CString) (args : List CString) (w : σ) :
    Outcome (Event ν) (σ × List SockAddr) ℤ :=
  (main (recording k) argv0 args).run (w, [])

/-- An argument that is taken for the prompt. -/
def IsPrompt (arg : CString) : Prop := ¬ hasPrefix (.lit "--") arg ∧ arg ≠ .lit "-h"

/-- The server refuses the text before it asks the system for anything. -/
def ServerRefuses (text : CString) : Prop :=
  ∀ (σ : Type) (calls : ListenerCalls σ) (w : σ), ∃ code t, code ≠ 0 ∧
    (startServer calls [text]).run w = ⟨.inl code, t, w⟩

/-- The server listens at this port, or nowhere because a call fails. -/
def ServerUses (text : CString) (n : ℤ) : Prop :=
  ∀ (σ : Type) (calls : ListenerCalls σ) (w : σ),
    (∀ server, ((startServer calls [text]).run w).val = .inr server → (server.port.toNat : ℤ) = n) ∧
    ((∀ w, (calls.socket w).1 = none ∧ (calls.setsockopt w).1 = none ∧
        (∀ server, (calls.bind server w).1 = none) ∧ (calls.listen w).1 = none) →
      ∃ server, ((startServer calls [text]).run w).val = .inr server)

/-- The agent refuses the text and connects to nothing. -/
def AgentRefuses (text : CString) : Prop :=
  ∀ (σ : Type) (k : Kernel σ) (argv0 prompt : CString) (w : σ), IsPrompt prompt →
    (recordedMain ν k argv0 [.lit "--port", text, prompt] w).val ≠ 0 ∧
      (recordedMain ν k argv0 [.lit "--port", text, prompt] w).world.2 = []

/-- Whatever the other arguments are, the agent connects only to the port that is given, and only
after its banner has named it. -/
def ContactsOnly (text : CString) (n : ℤ) : Prop :=
  ∀ (σ : Type) (k : Kernel σ) (argv0 : CString) (args : List CString) (w : σ),
    portArgument args = some text → ∀ server ∈ (recordedMain ν k argv0 args w).world.2,
      (server.port.toNat : ℤ) = n ∧ ∃ client ctx prompt, client.port = n ∧
        .stdout (banner client ctx prompt) ∈ (recordedMain ν k argv0 args w).trace

/-- The agent uses this port, once it gets a socket. -/
def AgentUses (text : CString) (n : ℤ) : Prop :=
  ContactsOnly ν text n ∧
    ∀ (σ : Type) (k : Kernel σ) (argv0 prompt : CString) (w : σ), IsPrompt prompt →
      (k.socket w).1 = true →
        (recordedMain ν k argv0 [.lit "--port", text, prompt] w).world.2 ≠ []

/-- Both programs refuse the text, or both use the port it stands for. -/
def AgreeOnPort (text : CString) (n : ℤ) : Prop :=
  ServerRefuses text ∧ AgentRefuses ν text ∨ ServerUses text n ∧ AgentUses ν text n

end

theorem toNat_ofInt {n : ℤ} (hlow : 0 ≤ n) (hhigh : n ≤ 65535) :
    ((UInt16.ofInt n).toNat : ℤ) = n := by
  rw [UInt16.ofInt, UInt16.toNat_ofNat']
  omega

/-! ### The server -/

theorem startServer_eq {text : CString} {n : ℤ} (htext : atoi text = n) (calls : ListenerCalls σ) :
    startServer calls [text] = if n ≤ 0 ∨ 65535 < n then do
        Traced.emit (.stderr (ascii "Invalid port number\n"))
        return .inl 1
      else listenOn calls n := by
  rw [startServer, htext]

theorem serverUses {text : CString} {n : ℤ} (htext : atoi text = n) (hlow : 1 ≤ n)
    (hhigh : n ≤ 65535) : ServerUses text n := by
  intro σ calls w
  rw [startServer_eq htext, if_neg (by omega)]
  constructor
  · intro server h
    suffices hport : server.port = UInt16.ofInt n by
      rw [hport, toNat_ofInt (by omega) hhigh]
    simp only [listenOn, orExit, Traced.run_bind, Traced.run_act] at h
    -- one call after the other fails, or the next one is made
    iterate 4
      split at h
      · cases h
      simp only [Traced.run_bind, Traced.run_act] at h
    cases h
    rfl
  · intro h
    simp [listenOn, orExit, h]

theorem not_serverUses {text : CString} {n m : ℤ} (htext : atoi text = n)
    (hn : n ≤ 0 ∨ 65535 < n) : ¬ ServerUses text m := by
  intro h
  obtain ⟨server, hserver⟩ := (h Unit ⟨fun w ↦ (none, w), fun w ↦ (none, w), fun _ w ↦ (none, w),
    fun w ↦ (none, w)⟩ ()).2 fun _ ↦ ⟨rfl, rfl, fun _ ↦ rfl, rfl⟩
  rw [startServer_eq htext, if_pos hn] at hserver
  cases hserver

/-! ### The agent -/

variable [CNumber ν]

/-- The agent with a port and a prompt. -/
theorem main_port (k : Kernel σ) (argv0 text : CString) {prompt : CString} (h : IsPrompt prompt) :
    main (ν := ν) k argv0 [.lit "--port", text, prompt] =
      let client := { Options.default.client with port := atoi text }
      Traced.emit (.stdout (banner client Options.default.ctx prompt)) >>= fun _ ↦
        agentRun k Options.default.ctx client prompt := by
  obtain ⟨hoption, hh⟩ := h
  have hhelp : prompt ≠ .lit "--help" := by
    rintro rfl
    exact hoption (by decide)
  have hlast (o : Options) (ho : o.prompt = none) :
      parseArguments (ν := ν) (σ := σ) argv0 [prompt] o =
        pure (.inr { o with prompt := some prompt }) := by
    simp [parseArguments, hhelp, hh, hoption, ho]
  have hparse : parseArguments (ν := ν) (σ := σ) argv0 [.lit "--port", text, prompt]
      Options.default = pure (.inr { Options.default with
        client := { Options.default.client with port := atoi text }, prompt := some prompt }) :=
    hlast { Options.default with client := { Options.default.client with port := atoi text } } rfl
  rw [main, if_neg (List.cons_ne_nil _ _), hparse]
  rfl

theorem connections_ne_nil (k : Kernel σ) (argv0 text : CString) {prompt : CString} {w : σ}
    (h : IsPrompt prompt) (hsocket : (k.socket w).1 = true) :
    (recordedMain ν k argv0 [.lit "--port", text, prompt] w).world.2 ≠ [] := by
  rw [recordedMain, main_port _ _ _ h]
  exact connections_agentRun_ne_nil (ν := ν) k Options.default.ctx
    { Options.default.client with port := atoi text } (w := (w, [])) hsocket inetPton_localClient
    prompt

variable (ν) in
theorem not_agentRefuses (text : CString) : ¬ AgentRefuses ν text := by
  intro h
  have hprompt : IsPrompt (.lit "hi") := ⟨by decide, by decide⟩
  exact connections_ne_nil (ν := ν) (w := []) (replay []) (.lit "agent_lite") text hprompt rfl
    (h _ (replay []) (.lit "agent_lite") (.lit "hi") [] hprompt).2

/-- A port is contacted as it was written. -/
theorem contactsOnly {text : CString} {n : ℤ} (htext : atoi text = n) (hlow : 0 ≤ n)
    (hhigh : n ≤ 65535) : ContactsOnly ν text n := by
  intro σ k argv0 args w hport server hserver
  obtain ⟨hworld, hoptions⟩ := run_parseArguments (ν := ν) argv0 (w, ([] : List SockAddr)) args
    Options.default
  have hargs : args ≠ [] := by
    rintro rfl
    cases hport
  simp only [recordedMain, main, if_neg hargs, Traced.run_bind] at hserver ⊢
  cases hval : ((parseArguments (ν := ν) argv0 args Options.default).run
      (w, ([] : List SockAddr))).val with
  | inl code =>
      simp only [hval, Traced.run_pure, hworld] at hserver
      cases hserver
  | inr o =>
      have hclient : o.client.port = n := by
        rw [hoptions o hval, hport]
        exact htext
      simp only [hval] at hserver ⊢
      cases hprompt : o.prompt with
      | none =>
          simp only [hprompt, Traced.run_bind, Traced.run_emit, Traced.run_pure, hworld, usage] at hserver
          cases hserver
      | some prompt =>
          simp only [hprompt, Traced.run_bind, Traced.run_emit, hworld] at hserver ⊢
          have hports := keeps_agentRun (ν := ν) (I := fun addrs ↦ ∀ server ∈ addrs,
            server.port = UInt16.ofInt o.client.port) k o.ctx o.client prompt
            (fun addrs addr h _ server hs ↦ by
              rcases List.mem_append.mp hs with hs | hs
              · exact h server hs
              · rw [List.mem_singleton.mp hs])
            (w, []) (fun _ h ↦ absurd h List.not_mem_nil) server hserver
          refine ⟨?_, o.client, o.ctx, prompt, hclient, ?_⟩
          · rw [hports, hclient, toNat_ofInt hlow hhigh]
          · simp

variable (ν) in
/-- **The port.**  For every decimal text that fits into an `int`, the two programs agree on the
port, and the agent contacts no other, if and only if the number is a port. -/
theorem agreeOnPort_iff {text : CString} {n : ℤ} (htext : IsDecimal text.bytes n)
    (hn : IsInt n) :
    AgreeOnPort ν text n ∧ ContactsOnly ν text n ↔ 1 ≤ n ∧ n ≤ 65535 := by
  have hatoi := atoi_of_isDecimal htext hn
  constructor
  · rintro ⟨⟨_, hrefuses⟩ | ⟨huses, _⟩, _⟩
    · exact absurd hrefuses (not_agentRefuses ν text)
    · by_contra hrange
      exact not_serverUses hatoi (by omega) huses
  · rintro ⟨hlow, hhigh⟩
    have hcontacts : ContactsOnly ν text n := contactsOnly hatoi (by omega) hhigh
    exact ⟨.inr ⟨serverUses hatoi hlow hhigh, hcontacts, fun _ k argv0 _ _ hprompt hsocket ↦
      connections_ne_nil k argv0 text hprompt hsocket⟩, hcontacts⟩

/-- The default port, written out. -/
theorem agreeOnPort_iff_8080 :
    IsDecimal (CString.lit "8080").bytes 8080 ∧ IsInt 8080 ∧
      (AgreeOnPort ℤ (.lit "8080") 8080 ∧ ContactsOnly ℤ (.lit "8080") 8080 ↔
        (1 : ℤ) ≤ 8080 ∧ (8080 : ℤ) ≤ 65535) :=
  have hdecimal : IsDecimal (CString.lit "8080").bytes (digitsValue (CString.lit "8080").bytes) :=
    .plain (by decide) (by decide)
  have hint : IsInt 8080 := ⟨by decide, by decide⟩
  ⟨hdecimal, hint, agreeOnPort_iff ℤ hdecimal hint⟩

/-- The server refuses the text `70000`; the agent connects to port 4464. -/
theorem not_agreeOnPort_70000 :
    (∀ calls : ListenerCalls Unit, ((startServer calls [.lit "70000"]).run ()).val = .inl 1) ∧
      (recordedMain ℤ (replay []) (.lit "agent_lite")
        [.lit "--port", .lit "70000", .lit "hi"] []).world.2 = [⟨[127, 0, 0, 1], 4464⟩] ∧
      ¬ AgreeOnPort ℤ (.lit "70000") 70000 := by
  refine ⟨fun _ ↦ rfl, by decide +kernel, ?_⟩
  have hatoi : atoi (.lit "70000") = 70000 := by decide +kernel
  rintro (⟨_, hrefuses⟩ | ⟨huses, _⟩)
  · exact not_agentRefuses ℤ _ hrefuses
  · exact not_serverUses hatoi (by decide) huses

end KernelTests.CAgent
