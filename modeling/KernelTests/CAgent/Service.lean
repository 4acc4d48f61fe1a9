import Mathlib.Data.List.Nodup
import Mathlib.Logic.Function.Basic
import KernelTests.CAgent.Transport
import KernelTests.Effects.Steps

/-!
# The accept loop

`simple_llm_server` serves one connection after the other.  This is the server as a
labelled machine beside any number of clients, which connect, send, hang up and are
reset in any order.  The error that a reset leaves is returned once, by the next call on
the connection; every further write raises `SIGPIPE`, for which `main` installs no
handler.  The loop goes on until a signal asks it to stop in exactly those runs that
contain no such write.
-/

namespace KernelTests.CAgent

open Effects

/-! ## The calls of write -/

section

variable (ν : Type) [CNumber ν] (c : Classifier)

/-- The calls of `write` with which `handle_client` answers what `read` delivered. -/
def clientWrites (read : Bytes) : List Bytes :=
  let buffer := CString.ofBytes read
  if read = [] then []
  else if hasPrefix (.lit "OPTIONS") buffer then
    responseWrites 200 "OK" "text/plain" (.lit "")
  else if hasPrefix (.lit "POST /v1/chat/completions") buffer then
    match extractBody buffer with
    | some body => responseWrites 200 "OK" "application/json" (handleChatCompletions ν c body)
    | none => responseWrites 400 "Bad Request" "application/json"
        (.lit "\x7b\"error\":\"No body\"\x7d")
  else if hasPrefix (.lit "GET / ") buffer ∨ hasPrefix (.lit "GET /health") buffer then
    responseWrites 200 "OK" "text/plain" (.lit "Simple LLM Server Running")
  else responseWrites 404 "Not Found" "text/plain" (.lit "Not Found")

/-- Together they transmit the reply, if the length of the completion is an `int`. -/
theorem flatten_clientWrites {read : Bytes}
    (h : ∀ body, extractBody (.ofBytes read) = some body →
      (handleChatCompletions ν c body).strlen < 2 ^ 31) :
    (clientWrites ν c read).flatten = (handleClient ν c read).getD [] := by
  simp only [clientWrites, handleClient]
  split
  · rfl
  · split
    · exact flatten_responseWrites _ _ _ (by decide)
    · split
      · cases hbody : extractBody (CString.ofBytes read) with
        | none => exact flatten_responseWrites _ _ _ (by decide)
        | some body => exact flatten_responseWrites _ _ _ (h body hbody)
      · split
        · exact flatten_responseWrites _ _ _ (by decide)
        · exact flatten_responseWrites _ _ _ (by decide)

end

namespace Service

/-! ## The machine -/

/-- The signals that matter to the server. -/
inductive Signal
  | int
  | term
  | pipe
  deriving DecidableEq

/-- The signals for which `main` installs `signal_handler`. -/
def handled : List Signal := [.int, .term]

/-- How a connection stands. -/
inductive Link
  /-- It is not reset. -/
  | intact
  /-- It is reset, and the next call on it returns the error. -/
  | failing
  /-- It is reset, and there is no error left to return. -/
  | broken
  deriving DecidableEq

/-- A client's connection. -/
structure Connection where
  /-- The client has connected. -/
  connected : Bool := false
  /-- What the client has sent and the server not read. -/
  pending : Bytes := []
  /-- The client has closed its end, or died. -/
  gone : Bool := false
  /-- Whether it is reset. -/
  link : Link := .intact
  /-- What the server has written. -/
  received : Bytes := []

/-- Where the server process is. -/
inductive Phase (ι : Type)
  /-- At the condition of the loop. -/
  | loop
  /-- In `accept`. -/
  | accepting
  /-- In the `read` of `handle_client`. -/
  | reading (i : ι)
  /-- Behind it, with these calls of `write` to go before the `close`. -/
  | serving (i : ι) (writes : List Bytes)
  /-- Left the loop. -/
  | exited
  /-- Terminated by a signal. -/
  | killed
  deriving DecidableEq

/-- The server and its clients. -/
structure State (ι : Type) where
  /-- The connections, by client. -/
  connections : ι → Connection := fun _ ↦ {}
  /-- The connections that wait to be accepted. -/
  queue : List ι := []
  /-- Where the server is. -/
  phase : Phase ι := .loop
  /-- `keep_running` -/
  keepRunning : Bool := true

/-- What can happen next. -/
inductive Event (ι : Type)
  /-- A client connects. -/
  | connect (i : ι)
  /-- It sends a request, or a part of one. -/
  | send (i : ι) (data : Bytes)
  /-- It hangs up or is killed. -/
  | disconnect (i : ι)
  /-- Its connection is reset.  Whether an error is left for the next call depends on whether the
  stream of the client had ended before. -/
  | reset (i : ι) (error : Bool)
  /-- `SIGINT` is delivered. -/
  | interrupt
  /-- `SIGTERM` is delivered. -/
  | terminate
  /-- The server evaluates `while (keep_running)`. -/
  | check
  /-- `accept` returns the next connection. -/
  | accept
  /-- `accept` returns an error. -/
  | acceptFailed
  /-- `read` returns what has arrived, or zero at the end of the stream. -/
  | read
  /-- `read` returns an error. -/
  | readFailed
  /-- `write` writes everything, or fails. -/
  | write
  /-- A signal interrupts `write` after some bytes. -/
  | shortWrite (n : ℕ)
  /-- The server closes the connection. -/
  | close

variable {ι : Type}

/-- The connection that is served. -/
def Phase.current : Phase ι → Option ι
  | .reading i => some i
  | .serving i _ => some i
  | _ => none

/-- The process has left its loop or is gone. -/
def Phase.Stopped : Phase ι → Prop
  | .exited | .killed => True
  | _ => False

instance (phase : Phase ι) : Decidable phase.Stopped := by
  cases phase <;> unfold Phase.Stopped <;> infer_instance

namespace Event

/-- A signal is delivered to the server. -/
def isSignal : Event ι → Bool
  | interrupt | terminate => true
  | _ => false

/-- The server works on a connection. -/
def isService : Event ι → Bool
  | accept | read | readFailed | write | shortWrite _ | close => true
  | _ => false

/-- The server takes the step. -/
def isServer : Event ι → Bool
  | check | acceptFailed => true
  | e => e.isService

/-- The server writes. -/
def isWrite : Event ι → Bool
  | write => true
  | _ => false

/-- The client that takes the step, if it does more than connect. -/
def client : Event ι → Option ι
  | send i _ | disconnect i | reset i _ => some i
  | _ => none

/-- A signal comes from outside. -/
theorem isServer_of_isSignal {e : Event ι} (h : e.isSignal = true) : e.isServer = false := by
  cases e <;> first | rfl | cases h

/-- The server speaks for itself. -/
theorem isServer_of_client {e : Event ι} {i : ι} (h : e.client = some i) : e.isServer = false := by
  cases e <;> first | rfl | cases h

end Event

variable [DecidableEq ι]

namespace State

/-- Replace a connection. -/
def set (s : State ι) (i : ι) (conn : Connection) : State ι :=
  { s with connections := Function.update s.connections i conn }

@[simp] theorem set_connections_self (s : State ι) (i : ι) (conn : Connection) :
    (s.set i conn).connections i = conn := Function.update_self _ _ _

theorem set_connections_of_ne (s : State ι) {i j : ι} (h : j ≠ i) (conn : Connection) :
    (s.set i conn).connections j = s.connections j := Function.update_of_ne h _ _

@[simp] theorem set_queue (s : State ι) (i : ι) (conn : Connection) :
    (s.set i conn).queue = s.queue := rfl

@[simp] theorem set_keepRunning (s : State ι) (i : ι) (conn : Connection) :
    (s.set i conn).keepRunning = s.keepRunning := rfl

omit [DecidableEq ι] in
/-- A signal: `signal_handler` clears `keep_running`, the default action terminates. -/
def deliver (s : State ι) (sig : Signal) : State ι :=
  if sig ∈ handled then { s with keepRunning := false } else { s with phase := .killed }

end State

variable (ν : Type) [CNumber ν] (c : Classifier)

/-- One step of the clients, of the system or of the server. -/
def step (s : State ι) : Event ι → Option (State ι)
  | .connect i =>
    if (s.connections i).connected then none
    else some { s.set i { connected := true } with queue := s.queue ++ [i] }
  | .send i data =>
    let conn := s.connections i
    if conn.connected ∧ ¬ conn.gone then
      some (s.set i { conn with pending := conn.pending ++ data })
    else none
  | .disconnect i =>
    let conn := s.connections i
    if conn.connected ∧ ¬ conn.gone then some (s.set i { conn with gone := true }) else none
  | .reset i error =>
    let conn := s.connections i
    if conn.gone ∧ conn.link = .intact then
      some (s.set i { conn with link := if error then .failing else .broken })
    else none
  | .interrupt => if s.phase.Stopped then none else some (s.deliver .int)
  | .terminate => if s.phase.Stopped then none else some (s.deliver .term)
  | .check =>
    match s.phase with
    | .loop => some { s with phase := if s.keepRunning then .accepting else .exited }
    | _ => none
  | .accept =>
    match s.phase, s.queue with
    | .accepting, i :: queue => some { s with phase := .reading i, queue := queue }
    | _, _ => none
  | .acceptFailed =>
    match s.phase with
    | .accepting => some { s with phase := if s.keepRunning then .loop else .exited }
    | _ => none
  | .read =>
    match s.phase with
    | .reading i =>
      let conn := s.connections i
      if conn.pending ≠ [] then
        -- `sizeof(buffer) - 1` bytes at most
        some { s.set i { conn with pending := conn.pending.drop 65535 } with
          phase := .serving i (clientWrites ν c (conn.pending.take 65535)) }
      else if conn.gone ∧ conn.link ≠ .failing then some { s with phase := .serving i [] }
      else none
    | _ => none
  | .readFailed =>
    match s.phase with
    | .reading i =>
      let conn := s.connections i
      if conn.link = .failing then
        some { s.set i { conn with link := .broken } with phase := .serving i [] }
      -- or a signal has interrupted the call
      else if ¬ s.keepRunning then some { s with phase := .serving i [] }
      else none
    | _ => none
  | .write =>
    match s.phase with
    | .serving i (data :: writes) =>
      let conn := s.connections i
      match conn.link with
      | .intact => some { s.set i { conn with received := conn.received ++ data } with
          phase := .serving i writes }
      -- `send_http_response` looks at no result of `write`
      | .failing => some { s.set i { conn with link := .broken } with phase := .serving i writes }
      | .broken => some ({ s with phase := .serving i writes }.deliver .pipe)
    | _ => none
  | .shortWrite n =>
    match s.phase with
    | .serving i (data :: writes) =>
      let conn := s.connections i
      if conn.link ≠ .intact ∨ s.keepRunning then none
      else some { s.set i { conn with received := conn.received ++ data.take n } with
        phase := .serving i writes }
    | _ => none
  | .close =>
    match s.phase with
    | .serving _ [] => some { s with phase := .loop }
    | _ => none

variable {ν c} {s t : State ι} {e : Event ι}

/-! ## What a step can do -/

/-- The steps, one by one, each with its guard. -/
inductive Moves (ν : Type) [CNumber ν] (c : Classifier) (s : State ι) : Event ι → State ι → Prop
  | connect {i : ι} (hnew : (s.connections i).connected = false) :
      Moves ν c s (.connect i) { s.set i { connected := true } with queue := s.queue ++ [i] }
  | send {i : ι} {data : Bytes} (hgone : (s.connections i).gone = false) :
      Moves ν c s (.send i data) (s.set i
        { s.connections i with pending := (s.connections i).pending ++ data })
  | disconnect {i : ι} :
      Moves ν c s (.disconnect i) (s.set i { s.connections i with gone := true })
  | reset {i : ι} {error : Bool} (hgone : (s.connections i).gone = true) :
      Moves ν c s (.reset i error) (s.set i
        { s.connections i with link := if error then .failing else .broken })
  | signal {e : Event ι} (he : e.isSignal = true) (hs : ¬ s.phase.Stopped) :
      Moves ν c s e { s with keepRunning := false }
  | check (hphase : s.phase = .loop) :
      Moves ν c s .check { s with phase := if s.keepRunning then .accepting else .exited }
  | acceptFailed (hphase : s.phase = .accepting) :
      Moves ν c s .acceptFailed { s with phase := if s.keepRunning then .loop else .exited }
  | accept {i : ι} {queue : List ι} (hphase : s.phase = .accepting)
      (hqueue : s.queue = i :: queue) :
      Moves ν c s .accept { s with phase := .reading i, queue := queue }
  | read {i : ι} (hphase : s.phase = .reading i) (hdata : (s.connections i).pending ≠ []) :
      Moves ν c s .read { s.set i
        { s.connections i with pending := (s.connections i).pending.drop 65535 } with
        phase := .serving i (clientWrites ν c ((s.connections i).pending.take 65535)) }
  | readEnd {i : ι} (hphase : s.phase = .reading i) (hdata : (s.connections i).pending = []) :
      Moves ν c s .read { s with phase := .serving i [] }
  | readFailed {i : ι} (hphase : s.phase = .reading i) (hlink : (s.connections i).link = .failing) :
      Moves ν c s .readFailed { s.set i { s.connections i with link := .broken } with
        phase := .serving i [] }
  | readInterrupted {i : ι} (hphase : s.phase = .reading i) (hcause : s.keepRunning = false) :
      Moves ν c s .readFailed { s with phase := .serving i [] }
  | write {i : ι} {data : Bytes} {writes : List Bytes}
      (hphase : s.phase = .serving i (data :: writes)) (hlink : (s.connections i).link = .intact) :
      Moves ν c s .write { s.set i
        { s.connections i with received := (s.connections i).received ++ data } with
        phase := .serving i writes }
  | writeFailed {i : ι} {data : Bytes} {writes : List Bytes}
      (hphase : s.phase = .serving i (data :: writes)) (hlink : (s.connections i).link = .failing) :
      Moves ν c s .write { s.set i { s.connections i with link := .broken } with
        phase := .serving i writes }
  | broken {i : ι} {data : Bytes} {writes : List Bytes}
      (hphase : s.phase = .serving i (data :: writes)) (hlink : (s.connections i).link = .broken) :
      Moves ν c s .write { s with phase := .killed }
  | shortWrite {i : ι} {data : Bytes} {writes : List Bytes} {n : ℕ}
      (hphase : s.phase = .serving i (data :: writes)) (hcause : s.keepRunning = false) :
      Moves ν c s (.shortWrite n) { s.set i
        { s.connections i with received := (s.connections i).received ++ data.take n } with
        phase := .serving i writes }
  | close {i : ι} (hphase : s.phase = .serving i []) :
      Moves ν c s .close { s with phase := .loop }

/-- A step changes `keep_running` only by a signal. -/
theorem Moves.keepRunning (h : Moves ν c s e t) :
    t.keepRunning = (s.keepRunning && !e.isSignal) := by
  cases h with
  | signal he => simp [he]
  | _ => simp [Event.isSignal]

/-- A stopped process stays as it is. -/
theorem Moves.stopped (h : Moves ν c s e t) (hs : s.phase.Stopped) :
    t.phase = s.phase ∧ t.keepRunning = s.keepRunning := by
  cases h with
  | connect | send | disconnect | reset => exact ⟨rfl, rfl⟩
  | signal he hrunning => exact absurd hs hrunning
  | check hphase | acceptFailed hphase | accept hphase | read hphase | readEnd hphase
  | readFailed hphase | readInterrupted hphase | write hphase | writeFailed hphase | broken hphase
  | shortWrite hphase | close hphase =>
    rw [hphase] at hs
    exact hs.elim

variable (s e) in
/-- The step is no write to a connection that is reset and has no error left to return, unless a
signal has been delivered. -/
def Clean : Prop :=
  e.isWrite → s.keepRunning = true → ∀ i, s.phase.current = some i →
    (s.connections i).link ≠ .broken

/-- A signal was delivered on the way. -/
def Signalled (es : List (Event ι)) : Prop := ∃ e ∈ es, e.isSignal = true

variable {es : List (Event ι)} {allowed : State ι → Event ι → Prop}

end Service

end KernelTests.CAgent
