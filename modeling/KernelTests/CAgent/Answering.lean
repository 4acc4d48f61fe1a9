import KernelTests.CAgent.Service

/-!
# Answering every request

The connections wait in line and are served one after the other.  A request that waits
is brought forward by every call the server makes for a connection, so it is answered
after as many calls as the line in front of it takes; the only thing that can hold the
server up on the way is a client that connects and stays silent.
-/

namespace KernelTests.CAgent

namespace Service

open Effects

variable {ι : Type} [DecidableEq ι] {ν : Type} [CNumber ν] {c : Classifier} {s t : State ι}
  {e : Event ι}

/-! ## The line of connections -/

/-- The line of connections either grows by a new one, or moves up, or stays. -/
theorem Moves.line (h : Moves ν c s e t) :
    (∃ i, e = .connect i ∧ (s.connections i).connected = false ∧ t.queue = s.queue ++ [i] ∧
      t.phase = s.phase) ∨
    (∃ i, s.phase = .accepting ∧ s.queue = i :: t.queue ∧ t.phase = .reading i) ∨
    (t.queue = s.queue ∧ (t.phase = s.phase ∨
      ∀ i, t.phase.current = some i → s.phase.current = some i ∧ t.phase ≠ .reading i)) := by
  cases h with
  | connect hnew => exact .inl ⟨_, rfl, hnew, rfl, rfl⟩
  | send | disconnect | reset | signal => exact .inr (.inr ⟨rfl, .inl rfl⟩)
  | accept hphase hqueue => exact .inr (.inl ⟨_, hphase, hqueue, rfl⟩)
  | check | acceptFailed =>
    refine .inr (.inr ⟨rfl, .inr fun i hi ↦ ?_⟩)
    cases hk : s.keepRunning <;> simp only [hk] at hi <;> cases hi
  | broken | close => exact .inr (.inr ⟨rfl, .inr fun i hi ↦ nomatch hi⟩)
  | read hphase | readEnd hphase | readFailed hphase | readInterrupted hphase | write hphase
  | writeFailed hphase | shortWrite hphase =>
    refine .inr (.inr ⟨rfl, .inr fun i hi ↦ ⟨?_, nofun⟩⟩)
    cases hi
    rw [hphase]
    rfl

/-- A step leaves a connection as it is, or the client connects, or sends or hangs up, or the
server reads from it or writes to it. -/
theorem Moves.connection (h : Moves ν c s e t) (i : ι) :
    t.connections i = s.connections i ∨
    (e = .connect i ∧ t.connections i = { connected := true }) ∨
    (e.client = some i ∧ ∃ pending gone link, t.connections i =
      { s.connections i with pending := pending, gone := gone, link := link } ∧
      (link = (s.connections i).link ∨ (s.connections i).gone = true) ∧
      ((s.connections i).gone = true → gone = true)) ∨
    (s.phase.current = some i ∧ t.phase.current = some i ∧ t.phase ≠ .reading i ∧
      ∃ pending received link, t.connections i =
        { s.connections i with pending := pending, received := received, link := link } ∧
      (link = (s.connections i).link ∨ (s.connections i).link ≠ .intact)) := by
  cases h with
  | signal | check | acceptFailed | accept | readEnd | readInterrupted | broken | close =>
    exact .inl rfl
  | @connect j =>
    by_cases hij : i = j
    · cases hij
      exact .inr (.inl ⟨rfl, s.set_connections_self i _⟩)
    · exact .inl (s.set_connections_of_ne hij _)
  | @send j data hgone =>
    by_cases hij : i = j
    · cases hij
      exact .inr (.inr (.inl ⟨rfl, _, _, _, s.set_connections_self i _, .inl rfl, id⟩))
    · exact .inl (s.set_connections_of_ne hij _)
  | @disconnect j =>
    by_cases hij : i = j
    · cases hij
      exact .inr (.inr (.inl ⟨rfl, _, _, _, s.set_connections_self i _, .inl rfl,
        fun _ ↦ rfl⟩))
    · exact .inl (s.set_connections_of_ne hij _)
  | @reset j _ hgone =>
    by_cases hij : i = j
    · cases hij
      exact .inr (.inr (.inl ⟨rfl, _, _, _, s.set_connections_self i _, .inr hgone, id⟩))
    · exact .inl (s.set_connections_of_ne hij _)
  | @read j hphase | @write j _ _ hphase | @shortWrite j _ _ _ hphase =>
    by_cases hij : i = j
    · cases hij
      exact .inr (.inr (.inr ⟨by rw [hphase]; rfl, rfl, nofun, _, _, _,
        s.set_connections_self i _, .inl rfl⟩))
    · exact .inl (s.set_connections_of_ne hij _)
  | @readFailed j hphase hlink | @writeFailed j _ _ hphase hlink =>
    by_cases hij : i = j
    · cases hij
      exact .inr (.inr (.inr ⟨by rw [hphase]; rfl, rfl, nofun, _, _, _,
        s.set_connections_self i _, .inr (by rw [hlink]; decide)⟩))
    · exact .inl (s.set_connections_of_ne hij _)

/-- What holds of the line and of the connections in every run. -/
structure Orderly (s : State ι) : Prop where
  /-- No connection waits twice. -/
  nodup : s.queue.Nodup
  /-- The connection that is served does not wait. -/
  notMem : ∀ i, s.phase.current = some i → i ∉ s.queue
  /-- What waits or is served has connected. -/
  connected : ∀ i, i ∈ s.queue ∨ s.phase.current = some i → (s.connections i).connected = true
  /-- Nothing is written before the request is read. -/
  untouched : ∀ i, i ∈ s.queue ∨ s.phase = .reading i → (s.connections i).received = []
  /-- A reset follows a hang-up. -/
  gone : ∀ i, (s.connections i).link ≠ .intact → (s.connections i).gone = true

/-- Whoever waits after a step did so before, or has just connected. -/
theorem Moves.mem_queue (h : Moves ν c s e t) {i : ι} (hi : i ∈ t.queue) :
    e = .connect i ∨ i ∈ s.queue := by
  rcases h.line with ⟨j, rfl, _, hqueue, _⟩ | ⟨j, _, hqueue, _⟩ | ⟨hqueue, _⟩
  · rw [hqueue, List.mem_append, List.mem_singleton] at hi
    rcases hi with hi | rfl
    · exact .inr hi
    · exact .inl rfl
  · exact .inr (hqueue ▸ List.mem_cons_of_mem _ hi)
  · exact .inr (hqueue ▸ hi)

/-- Whoever is served after a step waited or was served before. -/
theorem Moves.mem_current (h : Moves ν c s e t) {i : ι} (hi : t.phase.current = some i) :
    i ∈ s.queue ∨ s.phase.current = some i := by
  rcases h.line with ⟨_, _, _, _, hphase⟩ | ⟨j, _, hqueue, hphase⟩ | ⟨_, hphase | hphase⟩
  · exact .inr (hphase ▸ hi)
  · rw [hphase] at hi
    cases hi
    exact .inl (hqueue ▸ List.mem_cons_self)
  · exact .inr (hphase ▸ hi)
  · exact .inr (hphase i hi).1

/-- Likewise for whoever is waited for to send. -/
theorem Moves.mem_reading (h : Moves ν c s e t) {i : ι} (hi : t.phase = .reading i) :
    i ∈ s.queue ∨ s.phase = .reading i := by
  rcases h.line with ⟨_, _, _, _, hphase⟩ | ⟨j, _, hqueue, hphase⟩ | ⟨_, hphase | hphase⟩
  · exact .inr (hphase ▸ hi)
  · rw [hphase] at hi
    cases hi
    exact .inl (hqueue ▸ List.mem_cons_self)
  · exact .inr (hphase ▸ hi)
  · exact absurd hi (hphase i (by rw [hi]; rfl)).2

/-- Whoever waits or is served after a step did so before, or has just connected. -/
theorem Moves.mem_line (h : Moves ν c s e t) {i : ι}
    (hi : i ∈ t.queue ∨ t.phase.current = some i) :
    e = .connect i ∨ i ∈ s.queue ∨ s.phase.current = some i :=
  hi.elim (fun hi ↦ (h.mem_queue hi).imp_right .inl) fun hi ↦ .inr (h.mem_current hi)

/-- Likewise for the connections from which nothing has been read. -/
theorem Moves.mem_unread (h : Moves ν c s e t) {i : ι} (hi : i ∈ t.queue ∨ t.phase = .reading i) :
    e = .connect i ∨ i ∈ s.queue ∨ s.phase = .reading i :=
  hi.elim (fun hi ↦ (h.mem_queue hi).imp_right .inl) fun hi ↦ .inr (h.mem_reading hi)

/-- A new connection. -/
theorem Moves.connect_self {i : ι} (h : Moves ν c s (.connect i) t) :
    t.connections i = { connected := true } := by
  cases h with
  | connect => exact s.set_connections_self i _
  | signal he => cases he

/-- Nobody becomes a stranger. -/
theorem Moves.connected (h : Moves ν c s e t) {i : ι}
    (hi : e = .connect i ∨ (s.connections i).connected = true) :
    (t.connections i).connected = true := by
  rcases hi with rfl | hi
  · rw [h.connect_self]
  · rcases h.connection i with heq | ⟨_, heq⟩ | ⟨_, _, _, _, heq, _⟩ |
      ⟨_, _, _, _, _, _, heq, _⟩ <;>
      simp only [heq, hi]

/-- Every step keeps the order. -/
theorem Moves.orderly (h : Moves ν c s e t) (hs : Orderly s) : Orderly t := by
  have hconnected : ∀ i, i ∈ t.queue ∨ t.phase.current = some i →
      (t.connections i).connected = true := fun i hi ↦
    h.connected ((h.mem_line hi).imp_right (hs.connected i))
  have hnotMem : ∀ i, t.phase.current = some i → i ∉ t.queue := by
    intro i hi
    rcases h.line with ⟨j, rfl, hnew, hqueue, hphase⟩ | ⟨j, _, hqueue, hphase⟩ | ⟨hqueue, hphase⟩
    · rw [hphase] at hi
      rw [hqueue, List.mem_append, List.mem_singleton, not_or]
      refine ⟨hs.notMem i hi, ?_⟩
      rintro rfl
      rw [hs.connected i (.inr hi)] at hnew
      cases hnew
    · rw [hphase] at hi
      cases hi
      exact (List.nodup_cons.mp (hqueue ▸ hs.nodup)).1
    · rw [hqueue]
      rcases hphase with hphase | hphase
      · exact hs.notMem i (hphase ▸ hi)
      · exact hs.notMem i (hphase i hi).1
  refine ⟨?_, hnotMem, hconnected, fun i hi ↦ ?_, fun i hreset ↦ ?_⟩
  · rcases h.line with ⟨i, _, hnew, hqueue, _⟩ | ⟨i, _, hqueue, _⟩ | ⟨hqueue, _⟩
    · rw [hqueue]
      refine List.nodup_append.mpr ⟨hs.nodup, List.nodup_singleton i, fun j hj k hk ↦ ?_⟩
      rintro rfl
      rw [← List.mem_singleton.mp hk, hs.connected j (.inl hj)] at hnew
      cases hnew
    · exact (List.nodup_cons.mp (hqueue ▸ hs.nodup)).2
    · rw [hqueue]
      exact hs.nodup
  · rcases h.mem_unread hi with rfl | hunread
    · rw [h.connect_self]
    · rcases h.connection i with heq | ⟨_, heq⟩ | ⟨_, _, _, _, heq, _⟩ | ⟨_, hcurrent, hne, _⟩
      · rw [heq, hs.untouched i hunread]
      · rw [heq]
      · rw [heq, hs.untouched i hunread]
      · rcases hi with hi | hi
        · exact absurd hi (hnotMem i hcurrent)
        · exact absurd hi hne
  · rcases h.connection i with heq | ⟨rfl, heq⟩ | ⟨_, _, _, _, heq, hr, hg⟩ |
      ⟨_, _, _, _, _, _, heq, hr⟩
    · rw [heq] at hreset ⊢
      exact hs.gone i hreset
    · rw [heq] at hreset
      exact absurd rfl hreset
    · rw [heq] at hreset ⊢
      exact hg (hr.elim (fun hlink ↦ hs.gone i (hlink ▸ hreset)) id)
    · rw [heq] at hreset ⊢
      exact hs.gone i (hr.elim (fun hlink ↦ hlink ▸ hreset) id)

/-! ## Bringing a request forward -/

/-- The calls that are left for the connection that is served. -/
def Phase.remaining : Phase ι → ℕ
  | .reading _ => 4
  | .serving _ writes => writes.length + 1
  | _ => 0

variable (ν c) in
/-- The whole reply to a request has been written to the client, and its connection closed. -/
structure Answered (s : State ι) (i : ι) (request : Bytes) : Prop where
  connected : (s.connections i).connected = true
  away : ¬ (i ∈ s.queue ∨ s.phase.current = some i)
  received : (s.connections i).received = (clientWrites ν c request).flatten

theorem Moves.answered (h : Moves ν c s e t) {i : ι} {request : Bytes}
    (hs : Answered ν c s i request) : Answered ν c t i request := by
  have hne : e ≠ .connect i := by
    rintro rfl
    cases h with
    | connect hnew => rw [hs.connected] at hnew; cases hnew
    | signal he => cases he
  refine ⟨h.connected (.inr hs.connected), fun hi ↦ ?_, ?_⟩
  · rcases h.mem_line hi with he | hi
    · exact hne he
    · exact hs.away hi
  · rcases h.connection i with heq | ⟨he, _⟩ | ⟨_, _, _, _, heq, _⟩ | ⟨hcurrent, _⟩
    · rw [heq, hs.received]
    · exact absurd he hne
    · rw [heq, hs.received]
    · exact absurd (.inr hcurrent) hs.away

/-- The others do not touch a client's connection, nor the server's place in its program. -/
theorem Moves.bystander (h : Moves ν c s e t) {i : ι} (hserver : e.isServer = false)
    (hclient : e.client ≠ some i) (hi : (s.connections i).connected = true) :
    t.connections i = s.connections i ∧ t.phase = s.phase ∧ (i ∈ s.queue → i ∈ t.queue) := by
  cases h with
  | @connect j hnew =>
    have hij : i ≠ j := by
      rintro rfl
      rw [hi] at hnew
      cases hnew
    exact ⟨s.set_connections_of_ne hij _, rfl, List.mem_append_left _⟩
  | @send j | @disconnect j | @reset j =>
    have hij : i ≠ j := fun hij ↦ hclient (congrArg some hij.symm)
    exact ⟨s.set_connections_of_ne hij _, rfl, id⟩
  | signal => exact ⟨rfl, rfl, id⟩
  | check | acceptFailed | accept | read | readEnd | readFailed | readInterrupted | write
  | writeFailed | broken | shortWrite | close => cases hserver

variable (ν c) in
/-- The request of a client is on its way to the reply: unread in line, unread in service, or
read, with the rest of the reply to come. -/
inductive Owed (s : State ι) (i : ι) (request : Bytes) : Prop
  | waiting (hqueue : i ∈ s.queue) (hpending : (s.connections i).pending = request)
  | reading (hphase : s.phase = .reading i) (hpending : (s.connections i).pending = request)
  | serving {writes : List Bytes} (hphase : s.phase = .serving i writes)
      (hreceived : (s.connections i).received ++ writes.flatten =
        (clientWrites ν c request).flatten)

omit [DecidableEq ι] in
theorem Owed.mem_line {i : ι} {request : Bytes} (h : Owed ν c s i request) :
    i ∈ s.queue ∨ s.phase.current = some i := by
  rcases h with ⟨hqueue, _⟩ | ⟨hphase, _⟩ | ⟨hphase, _⟩
  · exact .inl hqueue
  · exact .inr (by rw [hphase]; rfl)
  · exact .inr (by rw [hphase]; rfl)

variable (i : ι) (s e) in
/-- The step is clean, no signal, and none of client `i`, which waits for its reply. -/
structure Patient : Prop where
  clean : Clean s e
  noSignal : e.isSignal = false
  client : e.client ≠ some i

/-- A request that one `read` can take. -/
def IsRequest (request : Bytes) : Prop := request ≠ [] ∧ request.length ≤ 65535

/-- The server's own steps bring a request forward, and drop none. -/
theorem Moves.owed_of_isServer (h : Moves ν c s e t) (hs : Orderly s) {i : ι} {request : Bytes}
    (hserver : e.isServer = true) (hrequest : IsRequest request) (hk : s.keepRunning = true)
    (hgone : (s.connections i).gone = false) (hclean : Clean s e) (howed : Owed ν c s i request) :
    Owed ν c t i request ∨ Answered ν c t i request := by
  have hlink : (s.connections i).link = .intact := by_contra fun hlink ↦ by
    rw [hs.gone i hlink] at hgone
    cases hgone
  rcases howed with ⟨hqueue, hpending⟩ | ⟨hphase, hpending⟩ | @⟨writes, hphase, hreceived⟩
  · have hsame : t.connections i = s.connections i := by
      rcases h.connection i with heq | ⟨rfl, _⟩ | ⟨he, _⟩ | ⟨hcurrent, _⟩
      · exact heq
      · cases hserver
      · rw [Event.isServer_of_client he] at hserver
        cases hserver
      · exact absurd hqueue (hs.notMem i hcurrent)
    rw [← hsame] at hpending
    rcases h.line with ⟨j, rfl, _⟩ | ⟨j, _, hline, hphase⟩ | ⟨hline, _⟩
    · cases hserver
    · rcases List.mem_cons.mp (hline ▸ hqueue) with rfl | hmem
      · exact .inl (.reading hphase hpending)
      · exact .inl (.waiting hmem hpending)
    · exact .inl (.waiting (hline ▸ hqueue) hpending)
  · have hreceived := hs.untouched i (.inr hphase)
    cases h with
    | @read j hphase' =>
      cases hphase.symm.trans hphase'
      rw [hpending, List.take_of_length_le hrequest.2]
      refine .inl (.serving rfl ?_)
      simp [hreceived]
    | @readEnd j hphase' hdata =>
      cases hphase.symm.trans hphase'
      exact absurd (hpending.symm.trans hdata) hrequest.1
    | @readFailed j hphase' hlink' =>
      cases hphase.symm.trans hphase'
      cases hlink.symm.trans hlink'
    | readInterrupted _ hcause =>
      rw [hk] at hcause
      cases hcause
    | check hphase' | acceptFailed hphase' | accept hphase' | write hphase' | writeFailed hphase'
    | broken hphase' | shortWrite hphase' | close hphase' => cases hphase.symm.trans hphase'
    | connect | send | disconnect | reset => cases hserver
    | signal he => rw [Event.isServer_of_isSignal he] at hserver; cases hserver
  · cases h with
    | @write j data writes hphase' =>
      cases hphase.symm.trans hphase'
      refine .inl (.serving rfl ?_)
      simpa using hreceived
    | @writeFailed j data writes hphase' hlink' | @broken j data writes hphase' hlink' =>
      cases hphase.symm.trans hphase'
      cases hlink.symm.trans hlink'
    | shortWrite _ hcause =>
      rw [hk] at hcause
      cases hcause
    | @close j hphase' =>
      cases hphase.symm.trans hphase'
      have hcurrent : s.phase.current = some i := by rw [hphase]; rfl
      refine .inr ⟨hs.connected i (.inr hcurrent), ?_, ?_⟩
      · rintro (hi | hi)
        · exact hs.notMem i hcurrent hi
        · cases hi
      · simpa using hreceived
    | check hphase' | acceptFailed hphase' | accept hphase' | read hphase' | readEnd hphase'
    | readFailed hphase' | readInterrupted hphase' => cases hphase.symm.trans hphase'
    | connect | send | disconnect | reset => cases hserver
    | signal he => rw [Event.isServer_of_isSignal he] at hserver; cases hserver

/-- Whatever happens, a request that is owed a reply is still owed it, or answered. -/
theorem Moves.owed (h : Moves ν c s e t) (hs : Orderly s) {i : ι} {request : Bytes}
    (hrequest : IsRequest request) (hk : s.keepRunning = true)
    (hgone : (s.connections i).gone = false) (hpatient : Patient s e i)
    (howed : Owed ν c s i request) :
    (t.connections i).gone = false ∧ (Owed ν c t i request ∨ Answered ν c t i request) := by
  have hconnected := hs.connected i howed.mem_line
  cases hserver : e.isServer with
  | false =>
    obtain ⟨heq, hphase, hqueue⟩ := h.bystander hserver hpatient.client hconnected
    rw [heq]
    refine ⟨hgone, .inl ?_⟩
    rcases howed with ⟨hmem, hpending⟩ | ⟨hp, hpending⟩ | ⟨hp, hreceived⟩
    · exact .waiting (hqueue hmem) (heq ▸ hpending)
    · exact .reading (hphase.trans hp) (heq ▸ hpending)
    · exact .serving (hphase.trans hp) (heq ▸ hreceived)
  | true =>
    refine ⟨?_, h.owed_of_isServer hs hserver hrequest hk hgone hpatient.clean howed⟩
    rcases h.connection i with heq | ⟨_, heq⟩ | ⟨he, _⟩ | ⟨_, _, _, _, _, _, heq, _⟩
    · rw [heq, hgone]
    · rw [heq]
    · exact absurd he hpatient.client
    · rw [heq, hgone]

/-- The server waits for a client that is silent: it has connected, but neither sent anything nor
hung up. -/
def Silent (s : State ι) : Prop :=
  ∃ i, s.phase = .reading i ∧ (s.connections i).pending = [] ∧ (s.connections i).gone = false

variable (ν c) in
/-- A request is answered: in every continuation in which the client waits for its reply, at most
five calls for each connection in line and for the one in service later the reply is written, and
until then the server can go on unless it waits for a silent client. -/
structure Served (s : State ι) (i : ι) (request : Bytes) : Prop where
  answered : ∀ es t, Steps (step ν c) (fun u e ↦ Patient u e i) s es t →
    5 * (s.queue.idxOf i + 2) ≤ es.countP Event.isService → Answered ν c t i request
  live : ∀ es t, Steps (step ν c) (fun u e ↦ Patient u e i) s es t →
    Answered ν c t i request ∨ Silent t ∨ ∃ e, e.isServer = true ∧ (step ν c t e).isSome

/-! ## Whole runs -/

variable (ν c) in
/-- What a run keeps while a client waits for its reply. -/
structure Attended (i : ι) (request : Bytes) (s : State ι) : Prop where
  running : ¬ s.phase.Stopped
  keepRunning : s.keepRunning = true
  orderly : Orderly s
  owed : Answered ν c s i request ∨ (s.connections i).gone = false ∧ Owed ν c s i request

/-- A server that is running can go on, unless it waits for a connection or a request. -/
theorem Attended.live {i : ι} {request : Bytes} (h : Attended ν c i request s) :
    Answered ν c s i request ∨ Silent s ∨ ∃ e, e.isServer = true ∧ (step ν c s e).isSome := by
  rcases h.owed with hanswered | ⟨_, howed⟩
  · exact .inl hanswered
  · refine .inr ?_
    cases hphase : s.phase with
    | loop => exact .inr ⟨.check, rfl, by simp [step, hphase]⟩
    | accepting =>
      have hqueue : i ∈ s.queue := by
        rcases howed.mem_line with hi | hi
        · exact hi
        · rw [hphase] at hi
          cases hi
      obtain ⟨j, queue, hline⟩ := List.exists_cons_of_ne_nil (List.ne_nil_of_mem hqueue)
      exact .inr ⟨.accept, rfl, by simp [step, hphase, hline]⟩
    | reading j =>
      by_cases hpending : (s.connections j).pending = []
      · cases hgone : (s.connections j).gone with
        | false => exact .inl ⟨j, hphase, hpending, hgone⟩
        | true =>
          by_cases hlink : (s.connections j).link = .failing
          · exact .inr ⟨.readFailed, rfl, by simp [step, hphase, hlink]⟩
          · exact .inr ⟨.read, rfl, by simp [step, hphase, hpending, hgone, hlink]⟩
      · exact .inr ⟨.read, rfl, by simp [step, hphase, hpending]⟩
    | serving j writes =>
      cases writes with
      | nil => exact .inr ⟨.close, rfl, by simp [step, hphase]⟩
      | cons data writes =>
        refine .inr ⟨.write, rfl, ?_⟩
        simp only [step, hphase]
        split <;> rfl
    | exited | killed =>
      refine absurd ?_ h.running
      rw [hphase]
      trivial

variable (ν c) in
/-- The server serves: it stops only after a signal, and without one every request that waits is
answered. -/
structure Serves (es : List (Event ι)) (s : State ι) : Prop where
  stopped : s.phase.Stopped → Signalled es
  answers : ¬ Signalled es → ∀ i request, IsRequest request → i ∈ s.queue →
    (s.connections i).pending = request → (s.connections i).gone = false → Served ν c s i request

end Service

end KernelTests.CAgent
