import KernelTests.CAgent.Trace
import KernelTests.CJson.Draft
import KernelTests.CJson.Extent
import KernelTests.CJson.Parse

/-!
# The trees of the agent

What `agent_run` does with trees: it builds the conversation, prints a request with a copy of
it, takes the message out of a response, and looks for strings.  Every step is defined,
whichever requests for memory fail, and if none fails it does what the model without a heap
does and releases everything it does not keep.
-/

namespace KernelTests.CAgent.OnHeap

open Memory CJson

variable {A ν β : Type} [DecidableEq A] [CDouble ν] (M : Allocator A (Cell A ν))

/-! ## Requests -/

/-- The members of `properties`; every parameter is a string. -/
def addProperties (properties : Option A) : List String → Prog A (Cell A ν) Unit
  | [] => return ()
  | key :: keys => do
    let property ← addObjectToObject M properties (some (.lit key))
    let _ ← addStringToObject M property (some (.lit "type")) (some (.lit "string"))
    addProperties properties keys

/-- The elements of `required`. -/
def addRequired (required : Option A) : List String → Prog A (Cell A ν) Unit
  | [] => return ()
  | key :: keys => do
    let name ← createString M (some (.lit key))
    let _ ← addItemToArray required name
    addRequired required keys

/-- The list of required parameters, for a tool that has one. -/
def addRequirements (params : Option A) : Option (List String) → Prog A (Cell A ν) Unit
  | none => return ()
  | some keys => do
    let required ← addArrayToObject M params (some (.lit "required"))
    addRequired M required keys

/-- One of the four tools of `build_request`. -/
def addTool (tools : Option A) (name description : String) (properties : List String)
    (required : Option (List String)) : Prog A (Cell A ν) Unit := do
  let tool ← createObject M
  let _ ← addStringToObject M tool (some (.lit "type")) (some (.lit "function"))
  let func ← addObjectToObject M tool (some (.lit "function"))
  let _ ← addStringToObject M func (some (.lit "name")) (some (.lit name))
  let _ ← addStringToObject M func (some (.lit "description")) (some (.lit description))
  let params ← addObjectToObject M func (some (.lit "parameters"))
  let _ ← addStringToObject M params (some (.lit "type")) (some (.lit "object"))
  let props ← addObjectToObject M params (some (.lit "properties"))
  addProperties M props properties
  addRequirements M params required
  let _ ← addItemToArray tools tool
  return ()

/-- `build_request` -/
def buildRequest (messages : Option A) (model : CString) : Prog A (Cell A ν) (Option A) := do
  let root ← createObject M
  let _ ← addStringToObject M root (some (.lit "model")) (some model)
  let copy ← duplicate M messages true
  let _ ← addItemToObject M root (some (.lit "messages")) copy
  let tools ← addArrayToObject M root (some (.lit "tools"))
  addTool M tools "read_file" "Read contents of a file" ["file_path"] (some ["file_path"])
  addTool M tools "write_file" "Write content to a file" ["file_path", "content"]
    (some ["file_path", "content"])
  addTool M tools "list_files" "List files in a directory" ["path"] none
  addTool M tools "bash" "Execute a bash command" ["command"] (some ["command"])
  let json ← printUnformatted M root
  delete root
  return json

/-! ## The conversation -/

/-- A message with a role and a content. -/
def addTextMessage (messages : Option A) (role content : CString) : Prog A (Cell A ν) Unit := do
  let message ← createObject M
  let _ ← addStringToObject M message (some (.lit "role")) (some role)
  let _ ← addStringToObject M message (some (.lit "content")) (some content)
  let _ ← addItemToArray messages message
  return ()

/-- The messages `agent_run` starts with -/
def startMessages (prompt : CString) : Prog A (Cell A ν) (Option A) := do
  let messages ← createArray M
  addTextMessage M messages (.lit "system")
    (.lit ("You are a helpful assistant that can use tools to help users. " ++
      "When a user asks you to do something, use the appropriate tools."))
  addTextMessage M messages (.lit "user") prompt
  return messages

/-- The identifier of the call, if it is a string -/
def addCallId (message : Option A) : Option CString → Prog A (Cell A ν) Unit
  | none => return ()
  | some id => do
    let _ ← addStringToObject M message (some (.lit "tool_call_id")) (some id)
    return ()

/-- The message `agent_run` appends for the result of a tool -/
def addToolMessage (messages : Option A) (id : Option CString) (output : CString) :
    Prog A (Cell A ν) Unit := do
  let message ← createObject M
  let _ ← addStringToObject M message (some (.lit "role")) (some (.lit "tool"))
  addCallId M message id
  let _ ← addStringToObject M message (some (.lit "content")) (some output)
  let _ ← addItemToArray messages message
  return ()

/-- The answers to the calls of one message -/
def addToolMessages (messages : Option A) :
    List (Option CString × CString) → Prog A (Cell A ν) Unit
  | [] => return ()
  | answer :: answers => do
    addToolMessage M messages answer.1 answer.2
    addToolMessages messages answers

/-- What `agent_run` does with the choices of a response: the message of the first is copied to
the end of the conversation, and is the result; without a choice there is no result. -/
def takeMessage (messages response : Option A) : Prog A (Cell A ν) (Option (Option A)) := do
  let choices ← getObjectItem response (some (.lit "choices"))
  let isArray ← hasKind choices .array
  if !isArray then
    return none
  else
    let size ← getArraySize choices
    if size = 0 then
      return none
    else
      let choice ← getArrayItem choices 0
      let message ← getObjectItem choice (some (.lit "message"))
      let copy ← duplicate M message true
      let _ ← addItemToArray messages copy
      return some message

/-- A reply of the server, and what becomes of the calls in its message. -/
structure Round where
  reply : CString
  /-- The length of the reply is an `int`. -/
  strlen_reply : reply.strlen < 2 ^ 31
  answers : List (Option CString × CString)

/-- The rounds of a conversation: the copy of the message, the answers to its calls, and the
response is released.  The result is false if a reply is no response, or has no choices. -/
def addRounds (messages : Option A) : List Round → Prog A (Cell A ν) Bool
  | [] => return true
  | round :: rounds => do
    let response ← parse M (some round.reply)
    if response.isNone then
      return false
    else
      let message ← takeMessage M messages response
      if message.isNone then
        delete response
        return false
      else
        addToolMessages M messages round.answers
        delete response
        addRounds messages rounds

/-- The request after some rounds; the conversation is released. -/
def requestAfter (prompt model : CString) (rounds : List Round) :
    Prog A (Cell A ν) (Option A) := do
  let messages ← startMessages M prompt
  let goesOn ← addRounds M messages rounds
  let request ← (if goesOn then buildRequest M messages model else pure none)
  delete messages
  return request

/-- `item && cJSON_IsString(item)`, and then the string of the item -/
def stringValue (item : Option A) : Prog A (Cell A ν) (Option CString) := do
  let isString ← hasKind item .string
  if isString then
    let n ← loadNode item
    let s ← loadText n.valuestring
    return some s
  else return none

/-- A member that is a string -/
def stringMember (object : Option A) (name : CString) : Prog A (Cell A ν) (Option CString) := do
  let item ← getObjectItem object (some name)
  stringValue item

variable {M}

variable {key : Option CString} {next prev p q : Option A} {P P' R : Multiset (A × Cell A ν)}
  {vs : List (Json ν)} {ms : List (CString × Json ν)}

theorem addProperties_spec (keys : List String) (h : Draft M key (.object ms) next prev p P) :
    Spec (addProperties M p keys) P fun _ P' ↦
      Draft M key (.object (ms ++ keys.map fun key ↦
        member key (.object [member "type" (str "string")]))) next prev p P' := by
  induction keys generalizing ms P with
  | nil => exact Memory.Spec.pure (by rwa [List.map_nil, List.append_nil])
  | cons name keys ih =>
      refine Memory.Spec.bind (h.addChild creates_object (.lit name)) ?_
      rintro property _ ⟨prev', P₁, R, rfl, hchild, hclose⟩
      refine Memory.Spec.call (hchild.addString (.lit "type") (.lit "string")) rfl
        fun _ P₁ hchild ↦ ?_
      refine (ih (hclose _ P₁ hchild rfl)).mono fun _ P' h ↦ ?_
      rwa [List.append_assoc] at h

theorem addRequired_spec (keys : List String) (h : Draft M key (.array vs) next prev p P) :
    Spec (addRequired M p keys) P fun _ P' ↦
      Draft M key (.array (vs ++ keys.map str)) next prev p P' := by
  induction keys generalizing vs P with
  | nil => exact Memory.Spec.pure (by rwa [List.map_nil, List.append_nil])
  | cons name keys ih =>
      refine Memory.Spec.call (R := P) (creates_string (.lit name)).draft (zero_add P).symm
        fun element P₁ hchild ↦ ?_
      refine Memory.Spec.bind (Q := fun _ P' ↦ Draft M key (.array (vs ++ [str name])) next prev p P')
        ?_ fun _ P h ↦ ?_
      · rw [add_comm]
        exact h.addElement hchild
      · refine (ih h).mono fun _ P' h ↦ ?_
        rwa [List.append_assoc] at h

theorem addRequirements_spec (required : Option (List String))
    (h : Draft M key (.object ms) next prev p P) :
    Spec (addRequirements M p required) P fun _ P' ↦ Draft M key (.object (ms ++
      match required with
        | some keys => [member "required" (.array (keys.map str))]
        | none => [])) next prev p P' := by
  cases required with
  | none => exact Memory.Spec.pure (by rwa [List.append_nil])
  | some keys =>
      refine Memory.Spec.bind (h.addChild creates_array (.lit "required")) ?_
      rintro req _ ⟨_, Pr, R, rfl, hr, hclose⟩
      refine Memory.Spec.tail (addRequired_spec keys hr) rfl fun _ Pr hr ↦ ?_
      exact hclose _ Pr hr rfl

theorem addTool_spec (name description : String) (properties : List String)
    (required : Option (List String)) (h : Draft M key (.array vs) next prev p P) :
    Spec (addTool M p name description properties required) P fun _ P' ↦
      Draft M key (.array (vs ++ [toolDefinition name description properties required]))
        next prev p P' := by
  refine Memory.Spec.call (R := P) creates_object.draft (zero_add P).symm fun tool Pt ht ↦ ?_
  refine Memory.Spec.call (ht.addString _ _) rfl fun _ Pt ht ↦ ?_
  refine Memory.Spec.call (R := P) (ht.addChild creates_object (.lit "function")) rfl ?_
  rintro func _ ⟨_, Pf, Rt, rfl, hf, hclosef⟩
  refine Memory.Spec.call (R := Rt + P) (hf.addString _ _) (add_assoc _ _ _) fun _ Pf hf ↦ ?_
  refine Memory.Spec.call (R := Rt + P) (hf.addString _ _) rfl fun _ Pf hf ↦ ?_
  refine Memory.Spec.call (R := Rt + P) (hf.addChild creates_object (.lit "parameters")) rfl ?_
  rintro params _ ⟨_, Pp, Rf, rfl, hp, hclosep⟩
  refine Memory.Spec.call (R := Rf + (Rt + P)) (hp.addString _ _) (add_assoc _ _ _)
    fun _ Pp hp ↦ ?_
  refine Memory.Spec.call (R := Rf + (Rt + P)) (hp.addChild creates_object (.lit "properties"))
    rfl ?_
  rintro props _ ⟨_, Pr, Rp, rfl, hr, hcloser⟩
  refine Memory.Spec.call (R := Rp + (Rf + (Rt + P))) (addProperties_spec properties hr)
    (add_assoc _ _ _) fun _ Pr hr ↦ ?_
  -- from here on the parts are put back, the innermost first
  refine Memory.Spec.call (R := Rf + (Rt + P)) (addRequirements_spec required
    (hcloser _ Pr hr rfl)) (add_assoc _ _ _).symm fun _ Pp hp ↦ ?_
  have ht := hclosef _ _ (hclosep _ Pp hp rfl) rfl
  refine Memory.Spec.call (R := 0) (h.addElement ht) (by abel) fun _ P h ↦ ?_
  rw [add_zero]
  exact Memory.Spec.pure h

/-- The request for the conversation, beside the conversation. -/
theorem buildRequest_spec (h : Draft M none (.array vs) next prev p P) (model : CString) :
    Spec (buildRequest M p model) P fun r P' ↦ ∃ P₂ L, P' = P₂ + L + P ∧
      Text M (Overlong M (requestRoot vs model).print.length)
        (CAgent.buildRequest vs model) r P₂ ∧ (M.Unfailing → L = 0) := by
  refine Memory.Spec.call (R := P) creates_object.draft (zero_add P).symm fun root Pr hr ↦ ?_
  refine Memory.Spec.call (hr.addString _ _) rfl fun _ Pr hr ↦ ?_
  refine Memory.Spec.call (R := Pr) h.duplicate (add_comm _ _) ?_
  rintro copy _ ⟨Pc, rfl, hc⟩
  refine Memory.Spec.call (R := P) (hr.addMember hc (.lit "messages")) (by abel) fun _ Pr hr ↦ ?_
  refine Memory.Spec.call (hr.addChild creates_array (.lit "tools")) rfl ?_
  rintro tools _ ⟨_, Pt, R, rfl, ht, hclose⟩
  refine Memory.Spec.call (R := R + P) (addTool_spec _ _ _ _ ht) (add_assoc _ _ _)
    fun _ Pt ht ↦ ?_
  refine Memory.Spec.call (addTool_spec _ _ _ _ ht) rfl fun _ Pt ht ↦ ?_
  refine Memory.Spec.call (addTool_spec _ _ _ _ ht) rfl fun _ Pt ht ↦ ?_
  refine Memory.Spec.call (addTool_spec _ _ _ _ ht) rfl fun _ Pt ht ↦ ?_
  have hr : Draft M none (requestRoot vs model) none none root (Pt + R) := hclose _ Pt ht rfl
  refine Memory.Spec.call (R := P) hr.print (add_assoc _ _ _).symm ?_
  rintro json _ ⟨P₂, rfl, htext⟩
  refine Memory.Spec.call (R := P₂ + P) hr.delete (by abel) fun _ L hL ↦ ?_
  exact Memory.Spec.pure ⟨P₂, L, by abel, htext, hL⟩

/-! ## The conversation -/

theorem addTextMessage_spec (role content : CString) (h : Draft M key (.array vs) next prev p P) :
    Spec (addTextMessage M p role content) P fun _ P' ↦
      Draft M key (.array (vs ++ [.object [member "role" (.string role),
        member "content" (.string content)]])) next prev p P' := by
  refine Memory.Spec.call (R := P) creates_object.draft (zero_add P).symm fun message Pm hm ↦ ?_
  refine Memory.Spec.call (hm.addString _ _) rfl fun _ Pm hm ↦ ?_
  refine Memory.Spec.call (hm.addString _ _) rfl fun _ Pm hm ↦ ?_
  rw [add_comm]
  exact Memory.Spec.bind (h.addElement hm) fun _ P h ↦ Memory.Spec.pure h

/-- The conversation starts with the system message and the prompt. -/
theorem startMessages_spec (prompt : CString) : Spec (startMessages (ν := ν) M prompt) 0
    (Draft M none (.array (initialMessages prompt)) none none) := by
  refine Memory.Spec.bind creates_array.draft fun messages P h ↦ ?_
  refine Memory.Spec.bind (addTextMessage_spec _ _ h) fun _ P h ↦ ?_
  exact Memory.Spec.bind (addTextMessage_spec _ _ h) fun _ P h ↦ Memory.Spec.pure h

theorem addCallId_spec (id : Option CString) (h : Draft M key (.object ms) next prev p P) :
    Spec (addCallId M p id) P fun _ P' ↦ Draft M key (.object (ms ++
      match id with
        | some id => [member "tool_call_id" (.string id)]
        | none => [])) next prev p P' := by
  cases id with
  | none => exact Memory.Spec.pure (by rwa [List.append_nil])
  | some id => exact Memory.Spec.bind (h.addString _ _) fun _ P h ↦ Memory.Spec.pure h

theorem addToolMessage_spec (id : Option CString) (output : CString)
    (h : Draft M key (.array vs) next prev p P) :
    Spec (addToolMessage M p id output) P fun _ P' ↦
      Draft M key (.array (vs ++ [toolMessage id output])) next prev p P' := by
  refine Memory.Spec.call (R := P) creates_object.draft (zero_add P).symm fun message Pm hm ↦ ?_
  refine Memory.Spec.call (hm.addString _ _) rfl fun _ Pm hm ↦ ?_
  refine Memory.Spec.call (addCallId_spec id hm) rfl fun _ Pm hm ↦ ?_
  refine Memory.Spec.call (hm.addString _ _) rfl fun _ Pm hm ↦ ?_
  rw [add_comm]
  exact Memory.Spec.bind (h.addElement hm) fun _ P h ↦ Memory.Spec.pure h

theorem addToolMessages_spec (answers : List (Option CString × CString))
    (h : Draft M key (.array vs) next prev p P) :
    Spec (addToolMessages M p answers) P fun _ P' ↦
      Draft M key (.array (vs ++ answers.map fun a ↦ toolMessage a.1 a.2)) next prev p P' := by
  induction answers generalizing vs P with
  | nil => exact Memory.Spec.pure (by rwa [List.map_nil, List.append_nil])
  | cons answer answers ih =>
      refine Memory.Spec.bind (addToolMessage_spec answer.1 answer.2 h) fun _ P h ↦ ?_
      refine (ih h).mono fun _ P' h ↦ ?_
      rwa [List.append_assoc] at h

/-! ## Responses -/

/-- A copy of a part of a tree, beside the tree. -/
theorem duplicate_part {t : Item A ν} {v : Json ν} (h : Points t p (some v)) :
    Spec (duplicate M p true) (t.cells next prev) fun r P ↦
      ∃ key P₁, P = P₁ + t.cells next prev ∧ Draft M key v none none r P₁ := by
  match p, h with
  | some a, h =>
      obtain ⟨c, hc, rfl, hv⟩ := h
      obtain ⟨n, m, R, hR⟩ := hc next prev
      rw [hR]
      refine Memory.Spec.tail (duplicate_spec c n m) rfl ?_
      rintro _ _ (⟨rfl, rfl, hM⟩ | ⟨t', rfl, hcopy, rfl⟩)
      · exact ⟨none, 0, (zero_add _).symm, Or.inl ⟨rfl, hM⟩⟩
      · exact ⟨c.key, _, add_assoc _ _ _, Or.inr ⟨t', v, 0, rfl, (add_zero _).symm, hcopy.key,
          hcopy.carries hv.shows, rfl, fun _ ↦ ⟨rfl, rfl⟩⟩⟩

/-- The message of the first choice, if there is a choice. -/
def firstMessage (response : Json ν) : Option (Option (Json ν)) :=
  (Json.elements (Json.getObjectItem (some response) (.lit "choices"))).head?.map fun choice ↦
    Json.getObjectItem (some choice) (.lit "message")

/-- The copy is the last message of the conversation; a choice without a message adds none. -/
theorem takeMessage_spec {t : Item A ν} {response : Json ν} (ht : t.Denotes response)
    (hsize : extent response < 2 ^ 31) (h : Draft M key (.array vs) next prev p P) :
    Spec (takeMessage M p (some t.addr)) (t.cells none none + P) fun r P' ↦
      ∃ P₁, P' = t.cells none none + P₁ ∧
        Draft M key (.array (vs ++ ((firstMessage response).getD none).toList)) next prev p P₁ ∧
        ((firstMessage response = none ∧ r = none) ∨
          ∃ message q, firstMessage response = some message ∧ r = some q ∧ Points t q message) := by
  refine CJson.Spec.getObjectItem ht.points (.lit "choices") rfl fun choices hchoices ↦ ?_
  refine CJson.Spec.hasKind hchoices .array rfl ?_
  rw [firstMessage]
  have hlen := ((length_elements_le _).trans
    (extent_lookup_le (some response) (.lit "choices"))).trans_lt hsize
  generalize Json.getObjectItem (some response) (.lit "choices") = v at *
  rcases array_or v with ⟨us, rfl⟩ | ⟨hkind, hnil⟩
  swap
  · rw [if_pos (by simp [hkind]), hnil]
    exact Memory.Spec.pure ⟨P, rfl, by simpa using h, Or.inl ⟨rfl, rfl⟩⟩
  rw [if_neg (by simp [kindOf])]
  refine CJson.Spec.getArraySize hchoices hlen rfl ?_
  cases us with
  | nil =>
      rw [if_pos (by simp)]
      exact Memory.Spec.pure ⟨P, rfl, by simpa [Json.elements] using h, Or.inl ⟨rfl, rfl⟩⟩
  | cons u us =>
      rw [if_neg (by simp; omega)]
      refine CJson.Spec.getArrayItem hchoices 0 rfl fun choice hchoice ↦ ?_
      refine CJson.Spec.getObjectItem hchoice (.lit "message") rfl fun message hmessage ↦ ?_
      have hfirst : (Json.elements (some (.array (u :: us)))).head?.map (fun choice ↦
          Json.getObjectItem (some choice) (.lit "message")) =
          some (Json.getObjectItem (some u) (.lit "message")) := rfl
      rw [hfirst]
      change Points t message (Json.getObjectItem (some u) (.lit "message")) at hmessage
      generalize Json.getObjectItem (some u) (.lit "message") = v at *
      cases v with
      | none =>
          have hnull : message = none := Option.isNone_iff_eq_none.mp hmessage.isNone_eq
          subst hnull
          refine Memory.Spec.bind (duplicate_null _) ?_
          rintro _ _ ⟨rfl, rfl⟩
          rw [addItemToArray, if_pos (by simp), pure_bind]
          exact Memory.Spec.pure ⟨P, rfl, by simpa using h, Or.inr ⟨_, _, rfl, rfl, hmessage⟩⟩
      | some w =>
          refine Memory.Spec.call (duplicate_part hmessage) rfl ?_
          rintro copy _ ⟨key', P₁, rfl, hcopy⟩
          refine Memory.Spec.call (R := t.cells none none) (h.addElement hcopy) (by abel)
            fun _ P h ↦ ?_
          exact Memory.Spec.pure ⟨P, add_comm _ _, h, Or.inr ⟨_, _, rfl, rfl, hmessage⟩⟩

/-! ## Whole conversations -/

/-- The conversation after some rounds, if every reply has a choice. -/
def conversationAfter (history : List (Json ν)) : List Round → Option (List (Json ν))
  | [] => some history
  | round :: rounds => do
    let response ← Json.parse round.reply
    let message ← firstMessage response
    conversationAfter
      (history ++ message.toList ++ round.answers.map fun a ↦ toolMessage a.1 a.2) rounds

/-- The tree is that of the conversation; the rounds break off only if the conversation does, or
if a request fails. -/
theorem addRounds_spec (rounds : List Round) (h : Draft M key (.array vs) next prev p P) :
    Spec (addRounds M p rounds) P fun goesOn P' ↦
      ∃ us, Draft M key (.array us) next prev p P' ∧
        (goesOn = true → conversationAfter vs rounds = some us) ∧
        (goesOn = false → conversationAfter vs rounds = none ∨ ¬ M.Unfailing) := by
  induction rounds generalizing vs P with
  | nil => exact Memory.Spec.pure ⟨vs, h, fun _ ↦ rfl, nofun⟩
  | cons round rounds ih =>
      rw [conversationAfter]
      refine Memory.Spec.call (R := P) (parse_spec round.reply) (zero_add P).symm ?_
      rintro response _ (⟨rfl, rfl, hnone⟩ | ⟨t, rfl, rfl, -, w, hw, ht⟩)
      · rw [if_pos Option.isNone_none, zero_add]
        exact Memory.Spec.pure ⟨vs, h, nofun, fun _ ↦ hnone.imp_left fun hnone ↦ by
          rw [hnone]
          rfl⟩
      · have hext : extent w < 2 ^ 31 := (extent_le_of_parse hw).trans_lt round.strlen_reply
        rw [if_neg (by simp), hw, Option.bind_eq_bind, Option.bind_some]
        refine Memory.Spec.bind (takeMessage_spec ht hext h) ?_
        rintro taken _ ⟨P₁, rfl, h, ⟨hfirst, rfl⟩ | ⟨message, q, hfirst, rfl, -⟩⟩
        · rw [if_pos Option.isNone_none]
          rw [hfirst] at h
          refine Memory.Spec.call (R := P₁) (delete_item t none) rfl ?_
          rintro _ _ rfl
          rw [zero_add]
          exact Memory.Spec.pure ⟨_, h, nofun, fun _ ↦ Or.inl (by rw [hfirst]; rfl)⟩
        · rw [if_neg (by simp)]
          rw [hfirst] at h ⊢
          refine Memory.Spec.call (R := t.cells none none) (addToolMessages_spec round.answers h)
            (add_comm _ _) fun _ P h ↦ ?_
          refine Memory.Spec.call (R := P) (delete_item t none) (add_comm _ _) ?_
          rintro _ _ rfl
          rw [zero_add]
          exact ih h

variable (M) in
/-- The text of the request for a conversation; without one there is no text. -/
def Requested (model : CString) (r : Option A) (P : Multiset (A × Cell A ν)) :
    Option (List (Json ν)) → Prop
  | some messages => Text M (Overlong M (requestRoot messages model).print.length)
      (CAgent.buildRequest messages model) r P
  | none => r = none ∧ P = 0

/-- **Requests under any memory.**  Whichever requests for memory fail, conversations are built out
of replies and answers, copied, printed and released without undefined behaviour.  If none fails,
nothing but the text is left, and there is a text unless it is too long or a reply has no
choices. -/
theorem requestAfter_spec (prompt model : CString) (rounds : List Round) :
    Spec (requestAfter (ν := ν) M prompt model rounds) 0 fun r P ↦
      ∃ P₂ L, P = P₂ + L ∧ (M.Unfailing → L = 0) ∧
        Requested M model r P₂ (conversationAfter (initialMessages prompt) rounds) := by
  refine Memory.Spec.bind (startMessages_spec prompt) fun messages P h ↦ ?_
  refine Memory.Spec.bind (addRounds_spec rounds h) ?_
  rintro goesOn P ⟨us, h, hon, hoff⟩
  cases goesOn with
  | false =>
      rw [if_neg (by decide), pure_bind]
      refine Memory.Spec.bind h.delete fun _ L hL ↦ ?_
      refine Memory.Spec.pure ⟨0, L, (zero_add L).symm, hL, ?_⟩
      cases hvs : conversationAfter (initialMessages (ν := ν) prompt) rounds with
      | none => exact ⟨rfl, rfl⟩
      | some vs =>
          refine Or.inl ⟨rfl, rfl, Or.inl ((hoff rfl).resolve_left fun hnone ↦ ?_)⟩
          rw [hvs] at hnone
          cases hnone
  | true =>
      rw [if_pos rfl, hon rfl]
      refine Memory.Spec.bind (buildRequest_spec h model) ?_
      rintro request _ ⟨P₂, L, rfl, htext, hL⟩
      refine Memory.Spec.call (R := P₂ + L) h.delete (add_comm _ _) fun _ L' hL' ↦ ?_
      refine Memory.Spec.pure ⟨P₂, L + L', by abel, fun hM ↦ ?_, htext⟩
      rw [hL hM, hL' hM, add_zero]

/-! ## Strings -/

section Strings

variable {t : Item A ν} {v : Option (Json ν)}

theorem getObjectItem_points (h : Points t p v) (name : CString)
    (hP : P = t.cells next prev + R) : Spec (getObjectItem p (some name)) P fun q P' ↦
      Points t q (Json.getObjectItem v name) ∧ P' = P :=
  Memory.Spec.last (CJson.Spec.getObjectItem h name hP fun _ hq ↦ Memory.Spec.pure ⟨hq, rfl⟩)

theorem getArrayItem_points (h : Points t p (some (.array vs))) (i : ℕ)
    (hP : P = t.cells next prev + R) : Spec (getArrayItem p i) P fun q P' ↦
      Points t q vs[i]? ∧ P' = P :=
  Memory.Spec.last (CJson.Spec.getArrayItem h i hP fun _ hq ↦ Memory.Spec.pure ⟨hq, rfl⟩)

theorem stringValue_spec (h : Points t p v) (hP : P = t.cells next prev + R) :
    Spec (stringValue p) P (Reads (v.bind Json.valuestring) P) := by
  refine CJson.Spec.hasKind h .string hP ?_
  rcases string_or v with ⟨s, rfl⟩ | ⟨hkind, hnone⟩
  · rw [if_pos (by simp [kindOf])]
    refine CJson.Spec.loadValue h hP fun n hn ↦ CJson.Spec.loadPointed hn hP ?_
    exact Memory.Spec.pure ⟨rfl, rfl⟩
  · rw [if_neg (by simp [hkind])]
    exact Memory.Spec.pure ⟨hnone.symm, rfl⟩

theorem stringMember_spec (h : Points t p v) (name : CString) (hP : P = t.cells next prev + R) :
    Spec (stringMember p name) P (Reads (Json.getString v name) P) :=
  CJson.Spec.getObjectItem h name hP fun _ hq ↦ stringValue_spec hq hP

end Strings

end KernelTests.CAgent.OnHeap
