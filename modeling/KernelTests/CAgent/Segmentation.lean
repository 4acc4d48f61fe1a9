import KernelTests.CAgent.Exchange
import KernelTests.Json.Truncation

/-!
# Cut requests

The server takes the bytes of a single `read` for the whole request.  When that is
the whole request, the reply is what `handle_chat_completions` computes on its body.
When it is a proper prefix, the reply is one of three error replies, because no
proper prefix of a printed object is accepted by the parser; and the agent gives up
on each of them.
-/

namespace KernelTests.CAgent

open Effects Text

/-! ## Whole requests -/

theorem zero_notMem_sbAppendf {text : Bytes} (h : 0 ∉ text) : 0 ∉ sbAppendf text :=
  fun h0 ↦ h (List.mem_of_mem_take h0)

/-- A request contains no NUL. -/
theorem zero_notMem_httpRequest (client : HttpClient) (body : CString) :
    0 ∉ httpRequest client endpoint body := by
  have hkey : 0 ∉ authorization client.apiKey := by
    cases hk : client.apiKey with
    | none => simp [authorization]
    | some apiKey =>
        refine zero_notMem_sbAppendf ?_
        simp only [List.mem_append, not_or]
        exact ⟨⟨by decide, apiKey.noNul⟩, by decide⟩
  have hport : 0 ∉ decimal client.port := fun h0 ↦ absurd (mem_decimal h0) (by decide)
  have hlen : 0 ∉ decimalNat body.strlen := fun h0 ↦
    absurd (isDigit_of_mem_decimalNat h0) (by decide)
  have hhost : 0 ∉ ascii "Host: " ++ client.host.bytes ++ ascii ":" ++ decimal client.port ++
      ascii "\r\n" := by
    simp only [List.mem_append, not_or]
    exact ⟨⟨⟨⟨by decide, client.host.noNul⟩, by decide⟩, hport⟩, by decide⟩
  have hlength : 0 ∉ ascii "Content-Length: " ++ decimalNat body.strlen ++ ascii "\r\n" := by
    simp only [List.mem_append, not_or]
    exact ⟨⟨by decide, hlen⟩, by decide⟩
  rw [httpRequest]
  simp only [List.mem_append, not_or]
  exact ⟨⟨⟨⟨⟨⟨⟨by decide, zero_notMem_sbAppendf hhost⟩, by decide⟩, hkey⟩,
    zero_notMem_sbAppendf hlength⟩, by decide⟩, by decide⟩, body.noNul⟩

/-- A request starts with its method and its path. -/
theorem post_prefix_requestOpening (client : HttpClient) :
    ascii "POST /v1/chat/completions" <+: requestOpening client := by
  have hline : sbAppendf (ascii "POST " ++ endpoint.bytes ++ ascii " HTTP/1.1\r\n") =
      ascii "POST /v1/chat/completions" ++ ascii " HTTP/1.1\r\n" := by decide
  rw [requestOpening, hline]
  simp only [List.append_assoc]
  exact List.prefix_append _ _

theorem post_prefix_httpRequest (client : HttpClient) (body : CString) :
    ascii "POST /v1/chat/completions" <+: httpRequest client endpoint body := by
  rw [httpRequest_eq_append]
  exact (post_prefix_requestOpening client).trans (List.prefix_append _ _)

section Server

variable {ν : Type} [CNumber ν] (c : Classifier)

/-- The reply of `handle_chat_completions` to a body. -/
def chatReply (body : CString) : Bytes :=
  sendHttpResponse 200 "OK" "application/json" (handleChatCompletions ν c body)

/-- What the server does with bytes that start like a request. -/
theorem handleClient_post {p : Bytes} (hnul : 0 ∉ p) (hp : p.head? = some 80) :
    handleClient ν c p =
      if ascii "POST /v1/chat/completions" <+: p then
        match extractBody (.ofBytes p) with
        | some body => some (chatReply (ν := ν) c body)
        | none => some (sendHttpResponse 400 "Bad Request" "application/json"
            (.lit "\x7b\"error\":\"No body\"\x7d"))
      else some (sendHttpResponse 404 "Not Found" "text/plain" (.lit "Not Found")) := by
  obtain ⟨t, rfl⟩ : ∃ t, p = 80 :: t := by
    cases p with
    | nil => cases hp
    | cons c t => exact ⟨t, by rw [Option.some.inj hp]⟩
  have hother : ∀ w : CString, w.bytes.head? ≠ some 80 → w.bytes ≠ [] →
      hasPrefix w (.ofBytes (80 :: t)) = false := by
    intro w hw hne
    obtain ⟨d, u, hd⟩ := List.exists_cons_of_ne_nil hne
    rw [hasPrefix, CString.bytes_ofBytes hnul, hd, decide_eq_false_iff_not]
    exact fun h ↦ hw (by rw [hd, (List.cons_prefix_cons.mp h).1]; rfl)
  have hpost : hasPrefix (.lit "POST /v1/chat/completions") (.ofBytes (80 :: t)) =
      decide (ascii "POST /v1/chat/completions" <+: 80 :: t) := by
    rw [hasPrefix, CString.bytes_ofBytes hnul]
    rfl
  rw [handleClient, if_neg (List.cons_ne_nil 80 t),
    hother (.lit "OPTIONS") (by decide) (by decide), hother (.lit "GET / ") (by decide) (by decide),
    hother (.lit "GET /health") (by decide) (by decide), hpost]
  by_cases h : ascii "POST /v1/chat/completions" <+: 80 :: t
  · simp only [h, decide_true, if_true]
    rfl
  · simp [h]

/-- The body that `handle_client` hands to `handle_chat_completions`, if it calls that. -/
def chatBody (read : Bytes) : Option CString :=
  let buffer := CString.ofBytes read
  if hasPrefix (.lit "POST /v1/chat/completions") buffer then extractBody buffer else none

omit [CNumber ν] in
/-- On the text of a request that is what stands behind its first blank line. -/
theorem chatBody_eq {p : Bytes} (hnul : 0 ∉ p) {body : CString} :
    chatBody p = some body ↔
      ascii "POST /v1/chat/completions" <+: p ∧ after blankLine p = some body.bytes := by
  have hbytes := CString.bytes_ofBytes hnul
  have hpost : hasPrefix (.lit "POST /v1/chat/completions") (.ofBytes p) =
      decide (ascii "POST /v1/chat/completions" <+: p) := by
    rw [hasPrefix, hbytes]
    rfl
  rw [chatBody, hpost, extractBody, hbytes]
  by_cases hp : ascii "POST /v1/chat/completions" <+: p
  · rw [if_pos (decide_eq_true hp), Option.map_eq_some_iff, and_iff_right hp]
    constructor
    · rintro ⟨t, ht, rfl⟩
      obtain ⟨u, rfl⟩ := after_eq_some ht
      rw [ht, CString.bytes_ofBytes fun h0 ↦ hnul (List.mem_append_right _ h0)]
    · exact fun ht ↦ ⟨body.bytes, ht, CString.ofBytes_bytes body⟩
  · simp [hp]

/-- Then the reply is the one computed on that body. -/
theorem handleClient_of_chatBody {p : Bytes} (hnul : 0 ∉ p) {body : CString}
    (h : chatBody p = some body) : handleClient ν c p = some (chatReply (ν := ν) c body) := by
  obtain ⟨hpost, hafter⟩ := (chatBody_eq hnul).mp h
  have hhead : p.head? = some 80 := by
    obtain ⟨t, rfl⟩ := hpost
    rfl
  have hextract : extractBody (.ofBytes p) = some body :=
    extractBody_of_after (by rw [CString.bytes_ofBytes hnul]; exact hafter)
  rw [handleClient_post c hnul hhead, if_pos hpost, hextract]

/-- Some text ends with a copy of the body, directly behind the first blank line of the key. -/
def CopiedInKey (client : HttpClient) (body : CString) (p : Bytes) : Prop :=
  ∃ u, u <+: authorization client.apiKey ∧ after blankLine u = some [] ∧
    p = requestOpening client ++ (u ++ body.bytes)

/-- A key with such a copy has a blank line. -/
theorem CopiedInKey.not_blankLineFree {client : HttpClient} {body : CString} {p : Bytes}
    (h : CopiedInKey client body p) : ¬ BlankLineFree client.apiKey := by
  obtain ⟨u, hu, hafter, _⟩ := h
  have hblank : blankLine <:+: u := (after_isSome_iff (by decide)).mp (by rw [hafter]; rfl)
  exact not_not_intro (hblank.trans hu.isInfix)

/-- Behind a key with a blank line the body of a text is what stands behind that. -/
theorem chatBody_iff_copiedInKey {client : HttpClient} {addr : List UInt8}
    (hhost : inetPton client.host = some addr) (hkey : ¬ BlankLineFree client.apiKey)
    {body : CString} {p q : Bytes} (h : p ++ q = httpRequest client endpoint body) :
    chatBody p = some body ↔ CopiedInKey client body p := by
  have hnul : 0 ∉ p := fun h0 ↦
    zero_notMem_httpRequest client body (h ▸ List.mem_append_left q h0)
  rw [chatBody_eq hnul]
  rw [httpRequest_eq_append] at h
  constructor
  · rintro ⟨_, hbody⟩
    obtain ⟨v, hv⟩ := Option.isSome_iff_exists.mp
      ((after_isSome_iff (by decide)).mpr (not_not.mp hkey))
    obtain ⟨u, hu, hafter⟩ := exists_of_after_eq_some (by decide) hv
    have hstarts : StartsLine (authorization client.apiKey ++ requestClosing body) := by
      refine (startsLine_authorization fun hnil ↦ ?_).append _
      rw [hnil] at hv
      cases hv
    -- the text behind the first blank line, of the whole request and of the part
    have hwhole := after_requestOpening hhost hstarts
    rw [after_append hv, ← h, after_append hbody, Option.some.injEq] at hwhole
    refine ⟨u, ⟨v, hu.symm⟩, hafter, ?_⟩
    rw [hu, List.append_assoc, ← hwhole, ← List.append_assoc, ← List.append_assoc,
      List.append_cancel_right_eq, List.append_assoc] at h
    exact h
  · rintro ⟨u, ⟨v, hu⟩, hafter, rfl⟩
    have hstarts : StartsLine (u ++ body.bytes) := by
      cases u with
      | nil => cases hafter
      | cons d u =>
          have hne : authorization client.apiKey ≠ [] := hu ▸ List.cons_ne_nil _ _
          have hstart := startsLine_authorization hne
          rw [← hu] at hstart
          exact hstart
    refine ⟨(post_prefix_requestOpening client).trans (List.prefix_append _ _), ?_⟩
    rw [after_requestOpening hhost hstarts, after_append hafter, List.nil_append]

/-- **The body of a part of a request.**  It is the body of the request exactly if the part is the
whole and the key has no blank line, or the key has a copy of the body. -/
theorem chatBody_eq_body_iff {client : HttpClient} {addr : List UInt8}
    (hhost : inetPton client.host = some addr) {body : CString} {p q : Bytes}
    (h : p ++ q = httpRequest client endpoint body) :
    chatBody p = some body ↔
      BlankLineFree client.apiKey ∧ q = [] ∨ CopiedInKey client body p := by
  by_cases hkey : BlankLineFree client.apiKey
  · have hno : ¬ CopiedInKey client body p := fun hcopy ↦ hcopy.not_blankLineFree hkey
    have hnul : 0 ∉ p := fun h0 ↦
      zero_notMem_httpRequest client body (h ▸ List.mem_append_left q h0)
    rw [or_iff_left hno, and_iff_right hkey]
    constructor
    · intro hbody
      have hwhole := after_append ((chatBody_eq hnul).mp hbody).2 q
      rw [h, after_httpRequest hhost hkey, Option.some.injEq] at hwhole
      exact List.append_right_eq_self.mp hwhole.symm
    · rintro rfl
      rw [List.append_nil] at h
      rw [h]
      exact (chatBody_eq (zero_notMem_httpRequest client body)).mpr
        ⟨post_prefix_httpRequest client body, after_httpRequest hhost hkey body⟩
  · rw [chatBody_iff_copiedInKey hhost hkey h, or_iff_right fun hfree ↦ hkey hfree.1]

variable {client : HttpClient} {addr : List UInt8} (hhost : inetPton client.host = some addr)
  (hkey : BlankLineFree client.apiKey)

include hhost hkey

/-- A whole request is answered with the reply to its body. -/
theorem handleClient_httpRequest (body : CString) :
    handleClient ν c (httpRequest client endpoint body) = some (chatReply (ν := ν) c body) :=
  handleClient_of_chatBody c (zero_notMem_httpRequest client body)
    ((chatBody_eq_body_iff hhost (List.append_nil _)).mpr (Or.inl ⟨hkey, rfl⟩))

/-! ## Cut requests -/

/-- The replies to a request that is not complete. -/
def failureReplies : List Bytes :=
  [sendHttpResponse 404 "Not Found" "text/plain" (.lit "Not Found"),
    sendHttpResponse 400 "Bad Request" "application/json" (.lit "\x7b\"error\":\"No body\"\x7d"),
    sendHttpResponse 200 "OK" "application/json" (.lit "\x7b\"error\":\"Invalid JSON\"\x7d")]

/-- A proper prefix of a request gets no reply or an error reply. -/
theorem handleClient_truncated {messages : List (Json ν)} {model : CString} {p q : Bytes}
    (h : p ++ q = httpRequest client endpoint (buildRequest messages model)) (hq : q ≠ []) :
    ∀ reply ∈ handleClient ν c p, reply ∈ failureReplies := by
  obtain ⟨rest, hr⟩ := post_prefix_httpRequest client (buildRequest messages model)
  have hnul : 0 ∉ p := fun h0 ↦
    zero_notMem_httpRequest client (buildRequest messages model) (h ▸ List.mem_append_left q h0)
  intro reply hreply
  cases p with
  | nil => simp [handleClient] at hreply
  | cons d t =>
      have hd : d = 80 := by
        rw [← hr] at h
        exact (List.cons.inj h).1
      subst hd
      rw [handleClient_post c hnul rfl] at hreply
      split at hreply
      · cases hb : extractBody (.ofBytes (80 :: t)) with
        | none =>
            rw [hb] at hreply
            cases hreply
            simp [failureReplies]
        | some body =>
            rw [hb] at hreply
            cases hreply
            -- the cut lies inside the body
            obtain ⟨b, hb', rfl⟩ := Option.map_eq_some_iff.mp hb
            rw [CString.bytes_ofBytes hnul] at hb'
            have hafter := after_append hb' q
            rw [h, after_httpRequest hhost hkey, Option.some.injEq, buildRequest,
              Json.bytes_printUnformatted] at hafter
            have hnone := Json.parse_truncated (ν := ν) hafter.symm hq
            simp [failureReplies, chatReply, handleChatCompletions, hnone]
      · cases hreply
        simp [failureReplies]

omit hhost hkey

/-- An object with nothing but an error has no choices. -/
theorem chosenMessage_error (text : String) :
    chosenMessage (ν := ν)
      (some (Json.object [member "error" (str text)] : Json ν).printUnformatted) = none := by
  rw [chosenMessage_print (Nat.le_of_ble_eq_true rfl)]
  rfl

/-- An error reply offers nothing the agent could choose. -/
theorem chosenMessage_of_failure {reply : Bytes} (h : reply ∈ failureReplies)
    {chunks : List Bytes} (hw : Whole chunks (some reply)) :
    chosenMessage (ν := ν) (extractBody (recvAll chunks)) = none := by
  simp only [failureReplies, List.mem_cons, List.not_mem_nil, or_false] at h
  rcases h with rfl | rfl | rfl
  · rw [extractBody_of_whole (by decide) (by decide) hw]
    rfl
  · rw [extractBody_of_whole (by decide) (by decide) hw]
    exact chosenMessage_error "No body"
  · rw [extractBody_of_whole (by decide) (by decide) hw]
    exact chosenMessage_error "Invalid JSON"

/-- **Truncated requests fail closed.**  On a proper prefix of a request the server sends nothing
or an error reply without a choice, and an agent that receives just that, or nothing, ends its run
with -1 and has run no tool. -/
theorem truncated_fails_closed {client : HttpClient} {addr : List UInt8}
    (hhost : inetPton client.host = some addr)
    (hkey : ∀ apiKey ∈ client.apiKey, FreeOfLineEnds apiKey) {messages : List (Json ν)}
    {p q : Bytes}
    (h : p ++ q = httpRequest client endpoint (buildRequest messages client.model)) (hq : q ≠ []) :
    (∀ reply ∈ handleClient ν c p, reply ∈ failureReplies ∧ ∀ chunks, Whole chunks (some reply) →
        chosenMessage (ν := ν) (extractBody (recvAll chunks)) = none) ∧
      ∀ (σ : Type) (k : Kernel σ) (ctx : ToolContext) (budget step : ℕ) (w : σ),
        (∀ server w', let chunks := (k.exchange server
            (httpRequest client endpoint (buildRequest messages client.model)) w').1
          chunks = [] ∨ Whole chunks (handleClient ν c p)) →
        let o := (Traced.iterate (agentStep k ctx client) budgetExhausted (budget + 1)
          (step, messages)).run w
        o.val = -1 ∧ actions o.trace = [] := by
  have hfail := handleClient_truncated c hhost (blankLineFree_of_freeOfLineEnds hkey) h hq
  refine ⟨fun reply hr ↦ ⟨hfail reply hr, fun _ ↦ chosenMessage_of_failure (hfail reply hr)⟩, ?_⟩
  intro σ k ctx budget step w hex
  have hnone : chosenMessage (ν := ν) (stepReply k client messages w) = none := by
    rcases stepReply_eq_none_or k client messages w with he | ⟨server, w', he⟩
    · rw [he]
      rfl
    · rw [he]
      rcases hex server w' with hnil | hwhole
      · rw [hnil]
        rfl
      · cases hr : handleClient ν c p with
        | none =>
            rw [hr] at hwhole
            rw [extractBody_of_whole_none hwhole]
            rfl
        | some reply =>
            rw [hr] at hwhole
            exact chosenMessage_of_failure (hfail reply hr) hwhole
  have hval := val_agentStep_of_none k ctx client (step, messages) hnone
  rw [Traced.run_iterate_of_inl budgetExhausted budget hval]
  exact ⟨rfl, actions_agentStep_of_none k ctx client (step, messages) hnone⟩

end Server

/-- The request of a run that has just started. -/
def firstRequest : Bytes :=
  httpRequest localClient endpoint
    (buildRequest (initialMessages (ν := ℤ) (.lit "hi")) localClient.model)

/-- The same request without its last byte, the brace that closes the body. -/
def cutRequest : Bytes := firstRequest.dropLast

theorem cutRequest_append :
    cutRequest ++ [firstRequest.getLast (by decide +kernel)] = firstRequest :=
  List.dropLast_append_getLast _

/-- The reply to a body that does not parse. -/
def invalidJsonReply : Bytes :=
  sendHttpResponse 200 "OK" "application/json" (.lit "\x7b\"error\":\"Invalid JSON\"\x7d")

theorem handleClient_cutRequest :
    handleClient ℤ neuralInference cutRequest = some invalidJsonReply := by
  decide +kernel

/-- A kernel whose server has read all but the last byte. -/
def cutKernel : Kernel Unit where
  fopenRead _ w := (none, w)
  fopenWrite _ _ w := (false, w)
  opendir _ w := (none, w)
  popen _ w := (none, w)
  socket w := (true, w)
  connect _ w := (true, w)
  exchange _ _ w := ([invalidJsonReply], w)

/-- The request of a fresh run, cut inside its body. -/
theorem truncated_fails_closed_lastByte :
    handleClient ℤ neuralInference cutRequest = some invalidJsonReply ∧
      (∀ reply ∈ handleClient ℤ neuralInference cutRequest, reply ∈ failureReplies ∧
        ∀ chunks, Whole chunks (some reply) →
          chosenMessage (ν := ℤ) (extractBody (recvAll chunks)) = none) ∧
      let o := (Traced.iterate (agentStep (ν := ℤ) cutKernel ⟨.lit "."⟩ localClient)
        budgetExhausted 50 (0, initialMessages (.lit "hi"))).run ()
      o.val = -1 ∧ actions o.trace = [] := by
  have h := truncated_fails_closed neuralInference inetPton_localClient (by simp [localClient])
    cutRequest_append (List.cons_ne_nil _ _)
  refine ⟨handleClient_cutRequest, h.1,
    h.2 Unit cutKernel ⟨.lit "."⟩ 49 0 () fun server w' ↦ Or.inr ?_⟩
  rw [handleClient_cutRequest]
  have hne : [] ∉ [invalidJsonReply] := by decide
  exact ⟨hne, by simp [cutKernel]⟩

end KernelTests.CAgent
