import KernelTests.CAgent.Server
import KernelTests.CAgent.History

/-!
# Requests and replies on the wire

Both programs find the body of a message behind the first blank line.  Here is why
they find the right one: no header line contains a carriage return of its own, even
one that the format buffer has cut, so the first blank line is the one that was put
there.
-/

namespace KernelTests.CAgent

open Text

/-! ## Header lines -/

/-- The text goes on with a character that is no part of a line end. -/
def StartsLine (rest : Bytes) : Prop := rest.head?.any fun c ↦ c ≠ 13 ∧ c ≠ 10

instance (rest : Bytes) : Decidable (StartsLine rest) := inferInstanceAs (Decidable (_ = true))

theorem StartsLine.exists_cons {rest : Bytes} (h : StartsLine rest) :
    ∃ c s, rest = c :: s ∧ c ≠ 13 ∧ c ≠ 10 := by
  cases rest with
  | nil => cases h
  | cons c s => exact ⟨c, s, rfl, by simpa [StartsLine] using h⟩

theorem StartsLine.append {l : Bytes} (h : StartsLine l) (r : Bytes) : StartsLine (l ++ r) := by
  obtain ⟨c, s, rfl, _⟩ := h.exists_cons
  exact h

theorem StartsLine.sbAppendf {l : Bytes} (h : StartsLine l) : StartsLine (sbAppendf l) := by
  obtain ⟨c, s, rfl, _⟩ := h.exists_cons
  exact h

/-- The blank line is searched behind a single line end. -/
theorem after_lineEnd {rest : Bytes} (h : StartsLine rest) :
    after blankLine (13 :: 10 :: rest) = after blankLine rest := by
  obtain ⟨c, s, rfl, h₁, h₂⟩ := h.exists_cons
  rw [after, if_neg (by simp [blankLine, h₁.symm]), after, if_neg (by simp [blankLine])]

/-- A carriage return alone is passed over as well. -/
theorem after_carriageReturn {rest : Bytes} (h : StartsLine rest) :
    after blankLine (13 :: rest) = after blankLine rest := by
  obtain ⟨c, s, rfl, h₁, h₂⟩ := h.exists_cons
  rw [after, if_neg (by simp [blankLine, h₂.symm])]

/-- A header line is passed over. -/
theorem after_line {line rest : Bytes} (h : 13 ∉ line) (hr : StartsLine rest) :
    after blankLine (line ++ ascii "\r\n" ++ rest) = after blankLine rest := by
  rw [List.append_assoc]
  exact (after_skip h _).trans (after_lineEnd hr)

/-- So is a header line that went through the format buffer, wherever it was cut. -/
theorem after_sbAppendf {line rest : Bytes} (h : 13 ∉ line) (hr : StartsLine rest) :
    after blankLine (sbAppendf (line ++ ascii "\r\n") ++ rest) = after blankLine rest := by
  rw [sbAppendf, List.take_append]
  rcases Nat.lt_or_ge 4095 line.length with hlt | hge
  · have h0 : 4095 - line.length = 0 := by omega
    rw [h0, List.take_zero, List.append_nil]
    exact after_skip (fun hm ↦ h (List.mem_of_mem_take hm)) rest
  · rw [List.take_of_length_le hge, List.append_assoc]
    refine (after_skip h _).trans ?_
    rcases hk : 4095 - line.length with _ | _ | n
    · rfl
    · exact after_carriageReturn hr
    · have htake : (ascii "\r\n").take (n + 1 + 1) = ascii "\r\n" := by
        rw [List.take_of_length_le]
        exact Nat.le_add_left 2 n
      rw [htake]
      exact after_lineEnd hr

/-! ## Requests -/

/-- A part of an address consists of digits. -/
theorem isDigit_of_octet {part : Bytes} {v : UInt8} (h : octet part = some v) :
    ∀ c ∈ part, isDigit c := by
  simp only [octet] at h
  split at h
  · next hp => exact List.all_eq_true.mp hp.2.2.1
  · cases h

theorem octet_of_mapM {parts : List Bytes} {addr : List UInt8} (h : parts.mapM octet = some addr) :
    ∀ part ∈ parts, ∃ v, octet part = some v := by
  induction parts generalizing addr with
  | nil => simp
  | cons part parts ih =>
      simp only [List.mapM_cons, Option.bind_eq_bind, Option.bind_eq_some_iff] at h
      obtain ⟨v, hv, vs, hvs, _⟩ := h
      exact List.forall_mem_cons.mpr ⟨⟨v, hv⟩, ih hvs⟩

/-- The characters of an address. -/
theorem host_chars {host : CString} {addr : List UInt8} (h : inetPton host = some addr) :
    ∀ c ∈ host.bytes, c = 46 ∨ isDigit c := by
  intro c hc
  simp only [inetPton] at h
  split at h
  · refine (mem_splitOn hc).imp_right fun ⟨part, hp, hcp⟩ ↦ ?_
    obtain ⟨v, hv⟩ := octet_of_mapM h part hp
    exact isDigit_of_octet hv c hcp
  · cases h

/-- The lines of a request in front of the key. -/
def requestOpening (client : HttpClient) : Bytes :=
  sbAppendf (ascii "POST " ++ endpoint.bytes ++ ascii " HTTP/1.1\r\n") ++
  sbAppendf (ascii "Host: " ++ client.host.bytes ++ ascii ":" ++ decimal client.port ++
    ascii "\r\n") ++
  ascii "Content-Type: application/json\r\n"

/-- The lines behind the key, and the body. -/
def requestClosing (body : CString) : Bytes :=
  sbAppendf (ascii "Content-Length: " ++ decimalNat body.strlen ++ ascii "\r\n") ++
  ascii "Connection: close\r\n" ++
  ascii "\r\n" ++
  body.bytes

theorem httpRequest_eq_append (client : HttpClient) (body : CString) :
    httpRequest client endpoint body =
      requestOpening client ++ (authorization client.apiKey ++ requestClosing body) := by
  simp only [httpRequest, requestOpening, requestClosing, List.append_assoc]

/-- There is no blank line in front of the key. -/
theorem after_requestOpening {client : HttpClient} {addr : List UInt8}
    (hhost : inetPton client.host = some addr) {rest : Bytes} (hr : StartsLine rest) :
    after blankLine (requestOpening client ++ rest) = after blankLine rest := by
  have hline : ascii "POST " ++ endpoint.bytes ++ ascii " HTTP/1.1\r\n" =
      ascii "POST /v1/chat/completions HTTP/1.1" ++ ascii "\r\n" := by decide
  have htype : ascii "Content-Type: application/json\r\n" =
      ascii "Content-Type: application/json" ++ ascii "\r\n" := by decide
  have hhost13 : 13 ∉ ascii "Host: " ++ client.host.bytes ++ ascii ":" ++ decimal client.port := by
    simp only [List.mem_append, not_or]
    refine ⟨⟨⟨by decide, fun h ↦ ?_⟩, by decide⟩, fun h ↦ ?_⟩
    · exact absurd (host_chars hhost 13 h) (by decide)
    · exact absurd (mem_decimal h) (by decide)
  rw [requestOpening, hline, htype, List.append_assoc, List.append_assoc, after_sbAppendf (by decide),
    after_sbAppendf hhost13, after_line (by decide) hr]
  · rw [List.append_assoc]
    exact StartsLine.append (by decide) _
  · rw [List.append_assoc, List.append_assoc, List.append_assoc]
    exact (StartsLine.append (by decide) _).sbAppendf.append _

/-- The body stands behind the blank line that ends the header. -/
theorem after_requestClosing (body : CString) :
    after blankLine (requestClosing body) = some body.bytes := by
  have h13 : 13 ∉ ascii "Content-Length: " ++ decimalNat body.strlen := by
    simp only [List.mem_append, not_or]
    exact ⟨by decide, fun h ↦ absurd (isDigit_of_mem_decimalNat h) (by decide)⟩
  have hclose : ascii "Connection: close\r\n" ++ ascii "\r\n" =
      ascii "Connection: close" ++ blankLine := by decide
  rw [requestClosing, List.append_assoc _ (ascii "Connection: close\r\n"), hclose, List.append_assoc,
    after_sbAppendf h13]
  · rw [List.append_assoc]
    exact (after_skip (by decide) _).trans (after_self_append (by decide) _)
  · rw [List.append_assoc]
    exact StartsLine.append (by decide) _

theorem startsLine_requestClosing (body : CString) : StartsLine (requestClosing body) := by
  rw [requestClosing, List.append_assoc (ascii "Content-Length: "), List.append_assoc (sbAppendf _),
    List.append_assoc (sbAppendf _)]
  exact (StartsLine.append (by decide) _).sbAppendf.append _

/-- A key whose header line has no blank line in it. -/
def BlankLineFree (apiKey : Option CString) : Prop := ¬ blankLine <:+: authorization apiKey

instance (apiKey : Option CString) : Decidable (BlankLineFree apiKey) :=
  inferInstanceAs (Decidable (¬ _))

theorem startsLine_authorization {apiKey : Option CString} (h : authorization apiKey ≠ []) :
    StartsLine (authorization apiKey) := by
  cases apiKey with
  | none => exact absurd rfl h
  | some key =>
      rw [authorization, List.append_assoc]
      exact (StartsLine.append (by decide) _).sbAppendf

/-- Behind such a key the next blank line is the one that ends the header. -/
theorem after_authorization {apiKey : Option CString} (h : BlankLineFree apiKey) (body : CString) :
    after blankLine (authorization apiKey ++ requestClosing body) = some body.bytes := by
  rw [← after_requestClosing body]
  obtain ⟨c, s, hs, h₁, h₂⟩ := (startsLine_requestClosing body).exists_cons
  rw [hs]
  exact after_append_cons h (by simp [blankLine, h₁, h₂]) s

/-- A header value without line ends. -/
def FreeOfLineEnds (s : CString) : Prop := 13 ∉ s.bytes ∧ 10 ∉ s.bytes

theorem blankLineFree_of_freeOfLineEnds {apiKey : Option CString}
    (h : ∀ key ∈ apiKey, FreeOfLineEnds key) : BlankLineFree apiKey := by
  intro hblank
  cases apiKey with
  | none => exact absurd (List.infix_nil.mp hblank) (by decide)
  | some key =>
      have hprefix : (ascii "Authorization: Bearer ").count 13 = 0 := by decide
      have hend : (ascii "\r\n").count 13 = 1 := by decide
      have htwo : blankLine.count 13 = 2 := by decide
      have hcount : blankLine.count 13 ≤ (ascii "Authorization: Bearer " ++ key.bytes ++
          ascii "\r\n").count 13 :=
        (hblank.sublist.trans (List.take_sublist 4095 _)).count_le 13
      rw [List.count_append, List.count_append, List.count_eq_zero.mpr (h key rfl).1, hprefix, hend,
        htwo] at hcount
      omega

/-- The body of a request stands behind its first blank line. -/
theorem after_httpRequest {client : HttpClient} {addr : List UInt8}
    (hhost : inetPton client.host = some addr) (hkey : BlankLineFree client.apiKey)
    (body : CString) :
    after blankLine (httpRequest client endpoint body) = some body.bytes := by
  rw [httpRequest_eq_append, after_requestOpening hhost, after_authorization hkey]
  by_cases h : authorization client.apiKey = []
  · rw [h]
    exact startsLine_requestClosing body
  · exact (startsLine_authorization h).append _

/-! ## Replies -/

/-- A header line as `send_http_response` composes it: short, without line ends and NUL. -/
def PlainLine (line : Bytes) : Prop := line.length ≤ 100 ∧ ∀ c ∈ line, c ≠ 13 ∧ c ≠ 0

instance (line : Bytes) : Decidable (PlainLine line) :=
  @instDecidableAnd _ _ (Nat.decLe _ _) (List.decidableBAll _ line)

/-- The status line. -/
def statusLine (statusCode : ℕ) (statusText : String) : Bytes :=
  ascii "HTTP/1.1 " ++ decimalNat statusCode ++ ascii " " ++ ascii statusText

/-- The line that declares the type of the body. -/
def typeLine (contentType : String) : Bytes := ascii "Content-Type: " ++ ascii contentType

/-- The line that declares the length of the body. -/
def lengthLine (body : CString) : Bytes :=
  ascii "Content-Length: " ++ decimal (Int.bmod body.strlen (2 ^ 32))

theorem plainLine_lengthLine (body : CString) : PlainLine (lengthLine body) := by
  have hge := Int.le_bmod (x := body.strlen) (m := 2 ^ 32) (by decide)
  have hlt := Int.bmod_lt (x := body.strlen) (m := 2 ^ 32) (by decide)
  have htext : NumberText (decimal (Int.bmod body.strlen (2 ^ 32))) :=
    numberText_decimal (by omega)
  have hlen : (ascii "Content-Length: ").length = 16 := by decide
  refine ⟨?_, fun c hc ↦ ?_⟩
  · rw [lengthLine, List.length_append, hlen]
    have := htext.short
    omega
  · rcases List.mem_append.mp hc with hc | hc
    · have hplain : PlainLine (ascii "Content-Length: ") := by decide
      exact hplain.2 c hc
    · rcases mem_decimal hc with rfl | hd
      · decide
      · constructor <;> rintro rfl <;> exact absurd hd (by decide)

variable {statusCode : ℕ} {statusText contentType : String}

/-- A response, line by line. -/
theorem sendHttpResponse_eq (hs : PlainLine (statusLine statusCode statusText))
    (ht : PlainLine (typeLine contentType)) (body : CString) :
    sendHttpResponse statusCode statusText contentType body =
      statusLine statusCode statusText ++ ascii "\r\n" ++ (typeLine contentType ++ ascii "\r\n" ++
        (lengthLine body ++ ascii "\r\n" ++ (ascii "Access-Control-Allow-Origin: *" ++ ascii "\r\n" ++
          (ascii "Connection: close" ++ (blankLine ++ body.bytes))))) := by
  have horigin : ascii "Access-Control-Allow-Origin: *\r\n" =
      ascii "Access-Control-Allow-Origin: *" ++ ascii "\r\n" := by decide
  have hclose : ascii "Connection: close\r\n" ++ ascii "\r\n" =
      ascii "Connection: close" ++ blankLine := by decide
  have h₁ : (ascii "\r\n").length = 2 := by decide
  have h₂ : (ascii "Access-Control-Allow-Origin: *\r\n").length = 32 := by decide
  have h₃ : (ascii "Connection: close\r\n").length = 19 := by decide
  have hlen := (plainLine_lengthLine body).1
  have hs' := hs.1
  have ht' := ht.1
  simp only [statusLine, typeLine, lengthLine, List.length_append] at hs' ht' hlen
  rw [sendHttpResponse, List.take_of_length_le]
  · rw [List.append_assoc _ (ascii "Connection: close\r\n"), hclose, horigin]
    simp only [statusLine, typeLine, lengthLine, List.append_assoc]
  · simp only [List.length_append]
    omega

/-- The body of a response stands behind its first blank line. -/
theorem after_sendHttpResponse (hs : PlainLine (statusLine statusCode statusText))
    (ht : PlainLine (typeLine contentType)) (body : CString) :
    after blankLine (sendHttpResponse statusCode statusText contentType body) =
      some body.bytes := by
  have hlength := plainLine_lengthLine body
  have hno : ∀ {line : Bytes}, PlainLine line → 13 ∉ line := fun h h13 ↦ (h.2 13 h13).1 rfl
  rw [sendHttpResponse_eq hs ht, after_line (hno hs), after_line (hno ht), after_line (hno hlength),
    after_line (by decide)]
  · exact (after_skip (by decide) _).trans (after_self_append (by decide) _)
  · exact StartsLine.append (by decide) _
  · rw [List.append_assoc]
    exact StartsLine.append (by decide) _
  · rw [lengthLine, List.append_assoc, List.append_assoc]
    exact StartsLine.append (by decide) _
  · rw [typeLine, List.append_assoc, List.append_assoc]
    exact StartsLine.append (by decide) _

/-- A response contains no NUL. -/
theorem zero_notMem_sendHttpResponse (hs : PlainLine (statusLine statusCode statusText))
    (ht : PlainLine (typeLine contentType)) (body : CString) :
    0 ∉ sendHttpResponse statusCode statusText contentType body := by
  have hno : ∀ {line : Bytes}, PlainLine line → 0 ∉ line := fun h h0 ↦ (h.2 0 h0).2 rfl
  rw [sendHttpResponse_eq hs ht]
  simp only [List.mem_append, not_or]
  exact ⟨⟨hno hs, by decide⟩, ⟨hno ht, by decide⟩, ⟨hno (plainLine_lengthLine body), by decide⟩,
    ⟨by decide, by decide⟩, by decide, by decide, body.noNul⟩

/-- The chunks are a reply, whole; no reply means that the connection is closed at once. -/
def Whole (chunks : List Bytes) (reply : Option Bytes) : Prop :=
  [] ∉ chunks ∧ chunks.flatten = reply.getD []

/-- A response that arrives whole, in whatever chunks, delivers its body. -/
theorem extractBody_of_whole (hs : PlainLine (statusLine statusCode statusText))
    (ht : PlainLine (typeLine contentType)) {body : CString} {chunks : List Bytes}
    (h : Whole chunks (some (sendHttpResponse statusCode statusText contentType body))) :
    extractBody (recvAll chunks) = some body := by
  have hchunks : ∀ chunk ∈ chunks, chunk ≠ [] ∧ 0 ∉ chunk := by
    refine fun chunk hc ↦ ⟨fun he ↦ h.1 (he ▸ hc), fun h0 ↦ ?_⟩
    refine zero_notMem_sendHttpResponse hs ht body ?_
    rw [← Option.getD_some (a := sendHttpResponse statusCode statusText contentType body), ← h.2]
    exact List.mem_flatten_of_mem hc h0
  refine extractBody_of_after ?_
  rw [bytes_recvAll hchunks, h.2]
  exact after_sendHttpResponse hs ht body

/-- Without a reply there is no body. -/
theorem extractBody_of_whole_none {chunks : List Bytes} (h : Whole chunks none) :
    extractBody (recvAll chunks) = none := by
  have hnil : chunks = [] := by
    cases chunks with
    | nil => rfl
    | cons chunk chunks =>
        have he := (List.append_eq_nil_iff.mp h.2).1
        exact absurd (he ▸ List.mem_cons_self) h.1
  rw [hnil]
  rfl

end KernelTests.CAgent
