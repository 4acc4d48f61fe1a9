import KernelTests.CAgent.Exchange
import KernelTests.Text.Message

/-!
# The request as a message

`http_post` formats its header lines through a buffer of 4096 bytes and appends them as
text.  Here is when the bytes it sends are the message it means: the request line, the
headers and the body, with the key of the client in its header and nowhere else.
-/

namespace KernelTests.CAgent

open Message

/-! ## The request that is meant -/

/-- The header for the key of the client, if it has one. -/
def keyHeader : Option CString → List (Bytes × Bytes)
  | some apiKey => [(ascii "Authorization", ascii "Bearer " ++ apiKey.bytes)]
  | none => []

/-- The request for a body. -/
def intendedRequest (client : HttpClient) (body : CString) : Message where
  startLine := ascii "POST /v1/chat/completions HTTP/1.1"
  headers := [(ascii "Host", client.host.bytes ++ ascii ":" ++ decimal client.port),
    (ascii "Content-Type", ascii "application/json")] ++ keyHeader client.apiKey ++
    [(ascii "Content-Length", decimalNat body.strlen), (ascii "Connection", ascii "close")]
  body := body.bytes

/-! ## Lengths -/

/-- An address is short. -/
theorem length_host_le {host : CString} {addr : List UInt8} (h : inetPton host = some addr) :
    host.bytes.length ≤ 15 := by
  simp only [inetPton] at h
  split at h
  · next hparts =>
    obtain ⟨a, b, c, d, habcd⟩ := List.length_eq_four.mp hparts
    have hshort : ∀ part ∈ host.bytes.splitOn 46, part.length ≤ 3 := by
      intro part hpart
      obtain ⟨v, hv⟩ := octet_of_mapM h part hpart
      simp only [octet] at hv
      split at hv
      · next hp => exact hp.2.1
      · cases hv
    have htext : [46].intercalate (host.bytes.splitOn 46) = host.bytes := List.intercalate_splitOn 46
    rw [habcd] at htext hshort
    simp only [List.forall_mem_cons] at hshort
    rw [← htext]
    simp [List.intercalate]
    omega
  · cases h

/-- A value of type `int`. -/
def IsInt (z : ℤ) : Prop := -2 ^ 31 ≤ z ∧ z < 2 ^ 31

theorem length_decimal_le {z : ℤ} (h : IsInt z) : (decimal z).length ≤ 25 := by
  obtain ⟨hlo, hhi⟩ := h
  exact (numberText_decimal (z := z) (by omega)).short

theorem sbAppendf_writeLine {line : Bytes} (h : line.length ≤ 4093) :
    sbAppendf (writeLine line) = writeLine line := by
  refine List.take_of_length_le ?_
  rw [writeLine, List.length_append]
  exact Nat.add_le_add_right h 2

/-! ## The request that is sent -/

variable {client : HttpClient} {addr : List UInt8}

/-- The headers in front of the key. -/
def openingHeaders (client : HttpClient) : List (Bytes × Bytes) :=
  [(ascii "Host", client.host.bytes ++ ascii ":" ++ decimal client.port),
    (ascii "Content-Type", ascii "application/json")]

/-- The headers behind the key. -/
def closingHeaders (body : CString) : List (Bytes × Bytes) :=
  [(ascii "Content-Length", decimalNat body.strlen), (ascii "Connection", ascii "close")]

/-- Everything but the line with the key is sent as it is meant. -/
theorem httpRequest_eq (hhost : inetPton client.host = some addr) (hport : IsInt client.port)
    {body : CString} (hbody : body.strlen < 2 ^ 64) :
    httpRequest client endpoint body =
      writeLine (ascii "POST /v1/chat/completions HTTP/1.1") ++
        (writeHeaders (openingHeaders client) ++ (authorization client.apiKey ++
          (writeHeaders (closingHeaders body) ++ (writeLine [] ++ body.bytes)))) := by
  have hstart : sbAppendf (ascii "POST " ++ endpoint.bytes ++ ascii " HTTP/1.1\r\n") =
      writeLine (ascii "POST /v1/chat/completions HTTP/1.1") := by decide
  have hhostLine : sbAppendf (ascii "Host: " ++ client.host.bytes ++ ascii ":" ++
      decimal client.port ++ ascii "\r\n") =
      writeLine (headerLine (ascii "Host", client.host.bytes ++ ascii ":" ++ decimal client.port)) := by
    have htext : ascii "Host: " ++ client.host.bytes ++ ascii ":" ++ decimal client.port ++
        ascii "\r\n" = writeLine (headerLine
          (ascii "Host", client.host.bytes ++ ascii ":" ++ decimal client.port)) := by
      simp [writeLine, headerLine, ascii]
    rw [htext]
    refine sbAppendf_writeLine ?_
    have hlen := length_host_le hhost
    have hdec := length_decimal_le hport
    have hname : (ascii "Host").length = 4 := rfl
    have hcolon : (ascii ":").length = 1 := rfl
    simp only [headerLine, List.length_append, List.length_cons, hname, hcolon]
    omega
  have hlength : sbAppendf (ascii "Content-Length: " ++ decimalNat body.strlen ++ ascii "\r\n") =
      writeLine (headerLine (ascii "Content-Length", decimalNat body.strlen)) := by
    have htext : ascii "Content-Length: " ++ decimalNat body.strlen ++ ascii "\r\n" =
        writeLine (headerLine (ascii "Content-Length", decimalNat body.strlen)) := by
      simp [writeLine, headerLine, ascii]
    rw [htext]
    refine sbAppendf_writeLine ?_
    have hdec : (decimalNat body.strlen).length ≤ 20 :=
      length_decimalNat_le (by decide) (hbody.trans (by decide))
    have hname : (ascii "Content-Length").length = 14 := rfl
    simp only [headerLine, List.length_append, List.length_cons, hname]
    omega
  have htype : ascii "Content-Type: application/json\r\n" =
      writeLine (headerLine (ascii "Content-Type", ascii "application/json")) := by decide
  have hclose : ascii "Connection: close\r\n" =
      writeLine (headerLine (ascii "Connection", ascii "close")) := by decide
  have hblank : ascii "\r\n" = writeLine [] := by decide
  rw [httpRequest, hstart, hhostLine, hlength, htype, hclose, hblank]
  simp only [openingHeaders, closingHeaders, writeHeaders, List.flatMap_cons, List.flatMap_nil,
    List.append_nil, List.append_assoc]

/-- The request that is meant, with the line of the key. -/
theorem write_intendedRequest (client : HttpClient) (body : CString) :
    (intendedRequest client body).write =
      writeLine (ascii "POST /v1/chat/completions HTTP/1.1") ++
        (writeHeaders (openingHeaders client) ++ (writeHeaders (keyHeader client.apiKey) ++
          (writeHeaders (closingHeaders body) ++ (writeLine [] ++ body.bytes)))) := by
  simp only [intendedRequest, write, openingHeaders, closingHeaders, writeHeaders,
    List.flatMap_append, List.append_assoc]

/-- The line of the key is sent as it is meant if it fits into the buffer. -/
theorem authorization_eq_iff (apiKey : Option CString) :
    authorization apiKey = writeHeaders (keyHeader apiKey) ↔
      ∀ key ∈ apiKey, key.strlen ≤ 4071 := by
  cases apiKey with
  | none => exact iff_of_true rfl (by simp)
  | some key =>
      have htext : ascii "Authorization: Bearer " ++ key.bytes ++ ascii "\r\n" =
          writeHeaders (keyHeader (some key)) := by
        simp [writeHeaders, keyHeader, writeLine, headerLine, ascii]
      have hlen : (writeHeaders (keyHeader (some key))).length = 24 + key.strlen := by
        have hname : (ascii "Authorization: Bearer ").length = 22 := rfl
        have hend : (ascii "\r\n").length = 2 := rfl
        rw [← htext, List.length_append, List.length_append, hname, hend, CString.strlen]
        omega
      rw [authorization, htext, sbAppendf, List.take_eq_self_iff, hlen]
      simp only [Option.mem_def, Option.some.injEq, forall_eq']
      omega

/-! ## Framing -/

theorem isLineText_of_isDigit {c : UInt8} (h : isDigit c) : isLineText c := by
  have h13 : ¬ isDigit 13 := by decide
  have h10 : ¬ isDigit 10 := by decide
  have hne : c ≠ 13 ∧ c ≠ 10 := ⟨fun he ↦ h13 (he ▸ h), fun he ↦ h10 (he ▸ h)⟩
  simpa [isLineText] using hne

theorem isLineText_of_mem_decimal {z : ℤ} {c : UInt8} (h : c ∈ decimal z) : isLineText c := by
  rcases mem_decimal h with rfl | hd
  · decide
  · exact isLineText_of_isDigit hd

theorem isLineText_of_mem_host (hhost : inetPton client.host = some addr) :
    ∀ c ∈ client.host.bytes, isLineText c := by
  intro c hc
  rcases host_chars hhost c hc with rfl | hd
  · decide
  · exact isLineText_of_isDigit hd

/-- The headers around the key stand on lines. -/
theorem wellFormedHeaders_around (hhost : inetPton client.host = some addr) (body : CString) :
    WellFormedHeaders (openingHeaders client) ∧ WellFormedHeaders (closingHeaders body) := by
  have hhostName : (58 : UInt8) ∉ ascii "Host" ∧ ∀ c ∈ ascii "Host", isLineText c := by decide
  have hlengthName : (58 : UInt8) ∉ ascii "Content-Length" ∧
      ∀ c ∈ ascii "Content-Length", isLineText c := by decide
  have htype : (58 : UInt8) ∉ ascii "Content-Type" ∧
      ∀ c ∈ headerLine (ascii "Content-Type", ascii "application/json"), isLineText c := by decide
  have hclose : (58 : UInt8) ∉ ascii "Connection" ∧
      ∀ c ∈ headerLine (ascii "Connection", ascii "close"), isLineText c := by decide
  have hcolon : ∀ c ∈ ascii ":", isLineText c := by decide
  have hsep : isLineText 58 ∧ isLineText 32 := by decide
  have hdigits : ∀ c ∈ decimalNat body.strlen, isLineText c := fun c hc ↦
    isLineText_of_isDigit (isDigit_of_mem_decimalNat hc)
  simp only [WellFormedHeaders, openingHeaders, closingHeaders, List.forall_mem_cons]
  refine ⟨⟨⟨hhostName.1, ?_⟩, htype, List.forall_mem_nil _⟩, ⟨hlengthName.1, ?_⟩, hclose,
    List.forall_mem_nil _⟩
  · simp only [headerLine, List.forall_mem_append, List.forall_mem_cons]
    exact ⟨hhostName.2, hsep.1, hsep.2, ⟨isLineText_of_mem_host hhost, hcolon⟩,
      fun c hc ↦ isLineText_of_mem_decimal hc⟩
  · simp only [headerLine, List.forall_mem_append, List.forall_mem_cons]
    exact ⟨hlengthName.2, hsep.1, hsep.2, hdigits⟩

theorem wellFormedHeaders_keyHeader_iff (apiKey : Option CString) :
    WellFormedHeaders (keyHeader apiKey) ↔ ∀ key ∈ apiKey, FreeOfLineEnds key := by
  cases apiKey with
  | none => exact iff_of_true (List.forall_mem_nil _) (by simp)
  | some key =>
      have hname : (58 : UInt8) ∉ ascii "Authorization" := by decide
      have hchars : ∀ c ∈ ascii "Authorization" ++ 58 :: 32 :: ascii "Bearer ", isLineText c := by
        decide
      have hline : headerLine (ascii "Authorization", ascii "Bearer " ++ key.bytes) =
          (ascii "Authorization" ++ 58 :: 32 :: ascii "Bearer ") ++ key.bytes := by
        simp [headerLine]
      have happend : (∀ c ∈ (ascii "Authorization" ++ 58 :: 32 :: ascii "Bearer ") ++ key.bytes,
          isLineText c) ↔ (∀ c ∈ ascii "Authorization" ++ 58 :: 32 :: ascii "Bearer ",
            isLineText c) ∧ ∀ c ∈ key.bytes, isLineText c := List.forall_mem_append
      simp only [WellFormedHeaders, keyHeader, List.forall_mem_singleton, hline, happend,
        Option.mem_def, Option.some.injEq, forall_eq', FreeOfLineEnds]
      constructor
      · rintro ⟨_, _, hkey⟩
        exact ⟨fun h ↦ absurd (hkey 13 h) (by decide), fun h ↦ absurd (hkey 10 h) (by decide)⟩
      · rintro ⟨h13, h10⟩
        refine ⟨hname, hchars, fun c hc ↦ ?_⟩
        have hne : c ≠ 13 ∧ c ≠ 10 := ⟨fun he ↦ h13 (he ▸ hc), fun he ↦ h10 (he ▸ hc)⟩
        simpa [isLineText] using hne

/-- The message is well formed if the key has no line ends. -/
theorem wellFormed_intendedRequest_iff (hhost : inetPton client.host = some addr)
    (body : CString) :
    (intendedRequest client body).WellFormed ↔ ∀ key ∈ client.apiKey, FreeOfLineEnds key := by
  obtain ⟨hopening, hclosing⟩ := wellFormedHeaders_around hhost body
  have hstart : ∀ c ∈ ascii "POST /v1/chat/completions HTTP/1.1", isLineText c := by decide
  rw [← wellFormedHeaders_keyHeader_iff]
  constructor
  · rintro ⟨_, hheaders⟩ header hmem
    exact hheaders header (List.mem_append_left _ (List.mem_append_right _ hmem))
  · intro hkey
    refine ⟨hstart, fun header hmem ↦ ?_⟩
    rcases List.mem_append.mp hmem with hmem | hmem
    · exact (List.mem_append.mp hmem).elim (hopening header) (hkey header)
    · exact hclosing header hmem

/-- **Framing.**  The bytes that are sent are the message that is meant if and only if the key has
no line ends and fits into the format buffer with its line. -/
theorem read_httpRequest_iff (hhost : inetPton client.host = some addr)
    (hport : IsInt client.port) {body : CString} (hbody : body.strlen < 2 ^ 64) :
    Message.read (httpRequest client endpoint body) = some (intendedRequest client body) ↔
      ∀ key ∈ client.apiKey, FreeOfLineEnds key ∧ key.strlen ≤ 4071 := by
  rw [read_eq_some_iff, httpRequest_eq hhost hport hbody, write_intendedRequest,
    List.append_cancel_left_eq, List.append_cancel_left_eq, List.append_cancel_right_eq,
    authorization_eq_iff, wellFormed_intendedRequest_iff hhost, ← forall₂_and]
  exact forall₂_congr fun key _ ↦ and_comm

/-- A client with a key. -/
def keyClient (apiKey : CString) : HttpClient :=
  ⟨.lit "127.0.0.1", 8080, some apiKey, .lit "test-model"⟩

theorem inetPton_keyClient (apiKey : CString) :
    inetPton (keyClient apiKey).host = some [127, 0, 0, 1] := by
  change inetPton (.lit "127.0.0.1") = some [127, 0, 0, 1]
  decide

/-- The condition at a plain key. -/
theorem read_httpRequest_iff_plain :
    Message.read (httpRequest (keyClient (.lit "secret")) endpoint (.lit "[]")) =
        some (intendedRequest (keyClient (.lit "secret")) (.lit "[]")) ↔
      ∀ key ∈ (keyClient (.lit "secret")).apiKey, FreeOfLineEnds key ∧ key.strlen ≤ 4071 :=
  read_httpRequest_iff (inetPton_keyClient _) ⟨by decide, by decide⟩ (by decide)

/-- A key with a line end adds a header. -/
theorem read_httpRequest_ne_injected :
    Message.read (httpRequest (keyClient (.lit "a\r\nX-Debug: 1")) endpoint (.lit "[]")) ≠
      some (intendedRequest (keyClient (.lit "a\r\nX-Debug: 1")) (.lit "[]")) := by
  intro h
  have hwf := (wellFormed_intendedRequest_iff (inetPton_keyClient _) (.lit "[]")).mp
    (read_eq_some_iff.mp h).2 _ rfl
  exact hwf.1 (by decide)

end KernelTests.CAgent
