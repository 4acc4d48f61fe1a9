import KernelTests.CAgent.Exchange
import KernelTests.CAgent.StrBuf

/-!
# The transport of replies

A reply leaves the server in two calls of `write` and arrives at the agent in
chunks of any size the receive buffer has room for.  Here is why `http_post`
returns the body `send_http_response` was given.
-/

namespace KernelTests.CAgent

open Effects

/-! ## Writing -/

/-- The status lines and types `handle_client` uses. -/
def responseKinds : List (ℕ × String × String) :=
  [(200, "OK", "text/plain"), (200, "OK", "application/json"),
    (400, "Bad Request", "application/json"), (404, "Not Found", "text/plain")]

/-- What the two calls of `write` in `send_http_response` transmit: the header, and `body_len`
bytes of the body. -/
def responseWrites (statusCode : ℕ) (statusText contentType : String) (body : CString) :
    List Bytes :=
  [(ascii "HTTP/1.1 " ++ decimalNat statusCode ++ ascii " " ++ ascii statusText ++ ascii "\r\n" ++
    ascii "Content-Type: " ++ ascii contentType ++ ascii "\r\n" ++
    ascii "Content-Length: " ++ decimal (Int.bmod body.strlen (2 ^ 32)) ++ ascii "\r\n" ++
    ascii "Access-Control-Allow-Origin: *\r\n" ++
    ascii "Connection: close\r\n" ++
    ascii "\r\n").take 1023,
    body.bytes.take (Int.bmod body.strlen (2 ^ 32)).toNat]

/-- A body whose length is an `int` is written whole. -/
theorem flatten_responseWrites (statusCode : ℕ) (statusText contentType : String) {body : CString}
    (h : body.strlen < 2 ^ 31) : (responseWrites statusCode statusText contentType body).flatten =
      sendHttpResponse statusCode statusText contentType body := by
  have hlen : Int.bmod body.strlen (2 ^ 32) = body.strlen :=
    Int.bmod_eq_of_le (by omega) (by omega)
  have hbody : body.bytes.take (Int.bmod body.strlen (2 ^ 32)).toNat = body.bytes := by
    rw [hlen, Int.toNat_natCast, CString.strlen, List.take_length]
  rw [responseWrites, hbody, List.flatten_cons, List.flatten_singleton]
  rfl

/-- The header lines of every kind are short and plain. -/
theorem plainLine_of_mem_responseKinds {statusCode : ℕ} {statusText contentType : String}
    (h : (statusCode, statusText, contentType) ∈ responseKinds) :
    PlainLine (statusLine statusCode statusText) ∧ PlainLine (typeLine contentType) := by
  simp only [responseKinds, List.mem_cons, List.not_mem_nil, or_false, Prod.mk.injEq] at h
  rcases h with ⟨rfl, rfl, rfl⟩ | ⟨rfl, rfl, rfl⟩ | ⟨rfl, rfl, rfl⟩ | ⟨rfl, rfl, rfl⟩ <;>
    exact ⟨by decide, by decide⟩

/-- Every reply of the server is of one of the kinds. -/
theorem handleClient_kind {ν : Type} [CNumber ν] (c : Classifier) (read : Bytes) :
    ∀ reply ∈ handleClient ν c read, ∃ kind ∈ responseKinds, ∃ body,
      reply = sendHttpResponse kind.1 kind.2.1 kind.2.2 body := by
  intro reply h
  simp only [handleClient] at h
  split at h
  · cases h
  · split at h
    · cases h
      exact ⟨(200, "OK", "text/plain"), by simp [responseKinds], _, rfl⟩
    · split at h
      · split at h
        · cases h
          exact ⟨(200, "OK", "application/json"), by simp [responseKinds], _, rfl⟩
        · cases h
          exact ⟨(400, "Bad Request", "application/json"), by simp [responseKinds], _, rfl⟩
      · split at h
        · cases h
          exact ⟨(200, "OK", "text/plain"), by simp [responseKinds], _, rfl⟩
        · cases h
          exact ⟨(404, "Not Found", "text/plain"), by simp [responseKinds], _, rfl⟩

/-! ## Reading -/

/-- What `http_post` returns when the connection works. -/
theorem val_httpPost_of_connect {ν σ : Type} {k : Kernel σ} {client : HttpClient}
    {addr : List UInt8} (path request : CString) {w : σ}
    (hsocket : (k.socket w).1 = true) (haddr : inetPton client.host = some addr)
    (hconnect : (k.connect ⟨addr, UInt16.ofInt client.port⟩ (k.socket w).2).1 = true) :
    ((httpPost (ν := ν) k client path request).run w).val = responseBody
      (k.exchange ⟨addr, UInt16.ofInt client.port⟩ (httpRequest client path request)
        (k.connect ⟨addr, UInt16.ofInt client.port⟩ (k.socket w).2).2).1 := by
  simp only [httpPost, Traced.run_bind, Traced.run_act, hsocket, haddr, hconnect, responseBody_eq,
    Traced.run_pure]

/-- **Lossless transport.**  However the bytes of a reply are split into the results of `recv`,
`http_post` returns the body. -/
theorem httpPost_responseWrites {statusCode : ℕ} {statusText contentType : String}
    (hkind : (statusCode, statusText, contentType) ∈ responseKinds) {body : CString}
    (hbody : body.strlen < 2 ^ 31) {chunks : List Bytes}
    (hchunks : ∀ chunk ∈ chunks, 1 ≤ chunk.length ∧ chunk.length ≤ 4095)
    (hsplit : chunks.flatten = (responseWrites statusCode statusText contentType body).flatten)
    {ν σ : Type} (k : Kernel σ) (client : HttpClient) (path request : CString) (w : σ)
    {addr : List UInt8} (hsocket : (k.socket w).1 = true)
    (haddr : inetPton client.host = some addr)
    (hconnect : (k.connect ⟨addr, UInt16.ofInt client.port⟩ (k.socket w).2).1 = true)
    (hrecv : (k.exchange ⟨addr, UInt16.ofInt client.port⟩ (httpRequest client path request)
      (k.connect ⟨addr, UInt16.ofInt client.port⟩ (k.socket w).2).2).1 = chunks) :
    ((httpPost (ν := ν) k client path request).run w).val = some body := by
  obtain ⟨hstatus, htype⟩ := plainLine_of_mem_responseKinds hkind
  have hwhole : Whole chunks (some (sendHttpResponse statusCode statusText contentType body)) := by
    refine ⟨fun hnil ↦ absurd (hchunks [] hnil).1 (by decide), ?_⟩
    rw [hsplit, flatten_responseWrites _ _ _ hbody, Option.getD_some]
  rw [val_httpPost_of_connect path request hsocket haddr hconnect, hrecv, responseBody_eq]
  exact extractBody_of_whole hstatus htype hwhole

/-- A kernel whose server sends a reply with a blank line in its body, byte by byte. -/
def bytewiseKernel : Kernel Unit where
  fopenRead _ w := (none, w)
  fopenWrite _ _ w := (false, w)
  opendir _ w := (none, w)
  popen _ w := (none, w)
  socket w := (true, w)
  connect _ w := (true, w)
  exchange _ _ w := ((responseWrites 404 "Not Found" "text/plain" (.lit "a\r\n\r\nb")).flatten.map
    ([·]), w)

theorem httpPost_responseWrites_bytewise :
    ((httpPost (ν := ℤ) bytewiseKernel localClient endpoint (.lit "\x7b\x7d")).run ()).val =
      some (.lit "a\r\n\r\nb") := by
  have hkind : (404, "Not Found", "text/plain") ∈ responseKinds := by decide
  have hflat : ∀ l : Bytes, (l.map ([·])).flatten = l := fun l ↦ by
    rw [← List.flatMap_def, List.flatMap_singleton']
  refine httpPost_responseWrites hkind (by decide) (fun chunk hc ↦ ?_) (hflat _) bytewiseKernel
    localClient endpoint _ () rfl inetPton_localClient rfl rfl
  obtain ⟨c, _, rfl⟩ := List.mem_map.mp hc
  exact ⟨le_rfl, Nat.le_add_left _ _⟩

end KernelTests.CAgent
