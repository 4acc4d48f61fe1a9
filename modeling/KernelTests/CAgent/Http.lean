import KernelTests.CAgent.Tools
import Mathlib.Data.List.Basic

/-!
# The HTTP client

`http_post` opens a connection, sends one request and reads the response to its
end.  The header lines go through `sb_appendf`, which cuts each of them to 4095
characters; the body is appended whole.
-/

namespace KernelTests.CAgent

open Effects

/-- `HttpClient` -/
structure HttpClient where
  host : CString
  port : ℤ
  apiKey : Option CString
  model : CString

/-! ## Addresses -/

/-- One of the four numbers of a dotted quad: no more than 255, no leading zero. -/
def octet (t : Bytes) : Option UInt8 :=
  let value := t.foldl (fun n c ↦ 10 * n + (c.toNat - 48)) 0
  if t ≠ [] ∧ t.length ≤ 3 ∧ t.all isDigit ∧ (t.head? = some 48 → t.length = 1) ∧ value ≤ 255
  then some (UInt8.ofNat value)
  else none

/-- `inet_pton(AF_INET, ...)` -/
def inetPton (host : CString) : Option (List UInt8) :=
  let parts := host.bytes.splitOn 46
  if parts.length = 4 then parts.mapM octet else none

/-! ## Requests and responses -/

/-- `sb_appendf`: what the format buffer holds of a formatted text. -/
def sbAppendf (text : Bytes) : Bytes := text.take 4095

/-- The blank line behind a header. -/
def blankLine : Bytes := [13, 10, 13, 10]

/-- The header line for the key of the client, if it has one. -/
def authorization : Option CString → Bytes
  | some apiKey => sbAppendf (ascii "Authorization: Bearer " ++ apiKey.bytes ++ ascii "\r\n")
  | none => []

/-- The request `http_post` sends. -/
def httpRequest (client : HttpClient) (path body : CString) : Bytes :=
  sbAppendf (ascii "POST " ++ path.bytes ++ ascii " HTTP/1.1\r\n") ++
  sbAppendf (ascii "Host: " ++ client.host.bytes ++ ascii ":" ++ decimal client.port ++
    ascii "\r\n") ++
  ascii "Content-Type: application/json\r\n" ++
  authorization client.apiKey ++
  sbAppendf (ascii "Content-Length: " ++ decimalNat body.strlen ++ ascii "\r\n") ++
  ascii "Connection: close\r\n" ++
  ascii "\r\n" ++
  body.bytes

/-- The response buffer: the results of `recv` up to the first that is not positive.  A NUL
hides the rest of its chunk. -/
def recvAll (chunks : List Bytes) : CString :=
  .ofBytes ((chunks.takeWhile (· ≠ [])).flatMap fun chunk ↦ (CString.ofBytes chunk).bytes)

/-- The body of a message: everything behind the first blank line. -/
def extractBody (message : CString) : Option CString :=
  (Text.after blankLine message.bytes).map CString.ofBytes

variable {ν σ : Type}

/-- `http_post` -/
def httpPost (k : Kernel σ) (client : HttpClient) (path body : CString) :
    Agent ν σ (Option CString) := do
  match ← Traced.act k.socket with
  | false =>
    Traced.emit (.stderr (ascii "Socket creation failed\n"))
    return none
  | true =>
    match inetPton client.host with
    | none =>
      Traced.emit (.stderr (ascii "Invalid address\n"))
      return none
    | some addr =>
      let server : SockAddr := ⟨addr, UInt16.ofInt client.port⟩
      match ← Traced.act (k.connect server) with
      | false =>
        Traced.emit (.stderr (ascii "Connection failed to " ++ client.host.bytes ++ ascii ":" ++
          decimal client.port ++ ascii "\n"))
        return none
      | true =>
        let chunks ← Traced.act (k.exchange server (httpRequest client path body))
        return extractBody (recvAll chunks)

end KernelTests.CAgent
