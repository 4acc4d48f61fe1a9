import KernelTests.CAgent.Agent

/-!
# The command line of the agent

`main` reads its options, prints a banner that repeats them, and runs the agent on
the prompt.
-/

namespace KernelTests.CAgent

open Effects

variable {ν σ : Type}

/-- `atoi`, with the conversion of the result to `int`. -/
def atoi (s : CString) : ℤ :=
  let t := s.bytes.dropWhile fun c ↦ c = 32 ∨ (9 ≤ c ∧ c ≤ 13)
  let signed := t.head? = some 43 ∨ t.head? = some 45
  let digits := (if signed then t.tail else t).takeWhile isDigit
  let value : ℤ := digits.foldl (fun n c ↦ 10 * n + (c.toNat - 48 : ℤ)) 0
  let value := if t.head? = some 45 then -value else value
  Int.bmod (max (-2 ^ 63) (min value (2 ^ 63 - 1))) (2 ^ 32)

/-- What the options say so far. -/
structure Options where
  client : HttpClient
  ctx : ToolContext
  prompt : Option CString

/-- The defaults of `main`. -/
def Options.default : Options where
  client := ⟨.lit "127.0.0.1", 8080, none, .lit "test-model"⟩
  ctx := ⟨.lit "."⟩
  prompt := none

/-- `usage` -/
def usage (argv0 : CString) : Agent ν σ Unit :=
  Traced.emit (.stderr (ascii "Usage: " ++ argv0.bytes ++ ascii (" [options] <prompt>\n\n" ++
    "Lightweight agent for testing (HTTP only, minimal dependencies)\n\n" ++
    "Options:\n" ++
    "  --host <host>         LLM server host (default: 127.0.0.1)\n" ++
    "  --port <port>         LLM server port (default: 8080)\n" ++
    "  --model <id>          Model id (default: test-model)\n" ++
    "  --workspace <dir>     Workspace directory (default: .)\n" ++
    "  --api-key <key>       API key (optional)\n" ++
    "  --help                Show this help\n\n" ++
    "Example:\n" ++
    "  ") ++ argv0.bytes ++ ascii " --host 127.0.0.1 --port 8080 \"List all files\"\n"))

/-- An option with its value; none if there is no such option. -/
def Options.set (o : Options) (arg value : CString) : Option Options :=
  if arg = .lit "--host" then some { o with client := { o.client with host := value } }
  else if arg = .lit "--port" then some { o with client := { o.client with port := atoi value } }
  else if arg = .lit "--model" then some { o with client := { o.client with model := value } }
  else if arg = .lit "--workspace" then some { o with ctx := ⟨value⟩ }
  else if arg = .lit "--api-key" then
    some { o with client := { o.client with apiKey := some value } }
  else none

/-- The loop over the arguments: an exit code, or the options. -/
def parseArguments (argv0 : CString) : List CString → Options → Agent ν σ (ℤ ⊕ Options)
  | [], o => return .inr o
  | arg :: args, o => do
    if arg = .lit "--help" ∨ arg = .lit "-h" then
      usage argv0
      return .inl 0
    else if hasPrefix (.lit "--") arg then
      match args with
      | [] =>
        Traced.emit (.stderr (ascii "Missing value for " ++ arg.bytes ++ ascii "\n"))
        return .inl 2
      | value :: args =>
        match o.set arg value with
        | some o => parseArguments argv0 args o
        | none =>
          Traced.emit (.stderr (ascii "Unknown option: " ++ arg.bytes ++ ascii "\n"))
          return .inl 2
    else
      match o.prompt with
      | some _ =>
        Traced.emit (.stderr (ascii "Multiple prompts specified\n"))
        return .inl 2
      | none => parseArguments argv0 args { o with prompt := some arg }

/-- The lines `main` prints before it runs the agent. -/
def banner (client : HttpClient) (ctx : ToolContext) (prompt : CString) : Bytes :=
  ascii "=== Lightweight Agent ===\n" ++
  (ascii "LLM: " ++ client.host.bytes ++ ascii ":" ++ decimal client.port ++ ascii "\n") ++
  (ascii "Model: " ++ client.model.bytes ++ ascii "\n") ++
  (ascii "Workspace: " ++ ctx.workspace.bytes ++ ascii "\n") ++
  (ascii "Prompt: " ++ prompt.bytes ++ ascii "\n")

variable [CNumber ν]

/-- `main` -/
def main (k : Kernel σ) (argv0 : CString) (args : List CString) : Agent ν σ ℤ := do
  if args = [] then
    usage argv0
    return 2
  else
    match ← parseArguments argv0 args Options.default with
    | .inl code => return code
    | .inr o =>
      match o.prompt with
      | none =>
        Traced.emit (.stderr (ascii "No prompt specified\n"))
        usage argv0
        return 2
      | some prompt =>
        Traced.emit (.stdout (banner o.client o.ctx prompt))
        agentRun k o.ctx o.client prompt

end KernelTests.CAgent
