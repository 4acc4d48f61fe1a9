import KernelTests.Effects.Traced
import KernelTests.Json.Value

/-!
# The tools of the agent

`agent_lite` runs on the kernel under test, so what a system call delivers is
arbitrary: `Kernel σ` collects the calls the agent makes, over an arbitrary state
`σ` of the machine.  The four tools and their dispatcher `execute_tool` are
computations over it.  Every tool records the `Action` it performs.
-/

namespace KernelTests.CAgent

open Effects

/-! ## The kernel under test -/

/-- `struct sockaddr_in`: an address and a port. -/
structure SockAddr where
  addr : List UInt8
  port : UInt16
deriving DecidableEq

/-- `struct dirent`, as far as it is looked at. -/
structure Dirent where
  name : CString
  /-- `d_type == DT_DIR` -/
  isDir : Bool

/-- What a command leaves behind: what it wrote to the pipe and to standard error, and the
status `pclose` returns. -/
structure Piped where
  output : Bytes
  errors : Bytes
  status : ℤ

/-- What the agent asks of the system.  A missing result is a failed call. -/
structure Kernel (σ : Type) where
  /-- `fopen` for reading, and the content of the file. -/
  fopenRead : CString → σ → Option Bytes × σ
  /-- `fopen` for writing, and `fwrite` of the content; whether the file was opened. -/
  fopenWrite : CString → CString → σ → Bool × σ
  /-- `opendir`, and the entries `readdir` delivers. -/
  opendir : CString → σ → Option (List Dirent) × σ
  /-- `popen`, and what the command leaves behind. -/
  popen : CString → σ → Option Piped × σ
  /-- `socket` -/
  socket : σ → Bool × σ
  /-- `connect` -/
  connect : SockAddr → σ → Bool × σ
  /-- `send` of a request, and the results of the `recv` calls that follow. -/
  exchange : SockAddr → Bytes → σ → List Bytes × σ

/-! ## Events -/

/-- A call of one of the tools. -/
inductive Action where
  | readFile (path : CString)
  | writeFile (path content : CString)
  | listFiles (path : CString)
  | bash (command : CString)
deriving DecidableEq

/-- What a run of the agent leaves behind: its output, the histories it sends, the reply
bodies it gets and the tools it runs. -/
inductive Event (ν : Type) where
  | stdout (text : Bytes)
  | stderr (text : Bytes)
  | request (messages : List (Json ν))
  | reply (body : Option CString)
  | action (a : Action)

/-- A computation of the agent. -/
abbrev Agent (ν σ : Type) := Traced (Event ν) σ

/-! ## Tool implementations -/

/-- `ToolContext` -/
structure ToolContext where
  workspace : CString

/-- `ToolResult` -/
structure ToolResult where
  output : Option CString
  success : Bool

/-- `sb_appendf` onto an empty buffer: the formatted text is cut to 4095 characters. -/
def appendf (text : Bytes) : CString := .ofBytes (text.take 4095)

/-- `snprintf(full_path, sizeof(full_path), ...)` -/
def fullPath (text : Bytes) : CString := .ofBytes (text.take 1023)

variable {ν σ : Type} (k : Kernel σ) (ctx : ToolContext)

/-- `tool_read_file` -/
def toolReadFile (path : CString) : Agent ν σ ToolResult := do
  Traced.emit (.action (.readFile path))
  match ← Traced.act (k.fopenRead (fullPath (ctx.workspace.bytes ++ 47 :: path.bytes))) with
  | none => return ⟨some (appendf (ascii "Error: Cannot open file " ++ path.bytes)), false⟩
  | some content => return ⟨some (.ofBytes content), true⟩

/-- `tool_write_file` -/
def toolWriteFile (path content : CString) : Agent ν σ ToolResult := do
  Traced.emit (.action (.writeFile path content))
  match ← Traced.act (k.fopenWrite (fullPath (ctx.workspace.bytes ++ 47 :: path.bytes)) content) with
  | false => return ⟨some (appendf (ascii "Error: Cannot write to file " ++ path.bytes)), false⟩
  | true => return ⟨some (appendf (ascii "Successfully wrote to " ++ path.bytes)), true⟩

/-- A line of the listing; the entries for the directory itself and its parent are skipped. -/
def listEntry (entry : Dirent) : Bytes :=
  if entry.name = .lit "." ∨ entry.name = .lit ".." then []
  else entry.name.bytes ++ (if entry.isDir then ascii "/" else []) ++ ascii "\n"

/-- `tool_list_files` -/
def toolListFiles (path : CString) : Agent ν σ ToolResult := do
  Traced.emit (.action (.listFiles path))
  let full :=
    if path.bytes = [] then fullPath ctx.workspace.bytes
    else fullPath (ctx.workspace.bytes ++ 47 :: path.bytes)
  match ← Traced.act (k.opendir full) with
  | none => return ⟨some (appendf (ascii "Error: Cannot open directory " ++ path.bytes)), false⟩
  | some entries => return ⟨some (.ofBytes (entries.flatMap listEntry)), true⟩

/-- The pieces `fgets` delivers: each ends with a newline, or with the last character
there is room for.  A piece has at most `size + 1` characters. -/
def fgets (size : ℕ) : ℕ → Bytes → List Bytes
  | _, [] => []
  | room, c :: s =>
    if c = 10 ∨ room = 0 then [c] :: fgets size size s
    else match fgets size (room - 1) s with
      | [] => [[c]]
      | piece :: pieces => (c :: piece) :: pieces

/-- The output of the command, piece by piece; a NUL hides the rest of its piece. -/
def pipeOutput (output : Bytes) : CString :=
  .ofBytes ((fgets 1022 1022 output).flatMap fun piece ↦ (CString.ofBytes piece).bytes)

/-- `tool_bash` -/
def toolBash (command : CString) : Agent ν σ ToolResult := do
  Traced.emit (.action (.bash command))
  match ← Traced.act (k.popen command) with
  | none => return ⟨some (.lit "Error: Failed to execute command"), false⟩
  | some piped =>
    -- the command inherits the standard error of the agent
    Traced.emit (.stderr piped.errors)
    return ⟨some (pipeOutput piped.output), piped.status = 0⟩

/-- No piece is lost. -/
theorem flatten_fgets (size room : ℕ) (s : Bytes) : (fgets size room s).flatten = s := by
  induction s generalizing room with
  | nil => rfl
  | cons c s ih =>
      rw [fgets]
      split
      · simp [ih]
      · have h := ih (room - 1)
        cases hp : fgets size (room - 1) s with
        | nil =>
            rw [hp] at h
            simp [← h]
        | cons piece pieces =>
            rw [hp] at h
            simp [← h]

/-- Text without NUL reaches the agent unchanged. -/
theorem bytes_pipeOutput {output : Bytes} (h : 0 ∉ output) : (pipeOutput output).bytes = output := by
  have hpieces : ∀ piece ∈ fgets 1022 1022 output, 0 ∉ piece := fun piece hp h0 ↦
    h (flatten_fgets 1022 1022 output ▸ List.mem_flatten_of_mem hp h0)
  have hflat : ((fgets 1022 1022 output).flatMap fun piece ↦ (CString.ofBytes piece).bytes)
      = output := by
    rw [List.flatMap_def, List.map_congr_left fun piece hp ↦ CString.bytes_ofBytes (hpieces piece hp),
      List.map_id', flatten_fgets]
  rw [pipeOutput, hflat, CString.bytes_ofBytes h]

/-! ## The dispatcher -/

/-- What `execute_tool` returns when it runs nothing. -/
def invalidArguments : ToolResult := ⟨some (.lit "Error: Unknown tool or invalid arguments"), false⟩

/-- `execute_tool` -/
def executeTool (toolName : CString) (arguments : Option (Json ν)) : Agent ν σ ToolResult := do
  Traced.emit (.stdout (ascii "  [Tool] " ++ toolName.bytes ++ ascii "\n"))
  if toolName = .lit "read_file" then
    match Json.getString arguments (.lit "file_path") with
    | some path => toolReadFile k ctx path
    | none => return invalidArguments
  else if toolName = .lit "write_file" then
    match Json.getString arguments (.lit "file_path"),
        Json.getString arguments (.lit "content") with
    | some path, some content => toolWriteFile k ctx path content
    | _, _ => return invalidArguments
  else if toolName = .lit "list_files" then
    toolListFiles k ctx ((Json.getString arguments (.lit "path")).getD (.lit ""))
  else if toolName = .lit "bash" then
    match Json.getString arguments (.lit "command") with
    | some command => toolBash k command
    | none => return invalidArguments
  else return invalidArguments

end KernelTests.CAgent
