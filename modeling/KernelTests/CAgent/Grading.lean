import KernelTests.CAgent.Output
import KernelTests.Regex.Basic

/-!
# How the script grades the agent

`run_test` starts the agent with a prompt, captures what it prints, and passes the
test if the agent exits with 0 and `grep` finds the pattern of the test in the
captured text.  This file decides for which outputs of the command that amounts to
looking for the pattern in the output.  The tests that look at the file system
instead are left out.
-/

namespace KernelTests.CAgent

open Effects

/-! ## Patterns -/

/-- The characters in front of the output of the command and behind it, and the first character
of the banner. -/
def separators : Bytes := ascii " \n="

/-- A pattern that stays clear of the separators. -/
structure Pattern where
  regex : Regex UInt8
  boundaryFree : regex.BoundaryFree := by decide
  notNullable : regex.nullable = false := by decide
  avoids : separators.all (regex.avoids ·) := by decide

theorem Pattern.avoids_of_mem (p : Pattern) {c : UInt8} (hc : c ∈ separators) : p.regex.avoids c :=
  List.all_eq_true.mp p.avoids c hc

/-- `grep -q`: some line of the input matches. -/
def grep (p : Pattern) (input : Bytes) : Bool := (Text.lines 10 input).any p.regex.found

theorem grep_iff {p : Pattern} {input : Bytes} :
    grep p input ↔ ∃ w ∈ p.regex.language, w <:+: input := by
  have hline : ∀ w ∈ p.regex.language, (∃ l ∈ Text.lines 10 input, w <:+: l) ↔ w <:+: input :=
    fun w hw ↦ Text.exists_mem_lines_infix_iff (Regex.ne_nil_of_mem_language p.notNullable w hw)
      (Regex.notMem_of_mem_language (p.avoids_of_mem (by decide)) w hw) input
  simp only [grep, List.any_eq_true, Regex.found_iff_exists_infix p.boundaryFree]
  constructor
  · rintro ⟨l, hl, w, hw, hi⟩
    exact ⟨w, hw, (hline w hw).mp ⟨l, hl, hi⟩⟩
  · rintro ⟨w, hw, hi⟩
    obtain ⟨l, hl, hi⟩ := (hline w hw).mpr hi
    exact ⟨l, hl, w, hw, hi⟩

/-- A separator splits the search in two. -/
theorem grep_append_cons {p : Pattern} {c : UInt8} (hc : c ∈ separators) (s t : Bytes) :
    grep p (s ++ c :: t) = (grep p s || grep p t) := by
  have hsplit : ∀ w ∈ p.regex.language, w <:+: s ++ c :: t ↔ w <:+: s ∨ w <:+: t := fun w hw ↦
    Text.infix_append_cons_iff (Regex.ne_nil_of_mem_language p.notNullable w hw)
      (Regex.notMem_of_mem_language (p.avoids_of_mem hc) w hw)
  rw [Bool.eq_iff_iff, Bool.or_eq_true, grep_iff, grep_iff, grep_iff]
  constructor
  · rintro ⟨w, hw, hi⟩
    exact ((hsplit w hw).mp hi).imp (⟨w, hw, ·⟩) (⟨w, hw, ·⟩)
  · rintro (⟨w, hw, hi⟩ | ⟨w, hw, hi⟩)
    · exact ⟨w, hw, (hsplit w hw).mpr (Or.inl hi)⟩
    · exact ⟨w, hw, (hsplit w hw).mpr (Or.inr hi)⟩

theorem grep_nil (p : Pattern) : grep p [] = false := by
  refine Bool.eq_false_iff.mpr fun h ↦ ?_
  obtain ⟨w, hw, hi⟩ := grep_iff.mp h
  exact Regex.ne_nil_of_mem_language p.notNullable w hw (List.infix_nil.mp hi)

/-- A text that ends with a separator is searched for itself. -/
theorem grep_append {p : Pattern} {c : UInt8} (hc : c ∈ separators) {s : Bytes}
    (hs : s.getLast? = some c) (t : Bytes) : grep p (s ++ t) = (grep p s || grep p t) := by
  obtain ⟨u, rfl⟩ := List.getLast?_eq_some_iff.mp hs
  rw [List.append_assoc, List.singleton_append, grep_append_cons hc, grep_append_cons hc, grep_nil,
    Bool.or_false]

/-! ## Tests -/

/-- The tests that look at what the agent prints. -/
inductive Test where
  | factorial
  | date
  | network
  | cpu
  | kernel
  | fsReadwrite
  | fsSearch
  | fsUsage

namespace Test

/-- The second argument of `run_test`. -/
def prompt : Test → CString
  | factorial => .lit "Calculate factorial of 10 using bash"
  | date => .lit "What day was it 100 days ago?"
  | network => .lit "Count ESTABLISHED TCP connections"
  | cpu => .lit "How many CPU cores?"
  | kernel => .lit "What is the kernel version?"
  | fsReadwrite => .lit "Create test_input.txt with numbers 1 to 5, then read it and sum the numbers"
  | fsSearch => .lit "Find all .sh files in current directory and count them"
  | fsUsage => .lit "Check disk usage of current directory in human readable format"

/-- `[0-9]+` -/
def number : Regex UInt8 := .plus (.char isDigit)

/-- A literal in a pattern. -/
def literal (s : String) : Regex UInt8 := .word (ascii s)

/-- `(Monday|Tuesday|Wednesday|Thursday|Friday|Saturday|Sunday)` -/
def weekday : Regex UInt8 :=
  ["Tuesday", "Wednesday", "Thursday", "Friday", "Saturday", "Sunday"].foldl
    (fun r day ↦ .alt r (literal day)) (literal "Monday")

/-- The pattern in the third argument of `run_test`. -/
def validation : Test → Pattern
  | factorial => { regex := literal "3628800" }
  | date => { regex := weekday }
  | network | cpu | fsSearch => { regex := number }
  | kernel => { regex := .seq number (.seq (literal ".") number) }
  | fsReadwrite => { regex := .alt (literal "15") (literal "fifteen") }
  | fsUsage => { regex := .seq number (.opt (.char (· ∈ ascii "KMG"))) }

/-- The arguments of `agent_lite`. -/
def arguments (t : Test) : List CString :=
  [.lit "--workspace", .lit ".", .lit "--host", .lit "127.0.0.1", .lit "--port", .lit "8080",
    t.prompt]

/-- The tests whose pattern does not occur in what the agent prints by itself. -/
def silent : Test → Bool
  | factorial | date | fsReadwrite => true
  | network | cpu | kernel | fsSearch | fsUsage => false

end Test

/-! ## Running a test -/

variable {ν σ : Type} [CNumber ν]

/-- The command line of `run_test`. -/
def agentLite (k : Kernel σ) (t : Test) : Agent ν σ ℤ := main k (.lit "./agent_lite") t.arguments

/-- `$?` -/
def exitCode (status : ℤ) : ℤ := status % 256

omit [CNumber ν] in
/-- `> "$output_file" 2>&1`: standard output is buffered when it is a file, and the few lines in
front of the command fit the buffer, so what goes to standard error comes first. -/
def outputFile (t : List (Event ν)) : Bytes := stderrText t ++ stdoutText t

/-- `success` in `run_test` -/
def success (t : Test) (o : Outcome (Event ν) σ ℤ) : Bool :=
  exitCode o.val = 0 && grep t.validation (outputFile o.trace)

/-- The arguments are read, and the agent runs behind its banner. -/
theorem run_agentLite (k : Kernel σ) (t : Test) (w : σ) :
    (agentLite (ν := ν) k t).run w =
      let o := (agentRun (ν := ν) k ⟨.lit "."⟩ localClient t.prompt).run w
      ⟨o.val, .stdout (banner localClient ⟨.lit "."⟩ t.prompt) :: o.trace, o.world⟩ := by
  have hparse : (parseArguments (.lit "./agent_lite") t.arguments Options.default : Agent ν σ _) =
      pure (.inr ⟨localClient, ⟨.lit "."⟩, some t.prompt⟩) := by
    cases t <;> rfl
  rw [agentLite, main, if_neg (by simp [Test.arguments]), hparse]
  rfl

theorem val_agentLite (k : Kernel σ) (t : Test) (w : σ) : ((agentLite (ν := ν) k t).run w).val =
    ((agentRun (ν := ν) k ⟨.lit "."⟩ localClient t.prompt).run w).val := by
  rw [run_agentLite]

/-! ## What the search sees -/

/-- The lines in front of the output of the command, between two separators. -/
def leadingText (t : Test) : Bytes :=
  (banner localClient ⟨.lit "."⟩ t.prompt).tail ++
    (stepLine 1 ++ callingLine ++ ascii "  [Tool] bash\n  [Result]")

/-- The separators cut the output of the command out of the captured text. -/
theorem banner_append_sessionText (t : Test) (piped : Option Piped) :
    banner localClient ⟨.lit "."⟩ t.prompt ++ sessionText (some piped) =
      61 :: (leadingText t ++ 32 :: ((commandOutput piped).bytes ++ 10 :: textLines 2 completed)) := by
  have hbanner : banner localClient ⟨.lit "."⟩ t.prompt =
      61 :: (banner localClient ⟨.lit "."⟩ t.prompt).tail := rfl
  have hlabel : ascii "  [Tool] bash\n  [Result]" ++ [32] =
      ascii "  [Tool] bash\n" ++ resultLabel := by decide
  have hnewline : ascii "\n" = [10] := by decide
  calc banner localClient ⟨.lit "."⟩ t.prompt ++ sessionText (some piped)
    _ = 61 :: ((banner localClient ⟨.lit "."⟩ t.prompt).tail ++ (stepLine 1 ++ callingLine ++
          (ascii "  [Tool] bash\n" ++ resultLabel) ++ (commandOutput piped).bytes ++
            ([10] ++ textLines 2 completed))) := by
        rw [hbanner]
        simp [sessionText, commandLines, resultLine, hnewline]
    _ = _ := by
        rw [← hlabel]
        simp [leadingText]

theorem getLast?_banner (t : Test) :
    (banner localClient ⟨.lit "."⟩ t.prompt).getLast? = some 10 := by
  have hnewline : ascii "\n" = [10] := by decide
  rw [banner, hnewline, ← List.append_assoc, List.getLast?_concat]

/-- The banner makes the pattern match, unless the test is silent. -/
theorem grep_banner (t : Test) :
    grep t.validation (banner localClient ⟨.lit "."⟩ t.prompt) = !t.silent := by
  cases t <;> decide +kernel

/-- The other lines of the agent do not make the pattern of a silent test match. -/
theorem grep_lines_of_silent {t : Test} (h : t.silent) :
    grep t.validation (stepLine 1 ++ callingLine ++ ascii "  [Tool] bash\n  [Result]") = false ∧
      grep t.validation (textLines 2 completed) = false ∧
        grep t.validation (textLines 1 greeting) = false := by
  cases t with
  | factorial | date | fsReadwrite =>
      exact ⟨by decide +kernel, by decide +kernel, by decide +kernel⟩
  | network | cpu | kernel | fsSearch | fsUsage => cases h

/-- The lines of the agent around an output make the pattern match, unless the test is silent. -/
theorem grep_lines (t : Test) :
    (grep t.validation (leadingText t) || grep t.validation (textLines 2 completed)) =
      !t.silent := by
  have hlead : grep t.validation (leadingText t) =
      (grep t.validation (banner localClient ⟨.lit "."⟩ t.prompt) ||
        grep t.validation (stepLine 1 ++ callingLine ++ ascii "  [Tool] bash\n  [Result]")) := by
    rw [← grep_append (by decide) (getLast?_banner t)]
    exact (grep_append_cons (p := t.validation) (c := 61) (by decide) [] (leadingText t)).symm
  rw [hlead, grep_banner]
  cases hsilent : t.silent with
  | true =>
      obtain ⟨hleading, hcompleted, _⟩ := grep_lines_of_silent hsilent
      rw [hleading, hcompleted]
      rfl
  | false => rfl

/-- The same for the lines of a session without a command. -/
theorem grep_greeting (t : Test) : grep t.validation
    (banner localClient ⟨.lit "."⟩ t.prompt ++ textLines 1 greeting) = !t.silent := by
  rw [grep_append (by decide) (getLast?_banner t), grep_banner]
  cases hsilent : t.silent with
  | true =>
      rw [(grep_lines_of_silent hsilent).2.2]
      rfl
  | false => rfl

/-- What the pattern is found in, given what became of the command. -/
def accepts (t : Test) : Option (Option Piped) → Bool
  | none => !t.silent
  | some piped => !t.silent || grep t.validation (commandErrors piped) ||
      grep t.validation (commandOutput piped).bytes

theorem grep_session (t : Test) (result : Option (Option Piped)) :
    grep t.validation (sessionErrors result ++
      (banner localClient ⟨.lit "."⟩ t.prompt ++ sessionText result)) = accepts t result := by
  cases result with
  | none => exact grep_greeting t
  | some piped =>
      rw [banner_append_sessionText, grep_append_cons (by decide), grep_append_cons (by decide),
        grep_append_cons (by decide), accepts, ← grep_lines t]
      simp only [sessionErrors]
      cases grep t.validation (commandErrors piped) <;>
        cases grep t.validation (commandOutput piped).bytes <;> simp

/-! ## Soundness -/

/-- When passing the test says something about the command: its own output matches, or the agent
does not print the pattern by itself and neither do the errors of the command. -/
def Trustworthy (t : Test) : Option (Option Piped) → Prop
  | none => t.silent
  | some piped => grep t.validation (commandOutput piped).bytes ∨
      t.silent ∧ ¬ grep t.validation (commandErrors piped)

theorem trustworthy_iff (t : Test) (result : Option (Option Piped)) :
    Trustworthy t result ↔ (accepts t result → ∃ output ∈ sessionOutputs result,
      grep t.validation output) := by
  cases result with
  | none =>
      simp only [Trustworthy, accepts, sessionOutputs]
      cases t.silent <;> simp
  | some piped =>
      simp only [Trustworthy, accepts, sessionOutputs, List.mem_singleton, exists_eq_left]
      cases t.silent <;> cases grep t.validation (commandErrors piped) <;>
        cases grep t.validation (commandOutput piped).bytes <;> simp

section Runs

variable {k : Kernel σ} {c : Classifier} (hr : Relays ν k c) {piped : Option Piped}
  (hp : ∀ command w, (k.popen command w).1 = piped) (t : Test) (w : σ)

include hr hp

/-- What a run that exits with 0 leaves behind. -/
theorem agentLite_exited (h0 : exitCode ((agentLite (ν := ν) k t).run w).val = 0) :
    toolOutputs ((agentLite (ν := ν) k t).run w).trace =
        sessionOutputs ((chosenCommand c t.prompt).map fun _ ↦ piped) ∧
      success t ((agentLite (ν := ν) k t).run w) =
        accepts t ((chosenCommand c t.prompt).map fun _ ↦ piped) := by
  rcases agentRun_printed ⟨.lit "."⟩ hr inetPton_localClient (by simp [localClient]) t.prompt w hp
    with hv | ⟨hv, hprinted⟩
  · rw [val_agentLite, hv] at h0
    exact absurd h0 (by decide)
  · have hbanner : Printed [(.stdout (banner localClient ⟨.lit "."⟩ t.prompt) : Event ν)]
        (banner localClient ⟨.lit "."⟩ t.prompt) [] [] := by
      rw [banner, List.append_assoc]
      exact printed_stdout (by decide) _
    have hall := hbanner.append hprinted
    rw [run_agentLite]
    refine ⟨hall.outputs, ?_⟩
    have hfile : outputFile (.stdout (banner localClient ⟨.lit "."⟩ t.prompt) ::
        ((agentRun (ν := ν) k ⟨.lit "."⟩ localClient t.prompt).run w).trace) = _ :=
      congrArg₂ (· ++ ·) hall.stderr hall.stdout
    rw [success, hv, hfile, ← grep_session]
    rfl

/-- **Grading.**  For a run that exits with 0, a test that is passed has a matching tool output
exactly if the test is trustworthy for what the command did. -/
theorem success_sound_iff (h0 : exitCode ((agentLite (ν := ν) k t).run w).val = 0) :
    (success t ((agentLite (ν := ν) k t).run w) →
        ∃ output ∈ toolOutputs ((agentLite (ν := ν) k t).run w).trace, grep t.validation output) ↔
      Trustworthy t ((chosenCommand c t.prompt).map fun _ ↦ piped) := by
  obtain ⟨houtputs, hsuccess⟩ := agentLite_exited hr hp t w h0
  rw [houtputs, hsuccess, trustworthy_iff]

end Runs

/-- A kernel on which every command prints nothing. -/
theorem relays_serving (c : Classifier) (output : Bytes) :
    Relays ν (serving (ν := ν) c output) c where
  exchange server request _ :=
    Or.inr ⟨request, List.prefix_rfl, whole_serving c output server request⟩

theorem chosenCommand_cpu :
    chosenCommand neuralInference Test.cpu.prompt = some (.lit "nproc") :=
  chosenCommand_coresPrompt

/-- On it the agent runs `nproc`, gets an empty output and exits with 0. -/
theorem exitCode_serving : exitCode ((agentLite (ν := ℤ) (serving (ν := ℤ) neuralInference []) .cpu).run
    ()).val = 0 := by
  have hval := (agentRun_of_call (serves_serving (ν := ℤ) neuralInference []) ⟨.lit "."⟩
    inetPton_localClient (by simp [localClient]) chosenCommand_cpu writtenAs_nproc ()
    length_coresRequest (by rw [callOutput_serving]; decide +kernel)).1
  rw [exitCode, val_agentLite]
  exact congrArg (· % 256) hval

/-- The condition at a command that prints nothing. -/
theorem success_sound_iff_nproc :
    let o := (agentLite (ν := ℤ) (serving (ν := ℤ) neuralInference []) .cpu).run ()
    (success .cpu o → ∃ output ∈ toolOutputs o.trace, grep Test.cpu.validation output) ↔
      Trustworthy .cpu ((chosenCommand neuralInference Test.cpu.prompt).map fun _ ↦
        some ⟨[], [], 0⟩) :=
  success_sound_iff (relays_serving neuralInference []) (fun _ _ ↦ rfl) .cpu () exitCode_serving

/-- The test is passed, although the command printed nothing. -/
theorem success_nproc :
    let o := (agentLite (ν := ℤ) (serving (ν := ℤ) neuralInference []) .cpu).run ()
    exitCode o.val = 0 ∧ success .cpu o ∧ toolOutputs o.trace = [[]] ∧
      ¬ ∃ output ∈ toolOutputs o.trace, grep Test.cpu.validation output := by
  intro o
  obtain ⟨houtputs, hsuccess⟩ := agentLite_exited (relays_serving (ν := ℤ) neuralInference [])
    (fun _ _ ↦ rfl) .cpu () exitCode_serving
  have hempty : toolOutputs o.trace = [[]] := by
    rw [houtputs, chosenCommand_cpu]
    rfl
  refine ⟨exitCode_serving, ?_, hempty, ?_⟩
  · rw [hsuccess, chosenCommand_cpu, Option.map_some, accepts, Test.silent]
    rfl
  · have hnone : grep Test.cpu.validation [] = false := rfl
    rw [hempty]
    simp [hnone]

end KernelTests.CAgent
