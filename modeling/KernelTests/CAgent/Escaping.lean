import KernelTests.CAgent.Output

/-!
# The command that reaches the shell

The server writes a command between quotes without escaping it, and the agent reads the
quoted text back with a JSON parser.  The command survives if it contains neither quotes
nor backslashes.
-/

namespace KernelTests.CAgent

open Effects

variable {ν σ : Type} [CNumber ν]

/-! ## Reading the arguments -/

/-- The arguments of a call, in front of what follows the key. -/
def argumentsText (command : CString) : Bytes := command.bytes ++ ascii "\"\x7d"

variable (ν) in
/-- The command in the arguments the server writes, as the agent reads it. -/
def receivedCommand (command : CString) : Option CString :=
  Json.getString (Json.parse (ν := ν) (commandArguments command)) (.lit "command")

/-- The arguments are not cut. -/
theorem bytes_commandArguments {command : CString} (h : command.strlen ≤ 2000) :
    (commandArguments command).bytes =
      123 :: 34 :: (ascii "command" ++ 34 :: 58 :: 34 :: argumentsText command) := by
  rw [CString.strlen] at h
  have htext : ascii "\x7b\"command\":\"" ++ command.bytes ++ ascii "\"\x7d" =
      123 :: 34 :: (ascii "command" ++ 34 :: 58 :: 34 :: argumentsText command) := by
    rw [argumentsText, List.append_assoc]
    rfl
  have hlen : (ascii "\x7b\"command\":\"" ++ command.bytes ++ ascii "\"\x7d").length ≤ 2047 := by
    have h₁ : (ascii "\x7b\"command\":\"").length = 12 := by decide
    have h₂ : (ascii "\"\x7d").length = 2 := by decide
    simp only [List.length_append]
    omega
  have hnul : 0 ∉ 123 :: 34 :: (ascii "command" ++ 34 :: 58 :: 34 :: argumentsText command) := by
    have hquote : 0 ∉ ascii "\"\x7d" := by decide
    have hkey : 0 ∉ ascii "command" := by decide
    simp [argumentsText, command.noNul, hquote, hkey]
  rw [commandArguments, List.take_of_length_le hlen, htext, CString.bytes_ofBytes hnul]

/-- The members behind the opening brace: the command comes first. -/
theorem parseMembers_command (n fuel : ℕ) (t : Bytes) :
    Json.parseMembers (Json.parseValue n : Json.Parser ν) (fuel + 1)
        (34 :: (ascii "command" ++ 34 :: 58 :: 34 :: t)) =
      (Json.parseString (34 :: t)).bind fun p ↦
        match Json.skipWs p.2 with
        | [] => none
        | c :: s =>
          if c = 44 then
            (Json.parseMembers (Json.parseValue n) fuel s).bind fun q ↦
              some (member "command" (.string p.1) :: q.1, q.2)
          else if c = 125 then some ([member "command" (.string p.1)], s)
          else none := by
  have hkey : 34 :: (ascii "command" ++ 34 :: 58 :: 34 :: t) =
      Json.printString (.lit "command") ++ 58 :: 34 :: t := by
    have hescape : Json.escape (CString.lit "command").bytes = ascii "command" := by decide
    rw [Json.printString, hescape]
    simp
  have hvalue : (Json.parseValue n : Json.Parser ν) (34 :: t) =
      (Json.parseString (34 :: t)).map fun p ↦ (.string p.1, p.2) := by
    cases n with
    | zero =>
        rw [Json.parseValue, Json.valueStep_cons (by decide) (by decide) (by decide), if_pos rfl]
    | succ n =>
        rw [Json.parseValue, Json.valueStep_cons (by decide) (by decide) (by decide), if_pos rfl]
  rw [Json.parseMembers, hkey, Json.skipWs_printString, Json.parseString_printString,
    Option.bind_eq_bind, Option.bind_some]
  simp only [Json.skipWs_cons (c := 58) (by decide), Json.skipWs_cons (c := 34) (by decide),
    List.head?_cons, List.tail_cons, if_true, hvalue]
  cases Json.parseString (34 :: t) with
  | none => rfl
  | some p => rfl

/-- The command is what the parser makes of the quoted text. -/
theorem parse_commandArguments_eq {command : CString} (h : command.strlen ≤ 2000) :
    Json.parse (ν := ν) (commandArguments command) =
      (Json.parseMembers (Json.parseValue 999)
        ((34 :: (ascii "command" ++ 34 :: 58 :: 34 :: argumentsText command)).length + 1)
        (34 :: (ascii "command" ++ 34 :: 58 :: 34 :: argumentsText command))).map
          fun p ↦ .object p.1 := by
  rw [Json.parse, bytes_commandArguments h, Json.skipWs_skipBom_cons (by decide),
    Json.nestingLimit, Json.parseValue, Json.valueStep_object, Option.bind_some, Json.parseObject,
    Json.skipWs_cons (by decide), List.head?_cons, if_neg (by decide), Option.map_map]
  rfl

/-- A quoted text is scanned, and its escape sequences are decoded. -/
theorem parseString_eq_some {t : Bytes} {d : CString} {rest : Bytes}
    (h : Json.parseString (34 :: t) = some (d, rest)) :
    ∃ raw output, Json.scanString t = some (raw, rest) ∧ Json.unescape raw = some output ∧
      d = .ofBytes output := by
  rw [Json.parseString, if_pos rfl] at h
  simp only [Option.bind_eq_bind, Option.bind_eq_some_iff] at h
  obtain ⟨⟨raw, rest'⟩, hscan, output, hunescape, he⟩ := h
  cases he
  exact ⟨raw, output, hscan, hunescape, rfl⟩

/-- Whatever follows it, the command is the first member. -/
theorem exists_of_parseMembers_command {n fuel : ℕ} {t r : Bytes}
    {members : List (CString × Json ν)}
    (h : Json.parseMembers (Json.parseValue n) (fuel + 1)
      (34 :: (ascii "command" ++ 34 :: 58 :: 34 :: t)) = some (members, r)) :
    ∃ d rest ms, Json.parseString (34 :: t) = some (d, rest) ∧
      members = member "command" (.string d) :: ms := by
  rw [parseMembers_command, Option.bind_eq_some_iff] at h
  obtain ⟨⟨d, rest⟩, hstring, h⟩ := h
  refine ⟨d, rest, ?_⟩
  split at h
  · cases h
  · split at h
    · obtain ⟨q, _, he⟩ := Option.bind_eq_some_iff.mp h
      cases he
      exact ⟨q.1, hstring, rfl⟩
    · split at h
      · cases h
        exact ⟨[], hstring, rfl⟩
      · cases h

/-- The command the agent reads is decoded from the quoted text. -/
theorem exists_of_receivedCommand {command received : CString} (h : command.strlen ≤ 2000)
    (hreceived : receivedCommand ν command = some received) :
    ∃ raw rest output, Json.scanString (argumentsText command) = some (raw, rest) ∧
      Json.unescape raw = some output ∧ received = .ofBytes output := by
  rw [receivedCommand, parse_commandArguments_eq h] at hreceived
  cases hmembers : Json.parseMembers (Json.parseValue 999 : Json.Parser ν)
      ((34 :: (ascii "command" ++ 34 :: 58 :: 34 :: argumentsText command)).length + 1)
      (34 :: (ascii "command" ++ 34 :: 58 :: 34 :: argumentsText command)) with
  | none =>
      rw [hmembers] at hreceived
      cases hreceived
  | some p =>
      obtain ⟨d, rest, ms, hstring, hfirst⟩ := exists_of_parseMembers_command hmembers
      obtain ⟨raw, output, hscan, hunescape, rfl⟩ := parseString_eq_some hstring
      have hd : Json.getString (some (.object (member "command" (.string (.ofBytes output)) :: ms)) :
          Option (Json ν)) (.lit "command") = some (.ofBytes output) := rfl
      rw [hmembers, Option.map_some, hfirst, hd] at hreceived
      exact ⟨raw, rest, output, hscan, hunescape, (Option.some.inj hreceived).symm⟩

/-- Without quotes and backslashes the quoted text is the command. -/
theorem receivedCommand_of_notMem {command : CString} (h : command.strlen ≤ 2000)
    (hquote : 34 ∉ command.bytes) (hbackslash : 92 ∉ command.bytes) :
    receivedCommand ν command = some command := by
  have hstring : Json.parseString (34 :: argumentsText command) = some (command, [125]) := by
    have hscan : Json.scanString (argumentsText command) = some (command.bytes, [125]) :=
      Json.scanString_of_notMem hquote hbackslash [125]
    rw [Json.parseString, if_pos rfl, hscan, Option.bind_eq_bind, Option.bind_some]
    simp only [Json.unescape_of_notMem hbackslash]
    rw [Option.bind_eq_bind, Option.bind_some, CString.ofBytes_bytes]
    rfl
  rw [receivedCommand, parse_commandArguments_eq h, parseMembers_command, hstring,
    Option.bind_some]
  rfl

/-- A command with quotes or backslashes is not read back. -/
theorem notMem_of_receivedCommand {command : CString} (h : command.strlen ≤ 2000)
    (hreceived : receivedCommand ν command = some command) :
    34 ∉ command.bytes ∧ 92 ∉ command.bytes := by
  obtain ⟨raw, rest, output, hscan, hunescape, hcommand⟩ := exists_of_receivedCommand h hreceived
  have hle := Json.length_unescape_le_tokens hunescape
  have hraw := Json.tokens_le_length raw
  have hbytes : command.bytes.length ≤ output.length := by
    rw [hcommand]
    exact (List.takeWhile_sublist _).length_le
  -- the quote behind the command ends the string at the latest
  have htext : command.bytes ++ [34, 125] = raw ++ 34 :: rest := Json.scanString_eq_append hscan
  have hlen := congrArg List.length htext
  simp only [List.length_append, List.length_cons, List.length_nil] at hlen
  have hshort : raw.length ≤ command.bytes.length := by
    by_contra hlong
    have hrest : rest = [] := List.length_eq_zero_iff.mp (by omega)
    have hlast := congrArg List.getLast? htext
    rw [hrest] at hlast
    simp at hlast
  obtain rfl : command.bytes = raw := List.append_inj_left htext (by omega)
  have hbackslash : 92 ∉ command.bytes := fun hmem ↦ by
    have hlt := Json.tokens_lt_of_scanString hscan hmem
    omega
  exact ⟨Json.quote_notMem_of_scanString hscan hbackslash, hbackslash⟩

/-! ## The call -/

omit [CNumber ν] in
/-- The dispatcher runs the command it finds. -/
theorem actions_executeTool_bash (k : Kernel σ) (ctx : ToolContext) (arguments : Option (Json ν))
    (w : σ) :
    actions ((executeTool k ctx (.lit "bash") arguments).run w).trace =
      (Json.getString arguments (.lit "command")).toList.map .bash := by
  cases hfound : Json.getString arguments (.lit "command") with
  | none =>
      have hrefused : Refused k ctx (.lit "bash") arguments := by
        simp only [Refused, executeTool, hfound]
        rfl
      exact hrefused.actions w
  | some command =>
      have hran : Ran k ctx (.lit "bash") arguments (.bash command) := by
        simp only [Ran, executeTool, hfound]
        rfl
      exact hran.actions w

/-- The agent runs the command it has read, if it has read one. -/
theorem actions_runToolCall_serverCall (k : Kernel σ) (ctx : ToolContext) (command : CString)
    (w : σ) :
    actions ((runToolCall (ν := ν) k ctx (serverCall command)).run w).trace =
      (receivedCommand ν command).toList.map .bash := by
  have htool := actions_executeTool_bash k ctx (Json.parse (ν := ν) (commandArguments command)) w
  rw [← receivedCommand] at htool
  rw [← htool, run_runToolCall_serverCall, actions_append]
  exact List.append_nil _

/-- **The command.**  For every command of at most 2000 bytes the agent reads, and runs, exactly
the command the server has chosen if and only if it contains neither quotes nor backslashes. -/
theorem receivedCommand_iff (k : Kernel σ) (ctx : ToolContext) (w : σ) {command : CString}
    (h : command.strlen ≤ 2000) :
    (receivedCommand ν command = some command ∧
      actions ((runToolCall (ν := ν) k ctx (serverCall command)).run w).trace = [.bash command]) ↔
    34 ∉ command.bytes ∧ 92 ∉ command.bytes := by
  rw [actions_runToolCall_serverCall]
  constructor
  · exact fun hreceived ↦ notMem_of_receivedCommand h hreceived.1
  · intro hplain
    have hreceived := receivedCommand_of_notMem (ν := ν) h hplain.1 hplain.2
    rw [hreceived]
    exact ⟨rfl, rfl⟩

/-- The command at a template without special characters. -/
theorem receivedCommand_iff_uname :
    (receivedCommand ℤ (.lit "uname -r") = some (.lit "uname -r") ∧
      actions ((runToolCall (ν := ℤ) (replay []) ⟨.lit "."⟩ (serverCall (.lit "uname -r"))).run
        []).trace = [.bash (.lit "uname -r")]) ↔
    34 ∉ (CString.lit "uname -r").bytes ∧ 92 ∉ (CString.lit "uname -r").bytes :=
  receivedCommand_iff (replay []) ⟨.lit "."⟩ [] (by decide)

/-- The command for the first task contains a backslash. -/
theorem receivedCommand_ne_helloCommand :
    ∃ command, chosenCommand neuralInference
        (.lit "Create a file called test_file.txt with the text Hello OS") = some command ∧
      receivedCommand ℤ command ≠ some command := by
  refine ⟨.lit "printf 'Hello OS\\n' > test_file.txt", by decide +kernel, fun hreceived ↦ ?_⟩
  exact (notMem_of_receivedCommand (by decide) hreceived).2 (by decide)

/-- The texts whose direct command contains backslashes. -/
def AsksForNewlines (text : CString) : Prop :=
  strcasestr text (.lit "test_file.txt") ∧ strcasestr text (.lit "Hello OS") ∨
    strcasestr text (.lit "test_input.txt")

instance : DecidablePred AsksForNewlines := fun _ ↦ inferInstanceAs (Decidable (_ ∨ _))

/-- The command chosen for a text is received unless the text asks for line ends in a file. -/
theorem receivedCommand_chosen_iff {c : Classifier} {text command : CString}
    (h : chosenCommand c text = some command) :
    receivedCommand ν command = some command ↔ ¬ AsksForNewlines text := by
  obtain ⟨_, _, hlen⟩ := exists_writtenAs h
  have hiff : receivedCommand ν command = some command ↔
      34 ∉ command.bytes ∧ 92 ∉ command.bytes :=
    ⟨notMem_of_receivedCommand hlen, fun hp ↦ receivedCommand_of_notMem hlen hp.1 hp.2⟩
  have htemplates : ∀ t ∈ templates, 34 ∉ t.command.bytes ∧ 92 ∉ t.command.bytes := by
    decide +kernel
  rw [hiff, AsksForNewlines]
  unfold chosenCommand at h
  split at h
  · next direct hdirect =>
    cases h
    unfold directCommand at hdirect
    split at hdirect
    · next hfile =>
      cases hdirect
      exact iff_of_false (by decide) fun hn ↦ hn (.inl hfile)
    · next hfile =>
      split at hdirect
      · next hinput =>
        cases hdirect
        exact iff_of_false (by decide) fun hn ↦ hn (.inr hinput)
      · next hinput =>
        refine iff_of_true ?_ fun hn ↦ hn.elim hfile hinput
        split at hdirect
        · cases hdirect
          decide
        · split at hdirect
          · cases hdirect
            decide
          · cases hdirect
  · next hdirect =>
    obtain ⟨t, ht, rfl⟩ := Option.map_eq_some_iff.mp h
    refine iff_of_true (htemplates t (c.mem ht)) ?_
    rintro (hfile | hinput)
    · rw [directCommand, if_pos hfile] at hdirect
      cases hdirect
    · unfold directCommand at hdirect
      split at hdirect
      · cases hdirect
      · cases hdirect

end KernelTests.CAgent
