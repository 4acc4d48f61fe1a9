import KernelTests.CAgent.History

/-!
# Announced tools and executed tools

`build_request` announces each tool with a schema for its parameters, and
`execute_tool` looks the parameters up in what `cJSON_Parse` made of the arguments.
The two agree up to the way keys are found: the dispatcher takes the first member
whose key agrees up to case, and looks at no other.
-/

namespace KernelTests.CAgent

open Effects

variable {ν σ : Type}

/-! ## Reading the schema -/

/-- The name a tool is announced under. -/
def announcedName (tool : Json ν) : Option CString :=
  Json.getString (Json.getObjectItem (some tool) (.lit "function")) (.lit "name")

/-- The schema of its parameters. -/
def parameters (tool : Json ν) : Option (Json ν) :=
  Json.getObjectItem (Json.getObjectItem (some tool) (.lit "function")) (.lit "parameters")

/-- The declared properties, all of which have type string. -/
def propertyKeys (tool : Json ν) : List CString :=
  match Json.getObjectItem (parameters tool) (.lit "properties") with
  | some (.object members) => members.map Prod.fst
  | _ => []

/-- The required properties. -/
def requiredKeys (tool : Json ν) : List CString :=
  (Json.elements (Json.getObjectItem (parameters tool) (.lit "required"))).filterMap
    Json.valuestring

/-- The arguments are an object in which every required key is present and every declared
property is a string. -/
def Satisfies (tool : Json ν) (arguments : Option (Json ν)) : Prop :=
  ∃ members, arguments = some (.object members) ∧
    (∀ key ∈ requiredKeys tool, ∃ v, (key, v) ∈ members) ∧
    ∀ key ∈ propertyKeys tool, ∀ v, (key, v) ∈ members → v.isString

/-- Every declared property has the type string, as `propertyKeys` takes for granted. -/
theorem properties_are_strings {tool : Json ν} (h : tool ∈ tools) :
    Json.getObjectItem (parameters tool) (.lit "properties") = some (.object
      ((propertyKeys tool).map fun key ↦ (key, .object [member "type" (str "string")]))) := by
  simp only [tools, List.mem_cons, List.not_mem_nil, or_false] at h
  rcases h with rfl | rfl | rfl | rfl <;> rfl

/-! ## Actions -/

/-- The tool an action belongs to. -/
def Action.tool : Action → CString
  | .readFile _ => .lit "read_file"
  | .writeFile _ _ => .lit "write_file"
  | .listFiles _ => .lit "list_files"
  | .bash _ => .lit "bash"

/-- The values an action works with, in the order of the declared properties. -/
def Action.values : Action → List CString
  | .readFile path => [path]
  | .writeFile path content => [path, content]
  | .listFiles path => [path]
  | .bash command => [command]

/-- The tool function an action stands for. -/
def Action.perform (k : Kernel σ) (ctx : ToolContext) : Action → Agent ν σ ToolResult
  | .readFile path => toolReadFile k ctx path
  | .writeFile path content => toolWriteFile k ctx path content
  | .listFiles path => toolListFiles k ctx path
  | .bash command => toolBash k command

variable (k : Kernel σ) (ctx : ToolContext)

theorem actions_perform (a : Action) (w : σ) :
    actions ((a.perform (ν := ν) k ctx).run w).trace = [a] := by
  cases a with
  | readFile path => rw [Action.perform, trace_toolReadFile]; rfl
  | writeFile path content => rw [Action.perform, trace_toolWriteFile]; rfl
  | listFiles path => rw [Action.perform, trace_toolListFiles]; rfl
  | bash command => rw [Action.perform, actions_toolBash]

/-! ## Dispatch -/

/-- The line `execute_tool` prints first. -/
def toolLine (name : CString) : Event ν :=
  .stdout (ascii "  [Tool] " ++ name.bytes ++ ascii "\n")

/-- The dispatcher ran this action and returned its result. -/
def Ran (name : CString) (arguments : Option (Json ν)) (a : Action) : Prop :=
  executeTool k ctx name arguments = do
    Traced.emit (toolLine name)
    a.perform k ctx

/-- The dispatcher ran nothing and returned the error. -/
def Refused (name : CString) (arguments : Option (Json ν)) : Prop :=
  executeTool k ctx name arguments = do
    Traced.emit (toolLine name)
    return invalidArguments

theorem Ran.actions {k : Kernel σ} {ctx : ToolContext} {name : CString}
    {arguments : Option (Json ν)} {a : Action} (h : Ran k ctx name arguments a) (w : σ) :
    actions ((executeTool k ctx name arguments).run w).trace = [a] := by
  rw [h, Traced.run_bind, actions_append, actions_perform]
  rfl

theorem Refused.actions {k : Kernel σ} {ctx : ToolContext} {name : CString}
    {arguments : Option (Json ν)} (h : Refused k ctx name arguments) (w : σ) :
    CAgent.actions ((executeTool k ctx name arguments).run w).trace = [] := by
  rw [h]
  rfl

/-- What the dispatcher does with the parameters it finds: it runs the tool with them if every
required one is there. -/
theorem executeTool_of_mem_tools {tool : Json ν} (h : tool ∈ tools) {name : CString}
    (hn : announcedName tool = some name) (arguments : Option (Json ν)) :
    ((∀ key ∈ requiredKeys tool, (Json.getString arguments key).isSome) ∧
      ∃ a : Action, a.tool = name ∧
        a.values = (propertyKeys tool).map (fun key ↦
          (Json.getString arguments key).getD (.lit "")) ∧
        Ran k ctx name arguments a) ∨
    ((∃ key ∈ requiredKeys tool, Json.getString arguments key = none) ∧
      Refused k ctx name arguments) := by
  simp only [tools, List.mem_cons, List.not_mem_nil, or_false] at h
  rcases h with rfl | rfl | rfl | rfl
  · cases hn
    have hreq : requiredKeys (ν := ν) readTool = [.lit "file_path"] := rfl
    have hprop : propertyKeys (ν := ν) readTool = [.lit "file_path"] := rfl
    rw [hreq, hprop]
    cases hp : Json.getString arguments (.lit "file_path") with
    | none =>
        refine Or.inr ⟨⟨_, by simp, hp⟩, ?_⟩
        simp only [Refused, executeTool, hp]
        rfl
    | some path =>
        refine Or.inl ⟨by simp [hp], .readFile path, rfl, by simp [hp, Action.values], ?_⟩
        simp only [Ran, executeTool, hp]
        rfl
  · cases hn
    have hreq : requiredKeys (ν := ν) writeTool = [.lit "file_path", .lit "content"] := rfl
    have hprop : propertyKeys (ν := ν) writeTool = [.lit "file_path", .lit "content"] := rfl
    rw [hreq, hprop]
    cases hp : Json.getString arguments (.lit "file_path") with
    | none =>
        refine Or.inr ⟨⟨_, by simp, hp⟩, ?_⟩
        simp only [Refused, executeTool, hp]
        rfl
    | some path =>
        cases hc : Json.getString arguments (.lit "content") with
        | none =>
            refine Or.inr ⟨⟨_, by simp, hc⟩, ?_⟩
            simp only [Refused, executeTool, hp, hc]
            rfl
        | some content =>
            refine Or.inl ⟨by simp [hp, hc], .writeFile path content, rfl,
              by simp [hp, hc, Action.values], ?_⟩
            simp only [Ran, executeTool, hp, hc]
            rfl
  · cases hn
    have hreq : requiredKeys (ν := ν) listTool = [] := rfl
    have hprop : propertyKeys (ν := ν) listTool = [.lit "path"] := rfl
    rw [hreq, hprop]
    exact Or.inl ⟨by simp, .listFiles ((Json.getString arguments (.lit "path")).getD (.lit "")),
      rfl, rfl, rfl⟩
  · cases hn
    have hreq : requiredKeys (ν := ν) bashTool = [.lit "command"] := rfl
    have hprop : propertyKeys (ν := ν) bashTool = [.lit "command"] := rfl
    rw [hreq, hprop]
    cases hp : Json.getString arguments (.lit "command") with
    | none =>
        refine Or.inr ⟨⟨_, by simp, hp⟩, ?_⟩
        simp only [Refused, executeTool, hp]
        rfl
    | some command =>
        refine Or.inl ⟨by simp [hp], .bash command, rfl, by simp [hp, Action.values], ?_⟩
        simp only [Ran, executeTool, hp]
        rfl

variable [CNumber ν]

/-- For every announced tool and every arguments string: if each required key finds a string, the
dispatcher runs the tool with what the declared keys find, and otherwise it runs nothing and
returns the error.  A key finds the first member whose key agrees up to case. -/
theorem executeTool_announced {tool : Json ν} (h : tool ∈ tools) {name : CString}
    (hn : announcedName tool = some name) (s : CString) :
    if ∀ key ∈ requiredKeys tool, (Json.getString (Json.parse (ν := ν) s) key).isSome then
      ∃ a : Action, a.tool = name ∧
        a.values = (propertyKeys tool).map (fun key ↦
          (Json.getString (Json.parse (ν := ν) s) key).getD (.lit "")) ∧
        Ran k ctx name (Json.parse (ν := ν) s) a
    else Refused k ctx name (Json.parse (ν := ν) s) := by
  rcases executeTool_of_mem_tools k ctx h hn (Json.parse s) with ⟨hall, ha⟩ | ⟨⟨key, hk, hnone⟩, hr⟩
  · rw [if_pos hall]
    exact ha
  · rw [if_neg]
    · exact hr
    · intro hall
      have := hall key hk
      rw [hnone] at this
      cases this

/-- The announcement of `bash` at arguments that satisfy its schema, and run their command. -/
theorem executeTool_announced_bash :
    Ran (replay []) ⟨.lit "."⟩ (.lit "bash") (Json.parse (ν := ℤ) listing.printUnformatted)
      (.bash (.lit "ls")) := by
  have hmem : (bashTool : Json ℤ) ∈ tools := by simp [tools]
  have hname : announcedName (bashTool : Json ℤ) = some (.lit "bash") := rfl
  have hparse := parse_listing
  generalize listing.printUnformatted = s at hparse ⊢
  have hkeys : ∀ key ∈ requiredKeys (bashTool : Json ℤ),
      (Json.getString (Json.parse (ν := ℤ) s) key).isSome := by
    have hrequired : requiredKeys (bashTool : Json ℤ) = [.lit "command"] := rfl
    rw [hrequired, hparse]
    exact List.forall_mem_singleton.mpr rfl
  obtain ⟨a, htool, hvalues, hran⟩ := (iff_of_eq (if_pos hkeys)).mp
    (executeTool_announced (replay []) ⟨.lit "."⟩ hmem hname s)
  have hproperty : propertyKeys (bashTool : Json ℤ) = [.lit "command"] := rfl
  have hfound : Json.getString (some listing) (.lit "command") = some (.lit "ls") := rfl
  rw [hproperty, List.map_singleton, hparse, hfound, Option.getD_some] at hvalues
  obtain rfl : a = .bash (.lit "ls") := by
    cases a with
    | bash command => rw [List.singleton_inj.mp hvalues]
    | readFile => exact absurd (show CString.lit "read_file" = .lit "bash" from htool) (by decide)
    | writeFile => exact absurd (show CString.lit "write_file" = .lit "bash" from htool) (by decide)
    | listFiles => exact absurd (show CString.lit "list_files" = .lit "bash" from htool) (by decide)
  exact hran

/-- Arguments whose only key is spelled with a capital letter. -/
def capitalArguments : Json ℤ := .object [member "Command" (str "ls")]

/-- They do not satisfy the schema, but the command runs. -/
theorem executeTool_capital :
    ¬ ((∃ a, actions ((executeTool (replay []) ⟨.lit "."⟩ (.lit "bash")
        (Json.parse (ν := ℤ) capitalArguments.printUnformatted)).run []).trace = [a]) ↔
      Satisfies bashTool (Json.parse (ν := ℤ) capitalArguments.printUnformatted)) := by
  have hparse : Json.parse capitalArguments.printUnformatted = some capitalArguments := by
    rw [Json.parse_printUnformatted, if_pos (by decide)]
    rfl
  rw [hparse]
  intro h
  obtain ⟨members, he, hreq, _⟩ := h.mp ⟨.bash (.lit "ls"), rfl⟩
  cases he
  obtain ⟨v, hv⟩ := hreq (.lit "command") (by decide)
  rw [List.mem_singleton] at hv
  have hne : CString.lit "command" ≠ .lit "Command" := by decide
  exact hne (congrArg Prod.fst hv)

end KernelTests.CAgent
