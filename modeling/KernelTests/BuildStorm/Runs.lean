import KernelTests.BuildStorm.Logs

/-!
# Several runs in one log

The judge joins the logs it is given.  The compile record that counts is the last one,
but a part of the environment counts as soon as any run announces it.
-/

namespace KernelTests.BuildStorm

open Python

/-- The complete log of a run of the script, with what each of its records says. -/
structure RunLog where
  setup : Str
  toolchain : Bool
  tools : Str
  minibuild : Bool
  build : Str
  record : Str
  rest : Str
  markerless : ∀ s ∈ [setup, tools, build, rest], Markerless s
  wellFormed : Line.WellFormed (.compile record)

namespace RunLog

/-- Other output and lines of the run. -/
def pieces (run : RunLog) : List (Str × Line) :=
  [(run.setup, .env (lit "TOOLCHAIN") run.toolchain), (run.tools, .env (lit "MINIBUILD") run.minibuild),
    (run.build, .compile run.record), (run.rest, .finish)]

/-- The log. -/
def log (run : RunLog) : Str := logOf run.pieces

theorem wellFormed_pieces (run : RunLog) : WellFormed run.pieces := by
  obtain ⟨hsetup, htools, hbuild, hrest⟩ : Markerless run.setup ∧ Markerless run.tools ∧
      Markerless run.build ∧ Markerless run.rest := by
    simpa using run.markerless
  have htoolchain : lit "TOOLCHAIN" ∈ tags := by decide
  have hminibuild : lit "MINIBUILD" ∈ tags := by decide
  simp only [WellFormed, pieces, List.forall_mem_cons]
  exact ⟨⟨hsetup, htoolchain⟩, ⟨htools, hminibuild⟩, ⟨hbuild, run.wellFormed⟩, ⟨hrest, trivial⟩,
    List.forall_mem_nil _⟩

/-- The record of the run is the only one in its log. -/
theorem lastFields_log (run : RunLog) : lastFields run.log = fieldsAt run.record := by
  have hfields := matchedFields_logOf run.wellFormed_pieces markerless_nil
  rw [List.append_nil] at hfields
  rw [lastFields, log, hfields]
  rfl

theorem any_announces_toolchain (run : RunLog) :
    (run.pieces.any fun p ↦ announces (lit "TOOLCHAIN") p.2) = run.toolchain := by
  have hne : lit "MINIBUILD" ≠ lit "TOOLCHAIN" := by decide
  simp [pieces, announces, hne]

theorem any_announces_minibuild (run : RunLog) :
    (run.pieces.any fun p ↦ announces (lit "MINIBUILD") p.2) = run.minibuild := by
  have hne : lit "TOOLCHAIN" ≠ lit "MINIBUILD" := by decide
  simp [pieces, announces, hne]

end RunLog

/-- `"".join(...)`: the logs of the files behind one another, which is also their concatenation in
one file. -/
def joinLogs (runs : List RunLog) : Str := (runs.map RunLog.log).flatten

theorem joinLogs_eq (runs : List RunLog) : joinLogs runs = logOf (runs.flatMap RunLog.pieces) := by
  induction runs with
  | nil => rfl
  | cons run runs ih =>
      rw [List.flatMap_cons, logOf_append, ← ih]
      rfl

theorem wellFormed_flatMap (runs : List RunLog) : WellFormed (runs.flatMap RunLog.pieces) := by
  intro p hp
  obtain ⟨run, _, hp⟩ := List.mem_flatMap.mp hp
  exact run.wellFormed_pieces p hp

/-- The record of the last run counts. -/
theorem lastRecord_append (earlier : List RunLog) (last : RunLog) :
    lastRecord ((earlier ++ [last]).flatMap RunLog.pieces) = fieldsAt last.record := by
  rw [lastRecord, List.flatMap_append, List.flatMap_singleton, List.filterMap_append,
    List.getLast?_append]
  rfl

/-- A result that gives all points or none says which. -/
theorem binaryResult_inj {name : Str} {points : ℚ} {a b : Bool} :
    binaryResult name points a = binaryResult name points b ↔ a = b := by
  refine ⟨fun h ↦ ?_, congrArg _⟩
  have hpass : (if a then 1 else 0) = if b then 1 else 0 := congrArg Result.pass h
  cases a <;> cases b <;> simp_all

theorem or_eq_right_iff {l : List RunLog} {f : RunLog → Bool} {b : Bool} :
    (l.any f || b) = b ↔ b ∨ ∀ run ∈ l, f run = false := by
  cases b <;> simp

variable [Unicode]

/-- The verdict on several runs. -/
theorem main_joinLogs (baselines : Baselines) (earlier : List RunLog) (last : RunLog) :
    main baselines (joinLogs (earlier ++ [last])) =
      verdictOf baselines (earlier.any RunLog.toolchain || last.toolchain)
        (earlier.any RunLog.minibuild || last.minibuild) (fieldsAt last.record) := by
  rw [joinLogs_eq, main_logOf baselines (wellFormed_flatMap _), lastRecord_append, List.any_flatMap,
    List.any_flatMap]
  simp only [RunLog.any_announces_toolchain, RunLog.any_announces_minibuild, List.any_append,
    List.any_cons, List.any_nil, Bool.or_false]

/-- **Several runs.**  The verdict is the one on the last run alone exactly if there is none, or if
no part of the environment was announced by earlier runs only. -/
theorem main_joinLogs_eq_iff (baselines : Baselines) (earlier : List RunLog) (last : RunLog) :
    main baselines (joinLogs (earlier ++ [last])) = main baselines last.log ↔
      BadCores (fieldsAt last.record) ∨
        (last.toolchain ∨ ∀ run ∈ earlier, run.toolchain = false) ∧
          (last.minibuild ∨ ∀ run ∈ earlier, run.minibuild = false) := by
  have halone := main_joinLogs baselines [] last
  rw [List.nil_append, joinLogs, List.map_singleton, List.flatten_singleton] at halone
  rw [main_joinLogs, halone, verdictOf, verdictOf]
  by_cases hbad : BadCores (fieldsAt last.record)
  · simp [hbad]
  · rw [if_neg hbad, if_neg hbad, List.any_nil, List.any_nil, Bool.false_or, Bool.false_or,
      Option.some.injEq, List.cons.injEq, List.cons.injEq, binaryResult_inj, binaryResult_inj,
      or_eq_right_iff, or_eq_right_iff]
    simp [hbad]

/-- The fields of a build that failed. -/
def failedFields : List (Str × Str) := [(lit "mode", lit "multi"), (lit "ok", lit "false")]

omit [Unicode] in
theorem isKey_failedFields : ∀ q ∈ failedFields, IsKey q.1 ∧ IsValue q.2 := by
  simp only [failedFields, List.forall_mem_cons]
  decide

/-- A run of a build that failed, with the given outcome for the toolchain. -/
def failedRun (toolchain : Bool) : RunLog where
  setup := []
  toolchain := toolchain
  tools := []
  minibuild := false
  build := []
  record := printFields failedFields
  rest := []
  markerless := by decide
  wellFormed := ⟨by decide, wordsOf_printFields_ne_nil isKey_failedFields (by decide)⟩

omit [Unicode] in
/-- A toolchain that only an earlier run announced is counted for the last run. -/
theorem main_joinLogs_ne :
    @main asciiOnly referenceBaselines (joinLogs [failedRun true, failedRun false]) ≠
      @main asciiOnly referenceBaselines (failedRun false).log := by
  let _ := asciiOnly
  have hboth := main_joinLogs referenceBaselines [failedRun true] (failedRun false)
  have halone := main_joinLogs referenceBaselines [] (failedRun false)
  rw [List.nil_append, joinLogs, List.map_singleton, List.flatten_singleton] at halone
  have hfields : fieldsAt (failedRun false).record = failedFields.reverse :=
    fieldsAt_printFields isKey_failedFields
  have hgood : ¬ BadCores failedFields.reverse := by decide
  rw [List.singleton_append] at hboth
  rw [hboth, halone, hfields, verdictOf, verdictOf, if_neg hgood, if_neg hgood]
  intro h
  exact absurd (congrArg Result.pass (List.cons.inj (Option.some.inj h)).1) (by decide)

end KernelTests.BuildStorm
