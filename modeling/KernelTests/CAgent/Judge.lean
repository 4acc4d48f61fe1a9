import KernelTests.Python.Text
import KernelTests.Python.Round
import KernelTests.Regex.Search

/-!
# The judge of the agent tests

`judge_cagent` reads the whole log, finds the result lines with a regular expression,
keeps the last record of every test, and prints one result for each entry of its
table.
-/

namespace KernelTests.CAgent.Judge

open Python

/-- An entry of `TESTS`. -/
structure TestEntry where
  name : Str
  difficulty : String
  weight : ℚ
  timeoutMs : ℕ
deriving DecidableEq

/-- `TESTS` -/
def tests : List TestEntry :=
  [⟨lit "factorial", "easy", 13.5, 20000⟩,
    ⟨lit "date", "easy", 13.5, 20000⟩,
    ⟨lit "network", "medium", 20, 25000⟩,
    ⟨lit "cpu", "easy", 13.5, 20000⟩,
    ⟨lit "kernel", "easy", 13.5, 20000⟩,
    ⟨lit "fs-create", "medium", 20, 25000⟩,
    ⟨lit "fs-readwrite", "medium", 20, 30000⟩,
    ⟨lit "fs-directory", "medium", 20, 30000⟩,
    ⟨lit "fs-search", "hard", 27, 35000⟩,
    ⟨lit "fs-usage", "medium", 20, 25000⟩]

variable [Unicode]

/-! ## Records -/

/-- `status` and `elapsed_ms` of a record. -/
structure Record where
  status : Str
  elapsedMs : Str
deriving DecidableEq

/-- `testcase\s+cagent\s+(\S+)\s+(pass|reject)\s+(\d+)` -/
def pattern : List (Regex Char) :=
  [.word (lit "testcase"), .plus (.char isSpace), .word (lit "cagent"), .plus (.char isSpace),
    .plus (.char (!isSpace ·)), .plus (.char isSpace),
    .alt (.word (lit "pass")) (.word (lit "reject")), .plus (.char isSpace),
    .plus (.char isDecimal)]

/-- The three groups in parentheses. -/
def record? : List Str → Option (Str × Record)
  | [_, _, _, _, name, _, status, _, elapsedMs] => some (name, ⟨status, elapsedMs⟩)
  | _ => none

/-- `parse_records`: the records of the tests in the table, the last one first. -/
def parseRecords (text : Str) : List (Str × Record) :=
  (((Regex.finditer pattern 0 none text).filterMap record?).filter fun r ↦
    r.1 ∈ tests.map TestEntry.name).reverse

/-! ## Results -/

/-- An element of the printed list. -/
structure Result where
  name : Str
  pass : ℕ
  total : ℕ
  score : ℚ
  execTimeMs : ℤ
  difficulty : String
deriving DecidableEq

/-- The result for one test, given its record. -/
def result (test : TestEntry) (record : Option Record) : Result :=
  let passed := record.map Record.status = some (lit "pass")
  let elapsedMs := (toInt ((record.map Record.elapsedMs).getD (lit "0"))).getD 0
  let bonus := if passed ∧ 0 < elapsedMs ∧ (elapsedMs : ℚ) < (test.timeoutMs : ℚ) / 2
    then test.weight * 0.1 else 0
  { name := lit "cagent " ++ test.name
    pass := if passed then 1 else 0
    total := 1
    score := if passed then Python.round 2 (test.weight + bonus) else 0
    execTimeMs := elapsedMs
    difficulty := test.difficulty }

/-- `main`: the printed list, for what was read from standard input. -/
def main (text : Str) : List Result :=
  tests.map fun test ↦ result test ((parseRecords text).lookup test.name)

end KernelTests.CAgent.Judge
