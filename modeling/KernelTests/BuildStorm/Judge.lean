import KernelTests.Python.Float
import KernelTests.Regex.Fields

/-!
# The judge of the build tests

`judge_buildstorm` looks for the records of the environment anywhere in the log, takes
the fields of the last compile record, and prints four results.  An exception that is
not caught leaves no result at all.
-/

namespace KernelTests.BuildStorm

open Python

/-! ## Baselines -/

/-- `BASELINES` -/
structure Baselines where
  riscv64 : ℚ
  loongarch64 : ℚ

/-- The values without a configuration file. -/
def referenceBaselines : Baselines := ⟨1616.09, 1985.21⟩

/-- `BASELINES.get` -/
def Baselines.get (baselines : Baselines) (arch : Str) : Option ℚ :=
  if arch = lit "riscv64" then some baselines.riscv64
  else if arch = lit "loongarch64" then some baselines.loongarch64
  else none

/-- `time_score` -/
def timeScore (t : Python.Float) (baseline : ℚ) : Python.Float :=
  .round 1 (.scale 120 (.clamp (.div (.subFrom (2 * baseline) t) baseline)))

/-! ## Results -/

/-- An element of the printed list. -/
structure Result where
  name : Str
  pass : ℕ
  total : ℕ
  score : Python.Float
deriving DecidableEq

/-- A result that gives all points or none. -/
def binaryResult (name : Str) (points : ℚ) (ok : Bool) : Result where
  name := name
  pass := if ok then 1 else 0
  total := 1
  score := .finite (if ok then points else 0)

/-- The result for the compile time. -/
def timeResult (score : Python.Float) : Result where
  name := lit "buildstorm compile time"
  pass := if Python.Float.lt (.finite 0) score then 1 else 0
  total := 1
  score := score

/-- `ENV_PTS` -/
def envPts : List (Str × ℚ) := [(lit "TOOLCHAIN", 8), (lit "MINIBUILD", 12)]

/-! ## Records -/

/-- The word a record of the environment starts with. -/
def envWord (tag : Str) : Str := lit "BUILDSTORM_" ++ tag

/-- The word a compile record starts with. -/
def compileWord : Str := lit "BUILDSTORM_COMPILE"

/-- `\S` -/
def isToken (c : Char) : Bool := !isSpace c

/-- `[ \t]` -/
def isBlank (c : Char) : Bool := c = ' ' || c = '\t'

/-- `BUILDSTORM_COMPILE\s+((?:\S+=\S+[ \t]*)+)` -/
def compilePattern : List (Regex Char) :=
  Regex.record isToken isBlank '=' isSpace compileWord

/-- The fields of a compile record, the last one first. -/
abbrev Fields := List (Str × Str)

/-- `dict(p.split("=", 1) for p in m.group(1).split())` -/
def fieldsOf : List Str → Option Fields
  | [_, _, body] => ((split body).mapM splitEq).map List.reverse
  | _ => none

/-- `parse_compile` -/
def parseCompile (out : Str) : Option (Option Fields) := do
  let kvs ← (Regex.finditer compilePattern 0 none out).mapM fieldsOf
  return kvs.getLast?

/-- `compile_ok`; without a record there are no fields. -/
def compileOk (kv : Fields) : Bool := kv.lookup (lit "ok") = some (lit "true")

/-- `int(kv.get("cores", 0) or 0)` -/
def cores [Unicode] (kv : Fields) : Option ℤ :=
  match kv.lookup (lit "cores") with
  | none => some 0
  | some c => if c = [] then some 0 else toInt c

/-- The time score of a record with `ok=true`. -/
def timePoints [Unicode] (baselines : Baselines) (kv : Fields) : Python.Float :=
  let arch := (kv.lookup (lit "arch")).getD []
  match (kv.lookup (lit "elapsed_s")).bind toFloat, baselines.get arch with
  | some t, some baseline => if baseline ≠ 0 then timeScore t baseline else .finite 0
  | _, _ => .finite 0

variable [Unicode]

/-- `BUILDSTORM_{tag}\s+ok\b` -/
def envPattern (tag : Str) : Regex Char :=
  .seq (.word (envWord tag)) (.seq (.plus (.char isSpace)) (.seq (.word (lit "ok"))
    (.boundary isWord)))

/-- The result for a part of the environment. -/
def envResult (out : Str) (tag : Str × ℚ) : Result :=
  binaryResult (lit "buildstorm env " ++ lower tag.1) tag.2 (Regex.found (envPattern tag.1) out)

/-- `main`: the printed list, for the text that was read. -/
def main (baselines : Baselines) (out : Str) : Option (List Result) := do
  let kv := (← parseCompile out).getD []
  let tscore ← if compileOk kv then do
      let _ ← cores kv
      pure (timePoints baselines kv)
    else pure (.finite 0)
  return envPts.map (envResult out) ++
    [binaryResult (lit "buildstorm compile ok") 40 (compileOk kv), timeResult tscore]

end KernelTests.BuildStorm
