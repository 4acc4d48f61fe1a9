import KernelTests.BuildStorm.Runs
import KernelTests.BuildStorm.Script

/-!
# The artifact of a build

The script removes one sub-tree of the target directory, builds, and then looks at the
first artifact that a search through the whole directory meets.  Its answer is about
this build exactly if that file is large whenever the build wrote a large one, and
never otherwise.
-/

namespace KernelTests.BuildStorm

open Python

/-! ## The target directory -/

/-- What stands under a path. -/
inductive Node where
  | file (size : ℕ)
  | directory
deriving DecidableEq

/-- A path as `find target` prints it, and what stands there. -/
abbrev Entry := Str × Node

/-- The target directory. -/
structure Tree where
  entries : List Entry
  nodup : (entries.map Prod.fst).Nodup
  rooted : ∀ e ∈ entries, lit "target/" <+: e.1

namespace Tree

/-- `rm -rf` -/
def remove (t : Tree) (dir : Str) : Tree where
  entries := t.entries.filter fun e ↦ ¬ (e.1 = dir ∨ dir ++ ['/'] <+: e.1)
  nodup := t.nodup.sublist (List.filter_sublist.map _)
  rooted e he := t.rooted e (List.mem_of_mem_filter he)

/-- The entries of another tree are written into a tree. -/
def write (t new : Tree) : Tree where
  entries := t.entries.filter (fun e ↦ e.1 ∉ new.entries.map Prod.fst) ++ new.entries
  nodup := by
    rw [List.map_append, List.nodup_append']
    refine ⟨t.nodup.sublist (List.filter_sublist.map _), new.nodup, fun p hp hnew ↦ ?_⟩
    obtain ⟨e, he, rfl⟩ := List.mem_map.mp hp
    exact of_decide_eq_true (List.mem_filter.mp he).2 hnew
  rooted e he := by
    rcases List.mem_append.mp he with he | he
    · exact t.rooted e (List.mem_of_mem_filter he)
    · exact new.rooted e he

end Tree

/-- The last component of a path. -/
def baseName (path : Str) : Str := (path.reverse.takeWhile (· ≠ '/')).reverse

/-- `-type f \( -name 'arceos-helloworld' -o -name 'helloworld' \)` -/
def isArtifact : Entry → Bool
  | (path, .file _) => baseName path = lit "arceos-helloworld" || baseName path = lit "helloworld"
  | (_, .directory) => false

/-- What `find` prints in a traversal. -/
def findOutput (traversal : List Entry) : Str :=
  (traversal.filter isArtifact).flatMap fun e ↦ e.1 ++ ['\n']

/-- `ART`: the first line of what `find` prints. -/
def art (traversal : List Entry) : Str := (findOutput traversal).takeWhile (· ≠ '\n')

/-- `wc -c`; if there is no file to read from, nothing is printed. -/
def wc (traversal : List Entry) (path : Str) : Option ℕ :=
  match traversal.lookup path with
  | some (.file size) => some size
  | some .directory => some 0
  | none => none

/-- `BYTES` -/
def bytes (traversal : List Entry) : Option ℕ :=
  if art traversal = [] then some 0 else wc traversal (art traversal)

/-! ## Builds -/

/-- A run of the script through the timed build. -/
structure BuildRun where
  uname : Str
  /-- What earlier builds have left. -/
  initial : Tree
  /-- What the build in front of the timed one writes. -/
  prebuilt : Tree
  /-- What the timed build writes. -/
  written : Tree
  /-- The exit status of the timed build. -/
  status : ℕ
  /-- The entries in the order in which `find` meets them. -/
  traversal : List Entry
  perm : traversal.Perm (((initial.remove (lit "target/" ++ axtgt uname)).write prebuilt).write
    written).entries
  elapsed : Str
  isHarmless_elapsed : IsHarmless elapsed
  /-- The number that `nproc` prints, if there is an `nproc`. -/
  nproc : Option UInt64

/-- A file that is large enough. -/
def Large (e : Entry) : Prop := ∃ n, e.2 = .file n ∧ 500000 ≤ n

/-- The first artifact of a traversal is large; if its path has a newline in it, the file whose
path ends there is. -/
def MeetsLarge (traversal : List Entry) : Prop :=
  ∃ before a after, traversal = before ++ a :: after ∧ (∀ e ∈ before, ¬ isArtifact e) ∧
    isArtifact a ∧ ∃ e ∈ traversal, e.1 = a.1.takeWhile (· ≠ '\n') ∧ Large e

namespace BuildRun

variable (run : BuildRun)

/-- `[ "$RC" -eq 0 ] && [ -n "$ART" ] && [ "$BYTES" -ge 500000 ]` -/
def ok : Bool :=
  run.status = 0 && art run.traversal ≠ [] && (bytes run.traversal).any (500000 ≤ ·)

/-- This build wrote a large artifact. -/
def WroteLarge : Prop := ∃ e ∈ run.written.entries, isArtifact e ∧ Large e

theorem nodup_traversal : (run.traversal.map Prod.fst).Nodup :=
  (run.perm.map Prod.fst).nodup_iff.mpr (Tree.nodup _)

theorem rooted_traversal {e : Entry} (he : e ∈ run.traversal) : lit "target/" <+: e.1 :=
  Tree.rooted _ e (run.perm.subset he)

/-- The text of `ART` is the path of the first artifact, up to the first newline. -/
theorem art_of_first {before after : List Entry} {a : Entry} {traversal : List Entry}
    (h : traversal = before ++ a :: after) (hbefore : ∀ e ∈ before, ¬ isArtifact e)
    (ha : isArtifact a) : art traversal = a.1.takeWhile (· ≠ '\n') := by
  have hfilter : before.filter isArtifact = [] := List.filter_eq_nil_iff.mpr hbefore
  rw [art, findOutput, h, List.filter_append, hfilter, List.nil_append, List.filter_cons_of_pos ha,
    List.flatMap_cons, List.append_assoc, List.singleton_append]
  exact (Regex.takeWhile_append_cons (by simp) _ _).1

theorem art_of_none {traversal : List Entry} (h : ∀ e ∈ traversal, ¬ isArtifact e) :
    art traversal = [] := by
  rw [art, findOutput, List.filter_eq_nil_iff.mpr h]
  rfl

/-- Either a traversal meets no artifact, or it meets a first one. -/
theorem first_or_none (traversal : List Entry) :
    (∀ e ∈ traversal, ¬ isArtifact e) ∨ ∃ before a after, traversal = before ++ a :: after ∧
      (∀ e ∈ before, ¬ isArtifact e) ∧ isArtifact a := by
  cases h : traversal.filter isArtifact with
  | nil => exact Or.inl (List.filter_eq_nil_iff.mp h)
  | cons a l =>
      obtain ⟨before, after, htraversal, hbefore, ha, _⟩ := List.filter_eq_cons_iff.mp h
      exact Or.inr ⟨before, a, after, htraversal, hbefore, ha⟩

/-- What `wc` prints is large exactly if there is a large file. -/
theorem wc_any_iff {traversal : List Entry} (h : (traversal.map Prod.fst).Nodup) (path : Str) :
    (wc traversal path).any (500000 ≤ ·) ↔ ∃ e ∈ traversal, e.1 = path ∧ Large e := by
  constructor
  · intro hany
    cases hlookup : traversal.lookup path with
    | none => simp [wc, hlookup] at hany
    | some node =>
        cases node with
        | file n =>
            refine ⟨(path, .file n), (lookup_eq_some_iff_mem h).mp hlookup, rfl, n, rfl, ?_⟩
            simpa [wc, hlookup] using hany
        | directory => simp [wc, hlookup] at hany
  · rintro ⟨⟨_, _⟩, he, rfl, n, rfl, hsize⟩
    rw [wc, (lookup_eq_some_iff_mem h).mpr he]
    simpa using hsize

/-- There is only one first artifact. -/
theorem meetsLarge_iff_of_first {before after : List Entry} {a : Entry} {traversal : List Entry}
    (h : traversal = before ++ a :: after) (hbefore : ∀ e ∈ before, ¬ isArtifact e)
    (ha : isArtifact a) : MeetsLarge traversal ↔
      ∃ e ∈ traversal, e.1 = a.1.takeWhile (· ≠ '\n') ∧ Large e := by
  constructor
  · rintro ⟨before', a', after', h', hbefore', ha', hlarge⟩
    rwa [← art_of_first h' hbefore' ha', art_of_first h hbefore ha] at hlarge
  · exact fun hlarge ↦ ⟨before, a, after, h, hbefore, ha, hlarge⟩

/-- The script looks at the size of the first artifact. -/
theorem ok_iff : run.ok ↔ run.status = 0 ∧ MeetsLarge run.traversal := by
  rw [ok, Bool.and_eq_true, Bool.and_eq_true, decide_eq_true_eq, decide_eq_true_eq, and_assoc]
  refine and_congr_right fun _ ↦ ?_
  rcases first_or_none run.traversal with hnone | ⟨before, a, after, htraversal, hbefore, ha⟩
  · have hmeets : ¬ MeetsLarge run.traversal := by
      rintro ⟨before, a, after, htraversal, _, ha, _⟩
      exact hnone a (htraversal ▸ by simp) ha
    simp [art_of_none hnone, hmeets]
  · have hne : a.1.takeWhile (· ≠ '\n') ≠ [] := by
      obtain ⟨s, hs⟩ := run.rooted_traversal (e := a) (htraversal ▸ by simp)
      rw [← hs, show lit "target/" = 't' :: lit "arget/" by decide, List.cons_append,
        List.takeWhile_cons_of_pos (by decide)]
      exact List.cons_ne_nil _ _
    rw [bytes, art_of_first htraversal hbefore ha, if_neg hne, wc_any_iff run.nodup_traversal,
      meetsLarge_iff_of_first htraversal hbefore ha]
    exact and_iff_right hne

/-! ## The record -/

/-- The fields of the record. -/
def fields : List (Str × Str) :=
  buildFields run.ok (Nat.toDigits 10 run.status) run.elapsed
    (run.nproc.elim [] fun n ↦ Nat.toDigits 10 n.toNat)
    ((bytes run.traversal).elim [] (Nat.toDigits 10)) (axarch run.uname)

theorem isHarmless_fields : ∀ p ∈ run.fields, (IsKey p.1 ∧ Markerless p.1) ∧ IsHarmless p.2 := by
  refine isHarmless_buildFields (isHarmless_toDigits _) run.isHarmless_elapsed ?_ ?_
    (isHarmless_axarch _)
  · cases run.nproc with
    | none => exact isHarmless_nil
    | some n => exact isHarmless_toDigits _
  · cases bytes run.traversal with
    | none => exact isHarmless_nil
    | some n => exact isHarmless_toDigits _

theorem isKey_fields : ∀ p ∈ run.fields, IsKey p.1 ∧ IsValue p.2 := fun p hp ↦
  ⟨(run.isHarmless_fields p hp).1.1, (run.isHarmless_fields p hp).2.isValue⟩

/-- The text of the compile record. -/
def record : Str := printFields run.fields

theorem compileOk_record : compileOk (fieldsAt run.record) = run.ok :=
  compileOk_buildFields run.isKey_fields

theorem wellFormed_record : Line.WellFormed (.compile run.record) := by
  refine ⟨markerless_printFields fun p hp ↦ ?_, ?_⟩
  · exact ⟨(run.isHarmless_fields p hp).1.2, (run.isHarmless_fields p hp).2.markerless⟩
  · have hmode : ∃ l, run.fields = (lit "mode", lit "multi") :: l := by
      rw [fields, buildFields]
      cases run.ok with
      | true => exact ⟨_, rfl⟩
      | false => exact ⟨_, rfl⟩
    obtain ⟨l, hl⟩ := hmode
    have hkeys := run.isKey_fields
    rw [record, hl]
    rw [hl] at hkeys
    exact wordsOf_printFields_ne_nil hkeys (by decide)

theorem not_badCores_record [Unicode] : ¬ BadCores (fieldsAt run.record) := by
  refine not_badCores_buildFields run.isKey_fields ?_
  cases hn : run.nproc with
  | none => exact Or.inl rfl
  | some n =>
      refine Or.inr ?_
      have hlen : (Nat.toDigits 10 n.toNat).length ≤ 20 :=
        (Nat.length_toDigits_le_iff (by decide) (by decide)).mpr (n.toNat_lt.trans (by norm_num))
      rw [Option.elim_some, toInt_toDigits (hlen.trans (by norm_num))]
      rfl

end BuildRun

/-! ## The points -/

/-- What a log shows around the compile record. -/
structure Surroundings where
  setup : Str
  toolchain : Bool
  tools : Str
  minibuild : Bool
  build : Str
  rest : Str
  markerless : ∀ s ∈ [setup, tools, build, rest], Markerless s

/-- The log of a run. -/
def BuildRun.runLog (run : BuildRun) (around : Surroundings) : RunLog where
  setup := around.setup
  toolchain := around.toolchain
  tools := around.tools
  minibuild := around.minibuild
  build := around.build
  record := run.record
  rest := around.rest
  markerless := around.markerless
  wellFormed := run.wellFormed_record

/-- The result for a successful build. -/
def compileAward : Result := binaryResult (lit "buildstorm compile ok") 40 true

variable [Unicode]

/-- The judge awards the points for the build. -/
def Awarded (baselines : Baselines) (out : Str) : Prop :=
  ∃ results, main baselines out = some results ∧ compileAward ∈ results

/-- The points are awarded for the fields of the last record. -/
theorem awarded_iff_compileOk (baselines : Baselines) (out : Str) :
    Awarded baselines out ↔ ¬ BadCores (lastFields out) ∧ compileOk (lastFields out) := by
  have hnames : lit "buildstorm compile ok" ∉ [lit "buildstorm env toolchain",
      lit "buildstorm env minibuild", lit "buildstorm compile time"] := by decide
  have hresults : compileAward ∈ resultsOf baselines out (lastFields out) ↔
      compileOk (lastFields out) := by
    rw [resultsOf, envPts, List.map_cons, List.map_singleton, envResult, envResult,
      envName_toolchain, envName_minibuild]
    constructor
    · intro hmem
      simp only [List.cons_append, List.nil_append, List.mem_cons, List.not_mem_nil, or_false,
        not_or] at hmem hnames
      rcases hmem with h | h | h | h
      · exact absurd (congrArg Result.name h) hnames.1
      · exact absurd (congrArg Result.name h) hnames.2.1
      · exact (binaryResult_inj.mp h).symm
      · exact absurd (congrArg Result.name h) hnames.2.2
    · intro hok
      rw [hok, compileAward]
      simp
  rw [Awarded, main_eq]
  by_cases hbad : BadCores (lastFields out)
  · simp [hbad]
  · simp [hbad, hresults]

/-- The points are awarded exactly for a record with `ok=true`. -/
theorem awarded_iff (baselines : Baselines) (run : BuildRun) (around : Surroundings) :
    Awarded baselines (run.runLog around).log ↔ run.ok := by
  have hfields : lastFields (run.runLog around).log = fieldsAt run.record :=
    RunLog.lastFields_log (run.runLog around)
  rw [awarded_iff_compileOk, hfields, run.compileOk_record]
  exact and_iff_right run.not_badCores_record

/-- **Artifacts.**  The answer of the script, and with it the points, are about this build exactly
if a successful build wrote a large artifact whenever the first artifact that is met is large, and
only then. -/
theorem ok_and_awarded_iff (baselines : Baselines) (run : BuildRun) (around : Surroundings) :
    ((run.ok ↔ run.status = 0 ∧ run.WroteLarge) ∧
        (Awarded baselines (run.runLog around).log ↔ run.status = 0 ∧ run.WroteLarge)) ↔
      (run.status = 0 → (MeetsLarge run.traversal ↔ run.WroteLarge)) := by
  rw [awarded_iff, and_self, run.ok_iff]
  by_cases hstatus : run.status = 0
  · simp [hstatus]
  · simp [hstatus]

/-! ## Artifacts of earlier builds -/

section Examples

/-- An empty directory. -/
def emptyTree : Tree := ⟨[], List.nodup_nil, List.forall_mem_nil _⟩

/-- A directory with one file. -/
def singleTree (path : Str) (size : ℕ) (h : lit "target/" <+: path) : Tree where
  entries := [(path, .file size)]
  nodup := List.nodup_singleton _
  rooted := List.forall_mem_singleton.mpr h

/-- A build that writes nothing into a directory with a large artifact. -/
def staleRun : BuildRun where
  uname := lit "riscv64"
  initial := singleTree (lit "target/debug/helloworld") 600000 (by decide)
  prebuilt := emptyTree
  written := emptyTree
  status := 0
  traversal := [(lit "target/debug/helloworld", .file 600000)]
  perm := by decide
  elapsed := lit "1.00"
  isHarmless_elapsed := ⟨by decide, by decide⟩
  nproc := some 8

/-- A build that writes a large artifact, while a small one is met first. -/
def hiddenRun : BuildRun where
  uname := lit "riscv64"
  initial := singleTree (lit "target/debug/helloworld") 1 (by decide)
  prebuilt := emptyTree
  written := singleTree (lit "target/riscv64gc-unknown-linux-musl/release/helloworld") 600000
    (by decide)
  status := 0
  traversal := [(lit "target/debug/helloworld", .file 1),
    (lit "target/riscv64gc-unknown-linux-musl/release/helloworld", .file 600000)]
  perm := by decide
  elapsed := lit "1.00"
  isHarmless_elapsed := ⟨by decide, by decide⟩
  nproc := some 8

omit [Unicode] in
/-- An artifact of an earlier build changes the answer, in both directions. -/
theorem not_ok_iff_wroteLarge :
    ¬ (staleRun.ok ↔ staleRun.status = 0 ∧ staleRun.WroteLarge) ∧
      ¬ (hiddenRun.ok ↔ hiddenRun.status = 0 ∧ hiddenRun.WroteLarge) := by
  refine ⟨fun h ↦ ?_, fun h ↦ ?_⟩
  · obtain ⟨_, e, he, _⟩ := h.mp (by decide)
    cases he
  · have hok : ¬ hiddenRun.ok := by decide
    exact hok (h.mpr ⟨rfl, _, List.mem_cons_self, by decide, 600000, rfl, by decide⟩)

end Examples

end KernelTests.BuildStorm
