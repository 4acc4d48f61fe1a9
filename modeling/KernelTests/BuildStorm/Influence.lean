import KernelTests.BuildStorm.Foreign
import Mathlib.Data.List.DropRight

/-!
# What the tools print

The output of the compiler, of cargo and of both builds stands in the log between the
records of the script, and the last lines of the timed build stand behind its record if
it failed.  Here are exactly the outputs with which the judge comes to the same results
as without any.
-/

namespace KernelTests.BuildStorm

open Python

/-! ## Runs -/

/-- What the tools print. -/
structure Texts where
  rustc : Str
  cargo : Str
  prebuild : Str
  build : Str

/-- Nothing is printed. -/
def Texts.silent : Texts := ⟨[], [], [], []⟩

/-- What happens behind the records of the environment. -/
inductive Ending where
  /-- There is no working directory. -/
  | abort (uname : Str) (nproc : Option UInt64)
  /-- The timed build is run; the script takes care that there is a time. -/
  | timed (run : BuildRun) (elapsed_ne_nil : run.elapsed ≠ [])

/-- A run of the script, apart from what the tools print. -/
structure ScriptRun where
  /-- The status of `rustc --version`. -/
  rustc : Bool
  /-- The status of `cargo --version`. -/
  cargo : Bool
  minibuild : Bool
  ending : Ending

/-- `echo` -/
def echo (s : Str) : Str := s ++ ['\n']

/-- The lines of a text, each with the newline at its end. -/
def linesOf : Str → List Str
  | [] => []
  | c :: s =>
    if c = '\n' then [c] :: linesOf s
    else match linesOf s with
      | [] => [[c]]
      | l :: ls => (c :: l) :: ls

/-- `tail -n` -/
def tail (n : ℕ) (s : Str) : Str := ((linesOf s).rtake n).flatten

namespace Ending

/-- The text of the compile record. -/
def record : Ending → Str
  | .abort uname nproc =>
    printFields (abortFields (nproc.elim [] fun n ↦ Nat.toDigits 10 n.toNat) (axarch uname))
  | .timed run _ => run.record

/-- The record says `ok=true`. -/
def ok : Ending → Bool
  | .abort _ _ => false
  | .timed run _ => run.ok

/-- The output of the timed build, right in front of the compile record. -/
def build (texts : Texts) : Ending → Str
  | .abort _ _ => []
  | .timed _ _ => texts.build

/-- The line in front of the timed build. -/
def timedLine (uname : Str) : Str :=
  lit "----- build arceos-helloworld (timed, arch=" ++ axarch uname ++ lit ") -----"

/-- What is printed in front of the output of the timed build. -/
def before (texts : Texts) : Ending → Str
  | .abort _ _ => []
  | .timed run _ =>
    echo (lit "----- pre-build tg-xtask (untimed) -----") ++ texts.prebuild ++
      echo (timedLine run.uname) ++ echo (lit "BUILDSTORM_BEGIN mode=multi")

/-- What is printed between the compile record and the last line. -/
def behind (texts : Texts) : Ending → Str
  | .abort _ _ => []
  | .timed run _ =>
    if run.ok then []
    else echo (lit "----- buildstorm.build.out tail -----") ++ tail 25 texts.build

end Ending

namespace ScriptRun

variable (run : ScriptRun) (texts : Texts)

/-- `rustc --version && cargo --version` -/
def toolchain : Bool := run.rustc && run.cargo

/-- What `rustc --version && cargo --version` prints. -/
def versions : Str := texts.rustc ++ if run.rustc then texts.cargo else []

/-- The log of a run. -/
def log : Str :=
  echo (lit "#### OS COMP TEST GROUP START buildstorm ####") ++ run.versions texts ++
    (Line.env (lit "TOOLCHAIN") run.toolchain).text ++
    (Line.env (lit "MINIBUILD") run.minibuild).text ++
    run.ending.before texts ++ run.ending.build texts ++ (Line.compile run.ending.record).text ++
    run.ending.behind texts ++ Line.finish.text

end ScriptRun

/-! ## The record of the script -/

namespace Ending

theorem isHarmless_abortFields (uname : Str) (nproc : Option UInt64) :
    ∀ p ∈ abortFields (nproc.elim [] fun n ↦ Nat.toDigits 10 n.toNat) (axarch uname),
      (IsKey p.1 ∧ Markerless p.1) ∧ IsHarmless p.2 := by
  have hkeys : ∀ k ∈ [lit "mode", lit "ok", lit "elapsed_s", lit "cores", lit "bytes", lit "arch"],
      IsKey k ∧ Markerless k := by
    simp only [List.forall_mem_cons]
    decide
  have hvalues : ∀ v ∈ [lit "multi", lit "false", lit "0"], IsHarmless v := by
    simp only [List.forall_mem_cons]
    exact ⟨⟨by decide, by decide⟩, ⟨by decide, by decide⟩, ⟨by decide, by decide⟩,
      List.forall_mem_nil _⟩
  have hnproc : IsHarmless (nproc.elim [] fun n ↦ Nat.toDigits 10 n.toNat) := by
    cases nproc with
    | none => exact isHarmless_nil
    | some n => exact isHarmless_toDigits _
  simp only [List.forall_mem_cons] at hkeys hvalues
  simp only [abortFields, List.forall_mem_cons]
  obtain ⟨hmode, hok, helapsed, hcores, hbytes, harch, _⟩ := hkeys
  obtain ⟨hmulti, hfalse, hzero, _⟩ := hvalues
  exact ⟨⟨hmode, hmulti⟩, ⟨hok, hfalse⟩, ⟨helapsed, hzero⟩, ⟨hcores, hnproc⟩, ⟨hbytes, hzero⟩,
    ⟨harch, isHarmless_axarch uname⟩, List.forall_mem_nil _⟩

theorem wellFormed_record (e : Ending) : Line.WellFormed (.compile e.record) := by
  cases e with
  | abort uname nproc =>
      have hall := isHarmless_abortFields uname nproc
      exact ⟨markerless_printFields fun p hp ↦ ⟨(hall p hp).1.2, (hall p hp).2.markerless⟩,
        wordsOf_printFields_ne_nil (fun p hp ↦ ⟨(hall p hp).1.1, (hall p hp).2.isValue⟩)
          (by decide)⟩
  | timed run _ => exact run.wellFormed_record

/-- A record that says something else than `ok=true`. -/
theorem lookup_ok {l : List (Str × Str)}
    (h : ∀ p ∈ (lit "mode", lit "multi") :: (lit "ok", lit "false") :: l, IsKey p.1 ∧ IsValue p.2)
    (hkeys : (((lit "mode", lit "multi") :: (lit "ok", lit "false") :: l).map Prod.fst).Nodup) :
    (fieldsAt (printFields ((lit "mode", lit "multi") :: (lit "ok", lit "false") :: l))).lookup
      (lit "ok") = some (lit "false") := by
  have hmulti : lit "multi" ≠ [] := by decide
  have hfalse : lit "false" ≠ [] := by decide
  refine (lookup_fieldsAt_eq_some_iff h hkeys).mpr ?_
  simp [hmulti, hfalse]

theorem lookup_ok_of_not_ok {e : Ending} (h : e.ok = false) :
    (fieldsAt e.record).lookup (lit "ok") = some (lit "false") := by
  cases e with
  | abort uname nproc =>
      have hall := isHarmless_abortFields uname nproc
      refine lookup_ok (fun p hp ↦ ⟨(hall p hp).1.1, (hall p hp).2.isValue⟩) ?_
      simp only [List.map_cons, List.map_nil]
      decide
  | timed run _ =>
      have hfields : run.fields = buildFields false (Nat.toDigits 10 run.status) run.elapsed
          (run.nproc.elim [] fun n ↦ Nat.toDigits 10 n.toNat)
          ((bytes run.traversal).elim [] (Nat.toDigits 10)) (axarch run.uname) := by
        rw [BuildRun.fields, show run.ok = false from h]
      have hkeys := run.isKey_fields
      have hnodup : (run.fields.map Prod.fst).Nodup := keys_buildFields.1
      rw [record, BuildRun.record, hfields]
      rw [hfields] at hkeys hnodup
      exact lookup_ok hkeys hnodup

theorem compileOk_append_of_not_ok {e : Ending} (h : e.ok = false) (kv : Fields) :
    compileOk (fieldsAt e.record ++ kv) = false := by
  have hne : lit "false" ≠ lit "true" := by decide
  rw [compileOk, List.lookup_append, lookup_ok_of_not_ok h]
  simpa using hne

theorem not_badCores_record [Unicode] (e : Ending) : ¬ BadCores (fieldsAt e.record) := by
  cases e with
  | abort uname nproc =>
      have hok := compileOk_append_of_not_ok (e := .abort uname nproc) rfl []
      rw [List.append_nil] at hok
      rintro ⟨hcompile, _⟩
      rw [hok] at hcompile
      cases hcompile
  | timed run _ => exact run.not_badCores_record

end Ending

/-- The record of a successful build. -/
theorem fieldsAt_record_of_ok {run : BuildRun} (h : run.ok) : ∃ bytes, bytes ≠ [] ∧
    fieldsAt run.record = shownFields run.elapsed
      (run.nproc.elim [] fun n ↦ Nat.toDigits 10 n.toNat) bytes (axarch run.uname) := by
  refine ⟨(bytes run.traversal).elim [] (Nat.toDigits 10), ?_, ?_⟩
  · rw [BuildRun.ok, Bool.and_eq_true] at h
    cases hbytes : bytes run.traversal with
    | none => simp [hbytes] at h
    | some n => exact Nat.toDigits_ne_nil
  · rw [BuildRun.record, fieldsAt_printFields run.isKey_fields, BuildRun.fields, h]
    rfl

/-- The fields of a successful record hide those in front of it if there is a number of cores. -/
theorem lookup_shownFields_append {elapsed cores bytes arch : Str} (he : elapsed ≠ [])
    (hc : cores ≠ []) (hb : bytes ≠ []) (ha : arch ≠ []) (kv : Fields) :
    ∀ k ∈ [lit "ok", lit "elapsed_s", lit "cores", lit "arch"],
      (shownFields elapsed cores bytes arch ++ kv).lookup k =
        (shownFields elapsed cores bytes arch).lookup k := by
  rw [shownFields_eq, if_neg he, if_neg hc, if_neg hb, if_neg ha]
  simp only [List.forall_mem_cons]
  exact ⟨rfl, rfl, rfl, rfl, List.forall_mem_nil _⟩

section Continued

variable [Unicode]

theorem timePoints_congr {baselines : Baselines} {kv kv' : Fields}
    (he : kv.lookup (lit "elapsed_s") = kv'.lookup (lit "elapsed_s"))
    (ha : kv.lookup (lit "arch") = kv'.lookup (lit "arch")) :
    timePoints baselines kv = timePoints baselines kv' := by
  rw [timePoints, he, ha, timePoints]

/-- Otherwise the number of cores and the architecture are taken from there. -/
theorem shownFields_append_of_nil (baselines : Baselines) {elapsed : Str} (he : elapsed ≠ [])
    (bytes arch : Str) (kv : Fields) :
    compileOk (shownFields elapsed [] bytes arch ++ kv) ∧
      cores (shownFields elapsed [] bytes arch ++ kv) = cores kv ∧
      timePoints baselines (shownFields elapsed [] bytes arch ++ kv) =
        timeFrom baselines elapsed ((kv.lookup (lit "arch")).getD []) := by
  rw [shownFields_eq, if_neg he, if_pos rfl]
  exact ⟨rfl, rfl, rfl⟩

end Continued

/-! ## Records of the environment -/

namespace Ending

/-- The output behind the records of the environment, with the characters of the script right behind
it. -/
def outputs (texts : Texts) : Ending → List (Str × Char)
  | .abort _ _ => []
  | .timed run _ =>
    (texts.prebuild, '-') :: (texts.build, 'B') ::
      if run.ok then [] else [(tail 25 texts.build, '#')]

/-- The log behind the records of the environment. -/
def log (texts : Texts) (e : Ending) : Str :=
  e.before texts ++ (e.build texts ++ ((Line.compile e.record).text ++
    (e.behind texts ++ Line.finish.text)))

end Ending

namespace ScriptRun

/-- The output of a run, with the characters of the script right behind it. -/
def outputs (run : ScriptRun) (texts : Texts) : List (Str × Char) :=
  (run.versions texts, 'B') :: run.ending.outputs texts

theorem log_eq (run : ScriptRun) (texts : Texts) : run.log texts =
    lit "#### OS COMP TEST GROUP START buildstorm ####" ++ '\n' :: (run.versions texts ++
      ((Line.env (lit "TOOLCHAIN") run.toolchain).text ++
        ((Line.env (lit "MINIBUILD") run.minibuild).text ++ run.ending.log texts))) := by
  simp [log, Ending.log, echo]

end ScriptRun

theorem echo_append (s t : Str) : echo s ++ t = s ++ '\n' :: t := by
  simp [echo]

section Env

variable [Unicode] {tag : Str}

theorem not_announces_nil (c : Char) : ¬ Announces tag [] c := by
  rintro ⟨a, w, r, h, _⟩
  have hnil := (List.append_eq_nil_iff.mp h.symm).2
  exact envWord_ne_nil tag (List.append_eq_nil_iff.mp hnil).1

omit [Unicode] in
theorem content_env (ok : Bool) (tag : Str) : ∃ l, (Line.env tag ok).content = 'B' :: l := by
  have hhead : lit "BUILDSTORM_" = 'B' :: lit "UILDSTORM_" := by decide
  exact ⟨_, by rw [Line.content, envWord, hhead, List.cons_append, List.cons_append]⟩

omit [Unicode] in
theorem content_compile (record : Str) : ∃ l, (Line.compile record).content = 'B' :: l := by
  have hhead : compileWord = 'B' :: compileWord.tail := by decide
  exact ⟨_, by rw [Line.content, hhead, List.cons_append]⟩

/-- Other output in front of the compile record. -/
theorem announced_append_compile (htag : tag ∈ tags) {record : Str}
    (h : Line.WellFormed (.compile record)) (u s : Str) :
    Announced tag (u ++ ((Line.compile record).text ++ s)) ↔
      Announces tag u 'B' ∨ Announced tag s := by
  obtain ⟨l, hl⟩ := content_compile record
  rw [announced_append_line htag h hl (by decide) (by decide)]
  simp [announces]

/-- Other output in front of the last line. -/
theorem announced_append_finish (htag : tag ∈ tags) (u : Str) :
    Announced tag (u ++ Line.finish.text) ↔ Announces tag u '#' := by
  have hcontent : Line.finish.content = '#' :: endLine.tail := by decide
  have hfinish : Line.finish.WellFormed := trivial
  have hline := announced_append_line htag hfinish hcontent (by decide) (by decide) u []
  rw [List.append_nil] at hline
  rw [hline]
  simp [announces, not_announced_nil]

/-- A line without the words of the records. -/
theorem announced_echo (htag : tag ∈ tags) {l : Str} (h : Markerless l) (s : Str) :
    Announced tag (echo l ++ s) ↔ Announced tag s := by
  rw [echo_append, announced_markerless_newline htag h]

/-- Other output in front of the line of the timed build. -/
theorem announced_append_timedLine (htag : tag ∈ tags) (u s uname : Str) :
    Announced tag (u ++ (echo (Ending.timedLine uname) ++ s)) ↔
      Announces tag u '-' ∨ Announced tag s := by
  have hmarkerless : Markerless (Ending.timedLine uname) := by
    rw [Ending.timedLine, axarch]
    split <;> decide
  have hhead : ∃ l, echo (Ending.timedLine uname) ++ s = '-' :: l := by
    have hlit : lit "----- build arceos-helloworld (timed, arch=" =
        '-' :: lit "---- build arceos-helloworld (timed, arch=" := by decide
    exact ⟨_, by rw [echo, Ending.timedLine, hlit]; rfl⟩
  have hdash : '-' ∉ envWord tag := by
    have hall : tags.all fun tag ↦ '-' ∉ envWord tag := by decide
    exact of_decide_eq_true (List.all_eq_true.mp hall tag htag)
  rw [← announced_echo htag hmarkerless s]
  obtain ⟨l, hl⟩ := hhead
  rw [hl]
  exact announced_append_iff (by decide) (by decide) fun t _ h ↦
    prefix_of_prefix_append_cons hdash h.isPrefix

/-- Behind the records of the environment only other output announces a part of it. -/
theorem announced_ending_log (htag : tag ∈ tags) (texts : Texts) (e : Ending) :
    Announced tag (e.log texts) ↔ ∃ p ∈ e.outputs texts, Announces tag p.1 p.2 := by
  have hrecord := e.wellFormed_record
  rw [Ending.log]
  cases e with
  | abort uname nproc =>
      rw [Ending.before, Ending.build, Ending.behind, Ending.outputs, List.nil_append,
        announced_append_compile htag hrecord, announced_append_finish htag]
      simp [not_announces_nil]
  | timed run he =>
      have hpre : Markerless (lit "----- pre-build tg-xtask (untimed) -----") := by decide
      have hbegin : Markerless (lit "BUILDSTORM_BEGIN mode=multi") := by decide
      have htail : Markerless (lit "----- buildstorm.build.out tail -----") := by decide
      rw [Ending.before, Ending.build, Ending.behind, Ending.outputs, List.append_assoc,
        List.append_assoc, List.append_assoc, announced_echo htag hpre,
        announced_append_timedLine htag, announced_echo htag hbegin,
        announced_append_compile htag hrecord]
      cases hok : run.ok with
      | true =>
          rw [if_pos rfl, if_pos rfl, announced_append_finish htag]
          simp [not_announces_nil]
      | false =>
          rw [if_neg (by decide), if_neg (by decide), List.append_assoc, announced_echo htag htail,
            announced_append_finish htag]
          simp

/-- **Environment.**  A part of the environment is found exactly if its record says `ok`, or if
other output announces it. -/
theorem found_log (htag : tag ∈ tags) (run : ScriptRun) (texts : Texts) :
    Regex.found (envPattern tag) (run.log texts) ↔
      (announces tag (.env (lit "TOOLCHAIN") run.toolchain) ∨
        announces tag (.env (lit "MINIBUILD") run.minibuild)) ∨
      ∃ p ∈ run.outputs texts, Announces tag p.1 p.2 := by
  have hstart : Markerless (lit "#### OS COMP TEST GROUP START buildstorm ####") := by decide
  have htoolchain : Line.WellFormed (.env (lit "TOOLCHAIN") run.toolchain) := by
    change _ ∈ tags
    decide
  have hminibuild : Line.WellFormed (.env (lit "MINIBUILD") run.minibuild) := by
    change _ ∈ tags
    decide
  obtain ⟨l, hl⟩ := content_env run.toolchain (lit "TOOLCHAIN")
  rw [found_iff_announced, run.log_eq, announced_markerless_newline htag hstart,
    announced_append_line htag htoolchain hl (by decide) (by decide),
    announced_line htag hminibuild, announced_ending_log htag, ScriptRun.outputs,
    List.exists_mem_cons_iff, or_left_comm, or_assoc]
  exact or_congr_right or_left_comm

end Env

/-! ## The compile record -/

/-- A line of the script that ends with a character no record goes on behind. -/
theorem matchedFields_echo {l : Str} {c : Char} (hspace : ¬ isSpace c) (hc : c ∉ compileWord)
    (p s : Str) : matchedFields (p ++ (echo (l ++ [c]) ++ s)) =
      matchedFields (p ++ (l ++ [c])) ++ matchedFields s := by
  have hdangles : ¬ Dangles (p ++ (l ++ [c])) := by
    rw [← List.append_assoc]
    exact not_dangles_concat hspace hc
  rw [echo_append, ← List.append_assoc, matchedFields_append_newline fun h ↦ hdangles h.1]

theorem exists_content_env (ok : Bool) (tag : Str) :
    ∃ l c, (Line.env tag ok).content = l ++ [c] ∧ ¬ isSpace c ∧ c ∉ compileWord := by
  cases ok with
  | true =>
      exact ⟨envWord tag ++ [' ', 'o'], 'k', by simp [Line.content, lit], by decide, by decide⟩
  | false =>
      exact ⟨envWord tag ++ [' ', 'f', 'a', 'i'], 'l', by simp [Line.content, lit], by decide,
        by decide⟩

/-- What is read from the output of the timed build on is read last. -/
theorem exists_matchedFields_log (run : ScriptRun) (texts : Texts) :
    ∃ l, matchedFields (run.log texts) = l ++ matchedFields (run.ending.build texts ++
      ((Line.compile run.ending.record).text ++
        (run.ending.behind texts ++ Line.finish.text))) := by
  rw [run.log_eq, Ending.log]
  cases run.ending with
  | abort uname nproc =>
      obtain ⟨l, c, hl, hspace, hc⟩ := exists_content_env run.minibuild (lit "MINIBUILD")
      have hecho := matchedFields_echo (l := l) hspace hc
        (lit "#### OS COMP TEST GROUP START buildstorm ####" ++ '\n' :: (run.versions texts ++
          (Line.env (lit "TOOLCHAIN") run.toolchain).text))
      rw [Ending.before, List.nil_append, Line.text.eq_1 (.env (lit "MINIBUILD") _), hl, ← echo]
      exact ⟨_, by rw [← hecho]; simp⟩
  | timed e he =>
      have hbegin : lit "BUILDSTORM_BEGIN mode=multi" =
          lit "BUILDSTORM_BEGIN mode=mult" ++ ['i'] := by decide
      have hi : ¬ isSpace 'i' ∧ 'i' ∉ compileWord := by decide
      have hecho := matchedFields_echo (l := lit "BUILDSTORM_BEGIN mode=mult") hi.1 hi.2
        (lit "#### OS COMP TEST GROUP START buildstorm ####" ++ '\n' ::
          (run.versions texts ++ ((Line.env (lit "TOOLCHAIN") run.toolchain).text ++
            ((Line.env (lit "MINIBUILD") run.minibuild).text ++
              (echo (lit "----- pre-build tg-xtask (untimed) -----") ++ (texts.prebuild ++
                echo (Ending.timedLine e.uname)))))))
      rw [Ending.before, hbegin]
      exact ⟨_, by rw [← hecho]; simp⟩

/-- The last record of the log is the one of the script, unless one is read behind it; its fields go
on behind those in front of it. -/
theorem lastFields_log {run : ScriptRun} {texts : Texts} {kv : Fields}
    (h : Precedes (run.ending.build texts) kv) : lastFields (run.log texts) =
      (matchedFields (run.ending.behind texts ++ Line.finish.text)).getLast?.getD
        (fieldsAt run.ending.record ++ kv) := by
  obtain ⟨l, hl⟩ := exists_matchedFields_log run texts
  obtain ⟨l', hl'⟩ := h.matchedFields_eq run.ending.wellFormed_record
    (run.ending.behind texts ++ Line.finish.text)
  rw [lastFields, hl, hl', List.getLast?_append, List.getLast?_append, List.getLast?_cons]
  rfl

theorem matchedFields_finish : matchedFields Line.finish.text = [] := by
  have hunmarked : Unmarked Line.finish.text := by decide
  exact matchedFields_of_unmarked hunmarked

namespace Ending

/-- Behind the record of a build that failed, the last lines of its output are read. -/
theorem matchedFields_behind (texts : Texts) {run : BuildRun} (he : run.elapsed ≠ []) :
    matchedFields ((timed run he).behind texts ++ Line.finish.text) =
      if run.ok then [] else matchedFields (tail 25 texts.build ++ Line.finish.text) := by
  have htail : Unmarked (lit "----- buildstorm.build.out tail -----") := by decide
  rw [behind]
  split
  · exact matchedFields_finish
  · rw [List.append_assoc, echo_append, matchedFields_unmarked_newline htail]

end Ending

/-! ## The results -/

section Results

variable [Unicode]

/-- Two logs with the same results. -/
theorem main_eq_main_iff (baselines : Baselines) {out out' : Str}
    (h : ¬ BadCores (lastFields out')) : main baselines out = main baselines out' ↔
      (∀ tag ∈ tags, Regex.found (envPattern tag) out = Regex.found (envPattern tag) out') ∧
        ¬ BadCores (lastFields out) ∧ compileOk (lastFields out) = compileOk (lastFields out') ∧
          timeScoreOf baselines (lastFields out) = timeScoreOf baselines (lastFields out') := by
  have henv : envPts.map (envResult out) = envPts.map (envResult out') ↔
      ∀ tag ∈ tags, Regex.found (envPattern tag) out = Regex.found (envPattern tag) out' := by
    rw [List.map_inj_left, tags, List.forall_mem_map]
    exact forall₂_congr fun p _ ↦ binaryResult_inj
  have htime : ∀ t t' : Python.Float, timeResult t = timeResult t' ↔ t = t' := fun t t' ↦
    ⟨congrArg Result.score, congrArg timeResult⟩
  rw [main_eq, main_eq, if_neg h]
  by_cases hbad : BadCores (lastFields out)
  · simp [hbad]
  · have happend : ∀ l l' r r' : List Result, l.length = l'.length →
        (l ++ r = l' ++ r' ↔ l = l' ∧ r = r') := fun l l' r r' hlen ↦
      ⟨fun h ↦ List.append_inj h hlen, fun h ↦ congrArg₂ _ h.1 h.2⟩
    rw [if_neg hbad, Option.some.injEq, resultsOf, resultsOf, happend _ _ _ _ (by simp), henv,
      List.cons.injEq, List.cons.injEq, binaryResult_inj, htime]
    simp [hbad]

/-- The output in front of the record of a successful build and behind that of one that failed gives
the judge nothing to go by. -/
def Ending.Quiet (baselines : Baselines) (texts : Texts) : Ending → Prop
  | .abort _ _ => True
  | .timed run _ =>
    if run.ok then run.nproc = none → ∀ kv, Unfinished texts.build kv → cores kv ≠ none ∧
      timeFrom baselines run.elapsed ((kv.lookup (lit "arch")).getD []) = .finite 0
    else ¬ compileOk (lastFields (tail 25 texts.build ++ Line.finish.text))

/-- The fields lead to the same results. -/
structure SameCompile (baselines : Baselines) (kv own : Fields) : Prop where
  not_badCores : ¬ BadCores kv
  compileOk_eq : compileOk kv = compileOk own
  timeScoreOf_eq : timeScoreOf baselines kv = timeScoreOf baselines own

theorem sameCompile_self {baselines : Baselines} {own : Fields} (h : ¬ BadCores own) :
    SameCompile baselines own own := ⟨h, rfl, rfl⟩

/-- For a record of a build that failed. -/
theorem sameCompile_iff_of_not_ok {baselines : Baselines} {kv own : Fields}
    (h : compileOk own = false) : SameCompile baselines kv own ↔ ¬ compileOk kv := by
  constructor
  · rintro ⟨_, hok, _⟩ hkv
    rw [hok, h] at hkv
    cases hkv
  · intro hkv
    refine ⟨fun hbad ↦ hkv hbad.1, ?_, ?_⟩
    · rw [h]
      exact Bool.eq_false_iff.mpr hkv
    · rw [timeScoreOf, timeScoreOf, if_neg hkv, h]
      rfl

/-- For the record of a successful build. -/
theorem sameCompile_append_iff (baselines : Baselines) {run : BuildRun} (hok : run.ok)
    (he : run.elapsed ≠ []) (kv : Fields) :
    SameCompile baselines (fieldsAt run.record ++ kv) (fieldsAt run.record) ↔
      (run.nproc = none → cores kv ≠ none ∧
        timeFrom baselines run.elapsed ((kv.lookup (lit "arch")).getD []) = .finite 0) := by
  obtain ⟨bytes, hb, hfields⟩ := fieldsAt_record_of_ok hok
  have hgood := run.not_badCores_record
  rw [hfields] at hgood ⊢
  cases hnproc : run.nproc with
  | none =>
      obtain ⟨hok', hcores, htime⟩ :=
        shownFields_append_of_nil baselines he bytes (axarch run.uname) kv
      have hown : timeScoreOf baselines (shownFields run.elapsed [] bytes (axarch run.uname)) =
          .finite 0 := by
        rw [timeScoreOf, if_pos (compileOk_shownFields _ _ _ _), timePoints_shownFields,
          if_pos (.inr (.inl rfl))]
      have hjoined : timeScoreOf baselines
          (shownFields run.elapsed [] bytes (axarch run.uname) ++ kv) =
            timeFrom baselines run.elapsed ((kv.lookup (lit "arch")).getD []) := by
        rw [timeScoreOf, if_pos hok', htime]
      rw [Option.elim_none]
      constructor
      · rintro ⟨hbad, _, hscore⟩ _
        rw [hjoined, hown] at hscore
        exact ⟨fun hnone ↦ hbad ⟨hok', hcores.trans hnone⟩, hscore⟩
      · intro h
        obtain ⟨hnone, hscore⟩ := h rfl
        refine ⟨fun hbad ↦ hnone (hcores ▸ hbad.2), ?_, by rw [hjoined, hown, hscore]⟩
        rw [hok', compileOk_shownFields]
  | some n =>
      have hn : Nat.toDigits 10 n.toNat ≠ [] := Nat.toDigits_ne_nil
      have hlookup := lookup_shownFields_append he hn hb (axarch_ne_nil run.uname) kv
      simp only [List.forall_mem_cons] at hlookup
      obtain ⟨hok', helapsed, hcores, harch, _⟩ := hlookup
      rw [hnproc, Option.elim_some] at hgood
      rw [Option.elim_some]
      refine iff_of_true ⟨?_, ?_, ?_⟩ fun h ↦ absurd h (Option.some_ne_none n)
      · rwa [BadCores, compileOk, cores, hok', hcores, ← compileOk, ← cores]
      · rw [compileOk, hok', ← compileOk]
      · rw [timeScoreOf, timePoints_congr helapsed harch, compileOk, hok', ← compileOk, timeScoreOf]

/-- The compile record of a log leads to the results of the record of the script exactly if the
output around it is quiet. -/
theorem sameCompile_log_iff (baselines : Baselines) (run : ScriptRun) (texts : Texts) :
    SameCompile baselines (lastFields (run.log texts)) (fieldsAt run.ending.record) ↔
      run.ending.Quiet baselines texts := by
  have hlast := fun kv (h : Precedes (run.ending.build texts) kv) ↦ lastFields_log h
  have hgood := run.ending.not_badCores_record
  have hfailed := fun h ↦ Ending.compileOk_append_of_not_ok (e := run.ending) h
  revert hlast hgood hfailed
  cases run.ending with
  | abort uname nproc =>
      intro hlast hgood _
      rw [hlast [] precedes_nil, Ending.behind, List.nil_append, matchedFields_finish,
        List.append_nil]
      exact iff_of_true (sameCompile_self hgood) trivial
  | timed e he =>
      intro hlast hgood hfailed
      rw [Ending.matchedFields_behind texts he] at hlast
      rw [Ending.Quiet]
      by_cases hok : e.ok
      · -- nothing is read behind the record, and what is in front of it is its beginning
        simp only [if_pos hok, List.getLast?_nil, Option.getD_none] at hlast ⊢
        constructor
        · intro h hnproc kv hkv
          rw [hlast kv (.inl hkv)] at h
          exact (sameCompile_append_iff baselines hok he kv).mp h hnproc
        · intro h
          obtain ⟨kv, hkv⟩ := exists_precedes texts.build
          rw [hlast kv hkv]
          rcases hkv with hkv | ⟨rfl, _⟩
          · exact (sameCompile_append_iff baselines hok he kv).mpr fun hnproc ↦ h hnproc kv hkv
          · rw [List.append_nil]
            exact sameCompile_self hgood
      · -- what is read behind the record hides it
        have hown := fun kv ↦ hfailed (Bool.eq_false_iff.mpr hok) kv
        obtain ⟨kv, hkv⟩ := exists_precedes texts.build
        have hfirst := hown []
        rw [List.append_nil] at hfirst
        rw [if_neg hok] at hlast
        rw [if_neg hok, hlast kv hkv, sameCompile_iff_of_not_ok hfirst, lastFields]
        cases (matchedFields (tail 25 texts.build ++ Line.finish.text)).getLast? with
        | none =>
            refine iff_of_true ?_ (by decide)
            rw [Option.getD_none, hown kv]
            decide
        | some kv => rfl

omit [Unicode] in
theorem tail_nil (n : ℕ) : tail n [] = [] := by
  rw [tail, linesOf, List.rtake_nil, List.flatten_nil]

/-- Without output there is nothing to go by. -/
theorem quiet_silent (baselines : Baselines) (e : Ending) : e.Quiet baselines .silent := by
  cases e with
  | abort uname nproc => trivial
  | timed run he =>
      rw [Ending.Quiet]
      split
      · exact fun _ kv hkv ↦ absurd hkv (not_unfinished_nil kv)
      · rw [Texts.silent, tail_nil, List.nil_append, lastFields, matchedFields_finish]
        decide

theorem not_announces_silent {tag : Str} (run : ScriptRun) :
    ∀ p ∈ run.outputs .silent, ¬ Announces tag p.1 p.2 := by
  have hall : ∀ p ∈ run.outputs .silent, p.1 = [] := by
    intro p hp
    rw [ScriptRun.outputs, ScriptRun.versions] at hp
    rcases List.mem_cons.mp hp with rfl | hp
    · simp [Texts.silent]
    · revert hp
      cases run.ending with
      | abort uname nproc => simp [Ending.outputs]
      | timed e _ =>
          rw [Ending.outputs, Texts.silent, tail_nil]
          split <;> grind
  intro p hp
  rw [hall p hp]
  exact not_announces_nil p.2

/-- What the tools print does not change the results. -/
structure ScriptRun.Harmless (baselines : Baselines) (run : ScriptRun) (texts : Texts) : Prop where
  toolchain : run.toolchain ∨ ∀ p ∈ run.outputs texts, ¬ Announces (lit "TOOLCHAIN") p.1 p.2
  minibuild : run.minibuild ∨ ∀ p ∈ run.outputs texts, ¬ Announces (lit "MINIBUILD") p.1 p.2
  compile : run.ending.Quiet baselines texts

/-- The logs of a run have the same parts of the environment with and without output. -/
theorem found_log_eq_silent_iff {tag : Str} (htag : tag ∈ tags) (run : ScriptRun) (texts : Texts) :
    Regex.found (envPattern tag) (run.log texts) = Regex.found (envPattern tag) (run.log .silent) ↔
      (announces tag (.env (lit "TOOLCHAIN") run.toolchain) ∨
        announces tag (.env (lit "MINIBUILD") run.minibuild)) ∨
      ∀ p ∈ run.outputs texts, ¬ Announces tag p.1 p.2 := by
  have hsilent : ¬ ∃ p ∈ run.outputs .silent, Announces tag p.1 p.2 := fun ⟨p, hp, h⟩ ↦
    not_announces_silent run p hp h
  rw [Bool.eq_iff_iff, found_log htag, found_log htag, or_iff_left hsilent, or_iff_left_iff_imp]
  constructor
  · intro h
    by_cases hown : announces tag (.env (lit "TOOLCHAIN") run.toolchain) ∨
        announces tag (.env (lit "MINIBUILD") run.minibuild)
    · exact .inl hown
    · exact .inr fun p hp hann ↦ hown (h ⟨p, hp, hann⟩)
  · rintro (hown | hnone) ⟨p, hp, hann⟩
    · exact hown
    · exact absurd hann (hnone p hp)

/-- The results are those of a log without output exactly if the output is harmless. -/
theorem main_log_eq_iff (baselines : Baselines) (run : ScriptRun) (texts : Texts) :
    main baselines (run.log texts) = main baselines (run.log .silent) ↔
      run.Harmless baselines texts := by
  have hsilent := (sameCompile_log_iff baselines run .silent).mpr (quiet_silent baselines _)
  have htags : tags = [lit "TOOLCHAIN", lit "MINIBUILD"] := by decide
  have hne : lit "TOOLCHAIN" ≠ lit "MINIBUILD" := by decide
  have hcompile := sameCompile_log_iff baselines run texts
  have hmem : lit "TOOLCHAIN" ∈ tags ∧ lit "MINIBUILD" ∈ tags := by decide
  have htoolchain := found_log_eq_silent_iff hmem.1 run texts
  have hminibuild := found_log_eq_silent_iff hmem.2 run texts
  simp only [announces, hne, hne.symm, decide_true, decide_false, Bool.true_and, Bool.false_and,
    Bool.false_eq_true, or_false, false_or] at htoolchain hminibuild
  rw [main_eq_main_iff baselines hsilent.not_badCores, hsilent.compileOk_eq, hsilent.timeScoreOf_eq,
    htags, List.forall_mem_cons, List.forall_mem_singleton, htoolchain, hminibuild]
  constructor
  · rintro ⟨⟨ht, hm⟩, hbad, hok, htime⟩
    exact ⟨ht, hm, hcompile.mp ⟨hbad, hok, htime⟩⟩
  · rintro ⟨ht, hm, hquiet⟩
    obtain ⟨hbad, hok, htime⟩ := hcompile.mpr hquiet
    exact ⟨⟨ht, hm⟩, hbad, hok, htime⟩

/-- The results are determined by the records of the script: they are those of a log without output,
and a run whose own record does not say `ok=true` gets no points for the build. -/
structure ScriptRun.Uninfluenced (baselines : Baselines) (run : ScriptRun) (texts : Texts) :
    Prop where
  results : main baselines (run.log texts) = main baselines (run.log .silent)
  no_award : run.ending.ok = false → ¬ Awarded baselines (run.log texts) ∧
    printedTimeScore baselines (run.log texts) = some (.finite 0)

/-- **Influence.**  The results are determined by the records of the script exactly if the output is
harmless: if no output announces a part of the environment whose record does not say `ok`; if the
last record in the last lines of a build that failed does not say `ok=true`; and if no unfinished
record stands right in front of the record of a success, unless that has a number of cores or the
unfinished one is worth nothing. -/
theorem uninfluenced_iff (baselines : Baselines) (run : ScriptRun) (texts : Texts) :
    run.Uninfluenced baselines texts ↔ run.Harmless baselines texts := by
  constructor
  · rintro ⟨hresults, _⟩
    exact (main_log_eq_iff baselines run texts).mp hresults
  · intro h
    refine ⟨(main_log_eq_iff baselines run texts).mpr h, fun hok ↦ ?_⟩
    obtain ⟨hbad, hcompile, _⟩ := (sameCompile_log_iff baselines run texts).mpr h.compile
    have hown := Ending.compileOk_append_of_not_ok hok []
    rw [List.append_nil] at hown
    rw [hown] at hcompile
    rw [awarded_iff_compileOk, printedTimeScore_eq, if_neg hbad, timeScoreOf, hcompile]
    exact ⟨fun h ↦ absurd h.2 (by decide), rfl⟩

/-! ## A record in the output of a build that failed -/

omit [Unicode] in
/-- A build that fails. -/
def failedBuild : BuildRun := { staleRun with status := 1 }

omit [Unicode] in
/-- A run with a build that fails. -/
def failedScriptRun : ScriptRun where
  rustc := true
  cargo := true
  minibuild := true
  ending := .timed failedBuild (by decide : lit "1.00" ≠ [])

omit [Unicode] in
/-- The output of a build that prints a record of its own. -/
def forgedTexts : Texts :=
  ⟨[], [], [], lit "BUILDSTORM_COMPILE ok=true elapsed_s=1 arch=riscv64\n"⟩

omit [Unicode] in
/-- The build is counted as a success. -/
theorem not_uninfluenced_forgedTexts :
    ¬ @ScriptRun.Uninfluenced asciiOnly referenceBaselines failedScriptRun forgedTexts := by
  let _ := asciiOnly
  rintro ⟨hresults, _⟩
  have hquiet := ((main_log_eq_iff _ _ _).mp hresults).compile
  have hok : ¬ failedBuild.ok := by decide
  have hread : compileOk (lastFields (tail 25 forgedTexts.build ++ Line.finish.text)) := by
    decide +kernel
  simp only [failedScriptRun, Ending.Quiet, if_neg hok] at hquiet
  exact hquiet hread

end Results

end KernelTests.BuildStorm
