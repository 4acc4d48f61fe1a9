import KernelTests.BuildStorm.Awards

/-!
# Verdicts

The judge prints its results at the end, so an exception takes all of them away.  The
number of cores is the only field that can raise one; and a value that is empty takes
the fields behind it away, because the pattern stops there.
-/

namespace KernelTests.BuildStorm

open Python

variable [Unicode]

/-! ## Every log -/

/-- A result between nothing and `most` points, passed exactly if there are points. -/
def InRange (r : Result) (most : ℚ) : Prop :=
  ∃ q, r.score = .finite q ∧ 0 ≤ q ∧ q ≤ most ∧ r.pass = if 0 < q then 1 else 0

/-- Four results in their ranges. -/
def Verdict (baselines : Baselines) (out : Str) : Prop :=
  ∃ toolchain minibuild compile time,
    main baselines out = some [toolchain, minibuild, compile, time] ∧
      InRange toolchain 8 ∧ InRange minibuild 12 ∧ InRange compile 40 ∧ InRange time 120

omit [Unicode] in
theorem inRange_binaryResult (name : Str) {most : ℚ} (h : 0 < most) (ok : Bool) :
    InRange (binaryResult name most ok) most := by
  cases ok with
  | false => exact ⟨0, rfl, le_rfl, h.le, rfl⟩
  | true => exact ⟨most, rfl, h.le, le_rfl, (if_pos h).symm⟩

theorem exists_timeScoreOf (baselines : Baselines) (kv : Fields) :
    ∃ q, timeScoreOf baselines kv = .finite q ∧ 0 ≤ q ∧ q ≤ 120 := by
  have hzero : ∃ q, Python.Float.finite 0 = .finite q ∧ 0 ≤ q ∧ q ≤ 120 :=
    ⟨0, rfl, le_rfl, by norm_num⟩
  rw [timeScoreOf, timePoints]
  split
  · split
    · split
      · exact exists_timeScore _ _
      · exact hzero
    · exact hzero
  · exact hzero

theorem inRange_timeResult (baselines : Baselines) (kv : Fields) :
    InRange (timeResult (timeScoreOf baselines kv)) 120 := by
  obtain ⟨q, hq, h0, h1⟩ := exists_timeScoreOf baselines kv
  refine ⟨q, hq, h0, h1, ?_⟩
  rw [timeResult, hq]
  by_cases hpos : 0 < q <;> simp [Python.Float.lt, hpos]

/-- A log gets its verdict unless the number of cores in its last record cannot be read. -/
theorem verdict_iff (baselines : Baselines) (out : Str) :
    Verdict baselines out ↔ ¬ BadCores (lastFields out) := by
  constructor
  · rintro ⟨toolchain, minibuild, compile, time, hmain, _⟩ hbad
    rw [main_eq, if_pos hbad] at hmain
    cases hmain
  · intro hgood
    refine ⟨_, _, _, _, (main_eq baselines out).trans (if_neg hgood), ?_⟩
    exact ⟨inRange_binaryResult _ (by norm_num) _, inRange_binaryResult _ (by norm_num) _,
      inRange_binaryResult _ (by norm_num) _, inRange_timeResult baselines _⟩

/-! ## Every field -/

/-- The points for the time, from the two fields they depend on. -/
def timeFrom (baselines : Baselines) (elapsed arch : Str) : Python.Float :=
  timePoints baselines [(lit "elapsed_s", elapsed), (lit "arch", arch)]

/-- The results for a record of a successful build: each is what its own fields say. -/
def fairResults (baselines : Baselines) (out elapsed arch : Str) : List Result :=
  envPts.map (envResult out) ++ [binaryResult (lit "buildstorm compile ok") 40 true,
    timeResult (timeFrom baselines elapsed arch)]

/-- What is read of the record of a successful build: the fields in front of the first empty
value. -/
def shownFields (elapsed cores bytes arch : Str) : Fields :=
  ((successFields elapsed cores bytes arch).takeWhile (·.2 ≠ [])).reverse

section Shown

variable (elapsed cores bytes arch : Str)

omit [Unicode] in
/-- The fields that are read, from the back. -/
theorem shownFields_eq : shownFields elapsed cores bytes arch =
    (if elapsed = [] then [] else (if cores = [] then [] else (if bytes = [] then [] else
      (if arch = [] then [] else [(lit "arch", arch)]) ++ [(lit "bytes", bytes)]) ++
        [(lit "cores", cores)]) ++ [(lit "elapsed_s", elapsed)]) ++
      [(lit "ok", lit "true"), (lit "mode", lit "multi")] := by
  have hmulti : lit "multi" ≠ [] := by decide
  have htrue : lit "true" ≠ [] := by decide
  by_cases he : elapsed = [] <;> by_cases hc : cores = [] <;> by_cases hb : bytes = [] <;>
    by_cases ha : arch = [] <;>
    simp [shownFields, successFields, hmulti, htrue, he, hc, hb, ha]

omit [Unicode] in
theorem compileOk_shownFields : compileOk (shownFields elapsed cores bytes arch) := by
  rw [shownFields_eq]
  split_ifs <;> rfl

theorem cores_shownFields : BuildStorm.cores (shownFields elapsed cores bytes arch) =
    if elapsed = [] ∨ cores = [] then some 0 else toInt cores := by
  have hread : ∀ kv : Fields, kv.lookup (lit "cores") = some cores → cores ≠ [] →
      BuildStorm.cores kv = toInt cores := by
    intro kv hkv hne
    rw [BuildStorm.cores, hkv]
    exact if_neg hne
  rw [shownFields_eq]
  by_cases he : elapsed = []
  · rw [if_pos he, if_pos (Or.inl he)]
    rfl
  · by_cases hc : cores = []
    · rw [if_neg he, if_pos hc, if_pos (Or.inr hc)]
      rfl
    · rw [if_neg he, if_neg hc, if_neg (not_or.mpr ⟨he, hc⟩)]
      refine hread _ ?_ hc
      split_ifs <;> rfl

/-- Without a known architecture there are no points for the time. -/
theorem timePoints_of_lookup_arch {baselines : Baselines} {kv : Fields}
    (h : kv.lookup (lit "arch") = none ∨ kv.lookup (lit "arch") = some []) :
    timePoints baselines kv = .finite 0 := by
  have hnil : (kv.lookup (lit "arch")).getD [] = [] := by
    rcases h with h | h <;> rw [h] <;> rfl
  have hget : baselines.get [] = none := by
    have hrv : lit "riscv64" ≠ [] := by decide
    have hla : lit "loongarch64" ≠ [] := by decide
    rw [Baselines.get, if_neg hrv.symm, if_neg hla.symm]
  rw [timePoints, hnil, hget]
  cases (kv.lookup (lit "elapsed_s")).bind toFloat <;> rfl

theorem timePoints_shownFields (baselines : Baselines) :
    timePoints baselines (shownFields elapsed cores bytes arch) =
      if elapsed = [] ∨ cores = [] ∨ bytes = [] then .finite 0
      else timeFrom baselines elapsed arch := by
  rw [shownFields_eq]
  by_cases he : elapsed = []
  · rw [if_pos he, if_pos (Or.inl he)]
    exact timePoints_of_lookup_arch (Or.inl rfl)
  · by_cases hc : cores = []
    · rw [if_neg he, if_pos hc, if_pos (Or.inr (Or.inl hc))]
      exact timePoints_of_lookup_arch (Or.inl rfl)
    · by_cases hb : bytes = []
      · rw [if_neg he, if_neg hc, if_pos hb, if_pos (Or.inr (Or.inr hb))]
        exact timePoints_of_lookup_arch (Or.inl rfl)
      · rw [if_neg he, if_neg hc, if_neg hb, if_neg (not_or.mpr ⟨he, not_or.mpr ⟨hc, hb⟩⟩)]
        by_cases ha : arch = []
        · rw [if_pos ha, timeFrom, ha]
          exact (timePoints_of_lookup_arch (Or.inl rfl)).trans
            (timePoints_of_lookup_arch (Or.inr rfl)).symm
        · rw [if_neg ha]
          rfl

/-- Without a time there are no points. -/
theorem timeFrom_nil (baselines : Baselines) : timeFrom baselines [] arch = .finite 0 := by
  have hnone : ([(lit "elapsed_s", []), (lit "arch", arch)].lookup (lit "elapsed_s")).bind toFloat =
      none := rfl
  rw [timeFrom, timePoints, hnone]

end Shown

/-- What a field costs: a time that is not printed costs the points for it.  An empty number of
cores or of bytes takes the architecture with it, which costs the points for the time as well, and a
number of cores that is no number costs everything. -/
def FieldsHarmless (baselines : Baselines) (elapsed cores bytes arch : Str) : Prop :=
  elapsed = [] ∨ cores = [] ∧ timeFrom baselines elapsed arch = .finite 0 ∨
    cores ≠ [] ∧ toInt cores ≠ none ∧ (bytes ≠ [] ∨ timeFrom baselines elapsed arch = .finite 0)

/-- A record of a successful build is judged fairly exactly if its fields are harmless. -/
theorem main_eq_fairResults_iff (baselines : Baselines) {first last : Str} (hfirst : Unmarked first)
    (hlast : Unmarked last) {elapsed cores bytes arch : Str} (he : IsPlain elapsed)
    (hc : IsPlain cores) (hb : IsPlain bytes) (ha : IsPlain arch) :
    let out := compileLog first [(printFields (successFields elapsed cores bytes arch), last)]
    main baselines out = some (fairResults baselines out elapsed arch) ↔
      FieldsHarmless baselines elapsed cores bytes arch := by
  intro out
  have hlast : lastFields out = shownFields elapsed cores bytes arch :=
    lastFields_printFields hfirst hlast (isPrintable_successFields he hc hb ha) (by decide)
  have hok := compileOk_shownFields elapsed cores bytes arch
  have hbad : BadCores (shownFields elapsed cores bytes arch) ↔
      elapsed ≠ [] ∧ cores ≠ [] ∧ toInt cores = none := by
    rw [BadCores, cores_shownFields]
    by_cases h : elapsed = [] ∨ cores = []
    · rw [if_pos h]
      refine iff_of_false (by simp) ?_
      rintro ⟨hne, hnc, _⟩
      exact h.elim hne hnc
    · rw [if_neg h]
      obtain ⟨hne, hnc⟩ := not_or.mp h
      simp [hok, hne, hnc]
  have hresults : resultsOf baselines out (shownFields elapsed cores bytes arch) =
      fairResults baselines out elapsed arch ↔
      (elapsed = [] ∨ cores = [] ∨ bytes = [] → timeFrom baselines elapsed arch = .finite 0) := by
    rw [resultsOf, fairResults, hok, timeScoreOf, if_pos hok, timePoints_shownFields,
      List.append_cancel_left_eq]
    constructor
    · intro h hcut
      rw [if_pos hcut] at h
      exact (congrArg (fun r : Result ↦ r.score) (List.cons.inj (List.cons.inj h).2).1).symm
    · intro h
      split
      · next hcut => rw [h hcut]
      · rfl
  rw [main_eq, hlast, FieldsHarmless]
  split
  · next h =>
      obtain ⟨hne, hnc, hint⟩ := hbad.mp h
      simp [hne, hnc, hint]
  · next h =>
      rw [hbad] at h
      rw [Option.some.injEq, hresults]
      by_cases hne : elapsed = []
      · exact iff_of_true (fun _ ↦ hne ▸ timeFrom_nil arch baselines) (Or.inl hne)
      · by_cases hnc : cores = []
        · simp [hne, hnc]
        · have hint : toInt cores ≠ none := fun hint ↦ h ⟨hne, hnc, hint⟩
          by_cases hnb : bytes = []
          · simp [hne, hnc, hint, hnb]
          · simp [hne, hnc, hint, hnb]

/-- **Verdicts.**  Every log gets its verdict unless the number of cores in its last record cannot
be read, and a record of a successful build is judged fairly exactly if its fields are harmless. -/
theorem verdict_and_fairResults_iff (baselines : Baselines) :
    (∀ out, Verdict baselines out ↔ ¬ BadCores (lastFields out)) ∧
      ∀ first last, Unmarked first → Unmarked last → ∀ elapsed cores bytes arch,
        IsPlain elapsed → IsPlain cores → IsPlain bytes → IsPlain arch →
        let out := compileLog first [(printFields (successFields elapsed cores bytes arch), last)]
        (main baselines out = some (fairResults baselines out elapsed arch) ↔
          FieldsHarmless baselines elapsed cores bytes arch) :=
  ⟨verdict_iff baselines, fun _ _ hfirst hlast _ _ _ _ he hc hb ha ↦
    main_eq_fairResults_iff baselines hfirst hlast he hc hb ha⟩

omit [Unicode] in
/-- A record with numbers in all places is judged, and fairly. -/
theorem verdict_sampleLog :
    letI := asciiOnly
    Verdict referenceBaselines (sampleLog (lit "400.00")) ∧
      main referenceBaselines (sampleLog (lit "400.00")) = some (fairResults referenceBaselines
        (sampleLog (lit "400.00")) (lit "400.00") (lit "riscv64")) := by
  let _ := asciiOnly
  obtain ⟨hverdict, hfair⟩ := verdict_and_fairResults_iff referenceBaselines
  constructor
  · refine (hverdict _).mpr ?_
    rw [lastFields_sampleLog (by decide) (by decide)]
    decide
  · refine (hfair [] [] unmarked_nil unmarked_nil (lit "400.00") (lit "8") (lit "524288")
      (lit "riscv64") (by decide) (by decide) (by decide) (by decide)).mpr ?_
    exact Or.inr (Or.inr ⟨by decide, by decide, Or.inl (by decide)⟩)

omit [Unicode] in
/-- A number of cores that is no number leaves no verdict. -/
theorem not_verdict_badCores : ¬ @Verdict asciiOnly referenceBaselines (compileLog []
    [(printFields (successFields (lit "400.00") (lit "x") (lit "524288") (lit "riscv64")), [])]) := by
  let _ := asciiOnly
  rintro ⟨toolchain, minibuild, compile, time, hmain, _⟩
  have hfields : lastFields (compileLog []
      [(printFields (successFields (lit "400.00") (lit "x") (lit "524288") (lit "riscv64")), [])]) =
      shownFields (lit "400.00") (lit "x") (lit "524288") (lit "riscv64") :=
    lastFields_printFields unmarked_nil unmarked_nil
      (isPrintable_successFields (by decide) (by decide) (by decide) (by decide)) (by decide)
  have hbad : BadCores (shownFields (lit "400.00") (lit "x") (lit "524288") (lit "riscv64")) := by
    decide
  rw [main_eq, hfields, if_pos hbad] at hmain
  cases hmain

end KernelTests.BuildStorm
