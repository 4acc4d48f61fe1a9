import KernelTests.CAgent.Clock
import KernelTests.CAgent.Interleaving
import Mathlib.Tactic.NormNum

/-!
# Scores and elapsed times

`run_test` reads a clock in front of the agent and behind it, and prints the
difference into the result line; the judge reads it back and adds the time bonus.
This file compares the score with the rule of the contest, for every pair of
readings.
-/

namespace KernelTests.CAgent.Judge

open Python Regex

/-! ## The script -/

/-- The calls of `run_test`: the name of the test and its timeout in seconds. -/
def runTests : List (Str × ℕ) :=
  [(lit "factorial", 20), (lit "date", 20), (lit "network", 25), (lit "cpu", 20),
    (lit "kernel", 20), (lit "fs-create", 25), (lit "fs-readwrite", 30),
    (lit "fs-directory", 30), (lit "fs-search", 35), (lit "fs-usage", 25)]

/-- The line with the result of a test. -/
def resultText (name : Str) (success : Bool) (duration : ℤ) : Str :=
  (lit "testcase" ++ ' ' :: lit "cagent" ++ ' ' :: name ++ ' ' ::
    (if success then lit "pass" else lit "reject") ++ ' ' :: intText duration) ++ ['\n']

/-- The output of `run_test`, for the texts of its two readings.  An error in the subtraction ends
the job in front of the line. -/
def runTest (name : Str) (success : Bool) (startTime endTime : Str) : Str :=
  match duration startTime endTime with
  | some duration => resultText name success duration
  | none => []

/-! ## The rule -/

/-- The score of a test: nothing without success, and a bonus of a tenth below half of the
timeout. -/
def ruleScore (weight : ℚ) (timeout : ℕ) (success : Bool) (elapsed : ℤ) : ℚ :=
  if success then
    if 2 * elapsed < 1000 * timeout then weight + weight / 10 else weight
  else 0

/-- The score printed for a test. -/
def scoreOf (name : Str) (results : List Result) : Option ℚ :=
  (results.find? fun r ↦ r.name = lit "cagent " ++ name).map Result.score

/-! ## What the judge makes of the line -/

variable [Unicode]

theorem result_name (test : TestEntry) (record : Option Record) :
    (result test record).name = lit "cagent " ++ test.name := rfl

theorem scoreOf_main {test : TestEntry} (ht : test ∈ tests) (text : Str) :
    scoreOf test.name (main text) =
      some (result test ((parseRecords text).lookup test.name)).score := by
  have hdistinct : tests.Pairwise fun t u ↦ t.name ≠ u.name := by decide
  have hfind : ∀ l : List TestEntry, l.Pairwise (fun t u ↦ t.name ≠ u.name) → test ∈ l →
      ((l.map fun t ↦ result t ((parseRecords text).lookup t.name)).find? fun r ↦
        r.name = lit "cagent " ++ test.name) =
      some (result test ((parseRecords text).lookup test.name)) := by
    intro l hl hm
    induction l with
    | nil => cases hm
    | cons t l ih =>
        obtain ⟨hne, hl⟩ := List.pairwise_cons.mp hl
        rcases List.mem_cons.mp hm with rfl | hm
        · exact List.find?_cons_of_pos (decide_eq_true (result_name _ _))
        · rw [List.map_cons, List.find?_cons_of_neg, ih hl hm]
          rw [decide_eq_true_eq, result_name]
          exact fun he ↦ hne test hm (List.append_cancel_left he)
  rw [scoreOf, main, hfind tests hdistinct ht, Option.map_some]

omit [Unicode] in
/-- The name of a test is one word. -/
theorem name_of_mem_tests {test : TestEntry} (ht : test ∈ tests) :
    test.name ≠ [] ∧ ∀ c ∈ test.name, !isSpace c := by
  have hall : tests.all fun t ↦ t.name ≠ [] ∧ t.name.all (!isSpace ·) := by decide
  have htest := of_decide_eq_true (List.all_eq_true.mp hall test ht)
  exact ⟨htest.1, List.all_eq_true.mp htest.2⟩

/-- The fields of a line with a natural number. -/
def naturalLine {test : TestEntry} (ht : test ∈ tests) (success : Bool) (n : ℕ) : ResultLine where
  name := test.name
  passed := success
  elapsed := Nat.toDigits 10 n
  name_ne_nil := (name_of_mem_tests ht).1
  name_noSpace := (name_of_mem_tests ht).2
  elapsed_ne_nil := toDigits_ne_nil n
  elapsed_decimal _ hc := isDecimal_of_isDigit (isDigit_of_mem_toDigits hc)

/-- A natural number is read back, in the record of the test. -/
theorem lookup_natural {test : TestEntry} (ht : test ∈ tests) (success : Bool) (n : ℕ) :
    (parseRecords (resultText test.name success n)).lookup test.name =
      some (naturalLine ht success n).record := by
  have hmem : test.name ∈ tests.map TestEntry.name := List.mem_map_of_mem ht
  have htext : resultText test.name success n = log [] [(naturalLine ht success n, [])] := by
    cases success <;>
      simp [resultText, intText_natCast, log, ResultLine.text, ResultLine.parts, ResultLine.status,
        naturalLine, List.flatten_cons, List.flatten_nil,
        List.append_assoc, List.append_nil, List.nil_append, List.cons_append]
  rw [htext, parseRecords_log foreign_nil (by simpa using foreign_nil), List.map_singleton,
    List.map_singleton, List.filter_cons_of_pos (by exact decide_eq_true hmem), List.filter_nil,
    List.reverse_singleton]
  exact List.lookup_cons_self

omit [Unicode] in
/-- The blank between two parts. -/
theorem noMatch_blank {rs : List (Regex Char)} {v : Str} (h : NoMatch rs v)
    (hv : ∀ c ∈ v.head?, ¬ isSpace c) (hrs : ∀ c t, isSpace c → NoMatch rs (c :: t)) :
    NoMatch (plus (.char isSpace) :: rs) (' ' :: v) :=
  h.plus_char (u := [' ']) (by decide) (by decide) hv hrs

omit [Unicode] in
theorem not_isSpace_head? {w : Str} (hne : w ≠ []) (hw : ∀ c ∈ w, !isSpace c) (v : Str) :
    ∀ c ∈ (w ++ v).head?, ¬ isSpace c := by
  intro c hc
  rw [List.head?_append_of_ne_nil _ hne] at hc
  simpa using hw c (List.mem_of_mem_head? hc)

omit [Unicode] in
/-- A literal does not begin with white space. -/
theorem noMatch_word_of_isSpace (rs : List (Regex Char)) {c d : Char} {w : Str} (hd : ¬ isSpace d)
    (hc : isSpace c) (t : Str) : NoMatch (word (d :: w) :: rs) (c :: t) :=
  noMatch_word_cons rs (fun he ↦ hd (by rw [he]; exact hc)) t

/-- A negative number is not matched. -/
theorem noMatch_negative {name : Str} (hne : name ≠ []) (hname : ∀ c ∈ name, !isSpace c)
    (success : Bool) (s : Str) : NoMatch pattern (lit "testcase" ++ ' ' :: (lit "cagent" ++
      ' ' :: (name ++ ' ' :: ((if success then lit "pass" else lit "reject") ++ ' ' :: '-' :: s)))) := by
  have hsign : ¬ isDecimal '-' := by
    have hdecimal := Unicode.decimal_ascii '-' (by decide)
    rw [isDecimal, hdecimal]
    decide
  have hcagent : lit "cagent" = 'c' :: lit "agent" := by decide
  have hpass : lit "pass" = 'p' :: lit "ass" := by decide
  have hreject : lit "reject" = 'r' :: lit "eject" := by decide
  have hnumber : NoMatch [plus (.char isSpace), plus (.char isDecimal)] (' ' :: '-' :: s) := by
    refine noMatch_blank (noMatch_plus_char [] ?_) (by simp; decide) fun c t hc ↦
      noMatch_plus_char [] ?_
    · intro c hc
      cases hc
      exact hsign
    · intro d hd hdecimal
      cases hd
      exact not_isSpace_of_isDecimal hdecimal hc
  have hstatus : NoMatch [.alt (word (lit "pass")) (word (lit "reject")), plus (.char isSpace),
      plus (.char isDecimal)]
      ((if success then lit "pass" else lit "reject") ++ ' ' :: '-' :: s) := by
    cases success
    · exact (noMatch_word _ (Text.not_prefix_append (by decide) (by decide) _)).alt
        (hnumber.word (lit "reject"))
    · exact (hnumber.word (lit "pass")).alt
        (noMatch_word _ fun hp ↦ by
          rw [hpass, hreject] at hp
          exact absurd (List.cons_prefix_cons.mp hp).1 (by decide))
  have hspace : ∀ c t, isSpace c → NoMatch [.alt (word (lit "pass")) (word (lit "reject")),
      plus (.char isSpace), plus (.char isDecimal)] (c :: t) := by
    intro c t hc
    rw [hpass, hreject]
    exact (noMatch_word_of_isSpace _ (by decide) hc t).alt
      (noMatch_word_of_isSpace _ (by decide) hc t)
  have hletters : ∀ c ∈ (if success then lit "pass" else lit "reject"), !isSpace c := by
    cases success <;> decide
  have hgap := noMatch_blank hstatus
    (not_isSpace_head? (by cases success <;> decide) hletters _) hspace
  have hnamed := hgap.plus_char hne hname (by simp; decide) fun c t hc ↦
    noMatch_plus_char _ fun d hd ↦ by cases hd; simpa using hc
  have hagent := (noMatch_blank hnamed (not_isSpace_head? hne hname _) fun c t hc ↦
    noMatch_plus_char _ fun d hd ↦ by cases hd; simpa using hc).word (lit "cagent")
  refine (noMatch_blank hagent (not_isSpace_head? (by decide) (by decide) _) fun c t hc ↦ ?_).word
    (lit "testcase")
  rw [hcagent]
  exact noMatch_word_of_isSpace _ (by decide) hc t

/-- A negative number is not read, and then there is no record at all. -/
theorem parseRecords_negative {test : TestEntry} (ht : test ∈ tests) (success : Bool) (n : ℕ) :
    parseRecords (resultText test.name success (.negSucc n)) = [] := by
  obtain ⟨hne, hname⟩ := name_of_mem_tests ht
  have htext : resultText test.name success (.negSucc n) = lit "testcase" ++ ' ' :: (lit "cagent" ++
      ' ' :: (test.name ++ ' ' :: ((if success then lit "pass" else lit "reject") ++
        ' ' :: '-' :: (Nat.toDigits 10 (n + 1) ++ ['\n'])))) := by
    simp [resultText, intText]
  have hnone := noMatch_negative hne hname success (Nat.toDigits 10 (n + 1) ++ ['\n']) none
  -- nor does the word occur once more
  have hword : lit "testcase" = 't' :: lit "estcase" := by decide
  have hnames : tests.all fun t ↦ !decide (lit "testcase" <:+: t.name) := by decide
  have hname' : ¬ lit "testcase" <:+: test.name := by
    simpa using List.all_eq_true.mp hnames test ht
  have hstatus : ¬ lit "testcase" <:+: if success then lit "pass" else lit "reject" := by
    cases success <;> decide
  have hnumber : ¬ lit "testcase" <:+: '-' :: (Nat.toDigits 10 (n + 1) ++ ['\n']) := by
    intro hi
    have ht : 't' ∈ '-' :: (Nat.toDigits 10 (n + 1) ++ ['\n']) := hi.subset (by decide)
    rcases List.mem_cons.mp ht with he | ht
    · exact absurd he (by decide)
    · rcases List.mem_append.mp ht with ht | ht
      · exact absurd (isDigit_of_mem_toDigits ht) (by decide)
      · exact absurd (List.mem_singleton.mp ht) (by decide)
  have hrest : ¬ lit "testcase" <:+: lit "estcase" ++ ' ' :: (lit "cagent" ++ ' ' :: (test.name ++
      ' ' :: ((if success then lit "pass" else lit "reject") ++
        ' ' :: '-' :: (Nat.toDigits 10 (n + 1) ++ ['\n'])))) := by
    simp only [Text.infix_append_cons_iff (by decide : lit "testcase" ≠ [])
      (by decide : ' ' ∉ lit "testcase"), not_or]
    exact ⟨by decide, by decide, hname', hstatus, hnumber⟩
  rw [hword, List.cons_append] at hnone
  rw [parseRecords, htext, hword, List.cons_append, finditer, hnone]
  simp only
  rw [pattern, finditer_of_not_infix _ _ (by decide) hrest]
  rfl

/-! ## The law -/

/-- The shell takes both readings for numbers; the difference of these modulo `2 ^ 64` is positive
and on the same side of half of the timeout as the difference of the readings, or it is zero and the
difference of the readings is not below half of the timeout. -/
def Measured (timeout : ℕ) (startTime endTime : ℤ) : Prop :=
  ∃ s ∈ shellReading startTime, ∃ e ∈ shellReading endTime,
    (0 < Int.bmod (e - s) (2 ^ 64) ∧ (2 * Int.bmod (e - s) (2 ^ 64) < 1000 * timeout ↔
      2 * (endTime - startTime) < 1000 * timeout)) ∨
    (Int.bmod (e - s) (2 ^ 64) = 0 ∧ 1000 * timeout ≤ 2 * (endTime - startTime))

omit [Unicode] in
/-- From one second on, and for a difference that fits the arithmetic of the shell, this says that
the clock went forward. -/
theorem measured_iff {timeout : ℕ} (ht : 0 < timeout) {startTime endTime : ℤ}
    (hs : 1000 ≤ startTime) (he : 1000 ≤ endTime) (hlo : -2 ^ 63 ≤ endTime - startTime)
    (hhi : endTime - startTime < 2 ^ 63) :
    Measured timeout startTime endTime ↔ startTime < endTime := by
  have hwrapped := Int.bmod_eq_of_le (n := endTime - startTime) (m := 2 ^ 64)
    (by simpa using hlo) (by simpa using hhi)
  rw [Measured, shellReading_of_le hs, shellReading_of_le he]
  simp only [Option.mem_some_iff, exists_eq_left', hwrapped]
  constructor
  · rintro (⟨h, _⟩ | ⟨h, _⟩) <;> omega
  · exact fun h ↦ Or.inl ⟨by omega, trivial⟩

omit [Unicode] in
/-- The duration, from the readings. -/
theorem duration_dateText (startTime endTime : ℤ) :
    duration (dateText startTime) (dateText endTime) = (shellReading endTime).bind fun e ↦
      (shellReading startTime).map fun s ↦ Int.bmod (e - s) (2 ^ 64) := by
  rw [duration, variableValue_dateText, variableValue_dateText]
  cases shellReading endTime with
  | none => rfl
  | some e => cases shellReading startTime <;> rfl

omit [Unicode] in
/-- What the table says about a test. -/
theorem score_of_mem_tests {test : TestEntry} (ht : test ∈ tests) :
    0 < test.weight ∧ Python.round 2 test.weight = test.weight ∧
      Python.round 2 (test.weight + test.weight * 0.1) = test.weight + test.weight / 10 := by
  have hround : ∀ w : ℚ, w = 13.5 ∨ w = 20 ∨ w = 27 → 0 < w ∧ Python.round 2 w = w ∧
      Python.round 2 (w + w * 0.1) = w + w / 10 := by
    have heasy : (13.5 : ℚ) * 10 ^ 2 = (1350 : ℤ) := by norm_num
    have hmedium : (20 : ℚ) * 10 ^ 2 = (2000 : ℤ) := by norm_num
    have hhard : (27 : ℚ) * 10 ^ 2 = (2700 : ℤ) := by norm_num
    have heasy' : (13.5 + 13.5 / 10 : ℚ) * 10 ^ 2 = (1485 : ℤ) := by norm_num
    have hmedium' : (20 + 20 / 10 : ℚ) * 10 ^ 2 = (2200 : ℤ) := by norm_num
    have hhard' : (27 + 27 / 10 : ℚ) * 10 ^ 2 = (2970 : ℤ) := by norm_num
    have htenth : ∀ w : ℚ, w + w * 0.1 = w + w / 10 := fun w ↦ by ring
    rintro w (rfl | rfl | rfl) <;> rw [htenth]
    · exact ⟨by norm_num, round_of_mul_eq heasy, round_of_mul_eq heasy'⟩
    · exact ⟨by norm_num, round_of_mul_eq hmedium, round_of_mul_eq hmedium'⟩
    · exact ⟨by norm_num, round_of_mul_eq hhard, round_of_mul_eq hhard'⟩
  have hweights : ∀ l : List TestEntry, (∀ t ∈ l, t.weight = 13.5 ∨ t.weight = 20 ∨
      t.weight = 27) → test ∈ l → test.weight = 13.5 ∨ test.weight = 20 ∨ test.weight = 27 :=
    fun l hl hm ↦ hl test hm
  exact hround _ (hweights tests (by simp [tests]) ht)

omit [Unicode] in
theorem timeoutMs_of_mem {test : TestEntry} (ht : test ∈ tests) {timeout : ℕ}
    (hr : (test.name, timeout) ∈ runTests) : test.timeoutMs = 1000 * timeout ∧ 0 < timeout := by
  have hall : tests.all fun t ↦ runTests.all fun r ↦
      r.1 ≠ t.name ∨ (t.timeoutMs = 1000 * r.2 ∧ 0 < r.2) := by decide
  have htest := of_decide_eq_true (List.all_eq_true.mp (List.all_eq_true.mp hall test ht) _ hr)
  exact htest.resolve_left fun h ↦ h rfl

/-- The score of a line, for a duration that was read back. -/
theorem scoreOf_natural {test : TestEntry} (ht : test ∈ tests) (success : Bool) {n : ℕ}
    (hn : n < 2 ^ 64) : scoreOf test.name (main (resultText test.name success n)) =
      some (if success then
        if 0 < n ∧ 2 * n < test.timeoutMs then test.weight + test.weight / 10 else test.weight
      else 0) := by
  obtain ⟨_, hround, hround'⟩ := score_of_mem_tests ht
  have hlength : (Nat.toDigits 10 n).length ≤ 20 :=
    (Nat.length_toDigits_le_iff (by decide) (by decide)).mpr (hn.trans (by norm_num))
  have hint : toInt (Nat.toDigits 10 n) = some (n : ℤ) :=
    toInt_toDigits (hlength.trans (by norm_num))
  have hhalf : ((n : ℤ) : ℚ) < (test.timeoutMs : ℚ) / 2 ↔ 2 * n < test.timeoutMs := by
    rw [lt_div_iff₀ (by norm_num), mul_comm]
    exact_mod_cast Iff.rfl
  have hpass : lit "reject" ≠ lit "pass" := by decide
  rw [scoreOf_main ht, lookup_natural ht]
  simp only [result, Option.map_some, ResultLine.record, ResultLine.status, naturalLine,
    Option.getD_some, hint, hhalf, Option.some.injEq]
  cases success
  · simp [hpass]
  · by_cases hbonus : 0 < n ∧ 2 * n < test.timeoutMs
    · simp [hbonus, hround']
    · simp only [Nat.cast_pos, if_true, true_and, hbonus, if_false, add_zero, hround]

omit [Unicode] in
/-- A score of nothing follows the rule only if the test did not succeed. -/
theorem zero_eq_ruleScore_iff {weight : ℚ} (h : 0 < weight) (timeout : ℕ) (success : Bool)
    (elapsed : ℤ) : 0 = ruleScore weight timeout success elapsed ↔ success = false := by
  cases success
  · simp [ruleScore]
  · have hpaid : 0 ≠ ruleScore weight timeout true elapsed := by
      rw [ruleScore, if_pos rfl]
      split <;> linarith
    simp [hpaid]

/-- The score of a line follows the rule exactly if the test did not succeed, or its duration is
positive and on the right side of half of the timeout, or zero and the time is over that. -/
theorem scoreOf_resultText_iff {test : TestEntry} (ht : test ∈ tests) {timeout : ℕ}
    (hr : (test.name, timeout) ∈ runTests) (success : Bool) {d : ℤ} (hd : d < 2 ^ 64)
    (elapsed : ℤ) :
    scoreOf test.name (main (resultText test.name success d)) =
        some (ruleScore test.weight timeout success elapsed) ↔
      (success → (0 < d ∧ (2 * d < 1000 * timeout ↔ 2 * elapsed < 1000 * timeout)) ∨
        (d = 0 ∧ 1000 * timeout ≤ 2 * elapsed)) := by
  obtain ⟨hms, _⟩ := timeoutMs_of_mem ht hr
  obtain ⟨hpos, _, _⟩ := score_of_mem_tests ht
  have hbonus : test.weight + test.weight / 10 ≠ test.weight := by linarith
  cases d with
  | ofNat n =>
      have hn : n < 2 ^ 64 := by
        rw [Int.ofNat_eq_natCast] at hd
        exact_mod_cast hd
      have hscore := scoreOf_natural ht success hn
      rw [Int.ofNat_eq_natCast, hscore, ruleScore, hms]
      cases success
      · simp
      · have hzero : (0 < n ∧ 2 * n < 1000 * timeout) ↔ 0 < n ∧ 2 * (n : ℤ) < 1000 * timeout := by
          omega
        simp only [if_true, Option.some.injEq, hzero, true_implies]
        by_cases hearly : 2 * elapsed < 1000 * timeout
        · rw [if_pos hearly]
          constructor
          · intro hscored
            have hpaid := of_not_not fun hn ↦ hbonus ((if_neg hn).symm.trans hscored).symm
            exact Or.inl ⟨by omega, by simp [hpaid.2, hearly]⟩
          · rintro (⟨hpos, hside⟩ | ⟨_, hlate⟩)
            · exact if_pos ⟨by omega, hside.mpr hearly⟩
            · exact absurd hearly (not_lt.mpr hlate)
        · rw [if_neg hearly]
          constructor
          · intro hscored
            have hunpaid := fun hp ↦ hbonus ((if_pos hp).symm.trans hscored)
            rcases Nat.eq_zero_or_pos n with hn | hn
            · exact Or.inr ⟨by omega, not_lt.mp hearly⟩
            · exact Or.inl ⟨by omega, by simpa [hn, hearly] using hunpaid⟩
          · rintro (⟨hpos, hside⟩ | ⟨hn, _⟩)
            · exact if_neg fun hp ↦ hearly (hside.mp hp.2)
            · exact if_neg fun hp ↦ absurd hp.1 (by omega)
  | negSucc n =>
      have hzero : (result test (List.lookup test.name [])).score = 0 := by simp [result]
      rw [scoreOf_main ht, parseRecords_negative ht, hzero, Option.some.injEq,
        zero_eq_ruleScore_iff hpos]
      simp

/-- Without a line the test scores nothing. -/
theorem scoreOf_nil {test : TestEntry} (ht : test ∈ tests) :
    scoreOf test.name (main []) = some 0 := by
  have hnone : parseRecords [] = [] := by
    rw [parseRecords, pattern, finditer_of_not_infix _ _ (by decide) foreign_nil]
    rfl
  rw [scoreOf_main ht, hnone, List.lookup_nil]
  simp [result]

/-- **Timing.**  The score of what `run_test` prints follows the rule exactly if the test did not
succeed or its time was measured; from one second on, and for a difference that fits the
arithmetic of the shell, the time is measured exactly if the clock went forward. -/
theorem scoreOf_runTest_iff {test : TestEntry} (ht : test ∈ tests) {timeout : ℕ}
    (hr : (test.name, timeout) ∈ runTests) (success : Bool) (startTime endTime : ℤ) :
    (scoreOf test.name
          (main (runTest test.name success (dateText startTime) (dateText endTime))) =
        some (ruleScore test.weight timeout success (endTime - startTime)) ↔
      (success → Measured timeout startTime endTime)) ∧
    (1000 ≤ startTime → 1000 ≤ endTime → -2 ^ 63 ≤ endTime - startTime →
      endTime - startTime < 2 ^ 63 →
        (Measured timeout startTime endTime ↔ startTime < endTime)) := by
  refine ⟨?_, measured_iff (timeoutMs_of_mem ht hr).2⟩
  have hpos := (score_of_mem_tests ht).1
  rw [runTest, duration_dateText, Measured]
  cases shellReading endTime with
  | none => simp [scoreOf_nil ht, zero_eq_ruleScore_iff hpos]
  | some e =>
      cases shellReading startTime with
      | none => simp [scoreOf_nil ht, zero_eq_ruleScore_iff hpos]
      | some s =>
          have hlt : Int.bmod (e - s) (2 ^ 64) < 2 ^ 64 :=
            lt_of_lt_of_le (Int.bmod_lt (by decide)) (by decide)
          simp only [Option.bind_some, Option.map_some, Option.mem_some_iff, exists_eq_left']
          exact scoreOf_resultText_iff ht hr success hlt _

omit [Unicode] in
/-- The processor test, with a clock that went forward by three seconds. -/
theorem scoreOf_runTest_forward :
    scoreOf (lit "cpu") (@main asciiOnly (runTest (lit "cpu") true (dateText 1700000000000)
        (dateText 1700000003000))) =
      some (ruleScore 13.5 20 true (1700000003000 - 1700000000000)) :=
  let _ := asciiOnly
  have htest : ⟨lit "cpu", "easy", 13.5, 20000⟩ ∈ tests := by simp [tests]
  have htimed := scoreOf_runTest_iff htest (by decide) true 1700000000000 1700000003000
  htimed.1.mpr fun _ ↦ (htimed.2 (by decide) (by decide) (by decide) (by decide)).mpr (by decide)

omit [Unicode] in
/-- The processor test, with a clock that was set back by a second. -/
theorem scoreOf_runTest_backward :
    scoreOf (lit "cpu") (@main asciiOnly (runTest (lit "cpu") true (dateText 1700000003000)
        (dateText 1700000002000))) ≠
      some (ruleScore 13.5 20 true (1700000002000 - 1700000003000)) := by
  have hd : runTest (lit "cpu") true (dateText 1700000003000) (dateText 1700000002000) =
      resultText (lit "cpu") true (.negSucc 999) := by decide +kernel
  have htest : ⟨lit "cpu", "easy", 13.5, 20000⟩ ∈ tests := by simp [tests]
  let _ := asciiOnly
  have hscore : (result ⟨lit "cpu", "easy", 13.5, 20000⟩ none).score = 0 := by simp [result]
  rw [hd, scoreOf_main htest, parseRecords_negative htest, List.lookup_nil, hscore]
  norm_num [ruleScore]

end KernelTests.CAgent.Judge
