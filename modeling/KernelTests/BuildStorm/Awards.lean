import KernelTests.BuildStorm.Records
import Mathlib.Tactic.NormNum
import Mathlib.Tactic.FieldSimp

/-!
# Points for the time

The score for the time is a clamped quotient, rounded to one decimal.  For a time
within twice the baseline it is the formula of the contest; a time that is negative or
not a number is clamped to full marks.
-/

namespace KernelTests.BuildStorm

open Python

/-! ## The formula -/

/-- `120 * min(1, (2 * B - t) / B)`, rounded to one decimal -/
def points (baseline t : ℚ) : ℚ := Python.round 1 (120 * min 1 ((2 * baseline - t) / baseline))

/-- What is at most a half is rounded away. -/
theorem roundHalfEven_pos_iff {q : ℚ} : 0 < roundHalfEven q ↔ 1 / 2 < q := by
  have hhalf : roundHalfEven (1 / 2) = 0 := by
    norm_num [roundHalfEven]
  constructor
  · intro h
    by_contra hle
    have := roundHalfEven_mono (not_lt.mp hle)
    omega
  · intro h
    rcases lt_or_ge q 1 with h1 | h1
    · have hfloor : ⌊q⌋ = 0 := Int.floor_eq_iff.mpr ⟨by push_cast; linarith, by push_cast; linarith⟩
      have hr : ¬ q - (0 : ℤ) < 1 / 2 := by push_cast; linarith
      have hr' : 1 / 2 < q - (0 : ℤ) := by push_cast; linarith
      rw [roundHalfEven, hfloor, if_neg hr, if_pos hr']
      decide
    · have hone := roundHalfEven_mono h1
      rw [show roundHalfEven 1 = 1 from roundHalfEven_intCast 1] at hone
      omega

theorem round_one_natCast (n : ℕ) : Python.round 1 n = n :=
  round_of_mul_eq (z := n * 10) (by push_cast; ring)

theorem points_antitone {baseline s t : ℚ} (hb : 0 < baseline) (h : s ≤ t) :
    points baseline t ≤ points baseline s := by
  refine round_mono 1 (mul_le_mul_of_nonneg_left (min_le_min_left 1 ?_) (by norm_num))
  exact div_le_div_of_nonneg_right (by linarith) hb.le

theorem points_of_le {baseline t : ℚ} (hb : 0 < baseline) (h : t ≤ baseline) :
    points baseline t = 120 := by
  have hq : 1 ≤ (2 * baseline - t) / baseline := by
    rw [le_div_iff₀ hb]
    linarith
  rw [points, min_eq_left hq, mul_one]
  exact round_one_natCast 120

theorem points_le (baseline t : ℚ) : points baseline t ≤ 120 := by
  have hmin := min_le_left 1 ((2 * baseline - t) / baseline)
  exact (round_mono 1 (by linarith)).trans (round_one_natCast 120).le

theorem points_nonneg {baseline t : ℚ} (hb : 0 < baseline) (h : t ≤ 2 * baseline) :
    0 ≤ points baseline t := by
  have hq : 0 ≤ (2 * baseline - t) / baseline := div_nonneg (by linarith) hb.le
  have hmin : 0 ≤ min 1 ((2 * baseline - t) / baseline) := le_min zero_le_one hq
  have hround := round_mono 1 (mul_nonneg (by norm_num : (0 : ℚ) ≤ 120) hmin)
  rwa [show Python.round 1 0 = 0 from round_one_natCast 0] at hround

/-- There are points unless the time is almost twice the baseline. -/
theorem points_pos_iff {baseline t : ℚ} (hb : 0 < baseline) :
    0 < points baseline t ↔ t < 2 * baseline - baseline / 2400 := by
  have hpos : 0 < points baseline t ↔
      0 < roundHalfEven (120 * min 1 ((2 * baseline - t) / baseline) * 10) := by
    rw [points, Python.round, pow_one, div_pos_iff_of_pos_right (by norm_num)]
    exact Int.cast_pos
  rw [hpos, roundHalfEven_pos_iff]
  have hmin : (1 : ℚ) / 2 < 120 * min 1 ((2 * baseline - t) / baseline) * 10 ↔
      1 / 2400 < (2 * baseline - t) / baseline := by
    constructor
    · intro h
      have := min_le_right 1 ((2 * baseline - t) / baseline)
      linarith
    · intro h
      have : 1 / 2400 < min 1 ((2 * baseline - t) / baseline) := lt_min (by norm_num) h
      linarith
  rw [hmin, lt_div_iff₀ hb]
  constructor <;> intro h <;> linarith

/-! ## What the judge computes -/

/-- The score, from the clamped quotient. -/
theorem timeScore_of_clamp {t : Python.Float} {baseline q : ℚ}
    (h : (((t.subFrom (2 * baseline)).div baseline).clamp) = .finite q) :
    timeScore t baseline = .finite (Python.round 1 (120 * q)) := by
  rw [timeScore, h]
  rfl

theorem timeScore_finite {baseline t : ℚ} (hb : 0 < baseline) (h : t ≤ 2 * baseline) :
    timeScore (.finite t) baseline = .finite (points baseline t) := by
  have hq : 0 ≤ (2 * baseline - t) / baseline := div_nonneg (by linarith) hb.le
  refine timeScore_of_clamp ((Python.Float.clamp_finite _).trans ?_)
  rw [max_eq_right (le_min zero_le_one hq)]

theorem timeScore_late {baseline t : ℚ} (hb : 0 < baseline) (h : 2 * baseline ≤ t) :
    timeScore (.finite t) baseline = .finite 0 := by
  have hq : (2 * baseline - t) / baseline ≤ 0 := div_nonpos_of_nonpos_of_nonneg (by linarith) hb.le
  have hclamp := (Python.Float.clamp_finite ((2 * baseline - t) / baseline)).trans
    (congrArg _ (max_eq_left ((min_le_right 1 _).trans hq)))
  refine (timeScore_of_clamp (t := .finite t) hclamp).trans (congrArg _ ?_)
  rw [mul_zero]
  exact round_one_natCast 0

theorem timeScore_nan (baseline : ℚ) : timeScore .nan baseline = .finite 120 := by
  refine (timeScore_of_clamp (t := .nan) Python.Float.clamp_nan).trans (congrArg _ ?_)
  rw [mul_one]
  exact round_one_natCast 120

theorem timeScore_inf {baseline : ℚ} (hb : 0 < baseline) (negative : Bool) :
    timeScore (.inf negative) baseline = .finite (if negative then 120 else 0) := by
  have hsign : decide (baseline < 0) = false := decide_eq_false (not_lt.mpr hb.le)
  have hquotient : ((Python.Float.inf negative).subFrom (2 * baseline)).div baseline =
      .inf (!negative) := by
    refine congrArg Python.Float.inf ?_
    rw [hsign, Bool.xor_false]
  rw [timeScore_of_clamp (hquotient ▸ Python.Float.clamp_inf (!negative))]
  cases negative
  · exact congrArg _ ((congrArg _ (mul_zero 120)).trans (round_one_natCast 0))
  · exact congrArg _ ((congrArg _ (mul_one 120)).trans (round_one_natCast 120))

/-- The score is between nothing and full marks, whatever was read. -/
theorem exists_timeScore (t : Python.Float) (baseline : ℚ) :
    ∃ q, timeScore t baseline = .finite q ∧ 0 ≤ q ∧ q ≤ 120 := by
  have hclamp : ∀ x : Python.Float, ∃ q, x.clamp = .finite q ∧ 0 ≤ q ∧ q ≤ 1 := by
    rintro (q | negative | _)
    · exact ⟨_, Python.Float.clamp_finite q, le_max_left _ _,
        max_le zero_le_one (min_le_left 1 q)⟩
    · refine ⟨_, Python.Float.clamp_inf negative, ?_⟩
      cases negative <;> norm_num
    · exact ⟨_, Python.Float.clamp_nan, zero_le_one, le_rfl⟩
  obtain ⟨q, hq, h0, h1⟩ := hclamp ((t.subFrom (2 * baseline)).div baseline)
  refine ⟨_, timeScore_of_clamp hq, ?_, ?_⟩
  · exact (round_one_natCast 0).symm.le.trans (round_mono 1 (by push_cast; linarith))
  · exact (round_mono 1 (by push_cast; linarith)).trans (round_one_natCast 120).le

/-! ## The law -/

variable [Unicode]

/-- The last record reports a successful build of the configuration that counts, with the baseline
`b`, in the time `t`. -/
structure Earned (baselines : Baselines) (kv : Fields) (t b : ℚ) : Prop where
  mode : kv.lookup (lit "mode") = some (lit "multi")
  ok : compileOk kv
  baseline : baselines.get ((kv.lookup (lit "arch")).getD []) = some b
  elapsed : (kv.lookup (lit "elapsed_s")).bind toFloat = some (.finite t)
  nonneg : 0 ≤ t
  lt : t < 2 * b

/-- The time score in the printed list. -/
def printedTimeScore (baselines : Baselines) (out : Str) : Option Python.Float :=
  ((main baselines out).bind List.getLast?).map Result.score

/-- The points for the time are given exactly where they are earned. -/
structure TimeLaw (baselines : Baselines) (out : Str) : Prop where
  /-- Without being earned there are none. -/
  earned : ∀ score ∈ printedTimeScore baselines out, Python.Float.lt (.finite 0) score →
    ∃ t b, Earned baselines (lastFields out) t b
  /-- Where they are earned, the formula gives their number. -/
  points : ∀ t b, Earned baselines (lastFields out) t b →
    printedTimeScore baselines out = some (.finite (BuildStorm.points b t))
  /-- That number is in the range, full up to the baseline, and does not grow with the time. -/
  shape : ∀ t b, Earned baselines (lastFields out) t b → 0 ≤ BuildStorm.points b t ∧
    BuildStorm.points b t ≤ 120 ∧ (t ≤ b → BuildStorm.points b t = 120) ∧
    ∀ s ≤ t, BuildStorm.points b t ≤ BuildStorm.points b s

/-- A time that gives no points. -/
def Late (b : ℚ) (t : Python.Float) : Prop :=
  t = .inf false ∨ ∃ q, t = .finite q ∧ 2 * b - b / 2400 ≤ q

/-- A record that says `ok=true`, with a baseline and a time.  If its number of cores is a number,
it is of the configuration that counts and its time is finite and not negative, or its time is late.
If its number of cores is no number, it is of another configuration, or its time is no finite number
between zero and twice the baseline. -/
def Honest (baselines : Baselines) (kv : Fields) : Prop :=
  ∀ b t, compileOk kv → baselines.get ((kv.lookup (lit "arch")).getD []) = some b →
    (kv.lookup (lit "elapsed_s")).bind toFloat = some t →
    (cores kv ≠ none → Late b t ∨
      kv.lookup (lit "mode") = some (lit "multi") ∧ ∃ q, t = .finite q ∧ 0 ≤ q) ∧
    (cores kv = none → kv.lookup (lit "mode") = some (lit "multi") →
      ∀ q, t = .finite q → 0 ≤ q → 2 * b ≤ q)

theorem printedTimeScore_eq (baselines : Baselines) (out : Str) :
    printedTimeScore baselines out = if BadCores (lastFields out) then none
      else some (timeScoreOf baselines (lastFields out)) := by
  rw [printedTimeScore, main_eq]
  split
  · rfl
  · rw [Option.bind_some, resultsOf, List.getLast?_append]
    rfl

omit [Unicode] in
/-- The time is late exactly if it gives no points. -/
theorem lt_timeScore_iff {b : ℚ} (hb : 0 < b) (t : Python.Float) :
    Python.Float.lt (.finite 0) (timeScore t b) ↔ ¬ Late b t := by
  cases t with
  | finite q =>
      have hlate : Late b (.finite q) ↔ 2 * b - b / 2400 ≤ q := by simp [Late]
      rw [hlate, not_le]
      rcases le_total q (2 * b) with hq | hq
      · rw [timeScore_finite hb hq, ← points_pos_iff hb]
        exact decide_eq_true_iff
      · rw [timeScore_late hb hq]
        refine iff_of_false (by simp [Python.Float.lt]) (not_lt.mpr ?_)
        linarith
  | inf negative =>
      rw [timeScore_inf hb]
      cases negative <;> simp [Late, Python.Float.lt]
  | nan =>
      rw [timeScore_nan]
      simp [Late, Python.Float.lt]

omit [Unicode] in
theorem Baselines.pos_of_get {baselines : Baselines} (hrv : 0 < baselines.riscv64)
    (hla : 0 < baselines.loongarch64) {arch : Str} {b : ℚ} (h : baselines.get arch = some b) :
    0 < b := by
  rw [Baselines.get] at h
  split at h
  · cases h
    exact hrv
  · split at h
    · cases h
      exact hla
    · cases h

theorem timeScoreOf_eq {baselines : Baselines} {kv : Fields} {b : ℚ} {t : Python.Float}
    (hok : compileOk kv) (hb : baselines.get ((kv.lookup (lit "arch")).getD []) = some b)
    (ht : (kv.lookup (lit "elapsed_s")).bind toFloat = some t) (hpos : 0 < b) :
    timeScoreOf baselines kv = timeScore t b := by
  rw [timeScoreOf, if_pos hok, timePoints, ht, hb]
  exact if_pos hpos.ne'

/-- Without a successful build, a baseline and a time there are no points. -/
theorem exists_of_lt_timeScoreOf {baselines : Baselines} {kv : Fields}
    (h : Python.Float.lt (.finite 0) (timeScoreOf baselines kv)) :
    compileOk kv ∧ ∃ b t, baselines.get ((kv.lookup (lit "arch")).getD []) = some b ∧
      (kv.lookup (lit "elapsed_s")).bind toFloat = some t := by
  have hzero : ¬ Python.Float.lt (.finite 0) (.finite 0) := by simp [Python.Float.lt]
  by_cases hok : compileOk kv
  · rw [timeScoreOf, if_pos hok, timePoints] at h
    cases ht : (kv.lookup (lit "elapsed_s")).bind toFloat with
    | none =>
        rw [ht] at h
        exact absurd h hzero
    | some t =>
        cases hb : baselines.get ((kv.lookup (lit "arch")).getD []) with
        | none =>
            rw [ht, hb] at h
            exact absurd h hzero
        | some b => exact ⟨hok, b, t, rfl, rfl⟩
  · rw [timeScoreOf, if_neg hok] at h
    exact absurd h hzero

/-- **Time scores.**  For positive baselines the law holds of a log exactly if its last record is
honest. -/
theorem timeLaw_iff {baselines : Baselines} (hrv : 0 < baselines.riscv64)
    (hla : 0 < baselines.loongarch64) (out : Str) :
    TimeLaw baselines out ↔ Honest baselines (lastFields out) := by
  constructor
  · intro law b t hok hb ht
    have hpos := Baselines.pos_of_get hrv hla hb
    constructor
    · intro hcores
      refine or_iff_not_imp_left.mpr fun hlate ↦ ?_
      have hprinted : printedTimeScore baselines out = some (timeScore t b) := by
        rw [printedTimeScore_eq, if_neg fun hbad ↦ hcores hbad.2, timeScoreOf_eq hok hb ht hpos]
      obtain ⟨q, b', hearned⟩ := law.earned _ hprinted ((lt_timeScore_iff hpos t).mpr hlate)
      exact ⟨hearned.mode, q, Option.some.inj (ht.symm.trans hearned.elapsed), hearned.nonneg⟩
    · rintro hcores hmode q rfl hq
      by_contra hlt
      have hnone : printedTimeScore baselines out = none := by
        rw [printedTimeScore_eq, if_pos ⟨hok, hcores⟩]
      have hsome := law.points q b ⟨hmode, hok, hb, ht, hq, not_le.mp hlt⟩
      rw [hnone] at hsome
      cases hsome
  · intro honest
    constructor
    · intro score hscore hlt
      rw [printedTimeScore_eq] at hscore
      split at hscore
      · cases hscore
      · next hbad =>
          cases hscore
          obtain ⟨hok, b, t, hb, ht⟩ := exists_of_lt_timeScoreOf hlt
          have hpos := Baselines.pos_of_get hrv hla hb
          rw [timeScoreOf_eq hok hb ht hpos, lt_timeScore_iff hpos] at hlt
          obtain ⟨hmode, q, rfl, hq⟩ :=
            ((honest b t hok hb ht).1 fun hc ↦ hbad ⟨hok, hc⟩).resolve_left hlt
          refine ⟨q, b, hmode, hok, hb, ht, hq, ?_⟩
          by_contra hge
          refine hlt (Or.inr ⟨q, rfl, ?_⟩)
          linarith
    · intro t b hearned
      have hpos := Baselines.pos_of_get hrv hla hearned.baseline
      have hcores : cores (lastFields out) ≠ none := fun hc ↦
        absurd ((honest b _ hearned.ok hearned.baseline hearned.elapsed).2 hc hearned.mode t rfl
          hearned.nonneg) (not_le.mpr hearned.lt)
      rw [printedTimeScore_eq, if_neg fun hbad ↦ hcores hbad.2,
        timeScoreOf_eq hearned.ok hearned.baseline hearned.elapsed hpos,
        timeScore_finite hpos hearned.lt.le]
    · intro t b hearned
      have hpos := Baselines.pos_of_get hrv hla hearned.baseline
      exact ⟨points_nonneg hpos hearned.lt.le, points_le b t, points_of_le hpos,
        fun s hs ↦ points_antitone hpos hs⟩

/-- The fields of a build on a single architecture. -/
def sampleFields (elapsed : Str) : List (Str × Str) :=
  successFields elapsed (lit "8") (lit "524288") (lit "riscv64")

/-- A log with nothing but the record of that build. -/
def sampleLog (elapsed : Str) : Str := compileLog [] [(printFields (sampleFields elapsed), [])]

omit [Unicode] in
theorem lastFields_sampleLog {elapsed : Str} (helapsed : IsPlain elapsed) (hne : elapsed ≠ []) :
    lastFields (sampleLog elapsed) = (sampleFields elapsed).reverse := by
  have htake : (sampleFields elapsed).takeWhile (·.2 ≠ []) = sampleFields elapsed := by
    rw [List.takeWhile_eq_self_iff]
    simp only [sampleFields, successFields, List.forall_mem_cons, ne_eq, hne]
    decide
  have hprintable := isPrintable_successFields helapsed (by decide : IsPlain (lit "8"))
    (by decide : IsPlain (lit "524288")) (by decide : IsPlain (lit "riscv64"))
  exact (lastFields_printFields unmarked_nil unmarked_nil hprintable (by decide)).trans
    (congrArg _ htake)

omit [Unicode] in
/-- A build of 400 seconds is scored by the law. -/
theorem timeLaw_sampleLog : @TimeLaw asciiOnly referenceBaselines (sampleLog (lit "400.00")) := by
  let _ := asciiOnly
  refine (timeLaw_iff (by norm_num [referenceBaselines]) (by norm_num [referenceBaselines]) _).mpr ?_
  rw [lastFields_sampleLog (by decide) (by decide)]
  have helapsed : (((sampleFields (lit "400.00")).reverse.lookup (lit "elapsed_s")).bind toFloat) =
      some (.finite 400) := by decide +kernel
  have hcores : cores (sampleFields (lit "400.00")).reverse = some 8 := by decide
  intro b t _ _ ht
  rw [helapsed] at ht
  cases ht
  exact ⟨fun _ ↦ Or.inr ⟨by decide, 400, rfl, by norm_num⟩, fun h ↦ by rw [hcores] at h; cases h⟩

omit [Unicode] in
/-- A time that is not a number gets full marks. -/
theorem not_timeLaw_nan : ¬ @TimeLaw asciiOnly referenceBaselines (sampleLog (lit "nan")) := by
  let _ := asciiOnly
  intro law
  have hfields : lastFields (sampleLog (lit "nan")) = (sampleFields (lit "nan")).reverse :=
    lastFields_sampleLog (by decide) (by decide)
  have helapsed : (((sampleFields (lit "nan")).reverse.lookup (lit "elapsed_s")).bind toFloat) =
      some .nan := by decide
  have hgood : ¬ BadCores (sampleFields (lit "nan")).reverse := by decide
  have hprinted : printedTimeScore referenceBaselines (sampleLog (lit "nan")) =
      some (.finite 120) := by
    rw [printedTimeScore_eq, hfields, if_neg hgood, ← timeScore_nan referenceBaselines.riscv64]
    refine congrArg some (timeScoreOf_eq (by decide) (if_pos (by decide)) helapsed ?_)
    norm_num [referenceBaselines]
  obtain ⟨t, b, hearned⟩ := law.earned _ hprinted (by simp [Python.Float.lt])
  have hfinite := hearned.elapsed
  rw [hfields, helapsed] at hfinite
  cases hfinite

end KernelTests.BuildStorm
