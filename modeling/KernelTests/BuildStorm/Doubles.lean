import KernelTests.BuildStorm.Awards
import KernelTests.Python.Binary64

/-!
# The time score on doubles

`time_score` once more, with every operation rounded.  The judge calls it with a time and
a baseline, or not at all; what it is called with does not depend on its arithmetic.
-/

namespace KernelTests.BuildStorm

open Python

/-- `time_score`, on doubles -/
def timeScoreDouble (t : Python.Float) (baseline : ℚ) : Python.Float :=
  let b := Python.Float.double (.finite baseline)
  let quotient := Python.Float.double (.divide (.double (.sub (.double (.scale 2 b)) (.double t))) b)
  .round 1 (.double (.scale 120 (.clamp quotient)))

/-! ## The call -/

section Call

variable [Unicode]

/-- What `main` hands to `time_score`, if it gets there. -/
def scored (baselines : Baselines) (kv : Fields) : Option (Python.Float × ℚ) :=
  if compileOk kv then do
    let t ← (kv.lookup (lit "elapsed_s")).bind toFloat
    let baseline ← baselines.get ((kv.lookup (lit "arch")).getD [])
    if baseline ≠ 0 then some (t, baseline) else none
  else none

/-- The time score of `main` is the score of that call. -/
theorem timeScoreOf_eq_scored (baselines : Baselines) (kv : Fields) :
    timeScoreOf baselines kv =
      (scored baselines kv).elim (.finite 0) fun call ↦ timeScore call.1 call.2 := by
  rw [timeScoreOf, scored]
  split
  · rw [timePoints]
    cases (kv.lookup (lit "elapsed_s")).bind toFloat with
    | none => rfl
    | some t =>
        cases baselines.get ((kv.lookup (lit "arch")).getD []) with
        | none => rfl
        | some baseline => by_cases hzero : baseline = 0 <;> simp [hzero]
  · rfl

/-- The time score in the printed list, when floats are doubles. -/
def printedTimeScoreDouble (baselines : Baselines) (out : Str) : Option Python.Float :=
  if BadCores (lastFields out) then none
  else some ((scored baselines (lastFields out)).elim (.finite 0)
    fun call ↦ timeScoreDouble call.1 call.2)

end Call

/-! ## Full marks -/

/-- A double that is not below `c`. -/
def AtLeast (c : ℚ) (x : Python.Float) : Prop :=
  x = .inf false ∨ ∃ q, x = .finite q ∧ c ≤ q ∧ ∃ n : ℤ, q = n / 2 ^ 1074

theorem double_finite (q : ℚ) : Python.Float.double (.finite q) = .finite (toDouble q) ∨
    Python.Float.double (.finite q) = .inf (q < 0) := by
  rw [Python.Float.double]
  split
  · exact .inl rfl
  · exact .inr rfl

/-- Rounding takes a small part of a multiple of the least double. -/
theorem AtLeast.double {c : ℚ} (hc : 0 ≤ c) {x : Python.Float} (h : AtLeast c x) :
    AtLeast (c * (1 - 1 / 2 ^ 53)) x.double := by
  rcases h with rfl | ⟨q, rfl, hle, n, hn⟩
  · exact .inl rfl
  · rcases double_finite q with hd | hd
    · refine .inr ⟨_, hd, ?_, exists_toDouble_eq q⟩
      exact (mul_le_mul_of_nonneg_right hle (by norm_num)).trans (le_toDouble hn (hc.trans hle))
    · rw [decide_eq_false (not_lt.mpr (hc.trans hle))] at hd
      exact .inl hd

theorem AtLeast.mono {c d : ℚ} (h : c ≤ d) {x : Python.Float} (hx : AtLeast d x) : AtLeast c x :=
  hx.imp_right fun ⟨q, hq, hle, hn⟩ ↦ ⟨q, hq, h.trans hle, hn⟩

/-- A double that is not positive. -/
def NotPositive (t : Python.Float) : Prop :=
  t = .inf true ∨ ∃ q ≤ 0, t = .finite q ∧ ∃ n : ℤ, q = n / 2 ^ 1074

/-- Rounding keeps the sign. -/
theorem notPositive_double {q : ℚ} (h : q ≤ 0) :
    NotPositive (Python.Float.double (.finite q)) := by
  rw [Python.Float.double]
  split
  · exact .inr ⟨_, toDouble_nonpos h, rfl, exists_toDouble_eq q⟩
  · next hrange =>
      have hneg : q < 0 := by
        refine h.lt_of_ne ?_
        rintro rfl
        exact hrange (by rw [toDouble_zero]; norm_num)
      rw [decide_eq_true hneg]
      exact .inl rfl

/-- Subtracting it makes nothing smaller. -/
theorem NotPositive.sub {t : Python.Float} (ht : NotPositive t) {c : ℚ} {x : Python.Float}
    (hx : AtLeast c x) : AtLeast c (.sub x t) := by
  rcases ht with rfl | ⟨q, hq, rfl, n, hn⟩
  · rcases hx with rfl | ⟨p, rfl, _⟩
    · exact .inl rfl
    · exact .inl rfl
  · rcases hx with rfl | ⟨p, rfl, hp, m, hm⟩
    · exact .inl rfl
    · refine .inr ⟨p - q, rfl, by linarith, m - n, ?_⟩
      rw [hm, hn, Int.cast_sub, sub_div]

theorem NotPositive.sub_inf {t : Python.Float} (ht : NotPositive t) :
    Python.Float.sub (.inf false) t = .inf false := by
  rcases ht with rfl | ⟨q, _, rfl, _⟩ <;> rfl

/-- A quotient that is not below 1 gives all points. -/
theorem clamp_of_not_lt {x : Python.Float} (h : ¬ Python.Float.lt x (.finite 1)) :
    x.clamp = .finite 1 := by
  have hmin : Python.Float.min (.finite 1) x = .finite 1 := if_neg h
  rw [Python.Float.clamp, hmin]
  exact if_pos (decide_eq_true (zero_lt_one (α := ℚ)))

/-- A quotient of at least three halves is not rounded below 1. -/
theorem not_lt_one_double {z : ℚ} (hz : 3 / 2 ≤ z) :
    ¬ Python.Float.lt (Python.Float.double (.finite z)) (.finite 1) := by
  have habs : |z| = z := abs_of_nonneg (by linarith)
  rcases double_finite z with hd | hd
  · have hnormal : 1 / 2 ^ 1022 ≤ |z| := by
      rw [habs]
      exact (div_le_one_of_le₀ (one_le_pow₀ (by norm_num)) (by positivity)).trans (by linarith)
    have herror := (abs_le.mp (abs_toDouble_sub_le_of_normal hnormal)).1
    rw [habs] at herror
    have hge : 1 ≤ toDouble z := by linarith
    rw [hd]
    simpa [Python.Float.lt] using hge
  · rw [hd, decide_eq_false (by linarith)]
    simp [Python.Float.lt]

theorem round_one_clamp_one :
    Python.Float.round 1 (.double (.scale 120 (.finite 1))) = .finite 120 := by
  have hdouble : Python.Float.double (.scale 120 (.finite 1)) = .finite 120 := by decide +kernel
  rw [hdouble]
  exact congrArg _ (round_one_natCast 120)

/-- A time that is not positive gives all points, whatever the baseline. -/
theorem timeScoreDouble_of_notPositive {t : Python.Float} (ht : NotPositive t.double) {baseline : ℚ}
    (hb : 0 < toDouble baseline) : timeScoreDouble t baseline = .finite 120 := by
  have hpos : ¬ baseline < 0 := fun hneg ↦ absurd (toDouble_nonpos hneg.le) (not_le.mpr hb)
  have hfull : ∀ x : Python.Float, ¬ Python.Float.lt x (.finite 1) →
      Python.Float.round 1 (.double (.scale 120 x.clamp)) = .finite 120 := by
    intro x hx
    rw [clamp_of_not_lt hx, round_one_clamp_one]
  refine hfull _ ?_
  rcases double_finite baseline with hfinite | hinf
  · rw [hfinite]
    obtain ⟨n, hn⟩ := exists_toDouble_eq baseline
    have htwice : AtLeast (2 * toDouble baseline) (.scale 2 (.finite (toDouble baseline))) :=
      .inr ⟨_, rfl, le_rfl, 2 * n, by rw [hn, Int.cast_mul, Int.cast_ofNat, mul_div_assoc]⟩
    have hdifference := (ht.sub (htwice.double (by linarith))).double (by
      have h0 : (0 : ℚ) ≤ 1 - 1 / 2 ^ 53 := by norm_num
      positivity)
    rcases hdifference with hd | ⟨q, hd, hq, _⟩
    · rw [hd, Python.Float.divide, decide_eq_false hb.not_gt]
      simp [Python.Float.double, Python.Float.lt]
    · rw [hd]
      refine not_lt_one_double ((le_div_iff₀ hb).mpr (le_trans ?_ hq))
      have hsmall : (3 : ℚ) / 2 ≤ 2 * (1 - 1 / 2 ^ 53) * (1 - 1 / 2 ^ 53) := by norm_num
      calc 3 / 2 * toDouble baseline
          ≤ 2 * (1 - 1 / 2 ^ 53) * (1 - 1 / 2 ^ 53) * toDouble baseline :=
            mul_le_mul_of_nonneg_right hsmall hb.le
        _ = 2 * toDouble baseline * (1 - 1 / 2 ^ 53) * (1 - 1 / 2 ^ 53) := by ring
  · rw [hinf, decide_eq_false hpos]
    have hscale : Python.Float.double (.scale 2 (.inf false)) = .inf false := rfl
    rw [hscale, ht.sub_inf]
    simp [Python.Float.double, Python.Float.divide, Python.Float.lt]

/-! ## No points -/

/-- A float that is at most `c`. -/
def AtMost (c : ℚ) (x : Python.Float) : Prop := x = .inf true ∨ ∃ q ≤ c, x = .finite q

/-- The quotient of `time_score`, on doubles. -/
def remaining (t : Python.Float) (baseline : ℚ) : Python.Float :=
  let b := Python.Float.double (.finite baseline)
  .double (.divide (.double (.sub (.double (.scale 2 b)) (.double t))) b)

/-- The time is so close to twice the baseline, or behind it, that 120 times
`(2 * baseline - t) / baseline`, on doubles, is at most a twentieth. -/
def Exhausted (t : Python.Float) (baseline : ℚ) : Prop :=
  AtMost (1 / 20) (.double (.scale 120 (remaining t baseline)))

theorem roundHalfEven_eq_zero_iff {q : ℚ} (h : 0 ≤ q) : roundHalfEven q = 0 ↔ q ≤ 1 / 2 := by
  constructor
  · intro hzero
    have herror := abs_le.mp (abs_roundHalfEven_sub_le q)
    rw [hzero] at herror
    linarith [herror.1]
  · intro hle
    have hmono := roundHalfEven_mono hle
    have hhalf : roundHalfEven (1 / 2) = 0 := by decide +kernel
    have hzero : roundHalfEven 0 = 0 := roundHalfEven_intCast 0
    have hnonneg := roundHalfEven_mono h
    omega

theorem round_one_eq_zero_iff {q : ℚ} (h : 0 ≤ q) : Python.round 1 q = 0 ↔ q ≤ 1 / 20 := by
  have hnonneg : 0 ≤ q * 10 ^ 1 := by positivity
  rw [Python.round, div_eq_zero_iff, or_iff_left (by norm_num), Int.cast_eq_zero,
    roundHalfEven_eq_zero_iff hnonneg, pow_one]
  constructor <;> intro hle <;> linarith

theorem not_atMost_of_lt {c : ℚ} (hc : 0 ≤ c) {q : ℚ} (h : c < toDouble q) :
    ¬ AtMost c (.double (.finite q)) := by
  rcases double_finite q with hd | hd
  · rw [hd]
    rintro (h' | ⟨_, hle, ⟨⟩⟩)
    · cases h'
    · exact absurd hle (not_le.mpr h)
  · rw [hd]
    rintro (h' | ⟨_, _, h'⟩)
    · rw [Python.Float.inf.injEq, decide_eq_true_eq] at h'
      exact absurd (toDouble_nonpos h'.le) (not_le.mpr (hc.trans_lt h))
    · cases h'

theorem round_one_clamp_zero :
    Python.Float.round 1 (.double (.scale 120 (.finite 0))) = .finite 0 := by
  decide +kernel

/-- Between 0 and 1 the points are rounded to nothing up to a twentieth. -/
theorem round_one_scale_eq_zero_iff {q : ℚ} (h0 : 0 < q) (h1 : q < 1) :
    Python.Float.round 1 (.double (.scale 120 (.finite q))) = .finite 0 ↔
      AtMost (1 / 20) (.double (.scale 120 (.finite q))) := by
  have hbound : |120 * q| ≤ 2 ^ 100 := by
    rw [abs_of_pos (by linarith)]
    linarith
  rw [Python.Float.scale, double_finite_of_abs_le hbound, Python.Float.round,
    Python.Float.finite.injEq, round_one_eq_zero_iff (toDouble_nonneg (by linarith))]
  constructor
  · exact fun hle ↦ .inr ⟨_, hle, rfl⟩
  · rintro (h | ⟨_, hle, ⟨⟩⟩)
    · cases h
    · exact hle

/-- The points for a quotient are nothing exactly if 120 times the quotient is at most a
twentieth. -/
theorem round_one_clamp_eq_zero_iff (x : Python.Float) :
    Python.Float.round 1 (.double (.scale 120 x.clamp)) = .finite 0 ↔
      AtMost (1 / 20) (.double (.scale 120 x)) := by
  have hfull : Python.Float.round 1 (.double (.scale 120 (.finite 1))) ≠ .finite 0 := by
    rw [round_one_clamp_one]
    simp
  cases x with
  | nan =>
      rw [Python.Float.clamp_nan]
      exact iff_of_false hfull (by simp [AtMost, Python.Float.scale, Python.Float.double])
  | inf negative =>
      rw [Python.Float.clamp_inf]
      cases negative
      · exact iff_of_false hfull (by simp [AtMost, Python.Float.scale, Python.Float.double])
      · exact iff_of_true round_one_clamp_zero
          (by simp [AtMost, Python.Float.scale, Python.Float.double])
  | finite q =>
      rw [Python.Float.clamp_finite]
      rcases le_or_gt q 0 with hq | hq
      · rw [max_eq_left ((min_le_right _ _).trans hq)]
        refine iff_of_true round_one_clamp_zero ?_
        have hscaled : 120 * q ≤ 0 := by linarith
        rcases notPositive_double hscaled with hd | ⟨p, hp, hd, _⟩
        · exact .inl hd
        · exact .inr ⟨p, hp.trans (by norm_num), hd⟩
      · rcases le_or_gt 1 q with hone | hone
        · rw [min_eq_left hone, max_eq_right zero_le_one]
          refine iff_of_false hfull (not_atMost_of_lt (by norm_num) ?_)
          have hlow := le_toDouble_of_le (c := 120) (q := 120 * q) (by linarith) (by norm_num)
          exact lt_of_lt_of_le (by norm_num) hlow
        · rw [min_eq_right hone.le, max_eq_right hq.le]
          exact round_one_scale_eq_zero_iff hq hone

/-- Such a time, and no other, is worth nothing. -/
theorem timeScoreDouble_eq_zero_iff (t : Python.Float) (baseline : ℚ) :
    timeScoreDouble t baseline = .finite 0 ↔ Exhausted t baseline :=
  round_one_clamp_eq_zero_iff (remaining t baseline)

/-! ### Where it begins -/

section Moderate

variable {b t : ℚ}

theorem abs_toDouble_baseline_sub_le (hb : 1 / 100 ≤ b) : |toDouble b - b| ≤ b / 2 ^ 52 := by
  have hnonneg : 0 ≤ b := by linarith
  have herror := abs_toDouble_sub_le_add b
  rw [abs_of_nonneg hnonneg] at herror
  linarith

/-- The double of the difference, before its own rounding. -/
theorem abs_difference_sub_le (hb : 1 / 100 ≤ b) (ht : 0 ≤ t) :
    |toDouble (2 * toDouble b) - toDouble t - (2 * b - t)| ≤ (b + t) / 2 ^ 49 := by
  have hbaseline := abs_le.mp (abs_toDouble_baseline_sub_le hb)
  have htwice := abs_le.mp (abs_toDouble_sub_le_add (2 * toDouble b))
  have htime := abs_le.mp (abs_toDouble_sub_le_add t)
  rw [abs_of_nonneg (by linarith [hbaseline.1])] at htwice
  rw [abs_of_nonneg ht] at htime
  obtain ⟨hb₁, hb₂⟩ := hbaseline
  obtain ⟨hd₁, hd₂⟩ := htwice
  obtain ⟨ht₁, ht₂⟩ := htime
  rw [abs_le]
  constructor <;> linarith

/-- For a baseline and a time of moderate size, no double is out of range. -/
theorem exhausted_finite_iff (hb : 1 / 100 ≤ b) (hb' : b ≤ 2 ^ 40) (ht : 0 ≤ t) (ht' : t ≤ 2 ^ 44) :
    Exhausted (.finite t) b ↔
      toDouble (120 * toDouble
        (toDouble (toDouble (2 * toDouble b) - toDouble t) / toDouble b)) ≤ 1 / 20 := by
  obtain ⟨hb₁, hb₂⟩ := abs_le.mp (abs_toDouble_baseline_sub_le hb)
  obtain ⟨hy₁, hy₂⟩ := abs_le.mp (abs_difference_sub_le hb ht)
  have hpos : 0 < toDouble b := by linarith
  have hdifference : |toDouble (2 * toDouble b) - toDouble t| ≤ 2 ^ 46 := by
    rw [abs_le]
    constructor <;> linarith
  have hrounded := abs_toDouble_le hdifference (by norm_num)
  have hquotient : |toDouble (toDouble (2 * toDouble b) - toDouble t) / toDouble b| ≤ 2 ^ 60 := by
    rw [abs_div, abs_of_pos hpos, div_le_iff₀ hpos]
    linarith
  have hremaining := abs_toDouble_le hquotient (by norm_num)
  rw [Exhausted, remaining, double_finite_of_abs_le (q := b), Python.Float.scale,
    double_finite_of_abs_le (q := 2 * toDouble b), double_finite_of_abs_le (q := t),
    Python.Float.sub, double_finite_of_abs_le, Python.Float.divide, double_finite_of_abs_le,
    Python.Float.scale, double_finite_of_abs_le]
  · constructor
    · rintro (h | ⟨_, hle, ⟨⟩⟩)
      · cases h
      · exact hle
    · exact fun hle ↦ .inr ⟨_, hle, rfl⟩
  · rw [abs_mul]
    norm_num
    linarith
  · linarith
  · linarith
  · rw [abs_of_nonneg ht]
    linarith
  · rw [abs_of_pos (by linarith)]
    linarith
  · rw [abs_of_nonneg (by linarith)]
    linarith

/-- A little behind the place where a twentieth of a point is left, the time is worth nothing. -/
theorem exhausted_of_le (hb : 1 / 100 ≤ b) (hb' : b ≤ 2 ^ 40) (ht : 0 ≤ t) (ht' : t ≤ 2 ^ 44)
    (h : 2 * b - b / 2400 + b / 2 ^ 38 ≤ t) : Exhausted (.finite t) b := by
  rw [exhausted_finite_iff hb hb' ht ht']
  obtain ⟨hb₁, hb₂⟩ := abs_le.mp (abs_toDouble_baseline_sub_le hb)
  obtain ⟨hy₁, hy₂⟩ := abs_le.mp (abs_difference_sub_le hb ht)
  have hpos : 0 < toDouble b := by linarith
  have hdifference := toDouble_le_of_le (c := b * (1 / 2400 - 1 / 2 ^ 39))
    (q := toDouble (2 * toDouble b) - toDouble t) (by linarith)
    (mul_nonneg (by linarith) (by norm_num))
  have hquotient : toDouble (toDouble (2 * toDouble b) - toDouble t) / toDouble b ≤
      1 / 2400 - 1 / 2 ^ 41 := by
    rw [div_le_iff₀ hpos]
    linarith
  have hremaining := toDouble_le_of_le hquotient (by norm_num)
  refine (toDouble_le_of_le (mul_le_mul_of_nonneg_left hremaining (by norm_num)) ?_).trans ?_
  · norm_num
  · norm_num

/-- A little before that place it is worth something. -/
theorem not_exhausted_of_le (hb : 1 / 100 ≤ b) (hb' : b ≤ 2 ^ 40) (ht : 0 ≤ t) (ht' : t ≤ 2 ^ 44)
    (h : t ≤ 2 * b - b / 2400 - b / 2 ^ 38) : ¬ Exhausted (.finite t) b := by
  rw [exhausted_finite_iff hb hb' ht ht', not_le]
  obtain ⟨hb₁, hb₂⟩ := abs_le.mp (abs_toDouble_baseline_sub_le hb)
  obtain ⟨hy₁, hy₂⟩ := abs_le.mp (abs_difference_sub_le hb ht)
  have hpos : 0 < toDouble b := by linarith
  have hdifference := le_toDouble_of_le (c := b * (1 / 2400 + 1 / 2 ^ 39))
    (q := toDouble (2 * toDouble b) - toDouble t) (by linarith) (by positivity)
  have hquotient : 1 / 2400 + 1 / 2 ^ 41 ≤
      toDouble (toDouble (2 * toDouble b) - toDouble t) / toDouble b := by
    rw [le_div_iff₀ hpos]
    linarith
  have hremaining := le_toDouble_of_le hquotient (by norm_num)
  refine lt_of_lt_of_le ?_ (le_toDouble_of_le (mul_le_mul_of_nonneg_left hremaining ?_) ?_)
  · norm_num
  · norm_num
  · norm_num

end Moderate

/-- A baseline of two decimals, as in the table of the judge. -/
structure IsBaseline (b : ℚ) : Prop where
  hundredths : ∃ m : ℕ, b = m / 100 ∧ 0 < m ∧ ¬ 2400 ∣ m
  le : b ≤ 10 ^ 6

example : IsBaseline referenceBaselines.riscv64 ∧ IsBaseline referenceBaselines.loongarch64 :=
  ⟨⟨⟨161609, by norm_num [referenceBaselines], by decide⟩, by norm_num [referenceBaselines]⟩,
    ⟨198521, by norm_num [referenceBaselines], by decide⟩, by norm_num [referenceBaselines]⟩

/-- For such a baseline and a time of two decimals, the place is exact. -/
theorem exhausted_iff {b t : ℚ} (hb : IsBaseline b) {n : ℤ} (hn : t = n / 100) (ht0 : 0 ≤ t)
    (ht : t < 2 ^ 43) : Exhausted (.finite t) b ↔ 2 * b - b / 2400 ≤ t := by
  obtain ⟨⟨m, hm, hpos, hdvd⟩, hle⟩ := hb
  have hne : 2400 * n ≠ 4799 * m := by omega
  have hm1 : (1 : ℚ) ≤ m := by exact_mod_cast hpos
  have hb100 : 1 / 100 ≤ b := by
    rw [hm]
    linarith
  have hb40 : b ≤ 2 ^ 40 := by linarith
  have ht44 : t ≤ 2 ^ 44 := by linarith
  rcases lt_or_gt_of_ne hne with hlt | hgt
  · have hcast : (2400 * n + 1 : ℚ) ≤ 4799 * m := by exact_mod_cast hlt
    refine iff_of_false (not_exhausted_of_le hb100 hb40 ht0 ht44 ?_) (not_le.mpr ?_)
    · linarith
    · linarith
  · have hcast : (4799 * m + 1 : ℚ) ≤ 2400 * n := by exact_mod_cast hgt
    refine iff_of_true (exhausted_of_le hb100 hb40 ht0 ht44 ?_) ?_
    · linarith
    · linarith

end KernelTests.BuildStorm
