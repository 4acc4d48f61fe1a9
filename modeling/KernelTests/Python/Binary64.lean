import KernelTests.Python.Float
import Mathlib.Data.Int.Log
import Mathlib.Tactic.FieldSimp

/-!
# Doubles

A `float` is a binary64 number: 53 bits, the last of them worth at least `2^-1074`, and
below `2^1024`.  An operation on them is the exact operation, rounded to the double that
is next to it, ties to even.  The error of one rounding is half of the last bit.
-/

namespace KernelTests.Python

/-- What the last bit of the doubles around `q` is worth. -/
def lastBit (q : ℚ) : ℚ := 2 ^ max (Int.log 2 |q| - 52) (-1074)

/-- The double next to `q`, ties to even, where the range has no upper end. -/
def toDouble (q : ℚ) : ℚ := roundHalfEven (q / lastBit q) * lastBit q

namespace Float

/-- A number as a double; what is out of range is infinite. -/
def double : Float → Float
  | .finite q => if |toDouble q| < 2 ^ 1024 then .finite (toDouble q) else .inf (q < 0)
  | .inf negative => .inf negative
  | .nan => .nan

end Float

/-- A double that is finite is the one next to the number, in range. -/
theorem Float.double_eq_finite_iff {x : Float} {r : ℚ} : x.double = .finite r ↔
    ∃ q, x = .finite q ∧ |toDouble q| < 2 ^ 1024 ∧ toDouble q = r := by
  cases x <;> rw [Float.double]
  case finite q =>
    split
    · next h => simp [h]
    · next h => simp [h]
  all_goals simp

/-! ## Errors -/

theorem lastBit_pos (q : ℚ) : 0 < lastBit q := zpow_pos (by norm_num) _

/-- A double differs from the number by at most half of its last bit. -/
theorem abs_toDouble_sub_le_half (q : ℚ) : |toDouble q - q| ≤ lastBit q / 2 := by
  have hpos := lastBit_pos q
  have herror := abs_roundHalfEven_sub_le (q / lastBit q)
  have hsplit : toDouble q - q = (roundHalfEven (q / lastBit q) - q / lastBit q) * lastBit q := by
    rw [toDouble, sub_mul, div_mul_cancel₀ q hpos.ne']
  rw [hsplit, abs_mul, abs_of_pos hpos]
  calc |(roundHalfEven (q / lastBit q) : ℚ) - q / lastBit q| * lastBit q
      ≤ 1 / 2 * lastBit q := mul_le_mul_of_nonneg_right herror hpos.le
    _ = lastBit q / 2 := by ring

/-- The last bit is worth `2^-1074`, or at most `2^-52` of the number. -/
theorem lastBit_le {q : ℚ} (hq : q ≠ 0) : lastBit q ≤ max (|q| / 2 ^ 52) (1 / 2 ^ 1074) := by
  rw [lastBit]
  rcases max_cases (Int.log 2 |q| - 52) (-1074) with ⟨hmax, _⟩ | ⟨hmax, _⟩
  · rw [hmax]
    refine le_max_of_le_left ?_
    rw [zpow_sub₀ (by norm_num)]
    have hlog := Int.zpow_log_le_self (b := 2) (by norm_num) (abs_pos.mpr hq)
    exact div_le_div_of_nonneg_right (by exact_mod_cast hlog) (by positivity)
  · rw [hmax]
    refine le_max_of_le_right ?_
    norm_num [zpow_neg]

@[simp] theorem toDouble_zero : toDouble 0 = 0 := by
  have hzero : roundHalfEven 0 = 0 := roundHalfEven_intCast 0
  rw [toDouble, zero_div, hzero]
  simp

/-- The error of a double. -/
theorem abs_toDouble_sub_le (q : ℚ) :
    |toDouble q - q| ≤ max (|q| / 2 ^ 53) (1 / 2 ^ 1075) := by
  by_cases hq : q = 0
  · rw [hq, toDouble_zero]
    simp
  · refine (abs_toDouble_sub_le_half q).trans ?_
    calc lastBit q / 2 ≤ max (|q| / 2 ^ 52) (1 / 2 ^ 1074) / 2 :=
          div_le_div_of_nonneg_right (lastBit_le hq) (by norm_num)
      _ = max (|q| / 2 ^ 52 / 2) (1 / 2 ^ 1074 / 2) := (max_div_div_right (by norm_num) _ _).symm
      _ = max (|q| / 2 ^ 53) (1 / 2 ^ 1075) := by
          rw [div_div, div_div, ← pow_succ, ← pow_succ]

/-- In the range of normal numbers it is relative. -/
theorem abs_toDouble_sub_le_of_normal {q : ℚ} (h : 1 / 2 ^ 1022 ≤ |q|) :
    |toDouble q - q| ≤ |q| / 2 ^ 53 := by
  refine (abs_toDouble_sub_le q).trans_eq (max_eq_left ?_)
  calc (1 : ℚ) / 2 ^ 1075 = 1 / 2 ^ 1022 / 2 ^ 53 := by rw [div_div, ← pow_add]
    _ ≤ |q| / 2 ^ 53 := div_le_div_of_nonneg_right h (by positivity)

/-! ## Multiples of the least double -/

/-- A double is a multiple of the least one. -/
theorem exists_toDouble_eq (q : ℚ) : ∃ n : ℤ, toDouble q = n / 2 ^ 1074 := by
  obtain ⟨k, hk⟩ : ∃ k : ℕ, max (Int.log 2 |q| - 52) (-1074) = k - 1074 :=
    ⟨(max (Int.log 2 |q| - 52) (-1074) + 1074).toNat, by omega⟩
  refine ⟨roundHalfEven (q / lastBit q) * 2 ^ k, ?_⟩
  rw [toDouble]
  nth_rewrite 2 [lastBit]
  rw [hk, zpow_sub₀ (by norm_num), Int.cast_mul, Int.cast_pow, Int.cast_ofNat, mul_div_assoc,
    zpow_natCast, zpow_ofNat]

/-- A small multiple of the least double is a double. -/
theorem toDouble_eq_self {q : ℚ} {n : ℤ} (hq : q = n / 2 ^ 1074) (hlt : |q| < 1 / 2 ^ 1022) :
    toDouble q = q := by
  by_cases h0 : q = 0
  · rw [h0, toDouble_zero]
  · have hlog : Int.log 2 |q| < -1022 := by
      have hle := Int.zpow_log_le_self (b := 2) (by norm_num) (abs_pos.mpr h0)
      have hpow : ((2 : ℕ) : ℚ) ^ Int.log 2 |q| < ((2 : ℕ) : ℚ) ^ (-1022 : ℤ) := by
        refine hle.trans_lt (hlt.trans_eq ?_)
        norm_num [zpow_neg]
      exact (zpow_lt_zpow_iff_right₀ (by norm_num)).mp hpow
    have hbit : lastBit q = 1 / 2 ^ 1074 := by
      rw [lastBit, max_eq_right (by omega)]
      norm_num [zpow_neg]
    have hquotient : q / lastBit q = n := by
      rw [hbit, hq]
      field_simp
    rw [toDouble, hquotient, roundHalfEven_intCast, hbit, hq, mul_one_div]

/-- Such a multiple loses at most a small part of itself. -/
theorem le_toDouble {q : ℚ} {n : ℤ} (hq : q = n / 2 ^ 1074) (h0 : 0 ≤ q) :
    q * (1 - 1 / 2 ^ 53) ≤ toDouble q := by
  rcases lt_or_ge |q| (1 / 2 ^ 1022) with hlt | hge
  · rw [toDouble_eq_self hq hlt]
    exact mul_le_of_le_one_right h0 (by norm_num)
  · have herror := (abs_le.mp (abs_toDouble_sub_le_of_normal hge)).1
    rw [abs_of_nonneg h0] at herror
    linarith

/-! ## Signs -/

/-- Rounding does not change the sign. -/
theorem toDouble_nonpos {q : ℚ} (h : q ≤ 0) : toDouble q ≤ 0 := by
  have hzero : roundHalfEven 0 = 0 := roundHalfEven_intCast 0
  have hround : roundHalfEven (q / lastBit q) ≤ 0 :=
    hzero ▸ roundHalfEven_mono (div_nonpos_of_nonpos_of_nonneg h (lastBit_pos q).le)
  exact mul_nonpos_of_nonpos_of_nonneg (by exact_mod_cast hround) (lastBit_pos q).le

theorem toDouble_nonneg {q : ℚ} (h : 0 ≤ q) : 0 ≤ toDouble q := by
  have hzero : roundHalfEven 0 = 0 := roundHalfEven_intCast 0
  have hround : 0 ≤ roundHalfEven (q / lastBit q) :=
    hzero ▸ roundHalfEven_mono (div_nonneg h (lastBit_pos q).le)
  exact mul_nonneg (by exact_mod_cast hround) (lastBit_pos q).le

/-! ## Bounds -/

/-- The error, as a sum. -/
theorem abs_toDouble_sub_le_add (q : ℚ) : |toDouble q - q| ≤ |q| / 2 ^ 53 + 1 / 2 ^ 100 := by
  refine (abs_toDouble_sub_le q).trans (max_le ?_ ?_)
  · exact le_add_of_nonneg_right (by positivity)
  · refine le_add_of_nonneg_of_le (by positivity) ?_
    exact one_div_le_one_div_of_le (by positivity) (pow_le_pow_right₀ (by norm_num) (by norm_num))

/-- What is at most `c` stays there, but for the error. -/
theorem toDouble_le_of_le {q c : ℚ} (h : q ≤ c) (hc : 0 ≤ c) :
    toDouble q ≤ c * (1 + 1 / 2 ^ 53) + 1 / 2 ^ 100 := by
  rcases le_total q 0 with hq | hq
  · exact (toDouble_nonpos hq).trans (by positivity)
  · have herror := (abs_le.mp (abs_toDouble_sub_le_add q)).2
    rw [abs_of_nonneg hq] at herror
    linarith

/-- What is at least `c` stays there, but for the error. -/
theorem le_toDouble_of_le {q c : ℚ} (h : c ≤ q) (hc : 0 ≤ c) :
    c * (1 - 1 / 2 ^ 53) - 1 / 2 ^ 100 ≤ toDouble q := by
  have herror := (abs_le.mp (abs_toDouble_sub_le_add q)).1
  rw [abs_of_nonneg (hc.trans h)] at herror
  linarith

/-- A number of at most `2^100` is in range. -/
theorem double_finite_of_abs_le {q : ℚ} (h : |q| ≤ 2 ^ 100) :
    Float.double (.finite q) = .finite (toDouble q) := by
  have hrange : |toDouble q| < 2 ^ 1024 := by
    have hsum : |toDouble q| ≤ |toDouble q - q| + |q| := by
      simpa using abs_add_le (toDouble q - q) q
    have herror := abs_toDouble_sub_le_add q
    calc |toDouble q| ≤ 2 ^ 100 / 2 ^ 53 + 1 / 2 ^ 100 + 2 ^ 100 := by linarith
      _ < 2 ^ 101 := by norm_num
      _ ≤ 2 ^ 1024 := pow_le_pow_right₀ (by norm_num) (by norm_num)
  exact if_pos hrange

theorem abs_toDouble_le {q c : ℚ} (h : |q| ≤ c) (hc : 1 ≤ c) : |toDouble q| ≤ 2 * c := by
  have hsum : |toDouble q| ≤ |toDouble q - q| + |q| := by
    simpa using abs_add_le (toDouble q - q) q
  have herror := abs_toDouble_sub_le_add q
  linarith

/-- The double next to a number of moderate size is less than a thousandth away. -/
theorem double_of_abs_le {q : ℚ} (h : |q| ≤ 2 ^ 43 + 1) :
    Float.double (.finite q) = .finite (toDouble q) ∧ |toDouble q - q| ≤ 1 / 1000 := by
  have herror := abs_toDouble_sub_le_add q
  exact ⟨double_finite_of_abs_le (by linarith), by linarith⟩

end KernelTests.Python
