import Mathlib.Data.Rat.Floor
import Mathlib.Algebra.Order.Round
import Mathlib.Tactic.Linarith
import Mathlib.Tactic.Positivity

/-!
# Rounding

`round(x, n)` rounds to `n` decimals, ties to even.  Over the rationals it is
monotone, keeps the decimals it can represent, and therefore stays within any
bounds that are representable.
-/

namespace KernelTests.Python

/-- The integer next to `q`, ties to even. -/
def roundHalfEven (q : ℚ) : ℤ :=
  let r := q - ⌊q⌋
  if r < 1 / 2 then ⌊q⌋
  else if 1 / 2 < r then ⌊q⌋ + 1
  else if ⌊q⌋ % 2 = 0 then ⌊q⌋ else ⌊q⌋ + 1

/-- `round(q, n)` -/
def round (n : ℕ) (q : ℚ) : ℚ := roundHalfEven (q * 10 ^ n) / 10 ^ n

theorem floor_le_roundHalfEven (q : ℚ) : ⌊q⌋ ≤ roundHalfEven q := by
  simp only [roundHalfEven]
  split_ifs <;> omega

theorem roundHalfEven_le (q : ℚ) : roundHalfEven q ≤ ⌊q⌋ + 1 := by
  simp only [roundHalfEven]
  split_ifs <;> omega

@[simp] theorem roundHalfEven_intCast (z : ℤ) : roundHalfEven z = z := by
  simp [roundHalfEven]

theorem roundHalfEven_mono {p q : ℚ} (h : p ≤ q) : roundHalfEven p ≤ roundHalfEven q := by
  rcases (Int.floor_le_floor h).lt_or_eq with hlt | heq
  · exact (roundHalfEven_le p).trans ((Int.add_one_le_iff.mpr hlt).trans (floor_le_roundHalfEven q))
  · simp only [roundHalfEven, heq]
    have hr : p - ⌊q⌋ ≤ q - ⌊q⌋ := by linarith
    split_ifs <;> first | omega | linarith

theorem abs_roundHalfEven_sub_le (q : ℚ) : |roundHalfEven q - q| ≤ 1 / 2 := by
  have hfloor := Int.floor_le q
  have hlt := Int.lt_floor_add_one q
  simp only [roundHalfEven]
  rw [abs_le]
  split_ifs <;> push_cast <;> constructor <;> linarith

/-- What is less than a half away from an integer is rounded to it. -/
theorem roundHalfEven_of_abs_lt {q : ℚ} {n : ℤ} (h : |q - n| < 1 / 2) : roundHalfEven q = n := by
  have hround := abs_le.mp (abs_roundHalfEven_sub_le q)
  have hn := abs_lt.mp h
  have hlo : (-1 : ℚ) < (roundHalfEven q - n : ℤ) := by
    push_cast
    linarith
  have hhi : ((roundHalfEven q - n : ℤ) : ℚ) < 1 := by
    push_cast
    linarith
  have hlo' : -1 < roundHalfEven q - n := by exact_mod_cast hlo
  have hhi' : roundHalfEven q - n < 1 := by exact_mod_cast hhi
  omega

theorem round_mono (n : ℕ) {p q : ℚ} (h : p ≤ q) : round n p ≤ round n q := by
  have hpow : (0 : ℚ) < 10 ^ n := by positivity
  refine div_le_div_of_nonneg_right ?_ hpow.le
  exact_mod_cast roundHalfEven_mono (mul_le_mul_of_nonneg_right h hpow.le)

/-- A number with `n` decimals is kept. -/
theorem round_of_mul_eq {n : ℕ} {q : ℚ} {z : ℤ} (h : q * 10 ^ n = z) : round n q = q := by
  have hpow : (10 : ℚ) ^ n ≠ 0 := by positivity
  rw [round, h, roundHalfEven_intCast, ← h, mul_div_assoc, div_self hpow, mul_one]

end KernelTests.Python
