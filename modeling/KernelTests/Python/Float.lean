import KernelTests.Python.Text
import KernelTests.Python.Round
import Mathlib.Algebra.Order.Field.Rat

/-!
# Arithmetic of floats

The operations the judge applies to a `float`, on exact finite values.  Comparisons
with `nan` are false, and `min` and `max` keep their first argument unless the second
one is strictly smaller or greater.
-/

namespace KernelTests.Python.Float

/-- `x < y` -/
def lt : Float → Float → Bool
  | .finite p, .finite q => p < q
  | .finite _, .inf negative => !negative
  | .inf negative, .finite _ => negative
  | .inf m, .inf n => m && !n
  | .nan, _ => false
  | _, .nan => false

/-- `min(x, y)` -/
def min (x y : Float) : Float := if lt y x then y else x

/-- `max(x, y)` -/
def max (x y : Float) : Float := if lt x y then y else x

/-- `q - x` -/
def subFrom (q : ℚ) : Float → Float
  | .finite p => .finite (q - p)
  | .inf negative => .inf !negative
  | .nan => .nan

/-- `x / q`, for a divisor that is not zero. -/
def div : Float → ℚ → Float
  | .finite p, q => .finite (p / q)
  | .inf negative, q => .inf (negative ^^ decide (q < 0))
  | .nan, _ => .nan

/-- `x - y` -/
def sub : Float → Float → Float
  | .finite p, .finite q => .finite (p - q)
  | .finite _, .inf negative => .inf !negative
  | .inf negative, .finite _ => .inf negative
  | .inf m, .inf n => if m = n then .nan else .inf m
  | .nan, _ => .nan
  | _, .nan => .nan

/-- `x / y`, for a divisor that is not zero. -/
def divide : Float → Float → Float
  | .finite p, .finite q => .finite (p / q)
  | .finite _, .inf _ => .finite 0
  | .inf negative, .finite q => .inf (negative ^^ decide (q < 0))
  | .inf _, .inf _ => .nan
  | .nan, _ => .nan
  | _, .nan => .nan

/-- `q * x`, for a factor that is positive. -/
def scale (q : ℚ) : Float → Float
  | .finite p => .finite (q * p)
  | .inf negative => .inf negative
  | .nan => .nan

/-- `round(x, n)` -/
def round (n : ℕ) : Float → Float
  | .finite p => .finite (Python.round n p)
  | .inf negative => .inf negative
  | .nan => .nan

/-- `max(0.0, min(1.0, x))` -/
def clamp (x : Float) : Float := max (.finite 0) (min (.finite 1) x)

theorem sub_finite (q : ℚ) (x : Float) : sub (.finite q) x = subFrom q x := by
  cases x <;> rfl

theorem divide_finite (x : Float) (q : ℚ) : divide x (.finite q) = div x q := by
  cases x <;> rfl

/-- Only finite numbers have a finite difference. -/
theorem sub_eq_finite {x y : Float} {r : ℚ} (h : sub x y = .finite r) :
    ∃ p q, x = .finite p ∧ y = .finite q ∧ p - q = r := by
  cases x <;> cases y <;> rw [sub] at h
  case finite.finite p q => exact ⟨p, q, rfl, rfl, Float.finite.inj h⟩
  case inf.inf => split at h <;> cases h
  all_goals cases h

theorem round_eq_finite {n : ℕ} {x : Float} {r : ℚ} (h : round n x = .finite r) :
    ∃ p, x = .finite p ∧ Python.round n p = r := by
  cases x <;> rw [round] at h
  case finite p => exact ⟨p, rfl, Float.finite.inj h⟩
  all_goals cases h

@[simp] theorem clamp_finite (q : ℚ) :
    clamp (.finite q) = .finite (Max.max 0 (Min.min 1 q)) := by
  rcases lt_or_ge q 1 with h | h
  · have hmin : min (.finite 1) (.finite q) = .finite q := if_pos (decide_eq_true h)
    rw [clamp, hmin, min_eq_right h.le]
    rcases lt_or_ge 0 q with h0 | h0
    · rw [max_eq_right h0.le]
      exact if_pos (decide_eq_true h0)
    · rw [max_eq_left h0]
      exact if_neg (by simpa [lt] using h0)
  · have hmin : min (.finite 1) (.finite q) = .finite 1 := if_neg (by simpa [lt] using h)
    rw [clamp, hmin, min_eq_left h, max_eq_right zero_le_one]
    exact if_pos (decide_eq_true (zero_lt_one (α := ℚ)))

/-- What is infinite or not a number is clamped as well, and only a negative infinity to zero. -/
@[simp] theorem clamp_inf (negative : Bool) :
    clamp (.inf negative) = .finite (if negative then 0 else 1) := by
  cases negative <;> decide

@[simp] theorem clamp_nan : clamp .nan = .finite 1 := by decide

end KernelTests.Python.Float
