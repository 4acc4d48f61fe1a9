import KernelTests.Python.Decimal
import Mathlib.Tactic.IntervalCases

/-!
# The clock of the script

`run_test` keeps its two readings of the clock as texts, the output of
`date +%s%3N`, and subtracts them in the arithmetic of the shell.  A constant with a
leading zero is octal there, so that a reading below one second is taken for another
number, or is an error.
-/

namespace KernelTests.CAgent.Judge

open Python

/-! ## The texts -/

/-- Three digits. -/
def threeDigits (n : ℕ) : Str :=
  [(n / 100).digitChar, (n / 10 % 10).digitChar, (n % 10).digitChar]

/-- `date +%s%3N`, at a reading in milliseconds: whole seconds, and the three digits of the
rest. -/
def dateText (reading : ℤ) : Str :=
  intText (reading / 1000) ++ threeDigits (reading % 1000).toNat

/-- A constant of an arithmetic expression, by its digits. -/
def constant : Str → Option ℕ
  | '0' :: ds => if ds.all (·.toNat < 56) then some (Nat.ofDigitChars 8 ds 0) else none
  | ds => some (Nat.ofDigitChars 10 ds 0)

/-- The value of a variable in an arithmetic expression. -/
def variableValue : Str → Option ℤ
  | '-' :: ds => (constant ds).map fun n : ℕ ↦ -(n : ℤ)
  | ds => (constant ds).map fun n : ℕ ↦ (n : ℤ)

/-- `duration=$((end_time - start_time))`, in 64-bit arithmetic. -/
def duration (startTime endTime : Str) : Option ℤ := do
  let e ← variableValue endTime
  let s ← variableValue startTime
  return Int.bmod (e - s) (2 ^ 64)

/-! ## What the shell takes a reading for -/

/-- The value of the text of a reading.  The digits behind a zero are octal, and the milliseconds
before the epoch are counted upwards from a whole second. -/
def shellReading (reading : ℤ) : Option ℤ :=
  if 1000 ≤ reading then some reading
  else if 0 ≤ reading then
    if reading / 100 < 8 ∧ reading / 10 % 10 < 8 ∧ reading % 10 < 8 then
      some (64 * (reading / 100) + 8 * (reading / 10 % 10) + reading % 10)
    else none
  else some (1000 * (reading / 1000) - reading % 1000)

theorem shellReading_of_le {reading : ℤ} (h : 1000 ≤ reading) :
    shellReading reading = some reading := if_pos h

theorem ofDigitChars_threeDigits {n : ℕ} (h : n < 1000) (m : ℕ) :
    Nat.ofDigitChars 10 (threeDigits n) m = 1000 * m + n := by
  rw [threeDigits, Nat.ofDigitChars_cons_digitChar_of_lt_ten (by omega),
    Nat.ofDigitChars_cons_digitChar_of_lt_ten (by omega),
    Nat.ofDigitChars_cons_digitChar_of_lt_ten (by omega), Nat.ofDigitChars_nil]
  omega

/-- The first digit of a positive number. -/
theorem exists_toDigits_eq_cons {n : ℕ} (h : 0 < n) :
    ∃ d ds, Nat.toDigits 10 n = d :: ds ∧ d ≠ '0' ∧ d ≠ '-' := by
  induction n using Nat.strongRecOn with
  | ind n ih =>
      rcases Nat.lt_or_ge n 10 with hn | hn
      · refine ⟨n.digitChar, [], Nat.toDigits_of_lt_base hn, ?_⟩
        interval_cases n <;> decide
      · obtain ⟨d, ds, hds, hd⟩ := ih (n / 10) (by omega) (by omega)
        refine ⟨d, ds ++ [(n % 10).digitChar], ?_, hd⟩
        rw [Nat.toDigits_of_base_le (by decide) hn, hds, List.cons_append]

theorem constant_cons {d : Char} (h : d ≠ '0') (ds : Str) :
    constant (d :: ds) = some (Nat.ofDigitChars 10 (d :: ds) 0) := by
  rw [constant]
  rintro ds' ⟨⟩
  exact h rfl

theorem variableValue_cons {d : Char} (h : d ≠ '-') (ds : Str) :
    variableValue (d :: ds) = (constant (d :: ds)).map fun n : ℕ ↦ (n : ℤ) := by
  rw [variableValue]
  rintro ds' ⟨⟩
  exact h rfl

/-- A constant that does not begin with a zero is decimal. -/
theorem constant_append_threeDigits {n : ℕ} (hn : 0 < n) {m : ℕ} (hm : m < 1000) :
    constant (Nat.toDigits 10 n ++ threeDigits m) = some (1000 * n + m) := by
  obtain ⟨d, ds, hds, hd, _⟩ := exists_toDigits_eq_cons hn
  have hvalue : Nat.ofDigitChars 10 (Nat.toDigits 10 n ++ threeDigits m) 0 = 1000 * n + m := by
    rw [Nat.ofDigitChars_append, Nat.ofDigitChars_ten_toDigits, ofDigitChars_threeDigits hm]
  rw [hds, List.cons_append] at hvalue ⊢
  rw [constant_cons hd, hvalue]

theorem toNat_digitChar_lt_iff {n : ℕ} (h : n < 10) : n.digitChar.toNat < 56 ↔ n < 8 := by
  interval_cases n <;> decide

/-- Below one second the constant is octal. -/
theorem constant_zero_cons {m : ℕ} (hm : m < 1000) :
    constant ('0' :: threeDigits m) =
      if m / 100 < 8 ∧ m / 10 % 10 < 8 ∧ m % 10 < 8 then
        some (64 * (m / 100) + 8 * (m / 10 % 10) + m % 10)
      else none := by
  have hvalue : Nat.ofDigitChars 8 (threeDigits m) 0 =
      64 * (m / 100) + 8 * (m / 10 % 10) + m % 10 := by
    rw [threeDigits, Nat.ofDigitChars_cons_digitChar_of_lt_ten (by omega),
      Nat.ofDigitChars_cons_digitChar_of_lt_ten (by omega),
      Nat.ofDigitChars_cons_digitChar_of_lt_ten (by omega), Nat.ofDigitChars_nil]
    omega
  have hoctal : (threeDigits m).all (·.toNat < 56) ↔
      m / 100 < 8 ∧ m / 10 % 10 < 8 ∧ m % 10 < 8 := by
    simp only [threeDigits, List.all_cons, List.all_nil, Bool.and_true, Bool.and_eq_true,
      decide_eq_true_eq]
    rw [toNat_digitChar_lt_iff (by omega), toNat_digitChar_lt_iff (by omega),
      toNat_digitChar_lt_iff (by omega)]
  rw [constant, hvalue]
  simp only [hoctal]

/-- **The readings as the shell sees them.** -/
theorem variableValue_dateText (reading : ℤ) :
    variableValue (dateText reading) = shellReading reading := by
  obtain ⟨m, hm⟩ : ∃ m : ℕ, reading % 1000 = m :=
    ⟨(reading % 1000).toNat, (Int.toNat_of_nonneg (Int.emod_nonneg _ (by decide))).symm⟩
  have hlt : m < 1000 := by omega
  have hrest : (reading % 1000).toNat = m := by omega
  rw [dateText, hrest]
  rcases lt_trichotomy (reading / 1000) 0 with hs | hs | hs
  · obtain ⟨n, hn⟩ := Int.eq_negSucc_of_lt_zero hs
    have hreading : reading = 1000 * Int.negSucc n + m := by omega
    rw [hn, intText, List.cons_append, variableValue, constant_append_threeDigits (by omega) hlt,
      Option.map_some, shellReading, if_neg (by omega), if_neg (by omega), hm, hn]
    rw [Option.some.injEq]
    omega
  · obtain rfl : reading = m := by omega
    rw [hs, shellReading, if_neg (by omega), if_pos (by omega)]
    change variableValue ('0' :: threeDigits m) = _
    rw [variableValue_cons (by decide), constant_zero_cons hlt]
    by_cases hoctal : m / 100 < 8 ∧ m / 10 % 10 < 8 ∧ m % 10 < 8
    · rw [if_pos hoctal, if_pos (by omega), Option.map_some]
      push_cast
      rfl
    · rw [if_neg hoctal, if_neg (by omega), Option.map_none]
  · obtain ⟨n, hn⟩ := Int.eq_ofNat_of_zero_le hs.le
    obtain ⟨d, ds, hds, _, hd⟩ := exists_toDigits_eq_cons (show 0 < n by omega)
    have hvalue := constant_append_threeDigits (show 0 < n by omega) hlt
    rw [hn, intText_natCast, shellReading_of_le (by omega)]
    rw [hds, List.cons_append] at hvalue ⊢
    rw [variableValue_cons hd, hvalue, Option.map_some, Option.some.injEq]
    omega

example : dateText 8 = lit "0008" ∧ shellReading 8 = none := by decide
example : dateText (-5) = lit "-1995" ∧ shellReading (-5) = some (-1995) := by decide

end KernelTests.CAgent.Judge
