import KernelTests.CString

/-!
# C doubles in JSON text

cJSON keeps numbers as C doubles, reads them with `strtod` and prints them with
`sprintf`.  Which characters `strtod` takes from a text is syntax and is spelled
out here; which double they denote, and which digits `sprintf` chooses for a
double, is left to the type `ν` of doubles.  `CNumber ν` records what the C
library documents about the two: a printed double is `null` (for NaN and the
infinities) or a literal that `strtod` reads to its end.
-/

namespace KernelTests

/-- The bytes `parse_number` copies into its scratch buffer. -/
def numberChar (c : UInt8) : Bool :=
  isDigit c || c = 43 || c = 45 || c = 101 || c = 69 || c = 46

/-- How many bytes of `t` a sign takes. -/
def signEnd (t : Bytes) : ℕ := if t.head? = some 43 ∨ t.head? = some 45 then 1 else 0

/-- How many bytes of `t` a run of digits takes. -/
def digitsEnd (t : Bytes) : ℕ := (t.takeWhile isDigit).length

/-- How many bytes of `t` an exponent takes: none unless a digit follows. -/
def exponentEnd (t : Bytes) : ℕ :=
  if t.head? = some 101 ∨ t.head? = some 69 then
    let sign := signEnd (t.drop 1)
    let digits := digitsEnd (t.drop (1 + sign))
    if digits = 0 then 0 else 1 + sign + digits
  else 0

/-- How many bytes of `t` a radix character and the digits behind it take. -/
def fractionEnd (t : Bytes) : ℕ := if t.head? = some 46 then 1 + digitsEnd (t.drop 1) else 0

/-- How many bytes `strtod` converts: the longest decimal literal at the front of
`t`, nothing if there is no digit to convert. -/
def strtodEnd (t : Bytes) : ℕ :=
  let sign := signEnd t
  let int := digitsEnd (t.drop sign)
  let frac := fractionEnd (t.drop (sign + int))
  if int = 0 ∧ frac ≤ 1 then 0
  else sign + int + frac + exponentEnd (t.drop (sign + int + frac))

/-- A decimal literal as `print_number` writes it. -/
structure NumberText (t : Bytes) : Prop where
  /-- Only characters `parse_number` copies. -/
  chars : ∀ c ∈ t, numberChar c
  /-- It starts the way `parse_value` recognises a number. -/
  head : ∃ c r, t = c :: r ∧ (c = 45 ∨ isDigit c)
  /-- `strtod` reads all of it. -/
  whole : strtodEnd t = t.length
  /-- It fits the number buffers. -/
  short : t.length ≤ 25

/-- The doubles of C, as far as cJSON uses them. -/
class CNumber (ν : Type) where
  /-- The conversion from `int`. -/
  ofInt : ℤ → ν
  /-- The value of a decimal literal. -/
  strtod : Bytes → ν
  /-- The text `print_number` produces. -/
  text : ν → Bytes
  text_spec : ∀ d, text d = ascii "null" ∨ NumberText (text d)

/-! ## Integers

The integers a C `int` holds are the doubles the two programs create themselves. -/

theorem numberChar_of_isDigit {c : UInt8} (h : isDigit c) : numberChar c := by
  simp [numberChar, h]

theorem digitsEnd_of_forall {t : Bytes} (h : ∀ c ∈ t, isDigit c) : digitsEnd t = t.length := by
  rw [digitsEnd, List.takeWhile_eq_self_iff.mpr h]

theorem signEnd_of_isDigit {c : UInt8} {t : Bytes} (h : isDigit c) : signEnd (c :: t) = 0 := by
  rw [signEnd, if_neg]
  simp only [isDigit, decide_eq_true_eq] at h
  simp only [List.head?_cons, Option.some.injEq]
  grind

theorem strtodEnd_digits {t : Bytes} (h : ∀ c ∈ t, isDigit c) : strtodEnd t = t.length := by
  cases t with
  | nil => rfl
  | cons c t =>
      have hs : signEnd (c :: t) = 0 := signEnd_of_isDigit (h c List.mem_cons_self)
      simp [strtodEnd, hs, digitsEnd_of_forall h, fractionEnd, exponentEnd]

theorem strtodEnd_neg_digits {t : Bytes} (hne : t ≠ []) (h : ∀ c ∈ t, isDigit c) :
    strtodEnd (45 :: t) = t.length + 1 := by
  have hs : signEnd (45 :: t) = 1 := rfl
  have hl : t.length ≠ 0 := by simpa using hne
  simp [strtodEnd, hs, digitsEnd_of_forall h, fractionEnd, exponentEnd, Nat.add_comm 1, hl]

/-- `valueint`: conversion to `int`, with cJSON's saturation. -/
def saturate (z : ℤ) : ℤ := max (-2147483648) (min z 2147483647)

theorem length_decimalNat_le {n k : ℕ} (hk : 0 < k) (h : n < 10 ^ k) :
    (decimalNat n).length ≤ k := by
  rw [decimalNat, List.length_map]
  exact (Nat.length_toDigits_le_iff (by decide) hk).mpr h

theorem numberText_decimal {z : ℤ} (h : z.natAbs < 10 ^ 10) : NumberText (decimal z) := by
  have hdig : ∀ n, ∀ c ∈ decimalNat n, isDigit c := fun n c ↦ isDigit_of_mem_decimalNat
  cases z with
  | ofNat n =>
      obtain ⟨c, r, hc⟩ := List.exists_cons_of_ne_nil (decimalNat_ne_nil n)
      exact
        { chars := fun c hc ↦ numberChar_of_isDigit (hdig n c hc)
          head := ⟨c, r, hc, Or.inr (hdig n c (hc ▸ List.mem_cons_self))⟩
          whole := strtodEnd_digits (hdig n)
          short := (length_decimalNat_le (by decide) h).trans (by decide) }
  | negSucc n =>
      exact
        { chars := by
            intro c hc
            rcases List.mem_cons.mp hc with rfl | hc
            · decide
            · exact numberChar_of_isDigit (hdig (n + 1) c hc)
          head := ⟨45, decimalNat (n + 1), rfl, Or.inl rfl⟩
          whole := strtodEnd_neg_digits (decimalNat_ne_nil _) (hdig (n + 1))
          short := by
            have hlen : (decimalNat (n + 1)).length ≤ 10 := length_decimalNat_le (by decide) h
            simp only [decimal, List.length_cons]
            omega }

/-- The `int` values, which cJSON prints with `%d`. -/
instance : CNumber ℤ where
  ofInt := saturate
  strtod t :=
    let digits (t : Bytes) : ℤ :=
      (t.takeWhile isDigit).foldl (fun z c ↦ 10 * z + (c.toNat - 48 : ℤ)) 0
    saturate (if t.head? = some 45 then -digits (t.drop 1) else digits t)
  text z := decimal (saturate z)
  text_spec z := Or.inr (numberText_decimal (by simp only [saturate]; omega))

end KernelTests
