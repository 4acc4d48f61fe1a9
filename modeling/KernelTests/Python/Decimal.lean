import KernelTests.Python.Text

/-!
# Printed integers

`intText` is how the shell prints an integer; `int` reads a printed natural number
back, unless it is longer than Python admits.
-/

namespace KernelTests.Python

/-- The decimal text of an integer. -/
def intText : ℤ → Str
  | .ofNat n => Nat.toDigits 10 n
  | .negSucc n => '-' :: Nat.toDigits 10 (n + 1)

theorem intText_natCast (n : ℕ) : intText n = Nat.toDigits 10 n := rfl

/-- A printed number is not empty. -/
theorem toDigits_ne_nil (n : ℕ) : Nat.toDigits 10 n ≠ [] := Nat.toDigits_ne_nil

theorem isDigit_of_mem_toDigits {n : ℕ} {c : Char} (h : c ∈ Nat.toDigits 10 n) : c.isDigit :=
  Nat.isDigit_of_mem_toDigits (by decide) (by decide) h

theorem toNat_of_isDigit {c : Char} (h : c.isDigit) : 48 ≤ c.toNat ∧ c.toNat ≤ 57 := by
  simp only [Char.isDigit, Bool.and_eq_true, decide_eq_true_eq] at h
  exact ⟨UInt32.le_iff_toNat_le.mp h.1, UInt32.le_iff_toNat_le.mp h.2⟩

theorem not_isSpace_of_isDigit {c : Char} (h : c.isDigit) : ¬ isSpace c := by
  have := toNat_of_isDigit h
  simp only [isSpace, decide_eq_true_eq, List.mem_cons, List.not_mem_nil, or_false]
  omega

/-- Text without white space has none to strip. -/
theorem strip_eq_self {s : Str} (h : ∀ c ∈ s, ¬ isSpace c) : strip s = s := by
  have hdrop : ∀ {t : Str}, (∀ c ∈ t, ¬ isSpace c) → t.dropWhile isSpace = t := by
    intro t ht
    cases t with
    | nil => rfl
    | cons c t => exact List.dropWhile_cons_of_neg (ht c List.mem_cons_self)
  rw [strip, hdrop h, hdrop fun c hc ↦ h c (List.mem_reverse.mp hc), List.reverse_reverse]

variable [Unicode]

theorem decimal_of_isDigit {c : Char} (h : c.isDigit) : Unicode.decimal c = some (c.toNat - 48) := by
  have := toNat_of_isDigit h
  rw [Unicode.decimal_ascii c (by omega), if_pos h]

theorem isDecimal_of_isDigit {c : Char} (h : c.isDigit) : isDecimal c := by
  rw [isDecimal, decimal_of_isDigit h]
  rfl

theorem digits_of_isDigit {s : Str} (hne : s ≠ []) (h : ∀ c ∈ s, c.isDigit) :
    digits s = some (s.map fun c ↦ c.toNat - 48) := by
  induction s using digits.induct with
  | case1 => exact absurd rfl hne
  | case2 c => rw [digits, decimal_of_isDigit (h c List.mem_cons_self)]; rfl
  | case3 c s _ => exact absurd (h '_' (by simp)) (by decide)
  | case4 c s hs _ ih =>
      rw [digits, decimal_of_isDigit (h c List.mem_cons_self),
        ih hs fun d hd ↦ h d (List.mem_cons_of_mem c hd)]
      · rfl
      · exact hs
      · assumption

omit [Unicode] in
theorem value_map (s : Str) : value (s.map fun c ↦ c.toNat - 48) = Nat.ofDigitChars 10 s 0 := by
  rw [value, Nat.ofDigitChars_eq_foldl, List.foldl_map]
  rfl

/-- A printed natural number is read back. -/
theorem toInt_toDigits {n : ℕ} (h : (Nat.toDigits 10 n).length ≤ 4300) :
    toInt (Nat.toDigits 10 n) = some (n : ℤ) := by
  have hdigit : ∀ c ∈ Nat.toDigits 10 n, c.isDigit := fun c ↦ isDigit_of_mem_toDigits
  have hsign : sign (Nat.toDigits 10 n) = (false, Nat.toDigits 10 n) := by
    cases hd : Nat.toDigits 10 n with
    | nil => rfl
    | cons c s =>
        have hc : c.isDigit := hdigit c (hd ▸ List.mem_cons_self)
        rw [sign]
        · intro _ he
          cases he
          cases hc
        · intro _ he
          cases he
          cases hc
  rw [toInt, strip_eq_self fun c hc ↦ not_isSpace_of_isDigit (hdigit c hc), hsign]
  simp [digits_of_isDigit Nat.toDigits_ne_nil hdigit, h, value_map,
    Nat.ofDigitChars_ten_toDigits]

end KernelTests.Python
