import Mathlib.Data.List.Basic
import Mathlib.Data.List.TakeWhile
import Mathlib.Data.Rat.Floor

/-!
# Text in Python

Strings are lists of characters.  The judges use `split`, `int`, `float` and the
character classes of regular expressions; this file follows their documentation.
White space is the fixed list of `str.isspace`.  Letters and decimal digits beyond
ASCII come from the Unicode database the interpreter was built with, which is the
parameter `Unicode`.
-/

namespace KernelTests.Python

/-- `str` -/
abbrev Str := List Char

/-- Texts are compared by their characters. -/
instance : LawfulBEq Str := inferInstanceAs (LawfulBEq (List Char))

/-- A string literal. -/
def lit (s : String) : Str := s.toList

/-- `str.isspace` of one character, and `\s` -/
def isSpace (c : Char) : Bool :=
  c.toNat ∈ [9, 10, 11, 12, 13, 28, 29, 30, 31, 32, 133, 160, 5760, 8192, 8193, 8194, 8195, 8196,
    8197, 8198, 8199, 8200, 8201, 8202, 8232, 8233, 8239, 8287, 12288]

/-- A quantifier over a text is decided by going through the text, not through all characters. -/
instance (priority := 1100) (p : Char → Prop) [DecidablePred p] (s : Str) :
    Decidable (∀ c ∈ s, p c) := List.decidableBAll p s

/-- The Unicode database. -/
class Unicode where
  /-- `str.isalnum` of one character -/
  isAlnum : Char → Bool
  /-- The value of a decimal digit. -/
  decimal : Char → Option ℕ
  isAlnum_ascii : ∀ c, c.toNat < 128 → isAlnum c = c.isAlphanum
  decimal_ascii : ∀ c, c.toNat < 128 →
    decimal c = if c.isDigit then some (c.toNat - 48) else none
  decimal_of_isSpace : ∀ c, isSpace c → decimal c = none

/-- The database restricted to ASCII. -/
@[reducible]
def asciiOnly : Unicode where
  isAlnum c := c.isAlphanum
  decimal c := if c.isDigit then some (c.toNat - 48) else none
  isAlnum_ascii _ _ := rfl
  decimal_ascii _ _ := rfl
  decimal_of_isSpace c hc := by
    refine if_neg fun hd ↦ ?_
    rw [Char.isDigit, Bool.and_eq_true, decide_eq_true_eq, decide_eq_true_eq] at hd
    have hlo : 48 ≤ c.toNat := hd.1
    have hhi : c.toNat ≤ 57 := hd.2
    have hspace := of_decide_eq_true hc
    simp only [List.mem_cons, List.not_mem_nil, or_false] at hspace
    omega

variable [Unicode]

/-- `\d` -/
def isDecimal (c : Char) : Bool := (Unicode.decimal c).isSome

/-- `\w` -/
def isWord (c : Char) : Bool := Unicode.isAlnum c || c = '_'

/-! ## Splitting -/

omit [Unicode] in
/-- `str.strip` -/
def strip (s : Str) : Str := ((s.dropWhile isSpace).reverse.dropWhile isSpace).reverse

/-- `str.split` without arguments, in front of the word `w`. -/
def splitFrom : Str → Str → List Str
  | w, [] => if w = [] then [] else [w]
  | w, c :: s =>
    if isSpace c then (if w = [] then splitFrom [] s else w :: splitFrom [] s)
    else splitFrom (w ++ [c]) s

/-- `str.split` -/
def split (s : Str) : List Str := splitFrom [] s

/-- `str.split("=", 1)`; without the character the text is not split. -/
def splitEq (s : Str) : Option (Str × Str) :=
  if '=' ∈ s then some (s.takeWhile (· ≠ '='), (s.dropWhile (· ≠ '=')).tail) else none

/-! ## Numbers -/

/-- The digits of a number; single underscores may stand between them. -/
def digits : Str → Option (List ℕ)
  | [] => none
  | [c] => (Unicode.decimal c).map ([·])
  | c :: '_' :: s => do return (← Unicode.decimal c) :: (← digits s)
  | c :: s => do return (← Unicode.decimal c) :: (← digits s)

/-- The value of decimal digits. -/
def value (ds : List ℕ) : ℕ := ds.foldl (fun n d ↦ 10 * n + d) 0

/-- An optional sign. -/
def sign : Str → Bool × Str
  | '-' :: s => (true, s)
  | '+' :: s => (false, s)
  | s => (false, s)

/-- `int(s)`; a `ValueError` has no result.  Numbers of more than 4300 digits are refused. -/
def toInt (s : Str) : Option ℤ := do
  let (negative, t) := sign (strip s)
  let ds ← digits t
  if ds.length ≤ 4300 then
    return if negative then -(value ds : ℤ) else value ds
  else none

/-- Values of type `float`.  Finite values are exact. -/
inductive Float where
  | finite (q : ℚ)
  | inf (negative : Bool)
  | nan
deriving DecidableEq

/-- Digits, or nothing at all. -/
def digitsOrNil (s : Str) : Option (List ℕ) := if s = [] then some [] else digits s

/-- The mantissa of a number: digits on at least one side of the point. -/
def mantissa (s : Str) : Option ℚ := do
  let whole ← digitsOrNil (s.takeWhile (· ≠ '.'))
  let fraction ← digitsOrNil (s.dropWhile (· ≠ '.')).tail
  if whole ++ fraction = [] then none
  else return value (whole ++ fraction) / 10 ^ fraction.length

/-- The exponent behind a mantissa. -/
def exponent : Str → Option ℤ
  | [] => some 0
  | _ :: s => do
    let (negative, t) := sign s
    let ds ← digits t
    return if negative then -(value ds : ℤ) else value ds

/-- Lower case, for the names of special values. -/
def lower (s : Str) : Str := s.map Char.toLower

/-- `float(s)`; a `ValueError` has no result. -/
def toFloat (s : Str) : Option Float := do
  let (negative, t) := sign (strip s)
  if lower t = lit "inf" ∨ lower t = lit "infinity" then return .inf negative
  else if lower t = lit "nan" then return .nan
  else
    let isExponent := fun c : Char ↦ c = 'e' ∨ c = 'E'
    let m ← mantissa (t.takeWhile (¬ isExponent ·))
    let e ← exponent (t.dropWhile (¬ isExponent ·))
    let q := m * 10 ^ e
    return .finite (if negative then -q else q)

end KernelTests.Python
