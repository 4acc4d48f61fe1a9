import KernelTests.Text.Words
import Mathlib.Algebra.GroupWithZero.Nat
import Mathlib.Algebra.Ring.Int.Defs
import Mathlib.Data.List.TakeWhile

/-!
# C strings

Both programs handle text as NUL-terminated byte arrays.  `CString` is the value
such a pointer denotes: the bytes in front of the terminator, none of which is
NUL.  Everything `strlen`, `strcmp`, `printf("%s")` and `cJSON` can see of a
buffer is its `CString.ofBytes`.

The functions keep their libc names.  Sizes are natural numbers: no statement of
this development depends on a text of `2^62` bytes or more.
-/

namespace KernelTests

/-- A raw byte buffer. -/
abbrev Bytes := List UInt8

/-- A quantifier over a buffer is decided by going through the buffer, not through all bytes. -/
instance (priority := 1100) (p : UInt8 → Prop) [DecidablePred p] (b : Bytes) :
    Decidable (∀ c ∈ b, p c) := List.decidableBAll p b

/-- The bytes of an ASCII literal. -/
def ascii (s : String) : Bytes := s.toList.map fun c ↦ UInt8.ofNat c.toNat

/-- The value of a `char *`: the bytes in front of the terminating NUL. -/
@[ext]
structure CString where
  /-- The bytes, without the terminator. -/
  bytes : Bytes
  /-- The terminator is the first NUL. -/
  noNul : 0 ∉ bytes
deriving DecidableEq

namespace CString

/-- What a pointer to the start of a buffer denotes: everything up to the first NUL. -/
def ofBytes (b : Bytes) : CString where
  bytes := b.takeWhile (· ≠ 0)
  noNul h := by simpa using List.mem_takeWhile_imp h

/-- A string literal. -/
def lit (s : String) : CString := ofBytes (ascii s)

/-- Concatenation, as `strcat` or two `sb_append` calls build it. -/
instance : Append CString where
  append a b := ⟨a.bytes ++ b.bytes, by simp [a.noNul, b.noNul]⟩

/-- `strlen` -/
def strlen (s : CString) : ℕ := s.bytes.length

@[simp] theorem bytes_append (a b : CString) : (a ++ b).bytes = a.bytes ++ b.bytes := rfl

@[simp] theorem bytes_lit (s : String) : (lit s).bytes = (ascii s).takeWhile (· ≠ 0) := rfl

/-- A buffer without NUL is read to its end. -/
theorem bytes_ofBytes {b : Bytes} (h : 0 ∉ b) : (ofBytes b).bytes = b := by
  rw [ofBytes, List.takeWhile_eq_self_iff]
  intro c hc
  simpa using fun h0 : c = 0 ↦ h (h0 ▸ hc)

@[simp] theorem ofBytes_bytes (s : CString) : ofBytes s.bytes = s :=
  CString.ext (bytes_ofBytes s.noNul)

end CString

/-! ## Searching and comparing -/

/-- `tolower` in the C locale -/
def tolower (c : UInt8) : UInt8 := if 65 ≤ c ∧ c ≤ 90 then c + 32 else c

/-- `strncmp(s, w, strlen(w)) == 0` -/
def hasPrefix (w s : CString) : Bool := w.bytes <+: s.bytes

/-- `strcasestr(s, w) != NULL` -/
def strcasestr (s w : CString) : Bool := w.bytes.map tolower <:+: s.bytes.map tolower

/-! ## Decimal conversion -/

/-- `%d` and `%zu` of a non-negative value -/
def decimalNat (n : ℕ) : Bytes := (Nat.toDigits 10 n).map fun c ↦ UInt8.ofNat c.toNat

/-- `%d` -/
def decimal : ℤ → Bytes
  | .ofNat n => decimalNat n
  | .negSucc n => 45 :: decimalNat (n + 1)

/-- The bytes `0` to `9`. -/
def isDigit (c : UInt8) : Bool := 48 ≤ c ∧ c ≤ 57

theorem isDigit_of_mem_decimalNat {n : ℕ} {c : UInt8} (h : c ∈ decimalNat n) : isDigit c := by
  obtain ⟨d, hd, rfl⟩ := List.mem_map.mp h
  have hdig : d.isDigit := Nat.isDigit_of_mem_toDigits (by decide) (by decide) hd
  have hn : 48 ≤ d.toNat ∧ d.toNat ≤ 57 := by
    simp only [Char.isDigit, Bool.and_eq_true, decide_eq_true_eq] at hdig
    exact ⟨UInt32.le_iff_toNat_le.mp hdig.1, UInt32.le_iff_toNat_le.mp hdig.2⟩
  have hmod : d.toNat % 256 = d.toNat := by omega
  simp only [isDigit, decide_eq_true_eq, UInt8.le_iff_toNat_le, UInt8.toNat_ofNat', hmod]
  exact hn

theorem decimalNat_ne_nil (n : ℕ) : decimalNat n ≠ [] := by
  simp [decimalNat, Nat.toDigits_ne_nil]

/-- A printed number consists of digits, after at most one sign. -/
theorem mem_decimal {z : ℤ} {c : UInt8} (h : c ∈ decimal z) : c = 45 ∨ isDigit c := by
  cases z with
  | ofNat n => exact Or.inr (isDigit_of_mem_decimalNat h)
  | negSucc n =>
      rcases List.mem_cons.mp h with rfl | h
      · exact Or.inl rfl
      · exact Or.inr (isDigit_of_mem_decimalNat h)

end KernelTests
