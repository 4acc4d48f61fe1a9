import KernelTests.Json.Value
import KernelTests.Json.Number

/-!
# Printing

`cJSON_PrintUnformatted`.  Its failure branches (an allocation fails, or the text
reaches 2 GiB) are not part of the model.
-/

namespace KernelTests.Json

variable {ν : Type} [CNumber ν]

/-! ## Strings -/

/-- A hexadecimal digit of `%x`. -/
def hexDigit (n : ℕ) : UInt8 := if n < 10 then UInt8.ofNat (48 + n) else UInt8.ofNat (87 + n)

/-- The letter of a two-character escape sequence. -/
def escapeLetter (c : UInt8) : Option UInt8 :=
  if c = 92 then some 92
  else if c = 34 then some 34
  else if c = 8 then some 98
  else if c = 12 then some 102
  else if c = 10 then some 110
  else if c = 13 then some 114
  else if c = 9 then some 116
  else none

/-- One character of a string, escaped: `"`, `\` and the control characters. -/
def escapeByte (c : UInt8) : Bytes :=
  if 31 < c ∧ c ≠ 34 ∧ c ≠ 92 then [c]
  else match escapeLetter c with
    | some e => [92, e]
    | none => [92, 117, 48, 48, hexDigit (c.toNat / 16), hexDigit (c.toNat % 16)]

/-- The characters between the quotes. -/
def escape (s : Bytes) : Bytes := s.flatMap escapeByte

/-- `print_string_ptr` -/
def printString (s : CString) : Bytes := 34 :: escape s.bytes ++ [34]

/-! ## Values -/

mutual

/-- `print_value` -/
def print : Json ν → Bytes
  | .null => ascii "null"
  | .bool false => ascii "false"
  | .bool true => ascii "true"
  | .number d => CNumber.text d
  | .string s => printString s
  | .array [] => [91, 93]
  | .array (v :: vs) => 91 :: (print v ++ (printItems vs ++ [93]))
  | .object [] => [123, 125]
  | .object ((k, v) :: ms) =>
      123 :: (printString k ++ 58 :: (print v ++ (printMembers ms ++ [125])))

/-- The elements of an array behind the first one. -/
def printItems : List (Json ν) → Bytes
  | [] => []
  | v :: vs => 44 :: (print v ++ printItems vs)

/-- The members of an object behind the first one. -/
def printMembers : List (CString × Json ν) → Bytes
  | [] => []
  | (k, v) :: ms => 44 :: (printString k ++ 58 :: (print v ++ printMembers ms))

end

/-- `cJSON_PrintUnformatted` -/
def printUnformatted (v : Json ν) : CString := .ofBytes v.print

end KernelTests.Json
