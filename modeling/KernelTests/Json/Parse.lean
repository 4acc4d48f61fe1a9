import KernelTests.Json.Value
import KernelTests.Json.Number

/-!
# Parsing

`cJSON_Parse`.  The parse buffer is the text that is left to read, so the read
position at the terminating NUL is the empty list.  The recursion of
`parse_value` is bounded by `CJSON_NESTING_LIMIT`: `parseValue n` parses with `n`
levels of nesting left.  The loops over array elements and object members carry
fuel; the length of the text is always enough (`parseElements_fuel`,
`parseMembers_fuel`).

What cJSON accepts beyond standard JSON is kept: control characters inside
strings, `\u` with arbitrary letters behind it, sloppy numbers, and any text
behind the first value.  A malformed `\u` swallows the four characters behind it; when
the last of them is the first half of `\\` at the very end of a literal, the second half
is left alone and reads the closing quote as its letter.
-/

namespace KernelTests.Json

variable {ν : Type} [CNumber ν]

/-- `CJSON_NESTING_LIMIT` -/
def nestingLimit : ℕ := 1000

/-- `buffer_skip_whitespace`: everything up to the space character is whitespace. -/
def skipWs (s : Bytes) : Bytes := s.dropWhile (· ≤ 32)

@[simp] theorem skipWs_nil : skipWs [] = [] := rfl

/-! ## Strings -/

/-- The first loop of `parse_string`: the characters up to the closing quote, and
what stands behind it.  The character behind a backslash never closes the string. -/
def scanString : Bytes → Option (Bytes × Bytes)
  | [] => none
  | c :: s =>
    if c = 34 then some ([], s)
    else if c = 92 then
      match s with
      | [] => none
      | d :: s => (scanString s).map fun p ↦ (c :: d :: p.1, p.2)
    else (scanString s).map fun p ↦ (c :: p.1, p.2)

@[simp] theorem scanString_nil : scanString [] = none := rfl

@[simp] theorem scanString_quote (s : Bytes) : scanString (34 :: s) = some ([], s) := by
  rw [scanString.eq_def]
  simp

@[simp] theorem scanString_backslash (d : UInt8) (s : Bytes) :
    scanString (92 :: d :: s) = (scanString s).map fun p ↦ (92 :: d :: p.1, p.2) := by
  rw [scanString.eq_def]
  simp

theorem scanString_plain {c : UInt8} (h₁ : c ≠ 34) (h₂ : c ≠ 92) (s : Bytes) :
    scanString (c :: s) = (scanString s).map fun p ↦ (c :: p.1, p.2) := by
  rw [scanString.eq_def]
  simp [h₁, h₂]

/-- The value of a hexadecimal digit. -/
def hexValue (c : UInt8) : Option ℕ :=
  if 48 ≤ c ∧ c ≤ 57 then some (c.toNat - 48)
  else if 65 ≤ c ∧ c ≤ 70 then some (c.toNat - 55)
  else if 97 ≤ c ∧ c ≤ 102 then some (c.toNat - 87)
  else none

/-- `parse_hex4`: `0` when one of the four characters is not a digit. -/
def parseHex4 (a b c d : UInt8) : ℕ :=
  match hexValue a, hexValue b, hexValue c, hexValue d with
  | some a, some b, some c, some d => ((a * 16 + b) * 16 + c) * 16 + d
  | _, _, _, _ => 0

/-- A trailing UTF-8 byte: the six lowest bits. -/
def utf8Tail (codepoint : ℕ) : UInt8 := UInt8.ofNat (0x80 + codepoint % 64)

/-- The encoding at the end of `utf16_literal_to_utf8`. -/
def utf8Encode (codepoint : ℕ) : Bytes :=
  if codepoint < 0x80 then [UInt8.ofNat codepoint]
  else if codepoint < 0x800 then [UInt8.ofNat (0xC0 + codepoint / 64), utf8Tail codepoint]
  else if codepoint < 0x10000 then
    [UInt8.ofNat (0xE0 + codepoint / 4096), utf8Tail (codepoint / 64), utf8Tail codepoint]
  else
    [UInt8.ofNat (0xF0 + codepoint / 262144), utf8Tail (codepoint / 4096),
      utf8Tail (codepoint / 64), utf8Tail codepoint]

/-- The character of a two-character escape sequence. -/
def unescapeLetter (e : UInt8) : Option UInt8 :=
  if e = 98 then some 8
  else if e = 102 then some 12
  else if e = 110 then some 10
  else if e = 114 then some 13
  else if e = 116 then some 9
  else if e = 34 ∨ e = 92 ∨ e = 47 then some e
  else none

/-- The second loop of `parse_string`, with `utf16_literal_to_utf8`, on the characters in
front of the closing quote: a first surrogate needs its second half, and a second half
may not come first. -/
def unescape : Bytes → Option Bytes
  | [] => some []
  | c :: s =>
    if c = 92 then
      match s with
      -- only behind a malformed `\u`: the letter is the closing quote
      | [] => some [34]
      | e :: s =>
        match unescapeLetter e with
        | some d => (unescape s).map (d :: ·)
        | none =>
          if e = 117 then
            match s with
            | h₁ :: h₂ :: h₃ :: h₄ :: s =>
              let first := parseHex4 h₁ h₂ h₃ h₄
              if 0xDC00 ≤ first ∧ first ≤ 0xDFFF then none
              else if 0xD800 ≤ first ∧ first ≤ 0xDBFF then
                match s with
                | 92 :: 117 :: l₁ :: l₂ :: l₃ :: l₄ :: s =>
                  let second := parseHex4 l₁ l₂ l₃ l₄
                  if second < 0xDC00 ∨ 0xDFFF < second then none
                  else (unescape s).map
                    (utf8Encode (0x10000 + first % 1024 * 1024 + second % 1024) ++ ·)
                | _ => none
              else (unescape s).map (utf8Encode first ++ ·)
            | _ => none
          else none
    else (unescape s).map (c :: ·)

@[simp] theorem unescape_nil : unescape [] = some [] := rfl

theorem unescape_plain {c : UInt8} (h : c ≠ 92) (s : Bytes) :
    unescape (c :: s) = (unescape s).map (c :: ·) := by
  rw [unescape.eq_def]
  simp [h]

theorem unescape_letter {e d : UInt8} (h : unescapeLetter e = some d) (s : Bytes) :
    unescape (92 :: e :: s) = (unescape s).map (d :: ·) := by
  rw [unescape.eq_def]
  simp [h]

/-- A `\u` sequence that is not a surrogate. -/
theorem unescape_hex {h₁ h₂ h₃ h₄ : UInt8} (h : parseHex4 h₁ h₂ h₃ h₄ < 0xD800) (s : Bytes) :
    unescape (92 :: 117 :: h₁ :: h₂ :: h₃ :: h₄ :: s) =
      (unescape s).map (utf8Encode (parseHex4 h₁ h₂ h₃ h₄) ++ ·) := by
  rw [unescape.eq_def]
  have hlow : ¬ 0xDC00 ≤ parseHex4 h₁ h₂ h₃ h₄ := by omega
  have hhigh : ¬ 0xD800 ≤ parseHex4 h₁ h₂ h₃ h₄ := by omega
  simp [unescapeLetter, hlow, hhigh]

theorem unescape_unknown {e : UInt8} (h : unescapeLetter e = none) (he : e ≠ 117) (s : Bytes) :
    unescape (92 :: e :: s) = none := by
  rw [unescape.eq_def]
  simp [h, he]

/-- What stands behind `\u`: the length of the whole sequence and its code point. -/
def literal : Bytes → Option (ℕ × ℕ)
  | h₁ :: h₂ :: h₃ :: h₄ :: s =>
    let first := parseHex4 h₁ h₂ h₃ h₄
    if 0xDC00 ≤ first ∧ first ≤ 0xDFFF then none
    else if 0xD800 ≤ first ∧ first ≤ 0xDBFF then
      match s with
      | 92 :: 117 :: l₁ :: l₂ :: l₃ :: l₄ :: _ =>
        let second := parseHex4 l₁ l₂ l₃ l₄
        if second < 0xDC00 ∨ 0xDFFF < second then none
        else some (12, 0x10000 + first % 1024 * 1024 + second % 1024)
      | _ => none
    else some (6, first)
  | _ => none

/-- A `\u` sequence in front of the other characters. -/
theorem unescape_literal (s : Bytes) : unescape (92 :: 117 :: s) =
    (literal s).bind fun p ↦ (unescape (s.drop (p.1 - 2))).map (utf8Encode p.2 ++ ·) := by
  rw [unescape.eq_def]
  simp only [if_true]
  unfold literal
  split
  · next h => cases h
  split
  · next h₁ h₂ h₃ h₄ s =>
      simp only
      split
      · rfl
      split
      · split
        · split
          · rfl
          · rfl
        · rfl
      · rfl
  · next hs =>
      split
      · exact (hs _ _ _ _ _ rfl).elim
      · rfl

/-- `parse_string`.  What the program later sees of the output buffer ends at its
first NUL. -/
def parseString : Bytes → Option (CString × Bytes)
  | [] => none
  | c :: s =>
    if c = 34 then do
      let (raw, rest) ← scanString s
      let output ← unescape raw
      return (.ofBytes output, rest)
    else none

/-! ## Numbers -/

/-- `parse_number`: at most 63 characters are handed to `strtod`. -/
def parseNumber (s : Bytes) : Option (Json ν × Bytes) :=
  let t := (s.take 63).takeWhile numberChar
  let n := strtodEnd t
  if n = 0 then none else some (.number (CNumber.strtod (t.take n)), s.drop n)

/-! ## Arrays and objects -/

/-- A parser that reads a value off the front of a text. -/
abbrev Parser (ν : Type) := Bytes → Option (Json ν × Bytes)

/-- The loop of `parse_array`. -/
def parseElements (parseValue : Parser ν) : ℕ → Bytes → Option (List (Json ν) × Bytes)
  | 0, _ => none
  | fuel + 1, s => do
    let (v, s) ← parseValue (skipWs s)
    match skipWs s with
    | [] => none
    | c :: s =>
      if c = 44 then do
        let (vs, s) ← parseElements parseValue fuel s
        return (v :: vs, s)
      else if c = 93 then some ([v], s)
      else none

/-- `parse_array`, behind the opening bracket. -/
def parseArray (parseValue : Parser ν) (s : Bytes) : Option (Json ν × Bytes) :=
  let s := skipWs s
  if s.head? = some 93 then some (.array [], s.tail)
  else (parseElements parseValue (s.length + 1) s).map fun p ↦ (.array p.1, p.2)

/-- The loop of `parse_object`. -/
def parseMembers (parseValue : Parser ν) :
    ℕ → Bytes → Option (List (CString × Json ν) × Bytes)
  | 0, _ => none
  | fuel + 1, s => do
    let (k, s) ← parseString (skipWs s)
    let s := skipWs s
    if s.head? = some 58 then do
      let (v, s) ← parseValue (skipWs s.tail)
      match skipWs s with
      | [] => none
      | c :: s =>
        if c = 44 then do
          let (ms, s) ← parseMembers parseValue fuel s
          return ((k, v) :: ms, s)
        else if c = 125 then some ([(k, v)], s)
        else none
    else none

/-- `parse_object`, behind the opening brace. -/
def parseObject (parseValue : Parser ν) (s : Bytes) : Option (Json ν × Bytes) :=
  let s := skipWs s
  if s.head? = some 125 then some (.object [], s.tail)
  else (parseMembers parseValue (s.length + 1) s).map fun p ↦ (.object p.1, p.2)

/-! ## Values -/

/-- `parse_value`, given the parser for the children; there is none when the nesting
limit is reached. -/
def valueStep (children : Option (Parser ν)) (s : Bytes) : Option (Json ν × Bytes) :=
  if ascii "null" <+: s then some (.null, s.drop 4)
  else if ascii "false" <+: s then some (.bool false, s.drop 5)
  else if ascii "true" <+: s then some (.bool true, s.drop 4)
  else match s with
    | [] => none
    | c :: t =>
      if c = 34 then (parseString s).map fun p ↦ (.string p.1, p.2)
      else if c = 45 ∨ isDigit c then parseNumber s
      else if c = 91 then children.bind (parseArray · t)
      else if c = 123 then children.bind (parseObject · t)
      else none

/-- `parse_value` with `n` levels of nesting left. -/
def parseValue : ℕ → Parser ν
  | 0 => valueStep none
  | n + 1 => valueStep (some (parseValue n))

/-- `skip_utf8_bom` -/
def skipBom (s : Bytes) : Bytes := if [0xEF, 0xBB, 0xBF] <+: s ∧ 4 ≤ s.length then s.drop 3 else s

/-- `cJSON_Parse`: the first value of the text; whatever follows it is ignored. -/
def parse (s : CString) : Option (Json ν) :=
  (parseValue nestingLimit (skipWs (skipBom s.bytes))).map Prod.fst

end KernelTests.Json
