import KernelTests.Json.Print
import KernelTests.Json.Parse

/-!
# Parsing a printed value

`cJSON_Parse` reads back what `cJSON_PrintUnformatted` wrote: `parseValue_print`
says which value is read off the front of a printed text, and that the text is
read to its end.  Strings come back unchanged.  A number comes back as whatever
`strtod` makes of its digits, which `reread` records, and values nested deeper
than the limit are refused.
-/

namespace KernelTests.Json

variable {ν : Type}

/-! ## Strings -/

theorem hexValue_hexDigit : ∀ n < 16, hexValue (hexDigit n) = some n := by decide

theorem hexDigit_plain : ∀ n < 16, hexDigit n ≠ 34 ∧ hexDigit n ≠ 92 := by decide

/-- The letters of the two-character sequences are read back. -/
theorem unescapeLetter_escapeLetter {c e : UInt8} (h : escapeLetter c = some e) :
    unescapeLetter e = some c ∧ (c < 32 ∨ c = 34 ∨ c = 92) := by
  unfold escapeLetter at h
  split_ifs at h with h₁ h₂ h₃ h₄ h₅ h₆ h₇ <;> cases h <;> subst_vars <;> decide

/-- A character without a letter of its own is a control character. -/
theorem toNat_lt_of_escapeLetter_eq_none {c : UInt8} (h : escapeLetter c = none)
    (hc : ¬ (31 < c ∧ c ≠ 34 ∧ c ≠ 92)) : c.toNat < 32 := by
  have h34 : c ≠ 34 := by rintro rfl; exact absurd h (by decide)
  have h92 : c ≠ 92 := by rintro rfl; exact absurd h (by decide)
  have h31 : ¬ 31 < c := fun hlt ↦ hc ⟨hlt, h34, h92⟩
  rw [UInt8.lt_iff_toNat_lt] at h31
  exact Nat.lt_succ_of_le (Nat.le_of_not_lt h31)

/-- An escaped character never closes the string. -/
theorem scanString_escapeByte (c : UInt8) (t : Bytes) :
    scanString (escapeByte c ++ t) = (scanString t).map fun p ↦ (escapeByte c ++ p.1, p.2) := by
  unfold escapeByte
  split
  · next h => exact scanString_plain h.2.1 h.2.2 t
  · next h =>
      cases he : escapeLetter c with
      | some e => exact scanString_backslash e t
      | none =>
          have hc := toNat_lt_of_escapeLetter_eq_none he h
          obtain ⟨h₁, h₂⟩ := hexDigit_plain (c.toNat / 16) (by omega)
          obtain ⟨h₃, h₄⟩ := hexDigit_plain (c.toNat % 16) (by omega)
          simp [scanString_plain, h₁, h₂, h₃, h₄, Function.comp_def]

/-- Unescaping inverts escaping, character by character. -/
theorem unescape_escapeByte (c : UInt8) (t : Bytes) :
    unescape (escapeByte c ++ t) = (unescape t).map (c :: ·) := by
  unfold escapeByte
  split
  · next h => exact unescape_plain h.2.2 t
  · next h =>
      cases he : escapeLetter c with
      | some e => exact unescape_letter (unescapeLetter_escapeLetter he).1 t
      | none =>
          have hc := toNat_lt_of_escapeLetter_eq_none he h
          have hhex : parseHex4 48 48 (hexDigit (c.toNat / 16)) (hexDigit (c.toNat % 16))
              = c.toNat := by
            rw [parseHex4, hexValue_hexDigit _ (by omega), hexValue_hexDigit _ (by omega)]
            simp only [show hexValue 48 = some 0 from rfl]
            omega
          have hutf : utf8Encode c.toNat = [c] := by
            rw [utf8Encode, if_pos (by omega), UInt8.ofNat_toNat]
          have hlt : parseHex4 48 48 (hexDigit (c.toNat / 16)) (hexDigit (c.toNat % 16))
              < 0xD800 := by omega
          have h := unescape_hex hlt t
          rw [hhex, hutf] at h
          exact h

theorem scanString_escape (s t : Bytes) :
    scanString (escape s ++ 34 :: t) = some (escape s, t) := by
  induction s with
  | nil => exact scanString_quote t
  | cons c s ih =>
      rw [escape, List.flatMap_cons, List.append_assoc, scanString_escapeByte, ← escape, ih]
      rfl

theorem unescape_escape (s : Bytes) : unescape (escape s) = some s := by
  induction s with
  | nil => rfl
  | cons c s ih =>
      rw [escape, List.flatMap_cons, unescape_escapeByte, ← escape, ih]
      rfl

/-- A printed string is read back, and nothing behind it is touched. -/
@[simp] theorem parseString_printString (s : CString) (r : Bytes) :
    parseString (printString s ++ r) = some (s, r) := by
  simp [printString, parseString, scanString_escape, unescape_escape]

/-! ## Numbers -/

/-- The text does not go on with a character `parse_number` would copy. -/
def StopsNumber (r : Bytes) : Prop := ∀ c t, r = c :: t → numberChar c = false

theorem stopsNumber_nil : StopsNumber [] := by
  intro c t h
  cases h

theorem stopsNumber_cons {c : UInt8} {t : Bytes} (h : numberChar c = false) :
    StopsNumber (c :: t) := by
  intro d u hd
  cases hd
  exact h

/-- In front of such a text the scratch buffer holds exactly the number. -/
theorem takeWhile_numberChar_append {t r : Bytes} (ht : ∀ c ∈ t, numberChar c)
    (hl : t.length ≤ 63) (hr : StopsNumber r) :
    ((t ++ r).take 63).takeWhile numberChar = t := by
  rw [List.take_append, List.take_of_length_le hl, List.takeWhile_append_of_pos ht]
  cases r with
  | nil => simp
  | cons c r =>
      cases h : 63 - t.length with
      | zero => simp
      | succ n => simp [hr c r rfl]

theorem parseNumber_text [CNumber ν] {t r : Bytes} (ht : NumberText t) (hr : StopsNumber r) :
    parseNumber (t ++ r) = some (.number (CNumber.strtod t : ν), r) := by
  have htake := takeWhile_numberChar_append ht.chars (ht.short.trans (by decide)) hr
  have hpos : t.length ≠ 0 := by
    obtain ⟨c, u, rfl, _⟩ := ht.head
    simp
  simp only [parseNumber, htake, ht.whole, if_neg hpos, List.take_length, List.drop_left]

/-! ## Values -/

variable [CNumber ν]

mutual

/-- What comes back from the printed text: `null` for a number without digits, and
otherwise the double its digits denote. -/
def reread : Json ν → Json ν
  | .number d =>
      if CNumber.text d = ascii "null" then .null else .number (CNumber.strtod (CNumber.text d))
  | .array items => .array (rereadItems items)
  | .object members => .object (rereadMembers members)
  | v => v

/-- `reread` on the elements of an array. -/
def rereadItems : List (Json ν) → List (Json ν)
  | [] => []
  | v :: vs => reread v :: rereadItems vs

/-- `reread` on the members of an object. -/
def rereadMembers : List (CString × Json ν) → List (CString × Json ν)
  | [] => []
  | (k, v) :: ms => (k, reread v) :: rereadMembers ms

end

theorem skipWs_cons {c : UInt8} (h : 32 < c) (t : Bytes) : skipWs (c :: t) = c :: t := by
  have hc : ¬ c ≤ 32 := by grind
  rw [skipWs, List.dropWhile_cons, if_neg (by simpa using hc)]

/-- A number starts with a sign or a digit. -/
theorem head_bounds {c : UInt8} (h : c = 45 ∨ isDigit c) : 45 ≤ c ∧ c ≤ 57 := by
  rcases h with rfl | h
  · decide
  · simp only [isDigit, decide_eq_true_eq] at h
    grind

/-- A printed value starts with a visible ASCII character that closes nothing. -/
theorem print_head (v : Json ν) :
    ∃ c t, v.print = c :: t ∧ (32 < c ∧ c < 128) ∧ c ≠ 93 := by
  cases v with
  | null => exact ⟨110, ascii "ull", rfl, by decide⟩
  | bool b => cases b
              · exact ⟨102, ascii "alse", rfl, by decide⟩
              · exact ⟨116, ascii "rue", rfl, by decide⟩
  | number d =>
      rcases CNumber.text_spec d with h | h
      · exact ⟨110, ascii "ull", by rw [print, h]; rfl, by decide⟩
      · obtain ⟨c, t, ht, hc⟩ := h.head
        have := head_bounds hc
        exact ⟨c, t, by rw [print, ht], ⟨by grind, by grind⟩, by grind⟩
  | string s => exact ⟨34, _, rfl, by decide⟩
  | array items =>
      cases items with
      | nil => exact ⟨91, [93], rfl, by decide⟩
      | cons v vs => exact ⟨91, _, by rw [print], by decide⟩
  | object members =>
      cases members with
      | nil => exact ⟨123, [125], rfl, by decide⟩
      | cons m ms => exact ⟨123, _, by rw [print], by decide⟩

/-- No whitespace stands in front of a printed value. -/
theorem skipWs_print (v : Json ν) (r : Bytes) : skipWs (v.print ++ r) = v.print ++ r := by
  obtain ⟨c, t, h, hc, _⟩ := print_head v
  rw [h, List.cons_append, skipWs_cons hc.1]

theorem skipWs_printString (s : CString) (r : Bytes) :
    skipWs (printString s ++ r) = printString s ++ r :=
  skipWs_cons (by decide) _

/-- Away from the letters of the constants the first character decides. -/
theorem valueStep_cons {children : Option (Parser ν)} {c : UInt8} (hn : c ≠ 110)
    (hf : c ≠ 102) (ht : c ≠ 116) (t : Bytes) :
    valueStep children (c :: t) =
      if c = 34 then (parseString (c :: t)).map fun p ↦ (.string p.1, p.2)
      else if c = 45 ∨ isDigit c then parseNumber (c :: t)
      else if c = 91 then children.bind (parseArray · t)
      else if c = 123 then children.bind (parseObject · t)
      else none := by
  have h₁ : ¬ ascii "null" <+: c :: t := fun h ↦ hn (List.cons_prefix_cons.mp h).1.symm
  have h₂ : ¬ ascii "false" <+: c :: t := fun h ↦ hf (List.cons_prefix_cons.mp h).1.symm
  have h₃ : ¬ ascii "true" <+: c :: t := fun h ↦ ht (List.cons_prefix_cons.mp h).1.symm
  rw [valueStep, if_neg h₁, if_neg h₂, if_neg h₃]

@[simp] theorem valueStep_null (children : Option (Parser ν)) (r : Bytes) :
    valueStep children (ascii "null" ++ r) = some (.null, r) := by
  unfold valueStep
  rw [if_pos (List.prefix_append _ _)]
  rfl

@[simp] theorem valueStep_false (children : Option (Parser ν)) (r : Bytes) :
    valueStep children (ascii "false" ++ r) = some (.bool false, r) := by
  unfold valueStep
  rw [if_neg (by simp [ascii]), if_pos (List.prefix_append _ _)]
  rfl

@[simp] theorem valueStep_true (children : Option (Parser ν)) (r : Bytes) :
    valueStep children (ascii "true" ++ r) = some (.bool true, r) := by
  unfold valueStep
  rw [if_neg (by simp [ascii]), if_neg (by simp [ascii]), if_pos (List.prefix_append _ _)]
  rfl

@[simp] theorem valueStep_string (children : Option (Parser ν)) (s : CString) (r : Bytes) :
    valueStep children (printString s ++ r) = some (.string s, r) := by
  have h := parseString_printString s r
  simp only [printString, List.cons_append] at h ⊢
  rw [valueStep_cons (by decide) (by decide) (by decide), if_pos rfl, h]
  rfl

theorem valueStep_number {children : Option (Parser ν)} {t r : Bytes} (ht : NumberText t)
    (hr : StopsNumber r) :
    valueStep children (t ++ r) = some (.number (CNumber.strtod t), r) := by
  have h := parseNumber_text (ν := ν) ht hr
  obtain ⟨c, u, rfl, hc⟩ := ht.head
  have hb := head_bounds hc
  rw [List.cons_append] at h ⊢
  rw [valueStep_cons (by grind) (by grind) (by grind), if_neg (by grind), if_pos hc, h]

theorem valueStep_array (children : Option (Parser ν)) (t : Bytes) :
    valueStep children (91 :: t) = children.bind (parseArray · t) := by
  rw [valueStep_cons (by decide) (by decide) (by decide), if_neg (by decide),
    if_neg (by decide), if_pos rfl]

theorem valueStep_object (children : Option (Parser ν)) (t : Bytes) :
    valueStep children (123 :: t) = children.bind (parseObject · t) := by
  rw [valueStep_cons (by decide) (by decide) (by decide), if_neg (by decide),
    if_neg (by decide), if_neg (by decide), if_pos rfl]

/-- A parser reads the printed value back if its height is at most `n`. -/
def ReadsBack (pv : Parser ν) (n : ℕ) (v : Json ν) : Prop :=
  ∀ r, StopsNumber r → pv (v.print ++ r) = if v.height ≤ n then some (v.reread, r) else none

theorem stopsNumber_printItems (vs : List (Json ν)) (r : Bytes) :
    StopsNumber (printItems vs ++ 93 :: r) := by
  cases vs with
  | nil => exact stopsNumber_cons (by decide)
  | cons v vs => rw [printItems]; exact stopsNumber_cons (by decide)

theorem stopsNumber_printMembers (ms : List (CString × Json ν)) (r : Bytes) :
    StopsNumber (printMembers ms ++ 125 :: r) := by
  cases ms with
  | nil => exact stopsNumber_cons (by decide)
  | cons m ms => rw [printMembers]; exact stopsNumber_cons (by decide)

/-- The loop over the elements reads a printed array to its bracket. -/
theorem parseElements_print {pv : Parser ν} {n : ℕ} (r : Bytes) :
    ∀ (vs : List (Json ν)) (v : Json ν) (fuel : ℕ), vs.length < fuel →
      (∀ w ∈ v :: vs, ReadsBack pv n w) →
      parseElements pv fuel (v.print ++ (printItems vs ++ 93 :: r)) =
        if heightItems (v :: vs) ≤ n then some (rereadItems (v :: vs), r) else none := by
  intro vs
  induction vs with
  | nil =>
      intro v fuel hfuel h
      obtain ⟨fuel, rfl⟩ := Nat.exists_eq_succ_of_ne_zero (Nat.ne_of_gt hfuel)
      rw [parseElements, skipWs_print, h v (by simp) _ (stopsNumber_printItems [] r)]
      by_cases hv : v.height ≤ n
      · simp [hv, heightItems, printItems, skipWs_cons, rereadItems]
      · simp [hv, heightItems]
  | cons w vs ih =>
      intro v fuel hfuel h
      obtain ⟨fuel, rfl⟩ := Nat.exists_eq_succ_of_ne_zero (Nat.ne_of_gt (Nat.zero_lt_of_lt hfuel))
      have hrest := ih w fuel (by simpa using hfuel) fun u hu ↦ h u (List.mem_cons_of_mem v hu)
      rw [parseElements, skipWs_print, h v (by simp) _ (stopsNumber_printItems (w :: vs) r)]
      by_cases hv : v.height ≤ n
      · simp only [hv, if_true, Option.bind_eq_bind, Option.bind_some, printItems, List.cons_append,
          List.append_assoc, skipWs_cons (show (32 : UInt8) < 44 by decide), hrest]
        by_cases hw : heightItems (w :: vs) ≤ n
        · rw [if_pos hw, if_pos (heightItems_cons_le.mpr ⟨hv, hw⟩)]
          rfl
        · rw [if_neg hw, if_neg fun hm ↦ hw (heightItems_cons_le.mp hm).2]
          rfl
      · rw [if_neg hv, if_neg fun hm ↦ hv (heightItems_cons_le.mp hm).1]
        rfl

/-- The loop over the members reads a printed object to its brace. -/
theorem parseMembers_print {pv : Parser ν} {n : ℕ} (r : Bytes) :
    ∀ (ms : List (CString × Json ν)) (k : CString) (v : Json ν) (fuel : ℕ), ms.length < fuel →
      (∀ m : CString × Json ν, m ∈ (k, v) :: ms → ReadsBack pv n m.2) →
      parseMembers pv fuel
          (printString k ++ 58 :: (v.print ++ (printMembers ms ++ 125 :: r))) =
        if heightMembers ((k, v) :: ms) ≤ n then some (rereadMembers ((k, v) :: ms), r)
        else none := by
  intro ms
  induction ms with
  | nil =>
      intro k v fuel hfuel h
      obtain ⟨fuel, rfl⟩ := Nat.exists_eq_succ_of_ne_zero (Nat.ne_of_gt hfuel)
      have hv := h (k, v) (by simp) _ (stopsNumber_printMembers ([] : List (CString × Json ν)) r)
      simp only [parseMembers, skipWs_printString, parseString_printString, Option.bind_eq_bind,
        Option.bind_some, skipWs_cons (show (32 : UInt8) < 58 by decide), List.head?_cons,
        if_true, List.tail_cons, skipWs_print, hv]
      by_cases hle : v.height ≤ n
      · simp [hle, heightMembers, printMembers, skipWs_cons, rereadMembers]
      · simp [hle, heightMembers]
  | cons m ms ih =>
      intro k v fuel hfuel h
      obtain ⟨l, w⟩ := m
      obtain ⟨fuel, rfl⟩ := Nat.exists_eq_succ_of_ne_zero (Nat.ne_of_gt (Nat.zero_lt_of_lt hfuel))
      have hrest := ih l w fuel (by simpa using hfuel)
        fun u hu ↦ h u (List.mem_cons_of_mem (k, v) hu)
      have hv := h (k, v) (by simp) _ (stopsNumber_printMembers ((l, w) :: ms) r)
      simp only [parseMembers, skipWs_printString, parseString_printString, Option.bind_eq_bind,
        Option.bind_some, skipWs_cons (show (32 : UInt8) < 58 by decide), List.head?_cons,
        if_true, List.tail_cons, skipWs_print, hv]
      by_cases hle : v.height ≤ n
      · simp only [hle, if_true, Option.bind_some, printMembers, List.cons_append,
          List.append_assoc, skipWs_cons (show (32 : UInt8) < 44 by decide), hrest]
        by_cases hw : heightMembers ((l, w) :: ms) ≤ n
        · rw [if_pos hw, if_pos (heightMembers_cons_le.mpr ⟨hle, hw⟩)]
          rfl
        · rw [if_neg hw, if_neg fun hm ↦ hw (heightMembers_cons_le.mp hm).2]
          rfl
      · rw [if_neg hle, if_neg fun hm ↦ hle (heightMembers_cons_le.mp hm).1]
        rfl

theorem length_le_length_printItems (vs : List (Json ν)) : vs.length ≤ (printItems vs).length := by
  induction vs with
  | nil => exact Nat.zero_le _
  | cons v vs ih =>
      simp only [printItems, List.length_cons, List.length_append]
      omega

theorem length_le_length_printMembers (ms : List (CString × Json ν)) :
    ms.length ≤ (printMembers ms).length := by
  induction ms with
  | nil => exact Nat.zero_le _
  | cons m ms ih =>
      simp only [printMembers, List.length_cons, List.length_append]
      omega

/-- **Round trip.**  With `n` levels of nesting left, `parse_value` reads a printed value of
height at most `n` off the front of a text and stops behind it; a higher value it refuses. -/
theorem parseValue_print (v : Json ν) (n : ℕ) : ReadsBack (parseValue n) n v := by
  induction v generalizing n with
  | null =>
      intro r _
      cases n <;> exact valueStep_null _ r
  | bool b =>
      intro r _
      cases b
      · cases n <;> exact valueStep_false _ r
      · cases n <;> exact valueStep_true _ r
  | number d =>
      intro r hr
      have hn : (height (.number d : Json ν)) ≤ n := Nat.zero_le n
      rw [if_pos hn, print, reread]
      rcases CNumber.text_spec d with h | h
      · rw [h, if_pos rfl]
        cases n <;> exact valueStep_null _ r
      · have hne : CNumber.text d ≠ ascii "null" := fun he ↦
          absurd (h.chars 117 (he ▸ by decide)) (by decide)
        rw [if_neg hne]
        cases n <;> exact valueStep_number h hr
  | string s =>
      intro r _
      cases n <;> exact valueStep_string _ s r
  | array items ih =>
      intro r _
      cases items with
      | nil =>
          cases n with
          | zero => exact valueStep_array _ _
          | succ n =>
              refine (valueStep_array _ _).trans ?_
              simp [parseArray, skipWs, height, heightItems, reread, rereadItems]
      | cons v vs =>
          have hp : print (.array (v :: vs)) ++ r = 91 :: (v.print ++ (printItems vs ++ 93 :: r)) := by
            simp [print]
          rw [hp]
          cases n with
          | zero => exact valueStep_array _ _
          | succ n =>
              obtain ⟨c, t, hc, _, h93⟩ := print_head v
              have hhead : (v.print ++ (printItems vs ++ 93 :: r)).head? ≠ some 93 := by
                simp [hc, h93]
              have hfuel := length_le_length_printItems vs
              refine (valueStep_array _ _).trans ?_
              rw [Option.bind_some, parseArray, skipWs_print, if_neg hhead,
                parseElements_print r vs v _ (by simp only [List.length_append]; omega)
                  fun w hw ↦ ih w hw n]
              simp only [height, Nat.add_le_add_iff_right, reread]
              split <;> rfl
  | object members ih =>
      intro r _
      cases members with
      | nil =>
          cases n with
          | zero => exact valueStep_object _ _
          | succ n =>
              refine (valueStep_object _ _).trans ?_
              simp [parseObject, skipWs, height, heightMembers, reread, rereadMembers]
      | cons m ms =>
          obtain ⟨k, v⟩ := m
          have hp : print (.object ((k, v) :: ms)) ++ r =
              123 :: (printString k ++ 58 :: (v.print ++ (printMembers ms ++ 125 :: r))) := by
            simp [print]
          rw [hp]
          cases n with
          | zero => exact valueStep_object _ _
          | succ n =>
              have hfuel := length_le_length_printMembers ms
              refine (valueStep_object _ _).trans ?_
              rw [Option.bind_some, parseObject, skipWs_printString, if_neg (by simp [printString]),
                parseMembers_print r ms k v _
                  (by simp only [List.length_append, List.length_cons]; omega)
                  fun m hm ↦ ih m hm n]
              simp only [height, Nat.add_le_add_iff_right, reread]
              split <;> rfl

/-! ## Whole texts -/

theorem zero_notMem_escapeByte {c : UInt8} (h : c ≠ 0) : 0 ∉ escapeByte c := by
  have hhex : ∀ n < 16, hexDigit n ≠ 0 := by decide
  unfold escapeByte
  split
  · simpa using h.symm
  · next hc =>
      cases he : escapeLetter c with
      | some e =>
          have he0 : e ≠ 0 := fun h0 ↦ by
            have := (unescapeLetter_escapeLetter he).1
            rw [h0] at this
            cases this
          simpa using he0.symm
      | none =>
          have hlt := toNat_lt_of_escapeLetter_eq_none he hc
          simpa using ⟨(hhex _ (by omega)).symm, (hhex _ (by omega)).symm⟩

theorem zero_notMem_printString (s : CString) : 0 ∉ printString s := by
  intro h
  simp only [printString, List.cons_append, List.mem_cons, List.mem_append, List.not_mem_nil,
    or_false, escape, List.mem_flatMap] at h
  rcases h with h | ⟨c, hc, h⟩ | h
  · exact absurd h (by decide)
  · exact zero_notMem_escapeByte (fun h0 ↦ s.noNul (h0 ▸ hc)) h
  · exact absurd h (by decide)

/-- A printed value is a C string. -/
theorem zero_notMem_print (v : Json ν) : 0 ∉ v.print := by
  induction v with
  | null => rw [print]; decide
  | bool b => cases b <;> rw [print] <;> decide
  | number d =>
      rw [print]
      rcases CNumber.text_spec d with h | h
      · rw [h]
        decide
      · exact fun h0 ↦ absurd (h.chars 0 h0) (by decide)
  | string s => exact zero_notMem_printString s
  | array items ih =>
      have hitems : ∀ vs : List (Json ν), (∀ v ∈ vs, 0 ∉ v.print) → 0 ∉ printItems vs := by
        intro vs h
        induction vs with
        | nil => simp [printItems]
        | cons v vs ihv => simp_all [printItems]
      cases items with
      | nil => rw [print]; decide
      | cons v vs =>
          have := hitems vs fun w hw ↦ ih w (List.mem_cons_of_mem v hw)
          simp_all [print]
  | object members ih =>
      have hmembers : ∀ ms : List (CString × Json ν), (∀ m ∈ ms, 0 ∉ m.2.print) →
          0 ∉ printMembers ms := by
        intro ms h
        induction ms with
        | nil => simp [printMembers]
        | cons m ms ihm =>
            have := zero_notMem_printString m.1
            simp_all [printMembers]
      cases members with
      | nil => rw [print]; decide
      | cons m ms =>
          have h₁ := hmembers ms fun w hw ↦ ih w (List.mem_cons_of_mem m hw)
          have h₂ := zero_notMem_printString m.1
          simp_all [print]

@[simp] theorem bytes_printUnformatted (v : Json ν) : (printUnformatted v).bytes = v.print :=
  CString.bytes_ofBytes (zero_notMem_print v)

/-- No byte order mark and no whitespace is skipped in front of visible ASCII. -/
theorem skipWs_skipBom_cons {c : UInt8} (h : 32 < c ∧ c < 128) (t : Bytes) :
    skipWs (skipBom (c :: t)) = c :: t := by
  have hb : ¬ [0xEF, 0xBB, 0xBF] <+: c :: t := fun hp ↦ by
    have := (List.cons_prefix_cons.mp hp).1
    grind
  rw [skipBom, if_neg fun hp ↦ hb hp.1, skipWs_cons h.1]

/-- `cJSON_Parse` inverts `cJSON_PrintUnformatted` up to what `strtod` makes of the numbers,
as long as the nesting limit is respected. -/
theorem parse_printUnformatted (v : Json ν) :
    parse (printUnformatted v) = if v.height ≤ nestingLimit then some v.reread else none := by
  have h := parseValue_print v nestingLimit [] stopsNumber_nil
  obtain ⟨c, t, hc, hb, _⟩ := print_head v
  rw [List.append_nil, hc] at h
  rw [parse, bytes_printUnformatted, hc, skipWs_skipBom_cons hb, h]
  split <;> rfl

end KernelTests.Json
