import KernelTests.CJson.ParseBuffer
import KernelTests.CJson.Read

/-!
# UTF-16 literals

`utf16_literal_to_utf8`: one `\u` sequence, or two of them that form a surrogate pair, become
the UTF-8 bytes of a code point.  The program computes them with masks and shifts, from the
last byte to the first one, in the block it was given.
-/

namespace KernelTests.CJson

open Memory

variable {A ν β : Type} [DecidableEq A]

/-- `parse_hex4` -/
def parseHex4At (content : Bytes) (i : ℕ) : Action A ν ℕ := do
  let a ← byteAt content i
  let b ← byteAt content (i + 1)
  let c ← byteAt content (i + 2)
  let d ← byteAt content (i + 3)
  return Json.parseHex4 a b c d

/-- The loop that writes the trailing bytes, from the last one to the second one. -/
def writeTail (output : Option A) (out : ℕ) : ℕ → ℕ → Action A ν ℕ
  | 0, codepoint => return codepoint
  | position + 1, codepoint => do
    storeByte output (out + (position + 1)) (UInt8.ofNat ((codepoint ||| 0x80) &&& 0xBF))
    writeTail output out position (codepoint >>> 6)

/-- `utf8_length` and `first_byte_mark` -/
def utf8Shape (codepoint : ℕ) : Option (ℕ × ℕ) :=
  if codepoint < 0x80 then some (1, 0)
  else if codepoint < 0x800 then some (2, 0xC0)
  else if codepoint < 0x10000 then some (3, 0xE0)
  else if codepoint ≤ 0x10FFFF then some (4, 0xF0)
  else none

/-- The end of `utf16_literal_to_utf8`: the number of bytes written. -/
def writeUtf8 (output : Option A) (out codepoint : ℕ) : Action A ν (Option ℕ) :=
  match utf8Shape codepoint with
  | none => return none
  | some (length, mark) => do
    let codepoint ← writeTail output out (length - 1) codepoint
    storeByte output out (if 1 < length then UInt8.ofNat ((codepoint ||| mark) &&& 0xFF)
      else UInt8.ofNat (codepoint &&& 0x7F))
    return some length

/-- `utf16_literal_to_utf8`: the length of the sequence and the number of bytes written. -/
def utf16LiteralToUtf8 (content : Bytes) (input inputEnd : ℕ) (output : Option A) (out : ℕ) :
    Action A ν (Option (ℕ × ℕ)) := do
  if inputEnd - input < 6 then
    return none
  else
    let first ← parseHex4At content (input + 2)
    if 0xDC00 ≤ first ∧ first ≤ 0xDFFF then
      return none
    else if 0xD800 ≤ first ∧ first ≤ 0xDBFF then
      if inputEnd - (input + 6) < 6 then
        return none
      else
        let c ← byteAt content (input + 6)
        let d ← byteAt content (input + 7)
        if c ≠ 92 ∨ d ≠ 117 then
          return none
        else
          let second ← parseHex4At content (input + 8)
          if second < 0xDC00 ∨ 0xDFFF < second then
            return none
          else
            let written ← writeUtf8 output out
              (0x10000 + (((first &&& 0x3FF) <<< 10) ||| (second &&& 0x3FF)))
            return written.map fun n ↦ (12, n)
    else
      let written ← writeUtf8 output out first
      return written.map fun n ↦ (6, n)

/-! ## UTF-8 -/

/-- `(codepoint | 0x80) & 0xBF` -/
theorem tail_bits (codepoint : ℕ) :
    UInt8.ofNat ((codepoint ||| 0x80) &&& 0xBF) = Json.utf8Tail codepoint := by
  have hsmall : ∀ x < 256, (x ||| 0x80) &&& 0xBF = 0x80 + x % 64 := by decide +kernel
  have hlow : (codepoint ||| 0x80) &&& 0xBF = ((codepoint % 256) ||| 0x80) &&& 0xBF := by
    have hmask : ∀ y : ℕ, y &&& 0xBF = (y % 2 ^ 8) &&& 0xBF := fun y ↦ by
      rw [← Nat.and_two_pow_sub_one_eq_mod, Nat.and_assoc]
      exact congrArg (y &&& ·) (by decide)
    rw [hmask (codepoint ||| 0x80), hmask (codepoint % 256 ||| 0x80), Nat.or_mod_two_pow,
      Nat.or_mod_two_pow]
    simp
  rw [Json.utf8Tail, hlow, hsmall _ (Nat.mod_lt _ (by decide))]
  congr 2
  omega

theorem lead_bits : (∀ x < 32, (x ||| 0xC0) &&& 0xFF = 0xC0 + x) ∧
    (∀ x < 16, (x ||| 0xE0) &&& 0xFF = 0xE0 + x) ∧ ∀ x < 8, (x ||| 0xF0) &&& 0xFF = 0xF0 + x := by
  decide +kernel

/-- `codepoint >>= 6` -/
theorem shift_six (codepoint : ℕ) : codepoint >>> 6 = codepoint / 64 :=
  Nat.shiftRight_eq_div_pow codepoint 6

/-- The bytes of a code point are written one behind the other, from the last to the first. -/
theorem writeUtf8_spec {codepoint : ℕ} {a : A} {w : Bytes} {rest : List (Option UInt8)}
    (h : codepoint ≤ 0x10FFFF) (hroom : (Json.utf8Encode codepoint).length ≤ rest.length) :
    Spec (writeUtf8 (some a) w.length codepoint) ({(a, .chars (.written w rest))} :
        Multiset (A × Cell A ν)) fun r P ↦ r = some (Json.utf8Encode codepoint).length ∧
      P = {(a, .chars (.written (w ++ Json.utf8Encode codepoint)
        (rest.drop (Json.utf8Encode codepoint).length)))} := by
  obtain ⟨hC0, hE0, hF0⟩ := lead_bits
  unfold Json.utf8Encode at hroom ⊢
  by_cases h₁ : codepoint < 0x80
  · have hprog : writeUtf8 (some a) w.length codepoint = (storeByte (some a) w.length
        (UInt8.ofNat (codepoint &&& 0x7F)) >>= fun _ ↦ pure (some 1) : Action A ν _) := by
      simp [writeUtf8, utf8Shape, h₁, writeTail]
    have hbyte : ∀ x < 128, x &&& 0x7F = x := by decide +kernel
    rw [if_pos h₁] at hroom ⊢
    obtain ⟨r₁, rest, rfl⟩ := List.exists_cons_of_length_pos hroom
    rw [hprog, hbyte _ h₁]
    refine Spec.storeByte (R := 0) 0 rfl (by simp) (add_zero _).symm (Spec.pure ⟨rfl, ?_⟩)
    simp [Block.written]
  by_cases h₂ : codepoint < 0x800
  · have hprog : writeUtf8 (some a) w.length codepoint =
        (storeByte (some a) (w.length + 1) (Json.utf8Tail codepoint) >>= fun _ ↦
          storeByte (some a) w.length (UInt8.ofNat (0xC0 + codepoint / 64)) >>= fun _ ↦
            pure (some 2) : Action A ν _) := by
      rw [writeUtf8, utf8Shape, if_neg h₁, if_pos h₂]
      simp only [Nat.reduceSub, Nat.reduceLT, if_true, writeTail, bind_assoc, pure_bind, tail_bits,
        shift_six, hC0 (codepoint / 64) (by omega), Nat.zero_add]
    rw [if_neg h₁, if_pos h₂] at hroom ⊢
    obtain ⟨r₁, _, rfl⟩ := List.exists_cons_of_length_pos (Nat.lt_of_lt_of_le (by simp) hroom)
    obtain ⟨r₂, rest, rfl⟩ := List.exists_cons_of_length_pos (Nat.le_of_succ_le_succ hroom)
    rw [hprog]
    refine Spec.storeByte (R := 0) 1 rfl (by simp) (add_zero _).symm
      (Spec.storeByte 0 rfl (by simp) rfl (Spec.pure ⟨rfl, ?_⟩))
    simp [Block.written]
  by_cases h₃ : codepoint < 0x10000
  · have hprog : writeUtf8 (some a) w.length codepoint =
        (storeByte (some a) (w.length + 2) (Json.utf8Tail codepoint) >>= fun _ ↦
          storeByte (some a) (w.length + 1) (Json.utf8Tail (codepoint / 64)) >>= fun _ ↦
            storeByte (some a) w.length (UInt8.ofNat (0xE0 + codepoint / 4096)) >>= fun _ ↦
              pure (some 3) : Action A ν _) := by
      have hdiv : codepoint / 64 / 64 = codepoint / 4096 := Nat.div_div_eq_div_mul _ _ _
      rw [writeUtf8, utf8Shape, if_neg h₁, if_neg h₂, if_pos h₃]
      simp only [Nat.reduceSub, Nat.reduceLT, if_true, writeTail, bind_assoc, pure_bind, tail_bits,
        shift_six, hdiv, hE0 (codepoint / 4096) (by omega), Nat.zero_add, Nat.reduceAdd]
    rw [if_neg h₁, if_neg h₂, if_pos h₃] at hroom ⊢
    obtain ⟨r₁, r₂, r₃, rest, rfl⟩ : ∃ r₁ r₂ r₃ rest', rest = r₁ :: r₂ :: r₃ :: rest' := by
      match rest, hroom with
      | r₁ :: r₂ :: r₃ :: rest, _ => exact ⟨r₁, r₂, r₃, rest, rfl⟩
    rw [hprog]
    refine Spec.storeByte (R := 0) 2 rfl (by simp) (add_zero _).symm
      (Spec.storeByte 1 rfl (by simp) rfl (Spec.storeByte 0 rfl (by simp) rfl
        (Spec.pure ⟨rfl, ?_⟩)))
    simp [Block.written]
  · have hprog : writeUtf8 (some a) w.length codepoint =
        (storeByte (some a) (w.length + 3) (Json.utf8Tail codepoint) >>= fun _ ↦
          storeByte (some a) (w.length + 2) (Json.utf8Tail (codepoint / 64)) >>= fun _ ↦
            storeByte (some a) (w.length + 1) (Json.utf8Tail (codepoint / 4096)) >>= fun _ ↦
              storeByte (some a) w.length (UInt8.ofNat (0xF0 + codepoint / 262144)) >>= fun _ ↦
                pure (some 4) : Action A ν _) := by
      have hdiv : codepoint / 64 / 64 = codepoint / 4096 := Nat.div_div_eq_div_mul _ _ _
      have hdiv' : codepoint / 4096 / 64 = codepoint / 262144 := Nat.div_div_eq_div_mul _ _ _
      rw [writeUtf8, utf8Shape, if_neg h₁, if_neg h₂, if_neg h₃, if_pos h]
      simp only [Nat.reduceSub, Nat.reduceLT, if_true, writeTail, bind_assoc, pure_bind, tail_bits,
        shift_six, hdiv, hdiv', hF0 (codepoint / 262144) (by omega), Nat.zero_add, Nat.reduceAdd]
    rw [if_neg h₁, if_neg h₂, if_neg h₃] at hroom ⊢
    obtain ⟨r₁, r₂, r₃, r₄, rest, rfl⟩ :
        ∃ r₁ r₂ r₃ r₄ rest', rest = r₁ :: r₂ :: r₃ :: r₄ :: rest' := by
      match rest, hroom with
      | r₁ :: r₂ :: r₃ :: r₄ :: rest, _ => exact ⟨r₁, r₂, r₃, r₄, rest, rfl⟩
    rw [hprog]
    refine Spec.storeByte (R := 0) 3 rfl (by simp) (add_zero _).symm
      (Spec.storeByte 2 rfl (by simp) rfl (Spec.storeByte 1 rfl (by simp) rfl
        (Spec.storeByte 0 rfl (by simp) rfl (Spec.pure ⟨rfl, ?_⟩))))
    simp [Block.written]

/-! ## Escape sequences in a text -/

/-- `0x10000 + (((first & 0x3FF) << 10) | (second & 0x3FF))` -/
theorem pair_bits (first second : ℕ) :
    0x10000 + (((first &&& 0x3FF) <<< 10) ||| (second &&& 0x3FF)) =
      0x10000 + first % 1024 * 1024 + second % 1024 := by
  have hmask : ∀ x : ℕ, x &&& 0x3FF = x % 1024 := fun x ↦ Nat.and_two_pow_sub_one_eq_mod x 10
  rw [hmask, hmask, ← Nat.shiftLeft_add_eq_or_of_lt (Nat.mod_lt _ (by decide)),
    Nat.shiftLeft_eq, Nat.add_assoc]


omit [DecidableEq A] in
theorem Spec.parseHex4At {content s : Bytes} {h₁ h₂ h₃ h₄ : UInt8} {i : ℕ}
    {P : Multiset (A × Cell A ν)} {Q : β → Multiset (A × Cell A ν) → Prop}
    {k : ℕ → Action A ν β} (h : content.drop i = h₁ :: h₂ :: h₃ :: h₄ :: s)
    (hk : Spec (k (Json.parseHex4 h₁ h₂ h₃ h₄)) P Q) :
    Spec (CJson.parseHex4At content i >>= k) P Q := by
  simp only [CJson.parseHex4At, bind_assoc, pure_bind]
  exact Spec.byteAt (getElem?_of_drop h 0) (Spec.byteAt (getElem?_of_drop h 1)
    (Spec.byteAt (getElem?_of_drop h 2) (Spec.byteAt (getElem?_of_drop h 3) hk)))

theorem exists_four {s : Bytes} (h : 4 ≤ s.length) :
    ∃ h₁ h₂ h₃ h₄ t, s = h₁ :: h₂ :: h₃ :: h₄ :: t := by
  rcases s with _ | ⟨h₁, _ | ⟨h₂, _ | ⟨h₃, _ | ⟨h₄, t⟩⟩⟩⟩
  · simp at h
  · simp at h
  · simp at h
  · simp at h
  · exact ⟨h₁, h₂, h₃, h₄, t, rfl⟩

/-- What a block holds after a sequence was written to it, or as it was. -/
def Encodes (a : A) (w : Bytes) (rest : List (Option UInt8)) (l : Option (ℕ × ℕ))
    (r : Option (ℕ × ℕ)) (P : Multiset (A × Cell A ν)) : Prop :=
  match l with
  | none => r = none ∧ P = {(a, .chars (.written w rest))}
  | some p => r = some (p.1, (Json.utf8Encode p.2).length) ∧
      P = {(a, .chars (.written (w ++ Json.utf8Encode p.2)
        (rest.drop (Json.utf8Encode p.2).length)))}

/-- The last step of a sequence. -/
theorem writeUtf8_encodes {codepoint length : ℕ} {a : A} {w : Bytes}
    {rest : List (Option UInt8)} (h : codepoint ≤ 0x10FFFF)
    (hroom : (Json.utf8Encode codepoint).length ≤ rest.length) :
    Spec (do return (← writeUtf8 (some a) w.length codepoint).map fun n ↦ (length, n))
      ({(a, .chars (.written w rest))} : Multiset (A × Cell A ν))
      (Encodes a w rest (some (length, codepoint))) := by
  refine Memory.Spec.bind (writeUtf8_spec h hroom) ?_
  rintro _ _ ⟨rfl, rfl⟩
  exact Spec.pure ⟨rfl, rfl⟩

/-- One `\u` sequence or two of them, in front of the closing quote. -/
theorem utf16LiteralToUtf8_spec {content s post : Bytes} {input : ℕ} {a : A} {w : Bytes}
    {rest : List (Option UInt8)} (h : content.drop input = 92 :: 117 :: (s ++ 34 :: post))
    (hroom : ∀ p, Json.literal s = some p → (Json.utf8Encode p.2).length ≤ rest.length) :
    Spec (utf16LiteralToUtf8 content input (input + 2 + s.length) (some a) w.length)
      ({(a, .chars (.written w rest))} : Multiset (A × Cell A ν))
      (Encodes a w rest (Json.literal s)) := by
  have hbound := fun p ↦ Json.length_utf8Encode_literal (s := s) (p := p)
  rw [utf16LiteralToUtf8]
  by_cases hlen : s.length < 4
  · have hnone : Json.literal s = none := by
      unfold Json.literal
      split
      · next h₁ h₂ h₃ h₄ s =>
          simp only [List.length_cons] at hlen
          omega
      · rfl
    rw [if_pos (by omega), hnone]
    exact Spec.pure ⟨rfl, rfl⟩
  rw [if_neg (by omega)]
  obtain ⟨h₁, h₂, h₃, h₄, s, rfl⟩ := exists_four (Nat.le_of_not_lt hlen)
  refine Spec.parseHex4At (drop_of_drop h 2) ?_
  unfold Json.literal at hroom hbound ⊢
  simp only [List.length_cons] at hroom hbound ⊢
  split
  · exact Spec.pure ⟨rfl, rfl⟩
  next hlow =>
  rw [if_neg hlow] at hroom hbound
  split
  · next hhigh =>
      rw [if_pos hhigh] at hroom hbound
      by_cases hlen : s.length < 6
      · rw [if_pos (by omega)]
        split
        · simp only [List.length_cons] at hlen
          omega
        · exact Spec.pure ⟨rfl, rfl⟩
      rw [if_neg (by omega)]
      obtain ⟨c, s, rfl⟩ := List.exists_cons_of_length_pos (Nat.lt_of_lt_of_le (by decide)
        (Nat.le_of_not_lt hlen))
      obtain ⟨d, s, rfl⟩ := List.exists_cons_of_length_pos (Nat.lt_of_lt_of_le (by decide)
        (Nat.le_of_succ_le_succ (Nat.le_of_not_lt hlen)))
      simp only [List.length_cons] at hlen
      obtain ⟨l₁, l₂, l₃, l₄, s, rfl⟩ := exists_four (s := s) (by omega)
      refine Spec.byteAt (getElem?_of_drop h 6) (Spec.byteAt (getElem?_of_drop h 7) ?_)
      split
      · next hcd =>
          split
          · next he =>
              cases he
              simp at hcd
          · exact Spec.pure ⟨rfl, rfl⟩
      · next hcd =>
          obtain ⟨rfl, rfl⟩ : c = 92 ∧ d = 117 := by simpa using hcd
          refine Spec.parseHex4At (drop_of_drop h 8) ?_
          simp only at hroom hbound ⊢
          split
          · exact Spec.pure ⟨rfl, rfl⟩
          · next hsecond =>
              rw [if_neg hsecond] at hroom hbound
              rw [pair_bits]
              exact writeUtf8_encodes (hbound _ rfl).1 (hroom _ rfl)
  · next hhigh =>
      rw [if_neg hhigh] at hroom hbound
      exact writeUtf8_encodes (hbound _ rfl).1 (hroom _ rfl)

end KernelTests.CJson
