import KernelTests.CJson.Create
import KernelTests.CJson.Utf16

/-!
# Strings on their way from a text into memory

`parse_string` goes over a literal twice.  The first pass looks for the closing quote and
counts the escape sequences, which decides how large a block is requested; the second pass
writes the characters into the block, an escape sequence at a time, without looking at
the size again.  Nothing is ever written behind the end of the block
(`parseString_spec`), whatever stands in the literal.
-/

namespace KernelTests.CJson

open Memory

variable {A ν β : Type} [DecidableEq A]

/-! ## The two passes -/

/-- The first pass: where the closing quote is, and how many characters an escape sequence
saves. -/
def findEnd (content : Bytes) : ℕ → (inputEnd skipped : ℕ) → Option (ℕ × ℕ)
  | 0, _, _ => none
  | fuel + 1, inputEnd, skipped =>
    match content[inputEnd]? with
    | none => none
    | some c =>
      if c = 34 then some (inputEnd, skipped)
      else if c = 92 then
        if content.length ≤ inputEnd + 1 then none
        else findEnd content fuel (inputEnd + 2) (skipped + 1)
      else findEnd content fuel (inputEnd + 1) skipped

/-- The second pass: the number of characters written. -/
def unescapeFrom (content : Bytes) (inputEnd : ℕ) (output : Option A) :
    ℕ → (input out : ℕ) → Action A ν (Option ℕ)
  | 0, _, _ => failure
  | fuel + 1, input, out => do
    if input < inputEnd then
      let c ← byteAt content input
      if c ≠ 92 then
        storeByte output out c
        unescapeFrom content inputEnd output fuel (input + 1) (out + 1)
      else
        let e ← byteAt content (input + 1)
        match Json.unescapeLetter e with
        | some d =>
          storeByte output out d
          unescapeFrom content inputEnd output fuel (input + 2) (out + 1)
        | none =>
          if e = 117 then
            match ← utf16LiteralToUtf8 content input inputEnd output out with
            | none => return none
            | some (length, n) =>
              unescapeFrom content inputEnd output fuel (input + length) (out + n)
          else return none
    else return some out

variable (M : Allocator A (Cell A ν))

/-- `parse_string` -/
def parseString (item : Option A) (b : ParseBuffer) : Action A ν (Bool × ParseBuffer) := do
  let c ← byteAt b.content b.offset
  if c ≠ 34 then
    return (false, b)
  else
    match findEnd b.content b.content.length (b.offset + 1) 0 with
    | none => return (false, b)
    | some (inputEnd, skipped) =>
      let output ← alloc M (.chars (.alloc (inputEnd - b.offset - skipped + 1)))
      if output.isNone then
        return (false, b)
      else
        match ← unescapeFrom b.content inputEnd output b.content.length (b.offset + 1) 0 with
        | none =>
          free output
          return (false, b)
        | some out =>
          storeByte output out 0
          modifyNode item (·.setType .string)
          modifyNode item fun n ↦ { n with valuestring := output }
          return (true, { b with offset := inputEnd + 1 })

variable {M}

/-! ## The first pass -/

/-- What the first pass returns from the index `i` on, for what is scanned there: the index of the
closing quote, and how many characters the sequences in front of it save. -/
def Finds (i skipped : ℕ) (r : Option (ℕ × ℕ)) : Option (Bytes × Bytes) → Prop
  | none => r = none
  | some (raw, _) => ∃ k, k + Json.tokens raw = raw.length ∧
      r = some (i + raw.length, skipped + k)

/-- Behind an escape sequence. -/
theorem Finds.backslash {i skipped : ℕ} {r : Option (ℕ × ℕ)} {l : Option (Bytes × Bytes)}
    (d : UInt8) (h : Finds (i + 2) (skipped + 1) r l) :
    Finds i skipped r (l.map fun p ↦ (92 :: d :: p.1, p.2)) := by
  cases l with
  | none => exact h
  | some p =>
      obtain ⟨k, hk, rfl⟩ := h
      refine ⟨k + 1, ?_, ?_⟩
      · rw [Json.tokens_pair]
        simp only [List.length_cons]
        omega
      · simp only [List.length_cons]
        congr 2 <;> omega

/-- Behind any other character. -/
theorem Finds.plain {i skipped : ℕ} {r : Option (ℕ × ℕ)} {l : Option (Bytes × Bytes)}
    {c : UInt8} (hc : c ≠ 92) (h : Finds (i + 1) skipped r l) :
    Finds i skipped r (l.map fun p ↦ (c :: p.1, p.2)) := by
  cases l with
  | none => exact h
  | some p =>
      obtain ⟨k, hk, rfl⟩ := h
      refine ⟨k, ?_, ?_⟩
      · rw [Json.tokens_plain hc]
        simp only [List.length_cons]
        omega
      · simp only [List.length_cons]
        congr 2
        omega

theorem findEnd_quote {content : Bytes} {i : ℕ} (h : content[i]? = some 34) (fuel skipped : ℕ) :
    findEnd content (fuel + 1) i skipped = some (i, skipped) := by
  rw [findEnd, h]
  rfl

theorem findEnd_backslash {content : Bytes} {i : ℕ} (h : content[i]? = some 92)
    (hi : i + 1 < content.length) (fuel skipped : ℕ) :
    findEnd content (fuel + 1) i skipped = findEnd content fuel (i + 2) (skipped + 1) := by
  rw [findEnd, h]
  simp only [if_neg (show ¬ (92 : UInt8) = 34 by decide), if_true]
  exact if_neg (by omega)

theorem findEnd_plain {content : Bytes} {i : ℕ} {c : UInt8} (h : content[i]? = some c)
    (hquote : c ≠ 34) (hc : c ≠ 92) (fuel skipped : ℕ) :
    findEnd content (fuel + 1) i skipped = findEnd content fuel (i + 1) skipped := by
  rw [findEnd, h]
  simp only [if_neg hquote, if_neg hc]

theorem findEnd_of_length_le {content : Bytes} {i : ℕ} (h : content.length ≤ i)
    (fuel skipped : ℕ) : findEnd content fuel i skipped = none := by
  cases fuel with
  | zero => rfl
  | succ fuel => rw [findEnd, List.getElem?_eq_none h]

/-- At the terminator nothing is found any more. -/
theorem findEnd_nul {content : Bytes} {i : ℕ} (h : content.drop i = [0]) (fuel skipped : ℕ) :
    findEnd content fuel i skipped = none := by
  have hlen := congrArg List.length h
  rw [List.length_drop, List.length_singleton] at hlen
  cases fuel with
  | zero => rfl
  | succ fuel =>
      have hc : content[i]? = some 0 := getElem?_of_drop h 0
      rw [findEnd_plain hc (by decide) (by decide)]
      exact findEnd_of_length_le (by omega) fuel skipped

/-- The first pass finds what is scanned. -/
theorem findEnd_spec {content s : Bytes} {i : ℕ} (h : content.drop i = s ++ [0])
    (fuel : ℕ) (hfuel : s.length + 1 < fuel) (skipped : ℕ) :
    Finds i skipped (findEnd content fuel i skipped) (Json.scanString s) := by
  have hlen : content.length = i + (s.length + 1) := by
    have hd := congrArg List.length h
    simp only [List.length_drop, List.length_append, List.length_singleton] at hd
    omega
  induction s using Json.scanString.induct generalizing i fuel skipped with
  | case1 => exact findEnd_nul h fuel skipped
  | case2 s =>
      obtain ⟨fuel, rfl⟩ : ∃ k, fuel = k + 1 := ⟨fuel - 1, by omega⟩
      have hc : content[i]? = some 34 := getElem?_of_drop h 0
      rw [Json.scanString_quote, findEnd_quote hc]
      exact ⟨0, rfl, rfl⟩
  | case3 =>
      obtain ⟨fuel, rfl⟩ : ∃ k, fuel = k + 1 := ⟨fuel - 1, by omega⟩
      have hc : content[i]? = some 92 := getElem?_of_drop h 0
      rw [List.length_singleton] at hlen
      rw [findEnd_backslash hc (by omega)]
      exact findEnd_of_length_le (by omega) fuel (skipped + 1)
  | case4 d s _ ih =>
      obtain ⟨fuel, rfl⟩ : ∃ k, fuel = k + 1 := ⟨fuel - 1, by omega⟩
      have hc : content[i]? = some 92 := getElem?_of_drop h 0
      simp only [List.length_cons] at hlen hfuel
      rw [findEnd_backslash hc (by omega), Json.scanString_backslash]
      exact (ih (drop_of_drop h 2) fuel (by omega) (skipped + 1) (by omega)).backslash d
  | case5 c s hq hb ih =>
      obtain ⟨fuel, rfl⟩ : ∃ k, fuel = k + 1 := ⟨fuel - 1, by omega⟩
      have hc : content[i]? = some c := getElem?_of_drop h 0
      simp only [List.length_cons] at hlen hfuel
      rw [findEnd_plain hc hq hb, Json.scanString_plain hq hb]
      exact (ih (drop_of_drop h 1) fuel (by omega) skipped (by omega)).plain hb

/-! ## The second pass -/

/-- What a block holds after the second pass: the characters and room for the terminator. -/
def Unescapes (a : A) (w : Bytes) (l : Option Bytes) (r : Option ℕ)
    (P : Multiset (A × Cell A ν)) : Prop :=
  match l with
  | none => r = none ∧ ∃ b, P = {(a, .chars b)}
  | some out => r = some (w ++ out).length ∧
      ∃ rest, 0 < rest.length ∧ P = {(a, .chars (.written (w ++ out) rest))}

omit [DecidableEq A] in
theorem Unescapes.append {a : A} {w v : Bytes} {l : Option Bytes} {r : Option ℕ}
    {P : Multiset (A × Cell A ν)} (h : Unescapes a (w ++ v) l r P) :
    Unescapes a w (l.map (v ++ ·)) r P := by
  cases l with
  | none => exact h
  | some out =>
      rw [Unescapes, List.append_assoc] at h
      exact h

theorem unescapeFrom_stop {content : Bytes} {input inputEnd fuel : ℕ} {a : A} {w : Bytes}
    {rest : List (Option UInt8)} (hfuel : 0 < fuel) (h : inputEnd ≤ input)
    (hrest : 0 < rest.length) :
    Spec (unescapeFrom content inputEnd (some a) fuel input w.length)
      ({(a, .chars (.written w rest))} : Multiset (A × Cell A ν)) (Unescapes a w (some [])) := by
  obtain ⟨fuel, rfl⟩ := Nat.exists_eq_add_of_lt hfuel
  rw [Nat.zero_add, unescapeFrom, if_neg (Nat.not_lt.mpr h)]
  refine Spec.pure ⟨by rw [List.append_nil], rest, hrest, ?_⟩
  rw [List.append_nil]

/-- A `\u` sequence and what follows it. -/
theorem unescapeFrom_literal {content s post : Bytes} {input inputEnd fuel : ℕ} {a : A}
    {w : Bytes} {rest : List (Option UInt8)}
    (h : content.drop input = 92 :: 117 :: s ++ 34 :: post)
    (hend : inputEnd = input + 2 + s.length) (hroom : Json.tokens (92 :: 117 :: s) < rest.length)
    (ih : ∀ {raw : Bytes} {input : ℕ} {w : Bytes} {rest : List (Option UInt8)},
      content.drop input = raw ++ 34 :: post → inputEnd = input + raw.length →
        Json.tokens raw < rest.length → raw.length ≤ s.length →
          Spec (unescapeFrom content inputEnd (some a) fuel input w.length)
            ({(a, .chars (.written w rest))} : Multiset (A × Cell A ν))
            (Unescapes a w (Json.unescape raw))) :
    Spec (do
        match ← utf16LiteralToUtf8 content input inputEnd (some a) w.length with
        | none => return none
        | some (length, n) =>
          unescapeFrom content inputEnd (some a) fuel (input + length) (w.length + n))
      ({(a, .chars (.written w rest))} : Multiset (A × Cell A ν))
      (Unescapes a w ((Json.literal s).bind fun p ↦
        (Json.unescape (s.drop (p.1 - 2))).map (Json.utf8Encode p.2 ++ ·))) := by
  have hlit := fun p ↦ Json.length_utf8Encode_literal (s := s) (p := p)
  subst hend
  refine Memory.Spec.bind (utf16LiteralToUtf8_spec h fun p hp ↦ ?_) fun r P hr ↦ ?_
  · have hfits := (hlit p hp).2.2.2
    omega
  cases hp : Json.literal s with
  | none =>
      rw [hp] at hr
      obtain ⟨rfl, rfl⟩ := hr
      exact Spec.pure ⟨rfl, _, rfl⟩
  | some p =>
      rw [hp] at hr
      obtain ⟨rfl, rfl⟩ := hr
      obtain ⟨-, hle, hsix, hfits⟩ := hlit p hp
      have hdrop : content.drop (input + p.1) = s.drop (p.1 - 2) ++ 34 :: post := by
        rw [show input + p.1 = input + (2 + (p.1 - 2)) by omega, drop_of_drop h, ← List.drop_drop]
        exact List.drop_append_of_le_length hle
      have hlen : (s.drop (p.1 - 2)).length = s.length - (p.1 - 2) := List.length_drop
      rw [Option.bind_some]
      simp only
      rw [← List.length_append]
      refine (ih hdrop ?_ ?_ ?_).mono fun _ _ h ↦ h.append
      · omega
      · rw [List.length_drop]
        omega
      · omega

/-- The second pass stays inside a block that has room for what the first pass counted. -/
theorem unescapeFrom_spec {content raw post : Bytes} {input inputEnd : ℕ} {a : A} {w : Bytes}
    {rest : List (Option UInt8)} (h : content.drop input = raw ++ 34 :: post)
    (hend : inputEnd = input + raw.length) (hroom : Json.tokens raw < rest.length) {fuel : ℕ}
    (hfuel : raw.length < fuel) :
    Spec (unescapeFrom content inputEnd (some a) fuel input w.length)
      ({(a, .chars (.written w rest))} : Multiset (A × Cell A ν))
      (Unescapes a w (Json.unescape raw)) := by
  induction fuel generalizing input w rest raw with
  | zero => exact absurd hfuel (Nat.not_lt_zero _)
  | succ fuel ih =>
      cases raw with
      | nil => exact unescapeFrom_stop (Nat.succ_pos _) hend.le hroom
      | cons c s =>
          simp only [List.length_cons] at hend hfuel
          rw [unescapeFrom, if_pos (by omega)]
          refine Spec.byteAt (getElem?_of_drop h 0) ?_
          split
          · next hc =>
              rw [Json.tokens_plain hc] at hroom
              rw [Json.unescape_plain hc]
              refine Spec.storeNext (by omega) ?_
              rw [show w.length + 1 = (w ++ [c]).length by simp]
              refine (ih (drop_of_drop h 1) (by omega) ?_ (by omega)).mono fun _ _ h ↦ h.append
              rw [List.length_tail]
              omega
          · next hc =>
              obtain rfl : c = 92 := by simpa using hc
              cases s with
              | nil =>
                  -- what stands behind the backslash is the closing quote
                  refine Spec.byteAt (getElem?_of_drop h 1) (Spec.storeNext (by omega) ?_)
                  rw [show w.length + 1 = (w ++ [34]).length by simp]
                  refine (unescapeFrom_stop ?_ ?_ ?_).mono fun _ _ h ↦ h.append
                  · exact Nat.lt_of_succ_lt_succ hfuel
                  · simp only [List.length_nil] at hend
                    omega
                  · rw [List.length_tail]
                    exact Nat.sub_pos_of_lt hroom
              | cons e s =>
                  simp only [List.length_cons] at hend hfuel
                  refine Spec.byteAt (getElem?_of_drop h 1) ?_
                  cases hletter : Json.unescapeLetter e with
                  | some d =>
                      rw [Json.tokens_pair] at hroom
                      rw [Json.unescape_letter hletter]
                      refine Spec.storeNext (by omega) ?_
                      rw [show w.length + 1 = (w ++ [d]).length by simp]
                      refine (ih (drop_of_drop h 2) (by omega) ?_ (by omega)).mono
                        fun _ _ h ↦ h.append
                      rw [List.length_tail]
                      omega
                  | none =>
                      simp only
                      by_cases he : e = 117
                      · subst he
                        rw [if_pos rfl, Json.unescape_literal]
                        exact unescapeFrom_literal h (by omega) hroom fun h hend hroom hlen ↦
                          ih h hend hroom (by omega)
                      · rw [if_neg he, Json.unescape_unknown hletter he]
                        exact Spec.pure ⟨rfl, _, rfl⟩

/-! ## The string of a node -/

/-- A block that was filled by `parse_string`. -/
def StringBlock.terminated (a : A) (out : Bytes) (rest : List (Option UInt8)) : StringBlock A where
  addr := a
  block := .written (out ++ [0]) rest
  value := .ofBytes out
  text := by
    rw [Block.written, List.map_append, List.append_assoc]
    exact Block.text_terminated out rest

/-- The fields of a node that was given a string. -/
def Fields.withString (d : Fields A ν) (s : StringBlock A) : Fields A ν :=
  { d with kind := .string, valuestring := some s }

/-- The node gets the string, in a block of its own; or nothing was kept, because the text
does not start with a string or the request failed. -/
theorem parseString_spec {b : ParseBuffer} {s : Bytes} (hb : b.At s) (a : A) (d : Fields A ν)
    (next prev : Option A) :
    Spec (parseString M (some a) b) {(a, .node (d.node none next prev))} fun r P ↦
      (r.1 = false ∧ P = {(a, .node (d.node none next prev))} ∧
        (Json.parseString s = none ∨ ¬ M.Unfailing)) ∨
      ∃ sb t, Json.parseString s = some (sb.value, t) ∧ r.1 = true ∧ b.MovedTo t r.2 ∧
        P = {(a, .node ((d.withString sb).node none next prev))} +
          {(sb.addr, .chars sb.block)} := by
  rw [parseString]
  cases s with
  | nil =>
      refine Spec.byteAt (getElem?_of_drop hb.content 0) ?_
      exact Spec.pure (Or.inl ⟨rfl, rfl, Or.inl rfl⟩)
  | cons c s =>
      refine Spec.byteAt (getElem?_of_drop hb.content 0) ?_
      split
      · next hc => exact Spec.pure (Or.inl ⟨rfl, rfl, Or.inl (if_neg hc)⟩)
      next hc =>
      obtain rfl : c = 34 := by simpa using hc
      have hlen := hb.length
      simp only [List.length_cons] at hlen
      have hdrop : b.content.drop (b.offset + 1) = s ++ [0] := drop_of_drop hb.content 1
      have hfind := findEnd_spec hdrop b.content.length (by omega) 0
      rw [Json.parseString, if_pos rfl]
      cases hs : Json.scanString s with
      | none =>
          rw [hs, Finds] at hfind
          rw [hfind]
          exact Spec.pure (Or.inl ⟨rfl, rfl, Or.inl rfl⟩)
      | some p =>
          obtain ⟨raw, t⟩ := p
          rw [hs] at hfind
          obtain ⟨k, hk, he⟩ := hfind
          rw [he]
          have hraw := Json.scanString_eq_append hs
          have hsize : b.offset + 1 + raw.length - b.offset - (0 + k) + 1 = Json.tokens raw + 2 := by
            omega
          have hlit : b.content.drop (b.offset + 1) = raw ++ 34 :: (t ++ [0]) := by
            rw [hdrop, hraw, List.append_assoc]
            rfl
          have hlong : raw.length < b.content.length := by
            have hl := congrArg List.length hraw
            simp only [List.length_append, List.length_cons] at hl
            omega
          simp only [hsize, Option.bind_eq_bind, Option.bind_some]
          refine Memory.Spec.alloc (fun hM ↦ Spec.pure (Or.inl ⟨rfl, rfl, Or.inr hM⟩)) fun o ↦ ?_
          rw [if_neg (by simp), show (Block.alloc (Json.tokens raw + 2) : Block UInt8) =
            .written [] (List.replicate (Json.tokens raw + 2) none) by rfl]
          refine Memory.Spec.call (R := {(a, .node (d.node none next prev))})
            (unescapeFrom_spec hlit rfl (by rw [List.length_replicate]; omega) hlong) rfl ?_
          intro r P hr
          cases hout : Json.unescape raw with
          | none =>
              rw [hout] at hr
              obtain ⟨rfl, bl, rfl⟩ := hr
              exact Memory.Spec.free rfl rfl (Spec.pure (Or.inl ⟨rfl, rfl, Or.inl rfl⟩))
          | some out =>
              rw [hout] at hr
              obtain ⟨rfl, rest, hrest, rfl⟩ := hr
              obtain ⟨r₀, rest, rfl⟩ := List.exists_cons_of_length_pos hrest
              refine Spec.storeByte 0 rfl hrest rfl ?_
              refine Spec.modifyNode rfl (add_comm _ _) (Spec.modifyNode rfl rfl (Spec.pure ?_))
              refine Or.inr ⟨.terminated o out rest, t, rfl, rfl, ?_, ?_⟩
              · have hmoved := hb.advance (n := raw.length + 2) ?_
                · have hdropped : (34 :: s).drop (raw.length + 2) = t := by
                    rw [hraw]
                    simp [List.drop_append]
                  rw [hdropped] at hmoved
                  have hoff : b.offset + 1 + raw.length + 1 = b.offset + (raw.length + 2) := by
                    omega
                  rw [hoff]
                  exact hmoved
                · have hl := congrArg List.length hraw
                  simp only [List.length_append, List.length_cons] at hl ⊢
                  omega
              · simp [StringBlock.terminated, Block.written]
                rfl

end KernelTests.CJson