import KernelTests.CJson.Create
import KernelTests.Json.RoundTrip

/-!
# The buffer a value is printed into

`printbuffer`, `ensure` and the functions that write a string or a number at the end of the
buffer.  The buffer grows by `realloc`; if that fails it has been released.  Each function
either appends its text, terminated, or reports a failure, and fails only if a request
failed or the text has become too long for an `int`.
-/

namespace KernelTests.CJson

open Memory

variable {A ν α : Type} [DecidableEq A]

/-! ## The program -/

/-- `INT_MAX` -/
def intMax : ℕ := 2147483647

/-- `printbuffer`, for unformatted output -/
structure PrintBuffer (A : Type) where
  buffer : Option A
  length : ℕ
  offset : ℕ

/-- The size `ensure` asks for. -/
def newSize (needed : ℕ) : Option ℕ :=
  if intMax / 2 < needed then if needed ≤ intMax then some intMax else none
  else some (needed * 2)

/-- `realloc`, of a block of characters -/
def reallocChars (M : Allocator A (Cell A ν)) (size : ℕ) (p : Option A) : Action A ν (Option A) :=
  realloc M (fun
    | .node n => .node n
    | .chars b => .chars (b.resize size)) p

/-- What a function of the printer returns: whether it succeeded, and the buffer. -/
abbrev Printed (A : Type) := Bool × PrintBuffer A

/-- `if (!c) return false;` -/
def orFail (c : Action A ν (Printed A)) (k : PrintBuffer A → Action A ν (Printed A)) :
    Action A ν (Printed A) := do
  let r ← c
  if r.1 then k r.2 else return r

/-- `ensure`; the pointer it delivers is `buffer + offset`. -/
def ensure (M : Allocator A (Cell A ν)) (p : PrintBuffer A) (needed : ℕ) :
    Action A ν (Printed A) := do
  if p.buffer.isNone then
    return (false, p)
  else if 0 < p.length ∧ p.length ≤ p.offset then
    return (false, p)
  else if intMax < needed then
    return (false, p)
  else if needed + p.offset + 1 ≤ p.length then
    return (true, p)
  else
    match newSize (needed + p.offset + 1) with
    | none => return (false, p)
    | some newsize =>
      let newbuffer ← reallocChars M newsize p.buffer
      if newbuffer.isNone then
        free p.buffer
        return (false, { p with buffer := none, length := 0 })
      else
        return (true, { p with buffer := newbuffer, length := newsize })

/-- `update_offset` -/
def updateOffset (p : PrintBuffer A) : Action A ν (PrintBuffer A) := do
  if p.buffer.isNone then
    return p
  else
    let b ← loadChars p.buffer
    match Block.scan (b.cells.drop p.offset) with
    | some s => return { p with offset := p.offset + s.length }
    | none => failure

variable (M : Allocator A (Cell A ν))

/-- Print a text and its terminator. -/
def printConstant (text : Bytes) (p : PrintBuffer A) : Action A ν (Printed A) :=
  orFail (ensure M p (text.length + 1)) fun p ↦ do
    storeBytes p.buffer p.offset (text ++ [0])
    return (true, p)

/-- The additional characters an escaped character needs. -/
def escapeCharacters (c : UInt8) : ℕ :=
  if c = 34 ∨ c = 92 ∨ c = 8 ∨ c = 12 ∨ c = 10 ∨ c = 13 ∨ c = 9 then 1
  else if c < 32 then 5
  else 0

/-- The loop of `print_string_ptr` that copies the string. -/
def escapeInto (output : Option A) : Bytes → ℕ → Action A ν Unit
  | [], _ => return ()
  | c :: s, i => do
    if 31 < c ∧ c ≠ 34 ∧ c ≠ 92 then
      storeBytes output i [c]
      escapeInto output s (i + 1)
    else
      storeBytes output i [92]
      match Json.escapeLetter c with
      | some e =>
        storeBytes output (i + 1) [e]
        escapeInto output s (i + 2)
      | none =>
        -- `sprintf` writes a terminator, which the next character replaces
        storeBytes output (i + 1) [117, 48, 48, Json.hexDigit (c.toNat / 16),
          Json.hexDigit (c.toNat % 16), 0]
        escapeInto output s (i + 6)

/-- `print_string_ptr` -/
def printStringPtr (input : Option A) (p : PrintBuffer A) : Action A ν (Printed A) := do
  if input.isNone then
    printConstant M [34, 34] p
  else
    let s ← loadText input
    let escape := (s.bytes.map escapeCharacters).sum
    let outputLength := s.bytes.length + escape
    orFail (ensure M p (outputLength + 3)) fun p ↦ do
      if escape = 0 then
        storeBytes p.buffer p.offset (34 :: s.bytes ++ [34, 0])
        return (true, p)
      else
        storeBytes p.buffer p.offset [34]
        escapeInto p.buffer s.bytes (p.offset + 1)
        storeBytes p.buffer (p.offset + outputLength + 1) [34]
        storeBytes p.buffer (p.offset + outputLength + 2) [0]
        return (true, p)

/-- `print_number` -/
def printNumber [CDouble ν] (n : Node A ν) (p : PrintBuffer A) : Action A ν (Printed A) :=
  let text := CDouble.numberText n.valuedouble n.valueint
  if 25 < text.length then return (false, p)
  else orFail (ensure M p (text.length + 1)) fun p ↦ do
    storeBytes p.buffer p.offset (text ++ [0])
    return (true, { p with offset := p.offset + text.length })

variable {M}

/-! ## States of the buffer -/

namespace PrintBuffer

/-- The characters `w` were printed, and the buffer is at their end. -/
def At (p : PrintBuffer A) (w : Bytes) (P : Multiset (A × Cell A ν)) : Prop :=
  ∃ a rest, p.buffer = some a ∧ p.offset = w.length ∧ p.length = w.length + rest.length ∧
    0 < rest.length ∧ P = {(a, .chars (.written w rest))}

/-- Behind `w`, the characters `out` were printed and terminated, and the buffer is somewhere
among them. -/
def Wrote (p : PrintBuffer A) (w out : Bytes) (P : Multiset (A × Cell A ν)) : Prop :=
  ∃ a rest, p.buffer = some a ∧ w.length ≤ p.offset ∧ p.offset ≤ (w ++ out).length ∧
    p.length = (w ++ out).length + 1 + rest.length ∧
      P = {(a, .chars (.written (w ++ out ++ [0]) rest))}

/-- The buffer after a failure: released already, or still to be released. -/
def Failed (p : PrintBuffer A) (P : Multiset (A × Cell A ν)) : Prop :=
  (p.buffer = none ∧ P = 0) ∨ ∃ a b, p.buffer = some a ∧ P = {(a, .chars b)}

end PrintBuffer

/-- Next to cells `R` that are only read, a function of the printer fails, for a reason, or
leaves the buffer as described. -/
def Prints (why : Prop) (R : Multiset (A × Cell A ν))
    (good : PrintBuffer A → Multiset (A × Cell A ν) → Prop) (r : Bool × PrintBuffer A)
    (P : Multiset (A × Cell A ν)) : Prop :=
  ∃ P₀, P = P₀ + R ∧ ((r.1 = false ∧ r.2.Failed P₀ ∧ why) ∨ (r.1 = true ∧ good r.2 P₀))

/-- Why a text of some length cannot be printed: a request fails, or it is too long. -/
def Overlong (M : Allocator A (Cell A ν)) (n : ℕ) : Prop := ¬ M.Unfailing ∨ intMax < n + 2

omit [DecidableEq A] in
theorem Overlong.mono {n n' : ℕ} (h : Overlong M n) (hn : n ≤ n') : Overlong M n' :=
  h.imp_right fun h ↦ by omega

omit [DecidableEq A] in
/-- A function of the printer and what follows it. -/
theorem Spec.orFail {c : Action A ν (Printed A)} {k : PrintBuffer A → Action A ν (Printed A)}
    {why why' : Prop} {P P₀ R T S : Multiset (A × Cell A ν)}
    {good good' : PrintBuffer A → Multiset (A × Cell A ν) → Prop}
    (hc : Spec c (P₀ + R) (Prints why R good)) (hP : P = P₀ + R + T) (hS : R + T = S)
    (hwhy : why → why') (hk : ∀ p P₁, good p P₁ → Spec (k p) (P₁ + S) (Prints why' S good')) :
    Spec (CJson.orFail c k) P (Prints why' S good') := by
  subst hS
  refine Memory.Spec.call hc hP ?_
  rintro ⟨ok, p⟩ _ ⟨P₁, rfl, ⟨rfl, hfail, h⟩ | ⟨rfl, hgood⟩⟩
  · exact Spec.pure ⟨P₁, add_assoc _ _ _, Or.inl ⟨rfl, hfail, hwhy h⟩⟩
  · rw [add_assoc]
    exact hk p P₁ hgood

omit [DecidableEq A] in
/-- More cells take no part, and what is known of the buffer is weakened. -/
theorem Spec.prints_mono {c : Action A ν (Printed A)} {why why' : Prop}
    {P R R' S : Multiset (A × Cell A ν)}
    {good good' : PrintBuffer A → Multiset (A × Cell A ν) → Prop}
    (hc : Spec c (P + R) (Prints why R good)) (hS : R + R' = S) (hwhy : why → why')
    (hgood : ∀ p P₁, good p P₁ → good' p P₁) : Spec c (P + S) (Prints why' S good') := by
  subst hS
  refine Memory.Spec.tail hc (add_assoc _ _ _).symm ?_
  rintro ⟨ok, p⟩ _ ⟨P₁, rfl, ⟨rfl, hfail, h⟩ | ⟨rfl, hp⟩⟩
  · exact ⟨P₁, add_assoc _ _ _, Or.inl ⟨rfl, hfail, hwhy h⟩⟩
  · exact ⟨P₁, add_assoc _ _ _, Or.inr ⟨rfl, hgood p P₁ hp⟩⟩

omit [DecidableEq A] in
/-- The buffer has moved to the terminator. -/
theorem PrintBuffer.Wrote.at_end {p : PrintBuffer A} {w out : Bytes}
    {P : Multiset (A × Cell A ν)} (h : p.Wrote w out P) (hend : p.offset = (w ++ out).length) :
    p.At (w ++ out) P := by
  obtain ⟨a, rest, hbuffer, -, -, hlength, rfl⟩ := h
  refine ⟨a, some 0 :: rest, hbuffer, hend, ?_, Nat.succ_pos _, ?_⟩
  · rw [hlength, List.length_cons]
    omega
  · rw [Block.written_append]
    rfl

omit [DecidableEq A] in
/-- What was printed in several steps. -/
theorem PrintBuffer.Wrote.append {p : PrintBuffer A} {w u v : Bytes}
    {P : Multiset (A × Cell A ν)} (h : p.Wrote (w ++ u) v P) : p.Wrote w (u ++ v) P := by
  obtain ⟨a, rest, hbuffer, hle, hle', hlength, rfl⟩ := h
  rw [List.length_append] at hle
  rw [List.append_assoc w u v] at hle' hlength
  refine ⟨a, rest, hbuffer, by omega, hle', hlength, ?_⟩
  rw [List.append_assoc w u v]

/-! ## Growing and moving on -/

theorem newSize_spec {needed size : ℕ} (h : newSize needed = some size) : needed ≤ size := by
  unfold newSize at h
  split at h
  · split at h
    · cases h
      assumption
    · cases h
  · cases h
    omega

theorem newSize_none {needed : ℕ} (h : newSize needed = none) : intMax < needed := by
  unfold newSize at h
  split at h
  · split at h
    · cases h
    · omega
  · cases h

/-- The buffer at the end of `w`, with room for more than `n` characters. -/
def PrintBuffer.Room (p : PrintBuffer A) (w : Bytes) (n : ℕ) (P : Multiset (A × Cell A ν)) :
    Prop :=
  ∃ a rest, p.buffer = some a ∧ p.offset = w.length ∧ p.length = w.length + rest.length ∧
    n < rest.length ∧ P = {(a, .chars (.written w rest))}

theorem ensure_spec {p : PrintBuffer A} {w : Bytes} {P : Multiset (A × Cell A ν)}
    (hp : p.At w P) (needed : ℕ) (R : Multiset (A × Cell A ν)) :
    Spec (ensure M p needed) (P + R)
      (Prints (¬ M.Unfailing ∨ intMax < w.length + needed + 1) R (·.Room w needed)) := by
  obtain ⟨a, rest, hbuffer, hoffset, hlength, hrest, rfl⟩ := hp
  have hfailed : ∀ why : Prop, why → Prints why R (PrintBuffer.Room · w needed)
      (false, p) ({(a, .chars (.written w rest))} + R) :=
    fun why h ↦ ⟨_, rfl, Or.inl ⟨rfl, Or.inr ⟨a, _, hbuffer, rfl⟩, h⟩⟩
  rw [ensure, if_neg (by simp [hbuffer]), if_neg (by omega)]
  split
  · exact Spec.pure (hfailed _ (Or.inr (by omega)))
  split
  · exact Spec.pure ⟨_, rfl, Or.inr ⟨rfl, a, rest, hbuffer, hoffset, hlength, by omega, rfl⟩⟩
  next hmore =>
  cases hsize : newSize (needed + p.offset + 1) with
  | none =>
      have hlong := newSize_none hsize
      exact Spec.pure (hfailed _ (Or.inr (by omega)))
  | some size =>
      have hle := newSize_spec hsize
      refine Memory.Spec.realloc hbuffer rfl (fun hM ↦ ?_) fun b ↦ ?_
      · refine Memory.Spec.free hbuffer rfl (Spec.pure ?_)
        exact ⟨0, (zero_add R).symm, Or.inl ⟨rfl, Or.inl ⟨rfl, rfl⟩, Or.inl hM⟩⟩
      · refine Spec.pure ⟨_, rfl, Or.inr ⟨rfl, b, _, rfl, hoffset, ?_, ?_,
          congrArg (fun bl ↦ {(b, Cell.chars bl)}) (Block.resize_written (by omega))⟩⟩
        · simp only [List.length_append, List.length_replicate]
          omega
        · simp only [List.length_append, List.length_replicate]
          omega

/-- The length of what was printed last, counted up to the terminator. -/
theorem updateOffset_spec {p : PrintBuffer A} {w out : Bytes}
    {P : Multiset (A × Cell A ν)} (hp : p.Wrote w out P) (hout : 0 ∉ out)
    (R : Multiset (A × Cell A ν)) :
    Spec (updateOffset p) (P + R) fun p' P' ↦ ∃ P₁, P' = P₁ + R ∧ p'.At (w ++ out) P₁ ∧
      p'.Wrote w out P₁ := by
  obtain ⟨a, rest, hbuffer, hle, hle', hlength, rfl⟩ := hp
  obtain ⟨k, hk⟩ : ∃ k, p.offset = w.length + k := Nat.exists_eq_add_of_le hle
  rw [List.length_append] at hle'
  have hscan : Block.scan ((Block.written (w ++ out ++ [0]) rest).cells.drop p.offset) =
      some (out.drop k) := by
    have hdrop : (Block.written (w ++ out ++ [0]) rest).cells.drop p.offset =
        (out.drop k).map some ++ some 0 :: rest := by
      rw [hk, ← List.drop_drop, Block.written_append, Block.written, List.map_append,
        List.append_assoc, List.drop_left' (by simp), List.drop_append_of_le_length (by simp; omega),
        List.map_drop]
      rfl
    rw [hdrop, Block.scan_terminated]
    refine congrArg some (List.takeWhile_eq_self_iff.mpr fun c hc ↦ ?_)
    simpa using fun h0 : c = 0 ↦ hout (h0 ▸ List.mem_of_mem_drop hc)
  rw [updateOffset, if_neg (by simp [hbuffer])]
  refine Spec.loadChars hbuffer rfl ?_
  rw [hscan]
  have hend : p.offset + (out.drop k).length = (w ++ out).length := by
    rw [List.length_drop, List.length_append]
    omega
  have hwrote : { p with offset := p.offset + (out.drop k).length }.Wrote w out
      ({(a, Cell.chars (.written (w ++ out ++ [0]) rest))} : Multiset (A × Cell A ν)) :=
    ⟨a, rest, hbuffer, Nat.le_add_right_of_le hle, hend.le, hlength, rfl⟩
  exact Spec.pure ⟨_, rfl, hwrote.at_end hend, hwrote⟩

/-! ## Texts -/

/-- A text with its terminator, stored where there is room for it. -/
theorem PrintBuffer.Room.store {p : PrintBuffer A} {w : Bytes} {n : ℕ}
    {P R : Multiset (A × Cell A ν)} {Q : α → Multiset (A × Cell A ν) → Prop}
    {k : Unit → Action A ν α} (hp : p.Room w n P) (text : Bytes) (hn : text.length ≤ n)
    (hk : ∀ P₁, (∀ i ≤ text.length, { p with offset := p.offset + i }.Wrote w text P₁) →
      Spec (k ()) (P₁ + R) Q) :
    Spec (storeBytes p.buffer p.offset (text ++ [0]) >>= k) (P + R) Q := by
  obtain ⟨a, rest, hbuffer, hoffset, hlength, hrest, rfl⟩ := hp
  have hlen : (text ++ [0]).length = text.length + 1 := by simp
  refine Spec.storeBytes hbuffer hoffset (by omega) rfl (hk _ fun i hi ↦ ?_)
  refine ⟨a, rest.drop (text ++ [0]).length, hbuffer, by simp only; omega,
    by simp only [List.length_append]; omega, ?_, ?_⟩
  · rw [List.length_drop, hlen, List.length_append, hlength]
    omega
  · rw [List.append_assoc]

theorem printConstant_spec (text : Bytes) {p : PrintBuffer A} {w : Bytes}
    {P : Multiset (A × Cell A ν)} (hp : p.At w P) (R : Multiset (A × Cell A ν)) :
    Spec (printConstant M text p) (P + R)
      (Prints (Overlong M (w ++ text).length) R (·.Wrote w text)) := by
  refine Spec.orFail (T := 0) (ensure_spec hp (text.length + 1) R) (add_zero _).symm (add_zero R)
    (fun h ↦ h.imp_right fun h ↦ ?_) fun p P₁ hp ↦ ?_
  · rw [List.length_append]
    omega
  · exact hp.store text (Nat.le_succ _) fun P₂ h ↦
      Spec.pure ⟨P₂, rfl, Or.inr ⟨rfl, h 0 (Nat.zero_le _)⟩⟩

theorem printNumber_spec [CDouble ν] (n : Node A ν) {text : Bytes}
    (htext : CDouble.numberText n.valuedouble n.valueint = text) (hshort : text.length ≤ 25)
    {p : PrintBuffer A} {w : Bytes} {P : Multiset (A × Cell A ν)} (hp : p.At w P)
    (R : Multiset (A × Cell A ν)) :
    Spec (printNumber M n p) (P + R)
      (Prints (Overlong M (w ++ text).length) R (·.Wrote w text)) := by
  rw [printNumber, htext, if_neg (Nat.not_lt.mpr hshort)]
  refine Spec.orFail (T := 0) (ensure_spec hp (text.length + 1) R) (add_zero _).symm (add_zero R)
    (fun h ↦ h.imp_right fun h ↦ ?_) fun p P₁ hp ↦ ?_
  · rw [List.length_append]
    omega
  · exact hp.store text (Nat.le_succ _) fun P₂ h ↦
      Spec.pure ⟨P₂, rfl, Or.inr ⟨rfl, h text.length le_rfl⟩⟩

/-! ## Strings -/

/-- What the first pass counts is what escaping adds. -/
theorem escapeByte_cost (c : UInt8) : (Json.escapeByte c).length = 1 + escapeCharacters c ∧
    (escapeCharacters c = 0 → Json.escapeByte c = [c]) := by
  have h : ∀ n < 256, (Json.escapeByte (UInt8.ofNat n)).length =
      1 + escapeCharacters (UInt8.ofNat n) ∧ (escapeCharacters (UInt8.ofNat n) = 0 →
        Json.escapeByte (UInt8.ofNat n) = [UInt8.ofNat n]) := by
    decide +kernel
  have hc := h c.toNat c.toNat_lt
  rwa [UInt8.ofNat_toNat] at hc

theorem length_escape (s : Bytes) :
    (Json.escape s).length = s.length + (s.map escapeCharacters).sum := by
  induction s with
  | nil => rfl
  | cons c s ih =>
      have hc := (escapeByte_cost c).1
      rw [Json.escape, List.flatMap_cons, List.length_append, ← Json.escape, ih, List.map_cons,
        List.sum_cons, List.length_cons]
      omega

theorem escape_of_sum_eq_zero {s : Bytes} (h : (s.map escapeCharacters).sum = 0) :
    Json.escape s = s := by
  induction s with
  | nil => rfl
  | cons c s ih =>
      rw [List.map_cons, List.sum_cons, Nat.add_eq_zero_iff] at h
      rw [Json.escape, List.flatMap_cons, ← Json.escape, (escapeByte_cost c).2 h.1, ih h.2]
      rfl

/-- The copy of the string is the escaped string, and its terminators stay inside the block. -/
theorem escapeInto_spec (s : Bytes) {a : A} {w : Bytes} {rest : List (Option UInt8)}
    (hroom : (Json.escape s).length < rest.length) {Q : α → Multiset (A × Cell A ν) → Prop}
    {R : Multiset (A × Cell A ν)} {k : Unit → Action A ν α}
    (hk : ∀ rest', rest'.length + (Json.escape s).length = rest.length →
      Spec (k ()) ({(a, .chars (.written (w ++ Json.escape s) rest'))} + R) Q) :
    Spec (escapeInto (some a) s w.length >>= k) ({(a, .chars (.written w rest))} + R) Q := by
  induction s generalizing w rest with
  | nil =>
      rw [escapeInto, pure_bind]
      have h := hk rest rfl
      rwa [Json.escape, List.flatMap_nil, List.append_nil] at h
  | cons c s ih =>
      have hesc : Json.escape (c :: s) = Json.escapeByte c ++ Json.escape s := rfl
      rw [hesc, List.length_append] at hroom hk
      -- whatever was written for `c`, the other characters follow
      have hnext : ∀ {i : ℕ} {rest₁ : List (Option UInt8)},
          i = w.length + (Json.escapeByte c).length →
          rest₁.length + (Json.escapeByte c).length = rest.length →
          Spec (escapeInto (some a) s i >>= k)
            ({(a, .chars (.written (w ++ Json.escapeByte c) rest₁))} + R) Q := by
        intro i rest₁ hi hrest₁
        rw [hi, ← List.length_append]
        refine ih (by omega) fun rest' hrest' ↦ ?_
        rw [List.append_assoc]
        exact hk rest' (by omega)
      rw [escapeInto]
      by_cases hc : 31 < c ∧ c ≠ 34 ∧ c ≠ 92
      · have hbyte : Json.escapeByte c = [c] := if_pos hc
        rw [hbyte, List.length_singleton] at hnext hroom
        rw [if_pos hc, bind_assoc]
        refine Spec.storeBytes rfl rfl (by rw [List.length_singleton]; omega) rfl (hnext rfl ?_)
        rw [List.length_drop, List.length_singleton]
        omega
      · have hbyte : Json.escapeByte c = match Json.escapeLetter c with
            | some e => [92, e]
            | none => [92, 117, 48, 48, Json.hexDigit (c.toNat / 16),
                Json.hexDigit (c.toNat % 16)] := if_neg hc
        rw [if_neg hc, bind_assoc]
        cases hletter : Json.escapeLetter c with
        | some e =>
            rw [hletter] at hbyte
            rw [hbyte] at hnext hroom
            simp only [List.length_cons, List.length_nil] at hnext hroom
            refine Spec.storeBytes rfl rfl (by rw [List.length_singleton]; omega) rfl ?_
            rw [bind_assoc]
            refine Spec.storeBytes rfl (by simp) ?_ rfl ?_
            · rw [List.length_drop, List.length_singleton, List.length_singleton]
              omega
            · rw [List.append_assoc]
              refine hnext rfl ?_
              simp only [List.length_drop, List.length_singleton]
              omega
        | none =>
            rw [hletter] at hbyte
            rw [hbyte] at hnext hroom
            simp only [List.length_cons, List.length_nil] at hnext hroom
            refine Spec.storeBytes rfl rfl (by rw [List.length_singleton]; omega) rfl ?_
            rw [bind_assoc]
            refine Spec.storeBytes rfl (by simp) ?_ rfl ?_
            · simp only [List.length_drop, List.length_cons, List.length_nil]
              omega
            · rw [show w ++ [92] ++ [117, 48, 48, Json.hexDigit (c.toNat / 16),
                Json.hexDigit (c.toNat % 16), 0] = w ++ [92, 117, 48, 48,
                  Json.hexDigit (c.toNat / 16), Json.hexDigit (c.toNat % 16)] ++ [0] by simp,
                Block.written_append]
              refine hnext rfl ?_
              simp only [List.length_drop, List.length_append, List.length_map, List.length_cons,
                List.length_nil]
              omega

/-- A string is printed with its quotes and its escape sequences. -/
theorem printStringPtr_spec {b : StringBlock A} {R : Multiset (A × Cell A ν)}
    (hb : (b.addr, .chars b.block) ∈ R) {p : PrintBuffer A} {w : Bytes}
    {P : Multiset (A × Cell A ν)} (hp : p.At w P) :
    Spec (printStringPtr M (some b.addr) p) (P + R)
      (Prints (Overlong M (w ++ Json.printString b.value).length) R
        (·.Wrote w (Json.printString b.value))) := by
  have hlen := length_escape b.value.bytes
  have hprint : (Json.printString b.value).length =
      b.value.bytes.length + (b.value.bytes.map escapeCharacters).sum + 2 := by
    rw [Json.printString, List.length_append, List.length_cons, hlen]
    rfl
  rw [printStringPtr, if_neg (by simp)]
  refine Spec.loadText rfl (Multiset.mem_add.mpr (Or.inr hb)) b.text ?_
  refine Spec.orFail (T := 0) (ensure_spec hp _ R) (add_zero _).symm (add_zero R)
    (fun h ↦ h.imp_right fun h ↦ ?_) fun p P₁ hp ↦ ?_
  · rw [List.length_append]
    omega
  split
  · next hzero =>
      have hsame : 34 :: b.value.bytes ++ [34, 0] = Json.printString b.value ++ [0] := by
        rw [Json.printString, escape_of_sum_eq_zero hzero, List.append_assoc]
        rfl
      rw [hsame]
      exact hp.store (Json.printString b.value) (by omega) fun P₂ h ↦
        Spec.pure ⟨P₂, rfl, Or.inr ⟨rfl, h 0 (Nat.zero_le _)⟩⟩
  · obtain ⟨a, rest, hbuffer, hoffset, hlength, hrest, rfl⟩ := hp
    refine Spec.storeBytes hbuffer hoffset (by rw [List.length_singleton]; omega) rfl ?_
    rw [hbuffer, hoffset, show w.length + 1 = (w ++ [34]).length by simp]
    refine escapeInto_spec _ ?_ fun rest' hrest' ↦ ?_
    · rw [List.length_drop, List.length_singleton]
      omega
    rw [List.length_drop, List.length_singleton] at hrest'
    obtain ⟨r₁, rest', rfl⟩ := List.exists_cons_of_length_pos (l := rest') (by omega)
    rw [List.length_cons] at hrest'
    obtain ⟨r₂, rest', rfl⟩ := List.exists_cons_of_length_pos (l := rest') (by omega)
    rw [List.length_cons] at hrest'
    have htext : w ++ [34] ++ Json.escape b.value.bytes ++ [34] ++ [0] =
        w ++ Json.printString b.value ++ [0] := by
      simp [Json.printString]
    refine Spec.storeBytes rfl ?_ (by simp) rfl (Spec.storeBytes rfl ?_ (by simp) rfl
      (Spec.pure ⟨_, rfl, Or.inr ⟨rfl, a, rest', hbuffer, hoffset.ge, ?_, ?_, ?_⟩⟩))
    · simp only [List.length_append, List.length_singleton]
      omega
    · simp only [List.length_append, List.length_singleton]
      omega
    · simp only [List.length_append]
      omega
    · simp only [List.length_append]
      omega
    · rw [htext]
      rfl

end KernelTests.CJson
