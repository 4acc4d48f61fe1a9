import KernelTests.CJson.Node
import KernelTests.Json.Parse

/-!
# The text that is read and the block that is written

`parse_buffer` and the single reads and writes the parser makes.  What is left of the text
is a suffix of it in front of the NUL, `ParseBuffer.At`.  A block that is being filled is
split into the characters written so far and the cells behind them.
-/

namespace KernelTests.CJson

open Memory

variable {A ν β : Type}

/-- `parse_buffer`; the length is that of the content, which ends with a NUL. -/
structure ParseBuffer where
  content : Bytes
  offset : ℕ
  depth : ℕ

namespace ParseBuffer

/-- `can_read` -/
def canRead (b : ParseBuffer) (size : ℕ) : Bool := b.offset + size ≤ b.content.length

/-- `can_read` and `strncmp`, with a word that holds no NUL -/
def startsWith (b : ParseBuffer) (word : Bytes) : Bool :=
  b.canRead word.length && decide (word <+: b.content.drop b.offset)

/-- `can_access_at_index(b, 0) && buffer_at_offset(b)[0] == c` -/
def sees (b : ParseBuffer) (c : UInt8) : Bool := b.content[b.offset]? = some c

/-- `offset += n` -/
def advance (b : ParseBuffer) (n : ℕ) : ParseBuffer := { b with offset := b.offset + n }

/-- `offset--` -/
def back (b : ParseBuffer) : ParseBuffer := { b with offset := b.offset - 1 }

/-- `buffer_skip_whitespace` -/
def skipWhitespace (b : ParseBuffer) : ParseBuffer :=
  if b.content.length ≤ b.offset then b
  else
    let offset := b.offset + ((b.content.drop b.offset).takeWhile (· ≤ 32)).length
    { b with offset := if offset = b.content.length then offset - 1 else offset }

/-- `skip_utf8_bom` -/
def skipBom (b : ParseBuffer) : ParseBuffer :=
  if b.offset + 4 < b.content.length ∧ [0xEF, 0xBB, 0xBF] <+: b.content.drop b.offset then
    b.advance 3
  else b

/-- What is left to read is `s`, in front of the NUL. -/
structure At (b : ParseBuffer) (s : Bytes) : Prop where
  content : b.content.drop b.offset = s ++ [0]
  inside : b.offset < b.content.length

/-- The buffer after a part of it was read: `s` is left. -/
structure MovedTo (b : ParseBuffer) (s : Bytes) (b' : ParseBuffer) : Prop where
  content : b'.content = b.content
  depth : b'.depth = b.depth
  left : b'.At s

end ParseBuffer

/-! ## Reading -/

/-- The characters of a text from some place on. -/
theorem getElem?_of_drop {content s : Bytes} {i : ℕ} (h : content.drop i = s) (k : ℕ) :
    content[i + k]? = s[k]? := by
  rw [← h, List.getElem?_drop]

theorem drop_of_drop {content s : Bytes} {i : ℕ} (h : content.drop i = s) (k : ℕ) :
    content.drop (i + k) = s.drop k := by
  rw [← h, List.drop_drop]

namespace ParseBuffer

variable {b b₁ b₂ : ParseBuffer} {s t : Bytes}

theorem At.length (h : b.At s) : b.content.length = b.offset + (s.length + 1) := by
  have hd := congrArg List.length h.content
  have hi := h.inside
  simp only [List.length_drop, List.length_append, List.length_singleton] at hd
  omega

theorem At.rest (h : b.At s) : b.MovedTo s b := ⟨rfl, rfl, h⟩

theorem MovedTo.trans (h : b.MovedTo s b₁) (h' : b₁.MovedTo t b₂) : b.MovedTo t b₂ :=
  ⟨h'.content.trans h.content, h'.depth.trans h.depth, h'.left⟩

/-- Reading on. -/
theorem At.advance (h : b.At s) {n : ℕ} (hn : n ≤ s.length) :
    b.MovedTo (s.drop n) (b.advance n) where
  content := rfl
  depth := rfl
  left :=
    { content := (drop_of_drop h.content n).trans (List.drop_append_of_le_length hn)
      inside := by
        have hlen := h.length
        simp only [ParseBuffer.advance]
        omega }

/-- The next character. -/
theorem At.sees (h : b.At s) {c : UInt8} (hc : c ≠ 0) : b.sees c = decide (s.head? = some c) := by
  have hget : b.content[b.offset]? = (s ++ [0])[0]? := getElem?_of_drop h.content 0
  rw [ParseBuffer.sees, hget]
  cases s with
  | nil => simpa using hc.symm
  | cons d s => rfl

/-- A word without NUL does not reach behind the text. -/
theorem prefix_nul_iff {word : Bytes} (hword : 0 ∉ word) : word <+: s ++ [0] ↔ word <+: s := by
  rw [List.prefix_concat_iff]
  refine ⟨fun h ↦ h.resolve_left fun he ↦ hword ?_, Or.inr⟩
  rw [he]
  exact List.mem_append_right s List.mem_cons_self

theorem At.startsWith (h : b.At s) {word : Bytes} (hword : 0 ∉ word) :
    b.startsWith word = decide (word <+: s) := by
  have hlen := h.length
  rw [ParseBuffer.startsWith, ParseBuffer.canRead, h.content,
    Bool.decide_congr (prefix_nul_iff hword)]
  by_cases hw : word <+: s
  · have hle := hw.length_le
    simp only [hw, decide_true, Bool.and_true, decide_eq_true_eq]
    omega
  · simp [hw]

/-- White space is a run of characters in front of what is left. -/
theorem skipWs_eq_drop (s : Bytes) : Json.skipWs s = s.drop (s.takeWhile (· ≤ 32)).length := by
  induction s with
  | nil => rfl
  | cons c s ih =>
      rw [Json.skipWs] at ih ⊢
      by_cases hc : c ≤ 32
      · rw [List.dropWhile_cons_of_pos (by simpa), List.takeWhile_cons_of_pos (by simpa), ih]
        rfl
      · rw [List.dropWhile_cons_of_neg (by simpa using hc),
          List.takeWhile_cons_of_neg (by simpa using hc)]
        rfl

/-- White space is skipped, but not the NUL behind it. -/
theorem At.skipWhitespace (h : b.At s) : b.MovedTo (Json.skipWs s) b.skipWhitespace := by
  have hlen := h.length
  have hle : (s.takeWhile (· ≤ 32)).length ≤ s.length := (List.takeWhile_sublist _).length_le
  have hskip : b.skipWhitespace = b.advance (s.takeWhile (· ≤ 32)).length := by
    rw [ParseBuffer.skipWhitespace, if_neg (Nat.not_le.mpr h.inside), h.content,
      List.takeWhile_append]
    split
    · next hall =>
        have hend : b.offset + (s ++ [(0 : UInt8)].takeWhile (· ≤ 32)).length =
            b.content.length := by
          rw [List.length_append, hlen]
          rfl
        simp only [hend, if_true]
        rw [hall, hlen]
        rfl
    · simp only
      rw [if_neg (by omega)]
      rfl
  rw [skipWs_eq_drop, hskip]
  exact h.advance hle

/-- The byte order mark is skipped at the start of a text. -/
theorem skipBom_start (s : Bytes) :
    (⟨s ++ [0], 0, 0⟩ : ParseBuffer).MovedTo (Json.skipBom s)
      (⟨s ++ [0], 0, 0⟩ : ParseBuffer).skipBom := by
  have hb : (⟨s ++ [0], 0, 0⟩ : ParseBuffer).At s := ⟨rfl, by simp⟩
  have hcond : (0 + 4 < (s ++ [0]).length ∧ [0xEF, 0xBB, 0xBF] <+: (s ++ [0]).drop 0) ↔
      ([0xEF, 0xBB, 0xBF] <+: s ∧ 4 ≤ s.length) := by
    rw [List.drop_zero, prefix_nul_iff (by decide), and_comm, List.length_append]
    exact and_congr_right fun _ ↦ Nat.lt_succ_iff
  rw [skipBom, Json.skipBom]
  by_cases h : [0xEF, 0xBB, 0xBF] <+: s ∧ 4 ≤ s.length
  · rw [if_pos h, if_pos (hcond.mpr h)]
    exact hb.advance ((Nat.le_succ 3).trans h.2)
  · rw [if_neg h, if_neg (mt hcond.mp h)]
    exact hb.rest

end ParseBuffer

/-- Read a character of a text. -/
def byteAt (content : Bytes) (i : ℕ) : Action A ν UInt8 :=
  match content[i]? with
  | some c => return c
  | none => failure

variable {P R : Multiset (A × Cell A ν)} {Q : β → Multiset (A × Cell A ν) → Prop}

theorem Spec.byteAt {content : Bytes} {i : ℕ} {c : UInt8} {k : UInt8 → Action A ν β}
    (h : content[i]? = some c) (hk : Spec (k c) P Q) : Spec (CJson.byteAt content i >>= k) P Q := by
  rw [CJson.byteAt, h]
  exact hk

/-! ## Writing -/

variable [DecidableEq A]

/-- Write the next character of a block. -/
theorem Spec.storeNext {w : Bytes} {rest : List (Option UInt8)} {a : A} {c : UInt8}
    {k : Unit → Action A ν β} (hrest : 0 < rest.length)
    (hk : Spec (k ()) {(a, .chars (.written (w ++ [c]) rest.tail))} Q) :
    Spec (CJson.storeByte (some a) w.length c >>= k) {(a, .chars (.written w rest))} Q := by
  obtain ⟨r, rest, rfl⟩ := List.exists_cons_of_length_pos hrest
  refine Spec.storeByte (R := 0) 0 rfl hrest (add_zero _).symm ?_
  rw [add_zero]
  simpa [Block.written] using hk

end KernelTests.CJson
