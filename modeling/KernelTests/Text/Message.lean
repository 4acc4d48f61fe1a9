import KernelTests.CString

/-!
# Messages with header lines

The grammar of an HTTP/1.1 message: a start line, header lines with a name and a value,
a blank line, and a body.  Lines end with CRLF; within a line neither of the two
characters occurs, but any other may.  A value is taken as it stands behind the colon and
one blank, and the body is everything behind the blank line, whatever the headers say
about its length.  Reading a message is the inverse of writing one, and it accepts
nothing else.
-/

namespace KernelTests

/-- A message. -/
structure Message where
  startLine : Bytes
  headers : List (Bytes × Bytes)
  body : Bytes
deriving DecidableEq

namespace Message

/-! ## Lines -/

/-- A character that may stand in a line. -/
def isLineText (c : UInt8) : Bool := c ≠ 13 && c ≠ 10

/-- The line at the start of a text, and what stands behind its CRLF. -/
def readLine (s : Bytes) : Option (Bytes × Bytes) :=
  match s.dropWhile isLineText with
  | 13 :: 10 :: rest => some (s.takeWhile isLineText, rest)
  | _ => none

/-- A line, with its end. -/
def writeLine (line : Bytes) : Bytes := line ++ [13, 10]

/-- What stands in front of a character outside the class. -/
theorem takeWhile_append_cons_of_neg {p : UInt8 → Bool} {c : UInt8} {line : Bytes}
    (hline : ∀ c ∈ line, p c) (hc : ¬ p c) (rest : Bytes) :
    (line ++ c :: rest).takeWhile p = line ∧ (line ++ c :: rest).dropWhile p = c :: rest := by
  rw [List.takeWhile_append_of_pos hline, List.dropWhile_append_of_pos hline,
    List.takeWhile_cons_of_neg hc, List.dropWhile_cons_of_neg hc, List.append_nil]
  exact ⟨rfl, rfl⟩

theorem readLine_eq_some_iff {s line rest : Bytes} :
    readLine s = some (line, rest) ↔ s = writeLine line ++ rest ∧ ∀ c ∈ line, isLineText c := by
  constructor
  · intro h
    rw [readLine] at h
    split at h
    · next rest' hdrop =>
      cases h
      refine ⟨?_, fun c hc ↦ List.mem_takeWhile_imp hc⟩
      rw [writeLine, List.append_assoc]
      exact (hdrop ▸ List.takeWhile_append_dropWhile (p := isLineText) (l := s)).symm
    · cases h
  · rintro ⟨rfl, hline⟩
    obtain ⟨htake, hdrop⟩ :=
      takeWhile_append_cons_of_neg (c := 13) hline (by decide) (10 :: rest)
    have htext : writeLine line ++ rest = line ++ 13 :: 10 :: rest := List.append_assoc _ _ _
    rw [readLine, htext, htake, hdrop]
    rfl

/-! ## Header lines -/

/-- The line of a header. -/
def headerLine (header : Bytes × Bytes) : Bytes := header.1 ++ 58 :: 32 :: header.2

/-- The name and the value of a header line; no blanks are trimmed from the value. -/
def readHeader (line : Bytes) : Option (Bytes × Bytes) :=
  match line.dropWhile (· ≠ 58) with
  | 58 :: 32 :: value => some (line.takeWhile (· ≠ 58), value)
  | _ => none

theorem readHeader_eq_some_iff {line : Bytes} {header : Bytes × Bytes} :
    readHeader line = some header ↔ line = headerLine header ∧ 58 ∉ header.1 := by
  constructor
  · intro h
    rw [readHeader] at h
    split at h
    · next value hdrop =>
      cases h
      refine ⟨?_, fun hc ↦ by simpa using List.mem_takeWhile_imp hc⟩
      have hsplit := List.takeWhile_append_dropWhile (p := fun c ↦ decide (c ≠ 58)) (l := line)
      rw [hdrop] at hsplit
      exact hsplit.symm
    · cases h
  · rintro ⟨rfl, hname⟩
    have hall : ∀ c ∈ header.1, decide (c ≠ 58) = true := fun c hc ↦
      decide_eq_true fun he ↦ hname (he ▸ hc)
    obtain ⟨htake, hdrop⟩ :=
      takeWhile_append_cons_of_neg (c := 58) hall (by decide) (32 :: header.2)
    rw [readHeader, headerLine, htake, hdrop]
    rfl

/-- The headers up to the blank line, and the body: all that is left. -/
def readHeaders : ℕ → Bytes → Option (List (Bytes × Bytes) × Bytes)
  | 0, _ => none
  | fuel + 1, s => do
    let (line, rest) ← readLine s
    if line = [] then return ([], rest)
    else do
      let header ← readHeader line
      let (headers, body) ← readHeaders fuel rest
      return (header :: headers, body)

/-- The header lines. -/
def writeHeaders (headers : List (Bytes × Bytes)) : Bytes :=
  headers.flatMap fun header ↦ writeLine (headerLine header)

/-- Every header is a name without colon and a value, on a line. -/
def WellFormedHeaders (headers : List (Bytes × Bytes)) : Prop :=
  ∀ header ∈ headers, 58 ∉ header.1 ∧ ∀ c ∈ headerLine header, isLineText c

theorem headerLine_ne_nil (header : Bytes × Bytes) : headerLine header ≠ [] := by
  simp [headerLine]

theorem writeHeaders_cons (header : Bytes × Bytes) (headers : List (Bytes × Bytes)) :
    writeHeaders (header :: headers) = writeLine (headerLine header) ++ writeHeaders headers :=
  List.flatMap_cons

/-- What is read as headers was written so. -/
theorem eq_of_readHeaders {fuel : ℕ} {s body : Bytes} {headers : List (Bytes × Bytes)}
    (h : readHeaders fuel s = some (headers, body)) :
    s = writeHeaders headers ++ (writeLine [] ++ body) ∧ WellFormedHeaders headers := by
  induction fuel generalizing s headers with
  | zero => cases h
  | succ fuel ih =>
      simp only [readHeaders, Option.bind_eq_bind, Option.bind_eq_some_iff] at h
      obtain ⟨⟨line, rest⟩, hline, h⟩ := h
      obtain ⟨rfl, htext⟩ := readLine_eq_some_iff.mp hline
      split at h
      · next hnil =>
        cases h
        obtain rfl : line = [] := hnil
        exact ⟨rfl, List.forall_mem_nil _⟩
      · simp only [Option.bind_eq_some_iff] at h
        obtain ⟨header, hheader, ⟨hs, b⟩, hrest, he⟩ := h
        cases he
        obtain ⟨rfl, hname⟩ := readHeader_eq_some_iff.mp hheader
        obtain ⟨rfl, hwf⟩ := ih hrest
        refine ⟨?_, List.forall_mem_cons.mpr ⟨⟨hname, htext⟩, hwf⟩⟩
        rw [writeHeaders_cons, List.append_assoc]

/-- Headers are read back. -/
theorem readHeaders_writeHeaders {headers : List (Bytes × Bytes)} (h : WellFormedHeaders headers)
    (body : Bytes) {fuel : ℕ} (hfuel : headers.length < fuel) :
    readHeaders fuel (writeHeaders headers ++ (writeLine [] ++ body)) = some (headers, body) := by
  induction headers generalizing fuel with
  | nil =>
      obtain ⟨fuel, rfl⟩ := Nat.exists_eq_succ_of_ne_zero (Nat.ne_of_gt hfuel)
      have hline : readLine (writeLine [] ++ body) = some ([], body) :=
        readLine_eq_some_iff.mpr ⟨rfl, List.forall_mem_nil _⟩
      have htext : writeHeaders [] ++ (writeLine [] ++ body) = writeLine [] ++ body := rfl
      rw [htext, readHeaders, hline]
      rfl
  | cons header headers ih =>
      obtain ⟨fuel, rfl⟩ := Nat.exists_eq_succ_of_ne_zero (Nat.ne_of_gt (Nat.zero_lt_of_lt hfuel))
      obtain ⟨⟨hname, htext⟩, hwf⟩ := List.forall_mem_cons.mp h
      have hline : readLine (writeLine (headerLine header) ++
          (writeHeaders headers ++ (writeLine [] ++ body))) =
          some (headerLine header, writeHeaders headers ++ (writeLine [] ++ body)) :=
        readLine_eq_some_iff.mpr ⟨rfl, htext⟩
      rw [writeHeaders_cons, List.append_assoc, readHeaders, hline, Option.bind_eq_bind,
        Option.bind_some]
      simp only [if_neg (headerLine_ne_nil header), readHeader_eq_some_iff.mpr ⟨rfl, hname⟩,
        Option.bind_eq_bind, Option.bind_some, ih hwf (Nat.lt_of_succ_lt_succ hfuel)]
      rfl

/-! ## Messages -/

/-- Reading a message. -/
def read (s : Bytes) : Option Message := do
  let (startLine, rest) ← readLine s
  let (headers, body) ← readHeaders rest.length rest
  return ⟨startLine, headers, body⟩

/-- Writing a message. -/
def write (m : Message) : Bytes :=
  writeLine m.startLine ++ (writeHeaders m.headers ++ (writeLine [] ++ m.body))

/-- The parts of a message stand on lines. -/
structure WellFormed (m : Message) : Prop where
  startLine : ∀ c ∈ m.startLine, isLineText c
  headers : WellFormedHeaders m.headers

theorem length_le_length_writeHeaders (headers : List (Bytes × Bytes)) :
    headers.length ≤ (writeHeaders headers).length := by
  induction headers with
  | nil => exact le_rfl
  | cons header headers ih =>
      rw [writeHeaders_cons, List.length_append, writeLine, List.length_append]
      simp only [List.length_cons]
      omega

/-- Messages are read as they were written, and nothing else is read. -/
theorem read_eq_some_iff {s : Bytes} {m : Message} :
    read s = some m ↔ s = m.write ∧ m.WellFormed := by
  constructor
  · intro h
    simp only [read, Option.bind_eq_bind, Option.bind_eq_some_iff] at h
    obtain ⟨⟨startLine, rest⟩, hline, ⟨headers, body⟩, hheaders, he⟩ := h
    cases he
    obtain ⟨rfl, htext⟩ := readLine_eq_some_iff.mp hline
    obtain ⟨hrest, hwf⟩ := eq_of_readHeaders hheaders
    exact ⟨congrArg (writeLine startLine ++ ·) hrest, htext, hwf⟩
  · rintro ⟨rfl, hstart, hwf⟩
    have hline : readLine m.write =
        some (m.startLine, writeHeaders m.headers ++ (writeLine [] ++ m.body)) :=
      readLine_eq_some_iff.mpr ⟨rfl, hstart⟩
    have hfuel : m.headers.length <
        (writeHeaders m.headers ++ (writeLine [] ++ m.body)).length := by
      have hle := length_le_length_writeHeaders m.headers
      have hblank : (writeLine []).length = 2 := rfl
      rw [List.length_append, List.length_append, hblank]
      omega
    rw [read, hline, Option.bind_eq_bind, Option.bind_some]
    simp only [readHeaders_writeHeaders hwf m.body hfuel]
    rfl

end Message

end KernelTests
