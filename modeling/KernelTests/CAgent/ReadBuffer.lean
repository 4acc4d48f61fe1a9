import KernelTests.CAgent.StrBuf
import KernelTests.CAgent.Tools
import KernelTests.Memory.Block

/-!
# The buffer of `read_file`

`tool_read_file` asks for the size of the open file, allocates one byte more, lets `fread`
store as many bytes as the size says and puts a NUL behind them.  The size is a `long`, the
two calls take a `size_t`, and what the C library answers while the file is open is
arbitrary.  Here is when all the stores stay inside the block; then the tool is the one of
`KernelTests.CAgent.Tools`.

We use the convention that `none` is a run whose behaviour is undefined.
-/

namespace KernelTests.CAgent

open Effects Memory

/-! ## Words -/

/-- The sum of two `long`; an overflow is undefined. -/
def addLong (a b : Int64) : Option Int64 :=
  if -2 ^ 63 ≤ a.toInt + b.toInt ∧ a.toInt + b.toInt < 2 ^ 63 then some (a + b) else none

theorem toInt_add_one_lt_iff {a : Int64} : a.toInt + 1 < 2 ^ 63 ↔ a ≠ Int64.maxValue := by
  have hle := a.toInt_lt
  rw [ne_eq, ← Int64.toInt_inj, Int64.toInt_maxValue]
  omega

theorem addLong_one (a : Int64) :
    addLong a 1 = if a = Int64.maxValue then none else some (a + 1) := by
  have hge := a.le_toInt
  have hone : (1 : Int64).toInt = 1 := rfl
  rw [addLong, hone]
  split
  · next h => rw [if_neg (toInt_add_one_lt_iff.mp h.2)]
  · next h =>
      rw [if_pos]
      by_contra hne
      exact h ⟨by omega, toInt_add_one_lt_iff.mpr hne⟩

/-- Adding one to a `size_t` gives more, unless it wraps around. -/
theorem toNat_add_one {n : UInt64} (h : n ≠ -1) : (n + 1).toNat = n.toNat + 1 := by
  have hlt := n.toNat_lt
  have hmax : n.toNat ≠ 2 ^ 64 - 1 := fun hn ↦ h (UInt64.toNat_inj.mp hn)
  rw [UInt64.toNat_add, UInt64.toNat_one]
  exact Nat.mod_eq_of_lt (by omega)

theorem toUInt64_eq_neg_one_iff {a : Int64} : a.toUInt64 = -1 ↔ a = -1 :=
  ⟨congrArg UInt64.toInt64, fun h ↦ h ▸ rfl⟩

/-- As a `size_t`, one more is more for every `long` but `-1`. -/
theorem toUInt64_lt_add_one_iff {a : Int64} : a.toUInt64 < (a + 1).toUInt64 ↔ a ≠ -1 := by
  have hadd : (a + 1).toUInt64 = a.toUInt64 + 1 := rfl
  constructor
  · rintro hlt rfl
    exact absurd hlt (by decide)
  · intro hne
    rw [hadd, UInt64.lt_iff_toNat_lt, toNat_add_one (toUInt64_eq_neg_one_iff.not.mpr hne)]
    exact Nat.lt_succ_self _

/-! ## The open file -/

/-- What the C library answers while a file is open. -/
structure OpenedFile where
  /-- `ftell` at the end of the file. -/
  ftell : Int64
  /-- Whether `malloc` delivers a block of this size. -/
  malloc : UInt64 → Bool
  /-- The bytes `fread` stores when it may store this many. -/
  fread : UInt64 → Bytes
  length_fread_le (limit : UInt64) : (fread limit).length ≤ limit.toNat

namespace OpenedFile

/-- The argument of `malloc`. -/
def request (f : OpenedFile) : UInt64 := (f.ftell + 1).toUInt64

/-- The number of bytes `fread` may store. -/
def limit (f : OpenedFile) : UInt64 := f.ftell.toUInt64

/-- The bytes `fread` stores. -/
def bytes (f : OpenedFile) : Bytes := f.fread f.limit

/-- The block `content` with the bytes and the NUL behind them. -/
def content (f : OpenedFile) : Option (Block UInt8) := do
  let size := f.ftell
  let sum ← addLong size 1
  -- a NUL is stored in any case, through a null pointer as well
  let content ← if f.malloc sum.toUInt64 then some (Block.alloc sum.toUInt64.toNat) else none
  let nread := (f.fread size.toUInt64).length
  let content ← content.storeAll 0 (f.fread size.toUInt64)
  content.store nread 0

/-- The size is one that a buffer can be made for, and there is memory for it. -/
def Fits (f : OpenedFile) : Prop :=
  f.ftell ≠ -1 ∧ f.ftell ≠ Int64.maxValue ∧ f.malloc f.request = true

instance (f : OpenedFile) : Decidable f.Fits :=
  inferInstanceAs (Decidable (_ ∧ _ ∧ _))

theorem length_bytes_le (f : OpenedFile) : f.bytes.length ≤ f.limit.toNat := f.length_fread_le _

theorem toNat_request {f : OpenedFile} (h : f.ftell ≠ -1) :
    f.request.toNat = f.limit.toNat + 1 :=
  toNat_add_one (toUInt64_eq_neg_one_iff.not.mpr h)

/-- The stores need one byte more than `fread` delivers; the block has it unless its size
wrapped around. -/
theorem length_bytes_lt_iff {f : OpenedFile} :
    f.bytes.length < f.request.toNat ↔ f.ftell ≠ -1 := by
  constructor
  · intro hlt h
    have hzero : f.request = 0 := by
      rw [request, h]
      rfl
    rw [hzero] at hlt
    exact absurd hlt (Nat.not_lt_zero _)
  · intro h
    rw [toNat_request h]
    exact Nat.lt_succ_of_le f.length_bytes_le

/-- **The stores.**  All of them are inside the block exactly if the file fits, and then the
block holds the bytes with the NUL behind them. -/
theorem content_eq (f : OpenedFile) :
    f.content = if f.Fits then
      some ⟨f.bytes.map some ++
        some 0 :: List.replicate (f.request.toNat - (f.bytes.length + 1)) none⟩
    else none := by
  rw [content, addLong_one]
  by_cases hmax : f.ftell = Int64.maxValue
  · rw [if_pos hmax, if_neg fun h : f.Fits ↦ h.2.1 hmax]
    rfl
  rw [if_neg hmax, Option.bind_eq_bind, Option.bind_some]
  by_cases hmalloc : f.malloc f.request = true
  · have hstores := Block.storeAll_alloc_store f.request.toNat f.bytes 0
    have hroom : f.bytes.length < f.request.toNat ↔ f.Fits :=
      length_bytes_lt_iff.trans ⟨fun h ↦ ⟨h, hmax, hmalloc⟩, fun h ↦ h.1⟩
    rw [if_congr hroom rfl rfl] at hstores
    rw [← hstores, if_pos (show f.malloc (f.ftell + 1).toUInt64 = true from hmalloc)]
    rfl
  · rw [if_neg fun h : f.Fits ↦ hmalloc h.2.2,
      if_neg (show ¬ f.malloc (f.ftell + 1).toUInt64 = true from hmalloc)]
    rfl

end OpenedFile

/-! ## The tool -/

/-- `tool_read_file` from the answer of `fopen` on. -/
def readOpened (path : CString) : Option OpenedFile → Option ToolResult
  | none => some ⟨some (appendf (ascii "Error: Cannot open file " ++ path.bytes)), false⟩
  | some f => do
    let content ← f.content
    let output ← StrBuf.readString content.cells
    return ⟨some (.ofBytes output), true⟩

variable {ν σ : Type} (fopen : CString → σ → Option OpenedFile × σ) (ctx : ToolContext)

/-- `tool_read_file` with its buffer -/
def toolReadFileBuffer (path : CString) : Agent ν σ (Option ToolResult) := do
  Traced.emit (.action (.readFile path))
  let f ← Traced.act (fopen (fullPath (ctx.workspace.bytes ++ 47 :: path.bytes)))
  return readOpened path f

/-- A file that fits is read to its first NUL; every other one leads to undefined behaviour. -/
theorem readOpened_some (path : CString) (f : OpenedFile) :
    readOpened path (some f) =
      if f.Fits then some ⟨some (.ofBytes f.bytes), true⟩ else none := by
  rw [readOpened, f.content_eq]
  split
  · rw [Option.bind_eq_bind, Option.bind_some, StrBuf.readString_terminated, Option.bind_eq_bind,
      Option.bind_some, CString.ofBytes_bytes]
    rfl
  · rfl

/-- The kernel whose files hold what `fread` delivers. -/
def Kernel.withFiles (k : Kernel σ) : Kernel σ :=
  { k with
    fopenRead := fun path s ↦ ((fopen path s).1.map OpenedFile.bytes, (fopen path s).2) }

/-- **The refinement.**  The tool with its buffer records and changes what the tool of the
agent does, and returns the same result, unless the file that is opened does not fit. -/
theorem run_toolReadFileBuffer (k : Kernel σ) (path : CString) (s : σ) :
    let r := (toolReadFile (ν := ν) (k.withFiles fopen) ctx path).run s
    (toolReadFileBuffer fopen ctx path).run s =
      ⟨if ∀ f ∈ (fopen (fullPath (ctx.workspace.bytes ++ 47 :: path.bytes)) s).1, f.Fits
        then some r.val else none, r.trace, r.world⟩ := by
  simp only [toolReadFile, toolReadFileBuffer, Kernel.withFiles]
  cases hf : (fopen (fullPath (ctx.workspace.bytes ++ 47 :: path.bytes)) s).1 with
  | none => simp [hf, readOpened]
  | some f => simp [hf, readOpened_some]

/-! ## What the buffer has to guarantee -/

/-- The size of the block does not overflow and is more than `fread` may store, so that the
NUL is inside the block. -/
structure InsideBlock (f : OpenedFile) : Prop where
  no_overflow : f.ftell.toInt + 1 < 2 ^ 63
  limit_lt_request : f.limit < f.request
  terminated : ∃ content, f.content = some content ∧
    content.cells[f.bytes.length]? = some (some 0)

/-- The tool returns an error. -/
def ReportsError (path : CString) (f : OpenedFile) : Prop :=
  ∃ r, readOpened path (some f) = some r ∧ r.success = false

/-- An object is read into a block with room for it or reported as an error, and the latter if
`ftell` fails. -/
structure ReadsOrReports (path : CString) (f : OpenedFile) : Prop where
  reads : InsideBlock f ∨ ReportsError path f
  reports : f.ftell = -1 → ReportsError path f

/-- Once a file is open there is no error. -/
theorem not_reportsError (path : CString) (f : OpenedFile) : ¬ ReportsError path f := by
  rintro ⟨r, hr, hfailed⟩
  rw [readOpened_some] at hr
  split at hr
  · obtain rfl := Option.some.inj hr
    cases hfailed
  · cases hr

theorem arithmetic_iff (f : OpenedFile) :
    f.ftell.toInt + 1 < 2 ^ 63 ∧ f.limit < f.request ↔
      f.ftell ≠ -1 ∧ f.ftell ≠ Int64.maxValue :=
  and_comm.trans (and_congr toUInt64_lt_add_one_iff toInt_add_one_lt_iff)

theorem insideBlock_iff {f : OpenedFile} : InsideBlock f ↔ f.Fits := by
  constructor
  · rintro ⟨_, _, content, hcontent, _⟩
    by_contra hfits
    rw [f.content_eq, if_neg hfits] at hcontent
    cases hcontent
  · intro hfits
    obtain ⟨hoverflow, hlimit⟩ := (arithmetic_iff f).mpr ⟨hfits.1, hfits.2.1⟩
    refine ⟨hoverflow, hlimit, _, f.content_eq.trans (if_pos hfits), ?_⟩
    rw [List.getElem?_append_right (List.length_map some).le, List.length_map, Nat.sub_self]
    rfl

/-- **The buffer of `read_file`.**  The size of the block is right for every answer of `ftell`
but `-1` and the largest `long`; then only `malloc` can fail. -/
theorem readsOrReports_iff (path : CString) (f : OpenedFile) :
    (ReadsOrReports path f ↔
      f.ftell ≠ -1 ∧ f.ftell ≠ Int64.maxValue ∧ f.malloc f.request = true) ∧
    (f.ftell.toInt + 1 < 2 ^ 63 ∧ f.limit < f.request ↔
      f.ftell ≠ -1 ∧ f.ftell ≠ Int64.maxValue) := by
  refine ⟨⟨fun h ↦ ?_, fun h ↦ ?_⟩, arithmetic_iff f⟩
  · exact insideBlock_iff.mp (h.reads.resolve_right (not_reportsError path f))
  · exact ⟨.inl (insideBlock_iff.mpr h), fun hfailed ↦ absurd hfailed h.1⟩

/-- A FIFO with a greeting in it: there is no end to seek to, so `ftell` fails. -/
def fifo : OpenedFile where
  ftell := -1
  malloc _ := true
  fread limit := (ascii "hello\n").take limit.toNat
  length_fread_le limit := List.length_take_le limit.toNat _

/-- Nothing is allocated for a FIFO, `fread` may store without a limit, and no error is
reported. -/
theorem not_readsOrReports_fifo :
    fifo.request = 0 ∧ fifo.limit = 18446744073709551615 ∧ fifo.bytes = ascii "hello\n" ∧
      readOpened (.lit "greeting") (some fifo) = none ∧
      ¬ ReadsOrReports (.lit "greeting") fifo :=
  ⟨by decide, by decide, by decide, by rw [readOpened_some, if_neg (by decide)],
    fun h ↦ not_reportsError _ _ (h.reports rfl)⟩

end KernelTests.CAgent
