import KernelTests.CAgent.Tools
import Mathlib.Logic.Function.Basic

/-!
# The file tools on a store

The file tools assemble a path in a buffer of 1024 bytes and never look at whether it
was cut.  Over a store that is keyed by path strings, here is for which arguments they
touch the named file and no other, and what becomes of the store in a run of calls with
such arguments.
-/

namespace KernelTests.CAgent

open Effects

/-! ## The store -/

/-- The contents of files, by path. -/
abbrev FileStore := CString → Option Bytes

/-- A kernel whose files are in a store.  Only some paths can be opened. -/
def storeKernel (canOpen : CString → Bool) : Kernel FileStore where
  fopenRead path s := (if canOpen path then s path else none, s)
  fopenWrite path content s :=
    if canOpen path then (true, Function.update s path (some content.bytes)) else (false, s)
  opendir _ s := (none, s)
  popen _ s := (none, s)
  socket s := (false, s)
  connect _ s := (false, s)
  exchange _ _ s := ([], s)

/-- The path that is meant: the workspace, a slash and the argument. -/
def namedPath (ctx : ToolContext) (path : CString) : CString where
  bytes := ctx.workspace.bytes ++ 47 :: path.bytes
  noNul := by simp [ctx.workspace.noNul, path.noNul]

/-- The path that is opened. -/
def openedPath (ctx : ToolContext) (path : CString) : CString := fullPath (namedPath ctx path).bytes

/-- The path is opened as it is meant if it fits into the buffer. -/
theorem openedPath_eq_iff {ctx : ToolContext} {path : CString} :
    openedPath ctx path = namedPath ctx path ↔ (namedPath ctx path).strlen ≤ 1023 := by
  have hbytes : (openedPath ctx path).bytes = (namedPath ctx path).bytes.take 1023 :=
    CString.bytes_ofBytes fun h ↦ (namedPath ctx path).noNul (List.mem_of_mem_take h)
  rw [CString.ext_iff, hbytes, List.take_eq_self_iff, CString.strlen]

theorem namedPath_injective (ctx : ToolContext) : Function.Injective (namedPath ctx) := by
  intro p q h
  have hbytes := congrArg CString.bytes h
  exact CString.ext (List.cons.inj (List.append_cancel_left hbytes)).2

/-! ## One call -/

variable (ν : Type) (canOpen : CString → Bool) (ctx : ToolContext)

/-- What is written is stored under the named path and nowhere else, or an error is reported. -/
def WritesNamed (path : CString) (s : FileStore) : Prop :=
  ∀ content : CString,
    let r := (toolWriteFile (ν := ν) (storeKernel canOpen) ctx path content).run s
    r.val.success = true ∧
        r.world = Function.update s (namedPath ctx path) (some content.bytes) ∨
      r.val.success = false ∧ r.world = s

/-- What is read is the whole content under the named path, and nothing changes. -/
def ReadsNamed (path : CString) (s : FileStore) : Prop :=
  let r := (toolReadFile (ν := ν) (storeKernel canOpen) ctx path).run s
  r.world = s ∧ (r.val.success = true →
    ∃ content : CString, s (namedPath ctx path) = some content.bytes ∧ r.val.output = some content)

/-- The files are texts: no content has a NUL in it. -/
def Textual (s : FileStore) : Prop := ∀ path, ∀ content ∈ s path, 0 ∉ content

/-- A call of `tool_write_file`. -/
theorem run_toolWriteFile (path content : CString) (s : FileStore) :
    let r := (toolWriteFile (ν := ν) (storeKernel canOpen) ctx path content).run s
    r.val.success = canOpen (openedPath ctx path) ∧
      r.world = if canOpen (openedPath ctx path) then
        Function.update s (openedPath ctx path) (some content.bytes) else s := by
  have hpath : fullPath (ctx.workspace.bytes ++ 47 :: path.bytes) = openedPath ctx path := rfl
  cases hopen : canOpen (openedPath ctx path) <;>
    simp [toolWriteFile, hpath, storeKernel, hopen]

/-- A call of `tool_read_file`. -/
theorem run_toolReadFile (path : CString) (s : FileStore) :
    let r := (toolReadFile (ν := ν) (storeKernel canOpen) ctx path).run s
    r.world = s ∧ (r.val.success = true ↔
      canOpen (openedPath ctx path) ∧ (s (openedPath ctx path)).isSome) ∧
      (canOpen (openedPath ctx path) → ∀ content ∈ s (openedPath ctx path),
        r.val.output = some (.ofBytes content)) := by
  have hpath : fullPath (ctx.workspace.bytes ++ 47 :: path.bytes) = openedPath ctx path := rfl
  cases hopen : canOpen (openedPath ctx path) <;>
    cases hfile : s (openedPath ctx path) <;>
      simp [toolReadFile, hpath, storeKernel, hopen, hfile]

variable {ν canOpen ctx}

theorem openedPath_injective {p q : CString} (hp : (namedPath ctx p).strlen ≤ 1023)
    (hq : (namedPath ctx q).strlen ≤ 1023) (h : openedPath ctx p = openedPath ctx q) : p = q := by
  rw [openedPath_eq_iff.mpr hp, openedPath_eq_iff.mpr hq] at h
  exact namedPath_injective ctx h

/-- A path that fits is written as it is meant. -/
theorem writesNamed_of_eq {path : CString} (h : openedPath ctx path = namedPath ctx path)
    (s : FileStore) : WritesNamed ν canOpen ctx path s := by
  intro content
  obtain ⟨hsuccess, hworld⟩ := run_toolWriteFile ν canOpen ctx path content s
  rw [h] at hsuccess hworld
  cases hopen : canOpen (namedPath ctx path) with
  | true =>
      rw [hopen] at hsuccess
      rw [if_pos hopen] at hworld
      exact .inl ⟨hsuccess, hworld⟩
  | false =>
      rw [hopen] at hsuccess
      rw [hopen, if_neg (by decide)] at hworld
      exact .inr ⟨hsuccess, hworld⟩

/-- A path that fits is read as it is meant, as far as its content is a text. -/
theorem readsNamed_iff_of_eq {path : CString} (h : openedPath ctx path = namedPath ctx path)
    (hopen : canOpen (namedPath ctx path)) (s : FileStore) :
    ReadsNamed ν canOpen ctx path s ↔ ∀ content ∈ s (namedPath ctx path), 0 ∉ content := by
  obtain ⟨hworld, hsuccess, houtput⟩ := run_toolReadFile ν canOpen ctx path s
  rw [h] at hsuccess houtput
  constructor
  · rintro ⟨_, hread⟩ content hcontent
    obtain ⟨text, htext, _⟩ := hread (hsuccess.mpr ⟨hopen, Option.isSome_of_mem hcontent⟩)
    rw [hcontent] at htext
    cases htext
    exact text.noNul
  · refine fun htext ↦ ⟨hworld, fun hs ↦ ?_⟩
    obtain ⟨content, hcontent⟩ := Option.isSome_iff_exists.mp (hsuccess.mp hs).2
    refine ⟨.ofBytes content, ?_, houtput hopen content hcontent⟩
    rw [hcontent, CString.bytes_ofBytes (htext content hcontent)]

/-- Where the path cannot be opened, both tools report an error and change nothing. -/
theorem touchesNamed_of_not_canOpen {path : CString} (h : ¬ canOpen (openedPath ctx path))
    (s : FileStore) : WritesNamed ν canOpen ctx path s ∧ ReadsNamed ν canOpen ctx path s := by
  constructor
  · intro content
    obtain ⟨hsuccess, hworld⟩ := run_toolWriteFile ν canOpen ctx path content s
    rw [if_neg h] at hworld
    exact .inr ⟨hsuccess.trans (by simpa using h), hworld⟩
  · obtain ⟨hworld, hsuccess, _⟩ := run_toolReadFile ν canOpen ctx path s
    exact ⟨hworld, fun hs ↦ absurd (hsuccess.mp hs).1 h⟩

/-- A path that is cut and can be opened is not written as it is meant. -/
theorem openedPath_eq_of_writesNamed {path : CString} {s : FileStore}
    (hopen : canOpen (openedPath ctx path)) (h : WritesNamed ν canOpen ctx path s) :
    openedPath ctx path = namedPath ctx path := by
  by_contra hne
  -- one of two texts is not there yet
  obtain ⟨content, hcontent⟩ : ∃ content : CString, s (openedPath ctx path) ≠ some content.bytes := by
    by_contra hall
    rw [not_exists] at hall
    exact absurd ((not_not.mp (hall (.lit ""))).symm.trans (not_not.mp (hall (.lit "x")))) (by decide)
  obtain ⟨hsuccess, hworld⟩ := run_toolWriteFile ν canOpen ctx path content s
  rw [hopen] at hsuccess
  rw [if_pos hopen] at hworld
  rcases h content with ⟨_, hnamed⟩ | ⟨hfail, _⟩
  · rw [hworld] at hnamed
    have hentry := congrFun hnamed (openedPath ctx path)
    rw [Function.update_self, Function.update_of_ne hne] at hentry
    exact hcontent hentry.symm
  · rw [hsuccess] at hfail
    cases hfail

/-- A write leaves a store of texts one. -/
theorem textual_toolWriteFile (path content : CString) {s : FileStore} (h : Textual s) :
    Textual ((toolWriteFile (ν := ν) (storeKernel canOpen) ctx path content).run s).world := by
  rw [(run_toolWriteFile ν canOpen ctx path content s).2]
  split
  · intro q bytes hbytes
    rw [Function.update_apply] at hbytes
    split at hbytes
    · cases hbytes
      exact content.noNul
    · exact h q bytes hbytes
  · exact h

variable (ν canOpen ctx) in
/-- **Named files.**  A file tool touches the named file and no other if and only if the path fits
into its buffer and the file is a text, or what is left of the path cannot be opened; paths that
fit stay apart, and what is written are texts. -/
theorem touchesNamed_iff :
    (∀ path s, WritesNamed ν canOpen ctx path s ∧ ReadsNamed ν canOpen ctx path s ↔
      (namedPath ctx path).strlen ≤ 1023 ∧ (∀ content ∈ s (namedPath ctx path), 0 ∉ content) ∨
        ¬ canOpen (openedPath ctx path)) ∧
    (∀ p q, (namedPath ctx p).strlen ≤ 1023 → (namedPath ctx q).strlen ≤ 1023 →
      openedPath ctx p = openedPath ctx q → p = q) ∧
    ∀ path content s, Textual s →
      Textual ((toolWriteFile (ν := ν) (storeKernel canOpen) ctx path content).run s).world := by
  refine ⟨fun path s ↦ ?_, fun p q hp hq ↦ openedPath_injective hp hq,
    fun path content s ↦ textual_toolWriteFile path content⟩
  rw [← openedPath_eq_iff]
  by_cases hopen : canOpen (openedPath ctx path)
  · rw [or_iff_left (not_not.mpr hopen)]
    constructor
    · rintro ⟨hwrite, hread⟩
      have heq := openedPath_eq_of_writesNamed hopen hwrite
      exact ⟨heq, (readsNamed_iff_of_eq heq (heq ▸ hopen) s).mp hread⟩
    · rintro ⟨heq, htext⟩
      exact ⟨writesNamed_of_eq heq s, (readsNamed_iff_of_eq heq (heq ▸ hopen) s).mpr htext⟩
  · exact iff_of_true (touchesNamed_of_not_canOpen hopen s) (.inr hopen)

/-- What a system opens where all directories exist: a path of less than 4096 bytes, with at most
255 in each component. -/
def shortNames (path : CString) : Bool :=
  path.strlen < 4096 && (path.bytes.splitOn 47).all (·.length ≤ 255)

/-- A file with a name of 21 bytes, in the last of ten directories with names of 100 bytes. -/
def deepPath (last : UInt8) : CString :=
  .ofBytes ((List.replicate 10 (List.replicate 100 100 ++ [47])).flatten ++
    List.replicate 20 102 ++ [last])

/-- A write to a deep path lands on the file that a read of another path finds. -/
theorem deepPath_collides :
    let write := (toolWriteFile (ν := ℤ) (storeKernel shortNames) ⟨.lit "."⟩ (deepPath 98)
      (.lit "new")).run fun _ ↦ none
    let read := (toolReadFile (ν := ℤ) (storeKernel shortNames) ⟨.lit "."⟩ (deepPath 99)).run
      write.world
    deepPath 98 ≠ deepPath 99 ∧ write.val.success = true ∧ read.val.success = true ∧
      read.val.output = some (.lit "new") := by
  decide +kernel

end KernelTests.CAgent
