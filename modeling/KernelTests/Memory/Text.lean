import KernelTests.CString
import KernelTests.Memory.Block

/-!
# C strings in memory

A block of characters is a C string if every cell in front of its first NUL was written.
Reading one that is not terminated runs out of the block, which is undefined.
-/

namespace KernelTests.Memory.Block

/-- The walk of `strlen`: the bytes in front of the first NUL. -/
def scan : List (Option UInt8) → Option Bytes
  | [] => none
  | none :: _ => none
  | some c :: cells => if c = 0 then some [] else (scan cells).map (c :: ·)

/-- The C string at the start of a block. -/
def text (b : Block UInt8) : Option CString := (scan b.cells).map .ofBytes

/-- The block `strdup` fills. -/
def ofCString (s : CString) : Block UInt8 := ⟨s.bytes.map some ++ [some 0]⟩

/-- A block whose first cells were written. -/
def written (w : Bytes) (rest : List (Option UInt8)) : Block UInt8 := ⟨w.map some ++ rest⟩

/-- What `realloc` makes of a block. -/
def resize (size : ℕ) (b : Block UInt8) : Block UInt8 :=
  ⟨b.cells.take size ++ List.replicate (size - b.size) none⟩

theorem scan_terminated (bytes : Bytes) (rest : List (Option UInt8)) :
    scan (bytes.map some ++ some 0 :: rest) = some (bytes.takeWhile (· ≠ 0)) := by
  induction bytes with
  | nil => simp [scan]
  | cons c bytes ih =>
      rw [List.map_cons, List.cons_append, scan, ih]
      by_cases hc : c = 0
      · simp [hc]
      · simp [hc]

/-- Terminated bytes are read up to their first NUL. -/
theorem text_terminated (bytes : Bytes) (rest : List (Option UInt8)) :
    text ⟨bytes.map some ++ some 0 :: rest⟩ = some (.ofBytes bytes) := by
  rw [text, scan_terminated, Option.map_some]
  exact congrArg some (CString.ofBytes_bytes (.ofBytes bytes))

@[simp] theorem text_ofCString (s : CString) : (ofCString s).text = some s := by
  rw [ofCString, text_terminated, CString.ofBytes_bytes]

/-! ## Blocks that are being filled -/

theorem alloc_eq_written (n : ℕ) : (alloc n : Block UInt8) = written [] (List.replicate n none) :=
  rfl

theorem size_written (w : Bytes) (rest : List (Option UInt8)) :
    (written w rest).size = w.length + rest.length := by
  simp [written, size]

theorem store_written {w : Bytes} {rest : List (Option UInt8)} {j : ℕ} (hj : j < rest.length)
    (c : UInt8) :
    (written w rest).store (w.length + j) c = some (written w (rest.set j (some c))) := by
  rw [store_of_lt (by rw [size_written]; omega), written, written]
  simp

/-- Characters are written behind the others. -/
theorem storeAll_written {w bytes : Bytes} {rest : List (Option UInt8)}
    (h : bytes.length ≤ rest.length) :
    (written w rest).storeAll w.length bytes =
      some (written (w ++ bytes) (rest.drop bytes.length)) := by
  rw [storeAll_of_le (by rw [size_written]; omega), written, written]
  simp [List.drop_append]

/-- The last characters count as cells behind the others. -/
theorem written_append (w v : Bytes) (rest : List (Option UInt8)) :
    written (w ++ v) rest = written w (v.map some ++ rest) := by
  rw [written, written, List.map_append, List.append_assoc]

theorem resize_written {w : Bytes} {rest : List (Option UInt8)} {size : ℕ}
    (h : w.length + rest.length ≤ size) :
    (written w rest).resize size =
      written w (rest ++ List.replicate (size - (w.length + rest.length)) none) := by
  rw [resize, size_written, written, written, List.take_of_length_le (by simpa using h),
    List.append_assoc]

/-- A block that is cut behind its terminator. -/
theorem resize_terminated (s : CString) (rest : List (Option UInt8)) :
    (written (s.bytes ++ [0]) rest).resize (s.bytes.length + 1) = ofCString s := by
  have hlen : ((s.bytes ++ [0]).map some).length = s.bytes.length + 1 := by simp
  rw [resize, size_written, written, ofCString, List.take_left' hlen, List.length_append,
    List.length_singleton, Nat.sub_eq_zero_of_le (by omega), List.replicate_zero, List.append_nil,
    List.map_append]
  rfl

end KernelTests.Memory.Block
