import KernelTests.CAgent.Http

/-!
# The string buffer

`agent_lite` collects requests and responses in a `StrBuf`: a block of memory whose
size is doubled whenever a string does not fit.  Bytes of the block that were never
written are indeterminate.  Here is why reading the block back is the same as
joining the strings.
-/

namespace KernelTests.CAgent

/-- `StrBuf`: the bytes of the block, the length of the string and the size of the block. -/
structure StrBuf where
  data : List (Option UInt8)
  len : ℕ
  capacity : ℕ
  length_data : data.length = capacity
  len_lt : len < capacity

/-- `sb_init` -/
def sbInit : StrBuf where
  data := some 0 :: List.replicate 1023 none
  len := 0
  capacity := 1024
  length_data := by rw [List.length_cons, List.length_replicate]
  len_lt := by decide

namespace StrBuf

/-! ## Growing -/

/-- `capacity *= 2`, and `realloc` -/
def double (sb : StrBuf) : StrBuf where
  data := sb.data ++ List.replicate sb.capacity none
  len := sb.len
  capacity := 2 * sb.capacity
  length_data := by rw [List.length_append, List.length_replicate, sb.length_data, Nat.two_mul]
  len_lt := by
    have := sb.len_lt
    omega

/-- The loop of `sb_append`. -/
def reserve (strLen : ℕ) (sb : StrBuf) : StrBuf :=
  if sb.capacity < sb.len + strLen + 1 then reserve strLen sb.double else sb
termination_by sb.len + strLen + 1 - sb.capacity
decreasing_by
  have := sb.len_lt
  simp only [double]
  omega

/-- What every round of the loop keeps, holds when the loop ends. -/
theorem reserve_induction {p : StrBuf → Prop} {strLen : ℕ}
    (hstep : ∀ sb, sb.capacity < sb.len + strLen + 1 → p sb → p sb.double) (sb : StrBuf)
    (h : p sb) : p (sb.reserve strLen) := by
  fun_induction reserve strLen sb with
  | case1 sb hlt ih => exact ih (hstep sb hlt h)
  | case2 sb hge => exact h

/-- When the loop ends, the string fits. -/
theorem le_capacity_reserve (strLen : ℕ) (sb : StrBuf) :
    (sb.reserve strLen).len + strLen + 1 ≤ (sb.reserve strLen).capacity := by
  fun_induction reserve strLen sb with
  | case1 sb hlt ih => exact ih
  | case2 sb hge => exact not_lt.mp hge

@[simp] theorem len_reserve (strLen : ℕ) (sb : StrBuf) : (sb.reserve strLen).len = sb.len :=
  reserve_induction (p := fun t ↦ t.len = sb.len) (fun _ _ h ↦ h) sb rfl

/-- The block does not become larger than twice the string, unless it was. -/
theorem capacity_reserve_le (strLen : ℕ) (sb : StrBuf) :
    (sb.reserve strLen).capacity ≤ max sb.capacity (2 * (sb.len + strLen)) := by
  refine (reserve_induction (p := fun t ↦ t.len = sb.len ∧
    t.capacity ≤ max sb.capacity (2 * (sb.len + strLen))) ?_ sb ⟨rfl, le_max_left _ _⟩).2
  rintro t hlt ⟨hlen, _⟩
  have hdouble : t.double.capacity = 2 * t.capacity := rfl
  exact ⟨hlen, by omega⟩

/-! ## Appending -/

/-- `memcpy` of the string with its NUL, into a block with room for both. -/
def store (sb : StrBuf) (str : CString) (h : sb.len + str.strlen + 1 ≤ sb.capacity) : StrBuf where
  data := sb.data.take sb.len ++ ((str.bytes ++ [0]).map some ++
    sb.data.drop (sb.len + str.strlen + 1))
  len := sb.len + str.strlen
  capacity := sb.capacity
  length_data := by
    rw [CString.strlen] at h ⊢
    simp only [List.length_append, List.length_take, List.length_drop, List.length_map,
      List.length_singleton, sb.length_data]
    omega
  len_lt := h

/-- `sb_append` -/
def append (sb : StrBuf) (str : CString) : StrBuf :=
  (sb.reserve str.strlen).store str (le_capacity_reserve str.strlen sb)

@[simp] theorem len_append (sb : StrBuf) (str : CString) :
    (sb.append str).len = sb.len + str.strlen :=
  congrArg (· + str.strlen) (len_reserve str.strlen sb)

theorem capacity_append_le (sb : StrBuf) (str : CString) :
    (sb.append str).capacity ≤ max sb.capacity (2 * (sb.append str).len) := by
  rw [len_append]
  exact sb.capacity_reserve_le str.strlen

/-- The block starts with the string `s` and the NUL behind it. -/
structure Holds (sb : StrBuf) (s : CString) : Prop where
  len_eq : sb.len = s.strlen
  prefix_data : (s.bytes ++ [0]).map some <+: sb.data

theorem holds_sbInit : Holds sbInit (.ofBytes []) := ⟨rfl, List.replicate 1023 none, rfl⟩

theorem Holds.double {sb : StrBuf} {s : CString} (h : Holds sb s) : Holds sb.double s :=
  ⟨h.len_eq, h.prefix_data.trans (List.prefix_append _ _)⟩

theorem Holds.store {sb : StrBuf} {s : CString} (h : Holds sb s) (str : CString)
    (hfits : sb.len + str.strlen + 1 ≤ sb.capacity) : Holds (sb.store str hfits) (s ++ str) := by
  obtain ⟨rest, hrest⟩ := h.prefix_data
  have htake : sb.data.take sb.len = s.bytes.map some := by
    rw [← hrest, h.len_eq, List.map_append, List.append_assoc]
    exact List.take_left' (List.length_map some)
  constructor
  · have hlen : (sb.store str hfits).len = sb.len + str.strlen := rfl
    rw [hlen, h.len_eq]
    exact List.length_append.symm
  · refine ⟨sb.data.drop (sb.len + str.strlen + 1), ?_⟩
    simp only [StrBuf.store, htake, CString.bytes_append, List.map_append, List.append_assoc]

theorem Holds.append {sb : StrBuf} {s : CString} (h : Holds sb s) (str : CString) :
    Holds (sb.append str) (s ++ str) :=
  (reserve_induction (p := (Holds · s)) (fun _ _ ↦ Holds.double) sb h).store str _

/-! ## Reading -/

/-- The string at the start of a block; to read an indeterminate byte or to leave the block is
undefined. -/
def readString : List (Option UInt8) → Option Bytes
  | [] => none
  | none :: _ => none
  | some c :: m => if c = 0 then some [] else (c :: ·) <$> readString m

/-- Bytes with a NUL behind them are read up to the first NUL. -/
theorem readString_terminated (b : Bytes) (m : List (Option UInt8)) :
    readString (b.map some ++ some 0 :: m) = some (CString.ofBytes b).bytes := by
  induction b with
  | nil => rfl
  | cons c b ih =>
      rw [List.map_cons, List.cons_append, readString, ih]
      split
      · next hc =>
          rw [hc]
          rfl
      · next hc =>
          have htail : (CString.ofBytes (c :: b)).bytes = c :: (CString.ofBytes b).bytes := by
            change (c :: b).takeWhile (· ≠ 0) = c :: b.takeWhile (· ≠ 0)
            exact List.takeWhile_cons_of_pos (by simpa using hc)
          rw [htail]
          rfl

theorem readString_append {s : Bytes} (hs : 0 ∉ s) (m : List (Option UInt8)) :
    readString ((s ++ [0]).map some ++ m) = some s := by
  have hread := readString_terminated s m
  rw [CString.bytes_ofBytes hs] at hread
  rwa [List.map_append, List.append_assoc]

/-- What the buffer holds is what is read. -/
theorem Holds.readString {sb : StrBuf} {s : CString} (h : Holds sb s) :
    readString sb.data = some s.bytes := by
  obtain ⟨rest, hrest⟩ := h.prefix_data
  rw [← hrest]
  exact readString_append s.noNul rest

end StrBuf

/-! ## Receiving -/

/-- The loop that reads the response: every chunk is a string in the buffer of `recv`, and is
appended. -/
def receive : StrBuf → List Bytes → StrBuf
  | sb, [] => sb
  | sb, chunk :: chunks => if chunk = [] then sb else receive (sb.append (.ofBytes chunk)) chunks

theorem recvAll_nil : recvAll [] = .ofBytes [] := rfl

theorem recvAll_cons {chunk : Bytes} (h : chunk ≠ []) (chunks : List Bytes) :
    recvAll (chunk :: chunks) = .ofBytes chunk ++ recvAll chunks := by
  have hnul : ∀ l : List Bytes, 0 ∉ l.flatMap fun chunk ↦ (CString.ofBytes chunk).bytes := by
    intro l h0
    obtain ⟨chunk, _, hc⟩ := List.mem_flatMap.mp h0
    exact (CString.ofBytes chunk).noNul hc
  refine CString.ext ?_
  rw [CString.bytes_append, recvAll, recvAll, List.takeWhile_cons_of_pos (by simpa using h),
    CString.bytes_ofBytes (hnul _), CString.bytes_ofBytes (hnul _), List.flatMap_cons]

/-- **The buffer.**  After the loop the buffer holds the chunks, joined. -/
theorem holds_receive {sb : StrBuf} {s : CString} (h : sb.Holds s) (chunks : List Bytes) :
    (receive sb chunks).Holds (s ++ recvAll chunks) := by
  induction chunks generalizing sb s with
  | nil =>
      rwa [recvAll_nil, show s ++ CString.ofBytes [] = s from CString.ext (List.append_nil _)]
  | cons chunk chunks ih =>
      rw [receive]
      split
      · next he =>
          rwa [he, show recvAll ([] :: chunks) = .ofBytes [] from rfl,
            show s ++ CString.ofBytes [] = s from CString.ext (List.append_nil _)]
      · next hne =>
          have hrest := ih (h.append (.ofBytes chunk))
          rwa [recvAll_cons hne, show s ++ (CString.ofBytes chunk ++ recvAll chunks) =
            s ++ CString.ofBytes chunk ++ recvAll chunks from
              CString.ext (List.append_assoc _ _ _).symm]

theorem len_le_receive (sb : StrBuf) (chunks : List Bytes) : sb.len ≤ (receive sb chunks).len := by
  induction chunks generalizing sb with
  | nil => exact le_rfl
  | cons chunk chunks ih =>
      rw [receive]
      split
      · exact le_rfl
      · exact le_trans (sb.len_append _ ▸ Nat.le_add_right _ _) (ih _)

/-- The block stays in proportion to the response. -/
theorem capacity_receive_le (sb : StrBuf) (chunks : List Bytes) :
    (receive sb chunks).capacity ≤ max sb.capacity (2 * (receive sb chunks).len) := by
  induction chunks generalizing sb with
  | nil => exact le_max_left _ _
  | cons chunk chunks ih =>
      rw [receive]
      split
      · exact le_max_left _ _
      · have hgrown := sb.capacity_append_le (.ofBytes chunk)
        have hlen := len_le_receive (sb.append (.ofBytes chunk)) chunks
        have hrest := ih (sb.append (.ofBytes chunk))
        omega

/-- What `http_post` returns, from the bytes in the response buffer. -/
def responseBody (chunks : List Bytes) : Option CString := do
  let message ← StrBuf.readString (receive sbInit chunks).data
  extractBody (.ofBytes message)

/-- Nothing is lost or added between the chunks. -/
theorem responseBody_eq (chunks : List Bytes) :
    responseBody chunks = extractBody (recvAll chunks) := by
  have hread := (holds_receive StrBuf.holds_sbInit chunks).readString
  rw [responseBody, hread, Option.bind_eq_bind, Option.bind_some, CString.ofBytes_bytes]
  exact congrArg extractBody (CString.ext (List.nil_append _))

end KernelTests.CAgent
