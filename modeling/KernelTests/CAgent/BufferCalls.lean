import KernelTests.CAgent.StrBuf

/-!
# Calls on a string buffer

A buffer is filled by calls of `sb_append` and of `sb_appendf`.  Sizes are words of
64 bits in the program; as long as the text is shorter than `2^62` bytes no size wraps
around, so the loop that grows the block ends, and it ends with the block of the model.
-/

namespace KernelTests.CAgent

/-! ## Growing in words -/

/-- The loop of `sb_append` in words of 64 bits, for a number of rounds; none if it goes on. -/
def grow (len strLen : UInt64) : ℕ → UInt64 → Option UInt64
  | 0, _ => none
  | rounds + 1, capacity =>
    if capacity < len + strLen + 1 then grow len strLen rounds (capacity * 2) else some capacity

theorem toNat_ofNat_of_lt {n : ℕ} (h : n < 2 ^ 64) : (UInt64.ofNat n).toNat = n := by
  rw [UInt64.toNat_ofNat', Nat.mod_eq_of_lt h]

/-- While the text fits into half of the words, the loop ends with the block of the model. -/
theorem exists_grow_eq (strLen : ℕ) (sb : StrBuf) (hlen : sb.len + strLen < 2 ^ 62)
    (hcap : sb.capacity < 2 ^ 64) :
    ∃ rounds, grow (.ofNat sb.len) (.ofNat strLen) rounds (.ofNat sb.capacity) =
      some (.ofNat (sb.reserve strLen).capacity) := by
  fun_induction StrBuf.reserve strLen sb with
  | case1 sb hlt ih =>
      have hdouble : sb.double.capacity = 2 * sb.capacity := rfl
      have hgrown : UInt64.ofNat sb.capacity * 2 = .ofNat sb.double.capacity := by
        rw [hdouble, Nat.mul_comm, UInt64.ofNat_mul]
        rfl
      obtain ⟨rounds, hrounds⟩ := ih hlen (by omega)
      refine ⟨rounds + 1, ?_⟩
      rw [grow, if_pos, hgrown]
      · exact hrounds
      · have hone : (1 : UInt64) = .ofNat 1 := rfl
        rw [hone, ← UInt64.ofNat_add, ← UInt64.ofNat_add, UInt64.lt_iff_toNat_lt,
          toNat_ofNat_of_lt hcap, toNat_ofNat_of_lt (by omega)]
        exact hlt
  | case2 sb hge =>
      refine ⟨1, ?_⟩
      have hone : (1 : UInt64) = .ofNat 1 := rfl
      rw [grow, if_neg]
      rw [hone, ← UInt64.ofNat_add, ← UInt64.ofNat_add, UInt64.lt_iff_toNat_lt,
        toNat_ofNat_of_lt hcap, toNat_ofNat_of_lt (by omega)]
      exact hge

/-! ## Calls -/

/-- A call on a buffer. -/
inductive Call where
  /-- `sb_append` of a string. -/
  | append (str : CString)
  /-- `sb_appendf` with the formatted text. -/
  | appendf (text : CString)

namespace Call

/-- The string that is appended; the formatted text goes through a buffer of 4096 bytes. -/
def appended : Call → CString
  | append str => str
  | appendf text => CAgent.appendf text.bytes

/-- What a call counts with. -/
def counted : Call → Bytes
  | append str => str.bytes
  | appendf text => text.bytes.take 4095

theorem bytes_appended (call : Call) : call.appended.bytes = call.counted := by
  cases call with
  | append str => rfl
  | appendf text => exact CString.bytes_ofBytes fun h ↦ text.noNul (List.mem_of_mem_take h)

end Call

/-- The buffer behind `sb_init` and some calls. -/
def buffer (calls : List Call) : StrBuf :=
  calls.foldl (fun sb call ↦ sb.append call.appended) sbInit

/-- The text the calls append. -/
def joined (calls : List Call) : Bytes := calls.flatMap Call.counted

theorem buffer_concat (calls : List Call) (call : Call) :
    buffer (calls ++ [call]) = (buffer calls).append call.appended := List.foldl_concat _ _ _ _

theorem joined_concat (calls : List Call) (call : Call) :
    joined (calls ++ [call]) = joined calls ++ call.counted := by
  rw [joined, List.flatMap_append, List.flatMap_singleton, joined]

/-! ## The representation -/

/-- The buffer represents a text: its block is a power of two, and the text and a NUL are at the
start. -/
structure Represents (sb : StrBuf) (s : Bytes) : Prop where
  capacity : ∃ k, sb.capacity = 1024 * 2 ^ k
  room : sb.len + 1 ≤ sb.capacity
  terminator : sb.data[sb.len]? = some (some 0)
  len : sb.len = s.length
  contents : sb.data.take sb.len = s.map some

/-- A buffer that holds a string represents it. -/
theorem represents_of_holds {sb : StrBuf} {s : CString} (h : sb.Holds s)
    (hcap : ∃ k, sb.capacity = 1024 * 2 ^ k) : Represents sb s.bytes := by
  obtain ⟨rest, hrest⟩ := h.prefix_data
  have hlen : (s.bytes.map some).length = sb.len := (List.length_map some).trans h.len_eq.symm
  have hdata : sb.data = s.bytes.map some ++ some 0 :: rest := by
    rw [← hrest, List.map_append, List.append_assoc]
    rfl
  refine ⟨hcap, sb.len_lt, ?_, h.len_eq, ?_⟩
  · rw [hdata, List.getElem?_append_right hlen.le, hlen, Nat.sub_self]
    rfl
  · rw [hdata, List.take_left' hlen]

/-- The block is doubled, or stays as it is. -/
theorem exists_capacity_append {sb : StrBuf} (h : ∃ k, sb.capacity = 1024 * 2 ^ k)
    (str : CString) : ∃ k, (sb.append str).capacity = 1024 * 2 ^ k := by
  refine StrBuf.reserve_induction (p := fun t ↦ ∃ k, t.capacity = 1024 * 2 ^ k) ?_ sb h
  rintro t _ ⟨k, hk⟩
  have hdouble : t.double.capacity = 2 * t.capacity := rfl
  exact ⟨k + 1, by rw [hdouble, hk, Nat.pow_succ]; omega⟩

theorem noNul_joined (calls : List Call) : 0 ∉ joined calls := by
  intro h
  obtain ⟨call, _, hmem⟩ := List.mem_flatMap.mp h
  rw [← call.bytes_appended] at hmem
  exact call.appended.noNul hmem

/-- Every call leaves the text of all calls so far. -/
theorem holds_buffer (calls : List Call) :
    (buffer calls).Holds ⟨joined calls, noNul_joined calls⟩ := by
  induction calls using List.reverseRecOn with
  | nil => exact StrBuf.holds_sbInit
  | append_singleton calls call ih =>
      have hcall := ih.append call.appended
      have htext : (⟨joined calls, noNul_joined calls⟩ : CString) ++ call.appended =
          ⟨joined (calls ++ [call]), noNul_joined _⟩ := by
        refine CString.ext (Eq.trans ?_ (joined_concat calls call).symm)
        rw [CString.bytes_append, call.bytes_appended]
      rwa [← buffer_concat, htext] at hcall

theorem exists_capacity_buffer (calls : List Call) :
    ∃ k, (buffer calls).capacity = 1024 * 2 ^ k := by
  induction calls using List.reverseRecOn with
  | nil => exact ⟨0, rfl⟩
  | append_singleton calls call ih =>
      rw [buffer_concat]
      exact exists_capacity_append ih call.appended

/-- The block stays in proportion to the text. -/
theorem capacity_buffer_le (calls : List Call) :
    (buffer calls).capacity ≤ max 1024 (2 * (joined calls).length) := by
  induction calls using List.reverseRecOn with
  | nil => exact le_max_left _ _
  | append_singleton calls call ih =>
      have hgrown := (buffer calls).capacity_append_le call.appended
      have hlen := (holds_buffer (calls ++ [call])).len_eq
      rw [buffer_concat] at hlen ⊢
      rw [CString.strlen] at hlen
      simp only [joined_concat, List.length_append] at hlen ⊢
      omega

/-- **Filling a buffer.**  Behind any calls whose text is shorter than `2^62` bytes the buffer
represents that text, and in every one of the calls the loop has ended. -/
theorem represents_buffer (calls : List Call) (hlen : (joined calls).length < 2 ^ 62) :
    Represents (buffer calls) (joined calls) ∧ (buffer calls).capacity < 2 ^ 64 ∧
      ∀ before call after, calls = before ++ call :: after →
        ∃ rounds, grow (.ofNat (buffer before).len) (.ofNat call.appended.strlen) rounds
          (.ofNat (buffer before).capacity) =
            some (.ofNat (buffer (before ++ [call])).capacity) := by
  have hcap := capacity_buffer_le calls
  refine ⟨represents_of_holds (holds_buffer calls) (exists_capacity_buffer calls), by omega, ?_⟩
  rintro before call after rfl
  have hbefore : (buffer before).len = (joined before).length := (holds_buffer before).len_eq
  have hcapacity := capacity_buffer_le before
  have hcall : call.appended.strlen = call.counted.length := congrArg _ call.bytes_appended
  have hsplit : (joined (before ++ call :: after)).length =
      (joined before).length + (call.counted.length + (joined after).length) := by
    simp only [joined, List.flatMap_append, List.flatMap_cons, List.length_append]
  rw [buffer_concat]
  exact exists_grow_eq call.appended.strlen (buffer before) (by omega) (by omega)

/-- A line that is cut by its format. -/
def cutLine : CString :=
  ⟨List.replicate 5000 65, fun h ↦ absurd (List.eq_of_mem_replicate h) (by decide)⟩

theorem joined_cutLine : joined [.append (.lit "POST "), .appendf cutLine] =
    ascii "POST " ++ List.replicate 4095 65 := by
  have hcut : Call.counted (.appendf cutLine) = List.replicate 4095 65 := by
    rw [Call.counted, cutLine, List.take_replicate]
    rfl
  rw [joined, List.flatMap_cons, List.flatMap_cons, List.flatMap_nil, List.append_nil, hcut]
  rfl

theorem represents_buffer_sample :
    Represents (buffer [.append (.lit "POST "), .appendf cutLine])
      (ascii "POST " ++ List.replicate 4095 65) := by
  have hlen : (ascii "POST " ++ List.replicate 4095 (65 : UInt8)).length = 4100 := by
    rw [List.length_append, List.length_replicate]
    rfl
  have h := (represents_buffer _ (by rw [joined_cutLine, hlen]; decide)).1
  rwa [joined_cutLine] at h

end KernelTests.CAgent
