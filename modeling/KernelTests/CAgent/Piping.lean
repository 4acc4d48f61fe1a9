import KernelTests.CAgent.Output

/-!
# What is read from a command

`fgets` cuts the output of a command into pieces, and every piece is appended as a
string.  A NUL hides the rest of its piece, but not the pieces behind it, so bytes from
the middle of the output may be missing.  Here is exactly when none are.
-/

namespace KernelTests.CAgent

open Effects

/-! ## Pieces -/

theorem ne_nil_of_mem_fgets {size room : ℕ} {s : Bytes} :
    ∀ piece ∈ fgets size room s, piece ≠ [] := by
  induction s generalizing room with
  | nil => exact List.forall_mem_nil _
  | cons c s ih =>
      rw [fgets]
      split
      · exact List.forall_mem_cons.mpr ⟨List.cons_ne_nil _ _, ih⟩
      · split
        · exact List.forall_mem_singleton.mpr (List.cons_ne_nil _ _)
        · next piece pieces h =>
          refine List.forall_mem_cons.mpr ⟨List.cons_ne_nil _ _, fun q hq ↦ ?_⟩
          exact @ih (room - 1) q (h ▸ List.mem_cons_of_mem piece hq)

/-- The part of the pieces that is seen. -/
def visible (pieces : List Bytes) : Bytes :=
  pieces.flatMap fun piece ↦ (CString.ofBytes piece).bytes

theorem visible_cons (piece : Bytes) (pieces : List Bytes) :
    visible (piece :: pieces) = (CString.ofBytes piece).bytes ++ visible pieces :=
  List.flatMap_cons

theorem noNul_visible (pieces : List Bytes) : 0 ∉ visible pieces := by
  intro h
  obtain ⟨piece, _, hmem⟩ := List.mem_flatMap.mp h
  exact (CString.ofBytes piece).noNul hmem

theorem bytes_pipeOutput_eq (output : Bytes) :
    (pipeOutput output).bytes = visible (fgets 1022 1022 output) :=
  CString.bytes_ofBytes (noNul_visible _)

/-- What is seen of a text with a NUL. -/
theorem takeWhile_append_nul {a : Bytes} (h : 0 ∉ a) (b : Bytes) :
    (a ++ 0 :: b).takeWhile (· ≠ 0) = a := by
  have ha : ∀ c ∈ a, decide (c ≠ 0) = true := fun c hc ↦ decide_eq_true fun h0 ↦ h (h0 ▸ hc)
  rw [List.takeWhile_append_of_pos ha, List.takeWhile_cons_of_neg (by decide), List.append_nil]

theorem bytes_ofBytes_append_nul {a : Bytes} (h : 0 ∉ a) (b : Bytes) :
    (CString.ofBytes (a ++ 0 :: b)).bytes = a := takeWhile_append_nul h b

theorem bytes_ofBytes_eq_nil_iff {piece : Bytes} (h : piece ≠ []) :
    (CString.ofBytes piece).bytes = [] ↔ piece.head? = some 0 := by
  obtain ⟨c, piece, rfl⟩ := List.exists_cons_of_ne_nil h
  by_cases hc : c = 0 <;> simp [CString.ofBytes, hc]

/-- Behind a NUL nothing is seen. -/
def NulLast (pieces : List Bytes) : Prop :=
  pieces.Pairwise fun piece later ↦ 0 ∈ piece → later.head? = some 0

/-- What is seen is the front of the text if nothing is seen behind a NUL. -/
theorem visible_prefix_iff {pieces : List Bytes} (h : ∀ piece ∈ pieces, piece ≠ []) :
    visible pieces <+: pieces.flatten ↔ NulLast pieces := by
  induction pieces with
  | nil => exact iff_of_true List.nil_prefix .nil
  | cons piece pieces ih =>
      obtain ⟨_, hpieces⟩ := List.forall_mem_cons.mp h
      rw [visible_cons, List.flatten_cons, NulLast, List.pairwise_cons, ← NulLast]
      by_cases h0 : 0 ∈ piece
      · -- the piece is cut, so nothing may follow
        obtain ⟨a, b, rfl, ha⟩ := List.eq_append_cons_of_mem h0
        have hnil : visible pieces = [] ↔ ∀ q ∈ pieces, q.head? = some 0 := by
          rw [visible, List.flatMap_eq_nil_iff]
          exact forall₂_congr fun q hq ↦ bytes_ofBytes_eq_nil_iff (hpieces q hq)
        have hfront : visible pieces <+: 0 :: (b ++ pieces.flatten) ↔ visible pieces = [] := by
          constructor
          · intro hp
            rcases List.prefix_cons_iff.mp hp with hv | ⟨t, ht, _⟩
            · exact hv
            · exact absurd (ht ▸ List.mem_cons_self) (noNul_visible pieces)
          · intro hv
            rw [hv]
            exact List.nil_prefix
        rw [bytes_ofBytes_append_nul ha, List.append_assoc, List.prefix_append_right_inj,
          List.cons_append, hfront, hnil]
        constructor
        · intro hall
          exact ⟨fun q hq _ ↦ hall q hq, List.pairwise_of_forall_mem_list fun _ _ q hq _ ↦ hall q hq⟩
        · exact fun hall q hq ↦ hall.1 q hq h0
      · have hskip : (∀ q ∈ pieces, 0 ∈ piece → q.head? = some 0) ∧ NulLast pieces ↔
            NulLast pieces := and_iff_right fun _ _ hmem ↦ absurd hmem h0
        rw [CString.bytes_ofBytes h0, List.prefix_append_right_inj, ih hpieces, hskip]

/-- In front of the first NUL everything is seen. -/
theorem takeWhile_prefix_visible (pieces : List Bytes) :
    pieces.flatten.takeWhile (· ≠ 0) <+: visible pieces := by
  induction pieces with
  | nil => exact List.nil_prefix
  | cons piece pieces ih =>
      rw [visible_cons, List.flatten_cons]
      by_cases h0 : 0 ∈ piece
      · obtain ⟨a, b, rfl, ha⟩ := List.eq_append_cons_of_mem h0
        rw [bytes_ofBytes_append_nul ha, List.append_assoc, List.cons_append,
          takeWhile_append_nul ha]
        exact List.prefix_append _ _
      · have hall : ∀ c ∈ piece, decide (c ≠ 0) = true := fun c hc ↦
          decide_eq_true fun he ↦ h0 (he ▸ hc)
        rw [CString.bytes_ofBytes h0, List.takeWhile_append_of_pos hall]
        exact (List.prefix_append_right_inj piece).mpr ih

/-! ## The output of a command -/

/-- What is kept of a stream: everything, or what comes before some place that is not in front of
the first NUL. -/
structure Keeps (stream kept : Bytes) : Prop where
  whole : 0 ∉ stream → kept = stream
  front : 0 ∈ stream → kept <+: stream ∧ stream.takeWhile (· ≠ 0) <+: kept

theorem keeps_pipeOutput_iff (output : Bytes) :
    Keeps output (pipeOutput output).bytes ↔ NulLast (fgets 1022 1022 output) := by
  have hne : ∀ piece ∈ fgets 1022 1022 output, piece ≠ [] := ne_nil_of_mem_fgets
  have hprefix := visible_prefix_iff hne
  have htake := takeWhile_prefix_visible (fgets 1022 1022 output)
  rw [flatten_fgets] at hprefix htake
  rw [← bytes_pipeOutput_eq] at hprefix htake
  rw [← hprefix]
  constructor
  · rintro ⟨hwhole, hfront⟩
    by_cases h0 : 0 ∈ output
    · exact (hfront h0).1
    · exact (hwhole h0).symm ▸ List.prefix_refl _
  · exact fun h ↦ ⟨fun h0 ↦ bytes_pipeOutput h0, fun _ ↦ ⟨h, htake⟩⟩

variable {ν σ : Type}

/-- **The output of a command.**  The agent keeps the front of what a command writes, up to its
first NUL at least, if and only if every piece behind one with a NUL begins with NUL. -/
theorem keeps_toolBash_iff (k : Kernel σ) (command : CString) (w : σ) :
    (∀ piped ∈ (k.popen command w).1,
      ∀ kept ∈ ((toolBash (ν := ν) k command).run w).val.output, Keeps piped.output kept.bytes) ↔
    ∀ piped ∈ (k.popen command w).1, NulLast (fgets 1022 1022 piped.output) := by
  refine forall₂_congr fun piped hpiped ↦ ?_
  rw [output_toolBash, Option.mem_def.mp hpiped, ← keeps_pipeOutput_iff]
  exact ⟨fun h ↦ h _ rfl, fun h kept hkept ↦ Option.mem_some.mp hkept ▸ h⟩

/-- A NUL in the first of two lines. -/
theorem not_keeps_pipeOutput_nul :
    ¬ Keeps (ascii "a\x00b\nc\n") (pipeOutput (ascii "a\x00b\nc\n")).bytes := by
  intro h
  exact absurd (h.front (by decide)).1 (by decide)

end KernelTests.CAgent
