import KernelTests.CJson.Draft
import KernelTests.CJson.Parse
import KernelTests.Json.RoundTrip

/-!
# Trees that outlive others

What happens to a text on its way through the agent: it is parsed, a part of the tree is
copied and the rest released; later the copy is printed, and the text is parsed again.
-/

namespace KernelTests.CJson

open Json Memory

variable {A ν : Type} [DecidableEq A] [CDouble ν] (M : Allocator A (Cell A ν))

/-- Parse a text, copy the tree and release the original. -/
def parseCopy (text : CString) : Action A ν (Option A) := do
  let item ← parse M (some text)
  let copy ← duplicate M item true
  delete item
  return copy

/-- Parse a text, print the value, and parse what was printed; only the last tree is kept. -/
def reprint (text : CString) : Action A ν (Option A) := do
  let item ← parse M (some text)
  let printed ← printUnformatted M item
  delete item
  if printed.isNone then
    return none
  else
    let again ← loadText printed
    free printed
    parse M (some again)

variable {M}

/-- **The copy outlives the original.**  It still stands for the whole value, and nothing else
is left.  Without a copy nothing is left at all: because nothing is read, or because a request
failed. -/
theorem parseCopy_spec (s : CString) :
    Spec (parseCopy M s) 0 (Delivers (Json.parse (ν := ν) s = none ∨ ¬ M.Unfailing) fun t ↦
      t.key = none ∧ ∃ v, Json.parse s = some v ∧ t.Denotes v) := by
  refine Memory.Spec.bind (parse_spec s) ?_
  rintro _ _ (⟨rfl, rfl, hnone⟩ | ⟨t, rfl, rfl, hkey, v, hread, hv⟩)
  · refine Memory.Spec.bind (duplicate_null 0) ?_
    rintro _ _ ⟨rfl, rfl⟩
    refine Memory.Spec.bind (delete_null 0) ?_
    rintro _ _ rfl
    exact Memory.Spec.pure (Or.inl ⟨rfl, rfl, hnone⟩)
  · refine Memory.Spec.bind (duplicate_spec t none none) ?_
    rintro _ _ (⟨rfl, rfl, hM⟩ | ⟨t', rfl, hcopy, rfl⟩)
    · refine Memory.Spec.bind (delete_item t none) ?_
      rintro _ _ rfl
      exact Memory.Spec.pure (Or.inl ⟨rfl, rfl, Or.inr hM⟩)
    · refine Memory.Spec.call (R := t'.cells none none) (delete_item t none) (add_comm _ _) ?_
      rintro _ _ rfl
      rw [zero_add]
      exact Memory.Spec.pure (Or.inr ⟨t', rfl, rfl, hcopy.key.trans hkey, v, hread, hcopy.carries hv⟩)

/-- **The round trip.**  What was read and printed is read again, up to what becomes of the
numbers, and only the tree for it is left.  Otherwise nothing is left: nothing is read, a request
failed, or the text is too long to be printed. -/
theorem reprint_spec (s : CString) :
    Spec (reprint M s) 0 (Delivers
      (∀ v : Json ν, Json.parse s = some v → Overlong M v.print.length) fun t ↦
        t.key = none ∧ ∃ v, Json.parse s = some v ∧ t.Denotes v.reread) := by
  refine Memory.Spec.bind (parse_spec s) ?_
  rintro _ _ (⟨rfl, rfl, hnone⟩ | ⟨t, rfl, rfl, hkey, v, hread, hv⟩)
  · refine Memory.Spec.bind (printUnformatted_null 0) ?_
    rintro _ _ ⟨rfl, rfl⟩
    refine Memory.Spec.bind (delete_null 0) ?_
    rintro _ _ rfl
    refine Memory.Spec.pure (Or.inl ⟨rfl, rfl, fun v hv ↦ ?_⟩)
    rcases hnone with h | hM
    · rw [hv] at h
      cases h
    · exact Or.inl hM
  · refine Memory.Spec.bind (printUnformatted_spec hv.shows none none) ?_
    rintro _ _ (⟨rfl, rfl, hlong⟩ | ⟨a, rfl, rfl⟩)
    · refine Memory.Spec.bind (delete_item t none) ?_
      rintro _ _ rfl
      refine Memory.Spec.pure (Or.inl ⟨rfl, rfl, fun w hw ↦ ?_⟩)
      rw [hread] at hw
      cases hw
      exact hlong
    · have hagain : Json.parse (ν := ν) (Json.printUnformatted v) = some v.reread := by
        rw [parse_printUnformatted, if_pos (Json.height_le_of_parse hread)]
      refine Memory.Spec.call (delete_item t none) (add_comm _ _) ?_
      rintro _ _ rfl
      rw [if_neg (by simp), zero_add]
      refine Spec.loadCString rfl (Multiset.mem_singleton_self _) ?_
      refine Memory.Spec.free (R := 0) rfl (add_zero _).symm ?_
      refine (parse_spec (Json.printUnformatted v)).mono ?_
      rintro r P (⟨hr, hP, hnone⟩ | ⟨t', hr, hP, hkey', w, hw, ht'⟩)
      · refine Or.inl ⟨hr, hP, fun w hw ↦ Or.inl (hnone.resolve_left ?_)⟩
        rw [hagain]
        exact Option.some_ne_none _
      · rw [hagain] at hw
        cases hw
        exact Or.inr ⟨t', hr, hP, hkey', v, hread, ht'⟩

end KernelTests.CJson
