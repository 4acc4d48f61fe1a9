import KernelTests.Effects.Traced

/-!
# Instrumented computations

A computation over `ε ⊕ δ` performs events and leaves notes about them.  Forgetting the
notes commutes with everything computations are built from, so an instrumented program
is compared with a plain one stage by stage; and a property of the notes is shown stage
by stage as well.
-/

namespace KernelTests.Effects.Traced

variable {ε δ σ A B S : Type}

/-- Running nothing in front or behind changes nothing. -/
scoped instance : LawfulMonad (Traced ε σ) := .mk' (Traced ε σ)
  (fun x ↦ congrArg Traced.mk (funext fun w ↦
    Outcome.ext rfl (List.append_nil (x.run w).trace) rfl))
  (fun _ _ ↦ rfl)
  (fun _ _ _ ↦ congrArg Traced.mk (funext fun _ ↦
    Outcome.ext rfl (List.append_assoc _ _ _) rfl))

/-! ## Events and notes -/

/-- A computation that leaves no notes. -/
def plain (x : Traced ε σ A) : Traced (ε ⊕ δ) σ A :=
  ⟨fun w ↦ ⟨(x.run w).val, (x.run w).trace.map .inl, (x.run w).world⟩⟩

/-- Leave a note. -/
def note (d : δ) : Traced (ε ⊕ δ) σ Unit := emit (.inr d)

@[simp] theorem run_note (d : δ) (w : σ) :
    (note d : Traced (ε ⊕ δ) σ Unit).run w = ⟨(), [.inr d], w⟩ := rfl

/-- The computation without its notes. -/
def erase (x : Traced (ε ⊕ δ) σ A) : Traced ε σ A :=
  ⟨fun w ↦ ⟨(x.run w).val, (x.run w).trace.filterMap Sum.getLeft?, (x.run w).world⟩⟩

/-- The notes of a computation. -/
def notes (x : Traced (ε ⊕ δ) σ A) (w : σ) : List δ := (x.run w).trace.filterMap Sum.getRight?

/-! ## Erasure -/

@[simp] theorem val_erase (x : Traced (ε ⊕ δ) σ A) (w : σ) :
    ((erase x).run w).val = (x.run w).val := rfl

@[simp] theorem world_erase (x : Traced (ε ⊕ δ) σ A) (w : σ) :
    ((erase x).run w).world = (x.run w).world := rfl

theorem trace_erase (x : Traced (ε ⊕ δ) σ A) (w : σ) :
    ((erase x).run w).trace = (x.run w).trace.filterMap Sum.getLeft? := rfl

@[simp] theorem erase_pure (a : A) : erase (pure a : Traced (ε ⊕ δ) σ A) = pure a := rfl

@[simp] theorem erase_bind (x : Traced (ε ⊕ δ) σ A) (k : A → Traced (ε ⊕ δ) σ B) :
    erase (x >>= k) = erase x >>= fun a ↦ erase (k a) :=
  congrArg Traced.mk (funext fun _ ↦ Outcome.ext rfl List.filterMap_append rfl)

@[simp] theorem erase_map (f : A → B) (x : Traced (ε ⊕ δ) σ A) :
    erase (f <$> x) = f <$> erase x := by
  rw [map_eq_pure_bind, map_eq_pure_bind, erase_bind]
  rfl

@[simp] theorem erase_plain (x : Traced ε σ A) : erase (plain x : Traced (ε ⊕ δ) σ A) = x :=
  congrArg Traced.mk (funext fun w ↦ Outcome.ext rfl (by
    change List.filterMap _ (List.map _ _) = _
    rw [List.filterMap_map]
    exact List.filterMap_some) rfl)

@[simp] theorem erase_note (d : δ) : erase (note d : Traced (ε ⊕ δ) σ Unit) = pure () := rfl

/-- A loop is erased round by round. -/
theorem erase_iterate (body : S → Traced (ε ⊕ δ) σ (A ⊕ S)) (exhausted : Traced (ε ⊕ δ) σ A)
    (n : ℕ) (s : S) : erase (iterate body exhausted n s) =
      iterate (fun s ↦ erase (body s)) (erase exhausted) n s := by
  induction n generalizing s with
  | zero => rfl
  | succ n ih =>
      rw [iterate, iterate, erase_bind]
      congr 1
      funext next
      cases next with
      | inl a => rfl
      | inr s => exact ih s

/-! ## Notes -/

@[simp] theorem notes_pure (a : A) (w : σ) : notes (pure a : Traced (ε ⊕ δ) σ A) w = [] := rfl

@[simp] theorem notes_bind (x : Traced (ε ⊕ δ) σ A) (k : A → Traced (ε ⊕ δ) σ B) (w : σ) :
    notes (x >>= k) w = notes x w ++ notes (k (x.run w).val) (x.run w).world :=
  List.filterMap_append

@[simp] theorem notes_map (f : A → B) (x : Traced (ε ⊕ δ) σ A) (w : σ) :
    notes (f <$> x) w = notes x w := by
  rw [map_eq_pure_bind, notes_bind, notes_pure, List.append_nil]

@[simp] theorem notes_plain (x : Traced ε σ A) (w : σ) :
    notes (plain x : Traced (ε ⊕ δ) σ A) w = [] := by
  simp [notes, plain, List.filterMap_map, Function.comp_def]

@[simp] theorem notes_note (d : δ) (w : σ) : notes (note d : Traced (ε ⊕ δ) σ Unit) w = [d] := rfl

/-- Every note of the computation satisfies `P`. -/
def Notes (P : δ → Prop) (x : Traced (ε ⊕ δ) σ A) : Prop := ∀ w, ∀ d ∈ notes x w, P d

variable {P : δ → Prop}

theorem Notes.pure (a : A) : Notes P (Pure.pure a : Traced (ε ⊕ δ) σ A) :=
  fun _ _ h ↦ absurd h List.not_mem_nil

theorem Notes.plain (x : Traced ε σ A) : Notes P (Traced.plain x) := by
  intro w d h
  rw [notes_plain] at h
  cases h

theorem Notes.note {d : δ} (h : P d) : Notes P (Traced.note d : Traced (ε ⊕ δ) σ Unit) := by
  intro w d' h'
  rw [notes_note, List.mem_singleton] at h'
  exact h' ▸ h

theorem Notes.bind {x : Traced (ε ⊕ δ) σ A} {k : A → Traced (ε ⊕ δ) σ B} (hx : Notes P x)
    (hk : ∀ a, Notes P (k a)) : Notes P (x >>= k) := by
  intro w d h
  rw [notes_bind, List.mem_append] at h
  rcases h with h | h
  · exact hx w d h
  · exact hk _ _ d h

end KernelTests.Effects.Traced
