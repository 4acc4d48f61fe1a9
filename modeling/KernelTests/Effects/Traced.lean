import Mathlib.Data.List.Basic
import Mathlib.Data.Nat.Notation

/-!
# Computations with a world and a trace

`Traced ε σ A` is the type of programs that act on a world `σ` and record the
events `ε` they perform on the way.  Loops with a step budget are `iterate`, and
`iterate_cases` is the one induction over them: a run consists of completed rounds,
followed by a round that leaves the loop or by the end of the budget.

We use the convention that `Sum.inl` is a returned value and `Sum.inr` is the
state of the next round.
-/

namespace KernelTests.Effects

variable {ε σ A B S : Type}

/-- What a computation leaves behind. -/
@[ext]
structure Outcome (ε σ A : Type) where
  /-- The returned value. -/
  val : A
  /-- The events, in order. -/
  trace : List ε
  /-- The world afterwards. -/
  world : σ

/-- A computation that acts on a world and records events. -/
structure Traced (ε σ A : Type) where
  /-- What becomes of a world. -/
  run : σ → Outcome ε σ A

namespace Traced

/-- `pure` records nothing; a bind records the events of both stages in order. -/
instance : Monad (Traced ε σ) where
  pure a := ⟨fun w ↦ ⟨a, [], w⟩⟩
  bind x k := ⟨fun w ↦
    let o := x.run w
    let p := (k o.val).run o.world
    ⟨p.val, o.trace ++ p.trace, p.world⟩⟩

/-- Record an event. -/
def emit (e : ε) : Traced ε σ Unit := ⟨fun w ↦ ⟨(), [e], w⟩⟩

/-- Act on the world without recording anything. -/
def act (f : σ → A × σ) : Traced ε σ A := ⟨fun w ↦ ⟨(f w).1, [], (f w).2⟩⟩

@[simp] theorem run_pure (a : A) (w : σ) : (pure a : Traced ε σ A).run w = ⟨a, [], w⟩ := rfl

@[simp] theorem run_bind (x : Traced ε σ A) (k : A → Traced ε σ B) (w : σ) :
    (x >>= k).run w = ⟨((k (x.run w).val).run (x.run w).world).val,
      (x.run w).trace ++ ((k (x.run w).val).run (x.run w).world).trace,
      ((k (x.run w).val).run (x.run w).world).world⟩ := rfl

@[simp] theorem run_emit (e : ε) (w : σ) : (emit e : Traced ε σ Unit).run w = ⟨(), [e], w⟩ := rfl

@[simp] theorem run_act (f : σ → A × σ) (w : σ) :
    (act f : Traced ε σ A).run w = ⟨(f w).1, [], (f w).2⟩ := rfl

/-! ## Worlds -/

/-- A world in `I` stays in `I`. -/
def Keeps (I : σ → Prop) (x : Traced ε σ A) : Prop := ∀ w, I w → I (x.run w).world

theorem Keeps.pure {I : σ → Prop} (a : A) : Keeps I (Pure.pure a : Traced ε σ A) := fun _ h ↦ h

theorem Keeps.emit {I : σ → Prop} (e : ε) : Keeps I (Traced.emit e : Traced ε σ Unit) :=
  fun _ h ↦ h

theorem Keeps.act {I : σ → Prop} {f : σ → A × σ} (h : ∀ w, I w → I (f w).2) :
    Keeps I (Traced.act f : Traced ε σ A) := h

theorem Keeps.bind {I : σ → Prop} {x : Traced ε σ A} {k : A → Traced ε σ B} (hx : Keeps I x)
    (hk : ∀ a, Keeps I (k a)) : Keeps I (x >>= k) :=
  fun w h ↦ hk _ _ (hx w h)

/-! ## Loops with a budget -/

/-- Run the body until it returns, at most `n` times; then run `exhausted`. -/
def iterate (body : S → Traced ε σ (A ⊕ S)) (exhausted : Traced ε σ A) :
    ℕ → S → Traced ε σ A
  | 0, _ => exhausted
  | n + 1, s => do
    match ← body s with
    | .inl a => return a
    | .inr s => iterate body exhausted n s

theorem Keeps.iterate {I : σ → Prop} {body : S → Traced ε σ (A ⊕ S)} {exhausted : Traced ε σ A}
    (hbody : ∀ s, Keeps I (body s)) (hexhausted : Keeps I exhausted) (n : ℕ) (s : S) :
    Keeps I (iterate body exhausted n s) := by
  induction n generalizing s with
  | zero => exact hexhausted
  | succ n ih =>
      refine (hbody s).bind fun next ↦ ?_
      cases next with
      | inl a => exact .pure a
      | inr s => exact ih s

/-- A loop whose first round returns. -/
theorem run_iterate_of_inl {body : S → Traced ε σ (A ⊕ S)} (exhausted : Traced ε σ A) (n : ℕ)
    {s : S} {w : σ} {a : A} (h : ((body s).run w).val = .inl a) :
    (iterate body exhausted (n + 1) s).run w =
      ⟨a, ((body s).run w).trace, ((body s).run w).world⟩ := by
  simp [iterate, h]

/-- A loop whose first round goes on. -/
theorem run_iterate_of_inr {body : S → Traced ε σ (A ⊕ S)} (exhausted : Traced ε σ A) (n : ℕ)
    {s s₁ : S} {w : σ} (h : ((body s).run w).val = .inr s₁) :
    (iterate body exhausted (n + 1) s).run w =
      let o := (iterate body exhausted n s₁).run ((body s).run w).world
      ⟨o.val, ((body s).run w).trace ++ o.trace, o.world⟩ := by
  simp [iterate, h]

/-- What is kept by putting traces together holds of the trace of a loop if it holds of the
trace of every round. -/
theorem trace_iterate {T : List ε → Prop} (happend : ∀ {t u}, T t → T u → T (t ++ u))
    {body : S → Traced ε σ (A ⊕ S)} (hbody : ∀ s w, T ((body s).run w).trace)
    {exhausted : Traced ε σ A} (hexhausted : ∀ w, T (exhausted.run w).trace) (n : ℕ) (s : S) (w : σ) :
    T ((iterate body exhausted n s).run w).trace := by
  induction n generalizing s w with
  | zero => exact hexhausted w
  | succ n ih =>
      cases h : ((body s).run w).val with
      | inl a =>
          rw [run_iterate_of_inl exhausted n h]
          exact hbody s w
      | inr s₁ =>
          rw [run_iterate_of_inr exhausted n h]
          exact happend (hbody s w) (ih s₁ _)

/-- What the first round brings about stays. -/
theorem world_iterate_succ {I : σ → Prop} {body : S → Traced ε σ (A ⊕ S)}
    {exhausted : Traced ε σ A} (hbody : ∀ s, Keeps I (body s)) (hexhausted : Keeps I exhausted)
    (n : ℕ) {s : S} {w : σ} (h : I ((body s).run w).world) :
    I ((iterate body exhausted (n + 1) s).run w).world := by
  cases hval : ((body s).run w).val with
  | inl a =>
      rw [run_iterate_of_inl exhausted n hval]
      exact h
  | inr s₁ =>
      rw [run_iterate_of_inr exhausted n hval]
      exact Keeps.iterate hbody hexhausted n s₁ _ h

/-- `Rounds body s w ts s' w'`: from loop state `s` and world `w` the body went round
once for each trace in `ts`, and arrived at `s'` and `w'`. -/
inductive Rounds (body : S → Traced ε σ (A ⊕ S)) : S → σ → List (List ε) → S → σ → Prop
  /-- No round. -/
  | nil (s : S) (w : σ) : Rounds body s w [] s w
  /-- One round in front of others. -/
  | cons {s s₁ s' : S} {w w₁ w' : σ} {t : List ε} {ts : List (List ε)} :
      (body s).run w = ⟨.inr s₁, t, w₁⟩ → Rounds body s₁ w₁ ts s' w' →
      Rounds body s w (t :: ts) s' w'

/-- **The runs of a loop.**  Either some round within the budget returned, or all of the
budget was used up. -/
theorem iterate_cases (body : S → Traced ε σ (A ⊕ S)) (exhausted : Traced ε σ A) (n : ℕ)
    (s : S) (w : σ) :
    (∃ ts s' w' a t w'', ts.length < n ∧ Rounds body s w ts s' w' ∧
        (body s').run w' = ⟨.inl a, t, w''⟩ ∧
        (iterate body exhausted n s).run w = ⟨a, ts.flatten ++ t, w''⟩) ∨
      (∃ ts s' w', ts.length = n ∧ Rounds body s w ts s' w' ∧
        (iterate body exhausted n s).run w =
          ⟨(exhausted.run w').val, ts.flatten ++ (exhausted.run w').trace, (exhausted.run w').world⟩) := by
  induction n generalizing s w with
  | zero => exact Or.inr ⟨[], s, w, rfl, .nil s w, rfl⟩
  | succ n ih =>
      rcases hb : (body s).run w with ⟨v, t, w₁⟩
      cases v with
      | inl a =>
          refine Or.inl ⟨[], s, w, a, t, w₁, Nat.succ_pos n, .nil s w, hb, ?_⟩
          simp [iterate, hb]
      | inr s₁ =>
          rcases ih s₁ w₁ with ⟨ts, s', w', a, t', w'', hn, hr, hl, he⟩ | ⟨ts, s', w', hn, hr, he⟩
          · refine Or.inl ⟨t :: ts, s', w', a, t', w'', by simpa using hn, .cons hb hr, hl, ?_⟩
            simp [iterate, hb, he]
          · refine Or.inr ⟨t :: ts, s', w', by simpa using hn, .cons hb hr, ?_⟩
            simp [iterate, hb, he]

/-- What holds of the first loop state and is kept by every round holds of every loop state
that is reached. -/
theorem Rounds.invariant {body : S → Traced ε σ (A ⊕ S)} {I : S → Prop} {s s' : S} {w w' : σ}
    {ts : List (List ε)} (h : Rounds body s w ts s' w') (hs : I s)
    (hstep : ∀ s w s₁, I s → ((body s).run w).val = .inr s₁ → I s₁) : I s' := by
  induction h with
  | nil => exact hs
  | cons hb _ ih => exact ih (hstep _ _ _ hs (by rw [hb]))

/-- Every recorded round started from some loop state that was reached. -/
theorem Rounds.exists_of_mem {body : S → Traced ε σ (A ⊕ S)} {s s' : S} {w w' : σ}
    {ts : List (List ε)} (h : Rounds body s w ts s' w') {t : List ε} (ht : t ∈ ts) :
    ∃ us s₁ w₁ s₂, Rounds body s w us s₁ w₁ ∧ ((body s₁).run w₁).val = .inr s₂ ∧
      t = ((body s₁).run w₁).trace := by
  induction h with
  | nil => cases ht
  | @cons s s₁ _ w _ _ _ _ hb _ ih =>
      rcases List.mem_cons.mp ht with rfl | ht
      · exact ⟨[], s, w, s₁, .nil s w, by rw [hb], by rw [hb]⟩
      · obtain ⟨us, s₁, w₁, s₂, hr, hv, he⟩ := ih ht
        exact ⟨_, s₁, w₁, s₂, .cons hb hr, hv, he⟩

/-- The events of the recorded rounds happened in rounds that were reached. -/
theorem Rounds.exists_of_mem_flatten {body : S → Traced ε σ (A ⊕ S)} {s s' : S} {w w' : σ}
    {ts : List (List ε)} (h : Rounds body s w ts s' w') {e : ε} (he : e ∈ ts.flatten) :
    ∃ us s₁ w₁, Rounds body s w us s₁ w₁ ∧ e ∈ ((body s₁).run w₁).trace := by
  obtain ⟨t, ht, hm⟩ := List.mem_flatten.mp he
  obtain ⟨us, s₁, w₁, _, hr, _, rfl⟩ := h.exists_of_mem ht
  exact ⟨us, s₁, w₁, hr, hm⟩

/-- Every event of a loop happens in a round, or after the budget is used up. -/
theorem exists_of_mem_iterate {body : S → Traced ε σ (A ⊕ S)} {exhausted : Traced ε σ A} {n : ℕ}
    {s : S} {w : σ} {e : ε} (h : e ∈ ((iterate body exhausted n s).run w).trace) :
    (∃ us s₁ w₁, Rounds body s w us s₁ w₁ ∧ e ∈ ((body s₁).run w₁).trace) ∨
      ∃ w₁, e ∈ (exhausted.run w₁).trace := by
  rcases iterate_cases body exhausted n s w with
    ⟨ts, s', w', a, t, w'', _, hr, hb, he⟩ | ⟨ts, s', w', _, hr, he⟩
  · rw [he, List.mem_append] at h
    rcases h with h | h
    · exact Or.inl (hr.exists_of_mem_flatten h)
    · exact Or.inl ⟨ts, s', w', hr, by rw [hb]; exact h⟩
  · rw [he, List.mem_append] at h
    rcases h with h | h
    · exact Or.inl (hr.exists_of_mem_flatten h)
    · exact Or.inr ⟨w', h⟩

end Traced

end KernelTests.Effects
