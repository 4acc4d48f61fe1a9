import KernelTests.Effects.Erasure
import KernelTests.Memory.Heap

/-!
# Programs with a heap and a world

A hosted program works on a heap, acts on the world and records events.  `Refines` compares it
with a computation that has no heap: from every heap that consists of the cells `P` and of any
others, it ends without undefined behaviour, leaves the world as the computation does, and
shows the same events.  It may rely on what the events of the computation are known to satisfy.
-/

namespace KernelTests.Effects

open Memory
open scoped Traced

variable {ε σ A N α β S T : Type}

/-- A program over a heap and a world. -/
abbrev Hosted (ε σ A N α : Type) := StateT (Heap A N) (OptionT (Traced ε σ)) α

namespace Hosted

/-- Work on the heap. -/
def onHeap (c : Prog A N α) : Hosted ε σ A N α := fun h ↦ OptionT.mk (pure (c h))

/-- Act on the world. -/
def onWorld (x : Traced ε σ α) : Hosted ε σ A N α :=
  fun h ↦ OptionT.mk (x >>= fun a ↦ pure (some (a, h)))

/-- What a program leaves behind: its result and the heap, unless its behaviour is undefined. -/
def outcome (c : Hosted ε σ A N α) (h : Heap A N) (w : σ) :
    Outcome ε σ (Option (α × Heap A N)) := (OptionT.run (c h)).run w

/-- Run the body until it returns, at most `n` times; then run `exhausted`. -/
def iterate (body : S → Hosted ε σ A N (α ⊕ S)) (exhausted : Hosted ε σ A N α) :
    ℕ → S → Hosted ε σ A N α
  | 0, _ => exhausted
  | n + 1, s => do
    match ← body s with
    | .inl a => return a
    | .inr s => iterate body exhausted n s

theorem outcome_onWorld (x : Traced ε σ α) (h : Heap A N) (w : σ) :
    outcome (onWorld x : Hosted ε σ A N α) h w =
      ⟨some ((x.run w).val, h), (x.run w).trace, (x.run w).world⟩ :=
  Outcome.ext rfl (List.append_nil _) rfl

/-- What follows a program whose behaviour is defined. -/
theorem outcome_bind {c : Hosted ε σ A N α} {k : α → Hosted ε σ A N β} {h h' : Heap A N} {w : σ}
    {r : α} (hr : (outcome c h w).val = some (r, h')) :
    outcome (c >>= k) h w =
      let o := outcome (k r) h' (outcome c h w).world
      ⟨o.val, (outcome c h w).trace ++ o.trace, o.world⟩ := by
  have hval : ((OptionT.run (c h)).run w).val = some (r, h') := hr
  have hbind : OptionT.run ((c >>= k) h) = Option.elimM (OptionT.run (c h)) (pure none)
      fun p ↦ OptionT.run (k p.1 p.2) := OptionT.run_bind _
  rw [outcome, hbind, Option.elimM, Traced.run_bind, hval]
  rfl

end Hosted

open Hosted

/-! ## Refinement -/

/-- The program `c` does what the computation `x` does, as far as events are seen; if the events
of `x` satisfy `G`. -/
def Refines (G : ε → Prop) (see : ε → Bool) (c : Hosted ε σ A N α) (P : Multiset (A × N))
    (x : Traced ε σ β) (Q : α → β → Multiset (A × N) → Prop) : Prop :=
  ∀ F h w, h.Holds (P + F) → (∀ e ∈ (x.run w).trace, G e) →
    ∃ r h' P', (outcome c h w).val = some (r, h') ∧
      (outcome c h w).trace.filter see = (x.run w).trace.filter see ∧
      (outcome c h w).world = (x.run w).world ∧ h'.Holds (P' + F) ∧ Q r (x.run w).val P'

namespace Refines

variable {G : ε → Prop} {see : ε → Bool} {c : Hosted ε σ A N α} {P R : Multiset (A × N)}
  {x : Traced ε σ β} {Q : α → β → Multiset (A × N) → Prop}

theorem pure {r : α} {s : β} (h : Q r s P) :
    Refines G see (pure r : Hosted ε σ A N α) P (pure s : Traced ε σ β) Q :=
  fun _ h' _ hh _ ↦ ⟨r, h', P, rfl, rfl, rfl, hh, h⟩

theorem mono {Q' : α → β → Multiset (A × N) → Prop} (hc : Refines G see c P x Q)
    (h : ∀ r s P', Q r s P' → Q' r s P') : Refines G see c P x Q' := by
  intro F m w hm hG
  obtain ⟨r, m', P', hr, ht, hw, hm', hq⟩ := hc F m w hm hG
  exact ⟨r, m', P', hr, ht, hw, hm', h _ _ _ hq⟩

theorem bind {α' β' : Type} {k : α → Hosted ε σ A N α'} {l : β → Traced ε σ β'}
    {Q' : α' → β' → Multiset (A × N) → Prop} (hc : Refines G see c P x Q)
    (hk : ∀ r s P', Q r s P' → Refines G see (k r) P' (l s) Q') :
    Refines G see (c >>= k) P (x >>= l) Q' := by
  intro F m w hm hG
  rw [Traced.run_bind] at hG ⊢
  simp only [List.mem_append] at hG
  obtain ⟨r, m', P', hr, ht, hw, hm', hq⟩ := hc F m w hm fun e he ↦ hG e (Or.inl he)
  obtain ⟨r', m'', P'', hr', ht', hw', hm'', hq'⟩ :=
    hk r _ P' hq F m' _ hm' fun e he ↦ hG e (Or.inr he)
  refine ⟨r', m'', P'', ?_⟩
  rw [outcome_bind hr, hw]
  refine ⟨hr', ?_, hw', hm'', hq'⟩
  rw [List.filter_append, List.filter_append, ht, ht']

/-- What follows when the computation is at its end. -/
theorem finish {α' : Type} {k : α → Hosted ε σ A N α'} {Q' : α' → β → Multiset (A × N) → Prop}
    (hc : Refines G see c P x Q)
    (hk : ∀ r s P', Q r s P' → Refines G see (k r) P' (Pure.pure s : Traced ε σ β) Q') :
    Refines G see (c >>= k) P x Q' := by
  have h := bind hc hk
  rwa [bind_pure] at h

/-- A step that only works on a part of the cells. -/
theorem heap {γ : Type} {f : Prog A N γ} {k : γ → Hosted ε σ A N α} {P₀ : Multiset (A × N)}
    {Q₀ : γ → Multiset (A × N) → Prop} (hf : Spec f P₀ Q₀) (hP : P = P₀ + R)
    (hk : ∀ r P', Q₀ r P' → Refines G see (k r) (P' + R) x Q) :
    Refines G see (onHeap f >>= k) P x Q := by
  subst hP
  intro F m w hm hG
  rw [add_assoc] at hm
  obtain ⟨r, m', P', hr, hm', hq⟩ := hf (R + F) m hm
  rw [← add_assoc] at hm'
  have ho : (outcome (onHeap f : Hosted ε σ A N γ) m w).val = some (r, m') := hr
  rw [outcome_bind ho]
  exact hk r P' hq F m' w hm' hG

/-- A step that leaves the heap as it is. -/
theorem look {γ : Type} {f : Prog A N γ} {k : γ → Hosted ε σ A N α} {φ : γ → Prop}
    (hf : Spec f P fun r P' ↦ φ r ∧ P' = P) (hk : ∀ r, φ r → Refines G see (k r) P x Q) :
    Refines G see (onHeap f >>= k) P x Q := by
  refine heap hf (add_zero P).symm ?_
  rintro r _ ⟨hr, rfl⟩
  rw [add_zero]
  exact hk r hr

/-- The last step of a program, as a step with nothing behind it. -/
theorem last (hc : Refines G see (c >>= Pure.pure) P x Q) : Refines G see c P x Q := by
  rwa [bind_pure] at hc

/-- The same action on the world on both sides, and nothing else. -/
theorem same (y : Traced ε σ α) :
    Refines G see (onWorld y : Hosted ε σ A N α) P y fun r s P' ↦ r = s ∧ P' = P := by
  intro F m w hm _
  rw [outcome_onWorld]
  exact ⟨_, m, P, rfl, rfl, rfl, hm, rfl, rfl⟩

/-- The same action on the world on both sides. -/
theorem world {γ : Type} {y : Traced ε σ γ} {k : γ → Hosted ε σ A N α} {l : γ → Traced ε σ β}
    (hk : ∀ a, Refines G see (k a) P (l a) Q) : Refines G see (onWorld y >>= k) P (y >>= l) Q := by
  refine bind (same y) ?_
  rintro r _ _ ⟨rfl, rfl⟩
  exact hk r

/-- An event that only the computation records, and that is not seen. -/
theorem unseen {e : ε} {l : Unit → Traced ε σ β} (he : see e = false)
    (hk : G e → Refines G see c P (l ()) Q) : Refines G see c P (Traced.emit e >>= l) Q := by
  intro F m w hm hG
  rw [Traced.run_bind, Traced.run_emit] at hG ⊢
  obtain ⟨r, m', P', hr, ht, hw, hm', hq⟩ := hk (hG e List.mem_cons_self) F m w hm
    fun e' he' ↦ hG e' (List.mem_cons_of_mem e he')
  refine ⟨r, m', P', hr, ?_, hw, hm', hq⟩
  rw [ht, List.singleton_append, List.filter_cons_of_neg (by simp [he])]

/-- A loop whose rounds keep `I` between the two states and the cells. -/
theorem iterate {body : S → Hosted ε σ A N (α ⊕ S)} {exhausted : Hosted ε σ A N α}
    {body' : T → Traced ε σ (β ⊕ T)} {exhausted' : Traced ε σ β}
    {I : S → T → Multiset (A × N) → Prop}
    (hbody : ∀ s t P, I s t P → Refines G see (body s) P (body' t) fun r r' P' ↦
      (∃ a b, r = .inl a ∧ r' = .inl b ∧ Q a b P') ∨ ∃ s t, r = .inr s ∧ r' = .inr t ∧ I s t P')
    (hexhausted : ∀ s t P, I s t P → Refines G see exhausted P exhausted' Q) (n : ℕ) (s : S) (t : T)
    (h : I s t P) :
    Refines G see (Hosted.iterate body exhausted n s) P (Traced.iterate body' exhausted' n t) Q := by
  induction n generalizing s t P with
  | zero => exact hexhausted s t P h
  | succ n ih =>
      refine bind (hbody s t P h) ?_
      rintro _ _ P' (⟨a, b, rfl, rfl, hq⟩ | ⟨s, t, rfl, rfl, h⟩)
      · exact pure hq
      · exact ih s t h

end Refines

end KernelTests.Effects
