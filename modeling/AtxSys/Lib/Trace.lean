import Mathlib.Data.List.Forall2

/-!
# Runs of a labelled transition system

`Steps step s es s'`: from `s` the events `es`, one after the other, lead to `s'`. A state that a
run passes through is the last state of a shorter run, so what holds at the end of every run holds
in every state reached.
-/

namespace Trace

variable {σ ε : Type}

inductive Steps (step : σ → ε → σ → Prop) : σ → List ε → σ → Prop where
  | nil (s : σ) : Steps step s [] s
  | snoc {s t u : σ} {es : List ε} {e : ε} (run : Steps step s es t) (last : step t e u) :
      Steps step s (es ++ [e]) u

namespace Steps

variable {step : σ → ε → σ → Prop} {s t : σ} {es : List ε} {e : ε}

/-- What every step preserves holds at the end of a run. -/
theorem invariant {I : σ → Prop} (hstep : ∀ s e t, I s → step s e t → I t)
    (hrun : Steps step s es t) (hstart : I s) : I t := by
  induction hrun with
  | nil => exact hstart
  | snoc run last ih => exact hstep _ _ _ ih last

/-- A run is simulated step by step, where related states take related events to related states. -/
theorem simulate {τ ι : Type} {step' : τ → ι → τ → Prop} {R : σ → τ → Prop} {E : ε → ι → Prop}
    (hstep : ∀ s e t a, R s a → step s e t → ∃ i b, E e i ∧ step' a i b ∧ R t b)
    (hrun : Steps step s es t) {a : τ} (hstart : R s a) :
    ∃ is b, List.Forall₂ E es is ∧ Steps step' a is b ∧ R t b := by
  induction hrun with
  | nil => exact ⟨[], a, .nil, .nil a, hstart⟩
  | snoc run last ih =>
      obtain ⟨is, b, hevents, hrun', hrelated⟩ := ih
      obtain ⟨i, c, hevent, hnext, hrelated'⟩ := hstep _ _ _ _ hrelated last
      exact ⟨is ++ [i], c, List.rel_append hevents (.cons hevent .nil), hrun'.snoc hnext,
        hrelated'⟩

theorem single (hstep : step s e t) : Steps step s [e] t := .snoc (.nil s) hstep

end Steps

end Trace
