import Mathlib.Logic.Basic

/-!
# Runs of a labelled transition system

Executions from a fixed start state in which every step meets a side condition, and the
induction rule for invariants over them.
-/

namespace TrieDb.Base

variable {σ ℓ : Type*}

/-- The states reached from `s` by steps that all meet `ok` in the state they start from. -/
inductive Run (step : σ → ℓ → σ → Prop) (ok : σ → ℓ → Prop) (s : σ) : σ → Prop
  | refl : Run step ok s s
  | tail {t u : σ} (l : ℓ) (run : Run step ok s t) (hok : ok t l) (h : step t l u) :
      Run step ok s u

namespace Run

variable {step : σ → ℓ → σ → Prop} {ok ok' : σ → ℓ → Prop} {s t u : σ}

/-- What holds at the start and is kept by every step that meets the condition holds in every
state of the run. -/
theorem invariant {inv : σ → Prop} (h0 : inv s)
    (hstep : ∀ t l u, inv t → ok t l → step t l u → inv u) (h : Run step ok s t) : inv t := by
  induction h with
  | refl => exact h0
  | tail l _ hok h ih => exact hstep _ l _ ih hok h

/-- A weaker condition has more runs. -/
theorem mono (hok : ∀ t l, ok t l → ok' t l) (h : Run step ok s t) : Run step ok' s t := by
  induction h with
  | refl => exact refl
  | tail l _ ho h ih => exact ih.tail l (hok _ _ ho) h

end Run

end TrieDb.Base
