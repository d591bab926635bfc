import Mathlib

/-!
# Runs

A run takes a system from state to state, one event after the other.  `Along` says that every event
of a run finds a state in which it is fit to happen.
-/

namespace Ocx

variable {σ ι : Type*}

/-- Each event of the run from `s` meets the guard where it happens. -/
def Along (step : σ → ι → σ) (guard : σ → ι → Prop) : σ → List ι → Prop
  | _, [] => True
  | s, e :: rest => guard s e ∧ Along step guard (step s e) rest

namespace Along

variable {step : σ → ι → σ} {guard : σ → ι → Prop} {s : σ} {events : List ι}

instance decidable [∀ s e, Decidable (guard s e)] :
    ∀ (s : σ) (events : List ι), Decidable (Along step guard s events)
  | _, [] => .isTrue trivial
  | s, e :: rest =>
    have := decidable (step s e) rest
    inferInstanceAs (Decidable (guard s e ∧ Along step guard (step s e) rest))

theorem invariant {motive : σ → Prop} (h : Along step guard s events) (hstart : motive s)
    (hstep : ∀ s e, guard s e → motive s → motive (step s e)) :
    motive (events.foldl step s) := by
  induction events generalizing s with
  | nil => exact hstart
  | cons e rest ih => exact ih h.2 (hstep s e h.1 hstart)

end Along

end Ocx
