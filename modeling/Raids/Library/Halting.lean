import Mathlib.Logic.Function.Iterate
import Mathlib.Tactic

/-- The steps from a state come to a final state. -/
def Halts {σ : Type*} (step : σ → σ) (final : σ → Prop) (s : σ) : Prop := ∃ n, final (step^[n] s)

namespace Halts

variable {σ : Type*} {step : σ → σ} {final : σ → Prop} {s t : σ}

/-- A final state needs no step. -/
theorem of_final (done : final s) : Halts step final s := ⟨0, done⟩

/-- A state that is not final halts when the next one does. -/
theorem step_iff (going : ¬final s) : Halts step final s ↔ Halts step final (step s) := by
  constructor
  · intro ⟨n, done⟩
    cases n with
    | zero => exact absurd done going
    | succ n => exact ⟨n, done⟩
  · intro ⟨n, done⟩
    exact ⟨n + 1, done⟩

/-- One step from a state that is not final. -/
theorem step_eq_iff (going : ¬final s) (next : step s = t) :
    Halts step final s ↔ Halts step final t :=
  next ▸ step_iff going

/-- A state that is its own next state never halts. -/
theorem not_of_fixed (going : ¬final s) (fixed : step s = s) : ¬Halts step final s := by
  intro ⟨n, done⟩
  rw [Function.iterate_fixed fixed] at done
  exact going done

end Halts

/-- A property of all states behind a state is one of the state and of all behind the next. -/
theorem forall_iterate_iff {σ : Type*} {step : σ → σ} {P : σ → Prop} {s : σ} :
    (∀ k, P (step^[k] s)) ↔ P s ∧ ∀ k, P (step^[k] (step s)) := by
  constructor
  · intro all
    exact ⟨all 0, fun k => all (k + 1)⟩
  · intro ⟨now, later⟩ k
    cases k with
    | zero => exact now
    | succ k => exact later k
