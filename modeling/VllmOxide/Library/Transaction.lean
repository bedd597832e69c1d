import Mathlib.Logic.Basic

/-!
# Transactions

A computation on a state is transactional at a state when it leaves that state as it was with
every error. Such computations check everything first: a failed check returns the state
unchanged, and what runs after the checks does not fail.

## Main definitions

* `Transactional`: every error leaves the state unchanged.
* `Succeeds`: the computation returns a value.
-/

namespace VllmOxide

variable {ε σ α β γ : Type}

/-- Every error of the computation leaves the state unchanged. -/
def Transactional (op : EStateM ε σ α) (s : σ) : Prop :=
  ∀ error s', op s = .error error s' → s' = s

/-- The computation returns a value. -/
def Succeeds (op : EStateM ε σ α) (s : σ) : Prop :=
  ∃ a s', op s = .ok a s'

namespace Transactional

variable {op : EStateM ε σ α} {s : σ}

/-- A computation that does not fail leaves nothing behind. -/
theorem of_succeeds (h : Succeeds op s) : Transactional op s := by
  obtain ⟨a, s₁, hrun⟩ := h
  intro error s' herror
  rw [hrun] at herror
  cases herror

/-- A failed check leaves the state unchanged. -/
theorem of_check (h : ∃ error, op s = .error error s) : Transactional op s := by
  obtain ⟨error, hrun⟩ := h
  intro error' s' herror
  rw [hrun] at herror
  cases herror
  rfl

end Transactional

/-- A computation that does not succeed fails. -/
theorem exists_error_of_not_succeeds {op : EStateM ε σ α} {s : σ} (h : ¬ Succeeds op s) :
    ∃ error s', op s = .error error s' := by
  cases hrun : op s with
  | ok a s' => exact absurd ⟨a, s', hrun⟩ h
  | error error s' => exact ⟨error, s', rfl⟩

/-- The state that a result leaves behind. -/
def finalState : EStateM.Result ε σ α → σ
  | .ok _ s | .error _ s => s

/-- A result that is known not to be an error. -/
theorem eq_ok_finalState {r : EStateM.Result ε σ Unit}
    (h : (match r with | .ok _ _ => true | .error _ _ => false) = true) :
    r = .ok () (finalState r) := by
  cases r with
  | ok a s => rfl
  | error e s => cases h

end VllmOxide
