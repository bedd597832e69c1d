import Mathlib.Data.List.Basic
import Mathlib.Data.List.Flatten
import Mathlib.Order.WellFounded

/-!
# Runs of a labelled transition relation

A run of a relation `step : σ → ε → σ → Prop` is a finite sequence of steps together with the list
of its labels, the oldest first.

## Main results

* `Run.invariant`: what holds at the start, together with the empty log, and is kept by every
  step, holds at the end.
* `Run.simulate`: a run maps to a run of every relation that simulates its steps.
* `not_infinite_of_measure`, `exists_infinite`: steps that go down a measure stop, and steps that
  can always go on do not.
-/

namespace VllmOxide

variable {σ ε τ δ : Type*}

/-- The runs of a labelled transition relation. -/
inductive Run (step : σ → ε → σ → Prop) (start : σ) : List ε → σ → Prop
  | nil : Run step start [] start
  | snoc {log : List ε} {s s' : σ} {e : ε} (h : Run step start log s) (hstep : step s e s') :
      Run step start (log ++ [e]) s'

namespace Run

variable {step : σ → ε → σ → Prop} {step' : τ → δ → τ → Prop} {s s' s'' : σ} {log log' : List ε}

theorem single {e : ε} (h : step s e s') : Run step s [e] s' :=
  .snoc .nil h

theorem append (h : Run step s log s') (h' : Run step s' log' s'') :
    Run step s (log ++ log') s'' := by
  induction h' with
  | nil => simpa using h
  | snoc _ hstep ih => exact List.append_assoc _ _ _ ▸ ih.snoc hstep

/-- **Invariants of runs**, which may speak about the log. What holds after every run holds before
each step. -/
theorem invariant {P : List ε → σ → Prop} (h : Run step s log s') (hstart : P [] s)
    (hkeep : ∀ log s₁ e s₂, Run step s log s₁ → P log s₁ → step s₁ e s₂ → P (log ++ [e]) s₂) :
    P log s' := by
  induction h with
  | nil => exact hstart
  | snoc hrun hstep ih => exact hkeep _ _ _ _ hrun ih hstep

/-- Invariants of runs whose labels all satisfy a condition. -/
theorem invariant_of_forall {Q : ε → Prop} {P : List ε → σ → Prop} (h : Run step s log s')
    (hlog : ∀ e ∈ log, Q e) (hstart : P [] s)
    (hkeep : ∀ log s₁ e s₂, Run step s log s₁ → (∀ e ∈ log, Q e) → P log s₁ → Q e →
      step s₁ e s₂ → P (log ++ [e]) s₂) : P log s' := by
  induction h with
  | nil => exact hstart
  | snoc hrun hstep ih =>
    have hbefore := fun e he => hlog e (List.mem_append_left _ he)
    exact hkeep _ _ _ _ hrun hbefore (ih hbefore) (hlog _ (by simp)) hstep

/-- **Simulation.** -/
theorem simulate {f : σ → τ} {g : ε → List δ}
    (hsim : ∀ s e s', step s e s' → Run step' (f s) (g e) (f s')) (h : Run step s log s') :
    Run step' (f s) (log.flatMap g) (f s') := by
  induction h with
  | nil => exact .nil
  | snoc _ hstep ih =>
    rw [List.flatMap_append, List.flatMap_singleton]
    exact ih.append (hsim _ _ _ hstep)

/-- A run splits where its log does. -/
theorem split (h : Run step s (log ++ log') s'') :
    ∃ s', Run step s log s' ∧ Run step s' log' s'' := by
  generalize hl : log ++ log' = l at h
  induction h generalizing log' with
  | nil =>
    obtain ⟨rfl, rfl⟩ := List.append_eq_nil_iff.mp hl
    exact ⟨s, .nil, .nil⟩
  | @snoc l m m' e hrun hstep ih =>
    rcases List.eq_nil_or_concat log' with rfl | ⟨init, last, rfl⟩
    · rw [List.append_nil] at hl
      exact ⟨m', hl ▸ hrun.snoc hstep, .nil⟩
    · rw [List.concat_eq_append, ← List.append_assoc] at hl
      obtain ⟨rfl, hlast⟩ := List.append_inj' hl rfl
      obtain rfl := List.singleton_inj.mp hlast
      obtain ⟨m₀, h₁, h₂⟩ := ih rfl
      exact ⟨m₀, h₁, by rw [List.concat_eq_append]; exact h₂.snoc hstep⟩

end Run

/-! ### Infinite sequences of steps -/

section Infinite

variable {μ : Type*} (step : σ → σ → Prop) {P : σ → Prop}

/-- Steps that keep an invariant and go down a well-founded measure do not go on for ever. -/
theorem not_infinite_of_measure {r : μ → μ → Prop} [IsWellFounded μ r] (m : σ → μ)
    (hkeep : ∀ s s', P s → step s s' → P s') (hless : ∀ s s', P s → step s s' → r (m s') (m s))
    {f : ℕ → σ} (hstart : P (f 0)) : ¬ ∀ i, step (f i) (f (i + 1)) := by
  intro hf
  have hP : ∀ i, P (f i) := by
    intro i
    induction i with
    | zero => exact hstart
    | succ i ih => exact hkeep _ _ ih (hf i)
  obtain ⟨i, hi⟩ := WellFounded.not_rel_apply_succ (r := r) fun i => m (f i)
  exact hi (hless _ _ (hP i) (hf i))

/-- Steps that are always possible and keep an invariant go on for ever. -/
theorem exists_infinite (hnext : ∀ s, P s → ∃ s', step s s' ∧ P s') {s : σ} (hs : P s) :
    ∃ f : ℕ → σ, f 0 = s ∧ ∀ i, step (f i) (f (i + 1)) := by
  choose! next hstep hkeep using hnext
  have hP : ∀ i, P (next^[i] s) := by
    intro i
    induction i with
    | zero => exact hs
    | succ i ih =>
      rw [Function.iterate_succ_apply']
      exact hkeep _ ih
  refine ⟨fun i => next^[i] s, rfl, fun i => ?_⟩
  dsimp only
  rw [Function.iterate_succ_apply']
  exact hstep _ (hP i)

end Infinite

end VllmOxide
