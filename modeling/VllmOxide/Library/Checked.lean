import Mathlib.Order.Lattice
import Mathlib.Data.Nat.Notation

/-!
# Checked arithmetic

A checked operation on bounded numbers gives nothing when its result exceeds the bound. A chain of
operations that never decrease the intermediate result gives the unbounded result exactly when that
one is within the bound: no step can fail unless the end does.

## Main definitions

* `within`: a number, if it is within a bound.

## Main results

* `bind_foldlM_within`: a chain of checked operations.
* `bind_within`: a checked operation on a checked operand.
* `any_within_iff`: a checked result against a smaller budget.
-/

namespace VllmOxide

/-- The number, if it is within the bound. -/
def within (bound n : ℕ) : Option ℕ :=
  if n ≤ bound then some n else none

section

variable {bound : ℕ}

theorem within_of_le {n : ℕ} (h : n ≤ bound) : within bound n = some n :=
  if_pos h

theorem within_of_lt {n : ℕ} (h : bound < n) : within bound n = none :=
  if_neg (not_le.mpr h)

end

/-- **A chain of checked operations** that do not decrease the intermediate result gives the result
of the unchecked ones, if it is within the bound. -/
theorem bind_foldlM_within (bound : ℕ) {op : ℕ → ℕ → ℕ} :
    ∀ {xs : List ℕ}, (∀ a, ∀ x ∈ xs, a ≤ op a x) → ∀ start : ℕ,
      ((within bound start).bind fun first => xs.foldlM (fun a x => within bound (op a x)) first) =
        within bound (xs.foldl op start) := by
  intro xs
  induction xs with
  | nil =>
    intro _ start
    exact Option.bind_fun_some (within bound start)
  | cons x xs ih =>
    intro hgrow start
    have hrest := ih (fun a x hx => hgrow a x (List.mem_cons_of_mem _ hx)) (op start x)
    rw [List.foldl_cons, ← hrest]
    by_cases hstart : start ≤ bound
    · rw [within_of_le hstart]
      rfl
    · have hnext : bound < op start x :=
        (not_le.mp hstart).trans_le (hgrow start x List.mem_cons_self)
      rw [within_of_lt (not_le.mp hstart), within_of_lt hnext]
      rfl

/-- A checked operation fails with its operand. -/
theorem bind_within (bound : ℕ) {op : ℕ → ℕ} {n : ℕ} (hgrow : n ≤ op n) :
    ((within bound n).bind fun n => within bound (op n)) = within bound (op n) := by
  by_cases hn : n ≤ bound
  · rw [within_of_le hn]
    rfl
  · rw [within_of_lt (not_le.mp hn), within_of_lt ((not_le.mp hn).trans_le hgrow)]
    rfl

/-- A checked result is within a smaller budget exactly when the unchecked one is. -/
theorem any_within_iff {bound budget n : ℕ} (hbudget : budget ≤ bound) :
    ((within bound n).any fun n => decide (n ≤ budget)) = true ↔ n ≤ budget := by
  by_cases hn : n ≤ bound
  · rw [within_of_le hn, Option.any_some, decide_eq_true_iff]
  · rw [within_of_lt (not_le.mp hn)]
    constructor
    · intro h
      cases h
    · intro h
      exact absurd (h.trans hbudget) hn

end VllmOxide
