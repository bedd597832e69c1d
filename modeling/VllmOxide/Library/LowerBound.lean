import Mathlib.Order.Lattice

/-!
# Binary search for a lower bound

The halving search for the first place of an ascending range that is not below a key.

## Main definitions

* `lowerBound`: the search over a half-open range.

## Main results

* `lowerBound_spec`: the places before the result are below the key, the later ones are not.
-/

namespace VllmOxide

variable {α : Type*} [LinearOrder α]

/-- The first place in `[first, last)` that is not below the key, or `last`. -/
def lowerBound (read : ℕ → α) (key : α) (first last : ℕ) : ℕ :=
  if first < last then
    let middle := first + (last - first) / 2
    if read middle < key then lowerBound read key (middle + 1) last
    else lowerBound read key first middle
  else
    first
termination_by last - first

variable (read : ℕ → α) (key : α) {first last : ℕ}

/-- The search ends between the places below the key and the others. -/
theorem lowerBound_spec (hle : first ≤ last)
    (hascending : ∀ i j, first ≤ i → i < j → j < last → read i < read j) :
    first ≤ lowerBound read key first last ∧ lowerBound read key first last ≤ last ∧
      (∀ i, first ≤ i → i < lowerBound read key first last → read i < key) ∧
      ∀ i, lowerBound read key first last ≤ i → i < last → key ≤ read i := by
  fun_induction lowerBound read key first last with
  | case1 first last hlt middle hbelow ih =>
    have hmiddle : middle < last := by omega
    obtain ⟨hfirst, hlast, hbefore, hafter⟩ :=
      ih hmiddle fun i j hi hij hj => hascending i j (by omega) hij hj
    refine ⟨by omega, hlast, fun i hi hilt => ?_, hafter⟩
    by_cases him : middle + 1 ≤ i
    · exact hbefore i him hilt
    · rcases (by omega : i < middle ∨ i = middle) with him | rfl
      · exact (hascending i middle hi him hmiddle).trans hbelow
      · exact hbelow
  | case2 first last hlt middle hnot ih =>
    have hmiddle : middle < last := by omega
    obtain ⟨hfirst, hlast, hbefore, hafter⟩ :=
      ih (by omega) fun i j hi hij hj => hascending i j hi hij (by omega)
    refine ⟨hfirst, by omega, hbefore, fun i hi hilt => ?_⟩
    by_cases him : i < middle
    · exact hafter i hi him
    · rcases (by omega : middle < i ∨ i = middle) with him | rfl
      · exact (not_lt.mp hnot).trans (hascending middle i (by omega) him hilt).le
      · exact not_lt.mp hnot
  | case3 first last hnot =>
    obtain rfl : first = last := by omega
    exact ⟨Nat.le_refl _, Nat.le_refl _, fun i hi hilt => by omega, fun i hi hilt => by omega⟩

end VllmOxide
