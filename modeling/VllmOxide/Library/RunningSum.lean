import Mathlib.Algebra.Order.Field.Basic
import Mathlib.Algebra.BigOperators.Group.List.Basic
import Mathlib.Algebra.Order.BigOperators.Group.List

/-!
# Running sums

The first place at which the running sum of a list reaches a target. A list of nonnegative weights may
be searched in pieces: the pieces before the first one whose end reaches the target are skipped, and
the place is found inside that piece.

## Main definitions

* `reach`: the first place at which a running sum reaches a target.
* `pieces`: a list cut into pieces of one size, some of which may be empty.

## Main results

* `reach_append_of_le`, `reach_append_of_lt`: where a search in an appended list ends.
* `exists_reach`: a target that is not above the whole sum is reached.
* `reach_div`: a search among quotients.
* `flatten_pieces`: enough pieces make up the list.
-/

namespace VllmOxide

section Reach

variable {R : Type*} [AddCommMonoid R] [LinearOrder R] [IsOrderedAddMonoid R]
  {target acc : R} {xs ys : List R}

/-- The first place at which a running sum reaches a target. -/
def reach (target acc : R) : List R → Option ℕ
  | [] => none
  | x :: xs => if target ≤ acc + x then some 0 else (reach target (acc + x) xs).map (· + 1)

omit [IsOrderedAddMonoid R] in
theorem lt_length_of_reach {i : ℕ} (h : reach target acc xs = some i) : i < xs.length := by
  induction xs generalizing acc i with
  | nil => cases h
  | cons x xs ih =>
    rw [reach] at h
    split_ifs at h with hx
    · obtain rfl : 0 = i := by simpa using h
      simp
    · obtain ⟨j, hj, rfl⟩ := Option.map_eq_some_iff.mp h
      simpa using ih hj

omit [IsOrderedAddMonoid R] in
/-- A search in an appended list goes through the first part. -/
theorem reach_append : reach target acc (xs ++ ys) =
    (reach target acc xs).or ((reach target (acc + xs.sum) ys).map (· + xs.length)) := by
  induction xs generalizing acc with
  | nil => simp [reach]
  | cons x xs ih =>
    rw [List.cons_append, reach, reach]
    split_ifs with hx
    · rfl
    · rw [ih, List.sum_cons, List.length_cons, ← add_assoc]
      cases reach target (acc + x) xs with
      | some i => rfl
      | none =>
        cases reach target (acc + x + xs.sum) ys with
        | some i => simp [add_assoc]
        | none => rfl

omit [IsOrderedAddMonoid R] in
/-- A target between the start and the end of the running sum is reached. -/
theorem exists_reach (hacc : acc < target) (hsum : target ≤ acc + xs.sum) :
    ∃ i, reach target acc xs = some i := by
  induction xs generalizing acc with
  | nil =>
    rw [List.sum_nil, add_zero] at hsum
    exact absurd hsum (not_le.mpr hacc)
  | cons x xs ih =>
    rw [reach]
    split_ifs with hx
    · exact ⟨0, rfl⟩
    · rw [List.sum_cons, ← add_assoc] at hsum
      obtain ⟨i, hi⟩ := ih (not_le.mp hx) hsum
      exact ⟨i + 1, by rw [hi, Option.map_some]⟩

/-- A running sum of nonnegative weights that ends below the target never reached it. -/
theorem reach_eq_none (hnonneg : ∀ x ∈ xs, 0 ≤ x) (hsum : acc + xs.sum < target) :
    reach target acc xs = none := by
  induction xs generalizing acc with
  | nil => rfl
  | cons x xs ih =>
    obtain ⟨-, hrest⟩ := List.forall_mem_cons.mp hnonneg
    rw [List.sum_cons, ← add_assoc] at hsum
    have hx : acc + x < target := (le_add_of_nonneg_right (List.sum_nonneg hrest)).trans_lt hsum
    rw [reach, if_neg (not_le.mpr hx), ih hrest hsum, Option.map_none]

omit [IsOrderedAddMonoid R] in
/-- A target that the first part reaches is found there. -/
theorem reach_append_of_le (hacc : acc < target) (hsum : target ≤ acc + xs.sum) :
    reach target acc (xs ++ ys) = reach target acc xs := by
  obtain ⟨i, hi⟩ := exists_reach hacc hsum
  rw [reach_append, hi, Option.some_or]

/-- A first part of nonnegative weights that ends below the target is skipped. -/
theorem reach_append_of_lt (hnonneg : ∀ x ∈ xs, 0 ≤ x) (hsum : acc + xs.sum < target) :
    reach target acc (xs ++ ys) =
      (reach target (acc + xs.sum) ys).map (· + xs.length) := by
  rw [reach_append, reach_eq_none hnonneg hsum, Option.none_or]

end Reach

section Div

variable {R : Type*} [Field R] [LinearOrder R] [IsStrictOrderedRing R]

/-- A search among quotients by a positive number. -/
theorem reach_div {target acc total : R} (htotal : 0 < total) (xs : List R) :
    reach target (acc / total) (xs.map (· / total)) = reach (target * total) acc xs := by
  induction xs generalizing acc with
  | nil => rfl
  | cons x xs ih =>
    rw [List.map_cons, reach, reach, ← add_div, ih]
    simp only [le_div_iff₀ htotal]

end Div

/-! ### Pieces of one size -/

section Pieces

variable {α : Type*} {xs : List α} {size : ℕ}

/-- One piece of a list that is cut into pieces of one size. -/
def piece (xs : List α) (size i : ℕ) : List α :=
  (xs.drop (i * size)).take size

/-- A list cut into pieces of one size, the last of which may be short or empty. -/
def pieces (xs : List α) (size count : ℕ) : List (List α) :=
  (List.range count).map (piece xs size)

theorem flatten_take_pieces {count i : ℕ} (hi : i ≤ count) :
    ((pieces xs size count).take i).flatten = xs.take (i * size) := by
  induction i with
  | zero => simp
  | succ i ih =>
    have hlt : i < count := by omega
    have hget : (pieces xs size count)[i]? = some (piece xs size i) := by
      rw [pieces, List.getElem?_map, List.getElem?_range hlt, Option.map_some]
    rw [List.take_add_one, hget, List.flatten_append, ih hlt.le, Nat.succ_mul, List.take_add]
    simp [piece]

/-- Enough pieces make up the list. -/
theorem flatten_pieces {count : ℕ} (h : xs.length ≤ count * size) :
    (pieces xs size count).flatten = xs := by
  have hlength : (pieces xs size count).length = count := by simp [pieces]
  rw [← List.take_of_length_le hlength.le, flatten_take_pieces le_rfl, List.take_of_length_le h]

end Pieces

end VllmOxide
