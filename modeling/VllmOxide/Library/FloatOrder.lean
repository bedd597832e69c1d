import Mathlib.Data.Prod.Lex
import Mathlib.Order.Basic
import Mathlib.Algebra.Order.Group.Int
import Mathlib.Tactic.Linarith

/-!
# The order of binary32 values

Floating-point comparison is a partial order: a NaN is not comparable with anything, and the two
zeros are equal. Finite values are ordered like their ranks, which are a sign, an exponent and a
mantissa in lexicographic order; from there on the order is a linear one.

## Main definitions

* `rank`: the place of a value in the order.
* `IsLowestArgmax`: the first position of the greatest value of a row.
* `lowestArgmax`: the position as a fold over the row.

## Main results

* `lt_iff_rank`: the comparison of finite values is the comparison of their ranks.
* `isLowestArgmax_lowestArgmax`, `IsLowestArgmax.eq`: the fold finds the first position of the
  greatest value, and no other position is the first one.
-/

namespace VllmOxide.FloatOrder

open Float.Model

/-- The place of an unpacked value in the order: sign, exponent and mantissa. -/
def unpackedRank : UnpackedFloat → ℤ ×ₗ ℤ ×ₗ ℤ
  | .infinity .negative => toLex (-2, toLex (0, 0))
  | .infinity .positive => toLex (2, toLex (0, 0))
  | .notANumber => toLex (0, toLex (0, 0))
  | .zero _ => toLex (0, toLex (0, 0))
  | .finite .negative m e _ => toLex (-1, toLex (-e, -(m : ℤ)))
  | .finite .positive m e _ => toLex (1, toLex (e, (m : ℤ)))

/-- The place of a value in the order. -/
def rank (x : Float32) : ℤ ×ₗ ℤ ×ₗ ℤ :=
  unpackedRank x.toModel.unpack

theorem unpacked_lt_iff {a b : UnpackedFloat} (ha : a.isFinite = true) (hb : b.isFinite = true) :
    a.lt b = true ↔ unpackedRank a < unpackedRank b := by
  rw [UnpackedFloat.lt]
  cases a with
  | infinity | notANumber => cases ha
  | zero s =>
    cases b with
    | infinity | notANumber => cases hb
    | zero t =>
      dsimp only [UnpackedFloat.compare, unpackedRank]
      simp
    | finite t =>
      cases t <;> dsimp only [UnpackedFloat.compare, unpackedRank] <;>
        simp [Prod.Lex.toLex_lt_toLex]
  | finite s m e =>
    cases b with
    | infinity | notANumber => cases hb
    | zero t =>
      cases s <;> dsimp only [UnpackedFloat.compare, unpackedRank] <;>
        simp [Prod.Lex.toLex_lt_toLex]
    | finite t m' e' =>
      cases s <;> cases t <;> dsimp only [UnpackedFloat.compare, unpackedRank] <;>
        simp [Prod.Lex.toLex_lt_toLex, Ordering.then_eq_lt, Ordering.then_eq_gt,
          compare_lt_iff_lt, compare_gt_iff_gt]

/-- The comparison of finite values is the comparison of their ranks. -/
theorem lt_iff_rank {x y : Float32} (hx : x.isFinite = true) (hy : y.isFinite = true) :
    x < y ↔ rank x < rank y := by
  rw [rank, rank, ← unpacked_lt_iff hx hy]
  show Float32.lt x y = true ↔ _
  rw [Float32.lt, decide_eq_true_iff]
  rfl

/-! ### The first position of the greatest value -/

/-- The first position of the greatest value of a row. -/
structure IsLowestArgmax (row : List Float32) (i : ℕ) : Prop where
  lt : i < row.length
  greatest : ∀ j (hj : j < row.length), ¬ row[i] < row[j]
  first : ∀ j (hj : j < i), row[j] < row[i]

/-- Keep the position of the value found so far unless the next value is greater. -/
def lowestArgmax (row : List Float32) : ℕ :=
  row.zipIdx.foldl (fun best (v, id) => if row.getD best 0 < v then id else best) 0

/-- There is only one first position of the greatest value. -/
theorem IsLowestArgmax.eq {row : List Float32} {i j : ℕ} (hi : IsLowestArgmax row i)
    (hj : IsLowestArgmax row j) : i = j := by
  rcases lt_trichotomy i j with hlt | heq | hlt
  · exact absurd (hj.first i hlt) (hi.greatest j hj.lt)
  · exact heq
  · exact absurd (hi.first j hlt) (hj.greatest i hi.lt)

/-- One more value. -/
theorem IsLowestArgmax.snoc {row : List Float32} {i : ℕ} (h : IsLowestArgmax row i)
    (hfinite : ∀ v ∈ row, v.isFinite = true) {v : Float32} (hv : v.isFinite = true) :
    IsLowestArgmax (row ++ [v]) (if row.getD i 0 < v then row.length else i) := by
  have hlt := h.lt
  have hat : row.getD i 0 = row[i] := by
    rw [List.getD_eq_getElem?_getD, List.getElem?_eq_getElem hlt, Option.getD_some]
  have hrow : ∀ j (hj : j < row.length), row[j].isFinite = true := fun j hj =>
    hfinite _ (List.getElem_mem hj)
  rw [hat]
  split
  · rename_i hless
    rw [lt_iff_rank (hrow i hlt) hv] at hless
    -- every earlier value is at most the old greatest one, which is less than `v`
    have hbelow : ∀ j (hj : j < row.length), rank row[j] < rank v := fun j hj => by
      have hle := h.greatest j hj
      rw [lt_iff_rank (hrow i hlt) (hrow j hj), not_lt] at hle
      exact hle.trans_lt hless
    refine ⟨by simp, fun j hj => ?_, fun j hj => ?_⟩
    · rw [List.getElem_concat_length rfl]
      rcases Nat.lt_succ_iff_lt_or_eq.mp (by simpa using hj) with hj' | rfl
      · rw [List.getElem_append_left hj', lt_iff_rank hv (hrow j hj'), not_lt]
        exact (hbelow j hj').le
      · rw [List.getElem_concat_length rfl, lt_iff_rank hv hv]
        exact lt_irrefl _
    · rw [List.getElem_concat_length rfl, List.getElem_append_left hj,
        lt_iff_rank (hrow j hj) hv]
      exact hbelow j hj
  · rename_i hnot
    refine ⟨by simp; omega, fun j hj => ?_, fun j hj => ?_⟩
    · rw [List.getElem_append_left hlt]
      rcases Nat.lt_succ_iff_lt_or_eq.mp (by simpa using hj) with hj' | rfl
      · rw [List.getElem_append_left hj']
        exact h.greatest j hj'
      · rwa [List.getElem_concat_length rfl]
    · rw [List.getElem_append_left hlt, List.getElem_append_left (hj.trans hlt)]
      exact h.first j hj

/-- The fold over the rest of a row continues the search. -/
theorem isLowestArgmax_foldl {row : List Float32} (hfinite : ∀ v ∈ row, v.isFinite = true)
    (rest : List Float32) :
    ∀ (done : List Float32) (best : ℕ), row = done ++ rest → IsLowestArgmax done best →
      IsLowestArgmax row ((rest.zipIdx done.length).foldl
        (fun best (v, id) => if row.getD best 0 < v then id else best) best) := by
  induction rest with
  | nil =>
    intro done best hrow h
    rw [List.append_nil] at hrow
    exact hrow ▸ h
  | cons v rest ih =>
    intro done best hrow h
    have hsnoc := h.snoc (fun u hu => hfinite u (hrow ▸ List.mem_append_left _ hu)) (v := v)
      (hfinite v (by simp [hrow]))
    have hat : row.getD best 0 = done.getD best 0 := by
      simp [hrow, List.getD_eq_getElem?_getD, List.getElem?_append_left h.lt]
    have hnext := ih (done ++ [v]) _ (by simpa using hrow) hsnoc
    rw [List.length_append, List.length_singleton] at hnext
    rw [List.zipIdx_cons, List.foldl_cons, hat]
    exact hnext

/-- The fold finds the first position of the greatest value of a row of finite values. -/
theorem isLowestArgmax_lowestArgmax {row : List Float32} (hne : row ≠ [])
    (hfinite : ∀ v ∈ row, v.isFinite = true) : IsLowestArgmax row (lowestArgmax row) := by
  cases row with
  | nil => exact absurd rfl hne
  | cons v rest =>
    have hv : ¬ v < v := by
      have hfin := hfinite v List.mem_cons_self
      rw [lt_iff_rank hfin hfin]
      exact lt_irrefl _
    have hone : IsLowestArgmax [v] 0 := by
      refine ⟨by simp, fun j hj => ?_, fun j hj => absurd hj (Nat.not_lt_zero j)⟩
      obtain rfl : j = 0 := by simpa using hj
      exact hv
    have hrest := isLowestArgmax_foldl hfinite rest [v] 0 rfl hone
    rw [lowestArgmax, List.zipIdx_cons, List.foldl_cons]
    simpa [hv] using hrest

end VllmOxide.FloatOrder
