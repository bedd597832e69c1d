import Mathlib.Algebra.BigOperators.Intervals
import Mathlib.Data.Finset.Lattice.Fold
import VllmOxide.Attention.Math
import VllmOxide.Library.Outcome

/-!
# The causal window

The attention of a query is meant to be the softmax of its scores over the logical positions up to
its own. This file states that and shows that a row of masked scores, whatever stands at its masked
columns, is normalised to these weights: they stand at the columns of the window, and the other
columns weigh nothing.

## Main definitions

* `causalWeight`, `causalAttention`: the attention of a query at a logical position.

## Main results

* `softmaxRow_window`: the softmax of a row that is masked outside a window.
* `sum_window`: a sum over the columns of a row is one over the window.
-/

namespace VllmOxide

variable {R : Type} [Field R] [LinearOrder R]

/-! ### Attention of one query -/

/-- The largest score of the positions up to `last`. -/
def largestScore (last : ℕ) (score : ℕ → R) : R :=
  (Finset.range (last + 1)).sup' (Finset.nonempty_range_add_one) score

/-- The weight of a position among those up to `last`. -/
def causalWeight (exp : R → R) (last : ℕ) (score : ℕ → R) (position : ℕ) : R :=
  exp (score position - largestScore last score) /
    ∑ other ∈ Finset.range (last + 1), exp (score other - largestScore last score)

/-- **The attention of the query at the logical position `last`**: the values of the positions up to
its own, weighted by the softmax of their scores. -/
def causalAttention (exp : R → R) (last : ℕ) (score value : ℕ → R) : R :=
  ∑ position ∈ Finset.range (last + 1), causalWeight exp last score position * value position

/-- Attention only depends on the scores and values of the window. -/
theorem causalAttention_congr {exp : R → R} {last : ℕ} {score score' value value' : ℕ → R}
    (hscore : ∀ position ≤ last, score position = score' position)
    (hvalue : ∀ position ≤ last, value position = value' position) :
    causalAttention exp last score value = causalAttention exp last score' value' := by
  have hlargest : largestScore last score = largestScore last score' :=
    Finset.sup'_congr _ rfl fun position hposition =>
      hscore position (Nat.lt_succ_iff.mp (Finset.mem_range.mp hposition))
  refine Finset.sum_congr rfl fun position hposition => ?_
  have hle : position ≤ last := Nat.lt_succ_iff.mp (Finset.mem_range.mp hposition)
  have htotal : ∑ other ∈ Finset.range (last + 1), exp (score other - largestScore last score) =
      ∑ other ∈ Finset.range (last + 1), exp (score' other - largestScore last score') := by
    refine Finset.sum_congr rfl fun other hother => ?_
    rw [hscore other (Nat.lt_succ_iff.mp (Finset.mem_range.mp hother)), hlargest]
  rw [causalWeight, causalWeight, htotal, hscore position hle, hvalue position hle, hlargest]

/-! ### Rows with a window -/

/-- A sum over a list of numbers up to a bound. -/
theorem sum_map_range {M : Type} [AddCommMonoid M] (f : ℕ → M) (n : ℕ) :
    ((List.range n).map f).sum = ∑ i ∈ Finset.range n, f i := by
  induction n with
  | zero => simp
  | succ n ih => rw [List.range_succ, List.map_append, List.sum_append, ih, Finset.sum_range_succ]; simp

/-- A sum over the columns of a row that vanishes outside a window is one over the window. -/
theorem sum_window {M : Type} [AddCommMonoid M] {f g : ℕ → M} (padding : ℕ) {last keys : ℕ}
    (hkeys : padding + last < keys) (houtside : ∀ c < keys, c < padding ∨ padding + last < c → f c = 0)
    (hwindow : ∀ position ≤ last, f (padding + position) = g position) :
    ((List.range keys).map f).sum = ∑ position ∈ Finset.range (last + 1), g position := by
  obtain ⟨rest, rfl⟩ : ∃ rest, keys = padding + ((last + 1) + rest) :=
    ⟨keys - (padding + last + 1), by omega⟩
  rw [sum_map_range, Finset.sum_range_add, Finset.sum_range_add]
  have hbefore : ∑ c ∈ Finset.range padding, f c = 0 :=
    Finset.sum_eq_zero fun c hc => by
      have := Finset.mem_range.mp hc
      exact houtside c (by omega) (Or.inl this)
  have hafter : ∑ c ∈ Finset.range rest, f (padding + (last + 1 + c)) = 0 :=
    Finset.sum_eq_zero fun c hc => by
      have := Finset.mem_range.mp hc
      exact houtside _ (by omega) (Or.inr (by omega))
  have hinside : ∑ c ∈ Finset.range (last + 1), f (padding + c) =
      ∑ position ∈ Finset.range (last + 1), g position :=
    Finset.sum_congr rfl fun c hc => hwindow c (Nat.lt_succ_iff.mp (Finset.mem_range.mp hc))
  rw [hbefore, hafter, hinside, zero_add, add_zero]

omit [Field R] in
/-- The maximum of a row is its largest score. -/
theorem foldl_maxScore {values : List (Option R)} {largest : R}
    (hle : ∀ value, some value ∈ values → value ≤ largest) :
    ∀ start : Option R, (∀ value, start = some value → value ≤ largest) →
      (some largest ∈ values ∨ start = some largest) →
      values.foldl maxScore start = some largest := by
  induction values with
  | nil =>
    rintro start - (hmem | rfl)
    · cases hmem
    · rfl
  | cons value values ih =>
    intro start hstart hmem
    have hstep : ∀ v, maxScore start value = some v → v ≤ largest := by
      intro v hv
      cases start with
      | none => exact hle v (by rw [← show value = some v from hv]; exact List.mem_cons_self)
      | some first =>
        cases value with
        | none => exact hstart v hv
        | some second =>
          simp only [maxScore, Option.some.injEq] at hv
          split at hv
          · exact hv ▸ hle second List.mem_cons_self
          · exact hv ▸ hstart first rfl
    refine ih (fun v hv => hle v (List.mem_cons_of_mem _ hv)) _ hstep ?_
    have hkeep : (some largest = value ∨ start = some largest) →
        maxScore start value = some largest := by
      rintro (rfl | rfl)
      · cases start with
        | none => rfl
        | some first =>
          have hfirst := hstart first rfl
          simp only [maxScore, Option.some.injEq]
          split
          · rfl
          · exact le_antisymm hfirst (not_lt.mp ‹_›)
      · cases value with
        | none => rfl
        | some second =>
          have hsecond := hle second List.mem_cons_self
          simp only [maxScore, Option.some.injEq]
          rw [if_neg (not_lt.mpr hsecond)]
    rcases hmem with hmem | hstart
    · rcases List.mem_cons.mp hmem with heq | hmem
      · exact Or.inr (hkeep (Or.inl heq))
      · exact Or.inl hmem
    · exact Or.inr (hkeep (Or.inr hstart))

/-- A row of scores that is masked outside a window. -/
def windowRow (keys padding last : ℕ) (score : ℕ → R) : List (Option R) :=
  (List.range keys).map fun c =>
    if c < padding ∨ padding + last < c then none else some (score (c - padding))

/-- **The softmax of a row that is masked outside a window** gives the weights of the window, and
zero elsewhere. -/
theorem softmaxRow_window {exp : R → R} {keys padding last : ℕ} {score : ℕ → R}
    (hkeys : padding + last < keys) {c : ℕ} (hc : c < keys) :
    (softmaxRow exp (windowRow keys padding last score)).getD c 0 =
      if c < padding ∨ padding + last < c then 0 else causalWeight exp last score (c - padding) := by
  have hmax : (windowRow keys padding last score).foldl maxScore none =
      some (largestScore last score) := by
    refine foldl_maxScore ?_ none (fun _ h => nomatch h) (Or.inl ?_)
    · intro value hvalue
      obtain ⟨column, hcolumn, hentry⟩ := List.mem_map.mp hvalue
      split at hentry
      · cases hentry
      · obtain rfl := Option.some.inj hentry
        exact Finset.le_sup' score (Finset.mem_range.mpr (by omega))
    · obtain ⟨position, hposition, hlargest⟩ :=
        Finset.exists_mem_eq_sup' (Finset.nonempty_range_add_one (n := last)) score
      have hlt := Finset.mem_range.mp hposition
      refine List.mem_map.mpr ⟨padding + position, List.mem_range.mpr (by omega), ?_⟩
      rw [if_neg (by omega), Nat.add_sub_cancel_left, largestScore, hlargest]
  have hweights : (windowRow keys padding last score).map (fun value =>
        (value.map fun value => exp (value - largestScore last score)).getD 0) =
      (List.range keys).map fun c => if c < padding ∨ padding + last < c then 0 else
        exp (score (c - padding) - largestScore last score) := by
    rw [windowRow, List.map_map]
    refine List.map_congr_left fun column _ => ?_
    simp only [Function.comp_apply]
    split <;> rfl
  have htotal : ((List.range keys).map fun c => if c < padding ∨ padding + last < c then (0 : R) else
        exp (score (c - padding) - largestScore last score)).sum =
      ∑ other ∈ Finset.range (last + 1), exp (score other - largestScore last score) := by
    refine sum_window padding hkeys (fun column _ houtside => if_pos houtside) fun position hposition => ?_
    rw [if_neg (by omega), Nat.add_sub_cancel_left]
  rw [softmaxRow, hmax]
  simp only [hweights, htotal]
  rw [List.map_map, List.getD_eq_getElem?_getD, List.getElem?_map, List.getElem?_range hc]
  simp only [Option.map_some, Option.getD_some, Function.comp_apply]
  split
  · rw [zero_div]
  · rfl

/-- A row in which everything is masked gives zeros. -/
theorem softmaxRow_masked {exp : R → R} {row : List (Option R)} (h : ∀ value ∈ row, value = none)
    (c : ℕ) : (softmaxRow exp row).getD c 0 = 0 := by
  have hmax : row.foldl maxScore none = none := by
    induction row with
    | nil => rfl
    | cons value row ih =>
      rw [List.foldl_cons, h value List.mem_cons_self]
      exact ih fun value hvalue => h value (List.mem_cons_of_mem _ hvalue)
  rw [softmaxRow, hmax]
  rw [List.getD_eq_getElem?_getD, List.getElem?_map]
  cases row[c]? <;> rfl

end VllmOxide
