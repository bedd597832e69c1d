import Mathlib.Data.List.Nodup
import Mathlib.Data.List.Perm.Basic
import Mathlib.Order.Lattice

/-!
# Stable sorts

What a caller may rely on when it sorts with a comparison function. A sort keeps the members of the
list; where the comparison is a strict weak order on them, the result is in order, and members that
the comparison does not separate stay in the order in which they came. A selection promises less: the
member at one position is the one a sort would put there.

Lists without repetitions have only one such result, so a sort by decreasing value of the positions of
a row does not depend on the algorithm.

## Main definitions

* `Orders`: a comparison that is a strict weak order on the members of a list.
* `StableSort`, `NthSelection`: a stable sort and a selection.
* `Outranks`, `Ranked`: decreasing values, and increasing positions among equal ones.

## Main results

* `StableSort.ranked_sort`: a stable sort by decreasing value gives the ranked list.
* `eq_of_ranked`: a ranked list is determined by its members.
* `NthSelection.value_eq`: the selected value is the value at that place of the ranked list.
-/

namespace VllmOxide

variable {β : Type*}

/-- A comparison that is a strict weak order on the members of a list. -/
structure Orders (less : β → β → Bool) (xs : List β) : Prop where
  asymm : ∀ a ∈ xs, ∀ b ∈ xs, less a b = true → less b a = false
  trans : ∀ a ∈ xs, ∀ b ∈ xs, ∀ c ∈ xs, less b a = false → less c b = false → less c a = false

/-- A stable sort by a comparison function. -/
structure StableSort (β : Type*) where
  sort : (β → β → Bool) → List β → List β
  perm : ∀ less xs, (sort less xs).Perm xs
  sorted : ∀ less xs, Orders less xs → (sort less xs).Pairwise fun a b => less b a = false
  stable : ∀ less xs, Orders less xs → ∀ a b, [a, b].Sublist xs → less b a = false →
    [a, b].Sublist (sort less xs)

/-- A partial sort that puts one member at its place in the sorted list. -/
structure NthSelection (β : Type*) where
  select : (β → β → Bool) → List β → ℕ → List β
  perm : ∀ less xs n, (select less xs n).Perm xs
  selected : ∀ less xs n, Orders less xs → n < xs.length →
    ∃ before pivot after, select less xs n = before ++ pivot :: after ∧ before.length = n ∧
      (∀ a ∈ before, less pivot a = false) ∧ ∀ a ∈ after, less a pivot = false

/-! ### Merge sort -/

section MergeSort

variable {less : β → β → Bool} {xs : List β}

/-- Merge sort by the converse of a comparison. -/
def mergeSortBy (less : β → β → Bool) (xs : List β) : List β :=
  xs.mergeSort fun a b => !less b a

/-- Merge sort only compares members of the list. -/
theorem map_mergeSort_attach (le : β → β → Bool) (xs : List β) :
    (xs.attach.mergeSort fun a b => le a b).map Subtype.val = xs.mergeSort le := by
  rw [List.map_mergeSort (s := le) fun _ _ _ _ => rfl, List.attach_map_subtype_val]

theorem Orders.trans_attach (h : Orders less xs) (a b c : {x // x ∈ xs}) :
    (!less b a) = true → (!less c b) = true → (!less c a) = true := by
  simp only [Bool.not_eq_true']
  exact h.trans a a.2 b b.2 c c.2

theorem Orders.total_attach (h : Orders less xs) (a b : {x // x ∈ xs}) :
    ((!less b a) || !less a b) = true := by
  cases hab : less a b with
  | false => simp
  | true => simp [h.asymm a a.2 b b.2 hab]

theorem sorted_mergeSortBy (h : Orders less xs) :
    (mergeSortBy less xs).Pairwise fun a b => less b a = false := by
  rw [mergeSortBy, ← map_mergeSort_attach, List.pairwise_map]
  exact (List.pairwise_mergeSort h.trans_attach h.total_attach xs.attach).imp fun hab => by
    simpa using hab

theorem stable_mergeSortBy (h : Orders less xs) {a b : β} (hsub : [a, b].Sublist xs)
    (hab : less b a = false) : [a, b].Sublist (mergeSortBy less xs) := by
  rw [← List.attach_map_subtype_val xs, List.sublist_map_iff] at hsub
  obtain ⟨pair, hsub, hpair⟩ := hsub
  obtain ⟨a', b', rfl⟩ : ∃ a' b', pair = [a', b'] := by
    match pair, hpair with
    | [a', b'], _ => exact ⟨a', b', rfl⟩
  obtain ⟨rfl, rfl⟩ : a = a'.val ∧ b = b'.val := by simpa using hpair
  have hpair := List.pair_sublist_mergeSort h.trans_attach h.total_attach (by simpa using hab) hsub
  rw [mergeSortBy, ← map_mergeSort_attach]
  exact hpair.map Subtype.val

/-- Merge sort is a stable sort. -/
def StableSort.mergeSort : StableSort β where
  sort := mergeSortBy
  perm _ _ := List.mergeSort_perm _ _
  sorted _ _ h := sorted_mergeSortBy h
  stable _ _ h _ _ hsub hab := stable_mergeSortBy h hsub hab

/-- A whole sort selects every member. -/
def NthSelection.mergeSort : NthSelection β where
  select less xs _ := mergeSortBy less xs
  perm _ _ _ := List.mergeSort_perm _ _
  selected less xs n h hn := by
    have hn' : n < (mergeSortBy less xs).length := by
      rwa [mergeSortBy, List.length_mergeSort]
    have hsplit : mergeSortBy less xs = (mergeSortBy less xs).take n ++
        (mergeSortBy less xs)[n] :: (mergeSortBy less xs).drop (n + 1) := by
      rw [List.getElem_cons_drop, List.take_append_drop]
    have hsorted := sorted_mergeSortBy h
    rw [hsplit, List.pairwise_append, List.pairwise_cons] at hsorted
    obtain ⟨-, ⟨hafter, -⟩, hbefore⟩ := hsorted
    exact ⟨_, _, _, hsplit, by rw [List.length_take]; omega,
      fun a ha => hbefore a ha _ List.mem_cons_self, hafter⟩

end MergeSort

/-! ### Rankings by decreasing value -/

section Ranking

variable {α : Type*} [LinearOrder α] {value : β → α} {less : β → β → Bool}
  {first : β → β → Prop} {xs ys : List β}

/-- A comparison that goes by decreasing value on the members of a list. -/
def Descends (value : β → α) (less : β → β → Bool) (xs : List β) : Prop :=
  ∀ a ∈ xs, ∀ b ∈ xs, less a b = true ↔ value b < value a

theorem Descends.le (h : Descends value less xs) {a b : β} (ha : a ∈ xs) (hb : b ∈ xs)
    (hab : less a b = false) : value a ≤ value b := by
  have := (h a ha b hb).not.mp (by simp [hab])
  exact not_lt.mp this

theorem Descends.orders (h : Descends value less xs) : Orders less xs where
  asymm a ha b hb hab := by
    rw [h a ha b hb] at hab
    rw [← Bool.not_eq_true, h b hb a ha]
    exact hab.asymm
  trans a ha b hb c hc hba hcb := by
    rw [← Bool.not_eq_true, h c hc a ha, not_lt]
    exact (h.le hc hb hcb).trans (h.le hb ha hba)

theorem pair_sublist_or {a b : β} (ha : a ∈ xs) (hb : b ∈ xs) (hne : a ≠ b) :
    [a, b].Sublist xs ∨ [b, a].Sublist xs := by
  obtain ⟨init, rest, rfl⟩ := List.append_of_mem ha
  rcases List.mem_append.mp hb with hb | hb
  · exact .inr ((List.singleton_sublist.mpr hb).append
      (List.singleton_sublist.mpr List.mem_cons_self))
  · have hb : b ∈ rest := (List.mem_cons.mp hb).resolve_left fun h => hne h.symm
    exact .inl (((List.singleton_sublist.mpr hb).cons_cons a).trans
      (List.sublist_append_right _ _))

theorem not_pair_sublist_swap {a b : β} (hnodup : xs.Nodup) (h : [a, b].Sublist xs) :
    ¬ [b, a].Sublist xs := by
  induction xs with
  | nil => cases h
  | cons x xs ih =>
    obtain ⟨hx, hnodup⟩ := List.nodup_cons.mp hnodup
    intro h'
    cases h with
    | cons _ h =>
      cases h' with
      | cons _ h' => exact ih hnodup h h'
      | cons_cons _ h' => exact hx (h.subset (by simp))
    | cons_cons _ h =>
      cases h' with
      | cons _ h' => exact hx (h'.subset (by simp))
      | cons_cons _ h' => exact hx (h.subset (by simp))

/-- A greater value, or an equal value that came first. -/
def Outranks (value : β → α) (first : β → β → Prop) (a b : β) : Prop :=
  value b < value a ∨ value a = value b ∧ first a b

/-- Decreasing values, and equal values in the order in which they came. -/
def Ranked (value : β → α) (first : β → β → Prop) (xs : List β) : Prop :=
  xs.Pairwise (Outranks value first)

theorem Outranks.le {a b : β} (h : Outranks value first a b) : value b ≤ value a := by
  rcases h with h | h
  · exact h.le
  · exact h.1.ge

theorem Outranks.asymm (hfirst : ∀ a b, first a b → ¬ first b a) {a b : β}
    (h : Outranks value first a b) : ¬ Outranks value first b a := by
  rintro (h' | ⟨heq, h'⟩)
  · exact absurd h.le (not_le.mpr h')
  · rcases h with h | ⟨-, h⟩
    · exact absurd heq h.ne
    · exact hfirst a b h h'

/-- A ranked list is determined by its members. -/
theorem eq_of_ranked (hfirst : ∀ a b, first a b → ¬ first b a) (hx : Ranked value first xs)
    (hy : Ranked value first ys) (hperm : xs.Perm ys) : xs = ys :=
  hperm.eq_of_pairwise (fun _ _ _ _ hab hba => absurd hba (hab.asymm hfirst)) hx hy

/-- A stable sort by decreasing value gives the ranked list. -/
theorem StableSort.ranked_sort (s : StableSort β) (hless : Descends value less xs)
    (hnodup : xs.Nodup) (hxs : xs.Pairwise first) : Ranked value first (s.sort less xs) := by
  have hperm := s.perm less xs
  refine List.pairwise_iff_forall_sublist.mpr fun {a b} hab => ?_
  have ha : a ∈ xs := hperm.mem_iff.mp (hab.subset (by simp))
  have hb : b ∈ xs := hperm.mem_iff.mp (hab.subset (by simp))
  have hle : value b ≤ value a := hless.le hb ha ((s.sorted less xs hless.orders).forall_sublist hab)
  rcases hle.lt_or_eq with hlt | heq
  · exact .inl hlt
  refine .inr ⟨heq.symm, ?_⟩
  have hne : a ≠ b := by
    have : [a, b].Nodup := (hperm.nodup_iff.mpr hnodup).sublist hab
    simpa using this
  rcases pair_sublist_or ha hb hne with hsub | hsub
  · exact hxs.forall_sublist hsub
  · -- stability would keep `b` before `a`, and the sorted list holds each of them once
    have hequal : less a b = false := by
      rw [← Bool.not_eq_true, hless a ha b hb, heq]
      exact lt_irrefl _
    have hstable := s.stable less xs hless.orders b a hsub hequal
    exact absurd hstable (not_pair_sublist_swap (hperm.nodup_iff.mpr hnodup) hab)

/-- With as many members before it, a pivot that bounds those after it is not below a pivot that
those before it bound. -/
theorem pivot_le {before before' after after' : List β} {pivot pivot' : β}
    (hperm : (before ++ pivot :: after).Perm (before' ++ pivot' :: after'))
    (hlength : before.length = before'.length) (hbefore : ∀ a ∈ before, value pivot ≤ value a)
    (hafter : ∀ a ∈ after', value a ≤ value pivot') : value pivot ≤ value pivot' := by
  by_contra! hlt
  have hcount := hperm.countP_eq fun a => decide (value pivot' < value a)
  have hall : before.countP (fun a => decide (value pivot' < value a)) = before.length :=
    List.countP_eq_length.mpr fun a ha => decide_eq_true (hlt.trans_le (hbefore a ha))
  have hnone : after'.countP (fun a => decide (value pivot' < value a)) = 0 :=
    List.countP_eq_zero.mpr fun a ha => by simpa using hafter a ha
  have hsome := List.countP_le_length (l := before') (p := fun a => decide (value pivot' < value a))
  simp only [List.countP_append, List.countP_cons, hall, hnone, hlt, lt_irrefl, decide_true,
    decide_false, if_true, Bool.false_eq_true, if_false] at hcount
  omega

/-- The value at the selected place is the value at that place of the ranked list. -/
theorem NthSelection.value_eq (s : NthSelection β) (hless : Descends value less xs) {n : ℕ}
    {before after : List β} {pivot : β} (hranked : Ranked value first (before ++ pivot :: after))
    (hperm : (before ++ pivot :: after).Perm xs) (hbefore : before.length = n) :
    ∃ before' pivot' after', s.select less xs n = before' ++ pivot' :: after' ∧
      before'.length = n ∧ value pivot' = value pivot := by
  obtain ⟨before', pivot', after', hselect, hbefore', hge', hle'⟩ :=
    s.selected less xs n hless.orders (by
      rw [← hperm.length_eq, List.length_append, List.length_cons]
      omega)
  refine ⟨before', pivot', after', hselect, hbefore', ?_⟩
  have hmem : ∀ a ∈ before' ++ pivot' :: after', a ∈ xs := fun a ha =>
    (s.perm less xs n).mem_iff.mp (hselect ▸ ha)
  have hpivot := hmem pivot' (by simp)
  rw [Ranked, List.pairwise_append, List.pairwise_cons] at hranked
  obtain ⟨-, ⟨hafter, -⟩, hcross⟩ := hranked
  have hperm' : (before ++ pivot :: after).Perm (before' ++ pivot' :: after') :=
    hperm.trans (hselect ▸ (s.perm less xs n).symm)
  exact le_antisymm
    (pivot_le hperm'.symm (hbefore'.trans hbefore.symm)
      (fun a ha => hless.le hpivot (hmem a (by simp [ha])) (hge' a ha))
      fun a ha => (hafter a ha).le)
    (pivot_le hperm' (hbefore.trans hbefore'.symm)
      (fun a ha => (hcross a ha pivot List.mem_cons_self).le)
      fun a ha => hless.le (hmem a (by simp [ha])) hpivot (hle' a ha))

end Ranking

end VllmOxide
