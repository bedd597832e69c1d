import Mathlib.Data.Set.Basic
import Mathlib.Algebra.Order.Group.Nat
import Mathlib.Tactic.Ring

/-!
# Reductions by a block of threads

A block of `m` threads reduces a sequence in two phases. Thread `r` first takes in the places
`r`, `r + m`, `r + 2 * m`, ... one after the other. Then the cells of the threads are merged in
rounds of half the size, where cell `i` takes in cell `i + stride`. The threads of a round write
cells below the stride and read the others, so their order does not matter.

What such a reduction computes is stated with a relation between a set of places and a value that
summarises them. If the relation is kept by taking in one place and by merging, then the last cell
summarises all places, in whatever order the merges happen.

## Main definitions

* `strideClass`: the places of a thread.
* `halvingTree`: the merge of the cells.

## Main results

* `halvingTree_summarises`: the first cell summarises all places.
-/

namespace VllmOxide

/-- The places with a given remainder. -/
def strideClass (m r : ℕ) : Set ℕ :=
  {i | i % m = r}

theorem strideClass_one : strideClass 1 0 = Set.univ :=
  Set.eq_univ_of_forall fun i => Nat.mod_one i

/-- The places with one remainder are those with two remainders of the double modulus. -/
theorem strideClass_union {m r : ℕ} (hr : r < m) :
    strideClass (2 * m) (r + m) ∪ strideClass (2 * m) r = strideClass m r := by
  ext i
  simp only [strideClass, Set.mem_union, Set.mem_ofPred_eq]
  have hm : 0 < m := Nat.lt_of_le_of_lt (Nat.zero_le r) hr
  have hmod : i % (2 * m) % m = i % m := Nat.mod_mod_of_dvd i ⟨2, by ring⟩
  have hlt : i % (2 * m) < 2 * m := Nat.mod_lt i (by omega)
  constructor
  · rintro (h | h)
    · rw [← hmod, h, Nat.add_mod_right, Nat.mod_eq_of_lt hr]
    · rw [← hmod, h, Nat.mod_eq_of_lt hr]
  · intro h
    rcases Nat.lt_or_ge (i % (2 * m)) m with hlow | hhigh
    · rw [Nat.mod_eq_of_lt hlow] at hmod
      exact .inr (hmod.trans h)
    · have hsub : (i % (2 * m) - m) % m = i % (2 * m) - m := Nat.mod_eq_of_lt (by omega)
      rw [← Nat.mod_eq_sub_mod hhigh, hmod, h] at hsub
      exact .inl (by omega)

variable {α : Type*}

/-- One round: every cell below the stride takes in the cell one stride further. -/
def halvingRound (merge : α → α → α) (stride : ℕ) (cells : ℕ → α) (i : ℕ) : α :=
  if i < stride then merge (cells (i + stride)) (cells i) else cells i

/-- The rounds with a stride that is halved until it is zero. -/
def halvingTree (merge : α → α → α) (stride : ℕ) (cells : ℕ → α) : ℕ → α :=
  if stride = 0 then cells
  else halvingTree merge (stride / 2) (halvingRound merge stride cells)
termination_by stride
decreasing_by omega

/-- The merge of two cells summarises what both of them do. -/
def Merges (merge : α → α → α) (summarises : Set ℕ → α → Prop) : Prop :=
  ∀ s t a b, summarises s a → summarises t b → summarises (s ∪ t) (merge a b)

/-- **Tree reduction.** If every cell summarises the places of its thread, the rounds leave a
summary of all places in the first cell. -/
theorem halvingTree_summarises {merge : α → α → α} {summarises : Set ℕ → α → Prop}
    (hmerge : Merges merge summarises) (k : ℕ) :
    ∀ {cells : ℕ → α}, (∀ i < 2 ^ k, summarises (strideClass (2 ^ k) i) (cells i)) →
      summarises Set.univ (halvingTree merge (2 ^ k / 2) cells 0) := by
  induction k with
  | zero =>
    intro cells hcells
    rw [halvingTree, if_pos (by decide), ← strideClass_one]
    exact hcells 0 Nat.one_pos
  | succ k ih =>
    intro cells hcells
    have hhalf : 2 ^ (k + 1) / 2 = 2 ^ k := by rw [pow_succ, Nat.mul_div_cancel _ Nat.two_pos]
    rw [hhalf, halvingTree, if_neg (Nat.two_pow_pos k).ne']
    refine ih fun i hi => ?_
    rw [halvingRound, if_pos hi, ← strideClass_union hi]
    have hpow : 2 ^ (k + 1) = 2 * 2 ^ k := by rw [pow_succ, Nat.mul_comm]
    rw [hpow] at hcells
    exact hmerge _ _ _ _ (hcells (i + 2 ^ k) (by omega)) (hcells i (by omega))

end VllmOxide
