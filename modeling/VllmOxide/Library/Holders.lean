import Mathlib.Data.List.Basic
import Mathlib.Data.List.Perm.Basic
import Mathlib.Data.List.Count
import VllmOxide.Library.Lists

/-!
# Counting the holders of a shared resource

Tables of resource ids are lists of lists. `holders tables i` is the number of tables that contain
`i`: the value that a reference count of `i` has to have when every table holds one reference to
each of its members. `EachOwns tables` says that the tables were filled one after the other, each with
something new.
-/

namespace VllmOxide

variable {ι : Type} [DecidableEq ι]

/-- The number of tables that contain `i`. -/
def holders (tables : List (List ι)) (i : ι) : ℕ :=
  tables.countP (i ∈ ·)

@[simp] theorem holders_nil (i : ι) : holders [] i = 0 := rfl

@[simp] theorem holders_cons (table : List ι) (tables : List (List ι)) (i : ι) :
    holders (table :: tables) i = holders tables i + if i ∈ table then 1 else 0 := by
  simp [holders, List.countP_cons]

@[simp] theorem holders_append (tables tables' : List (List ι)) (i : ι) :
    holders (tables ++ tables') i = holders tables i + holders tables' i := by
  simp [holders]

theorem holders_perm {tables tables' : List (List ι)} (h : tables.Perm tables') (i : ι) :
    holders tables i = holders tables' i :=
  h.countP_eq _

theorem holders_le_length (tables : List (List ι)) (i : ι) : holders tables i ≤ tables.length :=
  List.countP_le_length

theorem holders_eq_zero_iff {tables : List (List ι)} {i : ι} :
    holders tables i = 0 ↔ ∀ table ∈ tables, i ∉ table := by
  simp [holders, List.countP_eq_zero]

theorem holders_pos_iff {tables : List (List ι)} {i : ι} :
    0 < holders tables i ↔ ∃ table ∈ tables, i ∈ table := by
  simp [holders, List.countP_pos_iff]

theorem holders_pos_of_mem {tables : List (List ι)} {table : List ι} {i : ι}
    (ht : table ∈ tables) (hi : i ∈ table) : 0 < holders tables i :=
  holders_pos_iff.mpr ⟨table, ht, hi⟩

/-- Two tables at different places that contain `i` make `i` shared. -/
theorem two_le_holders {tables : List (List ι)} {m n : ℕ} {table table' : List ι} {i : ι}
    (hmn : m ≠ n) (hm : tables[m]? = some table) (hn : tables[n]? = some table')
    (hi : i ∈ table) (hi' : i ∈ table') : 2 ≤ holders tables i := by
  induction tables generalizing m n with
  | nil => simp at hm
  | cons t ts ih =>
    rw [holders_cons]
    cases m with
    | zero =>
      cases n with
      | zero => exact absurd rfl hmn
      | succ n =>
        obtain rfl : t = table := by simpa using hm
        have hpos := holders_pos_of_mem (List.mem_of_getElem? (by simpa using hn)) hi'
        rw [if_pos hi]
        omega
    | succ m =>
      cases n with
      | zero =>
        obtain rfl : t = table' := by simpa using hn
        have hpos := holders_pos_of_mem (List.mem_of_getElem? (by simpa using hm)) hi
        rw [if_pos hi']
        omega
      | succ n =>
        have h := ih (m := m) (n := n) (by omega) (by simpa using hm) (by simpa using hn)
        omega

/-! ### Tables with something of their own -/

/-- Every table contains something that no earlier table contains. -/
def EachOwns (tables : List (List ι)) : Prop :=
  ∀ older table younger, tables = older ++ table :: younger →
    ∃ i ∈ table, ∀ t ∈ older, i ∉ t

namespace EachOwns

variable {tables tables' : List (List ι)} {table : List ι}

omit [DecidableEq ι] in
theorem nil : EachOwns ([] : List (List ι)) :=
  EachAfter.nil

omit [DecidableEq ι] in
/-- Leaving tables out. -/
theorem sublist (h : EachOwns tables) (hsub : tables'.Sublist tables) : EachOwns tables' := by
  intro older table younger heq
  rw [heq] at hsub
  obtain ⟨before, after, rfl, holder, hrest⟩ := List.append_sublist_iff.mp hsub
  obtain ⟨skipped, rest, rfl, hmem, -⟩ := List.cons_sublist_iff.mp hrest
  obtain ⟨skipped₁, skipped₂, rfl⟩ := List.append_of_mem hmem
  obtain ⟨i, hi, hnot⟩ := h (before ++ skipped₁) table (skipped₂ ++ rest) (by simp)
  exact ⟨i, hi, fun t ht => hnot t (List.mem_append_left _ (holder.subset ht))⟩

omit [DecidableEq ι] in
/-- One more table. -/
theorem snoc (h : EachOwns tables) (hown : ∃ i ∈ table, ∀ t ∈ tables, i ∉ t) :
    EachOwns (tables ++ [table]) :=
  EachAfter.snoc h hown

omit [DecidableEq ι] in
/-- Tables that grow by what no table contained. -/
theorem grow (h : EachOwns tables)
    (hgrow : List.Forall₂ (fun t t' => t ⊆ t' ∧
      ∀ i ∈ t', i ∈ t ∨ ∀ u ∈ tables, i ∉ u) tables tables') : EachOwns tables' := by
  intro older table younger heq
  rw [heq] at hgrow
  obtain ⟨older₀, rest₀, holder, hrest, hsplit⟩ :
      ∃ older₀ rest₀, List.Forall₂ _ older₀ older ∧
        List.Forall₂ _ rest₀ (table :: younger) ∧ tables = older₀ ++ rest₀ :=
    ⟨_, _, List.forall₂_take_append _ _ _ hgrow, List.forall₂_drop_append _ _ _ hgrow,
      (List.take_append_drop _ _).symm⟩
  cases hrest with
  | @cons table₀ _ younger₀ _ htable _ =>
    obtain ⟨i, hi, hnot⟩ := h older₀ table₀ younger₀ hsplit
    refine ⟨i, htable.1 hi, fun t ht hit => ?_⟩
    obtain ⟨t₀, ht₀, hsub⟩ := exists_of_forall₂ holder ht
    rcases hsub.2 i hit with hmem | hfresh
    · exact hnot t₀ ht₀ hmem
    · exact hfresh table₀ (by rw [hsplit]; simp) hi

end EachOwns

end VllmOxide
