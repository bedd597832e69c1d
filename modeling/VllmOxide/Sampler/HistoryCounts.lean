import VllmOxide.Sampler.Host
import Mathlib.Data.List.Induction
import Mathlib.Data.List.Nodup

/-!
# The counts of a history

The host counts the tokens of a history in a hash map and then visits the entries of the map in some
order. Each token of the vocabulary that occurs has one entry, which holds its multiplicity, so the
order does not matter: every entry of the row is changed at most once, by the count of its own token.

## Main results

* `mem_historyCounts`, `nodup_historyCounts`: the entries of the map.
* `foldl_modify_historyCounts`: what visiting the entries does to a row, whatever the order.
-/

namespace VllmOxide.Sampler

variable {vocab token n : ℕ} {counts : List (ℕ × ℕ)} {history : List ℕ}

/-! ### The entries of the map -/

theorem keys_countToken :
    (countToken counts token).map Prod.fst =
      if token ∈ counts.map Prod.fst then counts.map Prod.fst else counts.map Prod.fst ++ [token] := by
  induction counts with
  | nil => rfl
  | cons head rest ih =>
    obtain ⟨t, m⟩ := head
    rw [countToken]
    by_cases ht : t = token
    · simp [ht]
    · rw [if_neg ht, List.map_cons, ih]
      by_cases hmem : token ∈ rest.map Prod.fst <;> simp [hmem, Ne.symm ht]

theorem nodup_countToken (h : (counts.map Prod.fst).Nodup) :
    ((countToken counts token).map Prod.fst).Nodup := by
  rw [keys_countToken]
  split_ifs with hmem
  · exact h
  · rw [List.nodup_append]
    exact ⟨h, List.nodup_singleton token, fun a ha b hb => by
      obtain rfl := List.mem_singleton.mp hb
      exact fun heq => hmem (heq ▸ ha)⟩

/-- Counting a token adds one to its entry, which may be missing, and leaves the others. -/
theorem mem_countToken (h : (counts.map Prod.fst).Nodup) {t m : ℕ} :
    (t, m) ∈ countToken counts token ↔
      (t ≠ token ∧ (t, m) ∈ counts) ∨
      t = token ∧ ((token ∉ counts.map Prod.fst ∧ m = 1) ∨ ∃ k, (token, k) ∈ counts ∧ m = k + 1) := by
  induction counts with
  | nil => simp [countToken]
  | cons head rest ih =>
    obtain ⟨t', k⟩ := head
    obtain ⟨hnew, hnodup⟩ := List.nodup_cons.mp h
    have hother (m : ℕ) : (t', m) ∉ rest := fun hmem => hnew (List.mem_map.mpr ⟨_, hmem, rfl⟩)
    rw [countToken]
    by_cases ht : t' = token
    · subst ht
      simp only [if_pos, List.mem_cons, Prod.mk.injEq, List.map_cons]
      grind
    · rw [if_neg ht]
      simp only [List.mem_cons, Prod.mk.injEq, List.map_cons, ih hnodup]
      grind

/-- The entries of the map: the tokens of the vocabulary that occur, with their multiplicities. -/
structure Counts (vocab : ℕ) (history : List ℕ) (counts : List (ℕ × ℕ)) : Prop where
  nodup : (counts.map Prod.fst).Nodup
  mem_iff : ∀ token n, (token, n) ∈ counts ↔
    token < vocab ∧ token ∈ history ∧ n = history.count token

theorem Counts.notMem (h : Counts vocab history counts) (htoken : token ∉ history) :
    token ∉ counts.map Prod.fst := by
  intro hmem
  obtain ⟨⟨t, m⟩, hentry, rfl⟩ := List.mem_map.mp hmem
  exact htoken ((h.mem_iff t m).mp hentry).2.1

theorem Counts.snoc (h : Counts vocab history counts) (token : ℕ) :
    Counts vocab (history ++ [token])
      (if token < vocab then countToken counts token else counts) := by
  by_cases hvocab : token < vocab
  · rw [if_pos hvocab]
    refine ⟨nodup_countToken h.nodup, fun t m => ?_⟩
    rw [mem_countToken h.nodup]
    by_cases ht : t = token
    · subst ht
      by_cases hmem : t ∈ history
      · have hentry : (t, history.count t) ∈ counts := (h.mem_iff _ _).mpr ⟨hvocab, hmem, rfl⟩
        have hkey : t ∈ counts.map Prod.fst := List.mem_map.mpr ⟨_, hentry, rfl⟩
        simp only [ne_eq, not_true_eq_false, false_and, hkey, true_and, false_or, h.mem_iff,
          List.count_append, List.count_singleton_self, List.mem_append, hmem, true_or, hvocab]
        constructor
        · rintro ⟨k, rfl, rfl⟩
          rfl
        · rintro rfl
          exact ⟨_, rfl, rfl⟩
      · simp [h.notMem hmem, h.mem_iff, hmem, hvocab, List.count_eq_zero_of_not_mem hmem]
    · simp [ht, h.mem_iff, Ne.symm ht]
  · rw [if_neg hvocab]
    refine ⟨h.nodup, fun t m => ?_⟩
    rw [h.mem_iff]
    by_cases ht : t = token
    · subst ht
      simp [hvocab]
    · simp [ht, Ne.symm ht]

theorem counts_historyCounts (vocab : ℕ) (history : List ℕ) :
    Counts vocab history (historyCounts vocab history) := by
  induction history using List.reverseRecOn with
  | nil => exact ⟨List.nodup_nil, by simp [historyCounts]⟩
  | append_singleton history token ih =>
    have hsnoc := ih.snoc token
    rwa [historyCounts, List.foldl_append, List.foldl_cons, List.foldl_nil]

theorem Counts.perm (h : Counts vocab history counts) {counts' : List (ℕ × ℕ)}
    (hperm : counts'.Perm counts) : Counts vocab history counts' :=
  ⟨(hperm.map Prod.fst).nodup_iff.mpr h.nodup, fun t m => by rw [hperm.mem_iff, h.mem_iff]⟩

/-! ### Visiting the entries -/

section Visit

variable {α : Type*} {f : ℕ → α → α} {row : List α}

theorem getElem?_foldl_modify_of_notMem {i : ℕ} (hi : i ∉ counts.map Prod.fst) :
    (counts.foldl (fun row counted => row.modify counted.1 (f counted.2)) row)[i]? = row[i]? := by
  induction counts generalizing row with
  | nil => rfl
  | cons head rest ih =>
    rw [List.map_cons, List.mem_cons, not_or] at hi
    rw [List.foldl_cons, ih hi.2, List.getElem?_modify_ne _ _ (Ne.symm hi.1)]

theorem getElem?_foldl_modify_of_mem {i : ℕ} (hnodup : (counts.map Prod.fst).Nodup)
    (hi : (i, n) ∈ counts) :
    (counts.foldl (fun row counted => row.modify counted.1 (f counted.2)) row)[i]? =
      row[i]?.map (f n) := by
  induction counts generalizing row with
  | nil => cases hi
  | cons head rest ih =>
    obtain ⟨hnew, hrest⟩ := List.nodup_cons.mp hnodup
    rw [List.foldl_cons]
    rcases List.mem_cons.mp hi with rfl | hi
    · rw [getElem?_foldl_modify_of_notMem hnew, List.getElem?_modify_eq]
      rfl
    · have hne : head.1 ≠ i := fun heq => hnew (List.mem_map.mpr ⟨_, hi, heq.symm⟩)
      rw [ih hrest hi, List.getElem?_modify_ne _ _ hne]

/-- Visiting the entries changes the place of each token that occurs, once. -/
theorem foldl_modify_historyCounts (hash : HashOrder) (f : ℕ → α → α) (row : List α)
    (history : List ℕ) :
    (hash.walk (historyCounts row.length history)).foldl
        (fun row counted => row.modify counted.1 (f counted.2)) row =
      row.mapIdx fun i x => if i ∈ history then f (history.count i) x else x := by
  have hcounts := (counts_historyCounts row.length history).perm (hash.perm _)
  refine List.ext_getElem? fun i => ?_
  rw [List.getElem?_mapIdx]
  by_cases hi : i < row.length
  · by_cases hmem : i ∈ history
    · rw [getElem?_foldl_modify_of_mem hcounts.nodup ((hcounts.mem_iff _ _).mpr ⟨hi, hmem, rfl⟩)]
      simp only [hmem, if_true]
    · rw [getElem?_foldl_modify_of_notMem (hcounts.notMem hmem)]
      simp [hmem]
  · have hnone : row[i]? = none := List.getElem?_eq_none (not_lt.mp hi)
    have hkey : i ∉ (hash.walk (historyCounts row.length history)).map Prod.fst := by
      intro hkey
      obtain ⟨⟨t, m⟩, hentry, rfl⟩ := List.mem_map.mp hkey
      exact hi ((hcounts.mem_iff t m).mp hentry).1
    rw [getElem?_foldl_modify_of_notMem hkey, hnone, Option.map_none]

end Visit

end VllmOxide.Sampler
