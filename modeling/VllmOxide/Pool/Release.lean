import VllmOxide.Pool.Ledger

/-!
# Releasing block tables

`deallocateBatch` counts how often each block occurs in the given tables, checks the counts
against the ownership fields, and only then releases. When the tables are held in a ledger, every
check passes and the ledger loses exactly the holders of the given tables.

## Main results

* `BlockPool.Ledger.deallocateBatch`: a batch of held tables is released.
* `BlockPool.Ledger.deallocate`: the case of a single sequence.
-/

namespace VllmOxide

namespace BlockPool

/-- The release counts are `n`, and the release order names each counted block once. -/
structure Releases.Count (releases : Releases) (n : ℕ → ℕ) : Prop where
  counts : ∀ b, releases.counts b = n b
  nodup : releases.order.Nodup
  mem_order : ∀ b, b ∈ releases.order ↔ n b ≠ 0

theorem Releases.count_empty : Releases.Count ⟨fun _ => 0, []⟩ fun _ => 0 :=
  ⟨fun _ => rfl, List.nodup_nil, fun b => by simp⟩

/-- Counting one table without repetitions adds one release for each of its blocks. -/
theorem countTable_of_nodup (seqId : ℕ) {table : List ℕ} :
    ∀ (seen : List ℕ) {releases : Releases} {n : ℕ → ℕ}, releases.Count n → table.Nodup →
      (∀ b ∈ table, b ∉ seen) → (∀ b ∈ table, n b + 1 ≤ USIZE_MAX) →
      ∃ releases', countTable seqId seen table releases = .ok releases' ∧
        releases'.Count fun b => n b + if b ∈ table then 1 else 0 := by
  induction table with
  | nil =>
    intro seen releases n hcount _ _ _
    exact ⟨releases, rfl, by simpa using hcount⟩
  | cons b rest ih =>
    intro seen releases n hcount hnodup hseen hbound
    rw [List.nodup_cons] at hnodup
    have hadd : checkedAdd (releases.counts b) 1 = some (n b + 1) := by
      rw [hcount.counts b]
      exact checkedAdd_of_le (hbound b List.mem_cons_self)
    have hcount' : Releases.Count
        ⟨Function.update releases.counts b (n b + 1),
          if b ∈ releases.order then releases.order else releases.order ++ [b]⟩
        (Function.update n b (n b + 1)) := by
      refine ⟨fun c => ?_, ?_, fun c => ?_⟩
      · by_cases hc : c = b
        · subst hc; simp
        · simp [hc, hcount.counts]
      · dsimp only
        split
        · exact hcount.nodup
        · exact hcount.nodup.append (by simp) (by simpa using ‹_›)
      · have hmem := hcount.mem_order
        by_cases hc : c = b
        · subst hc
          dsimp only
          split <;> simp_all
        · dsimp only
          split <;> simp [hc, hmem]
    obtain ⟨releases', hrun, hfinal⟩ := ih (b :: seen) hcount' hnodup.2
      (fun c hc => by
        have hne : c ≠ b := fun h => hnodup.1 (h ▸ hc)
        simp [hne, hseen c (List.mem_cons_of_mem _ hc)])
      (fun c hc => by
        have hne : c ≠ b := fun h => hnodup.1 (h ▸ hc)
        simpa [hne] using hbound c (List.mem_cons_of_mem _ hc))
    refine ⟨releases', ?_, ?_⟩
    · rw [countTable, if_neg (hseen b List.mem_cons_self), hadd]
      exact hrun
    · refine ⟨fun c => ?_, hfinal.nodup, fun c => ?_⟩
      · rw [hfinal.counts c]
        by_cases hc : c = b
        · subst hc; simp [hnodup.1]
        · simp [hc]
      · rw [hfinal.mem_order c]
        by_cases hc : c = b
        · subst hc; simp [hnodup.1]
        · simp [hc]

/-- Counting the tables of a list of sequences gives the number of holders of each block. -/
theorem countReleases_of_nodup {seqs : List Sequence} :
    ∀ {releases : Releases} {n : ℕ → ℕ}, releases.Count n →
      (∀ seq ∈ seqs, seq.blockTable.Nodup) → (∀ b, n b + seqs.length ≤ USIZE_MAX) →
      ∃ releases', countReleases seqs releases = .ok releases' ∧
        releases'.Count fun b => n b + holders (seqs.map (·.blockTable)) b := by
  induction seqs with
  | nil =>
    intro releases n hcount _ _
    exact ⟨releases, rfl, by simpa using hcount⟩
  | cons seq rest ih =>
    intro releases n hcount hnodup hbound
    obtain ⟨releases₁, hrun₁, hcount₁⟩ := countTable_of_nodup seq.seqId [] hcount
      (List.nodup_reverse.mpr (hnodup seq List.mem_cons_self)) (by simp)
      (fun b _ => by have := hbound b; simp only [List.length_cons] at this; omega)
    obtain ⟨releases₂, hrun₂, hcount₂⟩ := ih hcount₁
      (fun seq' h => hnodup seq' (List.mem_cons_of_mem _ h))
      (fun b => by
        have := hbound b
        simp only [List.length_cons] at this
        split <;> omega)
    refine ⟨releases₂, by rw [countReleases, hrun₁]; exact hrun₂, ?_⟩
    have heq : (fun b => (n b + if b ∈ seq.blockTable.reverse then 1 else 0) +
        holders (rest.map (·.blockTable)) b) =
        fun b => n b + holders ((seq :: rest).map (·.blockTable)) b := by
      funext b
      simp only [List.mem_reverse, List.map_cons, holders_cons]
      omega
    exact heq ▸ hcount₂

namespace Ledger

variable {pool : BlockPool} {own : ℕ → ℕ}

theorem checkReleases (L : pool.Ledger own) {counts : ℕ → ℕ} {blockIds : List ℕ}
    (hpos : ∀ b ∈ blockIds, counts b ≠ 0) (hle : ∀ b, counts b ≤ own b) :
    pool.checkReleases counts blockIds = .ok () := by
  induction blockIds with
  | nil => rfl
  | cons b rest ih =>
    have hown : own b ≠ 0 := by
      have h₁ := hpos b List.mem_cons_self
      have h₂ := hle b
      omega
    have hnotlt : ¬ own b < counts b := not_lt.mpr (hle b)
    rw [BlockPool.checkReleases, getElem?_blocks (L.lt_length hown)]
    simp only [L.refCount, hown, hnotlt, if_false, (L.mem_used b).mpr hown,
      L.notMem_free_of_own hown, not_true, or_self]
    exact ih fun c hc => hpos c (List.mem_cons_of_mem _ hc)

/-- **Releasing a batch.** Tables without repetitions whose references are all in the ledger are
released: the call succeeds and the ledger loses their holders. -/
theorem deallocateBatch (L : pool.Ledger own) (seqs : List Sequence)
    (hnodup : ∀ seq ∈ seqs, seq.blockTable.Nodup) (hlength : seqs.length ≤ USIZE_MAX)
    (hle : ∀ b, holders (seqs.map (·.blockTable)) b ≤ own b) :
    ∃ pool', pool.deallocateBatch seqs = .ok (pool', seqs.map released) ∧
      pool'.Ledger (fun b => own b - holders (seqs.map (·.blockTable)) b) ∧
      SameContent pool pool' := by
  obtain ⟨releases, hrun, hcount⟩ := countReleases_of_nodup Releases.count_empty
    hnodup (fun b => by omega)
  have hcounts : ∀ b, releases.counts b = holders (seqs.map (·.blockTable)) b := fun b => by
    simpa using hcount.counts b
  have hmem : ∀ b, b ∈ releases.order ↔ releases.counts b ≠ 0 := fun b => by
    rw [hcount.mem_order b, hcount.counts b]
  have hcheck := L.checkReleases (fun b hb => (hmem b).mp hb)
    (fun b => (hcounts b).symm ▸ hle b)
  obtain ⟨L', hsame⟩ := L.releaseBlocks releases.counts
    (fun b hb => by
      have h₁ := (hmem b).mp hb
      have h₂ := hle b
      rw [hcounts b] at h₁
      omega) hcount.nodup
  refine ⟨_, by rw [BlockPool.deallocateBatch, hrun]; simp only [hcheck], L'.congr fun b => ?_,
    hsame⟩
  rw [← hcounts b]
  by_cases hb : b ∈ releases.order
  · simp [hb]
  · have hzero : releases.counts b = 0 := by simpa [hmem] using hb
    simp [hzero]

/-- **Releasing one sequence.** -/
theorem deallocate (L : pool.Ledger own) {seq : Sequence} (hnodup : seq.blockTable.Nodup)
    (hown : ∀ b ∈ seq.blockTable, own b ≠ 0) :
    ∃ pool', pool.deallocate seq = .ok (pool', released seq) ∧
      pool'.Ledger (fun b => own b - if b ∈ seq.blockTable then 1 else 0) ∧
      SameContent pool pool' := by
  obtain ⟨pool', hrun, L', hsame⟩ := L.deallocateBatch [seq] (by simpa using hnodup)
    (by simp [USIZE_MAX]) (fun b => by
      by_cases hb : b ∈ seq.blockTable
      · simpa [hb, Nat.one_le_iff_ne_zero] using hown b hb
      · simp [hb])
  refine ⟨pool', by simp [BlockPool.deallocate, hrun], ?_, hsame⟩
  exact L'.congr fun b => by simp

end Ledger

end BlockPool

end VllmOxide
