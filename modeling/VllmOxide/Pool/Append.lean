import Mathlib.Data.List.Forall2
import VllmOxide.Pool.Operations

/-!
# Appending decode blocks

A decoding sequence needs at most one block for its next token. `canAppendBatch` compares the
number of missing blocks with the length of the free list, and `mayAppendBatch` gives each
sequence its block or changes nothing.

## Main definitions

* `missingBlocks`: the number of blocks a batch of sequences misses.
* `Appended`: a sequence before and after its append.

## Main results

* `BlockPool.Invariant.mayAppendBatch`: with enough free blocks the append succeeds.
* `BlockPool.Invariant.mayAppendBatch_error`: without them it changes nothing.
-/

namespace VllmOxide

/-- The number of blocks that the tables of a batch of sequences miss. -/
def missingBlocks (seqs : List Sequence) : ℕ :=
  (seqs.map fun seq => seq.numBlocks - seq.blockTable.length).sum

@[simp] theorem missingBlocks_nil : missingBlocks [] = 0 := rfl

@[simp] theorem missingBlocks_cons (seq : Sequence) (seqs : List Sequence) :
    missingBlocks (seq :: seqs) =
      (seq.numBlocks - seq.blockTable.length) + missingBlocks seqs := by
  simp [missingBlocks]

/-- A sequence whose table is complete, or misses the block of its last token only. -/
structure Sequence.AppendReady (seq : Sequence) : Prop where
  table_le : seq.blockTable.length ≤ seq.numBlocks
  le_table : seq.numBlocks ≤ seq.blockTable.length + 1
  cached_le : seq.numCachedTokens ≤ BLOCK_SIZE * seq.blockTable.length

theorem missingBlocks_le_length {seqs : List Sequence} (h : ∀ seq ∈ seqs, seq.AppendReady) :
    missingBlocks seqs ≤ seqs.length := by
  induction seqs with
  | nil => simp
  | cons seq rest ih =>
    have hle := (h seq List.mem_cons_self).le_table
    have hrest := ih fun q hq => h q (List.mem_cons_of_mem _ hq)
    rw [missingBlocks_cons, List.length_cons]
    omega

/-- A sequence before and after its append: the table is extended by blocks that were free, and
is complete afterwards. -/
structure Appended (pool : BlockPool) (seq seq' : Sequence) : Prop where
  eq : seq' = { seq with blockTable := seq'.blockTable }
  isPrefix : seq.blockTable <+: seq'.blockTable
  fresh : ∀ b ∈ seq'.blockTable, b ∈ seq.blockTable ∨ b ∈ pool.freeBlockIds
  length : seq'.blockTable.length = seq.numBlocks

namespace BlockPool

theorem requiredBlocks_of_ready {seqs : List Sequence} (h : ∀ seq ∈ seqs, seq.AppendReady) :
    ∀ {total : ℕ}, total + seqs.length ≤ USIZE_MAX →
      requiredBlocks total seqs = some (total + missingBlocks seqs) := by
  induction seqs with
  | nil => intros; rfl
  | cons seq rest ih =>
    intro total hbound
    obtain ⟨hle, hle', -⟩ := h seq List.mem_cons_self
    rw [List.length_cons] at hbound
    simp only [requiredBlocks]
    rw [if_neg (by omega), if_neg (by omega), checkedAdd_of_le (by omega)]
    dsimp only
    rw [ih (fun q hq => h q (List.mem_cons_of_mem _ hq)) (by omega), missingBlocks_cons,
      Nat.add_assoc]

/-- `canAppendBatch` compares the missing with the free blocks. -/
theorem canAppendBatch_eq (pool : BlockPool) {seqs : List Sequence}
    (h : ∀ seq ∈ seqs, seq.AppendReady) (hbound : seqs.length ≤ USIZE_MAX) :
    pool.canAppendBatch seqs = decide (missingBlocks seqs ≤ pool.freeBlockIds.length) := by
  rw [canAppendBatch, requiredBlocks_of_ready h (by omega), Nat.zero_add]

theorem appendIndices_of_ready {seqs : List Sequence} (h : ∀ seq ∈ seqs, seq.AppendReady) :
    ∃ needing, appendIndices seqs = .ok needing ∧ needing.length = missingBlocks seqs := by
  induction seqs with
  | nil => exact ⟨[], rfl, rfl⟩
  | cons seq rest ih =>
    obtain ⟨hle, hle', -⟩ := h seq List.mem_cons_self
    obtain ⟨needing, hrun, hlen⟩ := ih fun q hq => h q (List.mem_cons_of_mem _ hq)
    refine ⟨if seq.numBlocks - seq.blockTable.length = 1 then seq :: needing else needing, ?_, ?_⟩
    · simp only [appendIndices]
      rw [if_neg (by omega), if_neg (by omega), hrun]
    · rw [missingBlocks_cons, ← hlen]
      split
      · rw [List.length_cons]
        omega
      · omega

/-- Without enough free blocks `mayAppendBatch` fails and changes nothing. -/
theorem mayAppendBatch_error (pool : BlockPool) {seqs : List Sequence}
    (hready : ∀ seq ∈ seqs, seq.AppendReady)
    (hmissing : pool.freeBlockIds.length < missingBlocks seqs) :
    mayAppendBatch (pool, seqs) = .error ⟨"no free blocks available"⟩ (pool, seqs) := by
  obtain ⟨needing, hneeding, hlen⟩ := appendIndices_of_ready hready
  rw [mayAppendBatch, hneeding]
  dsimp only
  rw [if_pos (by omega)]

variable [HashFunction]

namespace Invariant

variable {hs : List Holder}

/-- The append loop, with enough blocks on the free list. -/
theorem appendBlocks {seqs : List Sequence} :
    ∀ {pool : BlockPool} {hs : List Holder} (done : List Sequence),
      pool.Invariant (seqs.map Sequence.holder ++ hs) → (∀ seq ∈ seqs, seq.AppendReady) →
      missingBlocks seqs ≤ pool.freeBlockIds.length →
      ∃ pool' seqs', BlockPool.appendBlocks seqs (pool, done) = .ok () (pool', done ++ seqs') ∧
        List.Forall₂ (Appended pool) seqs seqs' ∧
        pool'.Invariant (seqs'.map Sequence.holder ++ hs) ∧
        pool'.freeBlockIds <:+ pool.freeBlockIds ∧ NoNewContent pool pool' := by
  induction seqs with
  | nil =>
    intro pool hs done I _ _
    exact ⟨pool, [], by simp [BlockPool.appendBlocks], .nil, I, List.suffix_rfl, .refl pool⟩
  | cons seq rest ih =>
    intro pool hs done I hready hmissing
    obtain ⟨hle, hle', hroom⟩ := hready seq List.mem_cons_self
    have hready' : ∀ q ∈ rest, q.AppendReady := fun q hq => hready q (List.mem_cons_of_mem _ hq)
    rw [missingBlocks_cons] at hmissing
    by_cases hone : seq.numBlocks - seq.blockTable.length = 1
    · obtain ⟨b, tail, hb⟩ : ∃ b tail, pool.freeBlockIds = b :: tail :=
        List.exists_cons_of_ne_nil fun heq => by
          rw [heq, List.length_nil] at hmissing
          omega
      obtain ⟨pool₁, hrun, ht⟩ := I.ledger.allocateBlockPrivate hb
      have I₁ : pool₁.Invariant (rest.map Sequence.holder ++
          ({ seq with blockTable := seq.blockTable ++ [b] } : Sequence).holder :: hs) :=
        (I.takeHead ht hroom).perm List.perm_middle.symm
      have hlen := congrArg List.length ht.free
      rw [List.length_cons] at hlen
      obtain ⟨pool₂, rest', hrun₂, hrest, I₂, hsuffix, hshape⟩ := ih
        (done ++ [{ seq with blockTable := seq.blockTable ++ [b] }]) I₁ hready' (by omega)
      have hsuffix₁ : pool₁.freeBlockIds <:+ pool.freeBlockIds := by
        rw [ht.free]
        exact List.suffix_cons _ _
      refine ⟨pool₂, { seq with blockTable := seq.blockTable ++ [b] } :: rest', ?_, ?_, ?_,
        hsuffix.trans hsuffix₁, (NoNewContent.takesHead ht).trans hshape⟩
      · rw [BlockPool.appendBlocks, if_pos hone, hrun]
        simp only [hrun₂, List.append_assoc, List.singleton_append]
      · refine .cons ⟨rfl, List.prefix_append _ _, fun c hc => ?_, ?_⟩ (hrest.imp fun q q' h => ?_)
        · rcases List.mem_append.mp hc with hc | hc
          · exact .inl hc
          · obtain rfl := List.mem_singleton.mp hc
            exact .inr (by simp [ht.free])
        · simp only [List.length_append, List.length_singleton]
          omega
        · exact ⟨h.eq, h.isPrefix, fun c hc => (h.fresh c hc).imp_right fun hfree =>
            hsuffix₁.subset hfree, h.length⟩
      · exact I₂.perm List.perm_middle
    · obtain ⟨pool₂, rest', hrun₂, hrest, I₂, hsuffix, hshape⟩ := ih (done ++ [seq])
        (I.perm List.perm_middle.symm) hready' (by omega)
      refine ⟨pool₂, seq :: rest', ?_, ?_, I₂.perm List.perm_middle, hsuffix, hshape⟩
      · rw [BlockPool.appendBlocks, if_neg hone, hrun₂]
        simp
      · exact .cons ⟨rfl, List.prefix_rfl, fun c hc => .inl hc, by omega⟩ hrest

/-- **Append.** With enough free blocks `mayAppendBatch` completes every table. -/
theorem mayAppendBatch {pool : BlockPool} {seqs : List Sequence}
    (I : pool.Invariant (seqs.map Sequence.holder ++ hs))
    (hready : ∀ seq ∈ seqs, seq.AppendReady)
    (hmissing : missingBlocks seqs ≤ pool.freeBlockIds.length) :
    ∃ pool' seqs', BlockPool.mayAppendBatch (pool, seqs) = .ok () (pool', seqs') ∧
      List.Forall₂ (Appended pool) seqs seqs' ∧
      pool'.Invariant (seqs'.map Sequence.holder ++ hs) ∧
      pool'.freeBlockIds <:+ pool.freeBlockIds ∧ NoNewContent pool pool' := by
  obtain ⟨needing, hneeding, hlen⟩ := appendIndices_of_ready hready
  have hfree : ∀ b ∈ pool.freeBlockIds.take needing.length,
      b ∈ pool.freeBlockIds ∧ b ∉ ([] : List ℕ) := fun b hb =>
    ⟨List.mem_of_mem_take hb, List.not_mem_nil⟩
  have hcheck := I.ledger.checkFreeBlocks hfree
    (I.ledger.nodup_free.sublist (List.take_sublist _ _))
  obtain ⟨pool', seqs', hrun, hrest⟩ := I.appendBlocks [] hready hmissing
  refine ⟨pool', seqs', ?_, hrest⟩
  rw [BlockPool.mayAppendBatch, hneeding]
  dsimp only
  rw [if_neg (by omega), hcheck]
  simpa using hrun

end Invariant

end BlockPool

end VllmOxide
