import VllmOxide.Pool.Reachable

/-!
# What lookups and admission checks promise

In every reachable state a lookup finds as much of the chain of a sequence as any blocks carry,
and `canAllocate` predicts `allocate`: it compares the blocks of a sequence with the free blocks
and the hits in use, while `allocate` counts the hits without holder and the blocks that are not
hits. A hit without holder is on the free list and is not handed out twice, so both counts agree.

## Main results

* `PoolState.Reachable.lookup_exact`: a lookup is sound, complete and prefers blocks in use.
* `PoolState.Reachable.canAllocate_agrees`: `canAllocate` and `allocate` agree.
-/

namespace VllmOxide

open BlockPool

variable [HashFunction]

namespace BlockPool.Invariant

variable {pool : BlockPool} {hs : List Holder} {seq : Sequence}

/-- Without a prefix cache nothing is found. -/
theorem lookup_eq_nil_of_disabled (I : pool.Invariant hs) (h : pool.prefixCacheEnabled = false)
    (seq : Sequence) (n : ℕ) : pool.cachedPrefixBlockIds seq n = [] := by
  rw [List.eq_nil_iff_forall_not_mem]
  intro b hb
  obtain ⟨i, hi⟩ := List.mem_iff_getElem?.mp hb
  have henabled := (I.identities b _ (identityAt_cachedPrefixBlockIds hi).2).1
  rw [h] at henabled
  cases henabled

/-- The number that `canAllocate` returns is the number of hits below the last block. -/
theorem lookup_of_canAllocate (I : pool.Invariant hs) {k : ℕ} (hpos : 0 < seq.numBlocks)
    (hcan : pool.canAllocate seq = some k) :
    pool.cachedPrefixBlockIds seq k = pool.cachedPrefixBlockIds seq (seq.numBlocks - 1) := by
  have hk := (of_canAllocate hpos hcan).1
  rw [cachedPrefixBlockIds_take pool seq (k := k) (n := seq.numBlocks - 1) (by omega)]
  refine List.take_of_length_le ?_
  unfold canAllocate at hcan
  rw [if_neg hpos.ne'] at hcan
  split at hcan
  · rename_i hdisabled
    simp [I.lookup_eq_nil_of_disabled hdisabled]
  · dsimp only at hcan
    split at hcan
    · cases hcan
    · exact (Option.some.inj hcan).le

/-- **Room.** When `canAllocate` finds room, `allocate` gives the sequence its hits and fresh
blocks, and takes from the free list what is not in use yet. -/
theorem allocate_of_canAllocate (I : pool.Invariant hs) (hsize : hs.length < USIZE_MAX)
    (htable : seq.blockTable = []) (hlen : seq.numTokens = seq.tokenIds.length)
    (hpos : 0 < seq.numTokens) {k : ℕ} (hcan : pool.canAllocate seq = some k) :
    ∃ pool' seq', BlockPool.allocate k (pool, seq) = .ok () (pool', seq') ∧
      seq'.blockTable.length = seq.numBlocks ∧ seq'.blockTable.Nodup ∧
      seq'.blockTable.take k = pool.cachedPrefixBlockIds seq (seq.numBlocks - 1) ∧
      seq'.numCachedTokens = BLOCK_SIZE * k ∧ seq'.numCachedTokens < seq.numTokens ∧
      pool'.freeBlockIds.length + (seq.numBlocks - pool.sharedHits seq) =
        pool.freeBlockIds.length := by
  have hblocks : 0 < seq.numBlocks := by
    simp only [Sequence.numBlocks, BLOCK_SIZE]
    omega
  obtain ⟨hk, hcount, -⟩ := of_canAllocate hblocks hcan
  have hchecks := (I.allocateChecks hsize htable hblocks hcan).1
  have hhits := I.lookup_of_canAllocate hblocks hcan
  obtain ⟨pool', fresh, hrun, hfresh, I', hfree⟩ := I.allocate_of_checks hlen hchecks
  have hshared : pool.sharedHits seq ≤ k := by
    rw [sharedHits, ← hhits]
    exact (List.length_filter_le _ _).trans hcount.le
  refine ⟨pool', _, hrun, ?_, I'.nodup _ List.mem_cons_self, ?_, rfl, ?_, ?_⟩
  · rw [List.length_append, hcount, hfresh]
  · rw [List.take_append_of_le_length hcount.ge, List.take_of_length_le hcount.le, hhits]
  · simp only [Sequence.numBlocks, BLOCK_SIZE] at hk ⊢
    omega
  · rw [hhits] at hfree
    rw [sharedHits] at hshared ⊢
    omega

/-- **No room.** When `canAllocate` finds no room, `allocate` fails for every number of cached
blocks that leaves one to compute, and changes nothing. -/
theorem allocate_of_canAllocate_none (I : pool.Invariant hs)
    (hlen : seq.numTokens = seq.tokenIds.length) (hcan : pool.canAllocate seq = none) {k : ℕ}
    (hk : k < seq.numBlocks) :
    ∃ error, BlockPool.allocate k (pool, seq) = .error error (pool, seq) := by
  cases hchecks : pool.allocateChecks seq k with
  | error error => exact ⟨error, by simp only [BlockPool.allocate, hchecks]⟩
  | ok hits =>
    -- the checks count the hits in use among the first `k` levels only
    obtain ⟨pool', fresh, -, -, -, hfree⟩ := I.allocate_of_checks hlen hchecks
    have hhits := (of_allocateChecks hchecks).2.2.1
    rw [cachedPrefixBlockIds_take pool seq (k := k) (n := seq.numBlocks - 1) (by omega)] at hhits
    have hle : (hits.filter (· ∈ pool.usedBlockIds)).length ≤ pool.sharedHits seq := by
      rw [hhits, sharedHits]
      exact ((List.take_sublist _ _).filter _).length_le
    have hnone := I.canAllocate_eq_none_iff.mp hcan
    omega

end BlockPool.Invariant

namespace PoolState

omit [HashFunction] in
/-- Four blocks, and a sequence of two of them. -/
def owner : PoolState :=
  letI := collidingHash
  ((PoolState.initial ⟨4, by simp [USIZE_MAX]⟩ true).request
    (List.replicate 257 0)).allocateNewest 0

omit [HashFunction] in
/-- The owner's first block is indexed; all hashes are equal. -/
@[irreducible] def indexedOwner : PoolState :=
  letI := collidingHash
  owner.hashNewest 256

omit [HashFunction] in
/-- A new sequence with the same history. -/
def newcomer : Sequence :=
  Sequence.new 0 0 (List.replicate 257 0) SamplingParams.default

omit [HashFunction] in
/-- The new sequence arrives. -/
def sharing : PoolState :=
  ⟨indexedOwner.pool, newcomer :: indexedOwner.seqs⟩

variable {st : PoolState}

/-- **Lookups.** In every reachable state, for every sequence and bound, a lookup has one id for
each leading level at which some block carries the chain of the sequence. The id at a level
carries the chain, and is in use if any block with the chain is; the ids are distinct. -/
theorem Reachable.lookup_exact (h : st.Reachable) (seq : Sequence) (n : ℕ) :
    IsGreatest (st.pool.carriedLevels seq n) (st.pool.cachedPrefixBlockIds seq n).length ∧
      (∀ i b, (st.pool.cachedPrefixBlockIds seq n)[i]? = some b →
        st.pool.identityAt b = some (seq.prefixIdentity i) ∧
          ((∃ c ∈ st.pool.usedBlockIds, st.pool.identityAt c = some (seq.prefixIdentity i)) →
            b ∈ st.pool.usedBlockIds)) ∧
      (st.pool.cachedPrefixBlockIds seq n).Nodup := by
  obtain ⟨I, X, -⟩ := h.ok
  refine ⟨I.isGreatest_length_lookup X seq n, fun i b hhit => ⟨?_, ?_⟩,
    nodup_cachedPrefixBlockIds st.pool seq n⟩
  · exact (identityAt_cachedPrefixBlockIds hhit).2
  · rintro ⟨c, hc, hchain⟩
    exact I.mem_used_of_hit X hhit hc hchain

/-- **Admission.** In every reachable state and for every waiting sequence with tokens: when
`canAllocate` returns `k`, `allocate` with `k` succeeds, the new table starts with the `k` hits
and has one block for each block of the sequence, all of them distinct, the cached tokens are the
tokens of the hits and do not reach the end of the history, and the free list loses one block for
each block of the sequence that is not a hit in use. When it returns nothing, `allocate` fails
for every number of cached blocks below the number of blocks. -/
theorem Reachable.canAllocate_agrees (h : st.Reachable) {seq : Sequence} (hmem : seq ∈ st.seqs)
    (hwaiting : seq.blockTable = []) (hpos : 0 < seq.numTokens) :
    (∀ k, st.pool.canAllocate seq = some k →
      ∃ pool' seq', BlockPool.allocate k (st.pool, seq) = .ok () (pool', seq') ∧
        seq'.blockTable.length = seq.numBlocks ∧ seq'.blockTable.Nodup ∧
        seq'.blockTable.take k = st.pool.cachedPrefixBlockIds seq (seq.numBlocks - 1) ∧
        seq'.numCachedTokens = BLOCK_SIZE * k ∧ seq'.numCachedTokens < seq.numTokens ∧
        pool'.freeBlockIds.length + (seq.numBlocks - st.pool.sharedHits seq) =
          st.pool.freeBlockIds.length) ∧
    (st.pool.canAllocate seq = none →
      ∀ k < seq.numBlocks, ∃ error,
        BlockPool.allocate k (st.pool, seq) = .error error (st.pool, seq)) := by
  have O := h.ok
  have hlen := O.numTokens seq hmem
  obtain ⟨before, after, hsplit⟩ := List.append_of_mem hmem
  have hperm : st.seqs.Perm (seq :: (before ++ after)) := hsplit ▸ List.perm_middle
  have O' : PoolState.Ok ⟨st.pool, seq :: (before ++ after)⟩ := O.perm hperm
  have I : st.pool.Invariant ((before ++ after).map Sequence.holder) := (O'.leave hwaiting).invariant
  have hsize : ((before ++ after).map Sequence.holder).length < USIZE_MAX := by
    rw [List.length_map]
    exact O'.length_le
  exact ⟨fun k hcan => I.allocate_of_canAllocate hsize hwaiting hlen hpos hcan,
    fun hcan k hk => I.allocate_of_canAllocate_none hlen hcan hk⟩

omit [HashFunction] in
theorem reachable_indexedOwner :
    letI := collidingHash
    indexedOwner.Reachable := by
  let _ := collidingHash
  have hempty := Reachable.initial ⟨4, by simp [USIZE_MAX]⟩ true
  have howner : owner.Reachable := by
    unfold owner
    exact (hempty.request (by simp [PoolState.initial, USIZE_MAX]) _).allocateNewest 0
  have hfits : owner.NewestFits 256 := by
    decide +kernel
  unfold indexedOwner
  exact howner.hashNewest hfits

omit [HashFunction] in
theorem length_indexedOwner : indexedOwner.seqs.length < USIZE_MAX := by
  have hcount : indexedOwner.seqs.length = 1 := by decide +kernel
  rw [hcount, USIZE_MAX]
  decide

omit [HashFunction] in
theorem reachable_sharing :
    letI := collidingHash
    sharing.Reachable :=
  letI := collidingHash
  reachable_indexedOwner.arrive (Sequence.unallocated_new _ _) length_indexedOwner

omit [HashFunction] in
/-- The lookup of the new sequence finds the indexed block. -/
theorem lookup_exact_sharing :
    letI := collidingHash
    sharing.pool.cachedPrefixBlockIds newcomer 5 = [0] ∧
      IsGreatest (sharing.pool.carriedLevels newcomer 5) 1 ∧
      sharing.pool.identityAt 0 = some (newcomer.prefixIdentity 0) := by
  let _ := collidingHash
  have hhits : sharing.pool.cachedPrefixBlockIds newcomer 5 = [0] := by decide +kernel
  obtain ⟨hgreatest, hlevels, -⟩ := reachable_sharing.lookup_exact newcomer 5
  rw [hhits, List.length_singleton] at hgreatest
  exact ⟨hhits, hgreatest, (hlevels 0 0 (by rw [hhits]; rfl)).1⟩

omit [HashFunction] in
/-- The new sequence is admitted with the indexed block and one of the two free ones. -/
theorem canAllocate_agrees_sharing :
    letI := collidingHash
    ∃ pool' seq', BlockPool.allocate 1 (sharing.pool, newcomer) = .ok () (pool', seq') ∧
      seq'.blockTable.take 1 = [0] ∧ pool'.freeBlockIds.length + 1 = 2 := by
  let _ := collidingHash
  have hhits : sharing.pool.cachedPrefixBlockIds newcomer (newcomer.numBlocks - 1) = [0] := by
    decide +kernel
  have hneed : newcomer.numBlocks - sharing.pool.sharedHits newcomer = 1 := by decide +kernel
  have hfree : sharing.pool.freeBlockIds.length = 2 := by decide +kernel
  have hcan : sharing.pool.canAllocate newcomer = some 1 := by decide +kernel
  have hpos : 0 < newcomer.numTokens := by decide +kernel
  have hmem : newcomer ∈ sharing.seqs := List.mem_cons_self
  obtain ⟨pool', seq', hrun, -, -, htake, -, -, hleft⟩ :=
    (reachable_sharing.canAllocate_agrees hmem rfl hpos).1 1 hcan
  rw [hneed] at hleft
  exact ⟨pool', seq', hrun, htake.trans hhits, hleft.trans hfree⟩

end PoolState

end VllmOxide
