import VllmOxide.Pool.Append

/-!
# Lookups while a decision is taken

A lookup finds a block for an identity exactly when a bucket lists a block that carries it, and a
block in use if there is one. Between two decisions nothing is indexed: allocating, appending and
releasing only take blocks out of their buckets. So what a later pool finds for a token list, an
earlier one has found too, and a sequence that did not fit goes on not to fit while the blocks it
could share do not grow and the free list does not.

## Main definitions

* `BlockPool.IndexShrinks`: no bucket has gained a block.
* `BlockPool.Listed`: a block that a lookup may return for an identity.
* `BlockPool.Shares`: the lookup of a token list passes a block in use.

## Main results

* `BlockPool.Invariant.canAllocate_eq_none_iff`: `canAllocate` counts free and shared blocks.
* `BlockPool.Invariant.canAllocate_none_mono`: a sequence that does not fit goes on not to fit.
-/

namespace VllmOxide

namespace BlockPool

/-! ### Buckets and free lists that shrink -/

/-- No bucket of `pool'` names a block that the bucket of `pool` does not. -/
def IndexShrinks (pool pool' : BlockPool) : Prop :=
  ∀ hash b, b ∈ (pool'.hashToBlockId hash).getD [] → b ∈ (pool.hashToBlockId hash).getD []

namespace IndexShrinks

variable {p q r : BlockPool}

theorem of_eq (h : q.hashToBlockId = p.hashToBlockId) : IndexShrinks p q :=
  fun hash b hb => by rwa [h] at hb

theorem refl (p : BlockPool) : IndexShrinks p p :=
  fun _ _ h => h

theorem trans (h : IndexShrinks p q) (h' : IndexShrinks q r) : IndexShrinks p r :=
  fun hash b hb => h hash b (h' hash b hb)

end IndexShrinks

theorem indexShrinks_removeCacheEntry (pool : BlockPool) (hash : ℤ) (b : ℕ) :
    IndexShrinks pool (pool.removeCacheEntry hash b) := by
  intro hash' c hc
  unfold removeCacheEntry at hc
  split at hc
  · exact hc
  · rename_i blockIds hbucket
    by_cases heq : hash' = hash
    · subst heq
      rw [hbucket, Option.getD_some]
      simp only [Function.update_self] at hc
      split at hc
      · simp at hc
      · exact List.mem_of_mem_filter hc
    · simpa [Function.update_of_ne heq] using hc

theorem indexShrinks_allocateBlockPrivate {pool pool' : BlockPool} {b : ℕ}
    (h : pool.allocateBlockPrivate = .ok (b, pool')) : IndexShrinks pool pool' := by
  unfold allocateBlockPrivate at h
  split at h
  · cases h
  · split at h
    · cases h
    · cases h
      split
      · exact indexShrinks_removeCacheEntry _ _ _
      · exact .refl _

theorem length_free_allocateBlockPrivate {pool pool' : BlockPool} {b : ℕ}
    (h : pool.allocateBlockPrivate = .ok (b, pool')) :
    pool.freeBlockIds.length = pool'.freeBlockIds.length + 1 := by
  unfold allocateBlockPrivate at h
  split at h
  · cases h
  · rename_i hfree
    split at h
    · cases h
    · cases h
      rw [hfree]
      dsimp only [modifyBlock]
      split <;> simp

theorem indexShrinks_claimCachedBlocks (blockIds : List ℕ) :
    ∀ pool : BlockPool, IndexShrinks pool (blockIds.foldl claimCachedBlock pool) := by
  induction blockIds with
  | nil => exact .refl
  | cons b rest ih =>
    intro pool
    exact (IndexShrinks.of_eq (pool.claimCachedBlock_hashToBlockId b)).trans (ih _)

theorem indexShrinks_allocateNewBlocks {n : ℕ} :
    ∀ {pool pool' : BlockPool} {seq seq' : Sequence},
      allocateNewBlocks n (pool, seq) = .ok () (pool', seq') → IndexShrinks pool pool' := by
  induction n with
  | zero =>
    intro pool pool' seq seq' h
    cases h
    exact .refl _
  | succ n ih =>
    intro pool pool' seq seq' h
    simp only [allocateNewBlocks] at h
    split at h
    · cases h
    · exact (indexShrinks_allocateBlockPrivate ‹_›).trans (ih h)

theorem indexShrinks_allocate [HashFunction] {k : ℕ} {pool pool' : BlockPool} {seq seq' : Sequence}
    (h : allocate k (pool, seq) = .ok () (pool', seq')) : IndexShrinks pool pool' := by
  simp only [allocate] at h
  split at h
  · cases h
  · split at h
    · cases h
    · cases h
      exact (indexShrinks_claimCachedBlocks _ pool).trans (indexShrinks_allocateNewBlocks ‹_›)

/-- The free list loses the blocks that the batch misses. -/
theorem length_free_appendBlocks {seqs : List Sequence} :
    ∀ {pool pool' : BlockPool} {done seqs' : List Sequence}, (∀ seq ∈ seqs, seq.AppendReady) →
      appendBlocks seqs (pool, done) = .ok () (pool', seqs') →
      pool'.freeBlockIds.length + missingBlocks seqs = pool.freeBlockIds.length := by
  induction seqs with
  | nil =>
    intro pool pool' done seqs' _ h
    cases h
    rfl
  | cons seq rest ih =>
    intro pool pool' done seqs' hready h
    obtain ⟨hle, hle', -⟩ := hready seq List.mem_cons_self
    have hrest := fun q hq => hready q (List.mem_cons_of_mem seq hq)
    rw [appendBlocks] at h
    rw [missingBlocks_cons]
    split at h
    · rename_i hone
      split at h
      · cases h
      · rename_i b pool₁ hrun
        have hlen := ih hrest h
        rw [length_free_allocateBlockPrivate hrun]
        omega
    · have hlen := ih hrest h
      omega

theorem indexShrinks_appendBlocks {seqs : List Sequence} :
    ∀ {pool pool' : BlockPool} {done seqs' : List Sequence},
      appendBlocks seqs (pool, done) = .ok () (pool', seqs') → IndexShrinks pool pool' := by
  induction seqs with
  | nil =>
    intro pool pool' done seqs' h
    cases h
    exact .refl _
  | cons seq rest ih =>
    intro pool pool' done seqs' h
    rw [appendBlocks] at h
    split at h
    · split at h
      · cases h
      · exact (indexShrinks_allocateBlockPrivate ‹_›).trans (ih h)
    · exact ih h

theorem indexShrinks_mayAppendBatch {pool pool' : BlockPool} {seqs seqs' : List Sequence}
    (h : mayAppendBatch (pool, seqs) = .ok () (pool', seqs')) : IndexShrinks pool pool' := by
  rw [mayAppendBatch] at h
  split at h
  · cases h
  · split at h
    · cases h
    · split at h
      · cases h
      · exact indexShrinks_appendBlocks h

theorem length_free_mayAppendBatch {pool pool' : BlockPool} {seqs seqs' : List Sequence}
    (hready : ∀ seq ∈ seqs, seq.AppendReady)
    (h : mayAppendBatch (pool, seqs) = .ok () (pool', seqs')) :
    pool'.freeBlockIds.length + missingBlocks seqs = pool.freeBlockIds.length := by
  rw [mayAppendBatch] at h
  split at h
  · cases h
  · split at h
    · cases h
    · split at h
      · cases h
      · exact length_free_appendBlocks hready h

/-! ### What a lookup finds -/

variable [HashFunction]

/-- A block that carries the identity and is in the bucket of its chained hash. -/
def Listed (pool : BlockPool) (identity : PrefixCacheIdentity) (b : ℕ) : Prop :=
  pool.identityAt b = some identity ∧ b ∈ (pool.hashToBlockId identity.chainHash).getD []

theorem Listed.mono {pool pool' : BlockPool} {identity : PrefixCacheIdentity} {b : ℕ}
    (h : pool'.Listed identity b) (hcontent : NoNewContent pool pool')
    (hindex : IndexShrinks pool pool') : pool.Listed identity b :=
  ⟨hcontent.identity b identity h.1, hindex _ b h.2⟩

/-- The lookup of one identity. -/
def lookup (pool : BlockPool) (identity : PrefixCacheIdentity) : Option ℕ :=
  pool.cachedBlockId identity.chainHash identity

namespace Invariant

variable {pool : BlockPool} {hs : List Holder}

/-- The candidates of a lookup are the listed blocks. -/
theorem mem_candidates (I : pool.Invariant hs) {identity : PrefixCacheIdentity} {b : ℕ}
    {blockIds : List ℕ} (hbucket : pool.hashToBlockId identity.chainHash = some blockIds) :
    b ∈ blockIds.filter (pool.holds identity.chainHash identity) ↔ pool.Listed identity b := by
  rw [List.mem_filter, Listed, hbucket, Option.getD_some, and_comm]
  refine and_congr_left fun _ => ⟨fun h => (of_holds h).2, fun h => ?_⟩
  have hlt : b < pool.blocks.length := by
    by_contra hle
    rw [identityAt, blockAt_of_le (not_lt.mp hle)] at h
    cases h
  obtain ⟨-, -, hhash, htokens⟩ := I.identities b identity h
  simp only [holds, getElem?_blocks hlt]
  exact decide_eq_true ⟨hhash, h, htokens⟩

theorem lookup_eq_none_iff (I : pool.Invariant hs) {identity : PrefixCacheIdentity} :
    pool.lookup identity = none ↔ ∀ b, ¬ pool.Listed identity b := by
  unfold lookup cachedBlockId
  cases hbucket : pool.hashToBlockId identity.chainHash with
  | none => simp [Listed, hbucket]
  | some blockIds =>
    dsimp only
    constructor
    · intro h b hb
      have hmem := (I.mem_candidates hbucket).mpr hb
      split at h
      · cases h
      · rw [List.getLast?_eq_none_iff] at h
        simp [h] at hmem
    · intro h
      have hnil : blockIds.filter (pool.holds identity.chainHash identity) = [] :=
        List.eq_nil_iff_forall_not_mem.mpr fun b hb => h b ((I.mem_candidates hbucket).mp hb)
      simp [hnil]

/-- A lookup returns a listed block, one in use if there is one. -/
theorem lookup_eq_some (I : pool.Invariant hs) {identity : PrefixCacheIdentity} {b : ℕ}
    (h : pool.lookup identity = some b) : pool.Listed identity b ∧
      ∀ c ∈ pool.usedBlockIds, pool.Listed identity c → b ∈ pool.usedBlockIds := by
  unfold lookup cachedBlockId at h
  cases hbucket : pool.hashToBlockId identity.chainHash with
  | none => simp [hbucket] at h
  | some blockIds =>
    rw [hbucket] at h
    dsimp only at h
    split at h
    · rename_i c hc
      obtain rfl : c = b := Option.some.inj h
      have hmem := List.mem_filter.mp (List.mem_of_getLast? hc)
      exact ⟨(I.mem_candidates hbucket).mp hmem.1, fun _ _ _ => by simpa using hmem.2⟩
    · rename_i hnone
      refine ⟨(I.mem_candidates hbucket).mp (List.mem_of_getLast? h), fun c hused hc => ?_⟩
      rw [List.getLast?_eq_none_iff, List.filter_eq_nil_iff] at hnone
      exact absurd (by simpa using hused) (hnone c ((I.mem_candidates hbucket).mpr hc))

end Invariant

/-! ### The walk over a sequence -/

theorem computeHash_parentIdentity (seq : Sequence) (i : ℕ) :
    computeHash (seq.block i) (parentHash (seq.parentIdentity i)) =
      (seq.prefixIdentity i).chainHash := by
  cases i <;> rfl

/-- The walk from block `i` on reaches a block while it finds one for every level before it. -/
theorem getElem?_cachedPrefixFrom (pool : BlockPool) (seq : Sequence) (n : ℕ) :
    ∀ {i j b : ℕ}, (pool.cachedPrefixFrom seq n i (parentHash (seq.parentIdentity i))
        (seq.parentIdentity i))[j]? = some b ↔
      j < n ∧ (∀ l < j, pool.lookup (seq.prefixIdentity (i + l)) ≠ none) ∧
        pool.lookup (seq.prefixIdentity (i + j)) = some b := by
  induction n with
  | zero => intro i j b; simp [cachedPrefixFrom]
  | succ n ih =>
    intro i j b
    simp only [cachedPrefixFrom]
    rw [computeHash_parentIdentity, seq.extend_parentIdentity i]
    cases hlookup : pool.cachedBlockId (seq.prefixIdentity i).chainHash (seq.prefixIdentity i) with
    | none =>
      refine ⟨fun h => by simp at h, fun hhit => ?_⟩
      obtain ⟨_, hbefore, hlast⟩ := hhit
      rcases Nat.eq_zero_or_pos j with rfl | hj
      · exact absurd (hlookup.symm.trans hlast) (by simp)
      · exact absurd hlookup (hbefore 0 hj)
    | some c =>
      cases j with
      | zero => simp [lookup, hlookup]
      | succ j =>
        have hnext := ih (i := i + 1) (j := j) (b := b)
        rw [List.getElem?_cons_succ]
        refine hnext.trans ?_
        rw [Nat.add_right_comm i 1 j, ← Nat.add_assoc, Nat.succ_lt_succ_iff]
        refine and_congr_right fun _ => and_congr_left fun _ => ⟨fun h l hl => ?_, fun h l hl => ?_⟩
        · cases l with
          | zero => simp [lookup, hlookup]
          | succ l =>
            rw [← Nat.add_assoc, ← Nat.add_right_comm i 1 l]
            exact h l (Nat.succ_lt_succ_iff.mp hl)
        · rw [Nat.add_right_comm i 1 l]
          exact h (l + 1) (Nat.succ_lt_succ hl)

theorem getElem?_cachedPrefixBlockIds {pool : BlockPool} {seq : Sequence} {n j b : ℕ} :
    (pool.cachedPrefixBlockIds seq n)[j]? = some b ↔
      j < n ∧ (∀ l < j, pool.lookup (seq.prefixIdentity l) ≠ none) ∧
        pool.lookup (seq.prefixIdentity j) = some b := by
  have h := getElem?_cachedPrefixFrom pool seq n (i := 0) (j := j) (b := b)
  simp only [Nat.zero_add] at h
  exact h

/-- The lookup of a token list passes a block in use at level `j`. -/
def Shares (pool : BlockPool) (tokenIds : List Token) (j : ℕ) : Prop :=
  (∀ i < j, ∃ b, pool.Listed (.ofTokens tokenIds i) b) ∧
    ∃ b ∈ pool.usedBlockIds, pool.Listed (.ofTokens tokenIds j) b

/-- The number of blocks in use that a new table of the sequence would start with. -/
def sharedHits (pool : BlockPool) (seq : Sequence) : ℕ :=
  ((pool.cachedPrefixBlockIds seq (seq.numBlocks - 1)).filter (· ∈ pool.usedBlockIds)).length

namespace Invariant

variable {pool pool' : BlockPool} {hs hs' : List Holder} {seq : Sequence}

omit [HashFunction] in
/-- A level below the last block is full. -/
theorem prefixIdentity_of_lt {j : ℕ} (hj : j < seq.numBlocks - 1) :
    seq.prefixIdentity j = .ofTokens seq.tokenIds j := by
  refine Sequence.prefixIdentity_eq_ofTokens ?_
  simp only [Sequence.numBlocks, BLOCK_SIZE] at hj ⊢
  omega

/-- A hit in use shares its level. -/
theorem shares_of_hit (I : pool.Invariant hs) {j b : ℕ}
    (hhit : (pool.cachedPrefixBlockIds seq (seq.numBlocks - 1))[j]? = some b)
    (hused : b ∈ pool.usedBlockIds) : j < seq.numBlocks - 1 ∧ pool.Shares seq.tokenIds j := by
  obtain ⟨hj, hbefore, hlast⟩ := getElem?_cachedPrefixBlockIds.mp hhit
  refine ⟨hj, fun i hi => ?_, b, hused, ?_⟩
  · have hne := hbefore i hi
    rw [Ne, I.lookup_eq_none_iff, prefixIdentity_of_lt (hi.trans hj)] at hne
    exact not_forall_not.mp hne
  · rw [← prefixIdentity_of_lt hj]
    exact (I.lookup_eq_some hlast).1

/-- A shared level is a hit in use. -/
theorem hit_of_shares (I : pool.Invariant hs) {j n : ℕ} (hj : j < seq.numBlocks - 1) (hn : j < n)
    (h : pool.Shares seq.tokenIds j) :
    ∃ b ∈ pool.usedBlockIds, (pool.cachedPrefixBlockIds seq n)[j]? = some b := by
  obtain ⟨hbefore, c, hused, hc⟩ := h
  rw [← prefixIdentity_of_lt hj] at hc
  have hne : pool.lookup (seq.prefixIdentity j) ≠ none := fun hnone =>
    I.lookup_eq_none_iff.mp hnone c hc
  obtain ⟨b, hb⟩ := Option.ne_none_iff_exists'.mp hne
  refine ⟨b, (I.lookup_eq_some hb).2 c hused hc,
    getElem?_cachedPrefixBlockIds.mpr ⟨hn, fun l hl hnone => ?_, hb⟩⟩
  obtain ⟨d, hd⟩ := hbefore l hl
  rw [← prefixIdentity_of_lt (hl.trans hj)] at hd
  exact I.lookup_eq_none_iff.mp hnone d hd

/-- The hits in use are at most the places of `blockIds` that face a shared level. -/
theorem sharedHits_le (I : pool.Invariant hs) {blockIds : List ℕ} {p : ℕ → Bool}
    (h : ∀ j < seq.numBlocks - 1, pool.Shares seq.tokenIds j →
      ∃ c, blockIds[j]? = some c ∧ p c = true) :
    pool.sharedHits seq ≤ (blockIds.filter p).length := by
  refine length_filter_le_of_getElem? fun j b hhit hused => ?_
  obtain ⟨hj, hshares⟩ := I.shares_of_hit hhit (of_decide_eq_true hused)
  exact h j hj hshares

/-- **Fitting.** `canAllocate` compares the blocks of a sequence with the free and the shared
ones. -/
theorem canAllocate_eq_none_iff (I : pool.Invariant hs) :
    pool.canAllocate seq = none ↔
      pool.freeBlockIds.length + pool.sharedHits seq < seq.numBlocks := by
  unfold canAllocate
  split
  · rename_i hzero
    simp [hzero]
  · split
    · rename_i hdisabled
      -- without a prefix cache no block is listed
      have hzero : pool.sharedHits seq = 0 := by
        have hle : pool.sharedHits seq ≤ (([] : List ℕ).filter fun _ => true).length := by
          refine I.sharedHits_le ?_
          rintro j - ⟨-, b, -, hb⟩
          have henabled := (I.identities b _ hb.1).1
          rw [hdisabled] at henabled
          cases henabled
        exact Nat.le_zero.mp hle
      rw [hzero, Nat.add_zero]
      split <;> simp <;> omega
    · dsimp only [sharedHits]
      split <;> simp <;> omega

/-- **A sequence that does not fit goes on not to fit** in a pool that finds no more blocks, has
no more of them in use and has no more free ones. -/
theorem canAllocate_none_mono (I : pool.Invariant hs) (I' : pool'.Invariant hs')
    (hcontent : NoNewContent pool pool') (hindex : IndexShrinks pool pool')
    (hused : ∀ b ∈ pool'.usedBlockIds, pool'.identityAt b ≠ none → b ∈ pool.usedBlockIds)
    (hfree : pool'.freeBlockIds.length ≤ pool.freeBlockIds.length)
    (h : pool.canAllocate seq = none) : pool'.canAllocate seq = none := by
  rw [I.canAllocate_eq_none_iff] at h
  rw [I'.canAllocate_eq_none_iff]
  have hle : pool'.sharedHits seq ≤ pool.sharedHits seq := by
    refine I'.sharedHits_le fun j hj ⟨hbefore, b, hb, hlisted⟩ => ?_
    have hshares : pool.Shares seq.tokenIds j :=
      ⟨fun i hi => (hbefore i hi).imp fun c hc => hc.mono hcontent hindex,
        b, hused b hb (by simp [hlisted.1]), hlisted.mono hcontent hindex⟩
    obtain ⟨c, hc, hhit⟩ := I.hit_of_shares hj hj hshares
    exact ⟨c, hhit, decide_eq_true hc⟩
  omega

end Invariant

end BlockPool

end VllmOxide
