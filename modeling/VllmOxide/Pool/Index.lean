import Mathlib.Order.Bounds.Basic
import VllmOxide.Pool.Lookup
import VllmOxide.Pool.Transactions

/-!
# The prefix-cache index

A block that carries an identity is in the bucket of its hash. Blocks enter their bucket with
their identity (`publishBlock`) and leave it when they lose it (`allocateBlockPrivate`); every
other operation leaves both alone. So a lookup of the chain of a sequence finds a block at every
level at which some block carries the chain, whatever the hash function returns.

A block taken from the free list leaves the bucket of its old hash only if that hash is not `-1`.
A bucket may therefore list blocks that carry other content or none, and the lookup passes them
over.

## Main definitions

* `BlockPool.bucket`: the blocks listed for a hash.
* `BlockPool.Indexed`: every block with an identity is listed for its hash.
* `BlockPool.carriedLevels`: the numbers of leading levels at which a block carries the chain.

## Main results

* `BlockPool.Indexed.allocateNewBlocks`, `BlockPool.Indexed.appendBlocks`,
  `BlockPool.Indexed.hashBlocks`: the operations keep the index complete.
* `BlockPool.Invariant.isGreatest_length_lookup`: a lookup stops at the first level at which no
  block carries the chain.
-/

namespace VllmOxide

namespace BlockPool

/-- The blocks listed for a hash. -/
def bucket (pool : BlockPool) (hash : ℤ) : List ℕ :=
  (pool.hashToBlockId hash).getD []

/-- Every block that carries an identity is listed for its hash. -/
def Indexed (pool : BlockPool) : Prop :=
  ∀ b, pool.identityAt b ≠ none → b ∈ pool.bucket (pool.blockAt b).hash

theorem bucket_removeCacheEntry (pool : BlockPool) (hash : ℤ) (b : ℕ) (h : ℤ) :
    (pool.removeCacheEntry hash b).bucket h =
      if h = hash then (pool.bucket h).filter (· ≠ b) else pool.bucket h := by
  unfold removeCacheEntry bucket
  split
  · rename_i hbucket
    split
    · rename_i heq
      simp [heq, hbucket]
    · rfl
  · rename_i blockIds hbucket
    by_cases heq : h = hash
    · subst heq
      simp only [Function.update_self, if_true, hbucket, Option.getD_some]
      split
      · rename_i hnil
        rw [Option.getD_none, hnil]
      · rfl
    · simp [heq]

theorem bucket_indexCacheEntry (pool : BlockPool) (hash : ℤ) (b : ℕ) (h : ℤ) :
    (pool.indexCacheEntry hash b).bucket h =
      if h = hash then (pool.bucket h).filter (· ≠ b) ++ [b] else pool.bucket h := by
  unfold indexCacheEntry bucket
  by_cases heq : h = hash
  · subst heq
    simp
  · simp [heq]

namespace Indexed

variable {pool pool' : BlockPool}

theorem newInner (numBlocks blockSize : ℕ) (enabled : Bool) :
    (BlockPool.newInner numBlocks blockSize enabled).Indexed := by
  intro b hb
  refine absurd ?_ hb
  by_cases hlt : b < numBlocks <;>
    simp [identityAt, BlockPool.blockAt, BlockPool.newInner, Block.new, hlt]

theorem of_sameContent (X : pool.Indexed) (h : SameContent pool pool') : pool'.Indexed := by
  intro b hb
  rw [identityAt, h.identity] at hb
  rw [bucket, h.index, h.hash]
  exact X b hb

/-- The blocks that keep their identity and their hash, and stay listed for it. -/
theorem of_forall (X : pool.Indexed)
    (h : ∀ b, pool'.identityAt b ≠ none → b ∈ pool'.bucket (pool'.blockAt b).hash ∨
      pool.identityAt b ≠ none ∧ (pool'.blockAt b).hash = (pool.blockAt b).hash ∧
        ∀ hash, b ∈ pool.bucket hash → b ∈ pool'.bucket hash) : pool'.Indexed := by
  intro b hb
  rcases h b hb with hlisted | ⟨hold, hhash, hkeep⟩
  · exact hlisted
  · rw [hhash]
    exact hkeep _ (X b hold)

/-- A block taken from the free list loses its identity; the other blocks stay listed. -/
theorem allocateBlockPrivate (X : pool.Indexed) {b : ℕ}
    (hrun : pool.allocateBlockPrivate = .ok (b, pool')) (htakes : pool.TakesHead pool' b) :
    pool'.Indexed := by
  have hbucket : ∀ hash c, c ≠ b → c ∈ pool.bucket hash → c ∈ pool'.bucket hash := by
    intro hash c hc hmem
    unfold BlockPool.allocateBlockPrivate at hrun
    split at hrun
    · cases hrun
    · split at hrun
      · cases hrun
      · cases hrun
        show c ∈ BlockPool.bucket (if _ then _ else _) hash
        split
        · rw [bucket_removeCacheEntry]
          split
          · exact List.mem_filter.mpr ⟨hmem, by simpa using hc⟩
          · exact hmem
        · exact hmem
  refine X.of_forall fun c hc => .inr ?_
  have hne : c ≠ b := by
    rintro rfl
    rw [identityAt, htakes.blockAt, if_pos rfl] at hc
    exact hc rfl
  rw [identityAt, htakes.blockAt, if_neg hne] at hc
  exact ⟨hc, by rw [htakes.blockAt, if_neg hne], fun hash => hbucket hash c hne⟩

/-- Indexing a block lists it for its new hash; the other blocks stay listed. -/
theorem publishBlock (X : pool.Indexed) {b : ℕ} (hb : b < pool.blocks.length) (hash : ℤ)
    (tokenIds : List Token) (identity : PrefixCacheIdentity) :
    (pool.publishBlock b hash tokenIds identity).Indexed := by
  have hat := Invariant.publishBlock_blockAt pool hb hash tokenIds identity
  have hself : b ∈ (pool.publishBlock b hash tokenIds identity).bucket hash := by
    rw [BlockPool.publishBlock, bucket_indexCacheEntry, if_pos rfl]
    exact List.mem_append_right _ List.mem_cons_self
  have hother : ∀ h c, c ≠ b → c ∈ pool.bucket h →
      c ∈ (pool.publishBlock b hash tokenIds identity).bucket h := by
    intro h c hc hmem
    have hkeep : c ∈ (if (pool.blockAt b).hash ≠ -1 ∧ (pool.blockAt b).hash ≠ hash then
        pool.removeCacheEntry (pool.blockAt b).hash b else pool).bucket h := by
      split
      · rw [bucket_removeCacheEntry]
        split
        · exact List.mem_filter.mpr ⟨hmem, by simpa using hc⟩
        · exact hmem
      · exact hmem
    rw [BlockPool.publishBlock, bucket_indexCacheEntry]
    split
    · exact List.mem_append_left _ (List.mem_filter.mpr ⟨hkeep, by simpa using hc⟩)
    · exact hkeep
  refine X.of_forall fun c hc => ?_
  by_cases hcb : c = b
  · subst hcb
    exact .inl (by rw [hat, if_pos rfl]; exact hself)
  · rw [identityAt, hat, if_neg hcb] at hc
    exact .inr ⟨hc, by rw [hat, if_neg hcb], fun h => hother h c hcb⟩

end Indexed

/-! ### The operations -/

/-- A successful pop takes the head of the free list, in whatever state the pool is. -/
theorem takesHead_of_allocateBlockPrivate {pool pool' : BlockPool} {b : ℕ}
    (h : pool.allocateBlockPrivate = .ok (b, pool')) : pool.TakesHead pool' b := by
  unfold allocateBlockPrivate at h
  split at h
  · cases h
  · rename_i c rest hlist
    split at h
    · cases h
    · rename_i hvalid
      obtain ⟨hlt, -⟩ := validateFreeBlock_eq_ok_iff.mp hvalid
      have key : ∀ base : BlockPool, base.blocks = pool.blocks → base.freeBlockIds = rest →
          base.usedBlockIds = pool.usedBlockIds → base.blockSize = pool.blockSize →
          base.prefixCacheEnabled = pool.prefixCacheEnabled →
          pool.TakesHead { base.modifyBlock c Block.reset with
            usedBlockIds := insert c (base.modifyBlock c Block.reset).usedBlockIds } c := by
        intro base hblocks hrest hused hsize henabled
        refine ⟨by simp [hlist, modifyBlock, hrest], by simp [modifyBlock, hused], hsize,
          by simp [modifyBlock, hblocks], henabled, fun d => ?_⟩
        have hat := blockAt_modifyBlock base c d Block.reset (by rw [hblocks]; exact hlt)
        rw [blockAt_congr hblocks c, blockAt_congr hblocks d] at hat
        exact hat
      cases h
      split
      · exact key _ (by simp) (by simp) (by simp) (by simp) (by simp)
      · exact key _ rfl rfl rfl rfl rfl

theorem sameContent_claimCachedBlocks {hits : List ℕ} :
    ∀ {pool : BlockPool}, (∀ b ∈ hits, b < pool.blocks.length) →
      SameContent pool (hits.foldl claimCachedBlock pool) := by
  induction hits with
  | nil => exact fun {pool} _ => .refl pool
  | cons b rest ih =>
    intro pool hlt
    have hat := pool.claimCachedBlock_blockAt b (hlt b List.mem_cons_self)
    have hone : SameContent pool (pool.claimCachedBlock b) := by
      refine ⟨pool.claimCachedBlock_blockSize b, pool.claimCachedBlock_length b,
        pool.claimCachedBlock_prefixCacheEnabled b, fun c => ?_, fun c => ?_, fun c => ?_,
        pool.claimCachedBlock_hashToBlockId b⟩
      all_goals
        rw [hat c]
        split <;> simp_all
    refine hone.trans (ih fun c hc => ?_)
    rw [hone.length]
    exact hlt c (List.mem_cons_of_mem _ hc)

namespace Indexed

variable {pool pool' : BlockPool}

theorem allocateNewBlocks {n : ℕ} :
    ∀ {pool pool' : BlockPool} {seq seq' : Sequence}, pool.Indexed →
      BlockPool.allocateNewBlocks n (pool, seq) = .ok () (pool', seq') → pool'.Indexed := by
  induction n with
  | zero =>
    intro pool pool' seq seq' X h
    cases h
    exact X
  | succ n ih =>
    intro pool pool' seq seq' X h
    simp only [BlockPool.allocateNewBlocks] at h
    split at h
    · cases h
    · rename_i hrun
      exact ih (X.allocateBlockPrivate hrun (takesHead_of_allocateBlockPrivate hrun)) h

theorem appendBlocks {seqs : List Sequence} :
    ∀ {pool pool' : BlockPool} {done seqs' : List Sequence}, pool.Indexed →
      BlockPool.appendBlocks seqs (pool, done) = .ok () (pool', seqs') → pool'.Indexed := by
  induction seqs with
  | nil =>
    intro pool pool' done seqs' X h
    cases h
    exact X
  | cons seq rest ih =>
    intro pool pool' done seqs' X h
    rw [BlockPool.appendBlocks] at h
    split at h
    · split at h
      · cases h
      · rename_i hrun
        exact ih (X.allocateBlockPrivate hrun (takesHead_of_allocateBlockPrivate hrun)) h
    · exact ih X h

theorem mayAppendBatch {seqs seqs' : List Sequence} (X : pool.Indexed)
    (h : BlockPool.mayAppendBatch (pool, seqs) = .ok () (pool', seqs')) : pool'.Indexed := by
  rw [BlockPool.mayAppendBatch] at h
  split at h
  · cases h
  · split at h
    · cases h
    · split at h
      · cases h
      · exact X.appendBlocks h

variable [HashFunction]

theorem allocate {k : ℕ} {seq seq' : Sequence} (X : pool.Indexed)
    (h : BlockPool.allocate k (pool, seq) = .ok () (pool', seq')) : pool'.Indexed := by
  simp only [BlockPool.allocate] at h
  split at h
  · cases h
  · rename_i hits hchecks
    split at h
    · cases h
    · rename_i hrun
      cases h
      obtain ⟨-, -, rfl, -⟩ := of_allocateChecks hchecks
      have hlt : ∀ b ∈ pool.cachedPrefixBlockIds seq k, b < pool.blocks.length := fun b hb =>
        lt_of_mem_cachedPrefixBlockIds hb
      have hsame := sameContent_claimCachedBlocks hlt
      exact (X.of_sameContent hsame).allocateNewBlocks hrun

theorem hashBlocksFrom {seq : Sequence} {count : ℕ} :
    ∀ {i : ℕ} {hash : ℤ} (identity : Option PrefixCacheIdentity) {pool : BlockPool},
      pool.Indexed → i + count ≤ seq.blockTable.length →
      (∀ b ∈ seq.blockTable, b < pool.blocks.length) →
      (BlockPool.hashBlocksFrom seq count i hash identity pool).Indexed := by
  induction count with
  | zero => exact fun _ _ X _ _ => X
  | succ count ih =>
    intro i hash identity pool X hbound hlt
    have hi : i < seq.blockTable.length := by omega
    simp only [BlockPool.hashBlocksFrom, Invariant.getD_blockTable hi]
    have hb := hlt _ (List.getElem_mem hi)
    refine ih _ (X.publishBlock hb _ _ _) (by omega) fun b hb => ?_
    rw [(Invariant.publishBlock_fields _ _ _ _ _).2.2.2.2, length_modifyBlock]
    exact hlt b hb

theorem hashBlocks {seq : Sequence} (X : pool.Indexed) (hsize : pool.blockSize = BLOCK_SIZE)
    (htable : seq.numCachedTokens + seq.numScheduledTokens ≤ BLOCK_SIZE * seq.blockTable.length)
    (hlt : ∀ b ∈ seq.blockTable, b < pool.blocks.length) : (pool.hashBlocks seq).Indexed := by
  have hstop : (seq.numCachedTokens + seq.numScheduledTokens) / BLOCK_SIZE ≤
      seq.blockTable.length := by
    simp only [BLOCK_SIZE] at htable ⊢
    omega
  simp only [BlockPool.hashBlocks, hsize]
  split
  · exact X
  · split
    · exact X
    · split
      · exact X.hashBlocksFrom _ (by omega) hlt
      · exact X.hashBlocksFrom _ (by omega) hlt

end Indexed

/-! ### Exact lookups -/

variable [HashFunction]

/-- The numbers of leading levels, at most `n`, at which a block carries the chain of the
sequence. -/
def carriedLevels (pool : BlockPool) (seq : Sequence) (n : ℕ) : Set ℕ :=
  {m | m ≤ n ∧ ∀ i < m, ∃ b, pool.identityAt b = some (seq.prefixIdentity i)}

namespace Invariant

variable {pool : BlockPool} {hs : List Holder}

/-- In a complete index the listed blocks are the blocks that carry the identity. -/
theorem listed_iff (I : pool.Invariant hs) (X : pool.Indexed) {identity : PrefixCacheIdentity}
    {b : ℕ} : pool.Listed identity b ↔ pool.identityAt b = some identity := by
  refine ⟨fun h => h.1, fun h => ⟨h, ?_⟩⟩
  have hmem := X b (by simp [h])
  rwa [(I.identities b identity h).2.2.1] at hmem

/-- A lookup stops at the first level at which no block carries the chain. -/
theorem isGreatest_length_lookup (I : pool.Invariant hs) (X : pool.Indexed) (seq : Sequence)
    (n : ℕ) : IsGreatest (pool.carriedLevels seq n) (pool.cachedPrefixBlockIds seq n).length := by
  constructor
  · refine ⟨length_cachedPrefixBlockIds_le pool seq n, fun i hi => ?_⟩
    exact ⟨_, (identityAt_cachedPrefixBlockIds (List.getElem?_eq_getElem hi)).2⟩
  · rintro m ⟨hm, hcarried⟩
    -- every level below `m` has a hit, so the list has a place `m - 1`
    have hfound : ∀ i < m, pool.lookup (seq.prefixIdentity i) ≠ none := fun i hi hnone => by
      obtain ⟨b, hb⟩ := hcarried i hi
      exact I.lookup_eq_none_iff.mp hnone b ((I.listed_iff X).mpr hb)
    cases m with
    | zero => exact Nat.zero_le _
    | succ m =>
      obtain ⟨b, hb⟩ := Option.ne_none_iff_exists'.mp (hfound m (Nat.lt_succ_self m))
      have hplace := getElem?_cachedPrefixBlockIds.mpr
        ⟨Nat.lt_of_succ_le hm, fun l hl => hfound l (hl.trans (Nat.lt_succ_self m)), hb⟩
      exact (List.getElem?_eq_some_iff.mp hplace).1

/-- A hit is in use if any block with its chain is. -/
theorem mem_used_of_hit (I : pool.Invariant hs) (X : pool.Indexed) {seq : Sequence} {n i b c : ℕ}
    (hhit : (pool.cachedPrefixBlockIds seq n)[i]? = some b) (hc : c ∈ pool.usedBlockIds)
    (hchain : pool.identityAt c = some (seq.prefixIdentity i)) : b ∈ pool.usedBlockIds :=
  (I.lookup_eq_some (getElem?_cachedPrefixBlockIds.mp hhit).2.2).2 c hc
    ((I.listed_iff X).mpr hchain)

end Invariant

end BlockPool

end VllmOxide
