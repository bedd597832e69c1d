import Mathlib.Tactic.IntervalCases
import VllmOxide.Library.Outcome
import VllmOxide.Pool.Reachable

/-!
# Stale entries of the prefix-cache index

The buckets of the index are to list the blocks that carry an identity, each of them once, under
its hash. A block enters its bucket with its identity. It leaves the bucket when it is taken from
the free list, but only if its hash is not `-1`, the mark of a block without hash. Nothing keeps
the hash function from returning `-1`, so a block with that hash stays listed after its content is
gone, and for good: it is listed once more under the hash of its next content.

That is the only way in which the index goes wrong. A block that is indexed carries no identity
at that time, so the other use of the mark, in `hashBlocks`, does no harm.

## Main definitions

* `BlockPool.Hygienic`: no bucket is empty, and the buckets list the blocks with an identity.
* `PoolState.Takes`: a step takes a block from the free list to give it new content.
* `BlockPool.CarriesSentinel`: a block carries an identity whose hash is `-1`.

## Main results

* `BlockPool.Hygienic.allocateBlockPrivate`, `BlockPool.Hygienic.hashBlocks`: what keeps the index
  in order.
* `hygienic_iff`: the index is in order all along a run exactly if no step takes a block that
  carries an identity whose hash is `-1`.
* `hygienic_of_chainHash_ne`: so it is if no indexed chain has that hash.
-/

namespace VllmOxide

namespace BlockPool

/-- Every bucket is non-empty and lists, without repetition, blocks that carry an identity under
its hash; no block is in two buckets, and every block with an identity is in the bucket of its
hash. -/
structure Hygienic (pool : BlockPool) : Prop where
  nonempty : ∀ hash blockIds, pool.hashToBlockId hash = some blockIds → blockIds ≠ []
  nodup : ∀ hash, (pool.bucket hash).Nodup
  listed : ∀ hash, ∀ b ∈ pool.bucket hash, b < pool.blocks.length ∧
    (pool.blockAt b).hash = hash ∧ pool.identityAt b ≠ none
  unique : ∀ b hash hash', b ∈ pool.bucket hash → b ∈ pool.bucket hash' → hash = hash'
  indexed : pool.Indexed

/-- The block carries an identity whose hash is the mark of blocks without hash. -/
def CarriesSentinel (pool : BlockPool) (b : ℕ) : Prop :=
  pool.identityAt b ≠ none ∧ (pool.blockAt b).hash = -1

theorem lt_length_of_identityAt {pool : BlockPool} {b : ℕ} (h : pool.identityAt b ≠ none) :
    b < pool.blocks.length := by
  by_contra hge
  refine h ?_
  rw [identityAt, blockAt, List.getD_eq_getElem?_getD,
    List.getElem?_eq_none (Nat.le_of_not_lt hge)]
  rfl

/-! ### Buckets -/

theorem ne_nil_of_removeCacheEntry {pool : BlockPool}
    (h : ∀ hash blockIds, pool.hashToBlockId hash = some blockIds → blockIds ≠ []) (old : ℤ)
    (b : ℕ) (hash : ℤ) (blockIds : List ℕ)
    (hbucket : (pool.removeCacheEntry old b).hashToBlockId hash = some blockIds) :
    blockIds ≠ [] := by
  unfold removeCacheEntry at hbucket
  split at hbucket
  · exact h hash blockIds hbucket
  · by_cases heq : hash = old
    · subst heq
      simp only [Function.update_self] at hbucket
      split at hbucket
      · cases hbucket
      · rename_i hne
        cases hbucket
        exact hne
    · simp only [Function.update_of_ne heq] at hbucket
      exact h hash blockIds hbucket

theorem ne_nil_of_indexCacheEntry {pool : BlockPool}
    (h : ∀ hash blockIds, pool.hashToBlockId hash = some blockIds → blockIds ≠ []) (new : ℤ)
    (b : ℕ) (hash : ℤ) (blockIds : List ℕ)
    (hbucket : (pool.indexCacheEntry new b).hashToBlockId hash = some blockIds) :
    blockIds ≠ [] := by
  unfold indexCacheEntry at hbucket
  by_cases heq : hash = new
  · subst heq
    simp only [Function.update_self, Option.some.injEq] at hbucket
    rw [← hbucket]
    simp
  · simp only [Function.update_of_ne heq] at hbucket
    exact h hash blockIds hbucket

/-- The index after a block is taken from the free list. -/
theorem hashToBlockId_allocateBlockPrivate {pool pool' : BlockPool} {b : ℕ}
    (hrun : pool.allocateBlockPrivate = .ok (b, pool')) :
    pool'.hashToBlockId = (if (pool.blockAt b).hash ≠ -1 then
      pool.removeCacheEntry (pool.blockAt b).hash b else pool).hashToBlockId := by
  unfold allocateBlockPrivate at hrun
  split at hrun
  · cases hrun
  · split at hrun
    · cases hrun
    · cases hrun
      split
      · simp only [removeCacheEntry, modifyBlock]
        split <;> rfl
      · rfl

theorem bucket_allocateBlockPrivate {pool pool' : BlockPool} {b : ℕ}
    (hrun : pool.allocateBlockPrivate = .ok (b, pool')) (hash : ℤ) :
    pool'.bucket hash = if hash = (pool.blockAt b).hash ∧ hash ≠ -1 then
      (pool.bucket hash).filter (· ≠ b) else pool.bucket hash := by
  have hbucket : pool'.bucket hash = (if (pool.blockAt b).hash ≠ -1 then
      pool.removeCacheEntry (pool.blockAt b).hash b else pool).bucket hash := by
    rw [bucket, hashToBlockId_allocateBlockPrivate hrun, ← bucket]
  rw [hbucket]
  by_cases hold : (pool.blockAt b).hash = -1
  · rw [if_neg (not_not.mpr hold), if_neg]
    rintro ⟨heq, hne⟩
    exact hne (heq.trans hold)
  · rw [if_pos hold, bucket_removeCacheEntry]
    by_cases heq : hash = (pool.blockAt b).hash
    · rw [if_pos heq, if_pos ⟨heq, heq ▸ hold⟩]
    · rw [if_neg heq, if_neg fun h => heq h.1]

namespace Hygienic

variable {pool pool' : BlockPool} {b : ℕ}

theorem of_listed
    (hnonempty : ∀ hash blockIds, pool.hashToBlockId hash = some blockIds → blockIds ≠ [])
    (hnodup : ∀ hash, (pool.bucket hash).Nodup)
    (hlisted : ∀ hash, ∀ b ∈ pool.bucket hash,
      (pool.blockAt b).hash = hash ∧ pool.identityAt b ≠ none)
    (X : pool.Indexed) : pool.Hygienic where
  nonempty := hnonempty
  nodup := hnodup
  listed hash b hb := ⟨lt_length_of_identityAt (hlisted hash b hb).2, hlisted hash b hb⟩
  unique b hash hash' hb hb' := (hlisted hash b hb).1.symm.trans (hlisted hash' b hb').1
  indexed := X

theorem newInner (numBlocks blockSize : ℕ) (enabled : Bool) :
    (BlockPool.newInner numBlocks blockSize enabled).Hygienic :=
  of_listed (fun _ _ h => by cases h) (fun _ => List.nodup_nil) (fun _ _ h => by cases h)
    (.newInner numBlocks blockSize enabled)

theorem of_sameContent (H : pool.Hygienic) (h : SameContent pool pool') : pool'.Hygienic := by
  refine of_listed (fun hash blockIds => ?_) (fun hash => ?_) (fun hash b hb => ?_)
    (H.indexed.of_sameContent h)
  · rw [h.index]
    exact H.nonempty hash blockIds
  · rw [bucket, h.index]
    exact H.nodup hash
  · rw [bucket, h.index] at hb
    rw [identityAt, h.identity, h.hash]
    exact (H.listed hash b hb).2

/-- A block without identity is in no bucket. -/
theorem notMem_bucket (H : pool.Hygienic) (hb : pool.identityAt b = none) (hash : ℤ) :
    b ∉ pool.bucket hash :=
  fun h => (H.listed hash b h).2.2 hb

theorem filter_bucket (H : pool.Hygienic) (hb : pool.identityAt b = none) (hash : ℤ) :
    (pool.bucket hash).filter (· ≠ b) = pool.bucket hash := by
  refine List.filter_eq_self.mpr fun c hc => decide_eq_true ?_
  rintro rfl
  exact H.notMem_bucket hb hash hc

/-! ### A block is taken from the free list -/

/-- A block taken from the free list is in no bucket any more. -/
theorem bucket_of_taken (H : pool.Hygienic) (hb : ¬ pool.CarriesSentinel b)
    (hrun : pool.allocateBlockPrivate = .ok (b, pool')) (hash : ℤ) :
    pool'.bucket hash = (pool.bucket hash).filter (· ≠ b) := by
  rw [bucket_allocateBlockPrivate hrun]
  by_cases hid : pool.identityAt b = none
  · rw [H.filter_bucket hid, ite_id]
  · have hne : (pool.blockAt b).hash ≠ -1 := fun h => hb ⟨hid, h⟩
    by_cases heq : hash = (pool.blockAt b).hash
    · rw [if_pos ⟨heq, heq ▸ hne⟩]
    · rw [if_neg fun h => heq h.1]
      refine (List.filter_eq_self.mpr fun c hc => decide_eq_true ?_).symm
      rintro rfl
      exact heq (H.listed hash c hc).2.1.symm

/-- A block whose old content leaves the index with it may be taken. -/
theorem allocateBlockPrivate (H : pool.Hygienic) (hb : ¬ pool.CarriesSentinel b)
    (hrun : pool.allocateBlockPrivate = .ok (b, pool')) : pool'.Hygienic := by
  have htakes := takesHead_of_allocateBlockPrivate hrun
  have hbucket := H.bucket_of_taken hb hrun
  refine of_listed ?_ (fun hash => ?_) (fun hash c hc => ?_)
    (H.indexed.allocateBlockPrivate hrun htakes)
  · rw [hashToBlockId_allocateBlockPrivate hrun]
    split
    · exact ne_nil_of_removeCacheEntry H.nonempty _ _
    · exact H.nonempty
  · rw [hbucket]
    exact (H.nodup hash).filter _
  · rw [hbucket, List.mem_filter, decide_eq_true_iff] at hc
    rw [identityAt, htakes.blockAt, if_neg hc.2]
    exact (H.listed hash c hc.1).2

/-! ### A block is indexed -/

theorem bucket_publishBlock (H : pool.Hygienic) (hb : pool.identityAt b = none) (new : ℤ)
    (tokenIds : List Token) (identity : PrefixCacheIdentity) (hash : ℤ) :
    (pool.publishBlock b new tokenIds identity).bucket hash =
      if hash = new then pool.bucket hash ++ [b] else pool.bucket hash := by
  have hkeep : (if (pool.blockAt b).hash ≠ -1 ∧ (pool.blockAt b).hash ≠ new then
      pool.removeCacheEntry (pool.blockAt b).hash b else pool).bucket hash = pool.bucket hash := by
    split
    · rw [bucket_removeCacheEntry, H.filter_bucket hb, ite_id]
    · rfl
  rw [BlockPool.publishBlock, bucket_indexCacheEntry]
  split
  · exact congrArg (· ++ [b]) ((congrArg _ hkeep).trans (H.filter_bucket hb hash))
  · exact hkeep

/-- A block without identity may be indexed under any hash, also under `-1`. -/
theorem publishBlock (H : pool.Hygienic) (hlt : b < pool.blocks.length)
    (hb : pool.identityAt b = none) (new : ℤ) (tokenIds : List Token)
    (identity : PrefixCacheIdentity) : (pool.publishBlock b new tokenIds identity).Hygienic := by
  have hat := Invariant.publishBlock_blockAt pool hlt new tokenIds identity
  have hbucket := H.bucket_publishBlock hb new tokenIds identity
  refine of_listed ?_ (fun hash => ?_) (fun hash c hc => ?_) (H.indexed.publishBlock hlt _ _ _)
  · refine ne_nil_of_indexCacheEntry ?_ _ _
    have hold : ∀ hash blockIds, (if (pool.blockAt b).hash ≠ -1 ∧ (pool.blockAt b).hash ≠ new then
        pool.removeCacheEntry (pool.blockAt b).hash b else pool).hashToBlockId hash =
          some blockIds → blockIds ≠ [] := by
      split
      · exact ne_nil_of_removeCacheEntry H.nonempty _ _
      · exact H.nonempty
    exact hold
  · rw [hbucket]
    split
    · rw [← List.concat_eq_append]
      exact (H.nodup hash).concat (H.notMem_bucket hb hash)
    · exact H.nodup hash
  · by_cases hcb : c = b
    · subst hcb
      rw [hbucket] at hc
      split at hc
      · rename_i heq
        rw [identityAt, hat, if_pos rfl, heq]
        exact ⟨rfl, by simp [Block.update]⟩
      · exact absurd hc (H.notMem_bucket hb hash)
    · have hmem : c ∈ pool.bucket hash := by
        rw [hbucket] at hc
        split at hc
        · simpa [hcb] using hc
        · exact hc
      rw [identityAt, hat, if_neg hcb]
      exact (H.listed hash c hmem).2

end Hygienic

/-! ### Several blocks are taken -/

/-- The blocks leave the free list one after the other. -/
inductive TakesAll : BlockPool → List ℕ → BlockPool → Prop
  | nil (pool : BlockPool) : TakesAll pool [] pool
  | cons {pool pool₁ pool₂ : BlockPool} {b : ℕ} {bs : List ℕ}
      (hrun : pool.allocateBlockPrivate = .ok (b, pool₁)) (hrest : TakesAll pool₁ bs pool₂) :
      TakesAll pool (b :: bs) pool₂

namespace TakesAll

variable {pool pool' : BlockPool} {bs : List ℕ}

theorem isPrefix (h : TakesAll pool bs pool') : bs <+: pool.freeBlockIds := by
  induction h with
  | nil pool => exact List.nil_prefix
  | cons hrun hrest ih =>
    rw [(takesHead_of_allocateBlockPrivate hrun).free]
    exact List.cons_prefix_cons.mpr ⟨rfl, ih⟩

theorem carriesSentinel {b c : ℕ} (ht : pool.TakesHead pool' b) :
    pool'.CarriesSentinel c ↔ c ≠ b ∧ pool.CarriesSentinel c := by
  rw [CarriesSentinel, identityAt, ht.blockAt]
  by_cases hcb : c = b
  · subst hcb
    simp [Block.reset]
  · simp [hcb, CarriesSentinel, identityAt]

/-- The index stays in order if the content of every block leaves it with the block. -/
theorem hygienic (h : TakesAll pool bs pool') (H : pool.Hygienic)
    (hbs : ∀ b ∈ bs, ¬ pool.CarriesSentinel b) : pool'.Hygienic := by
  induction h with
  | nil pool => exact H
  | cons hrun hrest ih =>
    have htakes := takesHead_of_allocateBlockPrivate hrun
    refine ih (H.allocateBlockPrivate (hbs _ List.mem_cons_self) hrun) fun c hc hcarries => ?_
    exact hbs c (List.mem_cons_of_mem _ hc) ((carriesSentinel htakes).mp hcarries).2

/-- A block whose identity has the hash `-1` stays listed when it is taken. -/
theorem stale (h : TakesAll pool bs pool') {b : ℕ} (hlisted : b ∈ pool.bucket (-1))
    (hb : b ∈ bs ∨ pool.identityAt b = none) :
    b ∈ pool'.bucket (-1) ∧ pool'.identityAt b = none := by
  induction h with
  | nil pool => exact ⟨hlisted, hb.resolve_left List.not_mem_nil⟩
  | @cons pool pool₁ pool₂ c bs hrun hrest ih =>
    have htakes := takesHead_of_allocateBlockPrivate hrun
    refine ih ?_ ?_
    · rw [bucket_allocateBlockPrivate hrun, if_neg fun hne => hne.2 rfl]
      exact hlisted
    · rw [identityAt, htakes.blockAt]
      split
      · exact .inr rfl
      · rename_i hne
        exact hb.imp_left fun hmem => (List.mem_cons.mp hmem).resolve_left hne

theorem not_hygienic (h : TakesAll pool bs pool') (X : pool.Indexed) {b : ℕ} (hb : b ∈ bs)
    (hcarries : pool.CarriesSentinel b) : ¬ pool'.Hygienic := fun H => by
  have hlisted := X b hcarries.1
  rw [hcarries.2] at hlisted
  obtain ⟨hmem, hnone⟩ := h.stale hlisted (.inl hb)
  exact H.notMem_bucket hnone _ hmem

end TakesAll

theorem takesAll_of_allocateNewBlocks {n : ℕ} :
    ∀ {pool pool' : BlockPool} {seq seq' : Sequence},
      BlockPool.allocateNewBlocks n (pool, seq) = .ok () (pool', seq') →
      TakesAll pool (pool.freeBlockIds.take n) pool' := by
  induction n with
  | zero =>
    intro pool pool' seq seq' h
    cases h
    exact .nil pool
  | succ n ih =>
    intro pool pool' seq seq' h
    simp only [BlockPool.allocateNewBlocks] at h
    split at h
    · cases h
    · rename_i hrun
      rw [(takesHead_of_allocateBlockPrivate hrun).free, List.take_succ_cons]
      exact .cons hrun (ih h)

theorem takesAll_of_appendBlocks {seqs : List Sequence} :
    ∀ {pool pool' : BlockPool} {done seqs' : List Sequence},
      (∀ seq ∈ seqs, seq.numBlocks - seq.blockTable.length ≤ 1) →
      BlockPool.appendBlocks seqs (pool, done) = .ok () (pool', seqs') →
      TakesAll pool (pool.freeBlockIds.take (missingBlocks seqs)) pool' := by
  induction seqs with
  | nil =>
    intro pool pool' done seqs' _ h
    cases h
    exact .nil pool
  | cons seq rest ih =>
    intro pool pool' done seqs' hle h
    have hone := hle seq List.mem_cons_self
    have hrest := fun q hq => hle q (List.mem_cons_of_mem _ hq)
    rw [BlockPool.appendBlocks] at h
    rw [missingBlocks_cons]
    split at h
    · rename_i hmissing
      split at h
      · cases h
      · rename_i hrun
        rw [hmissing, Nat.add_comm, (takesHead_of_allocateBlockPrivate hrun).free,
          List.take_succ_cons]
        exact .cons hrun (ih hrest h)
    · rename_i hmissing
      rw [show seq.numBlocks - seq.blockTable.length = 0 by omega, Nat.zero_add]
      exact ih hrest h

/-! ### Indexing the blocks of a sequence -/

namespace Hygienic

variable [HashFunction] {pool : BlockPool} {hs : List Holder}

theorem hashBlocksFrom {seq : Sequence} (hnodup : seq.blockTable.Nodup) {count : ℕ} :
    ∀ {i : ℕ} {hash : ℤ} (identity : Option PrefixCacheIdentity) {pool : BlockPool},
      pool.Hygienic → i + count ≤ seq.blockTable.length →
      (∀ b ∈ seq.blockTable, b < pool.blocks.length) →
      (∀ b ∈ seq.blockTable.drop i, pool.identityAt b = none) →
      (BlockPool.hashBlocksFrom seq count i hash identity pool).Hygienic := by
  induction count with
  | zero => exact fun _ _ H _ _ _ => H
  | succ count ih =>
    intro i hash identity pool H hbound hlt huncached
    have hi : i < seq.blockTable.length := by omega
    have hdrop := List.drop_eq_getElem_cons hi
    simp only [BlockPool.hashBlocksFrom, Invariant.getD_blockTable hi]
    have hb := hlt _ (List.getElem_mem hi)
    have hnone := huncached seq.blockTable[i] (by rw [hdrop]; exact List.mem_cons_self)
    refine ih _ (H.publishBlock hb hnone _ _ _) (by omega) (fun b hb' => ?_) fun b hb' => ?_
    · rw [(Invariant.publishBlock_fields _ _ _ _ _).2.2.2.2, length_modifyBlock]
      exact hlt b hb'
    · -- the other blocks of the table keep their content
      have hne : b ≠ seq.blockTable[i] := by
        rintro rfl
        have hnodup' := hnodup.sublist (List.drop_sublist i _)
        rw [hdrop] at hnodup'
        exact (List.nodup_cons.mp hnodup').1 hb'
      rw [identityAt, Invariant.publishBlock_blockAt _ hb, if_neg hne]
      exact huncached b (by rw [hdrop]; exact List.mem_cons_of_mem _ hb')

/-- The blocks that a sequence fills carry no identity before they are indexed. -/
theorem hashBlocks {seq : Sequence} (H : pool.Hygienic)
    (I : pool.Invariant (seq.holder :: hs))
    (htable : seq.numCachedTokens + seq.numScheduledTokens ≤ BLOCK_SIZE * seq.blockTable.length) :
    (pool.hashBlocks seq).Hygienic := by
  have hstop : (seq.numCachedTokens + seq.numScheduledTokens) / BLOCK_SIZE ≤
      seq.blockTable.length := by
    simp only [BLOCK_SIZE] at htable ⊢
    omega
  have hlt : ∀ b ∈ seq.blockTable, b < pool.blocks.length := fun b hb =>
    I.ledger.lt_length (Invariant.holders_ne_zero List.mem_cons_self hb)
  have hnodup := I.nodup seq.holder List.mem_cons_self
  have huncached : ∀ b ∈ seq.blockTable.drop (seq.numCachedTokens / BLOCK_SIZE),
      pool.identityAt b = none := by
    intro b hb
    obtain ⟨j, hj⟩ := List.mem_iff_getElem?.mp hb
    rw [List.getElem?_drop] at hj
    rw [I.cached seq.holder List.mem_cons_self _ b hj, if_neg]
    rintro ⟨-, hcached⟩
    simp only [Holder.IsCached, Sequence.holder, BLOCK_SIZE] at hcached
    omega
  simp only [BlockPool.hashBlocks, I.blockSize]
  split
  · exact H
  · split
    · exact H
    · split
      · exact H.hashBlocksFrom hnodup _ (by omega) hlt huncached
      · rename_i hzero
        rw [Nat.eq_zero_of_not_pos hzero] at huncached ⊢
        exact H.hashBlocksFrom hnodup _ (by omega) hlt huncached

end Hygienic

end BlockPool

/-! ### Runs -/

namespace PoolState

open BlockPool

variable [HashFunction] {st st' : PoolState}

/-- The step takes the block from the free list, to give it new content: it is one of the new
blocks of an allocated sequence or of a batch that grows. -/
inductive Takes : PoolState → PoolState → ℕ → Prop
  | allocate {pool pool' : BlockPool} {seqs rest : List Sequence} {seq seq' : Sequence} {k b : ℕ}
      (hmem : seqs.Perm (seq :: rest))
      (h : BlockPool.allocate k (pool, seq) = .ok () (pool', seq'))
      (hb : b ∈ (pool.freeBlockIds.filter (· ∉ pool.cachedPrefixBlockIds seq k)).take
        (seq.numBlocks - k)) : Takes ⟨pool, seqs⟩ ⟨pool', seq' :: rest⟩ b
  | append {pool pool' : BlockPool} {seqs batch batch' rest : List Sequence} {b : ℕ}
      (hmem : seqs.Perm (batch ++ rest))
      (h : BlockPool.mayAppendBatch (pool, batch) = .ok () (pool', batch'))
      (hb : b ∈ pool.freeBlockIds.take (missingBlocks batch)) :
      Takes ⟨pool, seqs⟩ ⟨pool', batch' ++ rest⟩ b

namespace Ok

variable {pool pool' : BlockPool} {seqs rest batch batch' : List Sequence} {seq seq' : Sequence}

/-- Allocation claims the cached blocks, which keeps all content, and takes the new ones. -/
theorem takesAll_of_allocate {k : ℕ} (O : PoolState.Ok ⟨pool, seq :: rest⟩)
    (h : BlockPool.allocate k (pool, seq) = .ok () (pool', seq')) :
    ∃ claimed, SameContent pool claimed ∧ TakesAll claimed
      ((pool.freeBlockIds.filter (· ∉ pool.cachedPrefixBlockIds seq k)).take
        (seq.numBlocks - k)) pool' := by
  simp only [BlockPool.allocate] at h
  split at h
  · cases h
  · rename_i hits hchecks
    split at h
    · cases h
    · rename_i hrun
      cases h
      obtain ⟨-, -, rfl, -⟩ := of_allocateChecks hchecks
      have hlt : ∀ b ∈ pool.cachedPrefixBlockIds seq k, b < pool.blocks.length := fun b hb =>
        lt_of_mem_cachedPrefixBlockIds hb
      obtain ⟨-, hsame, hfree⟩ := O.invariant.ledger.claimCachedBlocks hlt
        (nodup_cachedPrefixBlockIds pool seq k)
      refine ⟨_, hsame, ?_⟩
      rw [← hfree]
      exact takesAll_of_allocateNewBlocks hrun

theorem takesAll_of_append (O : PoolState.Ok ⟨pool, batch ++ rest⟩)
    (h : BlockPool.mayAppendBatch (pool, batch) = .ok () (pool', batch')) :
    TakesAll pool (pool.freeBlockIds.take (missingBlocks batch)) pool' := by
  obtain ⟨hready, -⟩ := ready_of_mayAppendBatch
    (fun q hq => O.cached_le q (List.mem_append_left _ hq)) h
  rw [BlockPool.mayAppendBatch] at h
  split at h
  · cases h
  · split at h
    · cases h
    · split at h
      · cases h
      · refine takesAll_of_appendBlocks (fun q hq => ?_) h
        obtain ⟨hle, hle', -⟩ := hready q hq
        omega

/-- A step that loses no identity with the hash `-1` keeps the index in order. -/
theorem hygienic_step (O : st.Ok) (H : st.pool.Hygienic) (h : PoolStep st st')
    (htakes : ∀ b, Takes st st' b → ¬ st.pool.CarriesSentinel b) : st'.pool.Hygienic := by
  cases h with
  | arrive seq hseq hroom => exact H
  | leave hmem hseq => exact H
  | update hmem hupdate => exact H
  | allocate hmem h =>
    obtain ⟨claimed, hsame, htaken⟩ := (O.perm hmem).takesAll_of_allocate h
    refine htaken.hygienic (H.of_sameContent hsame) fun b hb hcarries => ?_
    refine htakes b (.allocate hmem h hb) ?_
    rw [CarriesSentinel, identityAt, hsame.identity, hsame.hash] at hcarries
    exact hcarries
  | @allocateFails pool pool' seqs rest seq seq' k error hmem h =>
    have O' := O.perm hmem
    have htrans : Transactional (BlockPool.allocate k) (pool, seq) :=
      O'.invariant.transactional_allocate (O'.numTokens seq List.mem_cons_self) k
    cases htrans error _ h
    exact H
  | append hmem h =>
    exact ((O.perm hmem).takesAll_of_append h).hygienic H fun b hb => htakes b (.append hmem h hb)
  | @appendFails pool pool' seqs batch batch' rest error hmem h =>
    cases pool.transactional_mayAppendBatch batch error _ h
    exact H
  | @release pool pool' seqs batch batch' rest hmem h =>
    have O' := O.perm hmem
    have I := O'.invariant
    have hle := O'.length_le
    rw [List.map_append] at I
    rw [List.length_append] at hle
    obtain ⟨pool₁, hrun, -, hsame⟩ := I.release (by omega)
    rw [hrun] at h
    cases h
    exact H.of_sameContent hsame
  | hash hmem hwork => exact H.hashBlocks (O.perm hmem).invariant hwork.le_table

/-- The stored hash of a block is that of the chain that it carries. -/
theorem not_carriesSentinel (O : st.Ok) {b : ℕ}
    (hne : ∀ identity, st.pool.identityAt b = some identity → identity.chainHash ≠ -1) :
    ¬ st.pool.CarriesSentinel b := by
  rintro ⟨hcarries, hhash⟩
  obtain ⟨identity, hidentity⟩ := Option.ne_none_iff_exists'.mp hcarries
  have hstored := (O.invariant.identities b identity hidentity).2.2.1
  exact hne identity hidentity (hstored.symm.trans hhash)

/-- A step that takes a block with the hash `-1` leaves it listed. -/
theorem not_hygienic_of_takes (O : st.Ok) {b : ℕ} (h : Takes st st' b)
    (hcarries : st.pool.CarriesSentinel b) : ¬ st'.pool.Hygienic := by
  cases h with
  | allocate hmem h hb =>
    have O' := O.perm hmem
    obtain ⟨claimed, hsame, htaken⟩ := O'.takesAll_of_allocate h
    refine htaken.not_hygienic (O.indexed.of_sameContent hsame) hb ?_
    rw [CarriesSentinel, identityAt, hsame.identity, hsame.hash]
    exact hcarries
  | append hmem h hb =>
    exact ((O.perm hmem).takesAll_of_append h).not_hygienic O.indexed hb hcarries

end Ok

end PoolState

section Runs

variable [HashFunction] {numBlocks : Usize} {prefixCacheEnabled : Bool} {n : ℕ}
  {states : ℕ → PoolState}

/-- The states of a run from a fresh pool are reachable. -/
theorem PoolState.Ok.of_run (hstart : states 0 = .initial numBlocks prefixCacheEnabled)
    (hstep : ∀ i < n, PoolStep (states i) (states (i + 1))) : ∀ i ≤ n, (states i).Ok := by
  intro i
  induction i with
  | zero => exact fun _ => hstart ▸ .initial numBlocks prefixCacheEnabled
  | succ i ih => exact fun hi => (ih (Nat.le_of_succ_le hi)).step (hstep i hi)

/-- A run that loses no identity with the hash `-1` keeps the index in order. -/
theorem hygienic_of_takes (hstart : states 0 = .initial numBlocks prefixCacheEnabled)
    (hstep : ∀ i < n, PoolStep (states i) (states (i + 1)))
    (htakes : ∀ i < n, ∀ b, PoolState.Takes (states i) (states (i + 1)) b →
      ¬ (states i).pool.CarriesSentinel b) : ∀ i ≤ n, (states i).pool.Hygienic := by
  intro i
  induction i with
  | zero => exact fun _ => hstart ▸ .newInner _ _ _
  | succ i ih =>
    intro hi
    have hi' := Nat.le_of_succ_le hi
    exact (PoolState.Ok.of_run hstart hstep i hi').hygienic_step (ih hi') (hstep i hi) (htakes i hi)

/-- The index is in order all along a run in which no indexed chain hashes to `-1`. -/
theorem hygienic_of_chainHash_ne (hstart : states 0 = .initial numBlocks prefixCacheEnabled)
    (hstep : ∀ i < n, PoolStep (states i) (states (i + 1)))
    (hne : ∀ i < n, ∀ b identity, (states i).pool.identityAt b = some identity →
      identity.chainHash ≠ -1) : ∀ i ≤ n, (states i).pool.Hygienic :=
  hygienic_of_takes hstart hstep fun i hi b _ =>
    (PoolState.Ok.of_run hstart hstep i hi.le).not_carriesSentinel (hne i hi b)

/-- **Index hygiene.** Along a run from a fresh pool the index is in order exactly if no step takes
a block from the free list that carries an identity whose hash is `-1`. -/
theorem hygienic_iff (hstart : states 0 = .initial numBlocks prefixCacheEnabled)
    (hstep : ∀ i < n, PoolStep (states i) (states (i + 1))) :
    (∀ i ≤ n, (states i).pool.Hygienic) ↔
      ∀ i < n, ∀ b, PoolState.Takes (states i) (states (i + 1)) b →
        ¬ (states i).pool.CarriesSentinel b := by
  constructor
  · intro hygienic i hi b htakes hcarries
    exact (PoolState.Ok.of_run hstart hstep i hi.le).not_hygienic_of_takes htakes hcarries
      (hygienic (i + 1) hi)
  · exact hygienic_of_takes hstart hstep

end Runs

/-- A pool of one block. -/
def oneBlock : PoolState :=
  .initial ⟨1, by simp [USIZE_MAX]⟩ true

/-- The block is indexed with a history of one block; all hashes are equal. -/
def indexedBlock : PoolState :=
  letI := BlockPool.collidingHash
  ((oneBlock.request (List.replicate 256 0)).allocateNewest 0).hashNewest 256

/-- The block is given back, and a sequence of one token takes it. -/
def reusedBlock : PoolState :=
  letI := BlockPool.collidingHash
  (indexedBlock.releaseAll.request [7]).allocateNewest 0

/-- The index is in order when the indexed block is taken for the next sequence. -/
theorem hygienic_iff_reusedBlock :
    letI := BlockPool.collidingHash
    indexedBlock.pool.bucket 0 = [0] ∧ reusedBlock.pool.bucket 0 = [] ∧
      reusedBlock.pool.Hygienic := by
  let _ := BlockPool.collidingHash
  have hfits : ((oneBlock.request (List.replicate 256 0)).allocateNewest 0).NewestFits 256 := by
    decide +kernel
  obtain ⟨scheduled, hschedule, hhash, -⟩ := PoolState.steps_hashNewest hfits (by decide +kernel)
  have hcount : indexedBlock.releaseAll.seqs.length = 1 := by decide +kernel
  obtain ⟨released, hrelease⟩ : ∃ released,
      indexedBlock.pool.deallocateBatch indexedBlock.seqs = .ok released :=
    exists_of_isOk (by decide +kernel)
  let states : ℕ → PoolState := fun i =>
    [oneBlock, oneBlock.request (List.replicate 256 0),
      (oneBlock.request (List.replicate 256 0)).allocateNewest 0, scheduled, indexedBlock,
      indexedBlock.releaseAll, indexedBlock.releaseAll.request [7], reusedBlock].getD i oneBlock
  have hstart : states 0 = .initial ⟨1, by simp [USIZE_MAX]⟩ true := rfl
  have hstep : ∀ i < 7, PoolStep (states i) (states (i + 1)) := by
    intro i hi
    interval_cases i <;> simp only [states, List.getD_cons_succ, List.getD_cons_zero]
    · exact PoolState.step_request (by simp [oneBlock, PoolState.initial, USIZE_MAX]) _
    · exact PoolState.step_allocateNewest _ _ _ _
    · exact hschedule
    · exact hhash
    · exact PoolState.step_releaseAll hrelease
    · exact PoolState.step_request (hcount.trans_lt (by simp [USIZE_MAX])) _
    · exact PoolState.step_allocateNewest _ _ _ _
  have hygienic := (hygienic_iff hstart hstep).mpr fun i hi b _ =>
    (PoolState.Ok.of_run hstart hstep i hi.le).not_carriesSentinel fun identity _ => by
      cases identity <;> simp [PrefixCacheIdentity.chainHash]
  exact ⟨by decide +kernel, by decide +kernel, hygienic 7 (le_refl _)⟩

/-! ### A stale entry -/

/-- Every hash is the mark of blocks without hash. -/
@[reducible] def sentinelHash : HashFunction where
  computeHash _ _ := -1

/-- The only block of the pool is indexed with a history of one block, given back, and taken by a
sequence of one token. -/
def staleEntry : PoolState :=
  letI := sentinelHash
  ((((((PoolState.initial ⟨1, by simp [USIZE_MAX]⟩ true).request
    (List.replicate 256 0)).allocateNewest 0).hashNewest 256).releaseAll).request
      [7]).allocateNewest 0

/-- The block is still listed, and carries nothing. -/
theorem not_hygienic_staleEntry :
    letI := sentinelHash
    staleEntry.Reachable ∧ staleEntry.pool.bucket (-1) = [0] ∧
      staleEntry.pool.identityAt 0 = none ∧ ¬ staleEntry.pool.Hygienic := by
  let _ := sentinelHash
  have hfits : (((PoolState.initial ⟨1, by simp [USIZE_MAX]⟩ true).request
      (List.replicate 256 0)).allocateNewest 0).NewestFits 256 := by
    decide +kernel
  have hcount : ((((PoolState.initial ⟨1, by simp [USIZE_MAX]⟩ true).request
      (List.replicate 256 0)).allocateNewest 0).hashNewest 256).releaseAll.seqs.length = 1 := by
    decide +kernel
  have hreach : staleEntry.Reachable := by
    unfold staleEntry
    refine .allocateNewest (.request (.releaseAll (.hashNewest (.allocateNewest (.request
      (.initial _ _) ?_ _) _) hfits)) ?_ _) _
    · simp [PoolState.initial, USIZE_MAX]
    · exact hcount.trans_lt (by simp [USIZE_MAX])
  have hbucket : staleEntry.pool.bucket (-1) = [0] := by decide +kernel
  have hnone : staleEntry.pool.identityAt 0 = none := by decide +kernel
  refine ⟨hreach, hbucket, hnone, fun H => H.notMem_bucket hnone (-1) ?_⟩
  rw [hbucket]
  exact List.mem_cons_self

end VllmOxide
