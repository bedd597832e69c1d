import Mathlib.Data.Finset.Basic
import Mathlib.Logic.Function.Basic
import VllmOxide.Engine.Sequence

/-!
# The physical block pool

The pool owns the free-list deque, the used set, the reference counts of the blocks and the
chained prefix-cache hashtable. The scheduler reaches it through `KvCacheManager` only, which
forwards every ownership method and holds the same block size, so the pool stands for both
here.

Functions that check everything before the first mutation return `Except`; `allocate` and
`mayAppendBatch` run fallible allocations after the first mutation and return the state they
leave behind with every error (`EStateM.Result`).

`computeHash` is a parameter (`HashFunction`): no definition looks inside the hash.

## Main definitions

* `PrefixCacheIdentity`: the complete token chain of a cached logical prefix block.
* `BlockPool.canAllocate`, `BlockPool.allocate`, `BlockPool.deallocateBatch`,
  `BlockPool.canAppendBatch`, `BlockPool.mayAppendBatch`, `BlockPool.hashBlocks`: the
  operations of the pool.
* `BlockPool.computeSlotMapping`: the bridge from logical positions to cache slots.
-/

namespace VllmOxide

/-- The chained block hash `compute_hash(token_ids, prefix)`. -/
class HashFunction where
  computeHash : List Token → ℤ → ℤ

export HashFunction (computeHash)

/-- Error type for fallible pool operations. -/
structure BlockPoolError where
  message : String
deriving DecidableEq, Repr

/-- Exact collision-safe identity of one cached logical prefix block: the tokens of the block
and, below the first block, the identity of its parent. -/
inductive PrefixCacheIdentity
  | root (tokenIds : List Token)
  | node (parent : PrefixCacheIdentity) (tokenIds : List Token)
deriving DecidableEq

namespace PrefixCacheIdentity

/-- The identity of a block with the given parent. -/
def extend : Option PrefixCacheIdentity → List Token → PrefixCacheIdentity
  | none, tokenIds => root tokenIds
  | some parent, tokenIds => node parent tokenIds

/-- The tokens of the block itself. -/
def tokenIds : PrefixCacheIdentity → List Token
  | root tokenIds => tokenIds
  | node _ tokenIds => tokenIds

end PrefixCacheIdentity

/-- A physical KV-cache block; `hash = -1` means unhashed. -/
structure Block where
  blockId : ℕ
  refCount : ℕ
  hash : ℤ
  tokenIds : List Token
  prefixIdentity : Option PrefixCacheIdentity
deriving DecidableEq

namespace Block

/-- A free block without cached content. -/
def new (blockId : ℕ) : Block where
  blockId := blockId
  refCount := 0
  hash := -1
  tokenIds := []
  prefixIdentity := none

/-- Set the hash, current-block tokens and complete chained identity. -/
def update (block : Block) (hash : ℤ) (tokenIds : List Token)
    (prefixIdentity : PrefixCacheIdentity) : Block :=
  { block with hash := hash, tokenIds := tokenIds, prefixIdentity := some prefixIdentity }

/-- Reset to the allocated-but-empty state. -/
def reset (block : Block) : Block :=
  { block with refCount := 1, hash := -1, tokenIds := [], prefixIdentity := none }

end Block

/-- Block pool with prefix-cache hashtable and free-list management. -/
structure BlockPool where
  blockSize : ℕ
  blocks : List Block
  hashToBlockId : ℤ → Option (List ℕ)
  freeBlockIds : List ℕ
  usedBlockIds : Finset ℕ
  prefixCacheEnabled : Bool

namespace BlockPool

/-- Create a pool with `numBlocks` pre-allocated blocks, all free. -/
def newInner (numBlocks blockSize : ℕ) (prefixCacheEnabled : Bool) : BlockPool where
  blockSize := blockSize
  blocks := (List.range numBlocks).map Block.new
  hashToBlockId := fun _ => none
  freeBlockIds := List.range numBlocks
  usedBlockIds := ∅
  prefixCacheEnabled := prefixCacheEnabled

/-- `BlockPool::new`: prefix caching is on. -/
def new (numBlocks blockSize : ℕ) : BlockPool :=
  newInner numBlocks blockSize true

/-- The block of an id; an id out of range reads as a free block without content. The source
indexes its vector here, with ids that are in range in every reachable state. -/
def blockAt (pool : BlockPool) (blockId : ℕ) : Block :=
  pool.blocks.getD blockId (Block.new blockId)

/-- Change one block in place. -/
def modifyBlock (pool : BlockPool) (blockId : ℕ) (f : Block → Block) : BlockPool :=
  { pool with blocks := pool.blocks.modify blockId f }

/-- `validate_free_block`. -/
def validateFreeBlock (pool : BlockPool) (blockId : ℕ) : Except BlockPoolError Unit :=
  match pool.blocks[blockId]? with
  | none => .error ⟨s!"free block id {blockId} is out of range"⟩
  | some block =>
    if block.refCount ≠ 0 ∨ blockId ∈ pool.usedBlockIds then
      .error ⟨s!"free block {blockId} has inconsistent ownership"⟩
    else .ok ()

/-- Whether a block of the pool carries exactly this hash and identity. -/
def holds (pool : BlockPool) (hash : ℤ) (identity : PrefixCacheIdentity) (blockId : ℕ) : Bool :=
  match pool.blocks[blockId]? with
  | none => false
  | some block => decide (block.hash = hash ∧ block.prefixIdentity = some identity ∧
      block.tokenIds = identity.tokenIds)

/-- `cached_block_id`: among the blocks of the bucket that carry the identity, the last one in
use, or the last one if none is (`max_by_key` keeps the last of the maximal elements). -/
def cachedBlockId (pool : BlockPool) (hash : ℤ) (identity : PrefixCacheIdentity) : Option ℕ :=
  match pool.hashToBlockId hash with
  | none => none
  | some blockIds =>
    let candidates := blockIds.filter (pool.holds hash identity)
    match (candidates.filter (· ∈ pool.usedBlockIds)).getLast? with
    | some blockId => some blockId
    | none => candidates.getLast?

/-! ### Ownership operations -/

/-- `remove_cache_entry`: an emptied bucket is removed. -/
def removeCacheEntry (pool : BlockPool) (hash : ℤ) (blockId : ℕ) : BlockPool :=
  match pool.hashToBlockId hash with
  | none => pool
  | some blockIds =>
    let kept := blockIds.filter (· ≠ blockId)
    { pool with
      hashToBlockId :=
        Function.update pool.hashToBlockId hash (if kept = [] then none else some kept) }

/-- `index_cache_entry`. -/
def indexCacheEntry (pool : BlockPool) (hash : ℤ) (blockId : ℕ) : BlockPool :=
  let blockIds := (pool.hashToBlockId hash).getD []
  { pool with
    hashToBlockId :=
      Function.update pool.hashToBlockId hash
        (some (blockIds.filter (· ≠ blockId) ++ [blockId])) }

/-- `allocate_block_private`: pop the head of the free list and reset it. -/
def allocateBlockPrivate (pool : BlockPool) : Except BlockPoolError (ℕ × BlockPool) :=
  match pool.freeBlockIds with
  | [] => .error ⟨"no free blocks available"⟩
  | blockId :: rest =>
    match pool.validateFreeBlock blockId with
    | .error error => .error error
    | .ok () =>
      let oldHash := (pool.blockAt blockId).hash
      let pool := { pool with freeBlockIds := rest }
      let pool := if oldHash ≠ -1 then pool.removeCacheEntry oldHash blockId else pool
      let pool := pool.modifyBlock blockId Block.reset
      .ok (blockId, { pool with usedBlockIds := insert blockId pool.usedBlockIds })

/-- The check of the cached blocks of `allocate`; `seen` is its `distinct_cached_block_ids`. -/
def checkCachedBlocks (pool : BlockPool) : (seen cachedBlockIds : List ℕ) →
    Except BlockPoolError Unit
  | _, [] => .ok ()
  | seen, blockId :: rest =>
    match pool.blocks[blockId]? with
    | none => .error ⟨s!"cached block {blockId} is out of range"⟩
    | some block =>
      if blockId ∈ seen then .error ⟨s!"cached block {blockId} appears more than once"⟩
      else if blockId ∈ pool.usedBlockIds then
        if block.refCount = 0 then .error ⟨s!"used cached block {blockId} has ref_count 0"⟩
        else match checkedAdd block.refCount 1 with
          | none => .error ⟨s!"cached block {blockId} ref_count overflow"⟩
          | some _ => checkCachedBlocks pool (blockId :: seen) rest
      else if block.refCount ≠ 0 ∨ blockId ∉ pool.freeBlockIds then
        .error ⟨s!"cached block {blockId} has inconsistent free-list ownership"⟩
      else checkCachedBlocks pool (blockId :: seen) rest

/-- The check of free blocks about to be taken, shared by `allocate` and `may_append_batch`;
`seen` is the set of the ids already checked. -/
def checkFreeBlocks (pool : BlockPool) : (seen blockIds : List ℕ) → Except BlockPoolError Unit
  | _, [] => .ok ()
  | seen, blockId :: rest =>
    if blockId ∈ seen then .error ⟨s!"free block {blockId} has inconsistent ownership"⟩
    else match pool.validateFreeBlock blockId with
      | .error error => .error error
      | .ok () => checkFreeBlocks pool (blockId :: seen) rest

/-- Take one more reference to a cached block, which leaves the free list if it was there. -/
def claimCachedBlock (pool : BlockPool) (blockId : ℕ) : BlockPool :=
  if blockId ∈ pool.usedBlockIds then
    pool.modifyBlock blockId fun block => { block with refCount := block.refCount + 1 }
  else
    let pool := { pool with freeBlockIds := pool.freeBlockIds.filter (· ≠ blockId) }
    let pool := pool.modifyBlock blockId fun block => { block with refCount := 1 }
    { pool with usedBlockIds := insert blockId pool.usedBlockIds }

/-- The loop of `allocate` that takes the uncached blocks from the free list. -/
def allocateNewBlocks : ℕ → EStateM BlockPoolError (BlockPool × Sequence) Unit
  | 0, state => .ok () state
  | count + 1, (pool, seq) =>
    match pool.allocateBlockPrivate with
    | .error error => .error error (pool, seq)
    | .ok (blockId, pool) =>
      allocateNewBlocks count (pool, { seq with blockTable := seq.blockTable ++ [blockId] })

/-- The release counts and the release order of `deallocate_batch`. -/
structure Releases where
  counts : ℕ → ℕ
  order : List ℕ

/-- The release loop of `deallocate_batch` over one reversed block table; `seen` is its
`sequence_blocks`. -/
def countTable (seqId : ℕ) : (seen table : List ℕ) → Releases → Except BlockPoolError Releases
  | _, [], releases => .ok releases
  | seen, blockId :: rest, releases =>
    if blockId ∈ seen then
      .error ⟨s!"block {blockId} appears more than once in sequence {seqId}"⟩
    else
      let order :=
        if blockId ∈ releases.order then releases.order else releases.order ++ [blockId]
      match checkedAdd (releases.counts blockId) 1 with
      | none => .error ⟨s!"block {blockId} release count overflow"⟩
      | some count =>
        countTable seqId (blockId :: seen) rest
          ⟨Function.update releases.counts blockId count, order⟩

/-- The release loop of `deallocate_batch` over the sequences. -/
def countReleases : List Sequence → Releases → Except BlockPoolError Releases
  | [], releases => .ok releases
  | seq :: rest, releases =>
    match countTable seq.seqId [] seq.blockTable.reverse releases with
    | .error error => .error error
    | .ok releases => countReleases rest releases

/-- The ownership checks of `deallocate_batch` (the source visits the counts in the order of
its hash map, which can only change which of several errors is reported). -/
def checkReleases (pool : BlockPool) (counts : ℕ → ℕ) : List ℕ → Except BlockPoolError Unit
  | [] => .ok ()
  | blockId :: rest =>
    match pool.blocks[blockId]? with
    | none => .error ⟨s!"block {blockId} is out of range during deallocation"⟩
    | some block =>
      if block.refCount = 0 then
        .error ⟨s!"block {blockId} already has ref_count 0 (double-free?)"⟩
      else if block.refCount < counts blockId then
        .error ⟨s!"block {blockId} ref_count {block.refCount} is smaller than release count {counts blockId}"⟩
      else if blockId ∉ pool.usedBlockIds ∨ blockId ∈ pool.freeBlockIds then
        .error ⟨s!"block {blockId} has inconsistent deallocation ownership"⟩
      else checkReleases pool counts rest

/-- Drop `count` references to a block, which returns to the back of the free list at zero. -/
def releaseBlock (counts : ℕ → ℕ) (pool : BlockPool) (blockId : ℕ) : BlockPool :=
  let pool := pool.modifyBlock blockId fun block =>
    { block with refCount := block.refCount - counts blockId }
  if (pool.blockAt blockId).refCount = 0 then
    { pool with
      usedBlockIds := pool.usedBlockIds.erase blockId
      freeBlockIds := pool.freeBlockIds ++ [blockId] }
  else pool

/-- A sequence that has given its blocks back. -/
def released (seq : Sequence) : Sequence :=
  { seq with numCachedTokens := 0, blockTable := [] }

/-- `deallocate_batch`: release the blocks of a set of sequences as one transaction. -/
def deallocateBatch (pool : BlockPool) (seqs : List Sequence) :
    Except BlockPoolError (BlockPool × List Sequence) :=
  match countReleases seqs ⟨fun _ => 0, []⟩ with
  | .error error => .error error
  | .ok releases =>
    match pool.checkReleases releases.counts releases.order with
    | .error error => .error error
    | .ok () =>
      .ok (releases.order.foldl (releaseBlock releases.counts) pool, seqs.map released)

/-- `deallocate`: release the blocks of one sequence. -/
def deallocate (pool : BlockPool) (seq : Sequence) :
    Except BlockPoolError (BlockPool × Sequence) :=
  match pool.deallocateBatch [seq] with
  | .error error => .error error
  | .ok (pool, seqs) => .ok (pool, seqs.headD seq)

/-- The loop of `can_append_batch`: the number of missing blocks, if every sequence misses at
most one and the sum does not overflow. -/
def requiredBlocks : (total : ℕ) → List Sequence → Option ℕ
  | total, [] => some total
  | total, seq :: rest =>
    if seq.numBlocks < seq.blockTable.length then none
    else
      let missingBlocks := seq.numBlocks - seq.blockTable.length
      if 1 < missingBlocks then none
      else match checkedAdd total missingBlocks with
        | none => none
        | some total => requiredBlocks total rest

/-- `can_append_batch`. -/
def canAppendBatch (pool : BlockPool) (seqs : List Sequence) : Bool :=
  match requiredBlocks 0 seqs with
  | none => false
  | some required => decide (required ≤ pool.freeBlockIds.length)

/-- The first loop of `may_append_batch`: the sequences that need a block. -/
def appendIndices : List Sequence → Except BlockPoolError (List Sequence)
  | [] => .ok []
  | seq :: rest =>
    if seq.numBlocks < seq.blockTable.length then
      .error ⟨s!"sequence {seq.seqId} has more allocated than required blocks"⟩
    else
      let missingBlocks := seq.numBlocks - seq.blockTable.length
      if 1 < missingBlocks then
        .error ⟨s!"sequence {seq.seqId} is missing {missingBlocks} blocks before append"⟩
      else match appendIndices rest with
        | .error error => .error error
        | .ok needing => .ok (if missingBlocks = 1 then seq :: needing else needing)

/-- The last loop of `may_append_batch`: one block for each sequence that misses one. -/
def appendBlocks : List Sequence → EStateM BlockPoolError (BlockPool × List Sequence) Unit
  | [], (pool, done) => .ok () (pool, done)
  | seq :: rest, (pool, done) =>
    if seq.numBlocks - seq.blockTable.length = 1 then
      match pool.allocateBlockPrivate with
      | .error error => .error error (pool, done ++ seq :: rest)
      | .ok (blockId, pool) =>
        appendBlocks rest (pool, done ++ [{ seq with blockTable := seq.blockTable ++ [blockId] }])
    else appendBlocks rest (pool, done ++ [seq])

/-- `may_append_batch`: allocate the blocks a decode batch needs as one transaction. -/
def mayAppendBatch : EStateM BlockPoolError (BlockPool × List Sequence) Unit
  | (pool, seqs) =>
    match appendIndices seqs with
    | .error error => .error error (pool, seqs)
    | .ok needing =>
      if pool.freeBlockIds.length < needing.length then
        .error ⟨"no free blocks available"⟩ (pool, seqs)
      else match pool.checkFreeBlocks [] (pool.freeBlockIds.take needing.length) with
        | .error error => .error error (pool, seqs)
        | .ok () => appendBlocks seqs (pool, [])

/-- `num_free_blocks`. -/
def numFreeBlocks (pool : BlockPool) : ℕ :=
  pool.freeBlockIds.length

/-- `compute_slot_mapping`: the cache slot of each of the `numTokens` positions from
`tokenOffset` on, and `-1` past the block table. -/
def computeSlotMapping (pool : BlockPool) (seq : Sequence) (tokenOffset numTokens : ℕ) :
    List ℤ :=
  (List.range numTokens).map fun i =>
    let absIdx := tokenOffset + i
    match seq.blockTable[absIdx / pool.blockSize]? with
    | none => -1
    | some blockId => (blockId * pool.blockSize + absIdx % pool.blockSize : ℕ)

/-- One round of `hash_blocks`: a block leaves the bucket of its old hash, takes its new content
and enters the bucket of its new hash. -/
def publishBlock (pool : BlockPool) (blockId : ℕ) (h : ℤ) (tokenIds : List Token)
    (identity : PrefixCacheIdentity) : BlockPool :=
  let oldHash := (pool.blockAt blockId).hash
  let pool := if oldHash ≠ -1 ∧ oldHash ≠ h then pool.removeCacheEntry oldHash blockId else pool
  let pool := pool.modifyBlock blockId fun block => block.update h tokenIds identity
  pool.indexCacheEntry h blockId

/-! ### Operations that hash token blocks -/

variable [HashFunction]

/-- The loop of `cached_prefix_block_ids` from block `blockIndex` on, for `remaining` more
blocks; it stops at the first block without a cached copy. -/
def cachedPrefixFrom (pool : BlockPool) (seq : Sequence) :
    (remaining blockIndex : ℕ) → ℤ → Option PrefixCacheIdentity → List ℕ
  | 0, _, _, _ => []
  | remaining + 1, blockIndex, hash, identity =>
    let tokenIds := seq.block blockIndex
    let hash := computeHash tokenIds hash
    let nextIdentity := PrefixCacheIdentity.extend identity tokenIds
    match pool.cachedBlockId hash nextIdentity with
    | none => []
    | some blockId =>
      blockId :: cachedPrefixFrom pool seq remaining (blockIndex + 1) hash (some nextIdentity)

/-- `cached_prefix_block_ids`. -/
def cachedPrefixBlockIds (pool : BlockPool) (seq : Sequence) (maxBlocks : ℕ) : List ℕ :=
  pool.cachedPrefixFrom seq maxBlocks 0 (-1) none

/-- `can_allocate`: the number of cached blocks when there is room. The final logical block is
never reused. -/
def canAllocate (pool : BlockPool) (seq : Sequence) : Option ℕ :=
  if seq.numBlocks = 0 then some 0
  else if pool.prefixCacheEnabled = false then
    if seq.numBlocks ≤ pool.freeBlockIds.length then some 0 else none
  else
    let cachedBlockIds := pool.cachedPrefixBlockIds seq (seq.numBlocks - 1)
    let numNewBlocks := seq.numBlocks - (cachedBlockIds.filter (· ∈ pool.usedBlockIds)).length
    if pool.freeBlockIds.length < numNewBlocks then none else some cachedBlockIds.length

/-- The checks of `allocate` before its first mutation; returns the cached block ids. -/
def allocateChecks (pool : BlockPool) (seq : Sequence) (numCachedBlocks : ℕ) :
    Except BlockPoolError (List ℕ) :=
  if seq.blockTable ≠ [] then .error ⟨"sequence already has a block table"⟩
  else if seq.numBlocks < numCachedBlocks then
    .error ⟨s!"cached block count {numCachedBlocks} exceeds sequence block count {seq.numBlocks}"⟩
  else
    let cachedBlockIds := pool.cachedPrefixBlockIds seq numCachedBlocks
    if cachedBlockIds.length ≠ numCachedBlocks then .error ⟨"cached block hash not found"⟩
    else match pool.checkCachedBlocks [] cachedBlockIds with
      | .error error => .error error
      | .ok () =>
        let requiredUncachedBlocks := seq.numBlocks - numCachedBlocks
        let cachedFreeBlocks := (cachedBlockIds.filter (· ∉ pool.usedBlockIds)).length
        match checkedAdd requiredUncachedBlocks cachedFreeBlocks with
        | none => .error ⟨"required free block count overflow"⟩
        | some requiredFreeBlocks =>
          if pool.freeBlockIds.length < requiredFreeBlocks then
            .error ⟨"no free blocks available"⟩
          else
            let newBlockIds :=
              (pool.freeBlockIds.filter (· ∉ cachedBlockIds)).take requiredUncachedBlocks
            if newBlockIds.length ≠ requiredUncachedBlocks then
              .error ⟨"no free blocks available"⟩
            else match pool.checkFreeBlocks [] newBlockIds with
              | .error error => .error error
              | .ok () => .ok cachedBlockIds

/-- `allocate`: give a sequence its blocks, the first `numCachedBlocks` of them cached ones. -/
def allocate (numCachedBlocks : ℕ) : EStateM BlockPoolError (BlockPool × Sequence) Unit
  | (pool, seq) =>
    match pool.allocateChecks seq numCachedBlocks with
    | .error error => .error error (pool, seq)
    | .ok cachedBlockIds =>
      let pool := cachedBlockIds.foldl claimCachedBlock pool
      let seq := { seq with blockTable := seq.blockTable ++ cachedBlockIds }
      match allocateNewBlocks (seq.numBlocks - numCachedBlocks) (pool, seq) with
      | .error error state => .error error state
      | .ok () (pool, seq) =>
        .ok () (pool, { seq with numCachedTokens := numCachedBlocks * pool.blockSize })

/-- The loop of `hash_blocks` over `count` blocks from block `i` on. -/
def hashBlocksFrom (seq : Sequence) : (count i : ℕ) → ℤ → Option PrefixCacheIdentity →
    BlockPool → BlockPool
  | 0, _, _, _, pool => pool
  | count + 1, i, h, identity, pool =>
    let blockId := seq.blockTable.getD i 0
    let tokenIds := seq.block i
    let h := computeHash tokenIds h
    let nextIdentity := PrefixCacheIdentity.extend identity tokenIds
    hashBlocksFrom seq count (i + 1) h (some nextIdentity)
      (pool.publishBlock blockId h tokenIds nextIdentity)

/-- `hash_blocks`: index the blocks filled since the last call. -/
def hashBlocks (pool : BlockPool) (seq : Sequence) : BlockPool :=
  if pool.prefixCacheEnabled = false then pool
  else
    let start := seq.numCachedTokens / pool.blockSize
    let stop := (seq.numCachedTokens + seq.numScheduledTokens) / pool.blockSize
    if stop ≤ start then pool
    else if 0 < start then
      let previous := pool.blockAt (seq.blockTable.getD (start - 1) 0)
      hashBlocksFrom seq (stop - start) start previous.hash previous.prefixIdentity pool
    else hashBlocksFrom seq (stop - start) start (-1) none pool

end BlockPool

end VllmOxide
