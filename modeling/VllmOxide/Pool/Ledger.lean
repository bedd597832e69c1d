import Mathlib.Tactic.Linarith
import VllmOxide.Engine.BlockPool
import VllmOxide.Library.Holders

/-!
# The ownership ledger of the block pool

`BlockPool.Ledger pool own` says that the free list, the used set and the reference counts of the
pool all tell the same story: block `b` has `own b` holders, the free list names exactly the
blocks in range without a holder, once each, and the used set names the others. Each primitive of
the pool changes `own` at one block; the operations of the pool are folds of these primitives.

## Main results

* `BlockPool.Ledger.allocateBlockPrivate`, `BlockPool.Ledger.claimCachedBlock`,
  `BlockPool.Ledger.releaseBlock`: what the primitives do to the ledger.
-/

namespace VllmOxide

namespace BlockPool

/-! ### Blocks of a modified pool -/

theorem blockAt_modifyBlock (pool : BlockPool) (b c : ℕ) (f : Block → Block)
    (hb : b < pool.blocks.length) :
    (pool.modifyBlock b f).blockAt c = if c = b then f (pool.blockAt b) else pool.blockAt c := by
  simp only [blockAt, modifyBlock, List.getD_eq_getElem?_getD, List.getElem?_modify]
  by_cases h : c = b
  · subst h
    simp [List.getElem?_eq_getElem hb]
  · rw [if_neg h]
    simp [Ne.symm h]

/-- A block depends on the block vector only. -/
theorem blockAt_congr {pool pool' : BlockPool} (h : pool'.blocks = pool.blocks) (b : ℕ) :
    pool'.blockAt b = pool.blockAt b := by
  simp [blockAt, h]

theorem getElem?_blocks {pool : BlockPool} {b : ℕ} (hb : b < pool.blocks.length) :
    pool.blocks[b]? = some (pool.blockAt b) := by
  simp [blockAt, List.getElem?_eq_getElem hb]

theorem blockAt_of_le {pool : BlockPool} {b : ℕ} (hb : pool.blocks.length ≤ b) :
    pool.blockAt b = Block.new b := by
  simp [blockAt, List.getElem?_eq_none hb]

@[simp] theorem length_modifyBlock (pool : BlockPool) (b : ℕ) (f : Block → Block) :
    (pool.modifyBlock b f).blocks.length = pool.blocks.length := by
  simp [modifyBlock]

/-- Two pools that agree on everything but the ownership fields: block size, capacity, the cached
content of every block and whether prefix caching is on. -/
structure SameContent (pool pool' : BlockPool) : Prop where
  blockSize : pool'.blockSize = pool.blockSize
  length : pool'.blocks.length = pool.blocks.length
  enabled : pool'.prefixCacheEnabled = pool.prefixCacheEnabled
  identity : ∀ b, (pool'.blockAt b).prefixIdentity = (pool.blockAt b).prefixIdentity
  hash : ∀ b, (pool'.blockAt b).hash = (pool.blockAt b).hash
  tokenIds : ∀ b, (pool'.blockAt b).tokenIds = (pool.blockAt b).tokenIds
  index : pool'.hashToBlockId = pool.hashToBlockId

namespace SameContent

theorem refl (pool : BlockPool) : SameContent pool pool :=
  ⟨rfl, rfl, rfl, fun _ => rfl, fun _ => rfl, fun _ => rfl, rfl⟩

theorem trans {p q r : BlockPool} (h : SameContent p q) (h' : SameContent q r) :
    SameContent p r where
  blockSize := h'.blockSize.trans h.blockSize
  length := h'.length.trans h.length
  enabled := h'.enabled.trans h.enabled
  identity b := (h'.identity b).trans (h.identity b)
  hash b := (h'.hash b).trans (h.hash b)
  tokenIds b := (h'.tokenIds b).trans (h.tokenIds b)
  index := h'.index.trans h.index

end SameContent

/-- Free list, used set and reference counts all describe the holder counts `own`. -/
structure Ledger (pool : BlockPool) (own : ℕ → ℕ) : Prop where
  refCount : ∀ b, (pool.blockAt b).refCount = own b
  nodup_free : pool.freeBlockIds.Nodup
  mem_free : ∀ b, b ∈ pool.freeBlockIds ↔ b < pool.blocks.length ∧ own b = 0
  mem_used : ∀ b, b ∈ pool.usedBlockIds ↔ own b ≠ 0

namespace Ledger

variable {pool : BlockPool} {own own' : ℕ → ℕ}

theorem congr (L : pool.Ledger own) (h : ∀ b, own' b = own b) : pool.Ledger own' := by
  obtain rfl : own' = own := funext h
  exact L

theorem lt_length (L : pool.Ledger own) {b : ℕ} (hb : own b ≠ 0) : b < pool.blocks.length := by
  by_contra h
  have href := L.refCount b
  rw [blockAt_of_le (by omega)] at href
  exact hb href.symm

theorem lt_of_mem_free (L : pool.Ledger own) {b : ℕ} (hb : b ∈ pool.freeBlockIds) :
    b < pool.blocks.length :=
  ((L.mem_free b).mp hb).1

theorem own_of_mem_free (L : pool.Ledger own) {b : ℕ} (hb : b ∈ pool.freeBlockIds) : own b = 0 :=
  ((L.mem_free b).mp hb).2

theorem notMem_free_of_own (L : pool.Ledger own) {b : ℕ} (hb : own b ≠ 0) :
    b ∉ pool.freeBlockIds :=
  fun h => hb (L.own_of_mem_free h)

theorem mem_free_of_notMem_used (L : pool.Ledger own) {b : ℕ} (hb : b < pool.blocks.length)
    (hu : b ∉ pool.usedBlockIds) : b ∈ pool.freeBlockIds :=
  (L.mem_free b).mpr ⟨hb, by simpa [L.mem_used] using hu⟩

/-- A fresh pool has every block free. -/
theorem newInner (numBlocks blockSize : ℕ) (enabled : Bool) :
    (BlockPool.newInner numBlocks blockSize enabled).Ledger fun _ => 0 where
  refCount b := by
    by_cases hb : b < numBlocks <;> simp [BlockPool.newInner, blockAt, Block.new, hb]
  nodup_free := List.nodup_range
  mem_free b := by simp [BlockPool.newInner]
  mem_used b := by simp [BlockPool.newInner]

/-- Changing the content of a block leaves the ledger alone. -/
theorem modifyContent (L : pool.Ledger own) {pool' : BlockPool}
    (hfree : pool'.freeBlockIds = pool.freeBlockIds)
    (hused : pool'.usedBlockIds = pool.usedBlockIds)
    (hlength : pool'.blocks.length = pool.blocks.length)
    (href : ∀ b, (pool'.blockAt b).refCount = (pool.blockAt b).refCount) : pool'.Ledger own where
  refCount b := (href b).trans (L.refCount b)
  nodup_free := hfree ▸ L.nodup_free
  mem_free b := by rw [hfree, hlength, L.mem_free]
  mem_used b := by rw [hused, L.mem_used]

/-! ### Taking the head of the free list -/

theorem validateFreeBlock (L : pool.Ledger own) {b : ℕ} (hb : b ∈ pool.freeBlockIds) :
    pool.validateFreeBlock b = .ok () := by
  have hown := L.own_of_mem_free hb
  have href : (pool.blockAt b).refCount = 0 := (L.refCount b).trans hown
  have hused : b ∉ pool.usedBlockIds := by simp [L.mem_used, hown]
  simp [BlockPool.validateFreeBlock, getElem?_blocks (L.lt_of_mem_free hb), href, hused]

theorem checkFreeBlocks (L : pool.Ledger own) {blockIds : List ℕ} :
    ∀ {seen : List ℕ}, (∀ b ∈ blockIds, b ∈ pool.freeBlockIds ∧ b ∉ seen) → blockIds.Nodup →
      pool.checkFreeBlocks seen blockIds = .ok () := by
  induction blockIds with
  | nil => intros; rfl
  | cons b rest ih =>
    intro seen hb hnodup
    obtain ⟨hbfree, hbseen⟩ := hb b List.mem_cons_self
    rw [List.nodup_cons] at hnodup
    rw [BlockPool.checkFreeBlocks, if_neg hbseen, L.validateFreeBlock hbfree]
    refine ih (fun c hc => ⟨(hb c (List.mem_cons_of_mem _ hc)).1, ?_⟩) hnodup.2
    rintro (_ | _)
    · exact hnodup.1 hc
    · exact (hb c (List.mem_cons_of_mem _ hc)).2 ‹_›

end Ledger

/-- What `allocateBlockPrivate` does to a pool whose free list starts with `b`. -/
structure TakesHead (pool pool' : BlockPool) (b : ℕ) : Prop where
  free : pool.freeBlockIds = b :: pool'.freeBlockIds
  used : pool'.usedBlockIds = insert b pool.usedBlockIds
  blockSize : pool'.blockSize = pool.blockSize
  length : pool'.blocks.length = pool.blocks.length
  enabled : pool'.prefixCacheEnabled = pool.prefixCacheEnabled
  blockAt : ∀ c, pool'.blockAt c = if c = b then (pool.blockAt b).reset else pool.blockAt c

@[simp] theorem removeCacheEntry_blocks (pool : BlockPool) (h : ℤ) (b : ℕ) :
    (pool.removeCacheEntry h b).blocks = pool.blocks := by
  unfold removeCacheEntry; split <;> rfl

@[simp] theorem removeCacheEntry_freeBlockIds (pool : BlockPool) (h : ℤ) (b : ℕ) :
    (pool.removeCacheEntry h b).freeBlockIds = pool.freeBlockIds := by
  unfold removeCacheEntry; split <;> rfl

@[simp] theorem removeCacheEntry_usedBlockIds (pool : BlockPool) (h : ℤ) (b : ℕ) :
    (pool.removeCacheEntry h b).usedBlockIds = pool.usedBlockIds := by
  unfold removeCacheEntry; split <;> rfl

@[simp] theorem removeCacheEntry_blockSize (pool : BlockPool) (h : ℤ) (b : ℕ) :
    (pool.removeCacheEntry h b).blockSize = pool.blockSize := by
  unfold removeCacheEntry; split <;> rfl

@[simp] theorem removeCacheEntry_prefixCacheEnabled (pool : BlockPool) (h : ℤ) (b : ℕ) :
    (pool.removeCacheEntry h b).prefixCacheEnabled = pool.prefixCacheEnabled := by
  unfold removeCacheEntry; split <;> rfl

@[simp] theorem removeCacheEntry_blockAt (pool : BlockPool) (h : ℤ) (b c : ℕ) :
    (pool.removeCacheEntry h b).blockAt c = pool.blockAt c :=
  blockAt_congr (by simp) c

/-! ### Fields after sharing or releasing one block -/

theorem claimCachedBlock_blockAt (pool : BlockPool) (b : ℕ) (hb : b < pool.blocks.length)
    (c : ℕ) :
    (pool.claimCachedBlock b).blockAt c =
      if c = b then
        { pool.blockAt b with
          refCount := if b ∈ pool.usedBlockIds then (pool.blockAt b).refCount + 1 else 1 }
      else pool.blockAt c := by
  unfold claimCachedBlock
  split
  · exact blockAt_modifyBlock pool b c _ hb
  · exact blockAt_modifyBlock { pool with freeBlockIds := _ } b c _ hb

theorem claimCachedBlock_length (pool : BlockPool) (b : ℕ) :
    (pool.claimCachedBlock b).blocks.length = pool.blocks.length := by
  unfold claimCachedBlock
  split <;> simp [modifyBlock]

theorem claimCachedBlock_blockSize (pool : BlockPool) (b : ℕ) :
    (pool.claimCachedBlock b).blockSize = pool.blockSize := by
  unfold claimCachedBlock
  split <;> rfl

theorem claimCachedBlock_prefixCacheEnabled (pool : BlockPool) (b : ℕ) :
    (pool.claimCachedBlock b).prefixCacheEnabled = pool.prefixCacheEnabled := by
  unfold claimCachedBlock
  split <;> rfl

theorem claimCachedBlock_hashToBlockId (pool : BlockPool) (b : ℕ) :
    (pool.claimCachedBlock b).hashToBlockId = pool.hashToBlockId := by
  unfold claimCachedBlock
  split <;> rfl

theorem claimCachedBlock_usedBlockIds (pool : BlockPool) (b : ℕ) :
    (pool.claimCachedBlock b).usedBlockIds = insert b pool.usedBlockIds := by
  unfold claimCachedBlock
  split
  · exact (Finset.insert_eq_self.mpr ‹_›).symm
  · rfl

theorem releaseBlock_blocks (pool : BlockPool) (counts : ℕ → ℕ) (b : ℕ) :
    (releaseBlock counts pool b).blocks = (pool.modifyBlock b fun block =>
      { block with refCount := block.refCount - counts b }).blocks := by
  simp only [releaseBlock]
  split <;> rfl

theorem releaseBlock_blockAt (pool : BlockPool) (counts : ℕ → ℕ) (b : ℕ)
    (hb : b < pool.blocks.length) (c : ℕ) :
    (releaseBlock counts pool b).blockAt c =
      if c = b then { pool.blockAt b with refCount := (pool.blockAt b).refCount - counts b }
      else pool.blockAt c :=
  (blockAt_congr (pool.releaseBlock_blocks counts b) c).trans (blockAt_modifyBlock pool b c _ hb)

theorem releaseBlock_eq (pool : BlockPool) (counts : ℕ → ℕ) (b : ℕ)
    (hb : b < pool.blocks.length) :
    (releaseBlock counts pool b).freeBlockIds =
        (if (pool.blockAt b).refCount ≤ counts b then pool.freeBlockIds ++ [b]
          else pool.freeBlockIds) ∧
      (releaseBlock counts pool b).usedBlockIds =
        (if (pool.blockAt b).refCount ≤ counts b then pool.usedBlockIds.erase b
          else pool.usedBlockIds) := by
  simp only [releaseBlock, blockAt_modifyBlock pool b b _ hb, if_true, Nat.sub_eq_zero_iff_le]
  split <;> exact ⟨rfl, rfl⟩

theorem releaseBlock_length (pool : BlockPool) (counts : ℕ → ℕ) (b : ℕ) :
    (releaseBlock counts pool b).blocks.length = pool.blocks.length := by
  rw [releaseBlock_blocks, length_modifyBlock]

theorem releaseBlock_config (pool : BlockPool) (counts : ℕ → ℕ) (b : ℕ) :
    (releaseBlock counts pool b).blockSize = pool.blockSize ∧
      (releaseBlock counts pool b).prefixCacheEnabled = pool.prefixCacheEnabled ∧
      (releaseBlock counts pool b).hashToBlockId = pool.hashToBlockId := by
  simp only [releaseBlock]
  split <;> exact ⟨rfl, rfl, rfl⟩

namespace Ledger

variable {pool : BlockPool} {own : ℕ → ℕ}

/-- Popping a non-empty free list succeeds and gives its head one holder. -/
theorem allocateBlockPrivate (L : pool.Ledger own) {b : ℕ} {rest : List ℕ}
    (hfree : pool.freeBlockIds = b :: rest) :
    ∃ pool', pool.allocateBlockPrivate = .ok (b, pool') ∧ pool.TakesHead pool' b := by
  have hb : b ∈ pool.freeBlockIds := by simp [hfree]
  have hlt := L.lt_of_mem_free hb
  have key : ∀ base : BlockPool, base.blocks = pool.blocks → base.freeBlockIds = rest →
      base.usedBlockIds = pool.usedBlockIds → base.blockSize = pool.blockSize →
      base.prefixCacheEnabled = pool.prefixCacheEnabled →
      pool.TakesHead { base.modifyBlock b Block.reset with
        usedBlockIds := insert b (base.modifyBlock b Block.reset).usedBlockIds } b := by
    intro base hblocks hrest hused hsize henabled
    refine ⟨by simp [hfree, modifyBlock, hrest], by simp [modifyBlock, hused], hsize,
      by simp [modifyBlock, hblocks], henabled, fun c => ?_⟩
    have h := blockAt_modifyBlock base b c Block.reset (by rw [hblocks]; exact hlt)
    rw [blockAt_congr hblocks b, blockAt_congr hblocks c] at h
    exact h
  simp only [BlockPool.allocateBlockPrivate, hfree, L.validateFreeBlock hb]
  refine ⟨_, rfl, ?_⟩
  -- A hashed block leaves its bucket before it is reset; that touches no other field.
  split
  · exact key _ (by simp) (by simp) (by simp) (by simp) (by simp)
  · exact key _ rfl rfl rfl rfl rfl

theorem takesHead (L : pool.Ledger own) {pool' : BlockPool} {b : ℕ}
    (h : pool.TakesHead pool' b) : pool'.Ledger (Function.update own b 1) where
  refCount c := by
    rw [h.blockAt c]
    by_cases hc : c = b
    · subst hc; simp [Block.reset]
    · simp [hc, L.refCount]
  nodup_free := (List.nodup_cons.mp (h.free ▸ L.nodup_free)).2
  mem_free c := by
    have hnodup := List.nodup_cons.mp (h.free ▸ L.nodup_free)
    have hmem := L.mem_free c
    rw [h.free, List.mem_cons] at hmem
    rw [h.length]
    by_cases hc : c = b
    · subst hc; simp [hnodup.1]
    · simpa [hc] using hmem
  mem_used c := by
    rw [h.used, Finset.mem_insert, L.mem_used]
    by_cases hc : c = b
    · subst hc; simp
    · simp [hc]

/-- The free list has one entry for every block in range without a holder. -/
theorem length_free (L : pool.Ledger own) :
    pool.freeBlockIds.length = (List.range pool.blocks.length).countP (own · = 0) := by
  rw [List.countP_eq_length_filter]
  refine List.Perm.length_eq ((List.perm_ext_iff_of_nodup L.nodup_free
    (List.nodup_range.filter _)).mpr fun b => ?_)
  simp [L.mem_free]

/-! ### Sharing a cached block -/

theorem claimCachedBlock_freeBlockIds (L : pool.Ledger own) (b : ℕ) :
    (pool.claimCachedBlock b).freeBlockIds = pool.freeBlockIds.filter (· ≠ b) := by
  unfold BlockPool.claimCachedBlock
  split
  · rename_i hused
    refine (List.filter_eq_self.mpr fun c hc => ?_).symm
    have hne : c ≠ b := fun h => L.notMem_free_of_own ((L.mem_used b).mp hused) (h ▸ hc)
    simpa using hne
  · rfl

theorem claimCachedBlock (L : pool.Ledger own) {b : ℕ} (hb : b < pool.blocks.length) :
    (pool.claimCachedBlock b).Ledger (Function.update own b (own b + 1)) ∧
      SameContent pool (pool.claimCachedBlock b) ∧
      (pool.claimCachedBlock b).freeBlockIds = pool.freeBlockIds.filter (· ≠ b) := by
  have hat := pool.claimCachedBlock_blockAt b hb
  have hfree := L.claimCachedBlock_freeBlockIds b
  have hlength := pool.claimCachedBlock_length b
  refine ⟨⟨fun c => ?_, ?_, fun c => ?_, fun c => ?_⟩, ⟨pool.claimCachedBlock_blockSize b,
    hlength, pool.claimCachedBlock_prefixCacheEnabled b, fun c => ?_, fun c => ?_, fun c => ?_,
    pool.claimCachedBlock_hashToBlockId b⟩, hfree⟩
  · rw [hat c]
    by_cases hc : c = b
    · subst hc
      by_cases hown : own c = 0 <;> simp [L.mem_used, L.refCount, hown]
    · simp [hc, L.refCount]
  · rw [hfree]
    exact L.nodup_free.filter _
  · rw [hfree, hlength]
    by_cases hc : c = b
    · subst hc; simp
    · simp [L.mem_free, hc]
  · rw [pool.claimCachedBlock_usedBlockIds b, Finset.mem_insert, L.mem_used]
    by_cases hc : c = b
    · subst hc; simp
    · simp [hc]
  all_goals
    rw [hat c]
    split <;> simp_all

/-- Sharing a list of distinct cached blocks gives each of them one more holder. -/
theorem claimCachedBlocks {blockIds : List ℕ} :
    ∀ {pool : BlockPool} {own : ℕ → ℕ}, pool.Ledger own →
      (∀ b ∈ blockIds, b < pool.blocks.length) → blockIds.Nodup →
      (blockIds.foldl BlockPool.claimCachedBlock pool).Ledger
          (fun b => own b + if b ∈ blockIds then 1 else 0) ∧
        SameContent pool (blockIds.foldl BlockPool.claimCachedBlock pool) ∧
        (blockIds.foldl BlockPool.claimCachedBlock pool).freeBlockIds =
          pool.freeBlockIds.filter (· ∉ blockIds) := by
  induction blockIds with
  | nil => intro pool own L _ _; exact ⟨L.congr fun b => by simp, .refl pool, by simp⟩
  | cons b rest ih =>
    intro pool own L hlt hnodup
    rw [List.nodup_cons] at hnodup
    obtain ⟨L₁, hsame, hfree⟩ := L.claimCachedBlock (hlt b List.mem_cons_self)
    obtain ⟨L₂, hsame', hfree'⟩ := ih L₁
      (fun c hc => by rw [hsame.length]; exact hlt c (List.mem_cons_of_mem _ hc)) hnodup.2
    refine ⟨L₂.congr fun c => ?_, hsame.trans hsame', ?_⟩
    · by_cases hc : c = b
      · subst hc; simp [hnodup.1]
      · simp [hc]
    · rw [List.foldl_cons, hfree', hfree, List.filter_filter]
      congr 1
      funext c
      by_cases hc : c = b <;> simp [hc]

/-! ### Releasing references -/

theorem releaseBlock (L : pool.Ledger own) {b : ℕ} (counts : ℕ → ℕ) (hb : own b ≠ 0) :
    (BlockPool.releaseBlock counts pool b).Ledger (Function.update own b (own b - counts b)) ∧
      SameContent pool (BlockPool.releaseBlock counts pool b) := by
  have hlt := L.lt_length hb
  have hnotfree := L.notMem_free_of_own hb
  have hat := pool.releaseBlock_blockAt counts b hlt
  have hlength := pool.releaseBlock_length counts b
  obtain ⟨hfree, hused⟩ := pool.releaseBlock_eq counts b hlt
  obtain ⟨hsize, henabled, hindex⟩ := pool.releaseBlock_config counts b
  rw [L.refCount] at hfree hused
  refine ⟨⟨fun c => ?_, ?_, fun c => ?_, fun c => ?_⟩,
    ⟨hsize, hlength, henabled, fun c => ?_, fun c => ?_, fun c => ?_, hindex⟩⟩
  · rw [hat c]
    by_cases hc : c = b
    · subst hc; simp [L.refCount]
    · simp [hc, L.refCount]
  · rw [hfree]
    split
    · exact L.nodup_free.append (by simp) (by simpa using hnotfree)
    · exact L.nodup_free
  · rw [hfree, hlength]
    by_cases hc : c = b
    · subst hc
      split <;> simp_all [Nat.sub_eq_zero_iff_le]
    · split <;> simp [L.mem_free, hc]
  · rw [hused]
    by_cases hc : c = b
    · subst hc
      split <;> simp_all [L.mem_used, Nat.sub_eq_zero_iff_le]
    · split <;> simp [L.mem_used, hc]
  all_goals
    rw [hat c]
    split <;> simp_all

/-- Releasing a list of distinct blocks takes the given number of holders from each of them. -/
theorem releaseBlocks {blockIds : List ℕ} :
    ∀ {pool : BlockPool} {own : ℕ → ℕ}, pool.Ledger own → ∀ counts : ℕ → ℕ, (∀ b ∈ blockIds, own b ≠ 0) →
      blockIds.Nodup →
      (blockIds.foldl (BlockPool.releaseBlock counts) pool).Ledger
          (fun b => own b - if b ∈ blockIds then counts b else 0) ∧
        SameContent pool (blockIds.foldl (BlockPool.releaseBlock counts) pool) := by
  induction blockIds with
  | nil => intro pool own L _ _ _; exact ⟨L.congr fun b => by simp, .refl pool⟩
  | cons b rest ih =>
    intro pool own L counts hown hnodup
    rw [List.nodup_cons] at hnodup
    obtain ⟨L₁, hsame⟩ := L.releaseBlock counts (hown b List.mem_cons_self)
    obtain ⟨L₂, hsame'⟩ := ih L₁ counts (fun c hc => by
      have hne : c ≠ b := fun h => hnodup.1 (h ▸ hc)
      simpa [hne] using hown c (List.mem_cons_of_mem _ hc)) hnodup.2
    refine ⟨L₂.congr fun c => ?_, hsame.trans hsame'⟩
    by_cases hc : c = b
    · subst hc; simp [hnodup.1]
    · simp [hc]

end Ledger

end BlockPool

end VllmOxide
