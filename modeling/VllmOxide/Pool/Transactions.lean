import VllmOxide.Library.Transaction
import VllmOxide.Library.Lists
import VllmOxide.Pool.PrefixIdentity

/-!
# Errors of the ownership operations

`allocate`, `deallocateBatch` and `mayAppendBatch` check a call before they change the pool, and
then run loops in which an access can still fail. This file says for arbitrary pools, in
whatever state their free list, used set and reference counts are, when these loops fail.

The loop that pops the free list succeeds exactly when the blocks it is going to pop are distinct
and free (`succeeds_allocateNewBlocks_iff`), which is what `checkFreeBlocks` checks. Between the
check and the loop, `allocate` takes its cached blocks. A cached block without holder leaves the
free list then; one in use does not, and the check skips it although the loop will meet it.

## Main definitions

* `BlockPool.deallocateBatchM`: `deallocateBatch` as a call on the pool and the sequences.
* `BlockPool.HandsOutHit`: the free list offers `allocate` one of its own cached blocks.

## Main results

* `BlockPool.succeeds_allocateNewBlocks_iff`: when the pop loop runs to its end.
* `BlockPool.transactional_operations`: which errors leave the pool and the sequences alone.
-/

namespace VllmOxide

namespace BlockPool

/-! ### The check of free blocks -/

/-- The block may be taken from the free list. -/
def IsFree (pool : BlockPool) (b : ℕ) : Prop :=
  b < pool.blocks.length ∧ (pool.blockAt b).refCount = 0 ∧ b ∉ pool.usedBlockIds

theorem validateFreeBlock_eq_ok_iff {pool : BlockPool} {b : ℕ} :
    pool.validateFreeBlock b = .ok () ↔ pool.IsFree b := by
  unfold validateFreeBlock IsFree
  by_cases hb : b < pool.blocks.length
  · rw [getElem?_blocks hb]
    dsimp only
    split
    · rename_i h
      simp only [reduceCtorEq, false_iff]
      rintro ⟨-, hzero, hused⟩
      exact h.elim (fun hne => hne hzero) hused
    · rename_i h
      simp only [not_or, not_not] at h
      simp [hb, h]
  · simp [hb]

theorem checkFreeBlocks_eq_ok_iff {pool : BlockPool} {blockIds : List ℕ} :
    ∀ {seen : List ℕ}, pool.checkFreeBlocks seen blockIds = .ok () ↔
      blockIds.Nodup ∧ ∀ b ∈ blockIds, b ∉ seen ∧ pool.IsFree b := by
  induction blockIds with
  | nil => intro seen; simp [checkFreeBlocks]
  | cons b rest ih =>
    intro seen
    rw [checkFreeBlocks, List.nodup_cons, List.forall_mem_cons]
    by_cases hseen : b ∈ seen
    · simp [hseen]
    · rw [if_neg hseen]
      by_cases hfree : pool.IsFree b
      · rw [validateFreeBlock_eq_ok_iff.mpr hfree]
        dsimp only
        rw [ih]
        constructor
        · rintro ⟨hnodup, hrest⟩
          refine ⟨⟨fun hb => (hrest b hb).1 List.mem_cons_self, hnodup⟩, ⟨hseen, hfree⟩,
            fun c hc => ⟨fun h => (hrest c hc).1 (List.mem_cons_of_mem _ h), (hrest c hc).2⟩⟩
        · rintro ⟨⟨hb, hnodup⟩, -, hrest⟩
          refine ⟨hnodup, fun c hc => ⟨fun h => ?_, (hrest c hc).2⟩⟩
          rcases List.mem_cons.mp h with rfl | h
          · exact hb hc
          · exact (hrest c hc).1 h
      · cases hvalid : pool.validateFreeBlock b with
        | ok u => exact absurd (validateFreeBlock_eq_ok_iff.mp hvalid) hfree
        | error error => simp [hfree]

/-! ### Popping the free list -/

/-- Popping a free block takes this block only: the others stay as free as they were. -/
theorem allocateBlockPrivate_of_isFree {pool : BlockPool} {b : ℕ} {rest : List ℕ}
    (hlist : pool.freeBlockIds = b :: rest) (hfree : pool.IsFree b) :
    ∃ pool', pool.allocateBlockPrivate = .ok (b, pool') ∧ pool'.freeBlockIds = rest ∧
      ∀ c, pool'.IsFree c ↔ c ≠ b ∧ pool.IsFree c := by
  have hat : ∀ base : BlockPool, base.blocks = pool.blocks →
      base.usedBlockIds = pool.usedBlockIds →
      ∀ c, ({ base.modifyBlock b Block.reset with
        usedBlockIds := insert b (base.modifyBlock b Block.reset).usedBlockIds } :
          BlockPool).IsFree c ↔ c ≠ b ∧ pool.IsFree c := by
    intro base hblocks hused c
    have hlt : b < base.blocks.length := by rw [hblocks]; exact hfree.1
    have hblock : ({ base.modifyBlock b Block.reset with
        usedBlockIds := insert b (base.modifyBlock b Block.reset).usedBlockIds } :
          BlockPool).blockAt c = if c = b then (base.blockAt b).reset else base.blockAt c :=
      blockAt_modifyBlock base b c Block.reset hlt
    have hlength : (base.modifyBlock b Block.reset).blocks.length = pool.blocks.length := by
      rw [length_modifyBlock, hblocks]
    have hmem : c ∈ insert b (base.modifyBlock b Block.reset).usedBlockIds ↔
        c = b ∨ c ∈ pool.usedBlockIds := by
      rw [Finset.mem_insert, ← hused]
      rfl
    simp only [IsFree, hblock]
    rw [hmem, show ({ base.modifyBlock b Block.reset with usedBlockIds := _ } :
      BlockPool).blocks.length = _ from hlength, blockAt_congr hblocks, blockAt_congr hblocks]
    by_cases hc : c = b <;> simp [hc]
  simp only [allocateBlockPrivate, hlist, validateFreeBlock_eq_ok_iff.mpr hfree]
  refine ⟨_, rfl, ?_, ?_⟩
  · dsimp only [modifyBlock]
    split <;> simp
  · split
    · exact hat _ (by simp) (by simp)
    · exact hat _ rfl rfl

theorem allocateBlockPrivate_of_not_isFree {pool : BlockPool} {b : ℕ} {rest : List ℕ}
    (hlist : pool.freeBlockIds = b :: rest) (hfree : ¬ pool.IsFree b) :
    ∃ error, pool.allocateBlockPrivate = .error error := by
  cases hvalid : pool.validateFreeBlock b with
  | ok u => exact absurd (validateFreeBlock_eq_ok_iff.mp hvalid) hfree
  | error error => exact ⟨error, by simp only [allocateBlockPrivate, hlist, hvalid]⟩

/-- The `n` blocks at the head of the free list are there, distinct and free. -/
def Offers (pool : BlockPool) (n : ℕ) : Prop :=
  n ≤ pool.freeBlockIds.length ∧ (pool.freeBlockIds.take n).Nodup ∧
    ∀ b ∈ pool.freeBlockIds.take n, pool.IsFree b

theorem offers_zero (pool : BlockPool) : pool.Offers 0 :=
  ⟨Nat.zero_le _, by simp, by simp⟩

/-- What a pop leaves to offer. -/
theorem offers_succ_iff {pool pool' : BlockPool} {b : ℕ} {rest : List ℕ} {n : ℕ}
    (hlist : pool.freeBlockIds = b :: rest) (hfree : pool.IsFree b)
    (hrest : pool'.freeBlockIds = rest) (hkeep : ∀ c, pool'.IsFree c ↔ c ≠ b ∧ pool.IsFree c) :
    pool.Offers (n + 1) ↔ pool'.Offers n := by
  unfold Offers
  rw [hlist, hrest, List.length_cons, List.take_succ_cons, List.nodup_cons, List.forall_mem_cons,
    Nat.succ_le_succ_iff]
  simp only [hkeep]
  constructor
  · rintro ⟨hn, ⟨hb, hnodup⟩, -, hall⟩
    exact ⟨hn, hnodup, fun c hc => ⟨fun heq => hb (heq ▸ hc), hall c hc⟩⟩
  · rintro ⟨hn, hnodup, hall⟩
    exact ⟨hn, ⟨fun hb => (hall b hb).1 rfl, hnodup⟩, hfree, fun c hc => (hall c hc).2⟩

/-- **The pop loop.** It succeeds exactly when the free list offers as many blocks; with an error
it keeps the blocks that the table had. -/
theorem succeeds_allocateNewBlocks_iff {n : ℕ} :
    ∀ {pool : BlockPool} (seq : Sequence),
      Succeeds (allocateNewBlocks n) (pool, seq) ↔ pool.Offers n := by
  induction n with
  | zero => exact fun {pool} seq => ⟨fun _ => pool.offers_zero, fun _ => ⟨(), (pool, seq), rfl⟩⟩
  | succ n ih =>
    intro pool seq
    cases hlist : pool.freeBlockIds with
    | nil =>
      have hfail : allocateNewBlocks (n + 1) (pool, seq) =
          .error ⟨"no free blocks available"⟩ (pool, seq) := by
        simp only [allocateNewBlocks, allocateBlockPrivate, hlist]
      refine ⟨fun hsucceeds => ?_, fun h => ?_⟩
      · obtain ⟨a, s', h⟩ := hsucceeds
        rw [hfail] at h
        cases h
      · simp [Offers, hlist] at h
    | cons b rest =>
      by_cases hfree : pool.IsFree b
      · obtain ⟨pool', hrun, hrest, hkeep⟩ := allocateBlockPrivate_of_isFree hlist hfree
        rw [offers_succ_iff hlist hfree hrest hkeep]
        refine Iff.trans ?_ (ih { seq with blockTable := seq.blockTable ++ [b] })
        simp only [Succeeds, allocateNewBlocks, hrun]
      · obtain ⟨error, hrun⟩ := allocateBlockPrivate_of_not_isFree hlist hfree
        refine ⟨fun hsucceeds => ?_, fun h => ?_⟩
        · obtain ⟨a, s', h⟩ := hsucceeds
          simp only [allocateNewBlocks, hrun] at h
          cases h
        · exact absurd (h.2.2 b (by simp [hlist])) hfree

theorem prefix_of_allocateNewBlocks {n : ℕ} :
    ∀ {pool pool' : BlockPool} {seq seq' : Sequence} {error : BlockPoolError},
      allocateNewBlocks n (pool, seq) = .error error (pool', seq') →
      seq.blockTable <+: seq'.blockTable := by
  induction n with
  | zero => intro pool pool' seq seq' error h; cases h
  | succ n ih =>
    intro pool pool' seq seq' error h
    simp only [allocateNewBlocks] at h
    split at h
    · cases h
      exact List.prefix_rfl
    · exact (List.prefix_append _ _).trans (ih h)

/-! ### Taking cached blocks -/

theorem claimCachedBlock_freeBlockIds (pool : BlockPool) (b : ℕ) :
    (pool.claimCachedBlock b).freeBlockIds =
      pool.freeBlockIds.filter fun c => ¬ (c = b ∧ b ∉ pool.usedBlockIds) := by
  unfold claimCachedBlock
  split
  · rename_i hused
    simp [modifyBlock, hused]
  · rename_i hused
    simp [modifyBlock, hused]

theorem isFree_claimCachedBlock {pool : BlockPool} {b : ℕ} (hb : b < pool.blocks.length) (c : ℕ) :
    (pool.claimCachedBlock b).IsFree c ↔ c ≠ b ∧ pool.IsFree c := by
  simp only [IsFree, claimCachedBlock_length, claimCachedBlock_blockAt pool b hb,
    claimCachedBlock_usedBlockIds, Finset.mem_insert, not_or]
  by_cases hc : c = b <;> simp [hc]

/-- Taking distinct cached blocks: those without holder leave the free list, and none of them is
free afterwards. -/
theorem claimCachedBlocks {hits : List ℕ} :
    ∀ {pool : BlockPool}, hits.Nodup → (∀ b ∈ hits, b < pool.blocks.length) →
      (hits.foldl claimCachedBlock pool).freeBlockIds =
          pool.freeBlockIds.filter (fun b => ¬ (b ∈ hits ∧ b ∉ pool.usedBlockIds)) ∧
        ∀ c, (hits.foldl claimCachedBlock pool).IsFree c ↔ c ∉ hits ∧ pool.IsFree c := by
  induction hits with
  | nil => intro pool _ _; simp
  | cons b rest ih =>
    intro pool hnodup hlt
    obtain ⟨hb, hnodup⟩ := List.nodup_cons.mp hnodup
    have hlt' : ∀ c ∈ rest, c < (pool.claimCachedBlock b).blocks.length := fun c hc => by
      rw [claimCachedBlock_length]
      exact hlt c (List.mem_cons_of_mem _ hc)
    obtain ⟨hfree, hkeep⟩ := ih hnodup hlt'
    rw [List.foldl_cons]
    refine ⟨?_, fun c => ?_⟩
    · rw [hfree, claimCachedBlock_freeBlockIds, List.filter_filter]
      refine List.filter_congr fun c _ => ?_
      rw [claimCachedBlock_usedBlockIds, ← Bool.decide_and]
      refine decide_eq_decide.mpr ?_
      rw [Finset.mem_insert, List.mem_cons]
      by_cases hc : c = b
      · subst hc
        simp [hb]
      · simp [hc]
    · rw [hkeep, isFree_claimCachedBlock (hlt b List.mem_cons_self), List.mem_cons, not_or]
      tauto

/-! ### Appending -/

/-- The sequences of a batch that need a block. -/
def needing (seqs : List Sequence) : List Sequence :=
  seqs.filter fun seq => seq.numBlocks - seq.blockTable.length = 1

theorem eq_needing_of_appendIndices {seqs : List Sequence} :
    ∀ {found : List Sequence}, appendIndices seqs = .ok found → found = needing seqs := by
  induction seqs with
  | nil =>
    intro found h
    cases h
    rfl
  | cons seq rest ih =>
    intro found h
    simp only [appendIndices] at h
    split at h
    · cases h
    · split at h
      · cases h
      · split at h
        · cases h
        · rename_i found' hrest
          obtain rfl := Except.ok.inj h
          rw [ih hrest, needing, needing, List.filter_cons]
          simp only [decide_eq_true_eq]

/-- The append loop succeeds when the free list offers a block for every sequence that needs
one. -/
theorem succeeds_appendBlocks {seqs : List Sequence} :
    ∀ {pool : BlockPool} (done : List Sequence), pool.Offers (needing seqs).length →
      Succeeds (appendBlocks seqs) (pool, done) := by
  induction seqs with
  | nil => exact fun {pool} done _ => ⟨(), (pool, done), rfl⟩
  | cons seq rest ih =>
    intro pool done hoffers
    unfold Succeeds
    rw [appendBlocks]
    by_cases hone : seq.numBlocks - seq.blockTable.length = 1
    · rw [needing, List.filter_cons_of_pos (by simpa using hone), List.length_cons] at hoffers
      cases hlist : pool.freeBlockIds with
      | nil => simp [Offers, hlist] at hoffers
      | cons b tail =>
        have hfree : pool.IsFree b := hoffers.2.2 b (by simp [hlist])
        obtain ⟨pool', hrun, hrest, hkeep⟩ := allocateBlockPrivate_of_isFree hlist hfree
        simp only [hone, if_true, hrun]
        exact ih _ ((offers_succ_iff hlist hfree hrest hkeep).mp hoffers)
    · rw [needing, List.filter_cons_of_neg (by simpa using hone)] at hoffers
      simp only [hone, if_false]
      exact ih _ hoffers

/-- **Appending.** An error of `mayAppendBatch` leaves the pool and the sequences alone. -/
theorem transactional_mayAppendBatch (pool : BlockPool) (seqs : List Sequence) :
    Transactional mayAppendBatch (pool, seqs) := by
  cases hindices : appendIndices seqs with
  | error error => exact .of_check ⟨error, by simp only [mayAppendBatch, hindices]⟩
  | ok found =>
    by_cases hroom : pool.freeBlockIds.length < found.length
    · exact .of_check ⟨⟨"no free blocks available"⟩, by
        simp only [mayAppendBatch, hindices, hroom, if_true]⟩
    · cases hcheck : pool.checkFreeBlocks [] (pool.freeBlockIds.take found.length) with
      | error error =>
        exact .of_check ⟨error, by simp only [mayAppendBatch, hindices, hroom, if_false, hcheck]⟩
      | ok u =>
        obtain ⟨hnodup, hfree⟩ := checkFreeBlocks_eq_ok_iff.mp hcheck
        have hoffers : pool.Offers (needing seqs).length := by
          rw [← eq_needing_of_appendIndices hindices]
          exact ⟨not_lt.mp hroom, hnodup, fun b hb => (hfree b hb).2⟩
        obtain ⟨_, state, hrun⟩ := succeeds_appendBlocks [] hoffers
        exact .of_succeeds ⟨(), state, by
          simp only [mayAppendBatch, hindices, hroom, if_false, hcheck, hrun]⟩

/-! ### Releasing -/

/-- The mutation loop of `deallocateBatch` with its accesses: it indexes the block vector and
subtracts from the reference counts, and both can fail in general. -/
def releaseBlocksM (counts : ℕ → ℕ) : List ℕ → EStateM BlockPoolError BlockPool Unit
  | [], pool => .ok () pool
  | blockId :: rest, pool =>
    match pool.blocks[blockId]? with
    | none => .error ⟨"index out of bounds"⟩ pool
    | some block =>
      if block.refCount < counts blockId then .error ⟨"attempt to subtract with overflow"⟩ pool
      else releaseBlocksM counts rest (releaseBlock counts pool blockId)

/-- `deallocateBatch` as a call on the pool and the passed sequences. -/
def deallocateBatchM : EStateM BlockPoolError (BlockPool × List Sequence) Unit
  | (pool, seqs) =>
    match countReleases seqs ⟨fun _ => 0, []⟩ with
    | .error error => .error error (pool, seqs)
    | .ok releases =>
      match pool.checkReleases releases.counts releases.order with
      | .error error => .error error (pool, seqs)
      | .ok () =>
        match releaseBlocksM releases.counts releases.order pool with
        | .error error pool => .error error (pool, seqs)
        | .ok () pool => .ok () (pool, seqs.map released)

/-- The release order names each block once. -/
theorem nodup_order_of_countTable {seqId : ℕ} {table : List ℕ} :
    ∀ {seen : List ℕ} {releases releases' : Releases}, releases.order.Nodup →
      countTable seqId seen table releases = .ok releases' → releases'.order.Nodup := by
  induction table with
  | nil =>
    intro seen releases releases' hnodup h
    cases h
    exact hnodup
  | cons b rest ih =>
    intro seen releases releases' hnodup h
    simp only [countTable] at h
    split at h
    · cases h
    · split at h
      · cases h
      · refine ih ?_ h
        dsimp only
        split
        · exact hnodup
        · exact hnodup.append (List.nodup_singleton b) (by simpa using ‹_›)

theorem nodup_order_of_countReleases {seqs : List Sequence} :
    ∀ {releases releases' : Releases}, releases.order.Nodup →
      countReleases seqs releases = .ok releases' → releases'.order.Nodup := by
  induction seqs with
  | nil =>
    intro releases releases' hnodup h
    cases h
    exact hnodup
  | cons seq rest ih =>
    intro releases releases' hnodup h
    rw [countReleases] at h
    split at h
    · cases h
    · exact ih (nodup_order_of_countTable hnodup ‹_›) h

/-- The blocks that pass the checks of `deallocateBatch` have enough references to give up. -/
theorem of_checkReleases {pool : BlockPool} {counts : ℕ → ℕ} {order : List ℕ}
    (h : pool.checkReleases counts order = .ok ()) :
    ∀ b ∈ order, b < pool.blocks.length ∧ counts b ≤ (pool.blockAt b).refCount := by
  induction order with
  | nil => simp
  | cons b rest ih =>
    rw [checkReleases] at h
    split at h
    · cases h
    · rename_i block hblock
      split at h
      · cases h
      · split at h
        · cases h
        · rename_i hle
          split at h
          · cases h
          · have hb : b < pool.blocks.length := (List.getElem?_eq_some_iff.mp hblock).1
            rw [getElem?_blocks hb] at hblock
            obtain rfl := Option.some.inj hblock
            exact List.forall_mem_cons.mpr ⟨⟨hb, not_lt.mp hle⟩, ih h⟩

/-- The release loop over distinct checked blocks runs to its end. -/
theorem releaseBlocksM_eq {counts : ℕ → ℕ} {order : List ℕ} :
    ∀ {pool : BlockPool}, order.Nodup →
      (∀ b ∈ order, b < pool.blocks.length ∧ counts b ≤ (pool.blockAt b).refCount) →
      releaseBlocksM counts order pool = .ok () (order.foldl (releaseBlock counts) pool) := by
  induction order with
  | nil => exact fun _ _ => rfl
  | cons b rest ih =>
    intro pool hnodup hall
    obtain ⟨hb, hnodup⟩ := List.nodup_cons.mp hnodup
    obtain ⟨hlt, hle⟩ := hall b List.mem_cons_self
    rw [releaseBlocksM, getElem?_blocks hlt]
    simp only [not_lt.mpr hle, if_false, List.foldl_cons]
    refine ih hnodup fun c hc => ?_
    have hne : c ≠ b := fun heq => hb (heq ▸ hc)
    rw [releaseBlock_length, releaseBlock_blockAt pool counts b hlt, if_neg hne]
    exact hall c (List.mem_cons_of_mem _ hc)

/-- The release loop of `deallocateBatch` never fails. -/
theorem deallocateBatchM_eq (pool : BlockPool) (seqs : List Sequence) :
    deallocateBatchM (pool, seqs) =
      match pool.deallocateBatch seqs with
      | .error error => .error error (pool, seqs)
      | .ok state => .ok () state := by
  cases hcount : countReleases seqs ⟨fun _ => 0, []⟩ with
  | error error => simp only [deallocateBatchM, deallocateBatch, hcount]
  | ok releases =>
    cases hcheck : pool.checkReleases releases.counts releases.order with
    | error error => simp only [deallocateBatchM, deallocateBatch, hcount, hcheck]
    | ok u =>
      have hloop := releaseBlocksM_eq (nodup_order_of_countReleases List.nodup_nil hcount)
        (of_checkReleases hcheck)
      simp only [deallocateBatchM, deallocateBatch, hcount, hcheck, hloop]

/-- **Releasing.** An error of `deallocateBatch` leaves the pool and the sequences alone. -/
theorem transactional_deallocateBatchM (pool : BlockPool) (seqs : List Sequence) :
    Transactional deallocateBatchM (pool, seqs) := by
  cases hrun : pool.deallocateBatch seqs with
  | error error => exact .of_check ⟨error, by rw [deallocateBatchM_eq, hrun]⟩
  | ok state => exact .of_succeeds ⟨(), state, by rw [deallocateBatchM_eq, hrun]⟩

/-! ### Allocation -/

variable [HashFunction]

/-- What the checks of `allocate` have found when they pass. -/
theorem of_allocateChecks {pool : BlockPool} {seq : Sequence} {k : ℕ} {hits : List ℕ}
    (h : pool.allocateChecks seq k = .ok hits) :
    seq.blockTable = [] ∧ k ≤ seq.numBlocks ∧ hits = pool.cachedPrefixBlockIds seq k ∧
      hits.length = k ∧
      seq.numBlocks - k ≤ (pool.freeBlockIds.filter (· ∉ hits)).length ∧
      ((pool.freeBlockIds.filter (· ∉ hits)).take (seq.numBlocks - k)).Nodup ∧
      ∀ b ∈ (pool.freeBlockIds.filter (· ∉ hits)).take (seq.numBlocks - k), pool.IsFree b := by
  unfold allocateChecks at h
  split at h
  · cases h
  · rename_i htable
    split at h
    · cases h
    · rename_i hk
      dsimp only at h
      split at h
      · cases h
      · rename_i hlength
        split at h
        · cases h
        · split at h
          · cases h
          · split at h
            · cases h
            · split at h
              · cases h
              · rename_i hnew
                split at h
                · cases h
                · rename_i hcheck
                  obtain rfl := Except.ok.inj h
                  obtain ⟨hnodup, hfree⟩ := checkFreeBlocks_eq_ok_iff.mp hcheck
                  rw [List.length_take] at hnew
                  exact ⟨not_not.mp htable, not_lt.mp hk, rfl, not_not.mp hlength, by omega,
                    hnodup, fun b hb => (hfree b hb).2⟩

/-- The free list offers `allocate` one of the cached blocks that it has just taken: the checks
pass, and after the cached blocks without holder have left the free list, one of the cached blocks
in use is among the blocks that the loop is going to pop. -/
def HandsOutHit (pool : BlockPool) (seq : Sequence) (numCachedBlocks : ℕ) : Prop :=
  let hits := pool.cachedPrefixBlockIds seq numCachedBlocks
  pool.allocateChecks seq numCachedBlocks = .ok hits ∧
    ∃ b ∈ (pool.freeBlockIds.filter fun b => ¬ (b ∈ hits ∧ b ∉ pool.usedBlockIds)).take
      (seq.numBlocks - numCachedBlocks), b ∈ hits

/-- After the checks of `allocate`, the pool with the cached blocks taken offers the missing
blocks unless it hands out one of the cached ones. -/
theorem offers_claimCachedBlocks_iff {pool : BlockPool} {seq : Sequence} {k : ℕ} {hits : List ℕ}
    (h : pool.allocateChecks seq k = .ok hits) :
    (hits.foldl claimCachedBlock pool).Offers (seq.numBlocks - k) ↔
      ∀ b ∈ (pool.freeBlockIds.filter fun b => ¬ (b ∈ hits ∧ b ∉ pool.usedBlockIds)).take
        (seq.numBlocks - k), b ∉ hits := by
  obtain ⟨-, -, hhits, -, hroom, hnodup, hfree⟩ := of_allocateChecks h
  have hdistinct : hits.Nodup := hhits ▸ nodup_cachedPrefixBlockIds pool seq k
  have hrange : ∀ b ∈ hits, b < pool.blocks.length := fun b hb =>
    lt_of_mem_cachedPrefixBlockIds (hhits ▸ hb)
  obtain ⟨hlist, hkeep⟩ := claimCachedBlocks hdistinct hrange
  set left := pool.freeBlockIds.filter fun b => ¬ (b ∈ hits ∧ b ∉ pool.usedBlockIds) with hleft
  -- the blocks that the check looked at are the blocks left without the cached ones
  have hcheck : pool.freeBlockIds.filter (· ∉ hits) = left.filter (· ∉ hits) := by
    rw [hleft, List.filter_filter]
    refine List.filter_congr fun b _ => ?_
    rw [← Bool.decide_and]
    exact decide_eq_decide.mpr ⟨fun hb => ⟨hb, fun hb' => hb hb'.1⟩, fun hb => hb.1⟩
  rw [hcheck] at hroom hnodup hfree
  unfold Offers
  rw [hlist]
  constructor
  · rintro ⟨-, -, hall⟩ b hb
    exact ((hkeep b).mp (hall b hb)).1
  · intro hnone
    have htake := take_filter_of_forall (p := (· ∉ hits)) (l := left) (n := seq.numBlocks - k)
      fun b hb => decide_eq_true (hnone b hb)
    rw [htake] at hnodup hfree
    exact ⟨hroom.trans (List.length_filter_le _ _), hnodup,
      fun b hb => (hkeep b).mpr ⟨hnone b hb, hfree b hb⟩⟩

/-- **Allocation.** An error of `allocate` leaves the pool and the sequence alone, except when the
free list offers one of the cached blocks. -/
theorem transactional_allocate_iff (pool : BlockPool) (seq : Sequence) (k : ℕ) :
    Transactional (allocate k) (pool, seq) ↔ ¬ pool.HandsOutHit seq k := by
  cases hchecks : pool.allocateChecks seq k with
  | error error =>
    refine ⟨fun _ h => ?_, fun _ => .of_check ⟨error, by simp only [allocate, hchecks]⟩⟩
    exact absurd (hchecks.symm.trans h.1) (by simp)
  | ok hits =>
    have hhits : hits = pool.cachedPrefixBlockIds seq k := (of_allocateChecks hchecks).2.2.1
    have hiff : pool.HandsOutHit seq k ↔ ¬ Succeeds (allocateNewBlocks (seq.numBlocks - k))
        (hits.foldl claimCachedBlock pool,
          { seq with blockTable := seq.blockTable ++ hits }) := by
      rw [succeeds_allocateNewBlocks_iff, offers_claimCachedBlocks_iff hchecks, HandsOutHit,
        ← hhits]
      simp only [hchecks, true_and, not_forall, not_not, exists_prop]
    have hnum : ({ seq with blockTable := seq.blockTable ++ hits } : Sequence).numBlocks =
      seq.numBlocks := rfl
    constructor
    · intro htrans hhands
      obtain ⟨error, ⟨pool', seq'⟩, hrun⟩ := exists_error_of_not_succeeds (hiff.mp hhands)
      have hsame := htrans error (pool', seq') (by simp only [allocate, hchecks, hnum, hrun])
      -- the failing loop has kept the cached blocks in the table
      obtain ⟨-, b, -, hhit⟩ := hhands
      have hunder := (prefix_of_allocateNewBlocks hrun).subset
        (List.mem_append_right seq.blockTable (hhits ▸ hhit))
      rw [congrArg (fun state => state.2.blockTable) hsame, (of_allocateChecks hchecks).1] at hunder
      cases hunder
    · intro hhands
      obtain ⟨u, ⟨pool', seq'⟩, hrun⟩ := not_not.mp (mt hiff.mpr hhands)
      exact .of_succeeds ⟨(), (pool', { seq' with numCachedTokens := k * pool'.blockSize }), by
        simp only [allocate, hchecks, hnum, hrun]⟩

/-- **Errors.** In every state of the pool, the errors of `deallocateBatch` and `mayAppendBatch`
leave the pool and the sequences alone, and those of `allocate` do so unless the free list offers
one of the cached blocks. -/
theorem transactional_operations (pool : BlockPool) (seqs : List Sequence) (seq : Sequence)
    (k : ℕ) :
    Transactional deallocateBatchM (pool, seqs) ∧ Transactional mayAppendBatch (pool, seqs) ∧
      (Transactional (allocate k) (pool, seq) ↔ ¬ pool.HandsOutHit seq k) :=
  ⟨pool.transactional_deallocateBatchM seqs, pool.transactional_mayAppendBatch seqs,
    pool.transactional_allocate_iff seq k⟩

omit [HashFunction] in
/-- A hash function for which all blocks collide. -/
@[reducible] def collidingHash : HashFunction where
  computeHash _ _ := 0

omit [HashFunction] in
/-- A pool whose cached block 0 is in use and also heads the free list. -/
def strayHit : BlockPool where
  blockSize := BLOCK_SIZE
  blocks := [⟨0, 1, 0, List.replicate 256 0, some (.root (List.replicate 256 0))⟩, Block.new 1]
  hashToBlockId := fun hash => if hash = 0 then some [0] else none
  freeBlockIds := [0, 1]
  usedBlockIds := {0}
  prefixCacheEnabled := true

omit [HashFunction] in
/-- With all hashes equal, the second block of a sequence that shares block 0 of `strayHit` is taken
from the head of the free list after block 0 has got its second reference. -/
theorem not_transactional_strayHit :
    letI := collidingHash
    ¬ Transactional (allocate 1)
      (strayHit, Sequence.new 0 0 (List.replicate 257 0) SamplingParams.default) := by
  let _ := collidingHash
  have hhands : strayHit.HandsOutHit
      (Sequence.new 0 0 (List.replicate 257 0) SamplingParams.default) 1 := by
    exact ⟨by decide +kernel, 0, by decide +kernel, by decide +kernel⟩
  exact fun h => (transactional_allocate_iff _ _ _).mp h hhands

end BlockPool

end VllmOxide
