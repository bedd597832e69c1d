import VllmOxide.Library.Lists
import VllmOxide.Pool.Invariant

/-!
# The operations of the block pool

One lemma for each operation that the scheduler calls: under the invariant of the pool the
operation succeeds, and its result satisfies the invariant of the changed holders.

## Main results

* `BlockPool.Invariant.allocate`: when `canAllocate` finds room, `allocate` succeeds.
* `BlockPool.Invariant.hashBlocks`: `hashBlocks` indexes the blocks that its tokens fill.
-/

namespace VllmOxide

namespace BlockPool

variable [HashFunction]

/-- What the walk over a sequence carries from the block before block `i`. -/
def parentHash : Option PrefixCacheIdentity → ℤ
  | none => -1
  | some identity => identity.chainHash

end BlockPool

namespace Holder

/-- The identity of the block before block `i`. -/
def parent (h : Holder) : ℕ → Option PrefixCacheIdentity
  | 0 => none
  | i + 1 => some (h.identity i)

theorem extend_parent (h : Holder) (i : ℕ) :
    PrefixCacheIdentity.extend (h.parent i) (chunk h.tokenIds i) = h.identity i := by
  cases i <;> rfl

theorem computeHash_parent [HashFunction] (h : Holder) (i : ℕ) :
    computeHash (chunk h.tokenIds i) (BlockPool.parentHash (h.parent i)) =
      (h.identity i).chainHash := by
  cases i <;> rfl

end Holder

namespace BlockPool

variable [HashFunction]

namespace Invariant

variable {pool pool' : BlockPool} {h : Holder} {hs : List Holder}

/-! ### Indexing -/

/-- The index loop from block `i` on, with the hash and identity of the block before it. -/
theorem hashBlocksFrom {seq : Sequence} (hlen : seq.numTokens = seq.tokenIds.length)
    (count : ℕ) :
    ∀ {i c : ℕ} {pool : BlockPool},
      pool.Invariant ({ seq.holder with numCachedTokens := c } :: hs) →
      pool.prefixCacheEnabled = true → BLOCK_SIZE * i ≤ c → c < BLOCK_SIZE * (i + 1) →
      BLOCK_SIZE * (i + count) ≤ seq.numTokens → i + count ≤ seq.blockTable.length →
      ∃ c', BLOCK_SIZE * (i + count) ≤ c' ∧ c' < BLOCK_SIZE * (i + count + 1) ∧
        (BlockPool.hashBlocksFrom seq count i (parentHash (seq.holder.parent i))
          (seq.holder.parent i) pool).Invariant
            ({ seq.holder with numCachedTokens := c' } :: hs) := by
  induction count with
  | zero => intro i c pool I _ hlow hhigh _ _; exact ⟨c, hlow, hhigh, I⟩
  | succ count ih =>
    intro i c pool I henabled hlow hhigh hfull htable
    have hi : i < seq.blockTable.length := by omega
    have hfulli : BLOCK_SIZE * (i + 1) ≤ seq.numTokens := by
      simp only [BLOCK_SIZE] at *
      omega
    have hblock : seq.block i = chunk seq.holder.tokenIds i := Sequence.block_eq_chunk hfulli
    have hget : seq.blockTable.getD i 0 = seq.blockTable[i] := by
      simp [List.getD_eq_getElem?_getD, hi]
    rw [BlockPool.hashBlocksFrom, hget, hblock, Holder.computeHash_parent, Holder.extend_parent]
    have I' := I.publish (i := i) (b := seq.blockTable[i]) (List.getElem?_eq_getElem hi) henabled
      hlow (not_le.mpr hhigh) (hlen ▸ hfulli)
    have hfields := publishBlock_fields pool seq.blockTable[i] (seq.holder.identity i).chainHash
      (chunk seq.holder.tokenIds i) (seq.holder.identity i)
    obtain ⟨c', hlow', hhigh', I''⟩ := ih (i := i + 1) I' (hfields.2.2.2.1.trans henabled)
      (le_refl _) (by simp only [BLOCK_SIZE]; omega)
      (by rwa [show i + 1 + count = i + (count + 1) by omega]) (by omega)
    rw [show i + 1 + count = i + (count + 1) by omega] at hlow' hhigh'
    exact ⟨c', hlow', hhigh', I''⟩

omit [HashFunction] in
/-- `getD` in range. -/
theorem getD_blockTable {seq : Sequence} {i : ℕ} (hi : i < seq.blockTable.length) :
    seq.blockTable.getD i 0 = seq.blockTable[i] := by
  simp [List.getD_eq_getElem?_getD, hi]

/-- **Index.** `hashBlocks` indexes the blocks filled by the scheduled tokens; after it these
tokens may be counted as cached. -/
theorem hashBlocks {seq : Sequence} (I : pool.Invariant (seq.holder :: hs))
    (hlen : seq.numTokens = seq.tokenIds.length)
    (hbound : seq.numCachedTokens + seq.numScheduledTokens ≤ seq.numTokens)
    (htable : seq.numCachedTokens + seq.numScheduledTokens ≤
      BLOCK_SIZE * seq.blockTable.length) :
    (pool.hashBlocks seq).Invariant
      ({ seq.holder with
          numCachedTokens := seq.numCachedTokens + seq.numScheduledTokens } :: hs) := by
  unfold BlockPool.hashBlocks
  split
  · rename_i hdisabled
    exact I.replace rfl (hlen ▸ hbound) fun i _ henabled => by simp [hdisabled] at henabled
  · rename_i hne
    have henabled : pool.prefixCacheEnabled = true := by simpa using hne
    simp only [I.blockSize]
    split
    · rename_i hstop
      -- no block is filled: the same blocks count as cached before and after
      refine I.replace rfl (hlen ▸ hbound) fun i _ _ => ⟨?_, fun _ => rfl⟩
      simp only [Holder.IsCached, Sequence.holder, BLOCK_SIZE] at *
      omega
    · rename_i hstop
      have hstart : seq.numCachedTokens / BLOCK_SIZE < seq.blockTable.length := by
        simp only [BLOCK_SIZE] at hstop htable ⊢
        omega
      have key : ∀ p, p = BlockPool.hashBlocksFrom seq
          ((seq.numCachedTokens + seq.numScheduledTokens) / BLOCK_SIZE -
            seq.numCachedTokens / BLOCK_SIZE) (seq.numCachedTokens / BLOCK_SIZE)
          (parentHash (seq.holder.parent (seq.numCachedTokens / BLOCK_SIZE)))
          (seq.holder.parent (seq.numCachedTokens / BLOCK_SIZE)) pool →
          p.Invariant ({ seq.holder with
            numCachedTokens := seq.numCachedTokens + seq.numScheduledTokens } :: hs) := by
        rintro p rfl
        obtain ⟨c', hlow, hhigh, I'⟩ := hashBlocksFrom hlen
          ((seq.numCachedTokens + seq.numScheduledTokens) / BLOCK_SIZE -
            seq.numCachedTokens / BLOCK_SIZE) (i := seq.numCachedTokens / BLOCK_SIZE)
          (c := seq.numCachedTokens) I henabled (by simp only [BLOCK_SIZE]; omega)
          (by simp only [BLOCK_SIZE]; omega)
          (by simp only [BLOCK_SIZE] at hstop hbound ⊢; omega)
          (by simp only [BLOCK_SIZE] at hstop htable ⊢; omega)
        refine I'.replace rfl (hlen ▸ hbound) fun i _ _ => ⟨?_, fun _ => rfl⟩
        simp only [Holder.IsCached, Sequence.holder, BLOCK_SIZE] at *
        omega
      split
      · rename_i hpos
        obtain ⟨j, hj⟩ : ∃ j, seq.numCachedTokens / BLOCK_SIZE = j + 1 :=
          ⟨_, (Nat.succ_pred_eq_of_pos hpos).symm⟩
        have hjlt : j < seq.blockTable.length := by omega
        -- the block before the first one to index is cached, so it carries its identity
        have hid : pool.identityAt seq.blockTable[j] = some (seq.holder.identity j) := by
          rw [I.cached seq.holder List.mem_cons_self j _ (List.getElem?_eq_getElem hjlt), if_pos]
          refine ⟨henabled, ?_⟩
          simp only [Holder.IsCached, Sequence.holder, BLOCK_SIZE] at *
          omega
        have hhash := (I.identities _ _ hid).2.2.1
        refine key _ ?_
        rw [hj, Nat.add_sub_cancel, getD_blockTable hjlt, hhash]
        exact congrArg (fun identity => BlockPool.hashBlocksFrom seq _ (j + 1) _ identity pool) hid
      · rename_i hzero
        refine key _ ?_
        rw [Nat.eq_zero_of_not_pos hzero]
        rfl

end Invariant

omit [HashFunction] in
/-- What indexing leaves alone: the ownership fields, the configuration, and the blocks outside
the table. -/
structure Indexes (table : List ℕ) (pool pool' : BlockPool) : Prop where
  free : pool'.freeBlockIds = pool.freeBlockIds
  used : pool'.usedBlockIds = pool.usedBlockIds
  blockSize : pool'.blockSize = pool.blockSize
  length : pool'.blocks.length = pool.blocks.length
  enabled : pool'.prefixCacheEnabled = pool.prefixCacheEnabled
  blockAt : ∀ b ∉ table, pool'.blockAt b = pool.blockAt b

omit [HashFunction] in
theorem Indexes.refl (table : List ℕ) (pool : BlockPool) : Indexes table pool pool :=
  ⟨rfl, rfl, rfl, rfl, rfl, fun _ _ => rfl⟩

theorem indexes_hashBlocksFrom {seq : Sequence} {count : ℕ} :
    ∀ {i : ℕ} {h : ℤ} (identity : Option PrefixCacheIdentity) {pool : BlockPool},
      i + count ≤ seq.blockTable.length → (∀ b ∈ seq.blockTable, b < pool.blocks.length) →
      Indexes seq.blockTable pool (hashBlocksFrom seq count i h identity pool) := by
  induction count with
  | zero => intros; exact .refl _ _
  | succ count ih =>
    intro i h identity pool hbound hlt
    have hi : i < seq.blockTable.length := by omega
    have hmem : seq.blockTable[i] ∈ seq.blockTable := List.getElem_mem hi
    simp only [hashBlocksFrom, Invariant.getD_blockTable hi]
    set h' := computeHash (seq.block i) h
    set identity' := PrefixCacheIdentity.extend identity (seq.block i)
    obtain ⟨hfree, hused, hsize, hen, hblocks⟩ :=
      Invariant.publishBlock_fields pool seq.blockTable[i] h' (seq.block i) identity'
    have hlength : (pool.publishBlock seq.blockTable[i] h' (seq.block i)
        identity').blocks.length = pool.blocks.length := by
      rw [hblocks, length_modifyBlock]
    have hrest := ih (i := i + 1) (h := h') (some identity') (by omega)
      (fun b hb => hlength.symm ▸ hlt b hb)
    refine ⟨hrest.free.trans hfree, hrest.used.trans hused, hrest.blockSize.trans hsize,
      hrest.length.trans hlength, hrest.enabled.trans hen, fun b hb => ?_⟩
    have hne : b ≠ seq.blockTable[i] := fun heq => hb (heq ▸ hmem)
    rw [hrest.blockAt b hb,
      Invariant.publishBlock_blockAt pool (hlt _ hmem) h' (seq.block i) identity', if_neg hne]

/-- Indexing touches the blocks of the sequence only. -/
theorem indexes_hashBlocks {seq : Sequence} {pool : BlockPool} (hsize : pool.blockSize = BLOCK_SIZE)
    (htable : seq.numCachedTokens + seq.numScheduledTokens ≤ BLOCK_SIZE * seq.blockTable.length)
    (hlt : ∀ b ∈ seq.blockTable, b < pool.blocks.length) :
    Indexes seq.blockTable pool (pool.hashBlocks seq) := by
  have hstop : (seq.numCachedTokens + seq.numScheduledTokens) / BLOCK_SIZE ≤
      seq.blockTable.length := by
    simp only [BLOCK_SIZE] at htable ⊢
    omega
  simp only [BlockPool.hashBlocks, hsize]
  split
  · exact .refl _ _
  · split
    · exact .refl _ _
    · split
      · exact indexes_hashBlocksFrom _ (by omega) hlt
      · exact indexes_hashBlocksFrom _ (by omega) hlt

namespace Invariant

variable {pool : BlockPool} {hs : List Holder}

/-! ### Allocation -/

/-- Taking `n` blocks from the free list for the newest holder. -/
theorem allocateNewBlocks {n : ℕ} :
    ∀ {pool : BlockPool} (seq : Sequence) {h : Holder}, pool.Invariant (h :: hs) →
      h.blockTable = seq.blockTable → h.numCachedTokens ≤ BLOCK_SIZE * h.blockTable.length →
      n ≤ pool.freeBlockIds.length →
      ∃ pool' fresh, BlockPool.allocateNewBlocks n (pool, seq) =
          .ok () (pool', { seq with blockTable := seq.blockTable ++ fresh }) ∧
        pool'.Invariant ({ h with blockTable := h.blockTable ++ fresh } :: hs) ∧
        pool.freeBlockIds = fresh ++ pool'.freeBlockIds ∧ fresh.length = n ∧
        NoNewContent pool pool' := by
  induction n with
  | zero =>
    intro pool seq h I _ _ _
    exact ⟨pool, [], by simp [BlockPool.allocateNewBlocks], by simpa using I, rfl, rfl,
      .refl pool⟩
  | succ n ih =>
    intro pool seq h I htable hroom hfree
    obtain ⟨b, rest, hb⟩ : ∃ b rest, pool.freeBlockIds = b :: rest :=
      List.exists_cons_of_ne_nil (fun heq => by simp [heq] at hfree)
    obtain ⟨pool₁, hrun, ht⟩ := I.ledger.allocateBlockPrivate hb
    obtain rfl : rest = pool₁.freeBlockIds := by simpa [hb] using ht.free
    obtain ⟨pool₂, fresh, hrun₂, I₂, hfree₂, hlen₂, hcontent⟩ := ih
      { seq with blockTable := seq.blockTable ++ [b] } (I.takeHead ht hroom)
      (by simp [htable]) (by
        simp only [List.length_append, List.length_singleton, BLOCK_SIZE] at *
        omega)
      (by simp only [hb, List.length_cons] at hfree; omega)
    refine ⟨pool₂, b :: fresh, ?_, by simpa using I₂, by simp [hb, ← hfree₂], by simp [hlen₂],
      (NoNewContent.takesHead ht).trans hcontent⟩
    simp only [BlockPool.allocateNewBlocks, hrun, hrun₂, List.append_assoc,
      List.singleton_append]

/-- The lookup that `canAllocate` relied on. -/
theorem of_canAllocate {seq : Sequence} {k : ℕ} (hpos : 0 < seq.numBlocks)
    (hcan : pool.canAllocate seq = some k) :
    k < seq.numBlocks ∧ (pool.cachedPrefixBlockIds seq k).length = k ∧
      seq.numBlocks ≤ pool.freeBlockIds.length +
        ((pool.cachedPrefixBlockIds seq k).filter (· ∈ pool.usedBlockIds)).length := by
  unfold BlockPool.canAllocate at hcan
  rw [if_neg hpos.ne'] at hcan
  split at hcan
  · split at hcan
    · obtain rfl : 0 = k := Option.some.inj hcan
      exact ⟨hpos, by simp [cachedPrefixBlockIds, cachedPrefixFrom], by
        simpa [cachedPrefixBlockIds, cachedPrefixFrom] using ‹seq.numBlocks ≤ _›⟩
    · cases hcan
  · dsimp only at hcan
    split at hcan
    · cases hcan
    · rename_i hroom
      have hk := Option.some.inj hcan
      have hle := length_cachedPrefixBlockIds_le pool seq (seq.numBlocks - 1)
      have htake := cachedPrefixBlockIds_take pool seq (k := k) (n := seq.numBlocks - 1) (by omega)
      rw [List.take_of_length_le (by omega)] at htake
      rw [htake]
      exact ⟨by omega, hk, by omega⟩

/-- The cached blocks of a lookup pass the check of `allocate`. -/
theorem checkCachedBlocks (I : pool.Invariant hs) (hsize : hs.length < USIZE_MAX)
    {blockIds : List ℕ} :
    ∀ seen : List ℕ, (∀ b ∈ blockIds, b < pool.blocks.length ∧ b ∉ seen) → blockIds.Nodup →
      pool.checkCachedBlocks seen blockIds = .ok () := by
  induction blockIds with
  | nil => intros; rfl
  | cons b rest ih =>
    intro seen hb hnodup
    obtain ⟨hlt, hseen⟩ := hb b List.mem_cons_self
    rw [List.nodup_cons] at hnodup
    have hrest := ih (b :: seen) (fun c hc => ⟨(hb c (List.mem_cons_of_mem _ hc)).1, by
      have hne : c ≠ b := fun heq => hnodup.1 (heq ▸ hc)
      simp [hne, (hb c (List.mem_cons_of_mem _ hc)).2]⟩) hnodup.2
    have href := I.ledger.refCount b
    rw [BlockPool.checkCachedBlocks, getElem?_blocks hlt]
    simp only [if_neg hseen]
    by_cases hused : b ∈ pool.usedBlockIds
    · have hown := (I.ledger.mem_used b).mp hused
      have hle := holders_le_length (tables hs) b
      rw [show (tables hs).length = hs.length from List.length_map _] at hle
      rw [if_pos hused, href, if_neg hown, checkedAdd_of_le (by omega)]
      exact hrest
    · have hown : holders (tables hs) b = 0 := by simpa [I.ledger.mem_used] using hused
      rw [if_neg hused, href, if_neg]
      · exact hrest
      · simp [hown, I.ledger.mem_free_of_notMem_used hlt hused]

theorem length_free_le_capacity (I : pool.Invariant hs) :
    pool.freeBlockIds.length ≤ pool.blocks.length := by
  rw [I.ledger.length_free]
  exact List.countP_le_length.trans (by simp)

/-- The checks of `allocate` pass when `canAllocate` finds room. -/
theorem allocateChecks (I : pool.Invariant hs) (hsize : hs.length < USIZE_MAX) {seq : Sequence}
    (htable : seq.blockTable = []) {k : ℕ} (hpos : 0 < seq.numBlocks)
    (hcan : pool.canAllocate seq = some k) :
    pool.allocateChecks seq k = .ok (pool.cachedPrefixBlockIds seq k) ∧
      seq.numBlocks - k ≤
        (pool.freeBlockIds.filter (· ∉ pool.cachedPrefixBlockIds seq k)).length := by
  obtain ⟨hk, hlen, hroom⟩ := of_canAllocate hpos hcan
  set hits := pool.cachedPrefixBlockIds seq k with hhits
  have hnodup : hits.Nodup := nodup_cachedPrefixBlockIds pool seq k
  have hlt : ∀ b ∈ hits, b < pool.blocks.length := fun b hb => lt_of_mem_cachedPrefixBlockIds hb
  have hcapacity := I.capacity
  have hfreele := I.length_free_le_capacity
  -- a hit is in use or free, so the hits split into the two counts of the code
  have hsplit := List.length_eq_length_filter_add (l := hits) fun b => decide (b ∈ pool.usedBlockIds)
  have hfreehits : (hits.filter (· ∉ pool.usedBlockIds)).length =
      (hits.filter (· ∈ pool.freeBlockIds)).length := by
    congr 1
    refine List.filter_congr fun b hb => decide_eq_decide.mpr ?_
    rw [I.ledger.mem_used b, I.ledger.mem_free b, not_not]
    exact ⟨fun hown => ⟨hlt b hb, hown⟩, fun hown => hown.2⟩
  have hfilter := length_filter_notMem_add I.ledger.nodup_free hnodup
  simp only [← decide_not] at hsplit
  have hnew : seq.numBlocks - k ≤ (pool.freeBlockIds.filter (· ∉ hits)).length := by
    omega
  refine ⟨?_, hnew⟩
  have hfree : ∀ b ∈ (pool.freeBlockIds.filter (· ∉ hits)).take (seq.numBlocks - k),
      b ∈ pool.freeBlockIds ∧ b ∉ ([] : List ℕ) := fun b hb =>
    ⟨List.mem_of_mem_filter (List.mem_of_mem_take hb), by simp⟩
  have hcheck := I.ledger.checkFreeBlocks hfree
    ((I.ledger.nodup_free.filter _).sublist (List.take_sublist _ _))
  unfold BlockPool.allocateChecks
  rw [if_neg (by simp [htable]), if_neg (by omega)]
  simp only [← hhits]
  rw [if_neg (by simp [hlen]), I.checkCachedBlocks hsize [] (fun b hb => ⟨hlt b hb, by simp⟩) hnodup]
  dsimp only
  rw [checkedAdd_of_le (by omega)]
  dsimp only
  rw [if_neg (by omega), if_neg (by simp only [List.length_take]; omega), hcheck]

/-- **Allocate.** When `canAllocate` finds room, `allocate` succeeds: the table starts with the
cached hits, which carry the sequence's own prefixes, and continues with at least one fresh block
that no other holder has. -/
theorem allocate (I : pool.Invariant hs) (hsize : hs.length < USIZE_MAX) {seq : Sequence}
    (htable : seq.blockTable = []) (hlen : seq.numTokens = seq.tokenIds.length) {k : ℕ}
    (hpos : 0 < seq.numBlocks) (hcan : pool.canAllocate seq = some k) :
    ∃ pool' fresh, BlockPool.allocate k (pool, seq) =
        .ok () (pool', { seq with
          blockTable := pool.cachedPrefixBlockIds seq k ++ fresh
          numCachedTokens := BLOCK_SIZE * k }) ∧
      (pool.cachedPrefixBlockIds seq k).length = k ∧ k + fresh.length = seq.numBlocks ∧
      k < seq.numBlocks ∧
      pool'.Invariant (⟨pool.cachedPrefixBlockIds seq k ++ fresh, BLOCK_SIZE * k, seq.tokenIds⟩ ::
        hs) ∧
      (∀ b ∈ fresh, ∀ h ∈ hs, b ∉ h.blockTable) ∧ NoNewContent pool pool' := by
  obtain ⟨hk, hhits, -⟩ := of_canAllocate hpos hcan
  obtain ⟨hchecks, hnew⟩ := I.allocateChecks hsize htable hpos hcan
  have hfull : ∀ i < k, BLOCK_SIZE * (i + 1) ≤ seq.numTokens := by
    intro i hi
    simp only [Sequence.numBlocks, BLOCK_SIZE] at *
    omega
  have hnodup := nodup_cachedPrefixBlockIds pool seq k
  have hlt : ∀ b ∈ pool.cachedPrefixBlockIds seq k, b < pool.blocks.length :=
    fun b hb => lt_of_mem_cachedPrefixBlockIds hb
  have I₁ := I.claim seq.tokenIds hnodup hlt
    (fun i b hb => by
      have hi : i < k := hhits ▸ (List.getElem?_eq_some_iff.mp hb).1
      rw [(identityAt_cachedPrefixBlockIds hb).2,
        Sequence.prefixIdentity_eq_ofTokens (hfull i hi)])
    (by
      rw [hhits]
      simp only [Sequence.numBlocks, BLOCK_SIZE] at *
      omega)
  obtain ⟨-, hsame, hfree₁⟩ := I.ledger.claimCachedBlocks hlt hnodup
  obtain ⟨pool₂, fresh, hrun, I₂, hfree₂, hcount, hcontent⟩ := allocateNewBlocks
    (n := seq.numBlocks - k)
    { seq with blockTable := seq.blockTable ++ pool.cachedPrefixBlockIds seq k } I₁ (by simp [htable]) (le_refl _) (by rw [hfree₁]; exact hnew)
  refine ⟨pool₂, fresh, ?_, hhits, by omega, hk, ?_, ?_,
    (NoNewContent.of_sameContent hsame).trans hcontent⟩
  · have hsize₂ : pool₂.blockSize = BLOCK_SIZE := I₂.blockSize
    simp only [BlockPool.allocate, hchecks]
    dsimp only [Sequence.numBlocks] at hrun ⊢
    rw [hrun]
    simp only [hsize₂, htable, List.nil_append, Nat.mul_comm k]
  · rw [hhits] at I₂
    exact I₂
  · intro b hb g hg hbg
    have hfree : b ∈ pool.freeBlockIds := by
      have hmem : b ∈ pool.freeBlockIds.filter (· ∉ pool.cachedPrefixBlockIds seq k) := by
        rw [← hfree₁, hfree₂]
        exact List.mem_append_left _ hb
      exact List.mem_of_mem_filter hmem
    exact holders_ne_zero hg hbg (I.ledger.own_of_mem_free hfree)

end Invariant

end BlockPool

end VllmOxide
