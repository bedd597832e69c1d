import VllmOxide.Pool.PrefixIdentity
import VllmOxide.Pool.Release

/-!
# The invariant of the block pool

The pool sees a sequence through its `Holder`: the block table, the number of tokens already in
the cache and the token history. `BlockPool.Invariant pool hs` ties the pool to the list `hs` of
its holders:

* the ledger counts the holders of each block;
* block `i` of a table carries the identity of the holder's first `i + 1` blocks exactly when
  all their tokens are cached, and no identity otherwise;
* a block with two holders carries an identity, so the blocks still being filled are private;
* an identity consists of full blocks and comes with its own chained hash and tokens.

Each operation of the pool has one lemma about what it does to the invariant.

## Main results

* `BlockPool.Invariant.release`, `BlockPool.Invariant.takeHead`, `BlockPool.Invariant.claim`,
  `BlockPool.Invariant.hashBlocks`: release, append, share and index.
-/

namespace VllmOxide

/-- The pool's view of a sequence that owns blocks. -/
structure Holder where
  blockTable : List ℕ
  numCachedTokens : ℕ
  tokenIds : List Token

/-- The pool's view of a sequence. -/
def Sequence.holder (seq : Sequence) : Holder :=
  ⟨seq.blockTable, seq.numCachedTokens, seq.tokenIds⟩

namespace Holder

/-- The identity of the holder's first `i + 1` blocks. -/
def identity (h : Holder) (i : ℕ) : PrefixCacheIdentity :=
  .ofTokens h.tokenIds i

/-- The tokens of block `i` are all in the cache. -/
def IsCached (h : Holder) (i : ℕ) : Prop :=
  BLOCK_SIZE * (i + 1) ≤ h.numCachedTokens

instance (h : Holder) (i : ℕ) : Decidable (h.IsCached i) :=
  inferInstanceAs (Decidable (_ ≤ _))

end Holder

/-- The block tables of a list of holders. -/
def tables (hs : List Holder) : List (List ℕ) :=
  hs.map (·.blockTable)

@[simp] theorem tables_nil : tables [] = [] := rfl

@[simp] theorem tables_cons (h : Holder) (hs : List Holder) :
    tables (h :: hs) = h.blockTable :: tables hs := rfl

@[simp] theorem tables_append (hs hs' : List Holder) :
    tables (hs ++ hs') = tables hs ++ tables hs' :=
  List.map_append

theorem tables_map_holder (seqs : List Sequence) :
    tables (seqs.map Sequence.holder) = seqs.map (·.blockTable) := by
  simp [tables, Sequence.holder]

namespace BlockPool

variable [HashFunction]

/-- The pool together with the sequences that own its blocks. -/
structure Invariant (pool : BlockPool) (hs : List Holder) : Prop where
  ledger : pool.Ledger (holders (tables hs))
  blockSize : pool.blockSize = BLOCK_SIZE
  capacity : pool.blocks.length ≤ USIZE_MAX
  nodup : ∀ h ∈ hs, h.blockTable.Nodup
  cached_le : ∀ h ∈ hs, h.numCachedTokens ≤ h.tokenIds.length
  cached : ∀ h ∈ hs, ∀ i b, h.blockTable[i]? = some b → pool.identityAt b =
    if pool.prefixCacheEnabled = true ∧ h.IsCached i then some (h.identity i) else none
  shared : ∀ b, 2 ≤ holders (tables hs) b → pool.identityAt b ≠ none
  identities : ∀ b identity, pool.identityAt b = some identity →
    pool.prefixCacheEnabled = true ∧ identity.Full ∧
      (pool.blockAt b).hash = identity.chainHash ∧
      (pool.blockAt b).tokenIds = identity.tokenIds

namespace Invariant

variable {pool pool' : BlockPool} {h : Holder} {hs hs' : List Holder}

/-- The order of the holders is irrelevant. -/
theorem perm (I : pool.Invariant hs) (hp : hs.Perm hs') : pool.Invariant hs' where
  ledger := I.ledger.congr fun b => (holders_perm (hp.map _) b).symm
  blockSize := I.blockSize
  capacity := I.capacity
  nodup h hh := I.nodup h (hp.mem_iff.mpr hh)
  cached_le h hh := I.cached_le h (hp.mem_iff.mpr hh)
  cached h hh := I.cached h (hp.mem_iff.mpr hh)
  shared b hb := I.shared b (by rwa [show holders (tables hs) b = _ from holders_perm (hp.map _) b])
  identities := I.identities

/-- A fresh pool has no holder. -/
theorem newInner {numBlocks : ℕ} (hn : numBlocks ≤ USIZE_MAX) (enabled : Bool) :
    (BlockPool.newInner numBlocks BLOCK_SIZE enabled).Invariant [] where
  ledger := (Ledger.newInner numBlocks BLOCK_SIZE enabled).congr fun _ => rfl
  blockSize := rfl
  capacity := by simpa [BlockPool.newInner] using hn
  nodup := by simp
  cached_le := by simp
  cached := by simp
  shared := by simp
  identities b identity hb := by
    by_cases hlt : b < numBlocks <;>
      simp [identityAt, BlockPool.blockAt, BlockPool.newInner, Block.new, hlt] at hb

omit [HashFunction] in
theorem holders_ne_zero (hh : h ∈ hs) {b : ℕ} (hb : b ∈ h.blockTable) :
    holders (tables hs) b ≠ 0 :=
  (holders_pos_of_mem (List.mem_map_of_mem hh) hb).ne'

/-- A block without identity has at most one holder. -/
theorem holders_le_one (I : pool.Invariant hs) {b : ℕ} (hb : pool.identityAt b = none) :
    holders (tables hs) b ≤ 1 := by
  by_contra hlt
  exact I.shared b (by omega) hb

/-- Releasing some of the holders keeps the invariant of the others. -/
theorem of_sameContent (I : pool.Invariant (hs' ++ hs)) (hsame : SameContent pool pool')
    (L : pool'.Ledger (holders (tables hs))) : pool'.Invariant hs where
  ledger := L
  blockSize := hsame.blockSize.trans I.blockSize
  capacity := hsame.length ▸ I.capacity
  nodup h hh := I.nodup h (List.mem_append_right _ hh)
  cached_le h hh := I.cached_le h (List.mem_append_right _ hh)
  cached h hh i b hb := by
    rw [hsame.enabled, identityAt, hsame.identity]
    exact I.cached h (List.mem_append_right _ hh) i b hb
  shared b hb := by
    rw [identityAt, hsame.identity]
    exact I.shared b (by rw [tables_append, holders_append]; omega)
  identities b identity hb := by
    rw [identityAt, hsame.identity] at hb
    rw [hsame.enabled, hsame.hash, hsame.tokenIds]
    exact I.identities b identity hb

/-- **Release.** Giving back the tables of some holders succeeds and leaves the invariant of the
others. -/
theorem release {seqs : List Sequence} (I : pool.Invariant (seqs.map Sequence.holder ++ hs))
    (hlength : seqs.length ≤ USIZE_MAX) :
    ∃ pool', pool.deallocateBatch seqs = .ok (pool', seqs.map released) ∧
      pool'.Invariant hs ∧ SameContent pool pool' := by
  obtain ⟨pool', hrun, L, hsame⟩ := I.ledger.deallocateBatch seqs
    (fun seq hseq => I.nodup seq.holder (List.mem_append_left _ (List.mem_map_of_mem hseq)))
    hlength (fun b => by rw [tables_append, tables_map_holder, holders_append]; omega)
  refine ⟨pool', hrun, I.of_sameContent hsame (L.congr fun b => ?_), hsame⟩
  rw [tables_append, tables_map_holder, holders_append]
  omega

/-- Releasing one sequence. -/
theorem releaseOne {seq : Sequence} (I : pool.Invariant (seq.holder :: hs)) :
    ∃ pool', pool.deallocate seq = .ok (pool', released seq) ∧
      pool'.Invariant hs ∧ SameContent pool pool' := by
  have I₁ : pool.Invariant ([seq].map Sequence.holder ++ hs) := I
  obtain ⟨pool', hrun, I', hsame⟩ := I₁.release (by simp [USIZE_MAX])
  exact ⟨pool', by simp [BlockPool.deallocate, hrun], I', hsame⟩

/-- A holder may change its history and its progress as long as its full cached blocks stay the
same. -/
theorem replace (I : pool.Invariant (h :: hs)) {h' : Holder}
    (htable : h'.blockTable = h.blockTable) (hle : h'.numCachedTokens ≤ h'.tokenIds.length)
    (hcached : ∀ i < h.blockTable.length, pool.prefixCacheEnabled = true →
      (h'.IsCached i ↔ h.IsCached i) ∧ (h.IsCached i → h'.identity i = h.identity i)) :
    pool.Invariant (h' :: hs) where
  ledger := I.ledger.congr fun b => by simp [htable]
  blockSize := I.blockSize
  capacity := I.capacity
  nodup := by
    rintro g (_ | ⟨_, hg⟩)
    · exact htable ▸ I.nodup h List.mem_cons_self
    · exact I.nodup g (List.mem_cons_of_mem _ hg)
  cached_le := by
    rintro g (_ | ⟨_, hg⟩)
    · exact hle
    · exact I.cached_le g (List.mem_cons_of_mem _ hg)
  cached := by
    rintro g (_ | ⟨_, hg⟩) i b hb
    · rw [htable] at hb
      rw [I.cached h List.mem_cons_self i b hb]
      by_cases henabled : pool.prefixCacheEnabled = true
      · obtain ⟨hiff, heq⟩ := hcached i (List.getElem?_eq_some_iff.mp hb).1 henabled
        by_cases hi : h.IsCached i
        · simp [henabled, hi, hiff.mpr hi, heq hi]
        · simp [hi, mt hiff.mp hi]
      · simp [henabled]
    · exact I.cached g (List.mem_cons_of_mem _ hg) i b hb
  shared b hb := I.shared b (by simpa [htable] using hb)
  identities := I.identities

/-- Appending tokens to the history of a holder. -/
theorem appendTokens (I : pool.Invariant (h :: hs)) (more : List Token) :
    pool.Invariant ({ h with tokenIds := h.tokenIds ++ more } :: hs) := by
  have hle := I.cached_le h List.mem_cons_self
  refine I.replace rfl (by simp only [List.length_append]; omega) fun i _ _ => ⟨Iff.rfl, ?_⟩
  intro hi
  exact PrefixCacheIdentity.ofTokens_append (le_trans hi hle) more

/-! ### Appending a fresh block -/

omit [HashFunction] in
theorem identityAt_takesHead {b c : ℕ} (ht : pool.TakesHead pool' b) :
    pool'.identityAt c = if c = b then none else pool.identityAt c := by
  rw [identityAt, ht.blockAt c]
  split <;> rfl

/-- **Append.** A block from the head of the free list extends a table whose cached tokens lie
before it. -/
theorem takeHead (I : pool.Invariant (h :: hs)) {b : ℕ} (ht : pool.TakesHead pool' b)
    (hroom : h.numCachedTokens ≤ BLOCK_SIZE * h.blockTable.length) :
    pool'.Invariant ({ h with blockTable := h.blockTable ++ [b] } :: hs) := by
  have hown : holders (tables (h :: hs)) b = 0 :=
    I.ledger.own_of_mem_free (by simp [ht.free])
  have hfresh : ∀ g ∈ h :: hs, b ∉ g.blockTable := fun g hg hb => holders_ne_zero hg hb hown
  have hcount : ∀ c, holders (tables ({ h with blockTable := h.blockTable ++ [b] } :: hs)) c =
      Function.update (holders (tables (h :: hs))) b 1 c := by
    intro c
    simp only [tables_cons, holders_cons] at hown ⊢
    by_cases hc : c = b
    · subst hc
      simp only [List.mem_append, List.mem_singleton, or_true, if_true, Function.update_self]
      omega
    · simp [hc]
  have hold : ∀ g ∈ h :: hs, ∀ i c, g.blockTable[i]? = some c → pool'.identityAt c =
      if pool'.prefixCacheEnabled = true ∧ g.IsCached i then some (g.identity i) else none := by
    intro g hg i c hc
    have hne : c ≠ b := fun heq => hfresh g hg (heq ▸ List.mem_of_getElem? hc)
    rw [identityAt_takesHead ht, if_neg hne, ht.enabled]
    exact I.cached g hg i c hc
  refine ⟨(I.ledger.takesHead ht).congr hcount, ht.blockSize.trans I.blockSize,
    ht.length ▸ I.capacity, ?_, ?_, ?_, fun c hc => ?_, fun c identity hc => ?_⟩
  · rintro g (_ | ⟨_, hg⟩)
    · exact (I.nodup h List.mem_cons_self).append (by simp)
        (by simpa using hfresh h List.mem_cons_self)
    · exact I.nodup g (List.mem_cons_of_mem _ hg)
  · rintro g (_ | ⟨_, hg⟩)
    · exact I.cached_le h List.mem_cons_self
    · exact I.cached_le g (List.mem_cons_of_mem _ hg)
  · rintro g (_ | ⟨_, hg⟩) i c hc
    · by_cases hi : i < h.blockTable.length
      · rw [List.getElem?_append_left hi] at hc
        exact hold h List.mem_cons_self i c hc
      · -- the appended block is fresh and lies past the cached tokens
        have hnot : ¬ h.IsCached i := by
          intro hcached
          have hmul := Nat.mul_le_mul_left BLOCK_SIZE (Nat.le_of_not_lt hi)
          simp only [Holder.IsCached, BLOCK_SIZE] at *
          omega
        rw [List.getElem?_append_right (Nat.le_of_not_lt hi)] at hc
        obtain rfl : b = c := (List.mem_singleton.mp (List.mem_of_getElem? hc)).symm
        rw [identityAt_takesHead ht, if_pos rfl, if_neg]
        exact fun h' => hnot h'.2
    · exact hold g (List.mem_cons_of_mem _ hg) i c hc
  · rw [hcount c] at hc
    have hne : c ≠ b := by rintro rfl; simp at hc
    rw [identityAt_takesHead ht, if_neg hne]
    exact I.shared c (by simpa [hne] using hc)
  · have hne : c ≠ b := by
      rintro rfl
      rw [identityAt_takesHead ht, if_pos rfl] at hc
      cases hc
    rw [identityAt_takesHead ht, if_neg hne] at hc
    rw [ht.enabled, ht.blockAt c, if_neg hne]
    exact I.identities c identity hc

/-! ### Sharing cached blocks -/

/-- **Share.** A new holder may take over blocks that carry the identities of its own leading
blocks. -/
theorem claim (I : pool.Invariant hs) {blockIds : List ℕ} (tokenIds : List Token)
    (hnodup : blockIds.Nodup) (hlt : ∀ b ∈ blockIds, b < pool.blocks.length)
    (hidentity : ∀ i b, blockIds[i]? = some b →
      pool.identityAt b = some (.ofTokens tokenIds i))
    (hle : BLOCK_SIZE * blockIds.length ≤ tokenIds.length) :
    (blockIds.foldl claimCachedBlock pool).Invariant
      (⟨blockIds, BLOCK_SIZE * blockIds.length, tokenIds⟩ :: hs) := by
  obtain ⟨L, hsame, -⟩ := I.ledger.claimCachedBlocks hlt hnodup
  have hat : ∀ b, (blockIds.foldl claimCachedBlock pool).identityAt b = pool.identityAt b :=
    hsame.identity
  refine ⟨L.congr fun b => by simp, hsame.blockSize.trans I.blockSize,
    hsame.length ▸ I.capacity, ?_, ?_, ?_, fun b hb => ?_, fun b identity hb => ?_⟩
  · rintro g (_ | ⟨_, hg⟩)
    · exact hnodup
    · exact I.nodup g hg
  · rintro g (_ | ⟨_, hg⟩)
    · exact hle
    · exact I.cached_le g hg
  · rintro g (_ | ⟨_, hg⟩) i b hb
    · have hi : i + 1 ≤ blockIds.length := (List.getElem?_eq_some_iff.mp hb).1
      have hid := hidentity i b hb
      rw [hat, hid, if_pos]
      · rfl
      · exact ⟨hsame.enabled.trans (I.identities b _ hid).1, Nat.mul_le_mul_left _ hi⟩
    · rw [hat, hsame.enabled]
      exact I.cached g hg i b hb
  · rw [hat]
    by_cases hmem : b ∈ blockIds
    · obtain ⟨i, hi⟩ := List.mem_iff_getElem?.mp hmem
      rw [hidentity i b hi]
      simp
    · exact I.shared b (by simpa [hmem] using hb)
  · rw [hat] at hb
    rw [hsame.enabled, hsame.hash, hsame.tokenIds]
    exact I.identities b identity hb

/-! ### Indexing filled blocks -/

omit [HashFunction] in
theorem publishBlock_fields (pool : BlockPool) (b : ℕ) (hash : ℤ) (tokenIds : List Token)
    (identity : PrefixCacheIdentity) :
    (pool.publishBlock b hash tokenIds identity).freeBlockIds = pool.freeBlockIds ∧
      (pool.publishBlock b hash tokenIds identity).usedBlockIds = pool.usedBlockIds ∧
      (pool.publishBlock b hash tokenIds identity).blockSize = pool.blockSize ∧
      (pool.publishBlock b hash tokenIds identity).prefixCacheEnabled =
        pool.prefixCacheEnabled ∧
      (pool.publishBlock b hash tokenIds identity).blocks =
        (pool.modifyBlock b fun block => block.update hash tokenIds identity).blocks := by
  simp only [publishBlock, indexCacheEntry, modifyBlock]
  split <;> simp

omit [HashFunction] in
theorem publishBlock_blockAt (pool : BlockPool) {b : ℕ} (hb : b < pool.blocks.length) (hash : ℤ)
    (tokenIds : List Token) (identity : PrefixCacheIdentity) (c : ℕ) :
    (pool.publishBlock b hash tokenIds identity).blockAt c =
      if c = b then (pool.blockAt b).update hash tokenIds identity else pool.blockAt c :=
  (blockAt_congr (publishBlock_fields pool b hash tokenIds identity).2.2.2.2 c).trans
    (blockAt_modifyBlock pool b c _ hb)

/-- **Index.** The block being filled is private; once its tokens are cached it may carry the
identity of its holder. -/
theorem publish (I : pool.Invariant (h :: hs)) {i b : ℕ} (hb : h.blockTable[i]? = some b)
    (henabled : pool.prefixCacheEnabled = true) (hlow : BLOCK_SIZE * i ≤ h.numCachedTokens)
    (hhigh : ¬ h.IsCached i) (hfull : BLOCK_SIZE * (i + 1) ≤ h.tokenIds.length) :
    (pool.publishBlock b (h.identity i).chainHash (chunk h.tokenIds i) (h.identity i)).Invariant
      ({ h with numCachedTokens := BLOCK_SIZE * (i + 1) } :: hs) := by
  have hmem : b ∈ h.blockTable := List.mem_of_getElem? hb
  have hnone : pool.identityAt b = none := by
    rw [I.cached h List.mem_cons_self i b hb, if_neg]
    exact fun h' => hhigh h'.2
  have hone := I.holders_le_one hnone
  have hprivate : ∀ g ∈ hs, b ∉ g.blockTable := by
    intro g hg hbg
    have hpos := holders_ne_zero hg hbg
    simp only [tables_cons, holders_cons, hmem, if_true] at hone
    omega
  have hlt : b < pool.blocks.length :=
    I.ledger.lt_length (holders_ne_zero List.mem_cons_self hmem)
  obtain ⟨hfree, hused, hsize, hen, hblocks⟩ :=
    publishBlock_fields pool b (h.identity i).chainHash (chunk h.tokenIds i) (h.identity i)
  have hat := publishBlock_blockAt pool hlt (h.identity i).chainHash (chunk h.tokenIds i)
    (h.identity i)
  have hlength : (pool.publishBlock b (h.identity i).chainHash (chunk h.tokenIds i)
      (h.identity i)).blocks.length = pool.blocks.length := by
    rw [hblocks, length_modifyBlock]
  have hid : ∀ c, (pool.publishBlock b (h.identity i).chainHash (chunk h.tokenIds i)
      (h.identity i)).identityAt c = if c = b then some (h.identity i) else pool.identityAt c := by
    intro c
    rw [identityAt, hat c]
    split <;> rfl
  refine ⟨(I.ledger.modifyContent hfree hused hlength fun c => ?_).congr fun c => rfl,
    hsize.trans I.blockSize, hlength ▸ I.capacity, ?_, ?_, ?_, fun c hc => ?_,
    fun c identity hc => ?_⟩
  · rw [hat c]
    split
    · rename_i heq
      rw [heq]
      rfl
    · rfl
  · rintro g (_ | ⟨_, hg⟩)
    · exact I.nodup h List.mem_cons_self
    · exact I.nodup g (List.mem_cons_of_mem _ hg)
  · rintro g (_ | ⟨_, hg⟩)
    · exact hfull
    · exact I.cached_le g (List.mem_cons_of_mem _ hg)
  · rintro g (_ | ⟨_, hg⟩) j c hc
    · rw [hid c, hen]
      by_cases hij : j = i
      · subst hij
        obtain rfl : b = c := Option.some.inj (hb.symm.trans hc)
        rw [if_pos rfl, if_pos ⟨henabled, le_refl _⟩]
        rfl
      · have hne : c ≠ b := fun heq => hij
          ((List.getElem?_inj (List.getElem?_eq_some_iff.mp hc).1
            (I.nodup h List.mem_cons_self)).mp (hc.trans (heq ▸ hb.symm)))
        rw [if_neg hne, I.cached h List.mem_cons_self j c hc]
        -- away from block `i`, the same blocks count as cached before and after
        have hiff : h.IsCached j ↔
            ({ h with numCachedTokens := BLOCK_SIZE * (i + 1) } : Holder).IsCached j := by
          simp only [Holder.IsCached, BLOCK_SIZE] at *
          omega
        simp only [hiff]
        rfl
    · have hne : c ≠ b := fun heq => hprivate g hg (heq ▸ List.mem_of_getElem? hc)
      rw [hid c, if_neg hne, hen]
      exact I.cached g (List.mem_cons_of_mem _ hg) j c hc
  · rw [hid c]
    split
    · simp
    · exact I.shared c hc
  · rw [hid c] at hc
    rw [hat c, hen]
    split at hc
    · rename_i heq
      obtain rfl := Option.some.inj hc
      rw [if_pos heq]
      exact ⟨henabled, PrefixCacheIdentity.full_ofTokens hfull, rfl,
        (PrefixCacheIdentity.tokenIds_ofTokens _ _).symm⟩
    · rename_i hne
      rw [if_neg hne]
      exact I.identities c identity hc

end Invariant

end BlockPool

end VllmOxide
