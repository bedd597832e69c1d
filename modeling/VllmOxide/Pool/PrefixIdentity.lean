import VllmOxide.Pool.Ledger

/-!
# Prefix identities and cache lookups

The identity of a cached block is the chain of the token blocks up to it. This file relates the
identities that the code builds while it walks over a sequence to the token history itself
(`PrefixCacheIdentity.ofTokens`), and says what a lookup returns: distinct blocks in range that
carry exactly the identities of the sequence's own leading blocks.

No statement here depends on what the hash function returns.

## Main definitions

* `PrefixCacheIdentity.allTokens`, `PrefixCacheIdentity.chainHash`: the full token chain of an
  identity and the chained hash the code computes for it.
* `PrefixCacheIdentity.ofTokens`: the identity of the leading blocks of a token list.

## Main results

* `BlockPool.identityAt_cachedPrefixBlockIds`, `BlockPool.nodup_cachedPrefixBlockIds`: what a
  lookup returns.
-/

namespace VllmOxide

/-- Block `i` of a token list. -/
def chunk (tokens : List Token) (i : ℕ) : List Token :=
  (tokens.drop (BLOCK_SIZE * i)).take BLOCK_SIZE

theorem length_chunk {tokens : List Token} {i : ℕ} (h : BLOCK_SIZE * (i + 1) ≤ tokens.length) :
    (chunk tokens i).length = BLOCK_SIZE := by
  simp only [chunk, BLOCK_SIZE, List.length_take, List.length_drop] at *
  omega

theorem chunk_append {tokens : List Token} {i : ℕ} (h : BLOCK_SIZE * (i + 1) ≤ tokens.length)
    (more : List Token) : chunk (tokens ++ more) i = chunk tokens i := by
  simp only [BLOCK_SIZE] at h
  simp only [chunk, BLOCK_SIZE]
  rw [List.drop_append_of_le_length (by omega), List.take_append_of_le_length
    (by simp only [List.length_drop]; omega)]

theorem take_succ_blocks (tokens : List Token) (i : ℕ) :
    tokens.take (BLOCK_SIZE * (i + 1)) = tokens.take (BLOCK_SIZE * i) ++ chunk tokens i := by
  rw [chunk, ← List.take_add]
  rfl

namespace PrefixCacheIdentity

/-- The full token chain of an identity, from the first block on. -/
def allTokens : PrefixCacheIdentity → List Token
  | root tokenIds => tokenIds
  | node parent tokenIds => parent.allTokens ++ tokenIds

/-- The number of blocks of the chain. -/
def depth : PrefixCacheIdentity → ℕ
  | root _ => 1
  | node parent _ => parent.depth + 1

/-- Every block of the chain is full. -/
def Full : PrefixCacheIdentity → Prop
  | root tokenIds => tokenIds.length = BLOCK_SIZE
  | node parent tokenIds => parent.Full ∧ tokenIds.length = BLOCK_SIZE

/-- The chained hash of an identity. -/
def chainHash [HashFunction] : PrefixCacheIdentity → ℤ
  | root tokenIds => computeHash tokenIds (-1)
  | node parent tokenIds => computeHash tokenIds parent.chainHash

/-- The identity of the first `i + 1` blocks of a token list. -/
def ofTokens (tokens : List Token) : ℕ → PrefixCacheIdentity
  | 0 => root (chunk tokens 0)
  | i + 1 => node (ofTokens tokens i) (chunk tokens (i + 1))

@[simp] theorem tokenIds_ofTokens (tokens : List Token) (i : ℕ) :
    (ofTokens tokens i).tokenIds = chunk tokens i := by
  cases i <;> rfl

@[simp] theorem depth_ofTokens (tokens : List Token) (i : ℕ) :
    (ofTokens tokens i).depth = i + 1 := by
  induction i with
  | zero => rfl
  | succ i ih => rw [ofTokens, depth, ih]

theorem allTokens_ofTokens (tokens : List Token) (i : ℕ) :
    (ofTokens tokens i).allTokens = tokens.take (BLOCK_SIZE * (i + 1)) := by
  induction i with
  | zero => rw [take_succ_blocks]; simp [ofTokens, allTokens]
  | succ i ih => rw [take_succ_blocks, ← ih, ofTokens, allTokens]

theorem full_ofTokens {tokens : List Token} {i : ℕ}
    (h : BLOCK_SIZE * (i + 1) ≤ tokens.length) : (ofTokens tokens i).Full := by
  induction i with
  | zero => exact length_chunk h
  | succ i ih =>
    refine ⟨ih ?_, length_chunk h⟩
    simp only [BLOCK_SIZE] at *
    omega

/-- Appending tokens keeps the identities of the full blocks. -/
theorem ofTokens_append {tokens : List Token} {i : ℕ} (h : BLOCK_SIZE * (i + 1) ≤ tokens.length)
    (more : List Token) : ofTokens (tokens ++ more) i = ofTokens tokens i := by
  induction i with
  | zero => rw [ofTokens, ofTokens, chunk_append h]
  | succ i ih =>
    rw [ofTokens, ofTokens, chunk_append h, ih]
    simp only [BLOCK_SIZE] at *
    omega

end PrefixCacheIdentity

namespace Sequence

/-- The identity the code builds for block `i` of a sequence. -/
def prefixIdentity (seq : Sequence) : ℕ → PrefixCacheIdentity
  | 0 => .root (seq.block 0)
  | i + 1 => .node (seq.prefixIdentity i) (seq.block (i + 1))

/-- The identity of the block before block `i`. -/
def parentIdentity (seq : Sequence) : ℕ → Option PrefixCacheIdentity
  | 0 => none
  | i + 1 => some (seq.prefixIdentity i)

theorem extend_parentIdentity (seq : Sequence) (i : ℕ) :
    PrefixCacheIdentity.extend (seq.parentIdentity i) (seq.block i) = seq.prefixIdentity i := by
  cases i <;> rfl

@[simp] theorem depth_prefixIdentity (seq : Sequence) (i : ℕ) :
    (seq.prefixIdentity i).depth = i + 1 := by
  induction i with
  | zero => rfl
  | succ i ih => rw [prefixIdentity, PrefixCacheIdentity.depth, ih]

@[simp] theorem tokenIds_prefixIdentity (seq : Sequence) (i : ℕ) :
    (seq.prefixIdentity i).tokenIds = seq.block i := by
  cases i <;> rfl

theorem block_eq_chunk {seq : Sequence} {i : ℕ} (h : BLOCK_SIZE * (i + 1) ≤ seq.numTokens) :
    seq.block i = chunk seq.tokenIds i := by
  have hmin : min (i * BLOCK_SIZE + BLOCK_SIZE) seq.numTokens - i * BLOCK_SIZE = BLOCK_SIZE := by
    simp only [BLOCK_SIZE] at *
    omega
  rw [block, List.extract_eq_take_drop, hmin, chunk, Nat.mul_comm]

theorem prefixIdentity_eq_ofTokens {seq : Sequence} {i : ℕ}
    (h : BLOCK_SIZE * (i + 1) ≤ seq.numTokens) :
    seq.prefixIdentity i = PrefixCacheIdentity.ofTokens seq.tokenIds i := by
  induction i with
  | zero => rw [prefixIdentity, PrefixCacheIdentity.ofTokens, block_eq_chunk h]
  | succ i ih =>
    rw [prefixIdentity, PrefixCacheIdentity.ofTokens, block_eq_chunk h, ih]
    simp only [BLOCK_SIZE] at *
    omega

end Sequence

namespace BlockPool

/-- The identity carried by a block, if any. -/
def identityAt (pool : BlockPool) (b : ℕ) : Option PrefixCacheIdentity :=
  (pool.blockAt b).prefixIdentity

/-- `pool'` has the capacity and the configuration of `pool`, and no cached content that `pool`
does not have. -/
structure NoNewContent (pool pool' : BlockPool) : Prop where
  blockSize : pool'.blockSize = pool.blockSize
  length : pool'.blocks.length = pool.blocks.length
  enabled : pool'.prefixCacheEnabled = pool.prefixCacheEnabled
  identity : ∀ b identity, pool'.identityAt b = some identity → pool.identityAt b = some identity

namespace NoNewContent

theorem refl (pool : BlockPool) : NoNewContent pool pool :=
  ⟨rfl, rfl, rfl, fun _ _ h => h⟩

theorem trans {p q r : BlockPool} (h : NoNewContent p q) (h' : NoNewContent q r) :
    NoNewContent p r where
  blockSize := h'.blockSize.trans h.blockSize
  length := h'.length.trans h.length
  enabled := h'.enabled.trans h.enabled
  identity b identity hb := h.identity b identity (h'.identity b identity hb)

theorem of_sameContent {p q : BlockPool} (h : SameContent p q) : NoNewContent p q where
  blockSize := h.blockSize
  length := h.length
  enabled := h.enabled
  identity b _ hb := (h.identity b).symm.trans hb

/-- A block taken from the free list loses its content. -/
theorem takesHead {p q : BlockPool} {b : ℕ} (h : TakesHead p q b) : NoNewContent p q where
  blockSize := h.blockSize
  length := h.length
  enabled := h.enabled
  identity c identity hc := by
    rw [identityAt, h.blockAt c] at hc
    by_cases hcb : c = b
    · simp [hcb, Block.reset] at hc
    · rwa [if_neg hcb] at hc

end NoNewContent

theorem of_holds {pool : BlockPool} {hash : ℤ} {identity : PrefixCacheIdentity} {b : ℕ}
    (h : pool.holds hash identity b = true) :
    b < pool.blocks.length ∧ pool.identityAt b = some identity := by
  unfold holds at h
  by_cases hb : b < pool.blocks.length
  · rw [getElem?_blocks hb] at h
    simp only [decide_eq_true_eq] at h
    exact ⟨hb, h.2.1⟩
  · simp [List.getElem?_eq_none (Nat.le_of_not_lt hb)] at h

/-- A cached block found for an identity carries that identity. -/
theorem of_cachedBlockId {pool : BlockPool} {hash : ℤ} {identity : PrefixCacheIdentity} {b : ℕ}
    (h : pool.cachedBlockId hash identity = some b) :
    b < pool.blocks.length ∧ pool.identityAt b = some identity := by
  unfold cachedBlockId at h
  split at h
  · cases h
  · rename_i blockIds _
    have hmem : b ∈ blockIds.filter (pool.holds hash identity) := by
      dsimp only at h
      split at h
      · rename_i c hc
        obtain rfl : c = b := Option.some.inj h
        exact List.mem_of_mem_filter (List.mem_of_getLast? hc)
      · exact List.mem_of_getLast? h
    exact of_holds (List.mem_filter.mp hmem).2

variable [HashFunction]

/-- A lookup of fewer blocks is a prefix of a lookup of more. -/
theorem cachedPrefixFrom_take (pool : BlockPool) (seq : Sequence) {k n : ℕ} (hkn : k ≤ n) :
    ∀ (i : ℕ) (hash : ℤ) (identity : Option PrefixCacheIdentity),
      pool.cachedPrefixFrom seq k i hash identity =
        (pool.cachedPrefixFrom seq n i hash identity).take k := by
  induction k generalizing n with
  | zero => intros; simp [cachedPrefixFrom]
  | succ k ih =>
    intro i hash identity
    obtain ⟨n, rfl⟩ : ∃ m, n = m + 1 := ⟨n - 1, by omega⟩
    rw [cachedPrefixFrom, cachedPrefixFrom]
    split
    · rfl
    · rw [List.take_succ_cons, ih (n := n) (by omega)]

theorem length_cachedPrefixFrom_le (pool : BlockPool) (seq : Sequence) (n : ℕ) :
    ∀ (i : ℕ) (hash : ℤ) (identity : Option PrefixCacheIdentity),
      (pool.cachedPrefixFrom seq n i hash identity).length ≤ n := by
  induction n with
  | zero => intros; simp [cachedPrefixFrom]
  | succ n ih =>
    intro i hash identity
    rw [cachedPrefixFrom]
    split
    · simp
    · simpa using ih ..

theorem identityAt_cachedPrefixFrom (pool : BlockPool) (seq : Sequence) (n : ℕ) :
    ∀ (i : ℕ) (hash : ℤ) {j b : ℕ},
      (pool.cachedPrefixFrom seq n i hash (seq.parentIdentity i))[j]? = some b →
      b < pool.blocks.length ∧ pool.identityAt b = some (seq.prefixIdentity (i + j)) := by
  induction n with
  | zero => intro i hash j b h; simp [cachedPrefixFrom] at h
  | succ n ih =>
    intro i hash j b h
    simp only [cachedPrefixFrom] at h
    rw [seq.extend_parentIdentity i] at h
    split at h
    · simp at h
    · rename_i c hc
      cases j with
      | zero =>
        obtain rfl : c = b := by simpa using h
        simpa using of_cachedBlockId hc
      | succ j =>
        have h' := ih (i + 1) _ (j := j) (b := b) (by simpa [Sequence.parentIdentity] using h)
        rwa [show i + 1 + j = i + (j + 1) by omega] at h'

theorem cachedPrefixBlockIds_take (pool : BlockPool) (seq : Sequence) {k n : ℕ} (hkn : k ≤ n) :
    pool.cachedPrefixBlockIds seq k = (pool.cachedPrefixBlockIds seq n).take k :=
  cachedPrefixFrom_take pool seq hkn 0 (-1) none

theorem length_cachedPrefixBlockIds_le (pool : BlockPool) (seq : Sequence) (n : ℕ) :
    (pool.cachedPrefixBlockIds seq n).length ≤ n :=
  length_cachedPrefixFrom_le pool seq n 0 (-1) none

/-- The `i`-th block of a lookup is in range and carries the identity of the sequence's own
first `i + 1` blocks. -/
theorem identityAt_cachedPrefixBlockIds {pool : BlockPool} {seq : Sequence} {n i b : ℕ}
    (h : (pool.cachedPrefixBlockIds seq n)[i]? = some b) :
    b < pool.blocks.length ∧ pool.identityAt b = some (seq.prefixIdentity i) := by
  simpa using identityAt_cachedPrefixFrom pool seq n 0 (-1) (j := i) (b := b) h

theorem lt_of_mem_cachedPrefixBlockIds {pool : BlockPool} {seq : Sequence} {n b : ℕ}
    (h : b ∈ pool.cachedPrefixBlockIds seq n) : b < pool.blocks.length := by
  obtain ⟨i, hi⟩ := List.mem_iff_getElem?.mp h
  exact (identityAt_cachedPrefixBlockIds hi).1

/-- The blocks of a lookup are distinct: their identities have different depths. -/
theorem nodup_cachedPrefixBlockIds (pool : BlockPool) (seq : Sequence) (n : ℕ) :
    (pool.cachedPrefixBlockIds seq n).Nodup := by
  rw [List.nodup_iff_getElem?_ne_getElem?]
  intro i j hij hj heq
  obtain ⟨b, hb⟩ : ∃ b, (pool.cachedPrefixBlockIds seq n)[j]? = some b :=
    ⟨_, List.getElem?_eq_getElem hj⟩
  have hi := (identityAt_cachedPrefixBlockIds (heq.trans hb)).2
  have hj := (identityAt_cachedPrefixBlockIds hb).2
  have hdepth := congrArg PrefixCacheIdentity.depth (Option.some.inj (hi.symm.trans hj))
  simp at hdepth
  omega

end BlockPool

end VllmOxide
