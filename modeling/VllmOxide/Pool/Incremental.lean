import VllmOxide.Pool.Agreement

/-!
# Indexing in chunks

The scheduler indexes a sequence chunk by chunk: each call of `hashBlocks` goes on from the hash
and the identity stored in the last block that the calls before it filled. Between the calls the
sequence may get more tokens and more blocks. However the work is split, the pool ends up as if
all tokens and blocks had been there first and one call had indexed everything.

The index loop carries the chain of the sequence (`Holder.parent`), and by the invariant the
block before the first one of a call stores exactly this chain, be it a shared hit or a block that
an earlier chunk has filled. So two calls compose (`hashBlocks_hashBlocks`). A block from the
free list is none of the sequence's own, so taking it and indexing a block can be exchanged
(`publishBlock_allocateBlockPrivate`).

## Main definitions

* `FillAction`, `performFill`: what the owner of a sequence does while its cache fills.
* `growth`, `hashedTokens`: the actions that are no indexing, and the tokens that the others index.

## Main results

* `PoolState.Reachable.hash_in_chunks`: chunked indexing is one pass of indexing.
-/

namespace VllmOxide

/-- What the owner of a sequence does while its cache fills: index the blocks that the next `n`
tokens fill and count the tokens as cached, append a token, or append a block for it. -/
inductive FillAction
  | hashChunk (n : ℕ)
  | appendToken (tokenId : Token)
  | appendBlock

/-- The actions of a list that index nothing. -/
def growth (actions : List FillAction) : List FillAction :=
  actions.filter fun action => match action with
    | .hashChunk _ => false
    | _ => true

/-- The number of tokens that a list of actions indexes. -/
def hashedTokens (actions : List FillAction) : ℕ :=
  (actions.map fun action => match action with
    | .hashChunk n => n
    | _ => 0).sum

@[simp] theorem growth_append (xs ys : List FillAction) :
    growth (xs ++ ys) = growth xs ++ growth ys :=
  List.filter_append ..

@[simp] theorem hashedTokens_append (xs ys : List FillAction) :
    hashedTokens (xs ++ ys) = hashedTokens xs + hashedTokens ys := by
  simp [hashedTokens]

instance (seq : Sequence) : Decidable seq.WorkFits :=
  decidable_of_iff (_ ∧ _) ⟨fun h => ⟨h.1, h.2⟩, fun h => ⟨h.le_tokens, h.le_table⟩⟩

/-- The sequence with `n` tokens scheduled. -/
def Sequence.scheduled (seq : Sequence) (n : ℕ) : Sequence :=
  { seq with numScheduledTokens := n }

variable [HashFunction]

/-- Perform an action, if the scheduled work fits and the pool has a block to append. -/
def FillAction.perform : FillAction → BlockPool × Sequence → Option (BlockPool × Sequence)
  | hashChunk n, (pool, seq) =>
    if (seq.scheduled n).WorkFits then
      some (pool.hashBlocks (seq.scheduled n), (seq.scheduled n).workDone)
    else none
  | appendToken tokenId, (pool, seq) => some (pool, seq.appendToken tokenId)
  | appendBlock, (pool, seq) =>
    match BlockPool.mayAppendBatch (pool, [seq]) with
    | .ok () (pool, [seq]) => some (pool, seq)
    | _ => none

/-- Perform actions one after the other. -/
def performFill (actions : List FillAction) (st : BlockPool × Sequence) :
    Option (BlockPool × Sequence) :=
  actions.foldlM (fun st action => action.perform st) st

theorem performFill_append (xs ys : List FillAction) (st : BlockPool × Sequence) :
    performFill (xs ++ ys) st = (performFill xs st).bind (performFill ys) := by
  simp only [performFill, List.foldlM_append]
  rfl

@[simp] theorem performFill_singleton (action : FillAction) (st : BlockPool × Sequence) :
    performFill [action] st = action.perform st := by
  simp [performFill]

/-! ### Two chunks -/

namespace BlockPool

/-- The index loop reads the table and the blocks of the sequence only. -/
theorem hashBlocksFrom_congr {seq seq' : Sequence} {count : ℕ} :
    ∀ {i : ℕ} (hash : ℤ) (identity : Option PrefixCacheIdentity) (pool : BlockPool),
      (∀ j < i + count, seq'.blockTable.getD j 0 = seq.blockTable.getD j 0 ∧
        seq'.block j = seq.block j) →
      hashBlocksFrom seq' count i hash identity pool =
        hashBlocksFrom seq count i hash identity pool := by
  induction count with
  | zero => intros; rfl
  | succ count ih =>
    intro i hash identity pool hsame
    obtain ⟨htable, hblock⟩ := hsame i (by omega)
    rw [hashBlocksFrom, hashBlocksFrom, htable, hblock]
    exact ih _ _ _ fun j hj => hsame j (by omega)

/-- Sequences with the same work index the same blocks. -/
theorem hashBlocks_congr {pool : BlockPool} (hsize : pool.blockSize = BLOCK_SIZE)
    (seq seq' : Sequence) (hcached : seq'.numCachedTokens = seq.numCachedTokens)
    (hscheduled : seq'.numScheduledTokens = seq.numScheduledTokens)
    (hsame : ∀ j < (seq.numCachedTokens + seq.numScheduledTokens) / BLOCK_SIZE,
      seq'.blockTable.getD j 0 = seq.blockTable.getD j 0 ∧ seq'.block j = seq.block j) :
    pool.hashBlocks seq' = pool.hashBlocks seq := by
  simp only [hashBlocks, hsize, hcached, hscheduled]
  split
  · rfl
  · split
    · rfl
    · rename_i hstop
      have hloop : ∀ j < seq.numCachedTokens / BLOCK_SIZE +
          ((seq.numCachedTokens + seq.numScheduledTokens) / BLOCK_SIZE -
            seq.numCachedTokens / BLOCK_SIZE),
          seq'.blockTable.getD j 0 = seq.blockTable.getD j 0 ∧ seq'.block j = seq.block j :=
        fun j hj => hsame j (by omega)
      split
      · rename_i hpos
        rw [(hsame (seq.numCachedTokens / BLOCK_SIZE - 1) (by omega)).1]
        exact hashBlocksFrom_congr _ _ _ hloop
      · exact hashBlocksFrom_congr _ _ _ hloop

/-- The index loop with the chain of the sequence itself as its start. -/
def hashRange (seq : Sequence) (start count : ℕ) (pool : BlockPool) : BlockPool :=
  hashBlocksFrom seq count start (parentHash (seq.parentIdentity start))
    (seq.parentIdentity start) pool

theorem hashRange_congr (seq seq' : Sequence) (htable : seq'.blockTable = seq.blockTable)
    (hblock : ∀ j, seq'.block j = seq.block j) (start count : ℕ) (pool : BlockPool) :
    hashRange seq' start count pool = hashRange seq start count pool := by
  have hchain : ∀ i, seq'.prefixIdentity i = seq.prefixIdentity i := by
    intro i
    induction i with
    | zero => rw [Sequence.prefixIdentity, Sequence.prefixIdentity, hblock]
    | succ i ih => rw [Sequence.prefixIdentity, Sequence.prefixIdentity, hblock, ih]
  have hparent : seq'.parentIdentity start = seq.parentIdentity start := by
    cases start with
    | zero => rfl
    | succ i => rw [Sequence.parentIdentity, Sequence.parentIdentity, hchain]
  rw [hashRange, hashRange, hparent]
  exact hashBlocksFrom_congr _ _ _ fun j _ => ⟨by rw [htable], hblock j⟩

theorem hashRange_add (seq : Sequence) (a b : ℕ) :
    ∀ (start : ℕ) (pool : BlockPool), hashRange seq start (a + b) pool =
      hashRange seq (start + a) b (hashRange seq start a pool) := by
  induction a with
  | zero => intro start pool; simp [hashRange, hashBlocksFrom]
  | succ a ih =>
    intro start pool
    have hnext := ih (start + 1)
    simp only [hashRange] at hnext ⊢
    rw [Nat.add_right_comm a 1 b, hashBlocksFrom, hashBlocksFrom, computeHash_parentIdentity,
      seq.extend_parentIdentity]
    rw [show start + (a + 1) = start + 1 + a by omega]
    exact hnext _

namespace Invariant

variable {pool : BlockPool} {hs : List Holder} {seq : Sequence}

/-- The block before the first one of a call stores the chain of the sequence. -/
theorem hashBlocks_eq (seq : Sequence) (I : pool.Invariant (seq.holder :: hs))
    (hlen : seq.numTokens = seq.tokenIds.length)
    (hle : seq.numCachedTokens ≤ BLOCK_SIZE * seq.blockTable.length)
    (henabled : pool.prefixCacheEnabled = true) :
    pool.hashBlocks seq = hashRange seq (seq.numCachedTokens / BLOCK_SIZE)
      ((seq.numCachedTokens + seq.numScheduledTokens) / BLOCK_SIZE -
        seq.numCachedTokens / BLOCK_SIZE) pool := by
  have hcached := I.cached_le seq.holder List.mem_cons_self
  unfold BlockPool.hashBlocks hashRange
  rw [if_neg (by simp [henabled])]
  simp only [I.blockSize]
  split
  · rename_i hstop
    rw [Nat.sub_eq_zero_of_le hstop]
    rfl
  · split
    · rename_i hpos
      obtain ⟨j, hj⟩ : ∃ j, seq.numCachedTokens / BLOCK_SIZE = j + 1 :=
        ⟨_, (Nat.succ_pred_eq_of_pos hpos).symm⟩
      have hjfull : BLOCK_SIZE * (j + 1) ≤ seq.numCachedTokens := by
        simp only [BLOCK_SIZE] at hj ⊢
        omega
      have hjlt : j < seq.blockTable.length := by
        simp only [BLOCK_SIZE] at hj hle
        omega
      have hchain : seq.holder.identity j = seq.prefixIdentity j := by
        refine (Sequence.prefixIdentity_eq_ofTokens ?_).symm
        exact hjfull.trans (hcached.trans hlen.ge)
      have hid : pool.identityAt seq.blockTable[j] = some (seq.prefixIdentity j) := by
        rw [I.cached seq.holder List.mem_cons_self j _ (List.getElem?_eq_getElem hjlt),
          if_pos ⟨henabled, hjfull⟩, hchain]
      rw [hj, Nat.add_sub_cancel, getD_blockTable hjlt, (I.identities _ _ hid).2.2.1]
      exact congrArg (fun identity => BlockPool.hashBlocksFrom seq _ (j + 1) _ identity pool) hid
    · rename_i hzero
      rw [Nat.eq_zero_of_not_pos hzero]
      rfl

/-- The same for `n` tokens that have just been scheduled. -/
theorem hashBlocks_scheduled (I : pool.Invariant (seq.holder :: hs))
    (hlen : seq.numTokens = seq.tokenIds.length)
    (hle : seq.numCachedTokens ≤ BLOCK_SIZE * seq.blockTable.length)
    (henabled : pool.prefixCacheEnabled = true) (n : ℕ) :
    pool.hashBlocks (seq.scheduled n) = hashRange seq (seq.numCachedTokens / BLOCK_SIZE)
      ((seq.numCachedTokens + n) / BLOCK_SIZE - seq.numCachedTokens / BLOCK_SIZE) pool :=
  (hashBlocks_eq (seq.scheduled n) I hlen hle henabled).trans
    (hashRange_congr seq (seq.scheduled n) rfl (fun _ => rfl) _ _ pool)

end Invariant

end BlockPool

/-! ### A block from the free list -/

namespace BlockPool

omit [HashFunction] in
/-- A bucket without a block; an emptied bucket is removed. -/
def without (b : ℕ) (entry : Option (List ℕ)) : Option (List ℕ) :=
  entry.bind fun blockIds =>
    if blockIds.filter (· ≠ b) = [] then none else some (blockIds.filter (· ≠ b))

omit [HashFunction] in
/-- A bucket with a block as its last one. -/
def withLast (b : ℕ) (entry : Option (List ℕ)) : Option (List ℕ) :=
  some ((entry.getD []).filter (· ≠ b) ++ [b])

omit [HashFunction] in
theorem getD_without (b : ℕ) (entry : Option (List ℕ)) :
    (without b entry).getD [] = (entry.getD []).filter (· ≠ b) := by
  cases entry with
  | none => rfl
  | some blockIds =>
    rw [without, Option.bind_some, Option.getD_some]
    split
    · rename_i hnil
      rw [hnil, Option.getD_none]
    · rfl

omit [HashFunction] in
theorem without_comm (b c : ℕ) (entry : Option (List ℕ)) :
    without c (without b entry) = without b (without c entry) := by
  have hfold : ∀ d e : ℕ, without e (without d entry) = entry.bind fun blockIds =>
      if (blockIds.filter (· ≠ d)).filter (· ≠ e) = [] then none
      else some ((blockIds.filter (· ≠ d)).filter (· ≠ e)) := by
    intro d e
    cases entry with
    | none => rfl
    | some blockIds =>
      simp only [without, Option.bind_some]
      split
      · rename_i hnil
        rw [hnil]
        simp
      · rfl
  rw [hfold, hfold]
  congr 1
  funext blockIds
  rw [List.filter_comm]

omit [HashFunction] in
theorem without_withLast {b c : ℕ} (hne : c ≠ b) (entry : Option (List ℕ)) :
    without b (withLast c entry) = withLast c (without b entry) := by
  have hkeep : ((entry.getD []).filter (· ≠ c) ++ [c]).filter (· ≠ b) =
      ((entry.getD []).filter (· ≠ b)).filter (· ≠ c) ++ [c] := by
    rw [List.filter_append, List.filter_cons_of_pos (by simpa using hne), List.filter_nil,
      List.filter_comm]
  rw [withLast, withLast, getD_without, without, Option.bind_some, hkeep, if_neg (by simp)]

omit [HashFunction] in
theorem removeCacheEntry_eq (pool : BlockPool) (hash : ℤ) (b : ℕ) :
    pool.removeCacheEntry hash b = { pool with
      hashToBlockId :=
        Function.update pool.hashToBlockId hash (without b (pool.hashToBlockId hash)) } := by
  unfold removeCacheEntry
  split
  · rename_i hnone
    rw [hnone, show without b none = none from rfl, ← hnone, Function.update_eq_self]
  · rename_i blockIds hsome
    rw [hsome]
    rfl

omit [HashFunction] in
/-- Changes of two buckets, or two changes of one bucket that commute. -/
theorem update_update_comm {index : ℤ → Option (List ℕ)} {hash hash' : ℤ}
    {f g : Option (List ℕ) → Option (List ℕ)} (hcomm : ∀ entry, f (g entry) = g (f entry)) :
    Function.update (Function.update index hash (g (index hash))) hash'
        (f (Function.update index hash (g (index hash)) hash')) =
      Function.update (Function.update index hash' (f (index hash'))) hash
        (g (Function.update index hash' (f (index hash')) hash)) := by
  by_cases heq : hash' = hash
  · subst heq
    simp only [Function.update_self, Function.update_idem, hcomm]
  · rw [Function.update_of_ne heq, Function.update_of_ne (Ne.symm heq), Function.update_comm heq]

omit [HashFunction] in
/-- The index after block `b` has left the bucket of its hash. -/
def leaveBucket (index : ℤ → Option (List ℕ)) (hash : ℤ) (b : ℕ) : ℤ → Option (List ℕ) :=
  Function.update index hash (without b (index hash))

omit [HashFunction] in
/-- The index after block `b` has entered the bucket of a hash as its last one. -/
def enterBucket (index : ℤ → Option (List ℕ)) (hash : ℤ) (b : ℕ) : ℤ → Option (List ℕ) :=
  Function.update index hash (withLast b (index hash))

omit [HashFunction] in
theorem leaveBucket_leaveBucket (index : ℤ → Option (List ℕ)) (hash hash' : ℤ) (b c : ℕ) :
    leaveBucket (leaveBucket index hash c) hash' b =
      leaveBucket (leaveBucket index hash' b) hash c :=
  update_update_comm (f := without b) (g := without c) fun entry => without_comm c b entry

omit [HashFunction] in
theorem leaveBucket_enterBucket (index : ℤ → Option (List ℕ)) (hash hash' : ℤ) {b c : ℕ}
    (hne : c ≠ b) : leaveBucket (enterBucket index hash c) hash' b =
      enterBucket (leaveBucket index hash' b) hash c :=
  update_update_comm (f := without b) (g := withLast c) fun entry => without_withLast hne entry

omit [HashFunction] in
/-- The pool after its free block `b` was taken, with `rest` left on the free list. -/
def taken (pool : BlockPool) (b : ℕ) (rest : List ℕ) : BlockPool :=
  { pool with
    blocks := pool.blocks.modify b Block.reset
    hashToBlockId :=
      if (pool.blockAt b).hash ≠ -1 then leaveBucket pool.hashToBlockId (pool.blockAt b).hash b
      else pool.hashToBlockId
    freeBlockIds := rest
    usedBlockIds := insert b pool.usedBlockIds }

omit [HashFunction] in
theorem allocateBlockPrivate_eq_ok_iff {pool pool' : BlockPool} {b : ℕ} :
    pool.allocateBlockPrivate = .ok (b, pool') ↔
      ∃ rest, pool.freeBlockIds = b :: rest ∧ pool.IsFree b ∧ pool' = pool.taken b rest := by
  have htaken : ∀ rest, pool.freeBlockIds = b :: rest → pool.IsFree b →
      pool.allocateBlockPrivate = .ok (b, pool.taken b rest) := by
    intro rest hlist hfree
    simp only [allocateBlockPrivate, hlist, validateFreeBlock_eq_ok_iff.mpr hfree, taken,
      removeCacheEntry_eq]
    split <;> rfl
  constructor
  · intro h
    have ht := takesHead_of_allocateBlockPrivate h
    have hfree : pool.IsFree b := by
      by_contra hnot
      obtain ⟨error, herror⟩ := allocateBlockPrivate_of_not_isFree ht.free hnot
      rw [herror] at h
      cases h
    have hsame := h.symm.trans (htaken _ ht.free hfree)
    exact ⟨_, ht.free, hfree, (Prod.mk.inj (Except.ok.inj hsame)).2⟩
  · rintro ⟨rest, hlist, hfree, rfl⟩
    exact htaken rest hlist hfree

omit [HashFunction] in
theorem publishBlock_eq (pool : BlockPool) (c : ℕ) (hash : ℤ) (tokenIds : List Token)
    (identity : PrefixCacheIdentity) :
    pool.publishBlock c hash tokenIds identity = { pool with
      blocks := pool.blocks.modify c fun block => block.update hash tokenIds identity
      hashToBlockId := enterBucket
        (if (pool.blockAt c).hash ≠ -1 ∧ (pool.blockAt c).hash ≠ hash then
          leaveBucket pool.hashToBlockId (pool.blockAt c).hash c else pool.hashToBlockId) hash c } := by
  simp only [publishBlock, removeCacheEntry_eq]
  split <;> rfl

omit [HashFunction] in
theorem blockAt_modify_of_ne {pool : BlockPool} {b c : ℕ} (hne : c ≠ b) (f : Block → Block) :
    (pool.blocks.modify b f).getD c (Block.new c) = pool.blockAt c := by
  simp [blockAt, List.getD_eq_getElem?_getD, List.getElem?_modify_ne _ _ (Ne.symm hne)]

omit [HashFunction] in
/-- Taking a block and indexing another one can be exchanged. -/
theorem taken_publishBlock {pool : BlockPool} {b c : ℕ} (hne : c ≠ b) (rest : List ℕ)
    (hash : ℤ) (tokenIds : List Token) (identity : PrefixCacheIdentity) :
    (pool.publishBlock c hash tokenIds identity).taken b rest =
      (pool.taken b rest).publishBlock c hash tokenIds identity := by
  have hb : (pool.publishBlock c hash tokenIds identity).blockAt b = pool.blockAt b := by
    rw [publishBlock_eq]
    exact blockAt_modify_of_ne (Ne.symm hne) _
  have hc : (pool.taken b rest).blockAt c = pool.blockAt c := blockAt_modify_of_ne hne _
  have hblocks : (pool.blocks.modify c fun block => block.update hash tokenIds identity).modify b
      Block.reset = (pool.blocks.modify b Block.reset).modify c
        fun block => block.update hash tokenIds identity :=
    List.modify_modify_ne _ _ _ hne
  rw [publishBlock_eq (pool.taken b rest), taken, hb, hc, publishBlock_eq]
  simp only [taken, hblocks]
  congr 1
  by_cases htake : (pool.blockAt b).hash ≠ -1
  · rw [if_pos htake, if_pos htake, leaveBucket_enterBucket _ _ _ hne]
    split
    · rw [leaveBucket_leaveBucket]
    · rfl
  · rw [if_neg htake, if_neg htake]

/-- Taking a block and indexing other blocks can be exchanged. -/
theorem taken_hashBlocksFrom {seq : Sequence} {b : ℕ} (rest : List ℕ) {count : ℕ} :
    ∀ {i : ℕ} (hash : ℤ) (identity : Option PrefixCacheIdentity) (pool : BlockPool),
      (∀ j, i ≤ j → j < i + count → seq.blockTable.getD j 0 ≠ b) →
      (hashBlocksFrom seq count i hash identity pool).taken b rest =
        hashBlocksFrom seq count i hash identity (pool.taken b rest) := by
  induction count with
  | zero => intros; rfl
  | succ count ih =>
    intro i hash identity pool hne
    simp only [hashBlocksFrom]
    rw [ih _ _ _ fun j hj hj' => hne j (by omega) (by omega),
      taken_publishBlock (hne i (le_refl _) (by omega))]

theorem taken_hashBlocks {pool : BlockPool} (hsize : pool.blockSize = BLOCK_SIZE)
    (seq : Sequence) (b : ℕ) (rest : List ℕ)
    (hne : ∀ j < (seq.numCachedTokens + seq.numScheduledTokens) / BLOCK_SIZE,
      seq.blockTable.getD j 0 ≠ b) :
    (pool.hashBlocks seq).taken b rest = (pool.taken b rest).hashBlocks seq := by
  have hsize' : (pool.taken b rest).blockSize = BLOCK_SIZE := hsize
  have henabled : (pool.taken b rest).prefixCacheEnabled = pool.prefixCacheEnabled := rfl
  simp only [hashBlocks, hsize, hsize', henabled]
  split
  · rfl
  · split
    · rfl
    · rename_i hstop
      split
      · rename_i hpos
        have hprevious : (pool.taken b rest).blockAt
            (seq.blockTable.getD (seq.numCachedTokens / BLOCK_SIZE - 1) 0) =
            pool.blockAt (seq.blockTable.getD (seq.numCachedTokens / BLOCK_SIZE - 1) 0) :=
          blockAt_modify_of_ne (hne _ (by omega)) _
        rw [hprevious]
        exact taken_hashBlocksFrom rest _ _ _ fun j _ hj => hne j (by omega)
      · exact taken_hashBlocksFrom rest _ _ _ fun j _ hj => hne j (by omega)

end BlockPool

/-! ### Chunks and growth exchanged -/

open BlockPool

section Exchange

variable {pool pool' : BlockPool} {seq seq' : Sequence} {rest : List Sequence}
  {st : BlockPool × Sequence}

theorem perform_hashChunk_eq_some_iff {n : ℕ} :
    (FillAction.hashChunk n).perform (pool, seq) = some st ↔
      (seq.scheduled n).WorkFits ∧
        st = (pool.hashBlocks (seq.scheduled n), (seq.scheduled n).workDone) := by
  rw [FillAction.perform]
  split
  · rename_i hfits
    simp [hfits, eq_comm]
  · rename_i hfits
    simp [hfits]

theorem perform_appendBlock_eq_some_iff :
    FillAction.appendBlock.perform (pool, seq) = some st ↔
      (seq.numBlocks = seq.blockTable.length ∧ st = (pool, seq)) ∨
        seq.numBlocks = seq.blockTable.length + 1 ∧ ∃ b tail, pool.freeBlockIds = b :: tail ∧
          pool.IsFree b ∧
          st = (pool.taken b tail, { seq with blockTable := seq.blockTable ++ [b] }) := by
  rw [FillAction.perform]
  by_cases hlt : seq.numBlocks < seq.blockTable.length
  · simp only [mayAppendBatch, appendIndices, hlt, if_true, reduceCtorEq, false_iff]
    omega
  by_cases hmany : 1 < seq.numBlocks - seq.blockTable.length
  · simp only [mayAppendBatch, appendIndices, hlt, hmany, if_true, if_false, reduceCtorEq, false_iff]
    omega
  by_cases hone : seq.numBlocks - seq.blockTable.length = 1
  · have hindices : appendIndices [seq] = .ok [seq] := by
      simp [appendIndices, hlt, hone]
    have hne : ¬ seq.numBlocks = seq.blockTable.length := by omega
    have hsucc : seq.numBlocks = seq.blockTable.length + 1 := by omega
    simp only [hne, false_and, false_or, and_iff_right hsucc]
    cases hlist : pool.freeBlockIds with
    | nil => simp [mayAppendBatch, hindices, hlist]
    | cons b tail =>
      by_cases hfree : pool.IsFree b
      · have hcheck : pool.checkFreeBlocks [] [b] = .ok () :=
          checkFreeBlocks_eq_ok_iff.mpr (by simpa using hfree)
        have hpop := allocateBlockPrivate_eq_ok_iff.mpr ⟨tail, hlist, hfree, rfl⟩
        have hrun : mayAppendBatch (pool, [seq]) = .ok () (pool.taken b tail,
            [{ seq with blockTable := seq.blockTable ++ [b] }]) := by
          simp [mayAppendBatch, hindices, hlist, hcheck, appendBlocks, hone, hpop]
        rw [hrun]
        simp only [Option.some.injEq, List.cons.injEq]
        constructor
        · rintro rfl
          exact ⟨b, tail, ⟨rfl, rfl⟩, hfree, rfl⟩
        · rintro ⟨c, tail', ⟨rfl, rfl⟩, -, rfl⟩
          rfl
      · cases hcheck : pool.checkFreeBlocks [] [b] with
        | ok u =>
          exact absurd ((checkFreeBlocks_eq_ok_iff.mp hcheck).2 b List.mem_cons_self).2 hfree
        | error error =>
          have hrun : mayAppendBatch (pool, [seq]) = .error error (pool, [seq]) := by
            simp [mayAppendBatch, hindices, hlist, hcheck]
          rw [hrun]
          simp only [reduceCtorEq, false_iff, not_exists, List.cons.injEq]
          rintro c tail' ⟨⟨rfl, rfl⟩, hfree', -⟩
          exact hfree hfree'
  · have heq : seq.numBlocks = seq.blockTable.length := by omega
    have hrun : mayAppendBatch (pool, [seq]) = .ok () (pool, [seq]) := by
      simp [mayAppendBatch, appendIndices, heq, checkFreeBlocks, appendBlocks]
    simp [hrun, heq, eq_comm]

/-- **Two chunks are one.** -/
theorem hashChunk_hashChunk (O : PoolState.Ok ⟨pool, seq :: rest⟩) {m n : ℕ}
    (h₁ : (FillAction.hashChunk m).perform (pool, seq) = some (pool', seq'))
    (h₂ : (FillAction.hashChunk n).perform (pool', seq') = some st) :
    (FillAction.hashChunk (m + n)).perform (pool, seq) = some st := by
  obtain ⟨hfits₁, heq₁⟩ := perform_hashChunk_eq_some_iff.mp h₁
  obtain ⟨rfl, rfl⟩ := Prod.mk.inj heq₁
  obtain ⟨hfits₂, rfl⟩ := perform_hashChunk_eq_some_iff.mp h₂
  have hadd : seq.numCachedTokens + (m + n) = seq.numCachedTokens + m + n :=
    (Nat.add_assoc _ _ _).symm
  have hlen := O.numTokens seq List.mem_cons_self
  have hle := O.cached_le seq List.mem_cons_self
  have O₀ : PoolState.Ok ⟨pool, seq.scheduled m :: rest⟩ :=
    O.update ⟨rfl, rfl, ⟨[], by simp [Sequence.scheduled]⟩, hlen⟩
  have O₁ := O₀.hash hfits₁
  refine perform_hashChunk_eq_some_iff.mpr ⟨⟨?_, ?_⟩, Prod.ext ?_ ?_⟩
  · show seq.numCachedTokens + (m + n) ≤ seq.numTokens
    rw [hadd]
    exact hfits₂.le_tokens
  · show seq.numCachedTokens + (m + n) ≤ BLOCK_SIZE * seq.blockTable.length
    rw [hadd]
    exact hfits₂.le_table
  · by_cases henabled : pool.prefixCacheEnabled = true
    · have hlt : ∀ b ∈ seq.blockTable, b < pool.blocks.length := fun b hb =>
        O.invariant.ledger.lt_length (Invariant.holders_ne_zero List.mem_cons_self hb)
      have henabled₁ : (pool.hashBlocks (seq.scheduled m)).prefixCacheEnabled = true :=
        (indexes_hashBlocks O.invariant.blockSize hfits₁.le_table hlt).enabled.trans henabled
      have hsecond := O₁.invariant.hashBlocks_scheduled hlen
        (O₁.cached_le _ List.mem_cons_self) henabled₁ n
      have hmono : seq.numCachedTokens / BLOCK_SIZE ≤
          (seq.numCachedTokens + m) / BLOCK_SIZE := Nat.div_le_div_right (Nat.le_add_right _ _)
      have hmono' : (seq.numCachedTokens + m) / BLOCK_SIZE ≤
          (seq.numCachedTokens + m + n) / BLOCK_SIZE := Nat.div_le_div_right (Nat.le_add_right _ _)
      have hcount : (seq.numCachedTokens + m + n) / BLOCK_SIZE - seq.numCachedTokens / BLOCK_SIZE =
          ((seq.numCachedTokens + m) / BLOCK_SIZE - seq.numCachedTokens / BLOCK_SIZE) +
            ((seq.numCachedTokens + m + n) / BLOCK_SIZE -
              (seq.numCachedTokens + m) / BLOCK_SIZE) := by omega
      -- the second call starts where the first one has stopped
      have hplace : seq.numCachedTokens / BLOCK_SIZE +
          ((seq.numCachedTokens + m) / BLOCK_SIZE - seq.numCachedTokens / BLOCK_SIZE) =
          (seq.numCachedTokens + m) / BLOCK_SIZE := by omega
      dsimp only
      rw [hsecond, hashRange_congr seq (seq.scheduled m).workDone rfl fun _ => rfl]
      show hashRange seq ((seq.numCachedTokens + m) / BLOCK_SIZE)
        ((seq.numCachedTokens + m + n) / BLOCK_SIZE - (seq.numCachedTokens + m) / BLOCK_SIZE) _ = _
      rw [O.invariant.hashBlocks_scheduled hlen hle henabled,
        O.invariant.hashBlocks_scheduled hlen hle henabled, hadd, hcount, hashRange_add, hplace]
    · have hdisabled : pool.prefixCacheEnabled = false := by simpa using henabled
      simp [BlockPool.hashBlocks, hdisabled]
  · simp only [Sequence.workDone, Sequence.scheduled, Nat.add_assoc]

/-- **A chunk and a new token.** A token appended to the history changes no full block. -/
theorem hashChunk_appendToken (O : PoolState.Ok ⟨pool, seq :: rest⟩) {m : ℕ} (tokenId : Token)
    (h : (FillAction.hashChunk m).perform (pool, seq) = some (pool', seq')) :
    (FillAction.hashChunk m).perform (pool, seq.appendToken tokenId) =
      some (pool', seq'.appendToken tokenId) := by
  obtain ⟨hfits, heq⟩ := perform_hashChunk_eq_some_iff.mp h
  obtain ⟨rfl, rfl⟩ := Prod.mk.inj heq
  have hlen := O.numTokens seq List.mem_cons_self
  have hfits' : ((seq.appendToken tokenId).scheduled m).WorkFits :=
    ⟨hfits.le_tokens.trans (Nat.le_succ _), hfits.le_table⟩
  refine perform_hashChunk_eq_some_iff.mpr ⟨hfits', Prod.ext ?_ rfl⟩
  refine (hashBlocks_congr O.invariant.blockSize (seq.scheduled m)
    ((seq.appendToken tokenId).scheduled m) rfl rfl fun j hj => ⟨rfl, ?_⟩).symm
  have hfull : BLOCK_SIZE * (j + 1) ≤ seq.numTokens := by
    have hle := hfits.le_tokens
    simp only [Sequence.scheduled, BLOCK_SIZE] at hj hle ⊢
    omega
  have hfull' : BLOCK_SIZE * (j + 1) ≤ (seq.appendToken tokenId).numTokens :=
    hfull.trans (Nat.le_succ _)
  show (seq.appendToken tokenId).block j = seq.block j
  rw [Sequence.block_eq_chunk hfull, Sequence.block_eq_chunk hfull']
  exact chunk_append (hlen ▸ hfull) [tokenId]

/-- **A chunk and a new block.** The block comes from the free list, so it is none of those that
the chunk indexes. -/
theorem hashChunk_appendBlock (O : PoolState.Ok ⟨pool, seq :: rest⟩) {m : ℕ}
    (h₁ : (FillAction.hashChunk m).perform (pool, seq) = some (pool', seq'))
    (h₂ : FillAction.appendBlock.perform (pool', seq') = some st) :
    ∃ st₀, FillAction.appendBlock.perform (pool, seq) = some st₀ ∧
      (FillAction.hashChunk m).perform st₀ = some st := by
  obtain ⟨hfits, heq⟩ := perform_hashChunk_eq_some_iff.mp h₁
  obtain ⟨rfl, rfl⟩ := Prod.mk.inj heq
  have hlt : ∀ b ∈ seq.blockTable, b < pool.blocks.length := fun b hb =>
    O.invariant.ledger.lt_length (Invariant.holders_ne_zero List.mem_cons_self hb)
  have hindexes : Indexes seq.blockTable pool (pool.hashBlocks (seq.scheduled m)) :=
    indexes_hashBlocks O.invariant.blockSize hfits.le_table hlt
  rcases perform_appendBlock_eq_some_iff.mp h₂ with ⟨hcount, rfl⟩ | ⟨hcount, b, tail, hlist, hfree, rfl⟩
  · exact ⟨_, perform_appendBlock_eq_some_iff.mpr (.inl ⟨hcount, rfl⟩), h₁⟩
  · have hlist₀ : pool.freeBlockIds = b :: tail := hindexes.free.symm.trans hlist
    have hfresh : b ∉ seq.blockTable := fun hb => O.invariant.ledger.notMem_free_of_own
      (Invariant.holders_ne_zero List.mem_cons_self hb) (by rw [hlist₀]; exact List.mem_cons_self)
    have hfree₀ : pool.IsFree b := by
      rw [IsFree, hindexes.length, hindexes.used, hindexes.blockAt b hfresh] at hfree
      exact hfree
    refine ⟨_, perform_appendBlock_eq_some_iff.mpr (.inr ⟨hcount, b, tail, hlist₀, hfree₀, rfl⟩),
      perform_hashChunk_eq_some_iff.mpr ⟨⟨hfits.le_tokens, ?_⟩, Prod.ext ?_ rfl⟩⟩
    · refine hfits.le_table.trans (Nat.mul_le_mul_left _ ?_)
      show seq.blockTable.length ≤ (seq.blockTable ++ [b]).length
      rw [List.length_append]
      exact Nat.le_add_right _ _
    · -- the places that the chunk indexes lie in the old table
      have hplace : ∀ j < ((seq.scheduled m).numCachedTokens +
          (seq.scheduled m).numScheduledTokens) / BLOCK_SIZE, j < seq.blockTable.length := by
        intro j hj
        have hle := hfits.le_table
        simp only [Sequence.scheduled, BLOCK_SIZE] at hj hle
        omega
      have htaken := taken_hashBlocks O.invariant.blockSize (seq.scheduled m) b tail
        fun j hj hb => hfresh (by
          rw [← hb]
          show seq.blockTable.getD j 0 ∈ _
          rw [Invariant.getD_blockTable (hplace j hj)]
          exact List.getElem_mem _)
      have hsize : (pool.taken b tail).blockSize = BLOCK_SIZE := O.invariant.blockSize
      refine htaken.trans (hashBlocks_congr hsize (seq.scheduled m)
        (({ seq with blockTable := seq.blockTable ++ [b] } : Sequence).scheduled m)
        rfl rfl fun j hj => ⟨?_, rfl⟩).symm
      show (seq.blockTable ++ [b]).getD j 0 = seq.blockTable.getD j 0
      rw [List.getD_eq_getElem?_getD, List.getElem?_append_left (hplace j hj),
        ← List.getD_eq_getElem?_getD]

/-- An action does not read the scheduled tokens that it finds. -/
theorem perform_scheduled_zero {action : FillAction}
    (h : action.perform (pool, seq) = some st) :
    action.perform (pool, seq.scheduled 0) = some (st.1, st.2.scheduled 0) := by
  cases action with
  | hashChunk n =>
    obtain ⟨hfits, rfl⟩ := perform_hashChunk_eq_some_iff.mp h
    exact perform_hashChunk_eq_some_iff.mpr ⟨hfits, rfl⟩
  | appendToken tokenId =>
    obtain rfl := Option.some.inj h
    rfl
  | appendBlock =>
    rcases perform_appendBlock_eq_some_iff.mp h with ⟨hcount, rfl⟩ | ⟨hcount, b, tail, hlist, hfree, rfl⟩
    · exact perform_appendBlock_eq_some_iff.mpr (.inl ⟨hcount, rfl⟩)
    · exact perform_appendBlock_eq_some_iff.mpr (.inr ⟨hcount, b, tail, hlist, hfree, rfl⟩)

end Exchange

/-! ### Any number of chunks -/

namespace PoolState.Ok

variable {pool : BlockPool} {seq : Sequence} {rest : List Sequence} {st : BlockPool × Sequence}

/-- Every action keeps the invariant. -/
theorem perform (O : PoolState.Ok ⟨pool, seq :: rest⟩) {action : FillAction}
    (h : action.perform (pool, seq) = some st) : PoolState.Ok ⟨st.1, st.2 :: rest⟩ := by
  have hlen := O.numTokens seq List.mem_cons_self
  cases action with
  | hashChunk n =>
    obtain ⟨hfits, rfl⟩ := perform_hashChunk_eq_some_iff.mp h
    have O₀ : PoolState.Ok ⟨pool, seq.scheduled n :: rest⟩ :=
      O.update ⟨rfl, rfl, ⟨[], by simp [Sequence.scheduled]⟩, hlen⟩
    exact O₀.hash hfits
  | appendToken tokenId =>
    obtain rfl := Option.some.inj h
    exact O.update ⟨rfl, rfl, ⟨[tokenId], rfl⟩, by simp [Sequence.appendToken, hlen]⟩
  | appendBlock =>
    rw [FillAction.perform] at h
    split at h
    · rename_i hrun
      obtain rfl := Option.some.inj h
      have O' : PoolState.Ok ⟨pool, [seq] ++ rest⟩ := O
      exact O'.append hrun
    · cases h

theorem performFill {actions : List FillAction} :
    ∀ {pool : BlockPool} {seq : Sequence}, PoolState.Ok ⟨pool, seq :: rest⟩ →
      VllmOxide.performFill actions (pool, seq) = some st → PoolState.Ok ⟨st.1, st.2 :: rest⟩ := by
  induction actions with
  | nil =>
    intro pool seq O h
    obtain rfl := Option.some.inj h
    exact O
  | cons action actions ih =>
    intro pool seq O h
    rw [VllmOxide.performFill, List.foldlM_cons] at h
    obtain ⟨⟨pool₁, seq₁⟩, hfirst, hrest⟩ := Option.bind_eq_some_iff.mp h
    exact ih (O.perform hfirst) hrest

/-- Chunked indexing from a state with the invariant. -/
theorem hashInChunks (O : PoolState.Ok ⟨pool, seq :: rest⟩) {actions : List FillAction} :
    ∀ {st : BlockPool × Sequence}, VllmOxide.performFill actions (pool, seq) = some st →
      VllmOxide.performFill (growth actions ++ [.hashChunk (hashedTokens actions)]) (pool, seq) =
        some (st.1, st.2.scheduled 0) := by
  induction actions using List.reverseRecOn with
  | nil =>
    intro st h
    obtain rfl := Option.some.inj h
    have hle := O.invariant.cached_le seq.holder List.mem_cons_self
    have hfits : (seq.scheduled 0).WorkFits :=
      ⟨hle.trans (O.numTokens seq List.mem_cons_self).ge, O.cached_le seq List.mem_cons_self⟩
    show VllmOxide.performFill [.hashChunk 0] (pool, seq) = _
    rw [performFill_singleton, perform_hashChunk_eq_some_iff]
    refine ⟨hfits, Prod.ext ?_ rfl⟩
    simp [hashBlocks, Sequence.scheduled]
  | append_singleton actions action ih =>
    intro st h
    rw [performFill_append] at h
    obtain ⟨st₁, hbefore, hlast⟩ := Option.bind_eq_some_iff.mp h
    rw [performFill_singleton] at hlast
    -- all the indexing so far, exchanged to the end of the growth so far
    have hone := ih hbefore
    rw [performFill_append] at hone
    obtain ⟨⟨pool₀, seq₀⟩, hgrowth, hchunk⟩ := Option.bind_eq_some_iff.mp hone
    rw [performFill_singleton] at hchunk
    have O₀ : PoolState.Ok ⟨pool₀, seq₀ :: rest⟩ := O.performFill hgrowth
    have hlast' := perform_scheduled_zero hlast
    rw [growth_append, hashedTokens_append]
    cases action with
    | hashChunk n =>
      show VllmOxide.performFill (growth actions ++ [] ++ [.hashChunk (hashedTokens actions + n)]) _ = _
      rw [List.append_nil, performFill_append, hgrowth, Option.bind_some, performFill_singleton]
      exact hashChunk_hashChunk O₀ hchunk hlast'
    | appendToken tokenId =>
      show VllmOxide.performFill (growth actions ++ [.appendToken tokenId] ++
        [.hashChunk (hashedTokens actions)]) _ = _
      obtain rfl := Option.some.inj hlast
      have happend : (FillAction.appendToken tokenId).perform (pool₀, seq₀) =
        some (pool₀, seq₀.appendToken tokenId) := rfl
      rw [performFill_append, performFill_append, hgrowth, Option.bind_some, performFill_singleton,
        happend, Option.bind_some, performFill_singleton]
      exact hashChunk_appendToken O₀ tokenId hchunk
    | appendBlock =>
      show VllmOxide.performFill (growth actions ++ [.appendBlock] ++
        [.hashChunk (hashedTokens actions)]) _ = _
      obtain ⟨st₂, happend, hfinal⟩ := hashChunk_appendBlock O₀ hchunk hlast'
      rw [performFill_append, performFill_append, hgrowth, Option.bind_some, performFill_singleton,
        happend, Option.bind_some, performFill_singleton]
      exact hfinal

end PoolState.Ok

namespace PoolState

variable {st : PoolState}

/-- **Incremental indexing.** Let a sequence be allocated, with any number of cached hits, and let
its owner index it chunk by chunk, appending tokens and blocks in between. The pool and the
sequence end up as if it had appended everything first and indexed all the tokens by one call. The
blocks filled then carry the tokens, the identities and the chained hashes of the history from its
first block on, and are listed in the buckets of these hashes. -/
theorem Reachable.hash_in_chunks (h : st.Reachable) {seq seq₁ : Sequence} {pool₁ : BlockPool}
    {k : ℕ} (hmem : seq ∈ st.seqs)
    (hallocate : BlockPool.allocate k (st.pool, seq) = .ok () (pool₁, seq₁))
    {actions : List FillAction} {pool' : BlockPool} {seq' : Sequence}
    (hrun : performFill actions (pool₁, seq₁) = some (pool', seq')) :
    performFill (growth actions ++ [.hashChunk (hashedTokens actions)]) (pool₁, seq₁) =
        some (pool', seq'.scheduled 0) ∧
      (pool'.prefixCacheEnabled = true → ∀ i b, seq'.blockTable[i]? = some b →
        BLOCK_SIZE * (i + 1) ≤ seq'.numCachedTokens →
        (pool'.blockAt b).tokenIds = chunk seq'.tokenIds i ∧
          (pool'.blockAt b).prefixIdentity = some (.ofTokens seq'.tokenIds i) ∧
          (pool'.blockAt b).hash = (PrefixCacheIdentity.ofTokens seq'.tokenIds i).chainHash ∧
          b ∈ pool'.bucket (pool'.blockAt b).hash) := by
  obtain ⟨before, after, hsplit⟩ := List.append_of_mem hmem
  have hperm : st.seqs.Perm (seq :: (before ++ after)) := hsplit ▸ List.perm_middle
  have O : PoolState.Ok ⟨st.pool, seq :: (before ++ after)⟩ := h.ok.perm hperm
  have O₁ : PoolState.Ok ⟨pool₁, seq₁ :: (before ++ after)⟩ := O.allocate hallocate
  refine ⟨O₁.hashInChunks hrun, fun henabled i b hb hfull => ?_⟩
  have O' : PoolState.Ok ⟨pool', seq' :: (before ++ after)⟩ := O₁.performFill hrun
  have hid : pool'.identityAt b = some (.ofTokens seq'.tokenIds i) := by
    rw [O'.invariant.cached seq'.holder List.mem_cons_self i b hb, if_pos ⟨henabled, hfull⟩]
    rfl
  obtain ⟨-, -, hhash, htokens⟩ := O'.invariant.identities b _ hid
  exact ⟨htokens.trans (PrefixCacheIdentity.tokenIds_ofTokens _ _), hid, hhash,
    O'.indexed b (by rw [hid]; simp)⟩

omit [HashFunction] in
/-- A sequence of three blocks that shares its first block. -/
def latecomer : Sequence :=
  Sequence.new 0 0 (List.replicate 513 0) SamplingParams.default

omit [HashFunction] in
/-- The latecomer, after it got the shared block and two more. -/
@[irreducible] def latecomerAllocated : BlockPool × Sequence :=
  letI := collidingHash
  finalState (BlockPool.allocate 1 (indexedOwner.pool, latecomer))

omit [HashFunction] in
/-- The latecomer fills its second block in two chunks and begins its third one with an appended
token. -/
def latecomerActions : List FillAction :=
  [.hashChunk 100, .hashChunk 156, .appendToken 7, .appendBlock, .hashChunk 2]

omit [HashFunction] in
/-- The chunks of the latecomer are one pass over 258 tokens. -/
theorem hash_in_chunks_latecomer :
    letI := collidingHash
    ∃ pool' seq', performFill latecomerActions latecomerAllocated = some (pool', seq') ∧
      performFill [.appendToken 7, .appendBlock, .hashChunk 258] latecomerAllocated =
        some (pool', seq'.scheduled 0) := by
  let _ := collidingHash
  have hsome : (performFill latecomerActions latecomerAllocated).isSome = true := by
    decide +kernel
  obtain ⟨⟨pool', seq'⟩, hrun⟩ := Option.isSome_iff_exists.mp hsome
  have hallocate : BlockPool.allocate 1 (indexedOwner.pool, latecomer) =
      .ok () latecomerAllocated := by
    unfold latecomerAllocated
    refine eq_ok_finalState ?_
    decide +kernel
  have hreachable := reachable_indexedOwner.arrive
    (Sequence.unallocated_new (List.replicate 513 0) SamplingParams.default) length_indexedOwner
  exact ⟨pool', seq', hrun, (hreachable.hash_in_chunks List.mem_cons_self hallocate hrun).1⟩

end PoolState

end VllmOxide
