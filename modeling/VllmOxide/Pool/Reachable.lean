import Mathlib.Logic.Relation
import VllmOxide.Pool.Append
import VllmOxide.Pool.Index

/-!
# The block pool as a transition system

The state is a pool together with the live sequences, those that own blocks and those that wait
for some. A step is one call of an operation of the pool, with any arguments and any outcome, or
a change of a sequence by its owner: a request arrives or goes, and a history grows. Sequences
are objects in memory, so there are at most `USIZE_MAX` of them.

The pool is called for sequences whose progress lies inside their block table and their history:
`hashBlocks` reads the table and the tokens up to the end of the scheduled work.

## Main definitions

* `PoolState`, `PoolStep`, `PoolState.Reachable`: the states, the steps, and what they reach from
  a fresh pool.
* `PoolState.Ok`: the invariant of reachable states.

## Main results

* `BlockPool.Invariant.allocate_of_checks`: once its checks pass, `allocate` succeeds.
* `PoolState.Reachable.ok`: the invariant holds in every reachable state.
-/

namespace VllmOxide

/-- A pool and the live sequences. -/
structure PoolState where
  pool : BlockPool
  seqs : List Sequence

/-- A fresh pool, before any request. -/
def PoolState.initial (numBlocks : Usize) (prefixCacheEnabled : Bool) : PoolState :=
  ⟨.newInner numBlocks.val BLOCK_SIZE prefixCacheEnabled, []⟩

/-- A sequence without blocks: a new request, or one that has given its blocks back. -/
structure Sequence.Unallocated (seq : Sequence) : Prop where
  blockTable : seq.blockTable = []
  numCachedTokens : seq.numCachedTokens = 0
  numTokens : seq.numTokens = seq.tokenIds.length

theorem Sequence.unallocated_new (tokenIds : List Token) (params : SamplingParams) :
    (Sequence.new 0 0 tokenIds params).Unallocated :=
  ⟨rfl, rfl, rfl⟩

/-- A change that the owner of a sequence makes: the history may grow, and everything that the
pool does not read may change. -/
structure Sequence.Updates (seq seq' : Sequence) : Prop where
  blockTable : seq'.blockTable = seq.blockTable
  numCachedTokens : seq'.numCachedTokens = seq.numCachedTokens
  tokenIds : ∃ more, seq'.tokenIds = seq.tokenIds ++ more
  numTokens : seq'.numTokens = seq'.tokenIds.length

/-- The scheduled work of a sequence lies inside its history and its block table. -/
structure Sequence.WorkFits (seq : Sequence) : Prop where
  le_tokens : seq.numCachedTokens + seq.numScheduledTokens ≤ seq.numTokens
  le_table : seq.numCachedTokens + seq.numScheduledTokens ≤ BLOCK_SIZE * seq.blockTable.length

/-- The scheduled work is done: its tokens count as cached. -/
def Sequence.workDone (seq : Sequence) : Sequence :=
  { seq with
    numCachedTokens := seq.numCachedTokens + seq.numScheduledTokens
    numScheduledTokens := 0 }

variable [HashFunction]

/-- The steps of a pool and its sequences. The sequences of a call are taken from any places. -/
inductive PoolStep : PoolState → PoolState → Prop
  | arrive {pool : BlockPool} {seqs : List Sequence} (seq : Sequence) (hseq : seq.Unallocated)
      (hroom : seqs.length < USIZE_MAX) : PoolStep ⟨pool, seqs⟩ ⟨pool, seq :: seqs⟩
  | leave {pool : BlockPool} {seqs rest : List Sequence} {seq : Sequence}
      (hmem : seqs.Perm (seq :: rest)) (hseq : seq.blockTable = []) :
      PoolStep ⟨pool, seqs⟩ ⟨pool, rest⟩
  | update {pool : BlockPool} {seqs rest : List Sequence} {seq seq' : Sequence}
      (hmem : seqs.Perm (seq :: rest)) (hupdate : seq.Updates seq') :
      PoolStep ⟨pool, seqs⟩ ⟨pool, seq' :: rest⟩
  | allocate {pool pool' : BlockPool} {seqs rest : List Sequence} {seq seq' : Sequence} {k : ℕ}
      (hmem : seqs.Perm (seq :: rest))
      (h : BlockPool.allocate k (pool, seq) = .ok () (pool', seq')) :
      PoolStep ⟨pool, seqs⟩ ⟨pool', seq' :: rest⟩
  | allocateFails {pool pool' : BlockPool} {seqs rest : List Sequence} {seq seq' : Sequence}
      {k : ℕ} {error : BlockPoolError} (hmem : seqs.Perm (seq :: rest))
      (h : BlockPool.allocate k (pool, seq) = .error error (pool', seq')) :
      PoolStep ⟨pool, seqs⟩ ⟨pool', seq' :: rest⟩
  | append {pool pool' : BlockPool} {seqs batch batch' rest : List Sequence}
      (hmem : seqs.Perm (batch ++ rest))
      (h : BlockPool.mayAppendBatch (pool, batch) = .ok () (pool', batch')) :
      PoolStep ⟨pool, seqs⟩ ⟨pool', batch' ++ rest⟩
  | appendFails {pool pool' : BlockPool} {seqs batch batch' rest : List Sequence}
      {error : BlockPoolError} (hmem : seqs.Perm (batch ++ rest))
      (h : BlockPool.mayAppendBatch (pool, batch) = .error error (pool', batch')) :
      PoolStep ⟨pool, seqs⟩ ⟨pool', batch' ++ rest⟩
  | release {pool pool' : BlockPool} {seqs batch batch' rest : List Sequence}
      (hmem : seqs.Perm (batch ++ rest))
      (h : pool.deallocateBatch batch = .ok (pool', batch')) :
      PoolStep ⟨pool, seqs⟩ ⟨pool', batch' ++ rest⟩
  | hash {pool : BlockPool} {seqs rest : List Sequence} {seq : Sequence}
      (hmem : seqs.Perm (seq :: rest)) (hwork : seq.WorkFits) :
      PoolStep ⟨pool, seqs⟩ ⟨pool.hashBlocks seq, seq.workDone :: rest⟩

/-- The states that the operations reach from a fresh pool. -/
def PoolState.Reachable (st : PoolState) : Prop :=
  ∃ numBlocks prefixCacheEnabled,
    Relation.ReflTransGen PoolStep (PoolState.initial numBlocks prefixCacheEnabled) st

/-! ### Calls for the newest sequence -/

namespace PoolState

omit [HashFunction] in
/-- A request with the given history arrives. -/
def request (st : PoolState) (tokenIds : List Token) : PoolState :=
  ⟨st.pool, Sequence.new 0 0 tokenIds SamplingParams.default :: st.seqs⟩

/-- `allocate` for the newest sequence. -/
def allocateNewest (st : PoolState) (k : ℕ) : PoolState :=
  match st.seqs with
  | [] => st
  | seq :: rest =>
    match BlockPool.allocate k (st.pool, seq) with
    | .ok () (pool, seq) => ⟨pool, seq :: rest⟩
    | .error _ (pool, seq) => ⟨pool, seq :: rest⟩

/-- The newest sequence schedules `n` more tokens and indexes the blocks that they fill. -/
def hashNewest (st : PoolState) (n : ℕ) : PoolState :=
  match st.seqs with
  | [] => st
  | seq :: rest =>
    let seq := { seq with numScheduledTokens := n }
    ⟨st.pool.hashBlocks seq, seq.workDone :: rest⟩

/-- The newest sequence has `n` more tokens of its history in its block table. -/
def NewestFits (st : PoolState) (n : ℕ) : Prop :=
  ∀ seq ∈ st.seqs.head?, seq.numTokens = seq.tokenIds.length ∧
    seq.numCachedTokens + n ≤ min seq.numTokens (BLOCK_SIZE * seq.blockTable.length)

omit [HashFunction] in
instance (st : PoolState) (n : ℕ) : Decidable (st.NewestFits n) :=
  inferInstanceAs (Decidable (∀ seq ∈ st.seqs.head?, _))

omit [HashFunction] in
/-- All sequences give their blocks back. -/
def releaseAll (st : PoolState) : PoolState :=
  match st.pool.deallocateBatch st.seqs with
  | .ok (pool, seqs) => ⟨pool, seqs⟩
  | .error _ => st

theorem step_allocateNewest (pool : BlockPool) (seq : Sequence) (rest : List Sequence) (k : ℕ) :
    PoolStep ⟨pool, seq :: rest⟩ (allocateNewest ⟨pool, seq :: rest⟩ k) := by
  simp only [PoolState.allocateNewest]
  split
  · exact .allocate (.refl _) ‹_›
  · exact .allocateFails (.refl _) ‹_›

theorem step_request {st : PoolState} (hroom : st.seqs.length < USIZE_MAX)
    (tokenIds : List Token) : PoolStep st (st.request tokenIds) :=
  .arrive _ (Sequence.unallocated_new _ _) hroom

theorem step_releaseAll {st : PoolState} {released : BlockPool × List Sequence}
    (h : st.pool.deallocateBatch st.seqs = .ok released) : PoolStep st st.releaseAll := by
  obtain ⟨pool, seqs⟩ := st
  obtain ⟨pool', seqs'⟩ := released
  have hstep := @PoolStep.release _ pool pool' seqs seqs seqs' [] (by simp) h
  rw [List.append_nil] at hstep
  rwa [releaseAll, h]

/-- The newest sequence schedules its tokens first, which leaves the pool as it is. -/
theorem steps_hashNewest {st : PoolState} {n : ℕ} (hfits : st.NewestFits n) (hne : st.seqs ≠ []) :
    ∃ scheduled, PoolStep st scheduled ∧ PoolStep scheduled (st.hashNewest n) ∧
      scheduled.pool = st.pool := by
  obtain ⟨pool, seqs⟩ := st
  cases seqs with
  | nil => exact absurd rfl hne
  | cons seq rest =>
    obtain ⟨hlen, hle⟩ := hfits seq rfl
    have hupdate : seq.Updates { seq with numScheduledTokens := n } :=
      ⟨rfl, rfl, ⟨[], by simp⟩, hlen⟩
    exact ⟨_, .update (.refl _) hupdate,
      .hash (.refl _) ⟨hle.trans (min_le_left _ _), hle.trans (min_le_right _ _)⟩, rfl⟩

namespace Reachable

variable {st st' : PoolState}

theorem initial (numBlocks : Usize) (prefixCacheEnabled : Bool) :
    (PoolState.initial numBlocks prefixCacheEnabled).Reachable :=
  ⟨numBlocks, prefixCacheEnabled, .refl⟩

theorem step (h : st.Reachable) (hstep : PoolStep st st') : st'.Reachable := by
  obtain ⟨numBlocks, enabled, hrun⟩ := h
  exact ⟨numBlocks, enabled, hrun.tail hstep⟩

theorem arrive (h : st.Reachable) {seq : Sequence} (hseq : seq.Unallocated)
    (hroom : st.seqs.length < USIZE_MAX) : Reachable ⟨st.pool, seq :: st.seqs⟩ :=
  h.step (.arrive seq hseq hroom)

theorem request (h : st.Reachable) (hroom : st.seqs.length < USIZE_MAX) (tokenIds : List Token) :
    (st.request tokenIds).Reachable :=
  h.step (step_request hroom tokenIds)

theorem allocateNewest (h : st.Reachable) (k : ℕ) : (st.allocateNewest k).Reachable := by
  obtain ⟨pool, seqs⟩ := st
  cases seqs with
  | nil => exact h
  | cons seq rest => exact h.step (step_allocateNewest pool seq rest k)

theorem releaseAll (h : st.Reachable) : st.releaseAll.Reachable := by
  obtain ⟨pool, seqs⟩ := st
  cases hrun : pool.deallocateBatch seqs with
  | ok released => exact h.step (step_releaseAll hrun)
  | error error => rwa [PoolState.releaseAll, hrun]

theorem hashNewest (h : st.Reachable) {n : ℕ} (hfits : st.NewestFits n) :
    (st.hashNewest n).Reachable := by
  by_cases hne : st.seqs = []
  · rwa [PoolState.hashNewest, hne]
  · obtain ⟨scheduled, hschedule, hhash, -⟩ := steps_hashNewest hfits hne
    exact (h.step hschedule).step hhash

end Reachable

end PoolState

/-! ### Owners without blocks, and allocation in general -/

namespace BlockPool.Invariant

variable {pool pool' : BlockPool} {h : Holder} {hs : List Holder}

/-- A holder without blocks does not matter. -/
theorem cons_iff_of_nil (htable : h.blockTable = []) (hle : h.numCachedTokens ≤ h.tokenIds.length) :
    pool.Invariant (h :: hs) ↔ pool.Invariant hs := by
  have hholders : ∀ b, holders (tables (h :: hs)) b = holders (tables hs) b := by
    intro b
    simp [htable]
  constructor
  · intro I
    exact ⟨I.ledger.congr fun b => (hholders b).symm, I.blockSize, I.capacity,
      fun g hg => I.nodup g (List.mem_cons_of_mem _ hg),
      fun g hg => I.cached_le g (List.mem_cons_of_mem _ hg),
      fun g hg => I.cached g (List.mem_cons_of_mem _ hg),
      fun b hb => I.shared b (by rwa [hholders]), I.identities⟩
  · intro I
    refine ⟨I.ledger.congr hholders, I.blockSize, I.capacity, ?_, ?_, ?_,
      fun b hb => I.shared b (by rwa [← hholders]), I.identities⟩
    · rintro g (_ | ⟨_, hg⟩)
      · simp [htable]
      · exact I.nodup g hg
    · rintro g (_ | ⟨_, hg⟩)
      · exact hle
      · exact I.cached_le g hg
    · rintro g (_ | ⟨_, hg⟩) i b hb
      · simp [htable] at hb
      · exact I.cached g hg i b hb

omit [HashFunction] in
/-- A block that closes a full chain is full. -/
theorem le_numTokens_of_full {seq : Sequence} {i : ℕ} (h : (seq.prefixIdentity i).Full) :
    BLOCK_SIZE * (i + 1) ≤ seq.numTokens := by
  have hblock : (seq.block i).length = BLOCK_SIZE := by
    cases i with
    | zero => exact h
    | succ i => exact h.2
  rw [Sequence.block, List.extract_eq_take_drop, List.length_take, List.length_drop] at hblock
  simp only [BLOCK_SIZE] at *
  omega

/-- The blocks of a lookup carry the chain of the token history. -/
theorem hit_eq_ofTokens (I : pool.Invariant hs) {seq : Sequence} {n i b : ℕ}
    (hhit : (pool.cachedPrefixBlockIds seq n)[i]? = some b) :
    pool.identityAt b = some (.ofTokens seq.tokenIds i) ∧
      BLOCK_SIZE * (i + 1) ≤ seq.numTokens := by
  have hid := (identityAt_cachedPrefixBlockIds hhit).2
  have hfull := le_numTokens_of_full (I.identities b _ hid).2.1
  rw [hid, Sequence.prefixIdentity_eq_ofTokens hfull]
  exact ⟨rfl, hfull⟩

/-- **Allocation.** Once the checks of `allocate` pass it succeeds, for any number of cached
blocks. -/
theorem allocate_of_checks (I : pool.Invariant hs) {seq : Sequence} {k : ℕ} {hits : List ℕ}
    (hlen : seq.numTokens = seq.tokenIds.length)
    (hchecks : pool.allocateChecks seq k = .ok hits) :
    ∃ pool' fresh, BlockPool.allocate k (pool, seq) =
        .ok () (pool', { seq with
          blockTable := hits ++ fresh
          numCachedTokens := BLOCK_SIZE * k }) ∧
      k + fresh.length = seq.numBlocks ∧
      pool'.Invariant (⟨hits ++ fresh, BLOCK_SIZE * k, seq.tokenIds⟩ :: hs) ∧
      pool'.freeBlockIds.length + seq.numBlocks =
        pool.freeBlockIds.length + (hits.filter (· ∈ pool.usedBlockIds)).length := by
  obtain ⟨htable, hk, hhits, hcount, hroom, -⟩ := of_allocateChecks hchecks
  have hnodup : hits.Nodup := hhits ▸ nodup_cachedPrefixBlockIds pool seq k
  have hlt : ∀ b ∈ hits, b < pool.blocks.length := fun b hb =>
    lt_of_mem_cachedPrefixBlockIds (hhits ▸ hb)
  have hchain : ∀ i b, hits[i]? = some b → pool.identityAt b = some (.ofTokens seq.tokenIds i) ∧
      BLOCK_SIZE * (i + 1) ≤ seq.numTokens := fun i b hb => I.hit_eq_ofTokens (hhits ▸ hb)
  have hle : BLOCK_SIZE * k ≤ seq.numTokens := by
    cases k with
    | zero => exact Nat.zero_le _
    | succ k => exact (hchain k _ (List.getElem?_eq_getElem (by omega))).2
  have I₁ := I.claim seq.tokenIds hnodup hlt (fun i b hb => (hchain i b hb).1)
    (by rw [hcount, ← hlen]; exact hle)
  obtain ⟨-, -, hfree₁⟩ := I.ledger.claimCachedBlocks hlt hnodup
  obtain ⟨pool₂, fresh, hrun, I₂, hfree₂, hfresh, -⟩ := allocateNewBlocks
    (n := seq.numBlocks - k)
    { seq with blockTable := seq.blockTable ++ hits } I₁ (by simp [htable]) (le_refl _)
    (by rw [hfree₁]; exact hroom)
  refine ⟨pool₂, fresh, ?_, by omega, hcount ▸ I₂, ?_⟩
  · have hsize₂ : pool₂.blockSize = BLOCK_SIZE := I₂.blockSize
    simp only [BlockPool.allocate, hchecks]
    dsimp only [Sequence.numBlocks] at hrun ⊢
    rw [hrun]
    simp only [hsize₂, htable, List.nil_append, Nat.mul_comm k]
  · -- a hit without holder is on the free list
    have hfilter := length_filter_notMem_add I.ledger.nodup_free hnodup
    have hsplit := List.length_eq_length_filter_add (l := hits)
      fun b => decide (b ∈ pool.usedBlockIds)
    have hfreehits : (hits.filter fun b => !decide (b ∈ pool.usedBlockIds)).length =
        (hits.filter (· ∈ pool.freeBlockIds)).length := by
      congr 1
      refine List.filter_congr fun b hb => ?_
      rw [← decide_not]
      refine decide_eq_decide.mpr ?_
      rw [I.ledger.mem_used b, I.ledger.mem_free b, not_not]
      exact ⟨fun hown => ⟨hlt b hb, hown⟩, fun hown => hown.2⟩
    have hlength := congrArg List.length (hfree₁.symm.trans hfree₂)
    rw [List.length_append] at hlength
    omega

/-- **Failed allocation.** It changes nothing: the free list never offers a cached block in use. -/
theorem transactional_allocate (I : pool.Invariant hs) {seq : Sequence}
    (hlen : seq.numTokens = seq.tokenIds.length) (k : ℕ) :
    Transactional (BlockPool.allocate k) (pool, seq) := by
  cases hchecks : pool.allocateChecks seq k with
  | error error => exact .of_check ⟨error, by simp only [BlockPool.allocate, hchecks]⟩
  | ok hits =>
    obtain ⟨pool', fresh, hrun, -⟩ := I.allocate_of_checks hlen hchecks
    exact .of_succeeds ⟨(), _, hrun⟩

/-- Sequences that have given their blocks back do not matter. -/
theorem append_released (I : pool.Invariant hs) (seqs : List Sequence) :
    pool.Invariant ((seqs.map released).map Sequence.holder ++ hs) := by
  induction seqs with
  | nil => exact I
  | cons seq rest ih => exact (cons_iff_of_nil rfl (Nat.zero_le _)).mpr ih

end BlockPool.Invariant

omit [HashFunction] in
/-- A batch that `mayAppendBatch` accepts is ready for it. -/
theorem BlockPool.ready_of_mayAppendBatch {pool pool' : BlockPool} {seqs seqs' : List Sequence}
    (hcached : ∀ seq ∈ seqs, seq.numCachedTokens ≤ BLOCK_SIZE * seq.blockTable.length)
    (h : mayAppendBatch (pool, seqs) = .ok () (pool', seqs')) :
    (∀ seq ∈ seqs, seq.AppendReady) ∧ missingBlocks seqs ≤ pool.freeBlockIds.length := by
  have hloop : ∀ {seqs found : List Sequence}, appendIndices seqs = .ok found →
      (∀ seq ∈ seqs, seq.numCachedTokens ≤ BLOCK_SIZE * seq.blockTable.length) →
      ∀ seq ∈ seqs, seq.AppendReady := by
    intro seqs
    induction seqs with
    | nil => simp
    | cons seq rest ih =>
      intro found h hcached
      simp only [appendIndices] at h
      split at h
      · cases h
      · split at h
        · cases h
        · split at h
          · cases h
          · rename_i hle hone _ hrest
            refine List.forall_mem_cons.mpr ⟨⟨by omega, by omega,
              hcached seq List.mem_cons_self⟩, ih hrest fun q hq =>
                hcached q (List.mem_cons_of_mem _ hq)⟩
  rw [mayAppendBatch] at h
  split at h
  · cases h
  · rename_i found hindices
    have hready := hloop hindices hcached
    split at h
    · cases h
    · rename_i hroom
      obtain ⟨needing, hneeding, hcount⟩ := appendIndices_of_ready hready
      obtain rfl : needing = found := Except.ok.inj (hneeding.symm.trans hindices)
      exact ⟨hready, by omega⟩

/-! ### The invariant -/

/-- The invariant of a pool and its live sequences. -/
structure PoolState.Ok (st : PoolState) : Prop where
  invariant : st.pool.Invariant (st.seqs.map Sequence.holder)
  indexed : st.pool.Indexed
  numTokens : ∀ seq ∈ st.seqs, seq.numTokens = seq.tokenIds.length
  cached_le : ∀ seq ∈ st.seqs, seq.numCachedTokens ≤ BLOCK_SIZE * seq.blockTable.length
  length_le : st.seqs.length ≤ USIZE_MAX

namespace PoolState.Ok

open BlockPool

variable {pool pool' : BlockPool} {seqs rest batch batch' : List Sequence} {seq seq' : Sequence}

theorem initial (numBlocks : Usize) (prefixCacheEnabled : Bool) :
    (PoolState.initial numBlocks prefixCacheEnabled).Ok where
  invariant := .newInner numBlocks.property prefixCacheEnabled
  indexed := .newInner _ _ _
  numTokens := by simp [PoolState.initial]
  cached_le := by simp [PoolState.initial]
  length_le := Nat.zero_le _

theorem perm (O : PoolState.Ok ⟨pool, seqs⟩) (h : seqs.Perm batch) :
    PoolState.Ok ⟨pool, batch⟩ where
  invariant := O.invariant.perm (h.map _)
  indexed := O.indexed
  numTokens q hq := O.numTokens q (h.mem_iff.mpr hq)
  cached_le q hq := O.cached_le q (h.mem_iff.mpr hq)
  length_le := h.length_eq ▸ O.length_le

/-- The sequences of a call change, with the pool; the others stay. -/
theorem replace (batch batch' : List Sequence) (O : PoolState.Ok ⟨pool, batch ++ rest⟩)
    (I : pool'.Invariant (batch'.map Sequence.holder ++ rest.map Sequence.holder))
    (X : pool'.Indexed)
    (hbatch : ∀ q ∈ batch', q.numTokens = q.tokenIds.length ∧
      q.numCachedTokens ≤ BLOCK_SIZE * q.blockTable.length)
    (hlength : batch'.length ≤ batch.length) : PoolState.Ok ⟨pool', batch' ++ rest⟩ where
  invariant := by
    rw [List.map_append]
    exact I
  indexed := X
  numTokens q hq := (List.mem_append.mp hq).elim (fun hq => (hbatch q hq).1)
    fun hq => O.numTokens q (List.mem_append_right _ hq)
  cached_le q hq := (List.mem_append.mp hq).elim (fun hq => (hbatch q hq).2)
    fun hq => O.cached_le q (List.mem_append_right _ hq)
  length_le := by
    have hle := O.length_le
    rw [List.length_append] at hle ⊢
    omega

theorem arrive (O : PoolState.Ok ⟨pool, seqs⟩) (hseq : seq.Unallocated)
    (hroom : seqs.length < USIZE_MAX) : PoolState.Ok ⟨pool, seq :: seqs⟩ where
  invariant := (Invariant.cons_iff_of_nil hseq.blockTable
    (by simp [Sequence.holder, hseq.numCachedTokens])).mpr O.invariant
  indexed := O.indexed
  numTokens := List.forall_mem_cons.mpr ⟨hseq.numTokens, O.numTokens⟩
  cached_le := List.forall_mem_cons.mpr ⟨by simp [hseq.numCachedTokens], O.cached_le⟩
  length_le := hroom

theorem leave (O : PoolState.Ok ⟨pool, seq :: rest⟩) (hseq : seq.blockTable = []) :
    PoolState.Ok ⟨pool, rest⟩ where
  invariant := (Invariant.cons_iff_of_nil hseq
    (O.invariant.cached_le _ List.mem_cons_self)).mp O.invariant
  indexed := O.indexed
  numTokens q hq := O.numTokens q (List.mem_cons_of_mem _ hq)
  cached_le q hq := O.cached_le q (List.mem_cons_of_mem _ hq)
  length_le := Nat.le_of_succ_le O.length_le

theorem update (O : PoolState.Ok ⟨pool, seq :: rest⟩) (h : seq.Updates seq') :
    PoolState.Ok ⟨pool, seq' :: rest⟩ := by
  obtain ⟨more, hmore⟩ := h.tokenIds
  have hholder : seq'.holder = { seq.holder with tokenIds := seq.holder.tokenIds ++ more } := by
    simp only [Sequence.holder, h.blockTable, h.numCachedTokens, hmore]
  refine replace [seq] [seq'] O ?_ O.indexed ?_ (le_refl _)
  · rw [List.map_singleton, hholder]
    exact O.invariant.appendTokens more
  · rintro q (_ | ⟨_, ⟨⟩⟩)
    rw [h.blockTable, h.numCachedTokens]
    exact ⟨h.numTokens, O.cached_le seq List.mem_cons_self⟩

theorem allocate {k : ℕ} (O : PoolState.Ok ⟨pool, seq :: rest⟩)
    (h : BlockPool.allocate k (pool, seq) = .ok () (pool', seq')) :
    PoolState.Ok ⟨pool', seq' :: rest⟩ := by
  have hlen := O.numTokens seq List.mem_cons_self
  cases hchecks : pool.allocateChecks seq k with
  | error error => simp only [BlockPool.allocate, hchecks] at h; cases h
  | ok hits =>
    obtain ⟨htable, -, -, hcount, -⟩ := of_allocateChecks hchecks
    have I := (Invariant.cons_iff_of_nil htable
      (O.invariant.cached_le _ List.mem_cons_self)).mp O.invariant
    obtain ⟨pool₁, fresh, hrun, -, I₁, -⟩ := I.allocate_of_checks hlen hchecks
    have X := O.indexed.allocate h
    rw [hrun] at h
    cases h
    refine replace [seq]
      [{ seq with blockTable := hits ++ fresh, numCachedTokens := BLOCK_SIZE * k }] O I₁ X ?_
      (le_refl _)
    rintro q (_ | ⟨_, ⟨⟩⟩)
    refine ⟨hlen, Nat.mul_le_mul_left _ ?_⟩
    rw [List.length_append]
    omega

theorem append (O : PoolState.Ok ⟨pool, batch ++ rest⟩)
    (h : BlockPool.mayAppendBatch (pool, batch) = .ok () (pool', batch')) :
    PoolState.Ok ⟨pool', batch' ++ rest⟩ := by
  have hmem : ∀ q ∈ batch, q ∈ batch ++ rest := fun q hq => List.mem_append_left _ hq
  obtain ⟨hready, hmissing⟩ := ready_of_mayAppendBatch
    (fun q hq => O.cached_le q (hmem q hq)) h
  have I := O.invariant
  rw [List.map_append] at I
  obtain ⟨pool₁, seqs₁, hrun, hrel, I₁, -⟩ := I.mayAppendBatch hready hmissing
  have X := O.indexed.mayAppendBatch h
  rw [hrun] at h
  cases h
  refine replace _ _ O I₁ X (fun q' hq' => ?_) hrel.length_eq.ge
  obtain ⟨q, hq, happended⟩ := exists_of_forall₂ hrel hq'
  rw [happended.eq]
  exact ⟨O.numTokens q (hmem q hq), (O.cached_le q (hmem q hq)).trans
    (Nat.mul_le_mul_left _ happended.isPrefix.length_le)⟩

theorem release (O : PoolState.Ok ⟨pool, batch ++ rest⟩)
    (h : pool.deallocateBatch batch = .ok (pool', batch')) :
    PoolState.Ok ⟨pool', batch' ++ rest⟩ := by
  have I := O.invariant
  have hle := O.length_le
  rw [List.map_append] at I
  rw [List.length_append] at hle
  obtain ⟨pool₁, hrun, I₁, hsame⟩ := I.release (by omega)
  rw [hrun] at h
  cases h
  refine replace _ _ O (I₁.append_released batch) (O.indexed.of_sameContent hsame) ?_ (by simp)
  intro q hq
  obtain ⟨seq, hseq, rfl⟩ := List.mem_map.mp hq
  exact ⟨O.numTokens seq (List.mem_append_left _ hseq), Nat.zero_le _⟩

theorem hash (O : PoolState.Ok ⟨pool, seq :: rest⟩) (hwork : seq.WorkFits) :
    PoolState.Ok ⟨pool.hashBlocks seq, seq.workDone :: rest⟩ := by
  have hlen := O.numTokens seq List.mem_cons_self
  have hlt : ∀ b ∈ seq.blockTable, b < pool.blocks.length := fun b hb =>
    O.invariant.ledger.lt_length (Invariant.holders_ne_zero List.mem_cons_self hb)
  have I := O.invariant.hashBlocks hlen hwork.le_tokens hwork.le_table
  refine replace [seq] [seq.workDone] O I
    (O.indexed.hashBlocks O.invariant.blockSize hwork.le_table hlt) ?_ (le_refl _)
  rintro q (_ | ⟨_, ⟨⟩⟩)
  exact ⟨hlen, hwork.le_table⟩

/-- Every step keeps the invariant. -/
theorem step {st st' : PoolState} (O : st.Ok) (h : PoolStep st st') : st'.Ok := by
  cases h with
  | arrive seq hseq hroom => exact O.arrive hseq hroom
  | leave hmem hseq => exact (O.perm hmem).leave hseq
  | update hmem hupdate => exact (O.perm hmem).update hupdate
  | allocate hmem h => exact (O.perm hmem).allocate h
  | @allocateFails pool pool' seqs rest seq seq' k error hmem h =>
    have O' := O.perm hmem
    have htrans : Transactional (BlockPool.allocate k) (pool, seq) :=
      O'.invariant.transactional_allocate (O'.numTokens seq List.mem_cons_self) k
    cases htrans error _ h
    exact O'
  | @appendFails pool pool' seqs batch batch' rest error hmem h =>
    cases pool.transactional_mayAppendBatch batch error _ h
    exact O.perm hmem
  | append hmem h => exact (O.perm hmem).append h
  | release hmem h => exact (O.perm hmem).release h
  | hash hmem hwork => exact (O.perm hmem).hash hwork

end PoolState.Ok

/-- **The invariant of reachable states.** -/
theorem PoolState.Reachable.ok {st : PoolState} (h : st.Reachable) : st.Ok := by
  obtain ⟨numBlocks, enabled, hrun⟩ := h
  induction hrun with
  | refl => exact .initial numBlocks enabled
  | tail _ hstep ih => exact ih.step hstep

end VllmOxide
