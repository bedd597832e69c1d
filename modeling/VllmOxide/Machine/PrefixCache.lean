import VllmOxide.Machine.EngineStep
import VllmOxide.Pool.Transactions

/-!
# Soundness of the prefix cache

In every reachable state, also after executions that failed half-way, a block with an identity holds
physically what the identity says, and reusing cached blocks gives a sequence exactly its own
leading tokens. Aborting always succeeds and leaves every block free.

## Main results

* `BlockPool.reuse_of_allocate`: the blocks that an allocation reuses.
* `EngineConfig.prefix_cache_sound`: soundness in every reachable state.
-/

namespace VllmOxide

/-! ### Reused blocks -/

theorem Sequence.block_eq_chunk_of_length {seq : Sequence}
    (hlen : seq.numTokens = seq.tokenIds.length) (i : ℕ) :
    seq.block i = chunk seq.tokenIds i := by
  rw [Sequence.block, List.extract_eq_take_drop, chunk, Nat.mul_comm i, hlen]
  refine List.take_eq_take_iff.mpr ?_
  rw [List.length_drop]
  omega

/-- The identity that the code builds for a block is the one of the token history, also for a last
block that is not full. -/
theorem Sequence.prefixIdentity_eq {seq : Sequence} (hlen : seq.numTokens = seq.tokenIds.length)
    (i : ℕ) : seq.prefixIdentity i = .ofTokens seq.tokenIds i := by
  induction i with
  | zero => rw [prefixIdentity, PrefixCacheIdentity.ofTokens, block_eq_chunk_of_length hlen]
  | succ i ih =>
    rw [prefixIdentity, PrefixCacheIdentity.ofTokens, block_eq_chunk_of_length hlen, ih]

namespace BlockPool

theorem isPrefix_of_allocateNewBlocks {n : ℕ} :
    ∀ {pool pool' : BlockPool} {seq seq' : Sequence},
      allocateNewBlocks n (pool, seq) = .ok () (pool', seq') →
      seq.blockTable <+: seq'.blockTable := by
  induction n with
  | zero =>
    intro pool pool' seq seq' h
    cases h
    exact List.prefix_rfl
  | succ n ih =>
    intro pool pool' seq seq' h
    simp only [allocateNewBlocks] at h
    split at h
    · cases h
    · exact (List.prefix_append _ _).trans (ih h)

/-- **Reuse.** The cached blocks that an allocation puts at the front of a table carry the token
chains of the sequence's own leading blocks, whatever the hash function returns. -/
theorem reuse_of_allocate [HashFunction] {pool pool' : BlockPool} {seq seq' : Sequence} {k : ℕ}
    (hlen : seq.numTokens = seq.tokenIds.length)
    (h : allocate k (pool, seq) = .ok () (pool', seq')) :
    ∀ i < k, ∃ b identity, seq'.blockTable[i]? = some b ∧ pool.identityAt b = some identity ∧
      identity.allTokens = seq.tokenIds.take (BLOCK_SIZE * (i + 1)) := by
  intro i hi
  simp only [allocate] at h
  split at h
  · cases h
  · rename_i hits hchecks
    split at h
    · cases h
    · rename_i hrun
      cases h
      obtain ⟨htable, -, rfl, hcount, -⟩ := of_allocateChecks hchecks
      have hlt : i < (pool.cachedPrefixBlockIds seq k).length := by omega
      have hhit := List.getElem?_eq_getElem hlt
      obtain ⟨-, hidentity⟩ := identityAt_cachedPrefixBlockIds hhit
      refine ⟨_, _, ?_, hidentity, ?_⟩
      · have hfront := isPrefix_of_allocateNewBlocks hrun
        rw [htable, List.nil_append] at hfront
        exact (List.prefix_iff_getElem?.mp hfront i hlt)
      · rw [Sequence.prefixIdentity_eq hlen, PrefixCacheIdentity.allTokens_ofTokens]

end BlockPool

/-! ### The reachable states -/

variable [HashFunction]

/-- **Prefix-cache soundness, across failed steps.** In every reachable state of the machine
* a block with a prefix identity consists of full blocks and holds physically the contents of the
  identity's token chain;
* the cached positions of a running sequence hold the contents of its own tokens;
* an allocation that reuses `k` cached blocks finds the sequence's own first `i + 1` blocks in the
  `i`-th of them;
* `abortAllRequests` succeeds and leaves both queues empty, no plan in flight, no block referenced
  and every block free.

Among the steps are executions that fail with any garbage in any slots of the plan, and aborts. -/
theorem EngineConfig.prefix_cache_sound {V : Type} (config : EngineConfig) (model : CausalModel V)
    (memory : Memory V) {log : List Operation} {m : Machine V}
    (h : Run (MachineStep model) (.initial config memory) log m) :
    (∀ b identity, m.engine.2.identityAt b = some identity → identity.Full ∧
      ∀ offset < BLOCK_SIZE, m.memory ((b * BLOCK_SIZE + offset : ℕ) : ℤ) =
        model.contentAt identity.allTokens (BLOCK_SIZE * (identity.depth - 1) + offset)) ∧
    (∀ seq ∈ m.engine.1.running, ∀ p < seq.numCachedTokens,
      m.memory (tableSlot seq.blockTable p) = model.contentAt seq.tokenIds p) ∧
    (∀ (pool pool' : BlockPool) (seq seq' : Sequence) (k : ℕ),
      seq.numTokens = seq.tokenIds.length →
      BlockPool.allocate k (pool, seq) = .ok () (pool', seq') →
      ∀ i < k, ∃ b identity, seq'.blockTable[i]? = some b ∧ pool.identityAt b = some identity ∧
        identity.allTokens = seq.tokenIds.take (BLOCK_SIZE * (i + 1))) ∧
    ∃ kv', Scheduler.abortAllRequests m.engine = .ok ()
        ({ m.engine.1 with running := [], waiting := [], inFlight := none }, kv') ∧
      kv'.blocks.length = config.numBlocks.val ∧ kv'.freeBlockIds.Nodup ∧
      ∀ b < kv'.blocks.length, (kv'.blockAt b).refCount = 0 ∧ b ∈ kv'.freeBlockIds := by
  have S := sound_of_run h
  have hrun := run_of_machine h
  have I := EngineConfig.inv_of_run hrun
  refine ⟨fun b identity hb => ⟨(I.core.pool.identities b identity hb).2.1,
    S.identities b identity hb⟩, S.cached,
    fun pool pool' seq seq' k hlen hallocate => BlockPool.reuse_of_allocate hlen hallocate, ?_⟩
  obtain ⟨kv', habort, I', hsame⟩ := I.abortAllRequests
  have hcleared : Cleared { m with
      engine := ({ m.engine.1 with running := [], waiting := [], inFlight := none }, kv') } :=
    cleared_of_inv I' rfl rfl rfl
  exact ⟨kv', habort, hsame.length.trans (EngineConfig.governs_of_run hrun).length,
    hcleared.nodup, hcleared.free⟩

/-- A network whose contents are the tokens, and which always says seven. -/
def CausalModel.echo : CausalModel Token where
  content token _ _ := token
  next _ _ _ _ := 7

/-- Add a request to the scheduler of an engine core. -/
def EngineCore.addRequest {V : Type} (core : EngineCore V) (promptTokenIds : List Token)
    (params : SamplingParams) : EngineCore V :=
  core.withEngine
    ((core.machine.engine.1.addRequest promptTokenIds params).2, core.machine.engine.2)

omit [HashFunction] in
/-- The second step of a request fails and leaves garbage in the slot of its new token. The first
block keeps its identity and its contents. -/
theorem prefix_cache_sound_failedStep :
    letI := constantHash
    let core := (EngineCore.initial (EngineConfig.plain 3 300 1) fun _ => (0 : Token)).addRequest
      (List.replicate 260 5) (.limited 2)
    let failed := ((core.stepInternal .echo .succeeds).2.stepInternal .echo
      (.fails "device lost" fun _ => some 9)).2
    failed.machine.memory 260 = 9 ∧ failed.isRunning = false ∧
      failed.machine.engine.2.identityAt 0 = some (.root (List.replicate 256 5)) ∧
      ∀ offset < BLOCK_SIZE, failed.machine.memory ((0 * BLOCK_SIZE + offset : ℕ) : ℤ) =
        CausalModel.echo.contentAt (List.replicate 256 5) (BLOCK_SIZE * (1 - 1) + offset) := by
  intro core failed
  let _ := constantHash
  have h₀ : Run (MachineStep .echo) (.initial (EngineConfig.plain 3 300 1) fun _ => (0 : Token))
      [.call (.accepted 0 (List.replicate 260 5) (.limited 2))] core.machine :=
    .single (.call (.addRequest _ _ _ _) rfl)
  obtain ⟨-, log₁, h₁, -⟩ := stepInternal_effect h₀ rfl .succeeds
  obtain ⟨-, log₂, h₂, -⟩ := stepInternal_effect h₁
    (Option.isNone_iff_eq_none.mp (by decide +kernel)) (.fails "device lost" fun _ => some 9)
  have hidentity : failed.machine.engine.2.identityAt 0 = some (.root (List.replicate 256 5)) := by
    decide +kernel
  have hsound := EngineConfig.prefix_cache_sound _ CausalModel.echo _ h₂
  exact ⟨by decide +kernel, by decide +kernel, hidentity, (hsound.1 0 _ hidentity).2⟩

end VllmOxide
