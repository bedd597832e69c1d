import VllmOxide.Pool.Slots
import VllmOxide.System.Engine

/-!
# Block ownership and write isolation

Two consequences of the invariant for every reachable state. The ownership fields of the pool
agree with the block tables of the running sequences, whatever calls were made before and however
they ended. And the slots that a plan writes are private: they lie in blocks that only the planned
sequence holds and that no lookup can return.

## Main results

* `EngineConfig.block_ownership`: free list, used set, reference counts and block tables agree.
* `EngineConfig.write_isolation`: the slots of a plan are distinct and private.
-/

namespace VllmOxide

variable [HashFunction]

/-- The free list, the used set, the reference counts and the block tables tell the same story:
* the free list has no duplicates, and a block is in exactly one of free list and used set;
* the reference count of a block is the number of running sequences whose table contains it, and
  it is zero exactly for the free blocks;
* the tables of the running sequences consist of distinct blocks in range;
* the waiting sequences own nothing and have nothing cached. -/
theorem EngineConfig.block_ownership (config : EngineConfig) {log : List Event} {s : Scheduler}
    {kv : BlockPool} (h : Run Step config.initial log (s, kv)) :
    kv.blocks.length = config.numBlocks.val ∧
      kv.freeBlockIds.Nodup ∧
      (∀ b, b ∈ kv.freeBlockIds ∨ b ∈ kv.usedBlockIds ↔ b < kv.blocks.length) ∧
      (∀ b, ¬ (b ∈ kv.freeBlockIds ∧ b ∈ kv.usedBlockIds)) ∧
      (∀ b (hb : b < kv.blocks.length), kv.blocks[b].refCount =
        s.running.countP fun seq => b ∈ seq.blockTable) ∧
      (∀ b (hb : b < kv.blocks.length), kv.blocks[b].refCount = 0 ↔ b ∈ kv.freeBlockIds) ∧
      (∀ seq ∈ s.running, seq.blockTable.Nodup ∧ ∀ b ∈ seq.blockTable, b < kv.blocks.length) ∧
      ∀ seq ∈ s.waiting, seq.blockTable = [] ∧ seq.numCachedTokens = 0 := by
  have C := (EngineConfig.inv_of_run h).core
  have L := C.pool.ledger
  have hcount : ∀ b, holders (tables s.holders) b =
      s.running.countP fun seq => b ∈ seq.blockTable := by
    intro b
    rw [Scheduler.holders, tables_map_holder, holders, List.countP_map]
    rfl
  have href : ∀ b (hb : b < kv.blocks.length), kv.blocks[b].refCount =
      holders (tables s.holders) b := by
    intro b hb
    rw [← L.refCount b, BlockPool.blockAt, List.getD_eq_getElem?_getD,
      List.getElem?_eq_getElem hb, Option.getD_some]
  refine ⟨(EngineConfig.governs_of_run h).length, L.nodup_free, fun b => ?_, fun b hb => ?_,
    fun b hb => (href b hb).trans (hcount b), fun b hb => ?_, fun seq hseq => ?_,
    fun seq hseq => ⟨(C.waiting seq hseq).table, (C.waiting seq hseq).cached⟩⟩
  · rw [L.mem_free, L.mem_used]
    by_cases hown : holders (tables s.holders) b = 0
    · simp [hown]
    · simp [hown, L.lt_length hown]
  · exact (L.mem_used b).mp hb.2 (L.own_of_mem_free hb.1)
  · rw [href b hb, L.mem_free]
    exact ⟨fun hzero => ⟨hb, hzero⟩, fun hfree => hfree.2⟩
  · have hmem := List.mem_map_of_mem (f := Sequence.holder) hseq
    exact ⟨C.pool.nodup _ hmem, fun b hb =>
      L.lt_length (BlockPool.Invariant.holders_ne_zero hmem hb)⟩

omit [HashFunction] in
/-- Two requests run on a block each. -/
theorem block_ownership_twoRequests :
    letI := constantHash
    let st := (performAll (EngineConfig.plain 3 8 2).initial (twoRequests ++ [.planStep])).2
    st.1.running.map (·.blockTable) = [[0], [1]] ∧ st.2.freeBlockIds = [2] ∧
      ∀ b (hb : b < st.2.blocks.length), st.2.blocks[b].refCount =
        st.1.running.countP fun seq => b ∈ seq.blockTable := by
  let _ := constantHash
  have h := EngineConfig.block_ownership (EngineConfig.plain 3 8 2)
    (run_performAll (twoRequests ++ [.planStep]) _)
  exact ⟨by decide +kernel, by decide +kernel, h.2.2.2.2.1⟩

/-! ### Write isolation -/

omit [HashFunction] in
/-- The scheduled positions of a sequence lie within its table. -/
theorem Sequence.WorkOk.le_table {seq : Sequence} (h : seq.WorkOk)
    (hpos : 0 < seq.numScheduledTokens) :
    seq.numCachedTokens + seq.numScheduledTokens ≤ BLOCK_SIZE * seq.blockTable.length := by
  rw [h.table hpos]
  exact h.le.trans seq.le_numBlocks_mul

omit [HashFunction] in
/-- The slots of a plan entry. -/
theorem slotMapping_plannedEntry {kv : BlockPool} (hsize : kv.blockSize = BLOCK_SIZE)
    {seq : Sequence} (hwork : seq.WorkOk) (hpos : 0 < seq.numScheduledTokens) :
    (seq.plannedEntry kv).cache.slotMapping =
      (List.range seq.numScheduledTokens).map fun i =>
        (seq.slot (seq.numCachedTokens + i) : ℤ) := by
  have hlen : seq.plannedTokens.len = seq.numScheduledTokens := Nat.add_sub_cancel_left _ _
  show kv.computeSlotMapping seq seq.numCachedTokens seq.plannedTokens.len = _
  rw [hlen, BlockPool.computeSlotMapping_eq hsize (hwork.le_table hpos)]

/-- The slots of all entries of a plan are distinct. -/
theorem nodup_slots {kv : BlockPool} {running : List Sequence}
    (I : kv.Invariant (running.map Sequence.holder)) (hwork : ∀ seq ∈ running, seq.WorkOk) :
    ((plannedEntries kv running).flatMap (·.cache.slotMapping)).Nodup := by
  have hslots : ∀ seq ∈ running.filter Sequence.isScheduled,
      (seq.plannedEntry kv).cache.slotMapping = (List.range seq.numScheduledTokens).map fun i =>
        (seq.slot (seq.numCachedTokens + i) : ℤ) := fun seq hseq =>
    slotMapping_plannedEntry I.blockSize (hwork seq (List.mem_of_mem_filter hseq))
      (of_decide_eq_true (List.mem_filter.mp hseq).2)
  have hbound : ∀ seq ∈ running.filter Sequence.isScheduled, ∀ i < seq.numScheduledTokens,
      seq.numCachedTokens + i < BLOCK_SIZE * seq.blockTable.length := fun seq hseq i hi => by
    have h := (hwork seq (List.mem_of_mem_filter hseq)).le_table
      (of_decide_eq_true (List.mem_filter.mp hseq).2)
    omega
  rw [List.nodup_flatMap]
  refine ⟨fun entry hentry => ?_, ?_⟩
  · obtain ⟨seq, hseq, rfl⟩ := List.mem_map.mp hentry
    rw [hslots seq hseq]
    refine List.Nodup.map_on (fun i hi j hj hij => ?_) List.nodup_range
    have h := Sequence.slot_inj
      (I.nodup _ (List.mem_map_of_mem (List.mem_of_mem_filter hseq)))
      (hbound seq hseq i (List.mem_range.mp hi)) (hbound seq hseq j (List.mem_range.mp hj))
      (Int.ofNat_inj.mp hij)
    omega
  · rw [plannedEntries, List.pairwise_map]
    refine (I.pairwise_private.filter _).imp_of_mem fun {seq seq'} hseq hseq' hprivate => ?_
    simp only [Function.onFun]
    rw [hslots seq hseq, hslots seq' hseq', List.disjoint_left]
    intro slot hslot hslot'
    obtain ⟨i, hi, rfl⟩ := List.mem_map.mp hslot
    obtain ⟨j, hj, heq⟩ := List.mem_map.mp hslot'
    have hp := hbound seq hseq i (List.mem_range.mp hi)
    have hq := hbound seq' hseq' j (List.mem_range.mp hj)
    -- equal slots lie in the same block, which is private to both sequences
    have hblock : seq'.blockOf (seq'.numCachedTokens + j) =
        seq.blockOf (seq.numCachedTokens + i) := by
      rw [← Sequence.slot_div, ← Sequence.slot_div, Int.ofNat_inj.mp heq]
    refine hprivate _ (I.uncached (List.mem_of_mem_filter hseq) (Nat.le_add_right _ _) hp)
      (Sequence.blockOf_mem hp) ?_
    rw [← hblock]
    exact Sequence.blockOf_mem hq

/-- The slots of a plan are distinct, and none is the padding value. The slot of a planned position
lies, at the offset of the position, in a block of the sequence's own table. That block has one
reference and no identity: no other running sequence holds it, and no lookup returns it. -/
theorem EngineConfig.write_isolation (config : EngineConfig) {log : List Event}
    {st st' : EngineState} {plan : StepPlan} (h : Run Step config.initial log st)
    (hplan : Scheduler.planStep st = .ok (some plan) st') :
    plan.attention.slotMapping = plan.sequences.flatMap (·.cache.slotMapping) ∧
      plan.attention.slotMapping.Nodup ∧
      ∀ entry ∈ plan.sequences, entry.cache.slotMapping.length = entry.tokenRange.len ∧
        (-1 : ℤ) ∉ entry.cache.slotMapping ∧
        ∃ seq ∈ st'.1.running, seq.requestId = entry.requestId ∧ seq.seqId = entry.sequenceId ∧
          seq.blockTable = entry.cache.blockTable ∧
          ∀ i < entry.tokenRange.len, ∃ b,
            seq.blockTable[(entry.tokenRange.start + i) / BLOCK_SIZE]? = some b ∧
            entry.cache.slotMapping[i]? = some
              ((b * BLOCK_SIZE + (entry.tokenRange.start + i) % BLOCK_SIZE : ℕ) : ℤ) ∧
            (∃ hb : b < st'.2.blocks.length, st'.2.blocks[b].refCount = 1 ∧
              st'.2.blocks[b].prefixIdentity = none) ∧
            (∀ other ∈ st'.1.running, b ∈ other.blockTable → other = seq) ∧
            ∀ reader n, b ∉ st'.2.cachedPrefixBlockIds reader n := by
  have I := EngineConfig.inv_of_run h
  have heffect := (Step.planStep hplan).effect I
  generalize decision st st' = d at heffect
  cases heffect with
  | @planned n kv₁ kv' kept admitted s _ hinFlight S hsequences hne hid hslots hlengths =>
    have hpool := S.core.pool
    have hwork := S.work
    dsimp only
    rw [hslots, hsequences]
    refine ⟨rfl, nodup_slots hpool hwork, fun entry hentry => ?_⟩
    obtain ⟨seq, hseq, rfl⟩ := List.mem_map.mp hentry
    obtain ⟨hmem, hscheduled⟩ := List.mem_filter.mp hseq
    have hpos : 0 < seq.numScheduledTokens := of_decide_eq_true hscheduled
    have hslots := slotMapping_plannedEntry hpool.blockSize (hwork seq hmem) hpos
    have hlen : (seq.plannedEntry kv').tokenRange.len = seq.numScheduledTokens :=
      Nat.add_sub_cancel_left _ _
    have htable := (hwork seq hmem).le_table hpos
    refine ⟨by rw [hslots, hlen, List.length_map, List.length_range], ?_, seq, hmem, rfl, rfl, rfl,
      fun i hi => ?_⟩
    · rw [hslots, List.mem_map]
      rintro ⟨i, -, hi⟩
      omega
    · rw [hlen] at hi
      have hp : seq.numCachedTokens + i < BLOCK_SIZE * seq.blockTable.length := by omega
      have hnone := hpool.uncached hmem (Nat.le_add_right _ i) hp
      have hown := BlockPool.Invariant.holders_ne_zero
        (List.mem_map_of_mem (f := Sequence.holder) hmem) (Sequence.blockOf_mem hp)
      have hlt : seq.blockOf (seq.numCachedTokens + i) < kv'.blocks.length :=
        hpool.ledger.lt_length hown
      have hat : kv'.blockAt (seq.blockOf (seq.numCachedTokens + i)) =
          kv'.blocks[seq.blockOf (seq.numCachedTokens + i)] := by
        rw [BlockPool.blockAt, List.getD_eq_getElem?_getD, List.getElem?_eq_getElem hlt,
          Option.getD_some]
      refine ⟨seq.blockOf (seq.numCachedTokens + i), Sequence.getElem?_blockOf hp, ?_,
        ⟨hlt, ?_, ?_⟩, fun other hother hb => ?_, fun reader n hb => ?_⟩
      · rw [hslots, List.getElem?_map, List.getElem?_range hi]
        rfl
      · rw [← hat]
        exact hpool.refCount_uncached hmem (Nat.le_add_right _ i) hp
      · rw [← hat]
        exact hnone
      · exact hpool.eq_of_private hnone hmem hother (Sequence.blockOf_mem hp) hb
      · obtain ⟨j, hj⟩ := List.mem_iff_getElem?.mp hb
        have hid := (BlockPool.identityAt_cachedPrefixBlockIds hj).2
        rw [hnone] at hid
        cases hid

omit [HashFunction] in
/-- The first plan for two requests writes five slots in two blocks. -/
theorem write_isolation_twoRequests :
    letI := constantHash
    ∃ plan st', Scheduler.planStep (performAll (EngineConfig.plain 3 8 2).initial twoRequests).2 =
        .ok (some plan) st' ∧
      plan.attention.slotMapping = [0, 1, 2, 256, 257] ∧ plan.attention.slotMapping.Nodup := by
  let _ := constantHash
  have hplanned : (plannedBy (performAll (EngineConfig.plain 3 8 2).initial twoRequests).2).map
      (fun planned => planned.1.attention.slotMapping) = some [0, 1, 2, 256, 257] := by
    decide +kernel
  obtain ⟨⟨plan, st'⟩, hplan, hslots⟩ := Option.map_eq_some_iff.mp hplanned
  have h := EngineConfig.write_isolation (EngineConfig.plain 3 8 2)
    (run_performAll twoRequests _) (planStep_of_plannedBy hplan)
  exact ⟨plan, st', planStep_of_plannedBy hplan, hslots, h.2.1⟩

end VllmOxide
