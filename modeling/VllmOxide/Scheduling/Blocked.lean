import VllmOxide.Pool.Lookup
import VllmOxide.Scheduling.Select

/-!
# The blocked head of the queue

After a decision the head of the queue is blocked for a reason that holds in the resulting state.
Where the admissions stopped for want of blocks, reserving the decode blocks makes the head fit even
less. Where the reservation took admissions back, the new head was the last one taken back: it gave
back only the blocks it did not share, and the reservation that failed before has taken more than
was free without them.

## Main definitions

* `SharesKept`: the leading blocks that a sequence shares with older ones.
* `Reserves`: what a reservation that goes through has done.

## Main results

* `Core.admitLoop_shares`: admitted sequences share what they can.
* `Core.reserveLoop_head`: an admission that was taken back does not fit.
-/

namespace VllmOxide

open Scheduler

variable [HashFunction]

/-- Where the lookup of a sequence passes a block of an older sequence, its own table has a block
of an older sequence. -/
def SharesKept (pool : BlockPool) (older : List Sequence) (seq : Sequence) : Prop :=
  ∀ j < seq.numBlocks - 1, (∀ i < j, ∃ b, pool.Listed (.ofTokens seq.tokenIds i) b) →
    (∃ b, pool.Listed (.ofTokens seq.tokenIds j) b ∧ ∃ q ∈ older, b ∈ q.blockTable) →
    ∃ c, seq.blockTable[j]? = some c ∧ ∃ q ∈ older, c ∈ q.blockTable

theorem SharesKept.mono {pool pool' : BlockPool} {older : List Sequence} {seq : Sequence}
    (h : SharesKept pool older seq) (hcontent : pool.NoNewContent pool')
    (hindex : pool.IndexShrinks pool') : SharesKept pool' older seq := by
  rintro j hj hbefore ⟨b, hb, hq⟩
  exact h j hj (fun i hi => (hbefore i hi).imp fun c hc => hc.mono hcontent hindex)
    ⟨b, hb.mono hcontent hindex, hq⟩

namespace BlockPool.Invariant

/-- The used blocks are those of the holders. -/
theorem mem_used_iff {pool : BlockPool} {seqs : List Sequence}
    (I : pool.Invariant (seqs.map Sequence.holder)) {b : ℕ} :
    b ∈ pool.usedBlockIds ↔ ∃ q ∈ seqs, b ∈ q.blockTable := by
  rw [I.ledger.mem_used, ← Nat.pos_iff_ne_zero, holders_pos_iff, tables_map_holder]
  simp

/-- A new table starts with every block in use that the lookup passes. -/
theorem sharesKept_of_allocate {pool pool' : BlockPool} {older : List Sequence}
    (I : pool.Invariant (older.map Sequence.holder)) (hsize : older.length < USIZE_MAX)
    {w seq : Sequence} (hw : w.WaitingOk) (hpos : 0 < w.numTokens) {k : ℕ}
    (hcan : pool.canAllocate w = some k)
    (hrun : BlockPool.allocate k (pool, w) = .ok () (pool', seq)) :
    SharesKept pool older seq := by
  obtain ⟨_, fresh, hrun', hlen, -, hk, -⟩ := I.allocate (by simpa using hsize) hw.table
    hw.numTokens (Sequence.numBlocks_pos hpos) hcan
  rw [hrun] at hrun'
  cases hrun'
  intro j hj hbefore hshared
  obtain ⟨b, hb, q, hq, hbq⟩ := hshared
  have hj : j < w.numBlocks - 1 := hj
  obtain ⟨c, hused, hhit⟩ := I.hit_of_shares hj hj
    ⟨hbefore, b, I.mem_used_iff.mpr ⟨q, hq, hbq⟩, hb⟩
  -- `canAllocate` has counted this hit
  have hcount : k = (pool.cachedPrefixBlockIds w (w.numBlocks - 1)).length := by
    unfold BlockPool.canAllocate at hcan
    rw [if_neg (Sequence.numBlocks_pos hpos).ne',
      if_neg (by simp [(I.identities b _ hb.1).1])] at hcan
    dsimp only at hcan
    split at hcan
    · cases hcan
    · exact (Option.some.inj hcan).symm
  have hjk : j < k := hcount ▸ (List.getElem?_eq_some_iff.mp hhit).1
  have hunder : (pool.cachedPrefixBlockIds w k)[j]? = some c := by
    obtain ⟨-, hbefore', hlast⟩ := BlockPool.getElem?_cachedPrefixBlockIds.mp hhit
    exact BlockPool.getElem?_cachedPrefixBlockIds.mpr ⟨hjk, hbefore', hlast⟩
  refine ⟨c, ?_, I.mem_used_iff.mp hused⟩
  dsimp only
  rw [List.getElem?_append_left (by omega), hunder]

end BlockPool.Invariant

namespace Core

/-! ### Admission -/

/-- **The admission loop, with what is shared.** Every admitted sequence shares what it can with
the sequences before it. -/
theorem admitLoop_shares {running : List Sequence} (tokenBudget slots : ℕ) :
    ∀ {rest : List Sequence} {processed : List (Sequence × Option ℕ)} {total : ℕ}
      {kv : BlockPool} {processed' : List (Sequence × Option ℕ)} {rest' : List Sequence}
      {kv' : BlockPool},
      kv.Invariant ((running ++ admittedEntries processed).map Sequence.holder) →
      (running ++ admittedEntries processed).length + slots ≤ USIZE_MAX →
      (∀ w ∈ rest, w.WaitingOk) →
      EachAfter (fun older seq => SharesKept kv (running ++ older) seq)
        (admittedEntries processed) →
      Scheduler.admitLoop tokenBudget slots rest processed total kv =
        .ok () (processed', rest', kv') →
      kv.NoNewContent kv' ∧ kv.IndexShrinks kv' ∧
        EachAfter (fun older seq => SharesKept kv' (running ++ older) seq)
          (admittedEntries processed') := by
  induction slots with
  | zero =>
    intro rest processed total kv processed' rest' kv' _ _ _ hshares h
    cases h
    exact ⟨.refl kv, .refl kv, hshares⟩
  | succ slots ih =>
    intro rest processed total kv processed' rest' kv' I hbound hwaiting hshares h
    cases rest with
    | nil =>
      cases h
      exact ⟨.refl kv, .refl kv, hshares⟩
    | cons w tail =>
      have hw := hwaiting w List.mem_cons_self
      have htail : ∀ q ∈ tail, q.WaitingOk := fun q hq => hwaiting q (List.mem_cons_of_mem _ hq)
      have hwork : w.prefillTargetTokens - w.numCachedTokens = w.numTokens := by
        rw [hw.target, hw.cached, Nat.sub_zero]
      rw [Scheduler.admitLoop, hwork] at h
      split at h
      · exact ih (by simpa using I) (by simp at hbound ⊢; omega) htail (by simpa using hshares) h
      · rename_i hne
        split at h
        · cases h
          exact ⟨.refl kv, .refl kv, hshares⟩
        · split at h
          · cases h
            exact ⟨.refl kv, .refl kv, hshares⟩
          · rename_i hbudget _ k hcan
            have hpos : 0 < w.numTokens := Nat.pos_of_ne_zero hne
            have hsize : (running ++ admittedEntries processed).length < USIZE_MAX := by omega
            obtain ⟨kv₁, seq, hrun, halloc, I₁, -, hcontent⟩ := allocate I hsize hw hpos hcan
            have hkept := I.sharesKept_of_allocate hsize hw hpos hcan hrun
            have hindex := BlockPool.indexShrinks_allocate hrun
            have hlt := halloc.cached_lt
            have htarget := halloc.target
            have hsome : min (seq.prefillTargetTokens - seq.numCachedTokens)
                (tokenBudget - total) ≠ 0 := by
              rw [htarget, hw.target]
              omega
            simp only [hrun, if_neg hsome] at h
            set n := min (seq.prefillTargetTokens - seq.numCachedTokens) (tokenBudget - total)
            obtain ⟨hcontent', hindex', hshares'⟩ := ih
              (by simpa [Sequence.holder, Sequence.admitted, ← List.append_assoc] using I₁)
              (by simp at hbound ⊢; omega) htail
              (by
                rw [admittedEntries_append]
                exact (hshares.imp fun older q hq => hq.mono hcontent hindex).snoc
                  (hkept.mono hcontent hindex)) h
            exact ⟨hcontent.trans hcontent', hindex.trans hindex', hshares'⟩

end Core

/-! ### Reservation -/

omit [HashFunction] in
/-- One more table takes the blocks that the others do not have. -/
theorem freeBlocks_snoc {capacity : ℕ} {tables : List (List ℕ)} {table : List ℕ}
    (hnodup : table.Nodup) (hlt : ∀ b ∈ table, b < capacity) :
    freeBlocks capacity (tables ++ [table]) + (table.filter (holders tables · = 0)).length =
      freeBlocks capacity tables := by
  have hperm : ((List.range capacity).filter fun b =>
      decide (holders tables b = 0) && decide (b ∈ table)).Perm
      (table.filter (holders tables · = 0)) := by
    refine (List.perm_ext_iff_of_nodup (List.nodup_range.filter _) (hnodup.filter _)).mpr fun b => ?_
    simp only [List.mem_filter, List.mem_range, Bool.and_eq_true, decide_eq_true_eq]
    exact ⟨fun h => ⟨h.2.2, h.2.1⟩, fun h => ⟨hlt b h.1, h.2, h.1⟩⟩
  have hsplit := List.countP_eq_countP_filter_add (List.range capacity)
    (fun b => decide (holders tables b = 0)) (fun b => decide (b ∈ table))
  rw [List.countP_filter, List.countP_filter] at hsplit
  have hcount := hperm.length_eq
  rw [← List.countP_eq_length_filter] at hcount
  have hrest : freeBlocks capacity (tables ++ [table]) = (List.range capacity).countP fun b =>
      decide (holders tables b = 0) && !decide (b ∈ table) := by
    refine List.countP_congr fun b _ => ?_
    by_cases hb : b ∈ table <;> simp [hb]
  rw [hrest, freeBlocks]
  omega

/-- What a reservation that goes through has done: it completed the tables of the selected decoders
with blocks from the free list. -/
structure Reserves (s : Scheduler) (kv : BlockPool) (s' : Scheduler) (kv' : BlockPool) : Prop where
  core : Core s' kv'
  config : s' = { s with running := s'.running }
  reserved : List.Forall₂ Reserved s.running s'.running
  content : kv.NoNewContent kv'
  index : kv.IndexShrinks kv'
  free : kv'.freeBlockIds.length + missingBlocks (s.running.filter Sequence.isScheduledDecode) =
    kv.freeBlockIds.length

namespace Reserves

variable {s s' : Scheduler} {kv kv' : BlockPool}

/-- A block that carries an identity after the reservation belonged to the same sequences before
it. -/
theorem mem_blockTable (R : Reserves s kv s' kv') (C : Core s kv) {b : ℕ}
    (hidentity : kv'.identityAt b ≠ none) (h : ∃ q ∈ s'.running, b ∈ q.blockTable) :
    ∃ q ∈ s.running, b ∈ q.blockTable := by
  obtain ⟨q', hq', hb⟩ := h
  obtain ⟨q, hq, hreserved⟩ := exists_of_forall₂ R.reserved hq'
  obtain ⟨i, hi⟩ := List.mem_iff_getElem?.mp hb
  refine ⟨q, hq, ?_⟩
  by_cases hlt : i < q.blockTable.length
  · rw [List.prefix_iff_getElem?.mp hreserved.isPrefix i hlt] at hi
    exact Option.some.inj hi ▸ List.getElem_mem hlt
  · -- an appended block is not cached yet
    have hroom := (C.running q hq).ready.cached_le
    have hcached : q'.numCachedTokens = q.numCachedTokens := by rw [hreserved.eq]
    have hmul := Nat.mul_le_mul_left BLOCK_SIZE (Nat.le_of_not_lt hlt)
    rw [R.core.pool.cached q'.holder (List.mem_map_of_mem hq') i b hi, if_neg] at hidentity
    · exact absurd rfl hidentity
    · rintro ⟨-, h⟩
      simp only [Holder.IsCached, Sequence.holder, BLOCK_SIZE] at h hmul hroom
      omega

/-- A sequence that does not fit does not fit after the reservation. -/
theorem canAllocate_none (R : Reserves s kv s' kv') (C : Core s kv) {seq : Sequence}
    (h : kv.canAllocate seq = none) : kv'.canAllocate seq = none := by
  refine C.pool.canAllocate_none_mono R.core.pool R.content R.index (fun b hb hidentity => ?_)
    (by have := R.free; omega) h
  exact C.pool.mem_used_iff.mpr (R.mem_blockTable C hidentity (R.core.pool.mem_used_iff.mp hb))

/-- With nothing running there is nothing to reserve. -/
theorem idle (C : Core s kv) (hnil : s.running = []) : Reserves s kv s kv where
  core := C
  config := rfl
  reserved := hnil ▸ .nil
  content := .refl kv
  index := .refl kv
  free := by simp [hnil]

end Reserves

omit [HashFunction] in
theorem indexShrinks_reserveDecodeCache {s s' : Scheduler} {kv kv' : BlockPool}
    (hready : ∀ seq ∈ s.running.filter Sequence.isScheduledDecode, seq.AppendReady)
    (h : Scheduler.reserveDecodeCache (s, kv) = .ok () (s', kv')) :
    kv.IndexShrinks kv' ∧ kv'.freeBlockIds.length +
      missingBlocks (s.running.filter Sequence.isScheduledDecode) = kv.freeBlockIds.length := by
  simp only [Scheduler.reserveDecodeCache] at h
  split at h
  · rename_i hnone
    cases h
    rw [hnone]
    exact ⟨.refl kv, rfl⟩
  · rename_i first rest hselected
    split at h
    · cases h
    · rename_i hrun
      cases h
      rw [hselected] at hready ⊢
      exact ⟨BlockPool.indexShrinks_mayAppendBatch hrun,
        BlockPool.length_free_mayAppendBatch hready hrun⟩

namespace Core

/-- A reservation that goes through. -/
theorem reserves {s s' : Scheduler} {kv kv' : BlockPool} (C : Core s kv)
    (h : Scheduler.reserveDecodeCache (s, kv) = .ok () (s', kv')) : Reserves s kv s' kv' := by
  obtain ⟨hindex, hfree⟩ := indexShrinks_reserveDecodeCache C.ready_of_isScheduledDecode h
  obtain ⟨running, _, hrun, C', hreserved, hcontent⟩ := C.reserveDecodeCache (by omega)
  rw [h] at hrun
  cases hrun
  exact ⟨C', rfl, hreserved, hcontent, hindex, hfree⟩

/-- Rolling back the last admission gives back the blocks that the sequences before it do not
have. -/
theorem length_free_pop {s : Scheduler} {kv kv' : BlockPool} {older waiting : List Sequence}
    {last : Sequence} (C : Core s kv) (hrunning : s.running = older ++ [last])
    (C' : Core { s with running := older, waiting := waiting } kv')
    (hlength : kv'.blocks.length = kv.blocks.length) :
    kv'.freeBlockIds.length +
        (last.blockTable.filter fun b => decide (∃ q ∈ older, b ∈ q.blockTable)).length =
      kv.freeBlockIds.length + last.blockTable.length := by
  have hmem : last ∈ s.running := by simp [hrunning]
  have hholder := List.mem_map_of_mem (f := Sequence.holder) hmem
  have hsnoc : freeBlocks kv.blocks.length (older.map (·.blockTable) ++ [last.blockTable]) +
      (last.blockTable.filter (holders (older.map (·.blockTable)) · = 0)).length =
        freeBlocks kv.blocks.length (older.map (·.blockTable)) :=
    freeBlocks_snoc (C.pool.nodup _ hholder) fun b hb =>
      C.pool.ledger.lt_length (BlockPool.Invariant.holders_ne_zero hholder hb)
  have hfree : kv.freeBlockIds.length =
      freeBlocks kv.blocks.length (older.map (·.blockTable) ++ [last.blockTable]) := by
    rw [C.length_free, hrunning, List.map_append]
    rfl
  have hfree' : kv'.freeBlockIds.length =
      freeBlocks kv.blocks.length (older.map (·.blockTable)) := by
    rw [C'.length_free, hlength]
  -- a block of the last table is shared or given back
  have hsplit := List.length_eq_length_filter_add (l := last.blockTable) fun b =>
    decide (∃ q ∈ older, b ∈ q.blockTable)
  have hback : (last.blockTable.filter fun b => !decide (∃ q ∈ older, b ∈ q.blockTable)).length =
      (last.blockTable.filter (holders (older.map (·.blockTable)) · = 0)).length := by
    congr 1
    refine List.filter_congr fun b _ => ?_
    rw [← decide_not]
    simp [holders_eq_zero_iff]
  omega

/-- **Rollback leaves a blocked head.** A reservation loop that takes admissions back ends with a
head of the queue that does not fit. -/
theorem reserveLoop_head {m : ℕ} :
    ∀ {s s' : Scheduler} {kv kv' : BlockPool} {kept admitted : List Sequence}, Core s kv →
      s.running = kept ++ admitted → admitted.length = m →
      (∀ seq ∈ admitted, seq.FreshlyAdmitted) →
      EachAfter (fun older seq => SharesKept kv (kept ++ older) seq) admitted →
      Scheduler.reserveLoop m (s, kv) = .ok () (s', kv') →
      Reserves s kv s' kv' ∨
        ∃ w tail, s'.waiting = w :: tail ∧ kv'.canAllocate w = none := by
  induction m with
  | zero =>
    intro s s' kv kv' kept admitted C _ _ _ _ h
    simp only [Scheduler.reserveLoop] at h
    split at h
    · rename_i hrun
      cases h
      exact .inl (C.reserves hrun)
    · cases h
  | succ m ih =>
    intro s s' kv kv' kept admitted C hrunning hlen hfresh hshares h
    simp only [Scheduler.reserveLoop] at h
    split at h
    · rename_i hrun
      cases h
      exact .inl (C.reserves hrun)
    · rename_i state herror
      -- the decoders miss more blocks than are free, so the last admission is taken back
      have hroom : kv.freeBlockIds.length <
          missingBlocks (s.running.filter Sequence.isScheduledDecode) := by
        by_contra hfit
        obtain ⟨_, _, hrun, -⟩ := C.reserveDecodeCache (not_lt.mp hfit)
        rw [hrun] at herror
        cases herror
      obtain ⟨error, hsame⟩ := C.reserveDecodeCache_error hroom
      rw [hsame] at herror
      cases herror
      obtain ⟨init, last, rfl⟩ : ∃ init last, admitted = init ++ [last] := by
        rcases List.eq_nil_or_concat admitted with rfl | ⟨init, last, h⟩
        · simp at hlen
        · exact ⟨init, last, by rw [h, List.concat_eq_append]⟩
      have hsplit : s.running = (kept ++ init) ++ [last] := by rw [hrunning, List.append_assoc]
      have hlast := hfresh last (by simp)
      obtain ⟨kv₁, hrollback, C₁, hsame⟩ := C.rollbackLastAdmission hsplit hlast
      have hcontent := BlockPool.NoNewContent.of_sameContent hsame
      have hindex := BlockPool.IndexShrinks.of_eq hsame.index
      have hshares' := hshares.imp fun older q hq => hq.mono hcontent hindex
      rw [hrollback] at h
      rcases ih C₁ rfl (by simpa using hlen)
        (fun seq hseq => hfresh seq (List.mem_append_left _ hseq)) hshares'.init h with R | hblocked
      · -- it was the last one taken back: what it gave back is gone, and more
        refine .inr ⟨_, s.waiting, by rw [R.config], ?_⟩
        have hselected : (kept ++ init).filter Sequence.isScheduledDecode =
            s.running.filter Sequence.isScheduledDecode := by
          have hnone : [last].filter Sequence.isScheduledDecode = [] := by
            simp [hlast.isScheduledDecode]
          rw [hsplit, List.filter_append (kept ++ init), hnone, List.append_nil]
        have hfree := R.free
        rw [hselected] at hfree
        have hback := C.length_free_pop hsplit C₁ hsame.length
        have htable := hlast.prefilling.table
        rw [R.core.pool.canAllocate_eq_none_iff]
        have hle : kv'.sharedHits (BlockPool.released last).rolledBack ≤
            (last.blockTable.filter fun b =>
              decide (∃ q ∈ kept ++ init, b ∈ q.blockTable)).length := by
          refine R.core.pool.sharedHits_le fun j hj hlookup => ?_
          obtain ⟨hbefore, b, hused, hb⟩ := hlookup
          have hshared := R.mem_blockTable C₁ (by simp [hb.1]) (R.core.pool.mem_used_iff.mp hused)
          obtain ⟨c, hc, hq⟩ := hshares'.last j hj
            (fun i hi => (hbefore i hi).imp fun d hd => hd.mono R.content R.index)
            ⟨b, hb.mono R.content R.index, hshared⟩
          exact ⟨c, hc, decide_eq_true hq⟩
        have hblocks : (BlockPool.released last).rolledBack.numBlocks = last.numBlocks := rfl
        omega
      · exact .inr hblocked

end Core

/-! ### The whole decision -/

/-- The test of `admissionBlock` fails for one of its three reasons. -/
theorem Scheduler.admissionBlock_ne_none {s : Scheduler} {kv : BlockPool} {scheduledTokens : ℕ}
    {w : Sequence} {tail : List Sequence} (hw : s.waiting = w :: tail)
    (h : s.maxNumBatchedTokens.val ≤ scheduledTokens ∨ s.maxNumSeqs.val ≤ s.running.length ∨
      kv.canAllocate w = none) : s.admissionBlock kv scheduledTokens ≠ none := by
  simp only [admissionBlock, hw]
  split
  · simp
  · split
    · simp
    · rw [if_pos ((h.resolve_left ‹_›).resolve_left ‹_›)]
      simp

/-- The token budget is looked at first. -/
theorem Scheduler.admissionBlock_of_spent {s : Scheduler} {kv : BlockPool} {scheduledTokens : ℕ}
    {w : Sequence} {tail : List Sequence} (hw : s.waiting = w :: tail)
    (h : s.maxNumBatchedTokens.val ≤ scheduledTokens) :
    s.admissionBlock kv scheduledTokens = some ⟨w.requestId, .tokenBudget⟩ := by
  simp only [admissionBlock, hw, if_pos h]

theorem Scheduler.of_admissionBlock {s : Scheduler} {kv : BlockPool} {scheduledTokens : ℕ}
    {blocked : BlockedAdmission} (h : s.admissionBlock kv scheduledTokens = some blocked) :
    ∃ w tail, s.waiting = w :: tail ∧ blocked.requestId = w.requestId ∧
      ((blocked.reason = .tokenBudget ∧ s.maxNumBatchedTokens.val ≤ scheduledTokens) ∨
        (blocked.reason = .sequenceLimit ∧ s.maxNumSeqs.val ≤ s.running.length) ∨
          (blocked.reason = .kvCache ∧ kv.canAllocate w = none)) := by
  simp only [admissionBlock] at h
  split at h
  · cases h
  · rename_i w tail hw
    refine ⟨w, tail, hw, ?_⟩
    split at h
    · obtain rfl := Option.some.inj h
      exact ⟨rfl, .inl ⟨rfl, ‹_›⟩⟩
    · split at h
      · obtain rfl := Option.some.inj h
        exact ⟨rfl, .inr (.inl ⟨rfl, ‹_›⟩)⟩
      · split at h
        · obtain rfl := Option.some.inj h
          exact ⟨rfl, .inr (.inr ⟨rfl, ‹_›⟩)⟩
        · cases h

/-- With a blocked head nothing is admitted. -/
theorem Scheduler.schedulePrefillWithBudget_blocked {s : Scheduler} {kv : BlockPool} {w : Sequence}
    {tail : List Sequence} (tokenBudget : ℕ) (hw : s.waiting = w :: tail)
    (hwork : w.prefillTargetTokens - w.numCachedTokens ≠ 0)
    (h : s.maxNumSeqs.val ≤ s.running.length ∨ kv.canAllocate w = none) :
    schedulePrefillWithBudget tokenBudget (s, kv) = .ok ⟨.prefill, false, none⟩ (s, kv) := by
  have hloop : Scheduler.admitLoop tokenBudget (s.maxNumSeqs.val - s.running.length) s.waiting [] 0
      kv = .ok () ([], s.waiting, kv) := by
    rw [hw]
    rcases Nat.eq_zero_or_eq_succ_pred (s.maxNumSeqs.val - s.running.length) with hzero | hsucc
    · rw [hzero, Scheduler.admitLoop]
    · rw [hsucc, Scheduler.admitLoop, if_neg hwork]
      split
      · rfl
      · rw [h.resolve_left (by omega)]
  rw [schedulePrefillWithBudget, if_neg (by simp [hw]), hloop]
  simp

namespace Core

variable {s s' : Scheduler} {kv kv' : BlockPool} {selection : WorkSelection}

/-- **Why admission ends.** It stops at the end of the queue, at the limit of running sequences,
or at a head for which tokens or blocks are missing. -/
theorem schedulePrefillWithBudget_stops (C : Core s kv) (hpos : ∀ w ∈ s.waiting, 0 < w.numTokens)
    {tokenBudget : ℕ}
    (h : Scheduler.schedulePrefillWithBudget tokenBudget (s, kv) = .ok selection (s', kv')) :
    ∃ admitted, s' = { s with running := s.running ++ admitted, waiting := s'.waiting } ∧
      Core s' kv' ∧ (∀ seq ∈ admitted, seq.FreshlyAdmitted) ∧
      EachAfter (fun older seq => SharesKept kv' (s.running ++ older) seq) admitted ∧
      (s'.waiting = [] ∨ s.maxNumSeqs.val ≤ s'.running.length ∨
        ∃ w tail, s'.waiting = w :: tail ∧
          (tokenBudget ≤ (admitted.map (·.numScheduledTokens)).sum ∨ kv'.canAllocate w = none)) := by
  obtain ⟨admitted, waiting, _, hrun, A⟩ := C.schedulePrefillWithBudget tokenBudget
  rw [h] at hrun
  cases hrun
  refine ⟨admitted, rfl, A.core, A.fresh, ?_⟩
  by_cases hempty : s.waiting = []
  · rw [Scheduler.schedulePrefillWithBudget, if_pos hempty] at h
    simp only [EStateM.Result.ok.injEq, Prod.mk.injEq] at h
    have hrunning := congrArg Scheduler.running h.2.1
    obtain rfl : admitted = [] := by simpa [Scheduler.withAdmitted] using hrunning
    have hwaiting := congrArg Scheduler.waiting h.2.1
    exact ⟨.nil, .inl (hwaiting.symm.trans hempty)⟩
  · have hlength := C.length_le
    have hmax := s.maxNumSeqs.property
    have hpool : kv.Invariant ((s.running ++ admittedEntries []).map Sequence.holder) := by
      simpa [Scheduler.holders] using C.pool
    have hbound : (s.running ++ admittedEntries []).length +
        (s.maxNumSeqs.val - s.running.length) ≤ USIZE_MAX := by
      simp only [admittedEntries_nil, List.append_nil]
      omega
    obtain ⟨entries, rest, kv'', hloop, L⟩ := admitLoop tokenBudget
      (s.maxNumSeqs.val - s.running.length) [] 0 hpool (by simpa using C.ownBlock) hbound C.waiting
    obtain ⟨-, -, hshares⟩ := admitLoop_shares tokenBudget _ hpool hbound C.waiting .nil hloop
    obtain ⟨visited, hsplit, hvisited⟩ := L.visited
    obtain ⟨hkept, hadmitted⟩ := entries_of_pos hvisited fun w hw =>
      hpos w (hsplit ▸ List.mem_append_left _ hw)
    rw [Scheduler.schedulePrefillWithBudget, if_neg hempty, hloop] at h
    simp only [EStateM.Result.ok.injEq, Prod.mk.injEq, List.nil_append, hkept] at h
    obtain ⟨-, hstate, rfl⟩ := h
    obtain rfl : admittedEntries entries = admitted := by
      simpa [Scheduler.withAdmitted] using congrArg Scheduler.running hstate
    obtain rfl : rest = waiting := congrArg Scheduler.waiting hstate
    refine ⟨hshares, ?_⟩
    rcases L.stops with hslots | hnil | ⟨w, tail, hw, -, hstop⟩
    · refine .inr (.inl ?_)
      have hall := congrArg List.length hadmitted
      rw [List.length_map, List.length_map, hvisited.length_eq] at hall
      show _ ≤ (s.running ++ admittedEntries entries).length
      rw [List.length_append, hall]
      omega
    · exact .inl hnil
    · refine .inr (.inr ⟨w, tail, hw, hstop.imp_left fun hle => ?_⟩)
      rw [Nat.zero_add] at hle
      exact hle

/-- **The head is blocked.** After a decision the admission test fails for the head of the queue. -/
theorem selectWork_head (C : Core s kv) (hpos : ∀ w ∈ s.waiting, 0 < w.numTokens)
    (h : Scheduler.selectWork (s, kv) = .ok selection (s', kv')) (hne : s'.waiting ≠ []) :
    s'.admissionBlock kv' s'.scheduledTokens ≠ none := by
  obtain ⟨n, kv₁, hn, hpreempts, C₁, -, -, -⟩ := C.preemptIfNeeded
  have hpos₁ := Scheduler.preemptTo_waiting_pos C n hpos
  obtain ⟨w, tail, hw⟩ := List.exists_cons_of_ne_nil hne
  simp only [Scheduler.selectWork, hpreempts] at h
  split at h
  · have C₂ := C₁.scheduleRunning ((s.preemptTo n).runningBudget kv₁)
    have hlength : (s.preemptTo n).running.length =
        ((s.preemptTo n).scheduleRunning ((s.preemptTo n).runningBudget kv₁)).running.length :=
      (Scheduler.rescheduled_scheduleRunningFrom _ 0 C₁.running).length_eq
    set s₂ := (s.preemptTo n).scheduleRunning ((s.preemptTo n).runningBudget kv₁)
    split at h
    · cases h
    · rename_i s₃ kv₃ hprefill
      obtain ⟨admitted, hs₃, C₃, hfresh, hshares, hstops⟩ :=
        C₂.schedulePrefillWithBudget_stops hpos₁ hprefill
      have hrunning : s₃.running = s₂.running ++ admitted := by rw [hs₃]
      split at h
      · cases h
      · rename_i hreserve
        cases h
        rw [hlength, hrunning, List.length_append, Nat.add_sub_cancel_left] at hreserve
        rcases C₃.reserveLoop_head hrunning rfl hfresh hshares hreserve with R | ⟨q, rest, hq, hcan⟩
        · have hwaiting : s₃.waiting = w :: tail := by rw [← hw, R.config]
          refine Scheduler.admissionBlock_ne_none hw ?_
          rcases hstops with hnil | hlimit | ⟨q, rest, hq, hstop⟩
          · simp [hwaiting] at hnil
          · refine .inr (.inl ?_)
            rw [← R.reserved.length_eq, R.config]
            rw [hs₃] at hlimit ⊢
            exact hlimit
          · obtain ⟨rfl, rfl⟩ : w = q ∧ tail = rest := by simpa [hwaiting] using hq
            rcases hstop with htokens | hcan
            · refine .inl ?_
              have hsum : s'.scheduledTokens = s₃.scheduledTokens :=
                congrArg List.sum (map_eq_of_forall₂ R.reserved fun _ _ hr => by rw [hr.eq])
              rw [hsum, Scheduler.scheduledTokens, hrunning, List.map_append, List.sum_append,
                R.config]
              rw [hs₃]
              exact Nat.sub_le_iff_le_add'.mp htokens
            · exact .inr (.inr (R.canAllocate_none C₃ hcan))
        · exact Scheduler.admissionBlock_ne_none hq (.inr (.inr hcan))
  · rename_i hnil
    split at h
    · cases h
    · rename_i hprefill
      cases h
      obtain ⟨admitted, hs', -, -, -, hstops⟩ :=
        C₁.schedulePrefillWithBudget_stops hpos₁ hprefill
      refine Scheduler.admissionBlock_ne_none hw ?_
      rcases hstops with hnone | hlimit | ⟨q, rest, hq, hstop⟩
      · simp [hw] at hnone
      · rw [hs'] at hlimit ⊢
        exact .inr (.inl hlimit)
      · obtain ⟨rfl, rfl⟩ : w = q ∧ tail = rest := by simpa [hw] using hq
        rcases hstop with htokens | hcan
        · refine .inl ?_
          rw [Scheduler.scheduledTokens, hs', not_not.mp hnil]
          exact htokens
        · exact .inr (.inr hcan)

/-- **A head that is blocked before the selection stays blocked.** Nothing is admitted, so the reason
holds afterwards. -/
theorem selectWork_blocked (C : Core s kv) (hpos : ∀ w ∈ s.waiting, 0 < w.numTokens)
    (htokens : 0 < s.maxNumBatchedTokens.val)
    (h : Scheduler.selectWork (s, kv) = .ok selection (s', kv')) {s₁ : Scheduler}
    {kv₁ : BlockPool} (hpreempts : Scheduler.preemptIfNeeded (s, kv) = .ok () (s₁, kv₁))
    {blocked : BlockedAdmission} (hblocked : s₁.admissionBlock kv₁ 0 = some blocked) :
    ∃ w tail, s'.waiting = w :: tail ∧ blocked.requestId = w.requestId ∧
      ((blocked.reason = .sequenceLimit ∧ s'.maxNumSeqs.val ≤ s'.running.length) ∨
        (blocked.reason = .kvCache ∧ kv'.canAllocate w = none)) := by
  obtain ⟨n, _, hn, hrun, C₁, -, -, -⟩ := C.preemptIfNeeded
  rw [hpreempts] at hrun
  cases hrun
  have hpos₁ := Scheduler.preemptTo_waiting_pos C n hpos
  obtain ⟨w, tail, hw, hid, hreason⟩ := of_admissionBlock hblocked
  have hstop : (s.preemptTo n).maxNumSeqs.val ≤ (s.preemptTo n).running.length ∨
      kv₁.canAllocate w = none := by
    rcases hreason with ⟨-, hzero⟩ | ⟨-, hlimit⟩ | ⟨-, hcan⟩
    · exact absurd hzero (not_le.mpr htokens)
    · exact .inl hlimit
    · exact .inr hcan
  have hwait := C₁.waiting w (by simp [hw])
  have hwork : w.prefillTargetTokens - w.numCachedTokens ≠ 0 := by
    have hp := hpos₁ w (by simp [hw])
    rw [hwait.target, hwait.cached]
    omega
  -- the reason holds in every state that only differs by a reservation
  have hfinal : ∀ {s₂ : Scheduler}, Core s₂ kv₁ → s₂.waiting = w :: tail →
      s₂.maxNumSeqs = s.maxNumSeqs → s₂.running.length = (s.preemptTo n).running.length →
      Reserves s₂ kv₁ s' kv' → ∃ w tail, s'.waiting = w :: tail ∧ blocked.requestId = w.requestId ∧
        ((blocked.reason = .sequenceLimit ∧ s'.maxNumSeqs.val ≤ s'.running.length) ∨
          (blocked.reason = .kvCache ∧ kv'.canAllocate w = none)) := by
    intro s₂ C₂ hw₂ hmax hlength R
    refine ⟨w, tail, by rw [R.config]; exact hw₂, hid, ?_⟩
    rcases hreason with ⟨-, hzero⟩ | ⟨hr, hlimit⟩ | ⟨hr, hcan⟩
    · exact absurd hzero (not_le.mpr htokens)
    · refine .inl ⟨hr, ?_⟩
      rw [← R.reserved.length_eq, hlength, R.config, hmax]
      exact hlimit
    · exact .inr ⟨hr, R.canAllocate_none C₂ hcan⟩
  simp only [Scheduler.selectWork, hpreempts] at h
  split at h
  · have C₂ := C₁.scheduleRunning ((s.preemptTo n).runningBudget kv₁)
    have hlength : (s.preemptTo n).running.length =
        ((s.preemptTo n).scheduleRunning ((s.preemptTo n).runningBudget kv₁)).running.length :=
      (Scheduler.rescheduled_scheduleRunningFrom _ 0 C₁.running).length_eq
    set s₂ := (s.preemptTo n).scheduleRunning ((s.preemptTo n).runningBudget kv₁)
    have hw₂ : s₂.waiting = w :: tail := hw
    rw [Scheduler.schedulePrefillWithBudget_blocked _ hw₂ hwork
      (hstop.imp_left fun hlimit => hlength ▸ hlimit)] at h
    dsimp only at h
    split at h
    · cases h
    · rename_i hreserve
      cases h
      rw [hlength, Nat.sub_self, Scheduler.reserveLoop] at hreserve
      split at hreserve
      · rename_i hrun
        cases hreserve
        exact hfinal C₂ hw₂ rfl hlength.symm (C₂.reserves hrun)
      · cases hreserve
  · rename_i hnil
    rw [Scheduler.schedulePrefillWithBudget_blocked _ hw hwork hstop] at h
    cases h
    exact hfinal C₁ hw rfl rfl (.idle C₁ (not_not.mp hnil))

end Core

end VllmOxide
