import Mathlib.Algebra.Order.BigOperators.Group.List
import VllmOxide.Attention.Prepared
import VllmOxide.Pool.Slots
import VllmOxide.Scheduling.Selection
import VllmOxide.System.Engine

/-!
# Plans are well formed for the attention layer

The totals and the phase of a plan are those of its entries. Its metadata have the entries as their
members, pass the independent validation of the attention layer, and address slots and blocks of
the cache only.

## Main definitions

* `StepPlan.WellFormed`: the totals, the phase and the form of the metadata.
* `StepPlan.Attends`: the metadata and the checks of the attention layer.
* `StepPlan.Covers`: the members of the metadata.

## Main results

* `Core.covers_of_planStep`: the members of the metadata are the entries.
* `EngineConfig.plan_wellFormed`: every plan of a reachable state is well formed.
-/

namespace VllmOxide

open Scheduler

/-- The totals and the phase of a plan are those of its entries, and only a plan of prefills
without cached tokens is unpaged. -/
structure StepPlan.WellFormed (config : EngineConfig) (plan : StepPlan) : Prop where
  nonempty : plan.sequences ≠ []
  tokenBudget : plan.tokenBudget = (plan.sequences.map (·.tokenBudget)).sum
  tokenBudget_le : plan.tokenBudget ≤ config.maxNumBatchedTokens.val
  pos : ∀ entry ∈ plan.sequences, 0 < entry.tokenBudget
  prefill : plan.phase = .prefill ↔ ∀ entry ∈ plan.sequences, entry.phase = .prefill
  decode : plan.phase = .decode ↔ ∀ entry ∈ plan.sequences, entry.phase = .decode
  mixed : plan.phase = .mixed ↔ (∃ entry ∈ plan.sequences, entry.phase = .prefill) ∧
    ∃ entry ∈ plan.sequences, entry.phase = .decode
  unpaged : plan.attention.usesPagedKv = false → ∀ entry ∈ plan.sequences,
    entry.phase = .prefill ∧ entry.cache.cachedTokenRange.isEmpty = true ∧
      entry.cache.kvLength = entry.tokenBudget

/-- The metadata of a plan have its entries as their members, and pass the checks of the attention
layer for a cache with as many blocks as the pool. -/
structure StepPlan.Attends (config : EngineConfig) (plan : StepPlan) : Prop where
  valid : validateLogicalMetadata plan.attention = .ok ()
  bounds : ∀ limits : MathLimits, limits.numBlocks = config.numBlocks.val →
    limits.blockSize = BLOCK_SIZE → limits.numBlocks * limits.blockSize ≤ USIZE_MAX →
    limits.checkBounds plan.attention = .ok ()
  queries : (memberLengths plan.attention.cuSeqlensQ).map UInt32.toNat =
    plan.sequences.map (·.tokenBudget)
  keys : (memberLengths plan.attention.cuSeqlensK).map UInt32.toNat =
    plan.sequences.map (·.cache.kvLength)
  rows : plan.attention.usesPagedKv = true → List.Forall₂ (fun entry row =>
    row = entry.cache.blockTable.map (fun b : ℕ => (b : ℤ)) ∧
      entry.cache.kvLength ≤ BLOCK_SIZE * row.length) plan.sequences plan.attention.blockTable

/-- The members of the metadata of a plan are its entries, each with its own block table. Without
block tables every entry is a prefill with nothing cached. -/
structure StepPlan.Covers (plan : StepPlan) : Prop where
  queries : (memberLengths plan.attention.cuSeqlensQ).map UInt32.toNat =
    plan.sequences.map (·.tokenBudget)
  keys : (memberLengths plan.attention.cuSeqlensK).map UInt32.toNat =
    plan.sequences.map (·.cache.kvLength)
  paged : plan.attention.usesPagedKv = true → plan.attention.blockTable =
    plan.sequences.map fun entry => entry.cache.blockTable.map fun b : ℕ => (b : ℤ)
  unpaged : plan.attention.usesPagedKv = false →
    plan.attention.cuSeqlensQ = plan.attention.cuSeqlensK ∧ ∀ entry ∈ plan.sequences,
      entry.phase = .prefill ∧ entry.cache.cachedTokenRange.isEmpty = true ∧
        entry.cache.kvLength = entry.tokenBudget

/-! ### The form of the metadata -/

/-- A length that has been converted. -/
theorem toNat_of_usizeToU32 {value : ℕ} {name : String} {y : UInt32}
    (h : usizeToU32 value name = .ok y) : y.toNat = value := by
  rw [usizeToU32] at h
  split at h
  · obtain rfl := Except.ok.inj h
    exact UInt32.toNat_ofNat_of_lt' ‹_›
  · cases h

/-- Lengths that have been converted. -/
theorem map_toNat_of_mapM {entries : List SequenceStepPlan} {f : SequenceStepPlan → ℕ}
    {name : String} {lengths : List UInt32}
    (h : (entries.mapM fun entry => usizeToU32 (f entry) name) = .ok lengths) :
    lengths.map UInt32.toNat = entries.map f :=
  map_eq_of_forall₂ (forall₂_of_mapM_ok h) fun _ _ => toNat_of_usizeToU32

/-- Block tables that have been converted. -/
theorem eq_of_blockTablesForPlan {entries : List SequenceStepPlan} {tables : List (List ℤ)}
    (h : blockTablesForPlan entries = .ok tables) :
    tables = entries.map fun entry => entry.cache.blockTable.map fun b : ℕ => (b : ℤ) := by
  have hrow : ∀ (entry : SequenceStepPlan) (row : List ℤ),
      entry.cache.blockTable.mapM blockIdToI32 = .ok row →
        row = entry.cache.blockTable.map fun b : ℕ => (b : ℤ) := by
    intro entry row h
    have hid : ∀ (b : ℕ) (y : ℤ), blockIdToI32 b = .ok y → y = (b : ℤ) := by
      intro b y hy
      rw [blockIdToI32] at hy
      split at hy
      · exact (Except.ok.inj hy).symm
      · cases hy
    have hmap := map_eq_of_forall₂ (g := id) (forall₂_of_mapM_ok h) hid
    rwa [List.map_id] at hmap
  have hmap := map_eq_of_forall₂ (g := id) (forall₂_of_mapM_ok h) hrow
  rwa [List.map_id] at hmap

/-- The metadata of a plan have its entries as their members. The form without a block table is
only chosen for a prefill without cached tokens. -/
theorem planMetadata_describes {selection : WorkSelection} {entries : List SequenceStepPlan}
    {slotMapping : List ℤ} {attention : AttnMetadata}
    (h : planMetadata selection entries slotMapping = .ok attention)
    (hdecode : selection.phase = .decode → ∀ entry ∈ entries, entry.tokenBudget = 1) :
    ∃ members : List (UInt32 × UInt32), attention.Describes members ∧
      members.map (fun member => member.1.toNat) = entries.map (·.tokenBudget) ∧
      members.map (fun member => member.2.toNat) = entries.map (·.cache.kvLength) ∧
      (attention.blockTable =
          entries.map (fun entry => entry.cache.blockTable.map fun b : ℕ => (b : ℤ)) ∨
        attention.blockTable = [] ∧ selection.phase = .prefill ∧ ∀ entry ∈ entries,
          entry.phase = .prefill → entry.cache.cachedTokenRange.isEmpty = true) := by
  have hzip : ∀ {counts lengths : List UInt32} {name : String},
      scheduledTokenCounts entries = .ok counts → kvLengths name entries = .ok lengths →
      (counts.zip lengths).map (fun member => member.1.toNat) = entries.map (·.tokenBudget) ∧
        (counts.zip lengths).map (fun member => member.2.toNat) =
          entries.map (·.cache.kvLength) := by
    intro counts lengths name hcounts hlengths
    have hcounts := map_toNat_of_mapM hcounts
    have hlengths := map_toNat_of_mapM hlengths
    have hlen : counts.length = lengths.length := by
      have h₁ := congrArg List.length hcounts
      have h₂ := congrArg List.length hlengths
      simp only [List.length_map] at h₁ h₂
      omega
    constructor
    · show (counts.zip lengths).map (UInt32.toNat ∘ Prod.fst) = _
      rw [← List.map_map, List.map_fst_zip hlen.le, hcounts]
    · show (counts.zip lengths).map (UInt32.toNat ∘ Prod.snd) = _
      rw [← List.map_map, List.map_snd_zip hlen.ge, hlengths]
  have hpaged : ∀ {attention}, buildPagedPrefillPlanMetadata entries slotMapping = .ok attention →
      ∃ members : List (UInt32 × UInt32), attention.Describes members ∧
        members.map (fun member => member.1.toNat) = entries.map (·.tokenBudget) ∧
        members.map (fun member => member.2.toNat) = entries.map (·.cache.kvLength) ∧
        attention.blockTable =
          entries.map (fun entry => entry.cache.blockTable.map fun b : ℕ => (b : ℤ)) := by
    intro attention h
    simp only [buildPagedPrefillPlanMetadata] at h
    obtain ⟨counts, hcounts, h⟩ := exists_of_bind_ok h
    obtain ⟨lengths, hlengths, h⟩ := exists_of_bind_ok h
    obtain ⟨tables, htables, h⟩ := exists_of_bind_ok h
    obtain rfl := Except.ok.inj h
    obtain ⟨hq, hk⟩ := hzip hcounts hlengths
    exact ⟨_, describes_buildContinuedPrefillMetadata _ _ _ _, hq, hk,
      eq_of_blockTablesForPlan htables⟩
  unfold planMetadata at h
  cases hphase : selection.phase with
  | prefill =>
    simp only [hphase] at h
    split at h
    · obtain ⟨members, hmembers, hq, hk, htable⟩ := hpaged h
      exact ⟨members, hmembers, hq, hk, .inl htable⟩
    · rename_i hplain
      obtain ⟨counts, hcounts, h⟩ := exists_of_bind_ok h
      obtain ⟨lengths, hlengths, h⟩ := exists_of_bind_ok h
      obtain rfl := Except.ok.inj h
      obtain ⟨hq, hk⟩ := hzip hcounts hlengths
      refine ⟨_, describes_buildPrefillMetadata _ _ _, hq, hk, .inr ⟨rfl, rfl, ?_⟩⟩
      intro entry hentry hprefill
      by_contra hcached
      exact hplain (by
        rw [Bool.or_eq_true, List.any_eq_true]
        exact .inr ⟨entry, hentry, by simpa [hprefill] using hcached⟩)
  | decode =>
    simp only [hphase] at h
    obtain ⟨contexts, hcontexts, h⟩ := exists_of_bind_ok h
    obtain ⟨tables, htables, h⟩ := exists_of_bind_ok h
    obtain rfl := Except.ok.inj h
    have hcontexts := map_toNat_of_mapM hcontexts
    refine ⟨_, describes_buildDecodeMetadata _ _ _, ?_, ?_, .inl (eq_of_blockTablesForPlan htables)⟩
    · have hlen := congrArg List.length hcontexts
      rw [List.length_map, List.length_map] at hlen
      rw [List.map_map, List.map_congr_left (hdecode hphase)]
      simp [Function.comp_def, List.map_const', hlen]
    · rw [List.map_map, ← hcontexts]
      rfl
  | mixed =>
    simp only [hphase] at h
    obtain ⟨members, hmembers, hq, hk, htable⟩ := hpaged h
    exact ⟨members, hmembers, hq, hk, .inl htable⟩

namespace AttnMetadata.Describes

variable {metadata : AttnMetadata} {members : List (UInt32 × UInt32)} {lengths : List ℕ}

/-- The query lengths of the members are those of the metadata. -/
theorem queries (h : metadata.Describes members)
    (hq : members.map (fun member => member.1.toNat) = lengths) :
    (memberLengths metadata.cuSeqlensQ).map UInt32.toNat = lengths := by
  rw [h.memberLengths_q, List.map_map, ← hq]
  rfl

/-- The key lengths of the members are those of the metadata. -/
theorem keys (h : metadata.Describes members)
    (hk : members.map (fun member => member.2.toNat) = lengths) :
    (memberLengths metadata.cuSeqlensK).map UInt32.toNat = lengths := by
  rw [h.memberLengths_k, List.map_map, ← hk]
  rfl

/-- Members with as many keys as queries give the same cumulative lengths twice. -/
theorem cuSeqlens_eq (h : metadata.Describes members)
    (hsame : members.map (fun member => member.1.toNat) =
      members.map fun member => member.2.toNat) : metadata.cuSeqlensQ = metadata.cuSeqlensK := by
  have hmembers : members.map Prod.fst = members.map Prod.snd :=
    List.map_congr_left fun member hmember =>
      UInt32.toNat_inj.mp (List.map_inj_left.mp hsame member hmember)
  rw [h.cuSeqlensQ, h.cuSeqlensK, hmembers]

end AttnMetadata.Describes

/-! ### The phase -/

/-- Whether some running sequence has work of the given phase. -/
theorem any_work_iff {kv : BlockPool} {running : List Sequence} {phase : SequencePhase} :
    (running.any fun seq => decide (seq.numScheduledTokens ≠ 0 ∧ seq.phase = phase)) = true ↔
      ∃ entry ∈ plannedEntries kv running, entry.phase = phase := by
  rw [List.any_eq_true]
  constructor
  · rintro ⟨seq, hseq, hwork⟩
    obtain ⟨hscheduled, hphase⟩ := of_decide_eq_true hwork
    exact ⟨seq.plannedEntry kv, List.mem_map_of_mem (List.mem_filter.mpr
      ⟨hseq, decide_eq_true (Nat.pos_of_ne_zero hscheduled)⟩), hphase⟩
  · rintro ⟨entry, hentry, hphase⟩
    obtain ⟨seq, hseq, rfl⟩ := List.mem_map.mp hentry
    obtain ⟨hseq, hscheduled⟩ := List.mem_filter.mp hseq
    have hpos : 0 < seq.numScheduledTokens := of_decide_eq_true hscheduled
    exact ⟨seq, hseq, decide_eq_true ⟨hpos.ne', hphase⟩⟩

variable [HashFunction]

/-- The selected phase is the one of the entries. -/
theorem Reports.phase_eq {s s' : Scheduler} {kv kv₁ kv' : BlockPool} {n : ℕ}
    {kept admitted : List Sequence} {selection : WorkSelection}
    (R : Reports (s.preemptTo n) kv₁ s' kv' selection)
    (S : Selected s kv n kv₁ kept admitted s' kv')
    (hne : plannedEntries kv' s'.running ≠ []) :
    ((∃ entry ∈ plannedEntries kv' s'.running, entry.phase = .prefill) →
      (∃ entry ∈ plannedEntries kv' s'.running, entry.phase = .decode) →
        selection.phase = .mixed) ∧
    ((¬ ∃ entry ∈ plannedEntries kv' s'.running, entry.phase = .decode) →
      selection.phase = .prefill) ∧
    ((¬ ∃ entry ∈ plannedEntries kv' s'.running, entry.phase = .prefill) →
      selection.phase = .decode) := by
  have hsome : (∃ entry ∈ plannedEntries kv' s'.running, entry.phase = .prefill) ∨
      ∃ entry ∈ plannedEntries kv' s'.running, entry.phase = .decode := by
    obtain ⟨entry, rest, hcons⟩ := List.exists_cons_of_ne_nil hne
    cases hphase : entry.phase with
    | prefill => exact .inl ⟨entry, hcons ▸ List.mem_cons_self, hphase⟩
    | decode => exact .inr ⟨entry, hcons ▸ List.mem_cons_self, hphase⟩
  rw [← any_work_iff, ← any_work_iff] at hsome ⊢
  rcases R.phase with ⟨-, hselection⟩ | ⟨hnil, hphase, -⟩
  · rw [hselection]
    simp only [selectedWork]
    generalize (s'.running.any fun seq =>
      decide (seq.numScheduledTokens ≠ 0 ∧ seq.phase = .prefill)) = hasPrefill at hsome ⊢
    generalize (s'.running.any fun seq =>
      decide (seq.numScheduledTokens ≠ 0 ∧ seq.phase = .decode)) = hasDecode at hsome ⊢
    cases hasPrefill <;> cases hasDecode <;> simp at hsome ⊢
  · -- nothing ran before the admissions, and what is admitted prefills
    have hkept : kept = [] := by
      have hlength := S.stays.length_eq
      rw [show s.running.take n = [] from hnil] at hlength
      exact List.length_eq_zero_iff.mp hlength.symm
    have hnone : (s'.running.any fun seq =>
        decide (seq.numScheduledTokens ≠ 0 ∧ seq.phase = .decode)) = false := by
      rw [List.any_eq_false]
      intro seq hseq hdecode
      rw [S.running, hkept, List.nil_append] at hseq
      have hprefill := (S.fresh seq hseq).prefilling.phase
      rw [(of_decide_eq_true hdecode).2] at hprefill
      cases hprefill
    rw [hnone] at hsome ⊢
    exact ⟨fun _ hdecode => absurd hdecode (by simp), fun _ => hphase,
      fun hprefill => absurd (hsome.resolve_right (by simp)) hprefill⟩

/-! ### Entries -/

section Entries

variable {s : Scheduler} {kv : BlockPool}

/-- The numbers of an entry of a plan. -/
structure EntryOk (numBlocks : ℕ) (entry : SequenceStepPlan) : Prop where
  pos : 0 < entry.tokenBudget
  kvLength : entry.cache.kvLength = entry.cache.cachedTokenRange.stop + entry.tokenBudget
  cached : entry.cache.cachedTokenRange.start = 0
  decode : entry.phase = .decode → entry.tokenBudget = 1
  table : entry.cache.kvLength ≤ BLOCK_SIZE * entry.cache.blockTable.length
  blocks : ∀ b ∈ entry.cache.blockTable, b < numBlocks
  slots : entry.cache.slotMapping.length = entry.tokenBudget
  slots_lt : ∀ slot ∈ entry.cache.slotMapping, slot < (numBlocks * BLOCK_SIZE : ℕ)

theorem Core.entryOk (C : Core s kv) (hwork : ∀ seq ∈ s.running, seq.WorkOk) :
    ∀ entry ∈ plannedEntries kv s.running, EntryOk kv.blocks.length entry := by
  intro entry hentry
  obtain ⟨seq, hseq, rfl⟩ := List.mem_map.mp hentry
  obtain ⟨hseq, hscheduled⟩ := List.mem_filter.mp hseq
  have hpos : 0 < seq.numScheduledTokens := of_decide_eq_true hscheduled
  have hle := (hwork seq hseq).le
  have hbudget : (seq.plannedEntry kv).tokenBudget = seq.numScheduledTokens :=
    Nat.add_sub_cancel_left _ _
  have hcover : seq.numCachedTokens + seq.numScheduledTokens ≤
      BLOCK_SIZE * seq.blockTable.length := by
    rw [(hwork seq hseq).table hpos]
    exact hle.trans seq.le_numBlocks_mul
  have hlt : ∀ b ∈ seq.blockTable, b < kv.blocks.length := fun b hb =>
    C.pool.ledger.lt_length (BlockPool.Invariant.holders_ne_zero
      (List.mem_map_of_mem (f := Sequence.holder) hseq) hb)
  have hmapping : (seq.plannedEntry kv).cache.slotMapping =
      (List.range seq.numScheduledTokens).map fun i => (seq.slot (seq.numCachedTokens + i) : ℤ) := by
    rw [← hbudget] at hcover ⊢
    exact BlockPool.computeSlotMapping_eq C.pool.blockSize hcover
  refine ⟨hbudget ▸ hpos, hbudget ▸ rfl, rfl, fun hphase => ?_, hcover, hlt, ?_, ?_⟩
  · have hcached := ((C.running seq hseq).decoding hphase).cached
    omega
  · rw [hmapping, List.length_map, List.length_range, hbudget]
  · intro slot hslot
    rw [hmapping] at hslot
    obtain ⟨i, hi, rfl⟩ := List.mem_map.mp hslot
    have hposition : seq.numCachedTokens + i < BLOCK_SIZE * seq.blockTable.length := by
      have := List.mem_range.mp hi
      omega
    have hblock := hlt _ (Sequence.blockOf_mem hposition)
    have hslot : seq.slot (seq.numCachedTokens + i) < kv.blocks.length * BLOCK_SIZE := by
      simp only [Sequence.slot, BLOCK_SIZE]
      omega
    exact_mod_cast hslot

end Entries

/-! ### Plans -/

section Plans

variable {config : EngineConfig} {plan : StepPlan} {selection : WorkSelection}
  {s s' : Scheduler} {kv : BlockPool}

omit [HashFunction] in
/-- The metadata of a plan pass the checks of the attention layer. -/
theorem Captures.attends (h : Captures selection s kv plan s')
    (hok : ∀ entry ∈ plan.sequences, EntryOk config.numBlocks.val entry)
    (hdecode : selection.phase = .decode → ∀ entry ∈ plan.sequences, entry.phase = .decode)
    (htokens : (plan.sequences.map (·.tokenBudget)).sum < 4294967296)
    (hkeys : (plan.sequences.map (·.cache.kvLength)).sum < 4294967296) :
    plan.Attends config := by
  obtain ⟨members, hmembers, hq, hk, htables⟩ := planMetadata_describes h.attention
    fun hphase entry hentry => (hok entry hentry).decode (hdecode hphase entry hentry)
  have hslots := slotMapping_planMetadata h.attention
  have htotalQ : total (members.map Prod.fst) = (plan.sequences.map (·.tokenBudget)).sum := by
    rw [total, List.map_map, ← hq]
    rfl
  have htotalK : total (members.map Prod.snd) = (plan.sequences.map (·.cache.kvLength)).sum := by
    rw [total, List.map_map, ← hk]
    rfl
  have hlength : members.length = plan.sequences.length := by
    simpa using congrArg List.length hq
  have hat : ∀ (i : ℕ) (hi : i < members.length) (hi' : i < plan.sequences.length),
      members[i].1.toNat = plan.sequences[i].tokenBudget ∧
        members[i].2.toNat = plan.sequences[i].cache.kvLength := by
    intro i hi hi'
    have hqi := congrArg (·[i]?) hq
    have hki := congrArg (·[i]?) hk
    simp only [List.getElem?_map, List.getElem?_eq_getElem hi, List.getElem?_eq_getElem hi',
      Option.map_some, Option.some.injEq] at hqi hki
    exact ⟨hqi, hki⟩
  have hcausal : ∀ member ∈ members, member.1 ≤ member.2 := by
    intro member hmember
    obtain ⟨i, hi, rfl⟩ := List.mem_iff_getElem.mp hmember
    have hi' : i < plan.sequences.length := hlength ▸ hi
    rw [UInt32.le_iff_toNat_le, (hat i hi hi').1, (hat i hi hi').2,
      (hok _ (List.getElem_mem hi')).kvLength]
    exact Nat.le_add_left _ _
  have hsum : plan.attention.slotMapping.length = (plan.sequences.map (·.tokenBudget)).sum := by
    rw [hslots, List.length_flatMap]
    exact congrArg List.sum (List.map_congr_left fun entry hentry => (hok entry hentry).slots)
  refine ⟨hmembers.validate (htotalQ ▸ htokens) (htotalK ▸ hkeys) hcausal (htotalQ ▸ hsum) ?_,
    fun limits hblocks hsize hcapacity => ?_, ?_, ?_, fun hpaged => ?_⟩
  · rcases htables with htables | ⟨hnil, -⟩
    · exact .inr (by rw [htables, List.length_map, hlength])
    · exact .inl hnil
  · refine MathLimits.checkBounds_eq_ok hcapacity (fun slot hslot => ?_) (fun row hrow => ?_)
      fun blocks hrow block hblock => ?_
    · rw [hslots] at hslot
      obtain ⟨entry, hentry, hslot⟩ := List.mem_flatMap.mp hslot
      rw [hblocks, hsize]
      exact (hok entry hentry).slots_lt slot hslot
    · rcases htables with htables | ⟨hnil, -⟩
      · rw [htables, hmembers.memberLengths_k] at hrow
        obtain ⟨i, hi, rfl⟩ := List.mem_iff_getElem.mp hrow
        simp only [List.length_zip, List.length_map, lt_min_iff] at hi
        simp only [List.getElem_zip, List.getElem_map, (hat i hi.2 hi.1).2, List.length_map, hsize]
        exact divCeil_le (hok _ (List.getElem_mem hi.1)).table
      · rw [hnil] at hrow
        cases hrow
    · rcases htables with htables | ⟨hnil, -⟩
      · rw [htables] at hrow
        obtain ⟨entry, hentry, rfl⟩ := List.mem_map.mp hrow
        obtain ⟨b, hb, rfl⟩ := List.mem_map.mp hblock
        have hlt := (hok entry hentry).blocks b hb
        rw [hblocks]
        omega
      · rw [hnil] at hrow
        cases hrow
  · exact hmembers.queries hq
  · exact hmembers.keys hk
  · rcases htables with htables | ⟨hnil, -⟩
    · rw [htables, List.forall₂_map_right_iff, List.forall₂_same]
      exact fun entry hentry => ⟨rfl, by
        rw [List.length_map]
        exact (hok entry hentry).table⟩
    · simp [AttnMetadata.usesPagedKv, hnil] at hpaged

omit [HashFunction] in
/-- The members of the metadata of a plan are its entries. -/
theorem Captures.covers {numBlocks : ℕ} (h : Captures selection s kv plan s')
    (hok : ∀ entry ∈ plan.sequences, EntryOk numBlocks entry)
    (hprefill : selection.phase = .prefill → ∀ entry ∈ plan.sequences, entry.phase = .prefill)
    (hdecode : selection.phase = .decode → ∀ entry ∈ plan.sequences, entry.phase = .decode) :
    plan.Covers := by
  obtain ⟨members, hmembers, hq, hk, htables⟩ := planMetadata_describes h.attention
    fun hphase entry hentry => (hok entry hentry).decode (hdecode hphase entry hentry)
  refine ⟨hmembers.queries hq, hmembers.keys hk, fun hpaged => ?_, fun hunpaged => ?_⟩
  · rcases htables with htables | ⟨hnil, -⟩
    · exact htables
    · simp [AttnMetadata.usesPagedKv, hnil] at hpaged
  · rcases htables with htables | ⟨-, hphase, hcached⟩
    · simp [AttnMetadata.usesPagedKv, htables, h.nonempty] at hunpaged
    · have hentries : ∀ entry ∈ plan.sequences, entry.phase = .prefill ∧
          entry.cache.cachedTokenRange.isEmpty = true ∧
            entry.cache.kvLength = entry.tokenBudget := by
        intro entry hentry
        have hp := hprefill hphase entry hentry
        have hempty := hcached entry hentry hp
        refine ⟨hp, hempty, ?_⟩
        have hle : entry.cache.cachedTokenRange.stop ≤ entry.cache.cachedTokenRange.start :=
          of_decide_eq_true hempty
        rw [(hok entry hentry).cached] at hle
        rw [(hok entry hentry).kvLength, Nat.le_zero.mp hle, Nat.zero_add]
      refine ⟨hmembers.cuSeqlens_eq ?_, hentries⟩
      rw [hq, hk]
      exact List.map_congr_left fun entry hentry => (hentries entry hentry).2.2.symm

end Plans

/-- The entries of a plan, their phase and the metadata that were made for them. -/
theorem Core.planStep_entries {st st' : EngineState} {plan : StepPlan} (C : Core st.1 st.2)
    (hplan : Scheduler.planStep st = .ok (some plan) st') :
    ∃ selection s, Captures selection s st'.2 plan st'.1 ∧
      (∀ entry ∈ plan.sequences, EntryOk st'.2.blocks.length entry) ∧
      (plan.phase = .prefill ↔ ∀ entry ∈ plan.sequences, entry.phase = .prefill) ∧
      (plan.phase = .decode ↔ ∀ entry ∈ plan.sequences, entry.phase = .decode) ∧
      (plan.phase = .mixed ↔ (∃ entry ∈ plan.sequences, entry.phase = .prefill) ∧
        ∃ entry ∈ plan.sequences, entry.phase = .decode) := by
  obtain ⟨selection, n, kv₁, kept, admitted, s₁, -, S, R, hcaptures, hsequences, -⟩ :=
    C.planStep_some hplan
  obtain ⟨hmixed, hprefill, hdecode⟩ := R.phase_eq S (hsequences ▸ hcaptures.nonempty)
  rw [← hsequences, ← hcaptures.phase] at hmixed hprefill hdecode
  refine ⟨selection, s₁, hcaptures, hsequences ▸ S.core.entryOk S.work, ?_⟩
  -- an entry is a prefill or a decode
  have hall : ∀ phase other : SequencePhase, phase ≠ other →
      ((∀ entry ∈ plan.sequences, entry.phase = phase) ↔
        ¬ ∃ entry ∈ plan.sequences, entry.phase = other) := by
    intro phase other hdifferent
    refine ⟨fun hall ⟨entry, hentry, hphase⟩ => hdifferent ((hall entry hentry).symm.trans hphase),
      fun hnone entry hentry => ?_⟩
    by_contra hphase
    refine hnone ⟨entry, hentry, ?_⟩
    revert hphase hdifferent
    cases entry.phase <;> cases phase <;> cases other <;> simp
  rw [hall .prefill .decode (by simp), hall .decode .prefill (by simp)]
  by_cases hp : ∃ entry ∈ plan.sequences, entry.phase = .prefill
  · by_cases hd : ∃ entry ∈ plan.sequences, entry.phase = .decode
    · simp [hmixed hp hd, hp, hd]
    · simp [hprefill hd, hp, hd]
  · have hd : ∃ entry ∈ plan.sequences, entry.phase = .decode := by
      by_contra hd
      have hboth := (hprefill hd).symm.trans (hdecode hp)
      cases hboth
    simp [hdecode hp, hp, hd]

/-- **The members of the metadata are the entries of the plan.** -/
theorem Core.covers_of_planStep {st st' : EngineState} {plan : StepPlan} (C : Core st.1 st.2)
    (hplan : Scheduler.planStep st = .ok (some plan) st') : plan.Covers := by
  obtain ⟨selection, s, hcaptures, hok, hprefill, hdecode, -⟩ := C.planStep_entries hplan
  rw [hcaptures.phase] at hprefill hdecode
  exact hcaptures.covers hok hprefill.mp hdecode.mp

/-- **Every plan is well formed for the attention layer.** In every reachable state at most
`maxNumSeqs` sequences run, and every plan that `planStep` returns is well formed; its metadata
pass the checks of the attention layer when the sums of their lengths fit `u32`. -/
theorem EngineConfig.plan_wellFormed (config : EngineConfig) {log : List Event} {st : EngineState}
    (h : Run Step config.initial log st) :
    st.1.running.length ≤ config.maxNumSeqs.val ∧
    ∀ plan st', Scheduler.planStep st = .ok (some plan) st' → plan.WellFormed config ∧
      ((plan.sequences.map (·.tokenBudget)).sum < 4294967296 →
        (plan.sequences.map (·.cache.kvLength)).sum < 4294967296 → plan.Attends config) := by
  have I := EngineConfig.inv_of_run h
  have hgoverns := EngineConfig.governs_of_run h
  refine ⟨hgoverns.maxNumSeqs ▸ I.core.length_le, fun plan st' hplan => ?_⟩
  obtain ⟨-, n, kv₁, kept, admitted, s₁, -, S, -, -, hsequences, -⟩ := I.core.planStep_some hplan
  obtain ⟨selection, s, hcaptures, hok, hprefill, hdecode, hmixed⟩ := I.core.planStep_entries hplan
  rw [S.content.length.trans hgoverns.length] at hok
  refine ⟨⟨hcaptures.nonempty, hcaptures.tokenBudget, ?_, fun entry hentry => (hok entry hentry).pos,
    hprefill, hdecode, hmixed,
    fun hunpaged => ((I.core.covers_of_planStep hplan).unpaged hunpaged).2⟩,
    hcaptures.attends hok fun hselected => hdecode.mp (hcaptures.phase.trans hselected)⟩
  rw [hcaptures.tokenBudget, hsequences, sum_tokenBudget_plannedEntries,
    ← hgoverns.maxNumBatchedTokens]
  exact S.total_le

omit [HashFunction] in
/-- Two prompts are planned together, in the unpaged form. -/
theorem plan_wellFormed_twoRequests :
    letI := constantHash
    ∃ plan st', plannedBy (performAll (EngineConfig.plain 2 16 2).initial twoRequests).2 =
        some (plan, st') ∧ plan.tokenBudget ≤ 16 ∧ plan.attention.usesPagedKv = false ∧
      validateLogicalMetadata plan.attention = .ok () ∧
      (memberLengths plan.attention.cuSeqlensQ).map UInt32.toNat = [3, 2] := by
  let _ := constantHash
  let config := EngineConfig.plain 2 16 2
  have hplanned : (plannedBy (performAll config.initial twoRequests).2).map
      (fun planned => (planned.1.attention.usesPagedKv, planned.1.sequences.map (·.tokenBudget),
        planned.1.sequences.map (·.cache.kvLength))) = some (false, [3, 2], [3, 2]) := by
    decide +kernel
  obtain ⟨⟨plan, st'⟩, hplan, hvalues⟩ := Option.map_eq_some_iff.mp hplanned
  simp only [Prod.mk.injEq] at hvalues
  obtain ⟨hunpaged, hbudgets, hlengths⟩ := hvalues
  obtain ⟨hwellFormed, hattends⟩ := (EngineConfig.plan_wellFormed config
    (run_performAll twoRequests config.initial)).2 plan st' (planStep_of_plannedBy hplan)
  have hall := hattends (by rw [hbudgets]; decide) (by rw [hlengths]; decide)
  refine ⟨plan, st', hplan, hwellFormed.tokenBudget_le.trans ?_, hunpaged, hall.valid,
    hall.queries.trans hbudgets⟩
  exact Nat.min_le_left _ _

end VllmOxide
