import VllmOxide.Library.Outcome
import VllmOxide.Scheduling.Select

/-!
# Assembling a plan

After a decision every sequence with scheduled work becomes one entry of the plan: the entry of a
sequence covers exactly the scheduled tokens after its cached ones, and may be sampled exactly
when it reaches the end of the history. Assembling a plan does not change the state; it fails
only where a number does not fit its machine integer.

## Main definitions

* `Sequence.plannedTokens`, `plannedEntries`: the entries of a plan in terms of the running queue.
* `Representable`: lengths fit `u32` and block ids fit `i32`.
* `Planned`: the outcomes of `planStep` after the decision.

## Main results

* `Core.planStep`: the outcome of `planStep`.
-/

namespace VllmOxide

/-- The token range that a sequence is scheduled for. -/
def Sequence.plannedTokens (seq : Sequence) : TokenRange :=
  ⟨seq.numCachedTokens, seq.numCachedTokens + seq.numScheduledTokens⟩

/-- Whether the scheduled tokens reach the end of the history. -/
def Sequence.endsHistory (seq : Sequence) : Bool :=
  decide (seq.numCachedTokens + seq.numScheduledTokens = seq.numTokens)

/-- The plan entry of a sequence. -/
def Sequence.plannedEntry (kv : BlockPool) (seq : Sequence) : SequenceStepPlan :=
  Scheduler.sequencePlan kv seq seq.plannedTokens seq.endsHistory

/-- Whether the sequence has scheduled work. -/
def Sequence.isScheduled (seq : Sequence) : Bool :=
  decide (0 < seq.numScheduledTokens)

/-- The entries of a plan for the given running queue. -/
def plannedEntries (kv : BlockPool) (running : List Sequence) : List SequenceStepPlan :=
  (running.filter Sequence.isScheduled).map (Sequence.plannedEntry kv)

theorem plannedEntries_cons_of_scheduled (kv : BlockPool) {seq : Sequence} (rest : List Sequence)
    (h : seq.isScheduled = true) :
    plannedEntries kv (seq :: rest) = seq.plannedEntry kv :: plannedEntries kv rest := by
  rw [plannedEntries, List.filter_cons_of_pos h]
  rfl

theorem plannedEntries_cons_of_idle (kv : BlockPool) {seq : Sequence} (rest : List Sequence)
    (h : seq.isScheduled = false) :
    plannedEntries kv (seq :: rest) = plannedEntries kv rest := by
  rw [plannedEntries, List.filter_cons_of_neg (by simp [h])]
  rfl

/-- The entries spend what is scheduled. -/
theorem sum_tokenBudget_plannedEntries (kv : BlockPool) (running : List Sequence) :
    ((plannedEntries kv running).map (·.tokenBudget)).sum =
      (running.map (·.numScheduledTokens)).sum := by
  induction running with
  | nil => rfl
  | cons seq rest ih =>
    rw [List.map_cons, List.sum_cons, ← ih]
    cases h : seq.isScheduled with
    | true =>
      have hbudget : (seq.plannedEntry kv).tokenBudget = seq.numScheduledTokens :=
        Nat.add_sub_cancel_left _ _
      rw [plannedEntries_cons_of_scheduled kv rest h, List.map_cons, List.sum_cons, hbudget]
    | false =>
      have hzero : seq.numScheduledTokens = 0 := by simpa [Sequence.isScheduled] using h
      rw [plannedEntries_cons_of_idle kv rest h, hzero, Nat.zero_add]

theorem plannedEntries_eq_nil_iff {kv : BlockPool} {running : List Sequence} :
    plannedEntries kv running = [] ↔ ∀ seq ∈ running, seq.numScheduledTokens = 0 := by
  simp [plannedEntries, Sequence.isScheduled]

/-- Every length fits `u32` and every block id fits `i32`. -/
structure Representable (s : Scheduler) (kv : BlockPool) : Prop where
  numTokens : ∀ r ∈ s.requests, r.numTokens < 4294967296
  blocks : kv.blocks.length ≤ 2147483648

theorem Representable.congr {s s' : Scheduler} {kv kv' : BlockPool} (h : Representable s kv)
    (hs : s'.requests.Perm s.requests) (hkv : kv'.blocks.length = kv.blocks.length) :
    Representable s' kv' :=
  ⟨fun r hr => h.numTokens r (hs.mem_iff.mp hr), hkv ▸ h.blocks⟩

theorem Representable.running {s : Scheduler} {kv : BlockPool} (h : Representable s kv)
    {seq : Sequence} (hseq : seq ∈ s.running) : seq.numTokens < 4294967296 :=
  h.numTokens seq.request (List.mem_map_of_mem (List.mem_append_left _ hseq))

namespace Scheduler

/-- The range of a scheduled sequence. -/
theorem plannedRange_eq {seq : Sequence} (hok : seq.RunningOk) (hwork : seq.WorkOk)
    (hpos : 0 < seq.numScheduledTokens) :
    plannedRange seq = .ok (seq.plannedTokens, seq.endsHistory) ∨
      (∃ message, plannedRange seq = .error (.invalid message)) ∧ USIZE_MAX < seq.numTokens := by
  have hle := hwork.le
  cases hphase : seq.phase with
  | prefill =>
    have htarget := (hok.prefilling hphase).target
    by_cases hbound : seq.numCachedTokens + seq.numScheduledTokens ≤ USIZE_MAX
    · refine .inl ?_
      simp only [plannedRange, hphase, checkedAdd_of_le hbound, htarget, Nat.min_eq_left hle]
      rfl
    · refine .inr ⟨⟨"scheduled token range overflow", ?_⟩, by omega⟩
      simp only [plannedRange, hphase, checkedAdd, if_neg hbound]
  | decode =>
    have hcached := (hok.decoding hphase).cached
    have hone : seq.numScheduledTokens = 1 := by omega
    refine .inl ?_
    have hstart : seq.numTokens - 1 = seq.numCachedTokens := by omega
    have hstop : seq.numCachedTokens + 1 = seq.numTokens := hcached
    simp only [plannedRange, hphase, hstart, Sequence.plannedTokens, Sequence.endsHistory, hone,
      hstop, decide_true]
    rw [if_neg (by omega)]

/-- The sequence loop of `planStep` leaves the running queue as it is. -/
theorem planSequences_eq (kv : BlockPool) {running : List Sequence}
    (hok : ∀ seq ∈ running, seq.RunningOk) (hwork : ∀ seq ∈ running, seq.WorkOk) :
    (planSequences kv running).1 = running ∧
      ((planSequences kv running).2 = .ok (plannedEntries kv running) ∨
        (∃ message, (planSequences kv running).2 = .error (.invalid message)) ∧
          ∃ seq ∈ running, USIZE_MAX < seq.numTokens) := by
  induction running with
  | nil => exact ⟨rfl, .inl rfl⟩
  | cons seq rest ih =>
    obtain ⟨hrest, hentries⟩ := ih (fun q hq => hok q (List.mem_cons_of_mem _ hq))
      (fun q hq => hwork q (List.mem_cons_of_mem _ hq))
    by_cases hzero : seq.numScheduledTokens = 0
    · simp only [planSequences, hzero, if_true, hrest, true_and]
      rcases hentries with h | ⟨h, q, hq, hlt⟩
      · refine .inl (h.trans ?_)
        rw [plannedEntries_cons_of_idle kv rest (by simp [Sequence.isScheduled, hzero])]
      · exact .inr ⟨h, q, List.mem_cons_of_mem _ hq, hlt⟩
    · have hpos : 0 < seq.numScheduledTokens := Nat.pos_of_ne_zero hzero
      rcases plannedRange_eq (hok seq List.mem_cons_self) (hwork seq List.mem_cons_self) hpos with
        hrange | ⟨⟨message, hrange⟩, hlt⟩
      · have hlen : seq.plannedTokens.len = seq.numScheduledTokens :=
          Nat.add_sub_cancel_left _ _
        simp only [planSequences, hzero, if_false, hrange, hlen, hrest, true_and]
        rcases hentries with h | ⟨⟨message, h⟩, q, hq, hlt⟩
        · refine .inl ?_
          rw [h, plannedEntries_cons_of_scheduled kv rest (by simp [Sequence.isScheduled, hpos])]
          rfl
        · exact .inr ⟨⟨message, by rw [h]; rfl⟩, q, List.mem_cons_of_mem _ hq, hlt⟩
      · simp only [planSequences, hzero, if_false, hrange, true_and]
        exact .inr ⟨⟨message, rfl⟩, seq, List.mem_cons_self, hlt⟩

/-! ### The attention metadata -/

theorem exists_usizeToU32_ok {value : ℕ} (name : String) (h : value < 4294967296) :
    ∃ y, usizeToU32 value name = .ok y :=
  ⟨_, by rw [usizeToU32, if_pos h]⟩

/-- An entry whose numbers fit their machine integers. -/
structure EntryFits (entry : SequenceStepPlan) : Prop where
  budget : entry.tokenBudget < 4294967296
  kvLength : entry.cache.kvLength < 4294967296
  blocks : ∀ b ∈ entry.cache.blockTable, b < 2147483648

/-- Building the metadata of entries that fit succeeds. -/
theorem exists_planMetadata_ok (selection : WorkSelection) {entries : List SequenceStepPlan}
    (slotMapping : List ℤ) (h : ∀ entry ∈ entries, EntryFits entry) :
    ∃ attention, planMetadata selection entries slotMapping = .ok attention := by
  obtain ⟨counts, hcounts⟩ : ∃ y, scheduledTokenCounts entries = .ok y :=
    exists_mapM_ok fun entry hentry => exists_usizeToU32_ok _ (h entry hentry).budget
  have hlengths : ∀ name, ∃ y, kvLengths name entries = .ok y := fun name =>
    exists_mapM_ok fun entry hentry => exists_usizeToU32_ok _ (h entry hentry).kvLength
  obtain ⟨tables, htables⟩ : ∃ y, blockTablesForPlan entries = .ok y :=
    exists_mapM_ok fun entry hentry => exists_mapM_ok fun b hb =>
      ⟨(b : ℤ), by rw [blockIdToI32, if_pos ((h entry hentry).blocks b hb)]⟩
  obtain ⟨lengths, hkv⟩ := hlengths "KV length"
  obtain ⟨contexts, hcontext⟩ := hlengths "context length"
  have hpaged : ∃ attention, buildPagedPrefillPlanMetadata entries slotMapping = .ok attention :=
    ⟨_, by rw [buildPagedPrefillPlanMetadata, hcounts, hkv, htables]; rfl⟩
  unfold planMetadata
  cases selection.phase with
  | prefill =>
    dsimp only
    split
    · exact hpaged
    · exact ⟨_, by rw [hcounts, hkv]; rfl⟩
  | decode => exact ⟨_, by dsimp only; rw [hcontext, htables]; rfl⟩
  | mixed => exact hpaged

/-- The metadata of a plan writes the given slots. -/
theorem slotMapping_planMetadata {selection : WorkSelection} {entries : List SequenceStepPlan}
    {slotMapping : List ℤ} {attention : AttnMetadata}
    (h : planMetadata selection entries slotMapping = .ok attention) :
    attention.slotMapping = slotMapping := by
  have hpaged : ∀ {attention}, buildPagedPrefillPlanMetadata entries slotMapping = .ok attention →
      attention.slotMapping = slotMapping := by
    intro attention h
    simp only [buildPagedPrefillPlanMetadata] at h
    obtain ⟨counts, -, h⟩ := exists_of_bind_ok h
    obtain ⟨lengths, -, h⟩ := exists_of_bind_ok h
    obtain ⟨tables, -, h⟩ := exists_of_bind_ok h
    obtain rfl := Except.ok.inj h
    rfl
  unfold planMetadata at h
  cases hphase : selection.phase with
  | prefill =>
    simp only [hphase] at h
    split at h
    · exact hpaged h
    · obtain ⟨counts, -, h⟩ := exists_of_bind_ok h
      obtain ⟨lengths, -, h⟩ := exists_of_bind_ok h
      obtain rfl := Except.ok.inj h
      rfl
  | decode =>
    simp only [hphase] at h
    obtain ⟨contexts, -, h⟩ := exists_of_bind_ok h
    obtain ⟨tables, -, h⟩ := exists_of_bind_ok h
    obtain rfl := Except.ok.inj h
    rfl
  | mixed =>
    simp only [hphase] at h
    exact hpaged h

theorem kvLength_lt_of_kvLengths {name : String} {entries : List SequenceStepPlan}
    {lengths : List UInt32} (h : kvLengths name entries = .ok lengths) :
    ∀ entry ∈ entries, entry.cache.kvLength < 4294967296 := by
  intro entry hentry
  obtain ⟨y, -, hy⟩ := exists_of_forall₂ (forall₂_of_mapM_ok h).flip hentry
  by_contra hlt
  rw [usizeToU32, if_neg hlt] at hy
  cases hy

/-- Every key length of a plan with metadata fits `u32`. -/
theorem kvLength_lt_of_planMetadata {selection : WorkSelection} {entries : List SequenceStepPlan}
    {slotMapping : List ℤ} {attention : AttnMetadata}
    (h : planMetadata selection entries slotMapping = .ok attention) :
    ∀ entry ∈ entries, entry.cache.kvLength < 4294967296 := by
  have hpaged : ∀ {attention}, buildPagedPrefillPlanMetadata entries slotMapping = .ok attention →
      ∀ entry ∈ entries, entry.cache.kvLength < 4294967296 := by
    intro attention h
    simp only [buildPagedPrefillPlanMetadata] at h
    obtain ⟨counts, -, h⟩ := exists_of_bind_ok h
    obtain ⟨lengths, hlengths, -⟩ := exists_of_bind_ok h
    exact kvLength_lt_of_kvLengths hlengths
  unfold planMetadata at h
  cases hphase : selection.phase with
  | prefill =>
    simp only [hphase] at h
    split at h
    · exact hpaged h
    · obtain ⟨counts, -, h⟩ := exists_of_bind_ok h
      obtain ⟨lengths, hlengths, -⟩ := exists_of_bind_ok h
      exact kvLength_lt_of_kvLengths hlengths
  | decode =>
    simp only [hphase] at h
    obtain ⟨contexts, hcontexts, -⟩ := exists_of_bind_ok h
    exact kvLength_lt_of_kvLengths hcontexts
  | mixed =>
    simp only [hphase] at h
    exact hpaged h

/-- Every step of a computation fails with an invalid plan. -/
def FailsInvalid {α : Type} (x : Except StepPlanError α) : Prop :=
  ∀ error, x = .error error → ∃ message, error = .invalid message

theorem FailsInvalid.bind {α β : Type} {x : Except StepPlanError α}
    {f : α → Except StepPlanError β} (hx : FailsInvalid x) (hf : ∀ a, FailsInvalid (f a)) :
    FailsInvalid (x >>= f) := by
  intro error h
  cases x with
  | error error' =>
    obtain rfl : error' = error := Except.error.inj h
    exact hx _ rfl
  | ok a => exact hf a error h

theorem FailsInvalid.pure {α : Type} (a : α) : FailsInvalid (Pure.pure a) := by
  intro error h
  cases h

theorem FailsInvalid.mapM {α β : Type} {f : α → Except StepPlanError β}
    (hf : ∀ a, FailsInvalid (f a)) (xs : List α) : FailsInvalid (xs.mapM f) := by
  induction xs with
  | nil => exact .pure _
  | cons x xs ih =>
    rw [List.mapM_cons]
    exact (hf x).bind fun _ => ih.bind fun _ => .pure _

theorem failsInvalid_usizeToU32 (value : ℕ) (name : String) :
    FailsInvalid (usizeToU32 value name) := by
  intro error h
  rw [usizeToU32] at h
  split at h
  · cases h
  · exact ⟨_, (Except.error.inj h).symm⟩

theorem failsInvalid_blockTablesForPlan (entries : List SequenceStepPlan) :
    FailsInvalid (blockTablesForPlan entries) := by
  refine .mapM (fun entry => .mapM (fun b error h => ?_) _) _
  rw [blockIdToI32] at h
  split at h
  · cases h
  · exact ⟨_, (Except.error.inj h).symm⟩

/-- Building the metadata fails with an invalid plan only. -/
theorem failsInvalid_planMetadata (selection : WorkSelection) (entries : List SequenceStepPlan)
    (slotMapping : List ℤ) : FailsInvalid (planMetadata selection entries slotMapping) := by
  have hcounts : FailsInvalid (scheduledTokenCounts entries) :=
    .mapM (fun _ => failsInvalid_usizeToU32 _ _) _
  have hlengths : ∀ name, FailsInvalid (kvLengths name entries) := fun _ =>
    .mapM (fun _ => failsInvalid_usizeToU32 _ _) _
  have htables := failsInvalid_blockTablesForPlan entries
  have hpaged : FailsInvalid (buildPagedPrefillPlanMetadata entries slotMapping) :=
    hcounts.bind fun _ => (hlengths _).bind fun _ => htables.bind fun _ => .pure _
  unfold planMetadata
  cases selection.phase with
  | prefill =>
    dsimp only
    split
    · exact hpaged
    · exact hcounts.bind fun _ => (hlengths _).bind fun _ => .pure _
  | decode => exact (hlengths _).bind fun _ => htables.bind fun _ => .pure _
  | mixed => exact hpaged

end Scheduler

/-! ### The outcome of planning -/

/-- The outcomes of `planStep` after a decision that has led to `s` and `kv`. -/
inductive Planned (s : Scheduler) (kv : BlockPool) :
    EStateM.Result StepPlanError (Scheduler × BlockPool) (Option StepPlan) → Prop
  | idle (hnone : plannedEntries kv s.running = []) (hlive : s.isRunning = false) :
      Planned s kv (.ok none (s, kv))
  | noProgress (hnone : plannedEntries kv s.running = []) (hlive : s.isRunning = true)
      (waiting running budget free : ℕ) (blocked : Option BlockedAdmission) :
      Planned s kv (.error (.noProgress waiting running budget free blocked) (s, kv))
  | unrepresentable (message : String) (h : ¬ Representable s kv) :
      Planned s kv (.error (.invalid message) (s, kv))
  | planned (plan : StepPlan) (hsequences : plan.sequences = plannedEntries kv s.running)
      (hne : plan.sequences ≠ []) (hid : plan.id = s.nextPlanId)
      (hslots : plan.attention.slotMapping = plan.sequences.flatMap (·.cache.slotMapping))
      (hlengths : ∀ entry ∈ plan.sequences, entry.cache.kvLength < 4294967296)
      (hbudget : plan.tokenBudget = (plan.sequences.map (·.tokenBudget)).sum) :
      Planned s kv (.ok (some plan)
        ({ s with nextPlanId := s.nextPlanId + 1, inFlight := some plan }, kv))

variable [HashFunction]

/-- The entries of a plan fit when lengths and block ids do. -/
theorem Core.entryFits {s : Scheduler} {kv : BlockPool} (C : Core s kv)
    (hwork : ∀ seq ∈ s.running, seq.WorkOk) (hfits : Representable s kv) :
    ∀ entry ∈ plannedEntries kv s.running, Scheduler.EntryFits entry := by
  intro entry hentry
  obtain ⟨seq, hseq, rfl⟩ := List.mem_map.mp hentry
  have hmem := List.mem_of_mem_filter hseq
  have hle := (hwork seq hmem).le
  have hlt := hfits.running hmem
  have hblocks := hfits.blocks
  refine ⟨?_, ?_, fun b hb => ?_⟩
  · show seq.numCachedTokens + seq.numScheduledTokens - seq.numCachedTokens < 4294967296
    omega
  · show seq.numCachedTokens + seq.numScheduledTokens < 4294967296
    omega
  · have hholder : seq.holder ∈ s.holders := List.mem_map_of_mem hmem
    have hown := BlockPool.Invariant.holders_ne_zero hholder hb
    have hrange := C.pool.ledger.lt_length hown
    omega

/-- Assembling the plan after a decision. -/
theorem Core.planned {s : Scheduler} {kv : BlockPool} (C : Core s kv)
    (hwork : ∀ seq ∈ s.running, seq.WorkOk) {s₀ : Scheduler} {kv₀ : BlockPool}
    {selection : WorkSelection} (hinFlight : s₀.inFlight = none)
    (hselect : Scheduler.selectWork (s₀, kv₀) = .ok selection (s, kv)) :
    Planned s kv (Scheduler.planStep (s₀, kv₀)) := by
  obtain ⟨hrunning, hentries⟩ := Scheduler.planSequences_eq kv C.running hwork
  have hsame : { s with running := (Scheduler.planSequences kv s.running).1 } = s := by
    rw [hrunning]
  simp only [Scheduler.planStep, hinFlight, hselect]
  generalize hplan : Scheduler.planSequences kv s.running = planned at *
  obtain ⟨running, entries⟩ := planned
  obtain rfl : running = s.running := hrunning
  rcases hentries with h | ⟨⟨message, h⟩, seq, hseq, hlt⟩
  · obtain rfl : entries = .ok (plannedEntries kv s.running) := h
    cases hcases : plannedEntries kv s.running with
    | nil =>
      dsimp only
      cases hlive : s.isRunning with
      | true => exact .noProgress hcases hlive _ _ _ _ _
      | false => exact .idle hcases hlive
    | cons first rest =>
      dsimp only
      split
      · rename_i error herror
        obtain ⟨message, rfl⟩ := Scheduler.failsInvalid_planMetadata _ _ _ error herror
        refine .unrepresentable message fun hfits => ?_
        obtain ⟨attention, hok⟩ := Scheduler.exists_planMetadata_ok selection
          ((first :: rest).flatMap (·.cache.slotMapping))
          (hcases ▸ C.entryFits hwork hfits)
        rw [herror] at hok
        cases hok
      · rename_i attention hattention
        exact .planned _ hcases.symm (List.cons_ne_nil _ _) rfl
          (Scheduler.slotMapping_planMetadata hattention)
          (Scheduler.kvLength_lt_of_planMetadata hattention) rfl
  · obtain rfl : entries = .error (.invalid message) := h
    refine .unrepresentable _ fun hfits => ?_
    have hbound := hfits.running hseq
    simp only [USIZE_MAX] at hlt
    omega

/-- **Planning.** Without a plan in flight `planStep` takes a decision and assembles its plan. -/
theorem Core.planStep {s : Scheduler} {kv : BlockPool} (C : Core s kv)
    (hinFlight : s.inFlight = none) :
    ∃ n kv₁ kept admitted s' kv', Selected s kv n kv₁ kept admitted s' kv' ∧
      Planned s' kv' (Scheduler.planStep (s, kv)) := by
  obtain ⟨selection, n, kv₁, kept, admitted, s', kv', hselect, S⟩ := C.selectWork
  exact ⟨n, kv₁, kept, admitted, s', kv', S, S.core.planned S.work hinFlight hselect⟩

/-- With a plan in flight `planStep` fails and changes nothing. -/
theorem planStep_of_inFlight {s : Scheduler} {kv : BlockPool} {plan : StepPlan}
    (h : s.inFlight = some plan) :
    Scheduler.planStep (s, kv) = .error (.planAlreadyInFlight plan.id) (s, kv) := by
  simp only [Scheduler.planStep, h]

end VllmOxide
