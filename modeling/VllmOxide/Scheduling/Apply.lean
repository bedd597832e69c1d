import VllmOxide.Scheduling.Plan

/-!
# Applying a result

`applyStepResult` accepts a result that names the planned sequences in order and brings a token
exactly for those that reach the end of their history. It then advances every planned sequence by
its scheduled tokens, appends the sampled tokens, indexes the filled blocks, and removes the
sequences that are finished. Every other result is rejected without a change.

## Main definitions

* `Matches`, `Accepts`: what makes a result acceptable.
* `Sequence.applied`, `Stepped`: a running sequence before and after an accepted result.
* `Applied`: what an accepted result does to the state.

## Main results

* `Core.applyStepResult`: an acceptable result is applied.
* `Core.applyStepResult_error`: any other result is rejected without a change.
-/

namespace VllmOxide

open Scheduler

/-- The executed entry belongs to the sequence, and brings a token exactly if one may be
sampled. -/
structure Matches (seq : Sequence) (executed : SequenceStepResult) : Prop where
  requestId : executed.requestId = seq.requestId
  seqId : executed.sequenceId = seq.seqId
  token : executed.sampledToken.isSome = seq.endsHistory

/-- The public output of a finished sequence. -/
def Sequence.output (seq : Sequence) : RequestOutput where
  requestId := seq.requestId
  tokenIds := seq.completionTokenIds
  text := ""
  finished := true

/-- Whether the sequence is finished. -/
def Sequence.isFinished (seq : Sequence) : Bool :=
  decide (seq.status = .finished)

namespace Sequence

/-- Whether the sequence ends when it samples the token. -/
def stopsAt (eosTokenIds : List Token) (seq : Sequence) (tokenId : Token) : Bool :=
  hitsStop eosTokenIds tokenId (seq.appendToken tokenId)

/-- A planned sequence after an accepted result: its scheduled tokens are cached, the sampled
token is appended, and at the end of its history it is no longer recovering. -/
def applied (eosTokenIds : List Token) (token : Option Token) (seq : Sequence) : Sequence :=
  { seq with
    status :=
      match token with
      | none => seq.status
      | some tokenId => if seq.stopsAt eosTokenIds tokenId then .finished else seq.status
    tokenIds := seq.tokenIds ++ token.toList
    lastToken := token.getD seq.lastToken
    numTokens := seq.numTokens + token.toList.length
    numCachedTokens := seq.numCachedTokens + seq.numScheduledTokens
    numScheduledTokens := 0
    recomputeTargetTokens := if seq.endsHistory then none else seq.recomputeTargetTokens }

/-- The same before the recovery target is cleared. -/
def executed (eosTokenIds : List Token) (token : Option Token) (seq : Sequence) : Sequence :=
  { seq.applied eosTokenIds token with recomputeTargetTokens := seq.recomputeTargetTokens }

/-- Whether applying the plan entry of the sequence ends a recovery. -/
def Recovers (seq : Sequence) : Prop :=
  seq.isScheduled = true ∧ seq.phase = .prefill ∧ seq.endsHistory = true ∧
    seq.recomputeTargetTokens = some seq.numTokens

instance (seq : Sequence) : Decidable seq.Recovers :=
  inferInstanceAs (Decidable (_ ∧ _))

variable {seq : Sequence} (eosTokenIds : List Token)

/-- What the apply loop does to a sequence. -/
theorem advanced_eq (h : seq.WorkOk) :
    advanced seq.plannedTokens.len seq = seq.executed eosTokenIds none := by
  have hlen : seq.plannedTokens.len = seq.numScheduledTokens := Nat.add_sub_cancel_left _ _
  simp only [advanced, hlen, Nat.min_eq_left h.le, executed, applied, Option.toList_none,
    List.append_nil, List.length_nil, Nat.add_zero, Option.getD_none]

theorem sampled_advanced_eq (h : seq.WorkOk) (tokenId : Token) :
    sampled eosTokenIds tokenId (advanced seq.plannedTokens.len seq) =
      seq.executed eosTokenIds (some tokenId) := by
  have hstop : hitsStop eosTokenIds tokenId ((seq.executed eosTokenIds none).appendToken tokenId) =
      seq.stopsAt eosTokenIds tokenId := rfl
  rw [advanced_eq eosTokenIds h]
  simp only [sampled, hstop]
  cases hends : seq.stopsAt eosTokenIds tokenId <;>
    simp [executed, applied, appendToken, hends]

/-- Clearing the recovery target of the recovered sequences. -/
theorem applied_of_executed (hok : seq.RunningOk) (hscheduled : seq.isScheduled = true)
    (token : Option Token) :
    (if seq.Recovers then { seq.executed eosTokenIds token with recomputeTargetTokens := none }
      else seq.executed eosTokenIds token) = seq.applied eosTokenIds token := by
  by_cases hrecovers : seq.Recovers
  · rw [if_pos hrecovers]
    simp only [executed, applied, hrecovers.2.2.1, if_true]
  · rw [if_neg hrecovers]
    have htarget : seq.recomputeTargetTokens =
        if seq.endsHistory = true then none else seq.recomputeTargetTokens := by
      split
      · rename_i hends
        rcases hok.progress with hp | hd
        · have htarget := hp.target
          rw [prefillTargetTokens] at htarget
          cases hr : seq.recomputeTargetTokens with
          | none => rfl
          | some target =>
            rw [hr, Option.getD_some] at htarget
            exact absurd ⟨hscheduled, hp.phase, hends, by rw [hr, htarget]⟩ hrecovers
        · exact hd.recovered
      · rfl
    simp only [executed]
    rw [htarget]
    rfl

end Sequence

/-! ### The validation loop -/

/-- Whether a running sequence is the one a plan entry is about. -/
theorem isPlanned_plannedEntry (kv : BlockPool) (seq q : Sequence) :
    isPlanned (seq.plannedEntry kv) q =
      decide (q.requestId = seq.requestId ∧ q.seqId = seq.seqId) := rfl

/-- The planned sequence is found among the running ones. -/
theorem find?_isPlanned (kv : BlockPool) {running : List Sequence} {seq : Sequence}
    (hseq : seq ∈ running) (hok : ∀ q ∈ running, q.RunningOk) :
    ∃ q, running.find? (isPlanned (seq.plannedEntry kv)) = some q ∧ q.status = .running := by
  have hsome : (running.find? (isPlanned (seq.plannedEntry kv))).isSome = true := by
    rw [List.find?_isSome]
    exact ⟨seq, hseq, by simp [isPlanned_plannedEntry]⟩
  obtain ⟨q, hq⟩ := Option.isSome_iff_exists.mp hsome
  exact ⟨q, hq, (hok q (List.mem_of_find?_eq_some hq)).status⟩

/-- The validation loop accepts exactly the results that match, entry by entry. -/
theorem checkResults_iff (planId : ℕ) (kv : BlockPool) {running : List Sequence}
    (hok : ∀ q ∈ running, q.RunningOk) {seqs : List Sequence} :
    ∀ {results : List SequenceStepResult}, (∀ seq ∈ seqs, seq ∈ running) →
      results.length = seqs.length →
      (checkResults planId running ((seqs.map (Sequence.plannedEntry kv)).zip results) = .ok () ↔
        List.Forall₂ Matches seqs results) := by
  induction seqs with
  | nil =>
    intro results _ hlen
    obtain rfl : results = [] := List.length_eq_zero_iff.mp hlen
    exact ⟨fun _ => .nil, fun _ => rfl⟩
  | cons seq seqs ih =>
    intro results hmem hlen
    cases results with
    | nil => simp at hlen
    | cons executed results =>
      have hlen' : results.length = seqs.length := by simpa using hlen
      have hrest := ih (fun q hq => hmem q (List.mem_cons_of_mem _ hq)) hlen'
      obtain ⟨q, hfind, hstatus⟩ := find?_isPlanned kv (hmem seq List.mem_cons_self) hok
      rw [List.forall₂_cons]
      simp only [List.map_cons, List.zip_cons_cons, checkResults]
      by_cases hids : (seq.plannedEntry kv).requestId ≠ executed.requestId ∨
          (seq.plannedEntry kv).sequenceId ≠ executed.sequenceId
      · rw [if_pos hids]
        refine ⟨fun h => (by cases h), fun h => ?_⟩
        rcases hids with hid | hid
        · exact absurd h.1.requestId.symm hid
        · exact absurd h.1.seqId.symm hid
      · rw [if_neg hids]
        by_cases htoken : (seq.plannedEntry kv).samplingAllowed ≠ executed.sampledToken.isSome
        · rw [if_pos htoken]
          exact ⟨fun h => (by cases h), fun h => absurd h.1.token.symm htoken⟩
        · rw [if_neg htoken]
          simp only [hfind]
          rw [if_neg (not_not.mpr hstatus), hrest]
          simp only [not_or, not_not] at hids
          exact ⟨fun h => ⟨⟨hids.1.symm, hids.2.symm, (not_not.mp htoken).symm⟩, h⟩, fun h => h.2⟩

/-! ### The apply loop -/

/-- A running sequence before and after the apply loop. -/
def Executed (eosTokenIds : List Token) (results : List SequenceStepResult)
    (seq seq' : Sequence) : Prop :=
  (seq.isScheduled = false ∧ seq' = seq) ∨
    (seq.isScheduled = true ∧ ∃ executed ∈ results, Matches seq executed ∧
      seq' = seq.executed eosTokenIds executed.sampledToken)

/-- `updateFirst` at the only element that satisfies the predicate. -/
theorem updateFirst_append {α : Type} {p : α → Bool} (f : α → α) {xs ys : List α} {x : α}
    (hxs : ∀ y ∈ xs, p y = false) (hx : p x = true) :
    updateFirst p f (xs ++ x :: ys) = xs ++ f x :: ys := by
  induction xs with
  | nil => simp only [List.nil_append, updateFirst, hx, if_true]
  | cons y xs ih =>
    have hy := hxs y List.mem_cons_self
    simp only [List.cons_append, updateFirst, hy, Bool.false_eq_true, if_false]
    rw [ih fun z hz => hxs z (List.mem_cons_of_mem _ hz)]

/-- `find?` at the only element that satisfies the predicate. -/
theorem find?_append_cons {α : Type} {p : α → Bool} {xs ys : List α} {x : α}
    (hxs : ∀ y ∈ xs, p y = false) (hx : p x = true) : (xs ++ x :: ys).find? p = some x := by
  rw [List.find?_append, List.find?_eq_none.mpr fun y hy => by simp [hxs y hy],
    List.find?_cons_of_pos hx]
  rfl

namespace Executed

variable {eosTokenIds : List Token} {results : List SequenceStepResult} {seq seq' : Sequence}

theorem requestId (h : Executed eosTokenIds results seq seq') : seq'.requestId = seq.requestId := by
  rcases h with ⟨-, rfl⟩ | ⟨-, _, -, -, rfl⟩ <;> rfl

theorem seqId (h : Executed eosTokenIds results seq seq') : seq'.seqId = seq.seqId := by
  rcases h with ⟨-, rfl⟩ | ⟨-, _, -, -, rfl⟩ <;> rfl

theorem blockTable (h : Executed eosTokenIds results seq seq') :
    seq'.blockTable = seq.blockTable := by
  rcases h with ⟨-, rfl⟩ | ⟨-, _, -, -, rfl⟩ <;> rfl

end Executed

/-- A sequence that recovers with the plan entry. -/
theorem isRecovered_iff {seq : Sequence} (hscheduled : seq.isScheduled = true) (kv : BlockPool)
    (eosTokenIds : List Token) :
    isRecovered (seq.plannedEntry kv) (seq.executed eosTokenIds none) = true ↔ seq.Recovers := by
  simp only [isRecovered, decide_eq_true_eq]
  show seq.phase = .prefill ∧ seq.endsHistory = true ∧
    seq.recomputeTargetTokens = some (seq.numCachedTokens + seq.numScheduledTokens) ↔ _
  refine ⟨fun ⟨hphase, hends, htarget⟩ => ⟨hscheduled, hphase, hends, ?_⟩,
    fun ⟨_, hphase, hends, htarget⟩ => ⟨hphase, hends, ?_⟩⟩
  · rw [htarget, of_decide_eq_true hends]
  · rw [htarget, ← of_decide_eq_true hends]

variable [HashFunction]

/-- One round of the apply loop. -/
theorem applySequence_eq (eosTokenIds : List Token) (kv₀ kv : BlockPool)
    {visited rest : List Sequence} {seq : Sequence} {executed : SequenceStepResult}
    (hnodup : ((visited ++ seq :: rest).map (·.seqId)).Nodup) (hwork : seq.WorkOk)
    (hscheduled : seq.isScheduled = true) (hstatus : seq.status = .running)
    (outputs : List RequestOutput) (finished recovered : List ℕ) :
    applySequence eosTokenIds ⟨visited ++ seq :: rest, kv, outputs, finished, recovered⟩
        (seq.plannedEntry kv₀, executed) =
      ⟨visited ++ seq.executed eosTokenIds executed.sampledToken :: rest, kv.hashBlocks seq,
        outputs ++ ([seq.executed eosTokenIds executed.sampledToken].filter
          Sequence.isFinished).map Sequence.output,
        finished ++ ([seq.executed eosTokenIds executed.sampledToken].filter
          Sequence.isFinished).map (·.seqId),
        recovered ++ if seq.Recovers then [seq.seqId] else []⟩ := by
  have hvisited : ∀ q ∈ visited, isPlanned (seq.plannedEntry kv₀) q = false := by
    intro q hq
    rw [List.map_append, List.nodup_append] at hnodup
    have hne := hnodup.2.2 q.seqId (List.mem_map_of_mem hq) seq.seqId
      (List.mem_map_of_mem List.mem_cons_self)
    simp [isPlanned_plannedEntry, hne]
  have hseq : isPlanned (seq.plannedEntry kv₀) seq = true := by simp [isPlanned_plannedEntry]
  have hrecovered : (if isRecovered (seq.plannedEntry kv₀) (seq.executed eosTokenIds none) = true
      then recovered ++ [seq.seqId] else recovered) =
      recovered ++ if seq.Recovers then [seq.seqId] else [] := by
    by_cases h : seq.Recovers
    · rw [if_pos h, if_pos ((isRecovered_iff hscheduled kv₀ eosTokenIds).mpr h)]
    · rw [if_neg h, if_neg (mt (isRecovered_iff hscheduled kv₀ eosTokenIds).mp h),
        List.append_nil]
  have hbudget : (seq.plannedEntry kv₀).tokenBudget = seq.plannedTokens.len := rfl
  simp only [applySequence, find?_append_cons hvisited hseq, hbudget,
    Sequence.advanced_eq eosTokenIds hwork]
  cases htoken : executed.sampledToken with
  | none =>
    have hrunning : (seq.executed eosTokenIds none).isFinished = false := by
      simp [Sequence.isFinished, Sequence.executed, Sequence.applied, hstatus]
    simp only [updateFirst_append _ hvisited hseq, List.filter_cons, hrunning,
      Bool.false_eq_true, if_false, List.filter_nil, List.map_nil, List.append_nil]
    exact congrArg _ hrecovered
  | some tokenId =>
    have hsampled := Sequence.sampled_advanced_eq eosTokenIds hwork tokenId
    rw [Sequence.advanced_eq eosTokenIds hwork] at hsampled
    simp only [hsampled, updateFirst_append _ hvisited hseq]
    cases hfin : (seq.executed eosTokenIds (some tokenId)).isFinished with
    | true =>
      rw [if_pos (of_decide_eq_true hfin)]
      simp only [List.filter_cons, hfin, if_true, List.filter_nil, List.map_cons, List.map_nil]
      exact congrArg _ hrecovered
    | false =>
      rw [if_neg (of_decide_eq_false hfin)]
      simp only [List.filter_cons, hfin, Bool.false_eq_true, if_false, List.filter_nil,
        List.map_nil, List.append_nil]
      exact congrArg _ hrecovered

/-- What one round of the apply loop does to a pool that holds the sequence. -/
theorem BlockPool.Invariant.executed {pool : BlockPool} {hs : List Holder} {seq : Sequence}
    (I : pool.Invariant (seq.holder :: hs)) (hok : seq.RunningOk) (hwork : seq.WorkOk)
    (hscheduled : seq.isScheduled = true) (eosTokenIds : List Token) (token : Option Token) :
    (pool.hashBlocks seq).Invariant ((seq.executed eosTokenIds token).holder :: hs) := by
  have htable : seq.numCachedTokens + seq.numScheduledTokens ≤
      BLOCK_SIZE * seq.blockTable.length := by
    rw [hwork.table (of_decide_eq_true hscheduled)]
    exact hwork.le.trans seq.le_numBlocks_mul
  exact (I.hashBlocks hok.numTokens hwork.le htable).appendTokens token.toList

/-- The blocks outside the tables keep their content. -/
structure Untouched (tables : List (List ℕ)) (pool pool' : BlockPool) : Prop where
  blockSize : pool'.blockSize = pool.blockSize
  length : pool'.blocks.length = pool.blocks.length
  enabled : pool'.prefixCacheEnabled = pool.prefixCacheEnabled
  identity : ∀ b, (∀ table ∈ tables, b ∉ table) → pool'.identityAt b = pool.identityAt b

/-- **The apply loop** over the running sequences `todo`, with the sequences `done` already
visited. -/
theorem foldl_applySequence (eosTokenIds : List Token) (kv₀ : BlockPool) {todo : List Sequence} :
    ∀ {results : List SequenceStepResult} (visited : List Sequence) {kv : BlockPool}
      (outputs : List RequestOutput) (finished recovered : List ℕ),
      kv.Invariant ((visited ++ todo).map Sequence.holder) →
      (∀ seq ∈ todo, seq.RunningOk) → (∀ seq ∈ todo, seq.WorkOk) →
      ((visited ++ todo).map (·.seqId)).Nodup →
      List.Forall₂ Matches (todo.filter Sequence.isScheduled) results →
      ∃ todo' kv' recovered',
        ((plannedEntries kv₀ todo).zip results).foldl (applySequence eosTokenIds)
            ⟨visited ++ todo, kv, outputs, finished, recovered⟩ =
          ⟨visited ++ todo', kv', outputs ++ (todo'.filter Sequence.isFinished).map
              Sequence.output,
            finished ++ (todo'.filter Sequence.isFinished).map (·.seqId),
            recovered ++ recovered'⟩ ∧
        List.Forall₂ (Executed eosTokenIds results) todo todo' ∧
        kv'.Invariant ((visited ++ todo').map Sequence.holder) ∧
        Untouched (todo.map (·.blockTable)) kv kv' ∧
        ∀ id, id ∈ recovered' ↔ ∃ seq ∈ todo, seq.seqId = id ∧ seq.Recovers := by
  induction todo with
  | nil =>
    intro results visited kv outputs finished recovered I _ _ _ _
    refine ⟨[], kv, [], ?_, .nil, I, ⟨rfl, rfl, rfl, fun _ _ => rfl⟩, by simp⟩
    simp [plannedEntries]
  | cons seq rest ih =>
    intro results visited kv outputs finished recovered I hok hwork hnodup hmatches
    have hok' : ∀ q ∈ rest, q.RunningOk := fun q hq => hok q (List.mem_cons_of_mem _ hq)
    have hwork' : ∀ q ∈ rest, q.WorkOk := fun q hq => hwork q (List.mem_cons_of_mem _ hq)
    cases hscheduled : seq.isScheduled with
    | false =>
      rw [List.filter_cons_of_neg (by simp [hscheduled])] at hmatches
      have hnext : visited ++ seq :: rest = (visited ++ [seq]) ++ rest := by simp
      obtain ⟨rest', kv', recovered', hrun, hrel, I', huntouched, hrecovered⟩ := ih
        (visited ++ [seq]) outputs finished recovered (hnext ▸ I) hok' hwork'
        (hnext ▸ hnodup) hmatches
      have hstatus : seq.isFinished = false := by
        simp [Sequence.isFinished, (hok seq List.mem_cons_self).status]
      refine ⟨seq :: rest', kv', recovered', ?_, .cons (.inl ⟨hscheduled, rfl⟩) hrel, ?_, ?_, ?_⟩
      · rw [plannedEntries_cons_of_idle kv₀ rest hscheduled, hnext,
          List.filter_cons_of_neg (by simp [hstatus])]
        simpa using hrun
      · simpa using I'
      · exact ⟨huntouched.blockSize, huntouched.length, huntouched.enabled, fun b hb =>
          huntouched.identity b fun table ht => hb table (List.mem_cons_of_mem _ ht)⟩
      · intro id
        rw [hrecovered id]
        constructor
        · rintro ⟨q, hq, h⟩
          exact ⟨q, List.mem_cons_of_mem _ hq, h⟩
        · rintro ⟨q, hq, hid, hrec⟩
          rcases List.mem_cons.mp hq with rfl | hq
          · simp [Sequence.Recovers, hscheduled] at hrec
          · exact ⟨q, hq, hid, hrec⟩
    | true =>
      rw [List.filter_cons_of_pos hscheduled] at hmatches
      cases hmatches with
      | @cons _ executed _ results hexecuted hmatches =>
        have hseq := hok seq List.mem_cons_self
        have hseqwork := hwork seq List.mem_cons_self
        set seq' := seq.executed eosTokenIds executed.sampledToken with hseq'
        have hperm : ((visited ++ seq :: rest).map Sequence.holder).Perm
            (seq.holder :: (visited ++ rest).map Sequence.holder) := List.perm_middle.map _
        have hperm' : (seq'.holder :: (visited ++ rest).map Sequence.holder).Perm
            (((visited ++ [seq']) ++ rest).map Sequence.holder) := by
          rw [List.append_assoc, List.singleton_append]
          exact (List.perm_middle.map _).symm
        have I₁ := ((I.perm hperm).executed hseq hseqwork hscheduled eosTokenIds
          executed.sampledToken).perm hperm'
        have hids : (((visited ++ [seq']) ++ rest).map (·.seqId)).Nodup := by
          rw [List.append_assoc, List.singleton_append, List.map_append, List.map_cons,
            show seq'.seqId = seq.seqId from rfl, ← List.map_cons, ← List.map_append]
          exact hnodup
        obtain ⟨rest', kv', recovered', hrun, hrel, I', huntouched, hrecovered⟩ := ih
          (visited ++ [seq']) (outputs ++ ([seq'].filter Sequence.isFinished).map
            Sequence.output) (finished ++ ([seq'].filter Sequence.isFinished).map (·.seqId))
          (recovered ++ if seq.Recovers then [seq.seqId] else []) I₁ hok' hwork' hids hmatches
        refine ⟨seq' :: rest', kv', (if seq.Recovers then [seq.seqId] else []) ++ recovered', ?_,
          .cons (.inr ⟨hscheduled, executed, List.mem_cons_self, hexecuted, rfl⟩)
            (hrel.imp fun q q' h => ?_), ?_, ?_, ?_⟩
        · rw [plannedEntries_cons_of_scheduled kv₀ rest hscheduled, List.zip_cons_cons,
            List.foldl_cons, applySequence_eq eosTokenIds kv₀ kv hnodup hseqwork hscheduled
              hseq.status, ← hseq']
          rw [List.append_assoc, List.singleton_append] at hrun
          rw [hrun, ← List.singleton_append (l := rest'), List.filter_append, List.map_append,
            List.map_append]
          simp only [List.append_assoc]
        · rcases h with h | ⟨h, r, hr, h'⟩
          · exact .inl h
          · exact .inr ⟨h, r, List.mem_cons_of_mem _ hr, h'⟩
        · simpa using I'
        · have hlt : ∀ b ∈ seq.blockTable, b < kv.blocks.length := fun b hb =>
            I.ledger.lt_length (BlockPool.Invariant.holders_ne_zero
              (List.mem_map_of_mem (f := Sequence.holder) (by simp : seq ∈ visited ++ seq :: rest))
              hb)
          have htable : seq.numCachedTokens + seq.numScheduledTokens ≤
              BLOCK_SIZE * seq.blockTable.length := by
            rw [hseqwork.table (of_decide_eq_true hscheduled)]
            exact hseqwork.le.trans seq.le_numBlocks_mul
          have hindexes := BlockPool.indexes_hashBlocks I.blockSize htable hlt
          refine ⟨huntouched.blockSize.trans hindexes.blockSize,
            huntouched.length.trans hindexes.length, huntouched.enabled.trans hindexes.enabled,
            fun b hb => ?_⟩
          rw [huntouched.identity b fun table ht => hb table (List.mem_cons_of_mem _ ht),
            BlockPool.identityAt, hindexes.blockAt b (hb _ List.mem_cons_self)]
          rfl
        · intro id
          rw [List.mem_append, hrecovered id]
          constructor
          · rintro (h | ⟨q, hq, h⟩)
            · split at h
              · exact ⟨seq, List.mem_cons_self, (List.mem_singleton.mp h).symm, ‹_›⟩
              · cases h
            · exact ⟨q, List.mem_cons_of_mem _ hq, h⟩
          · rintro ⟨q, hq, hid, hrec⟩
            rcases List.mem_cons.mp hq with rfl | hq
            · exact .inl (by rw [if_pos hrec]; exact List.mem_singleton.mpr hid.symm)
            · exact .inr ⟨q, hq, hid, hrec⟩

/-! ### The result of an accepted result -/

omit [HashFunction] in
/-- A running sequence before and after an accepted result. -/
def Stepped (eosTokenIds : List Token) (results : List SequenceStepResult)
    (seq seq' : Sequence) : Prop :=
  (seq.isScheduled = false ∧ seq' = seq) ∨
    (seq.isScheduled = true ∧ ∃ executed ∈ results, Matches seq executed ∧
      seq' = seq.applied eosTokenIds executed.sampledToken)

namespace Stepped

variable {eosTokenIds : List Token} {results : List SequenceStepResult} {seq seq' : Sequence}

omit [HashFunction] in
theorem requestId (h : Stepped eosTokenIds results seq seq') : seq'.requestId = seq.requestId := by
  rcases h with ⟨-, rfl⟩ | ⟨-, _, -, -, rfl⟩ <;> rfl

omit [HashFunction] in
theorem seqId (h : Stepped eosTokenIds results seq seq') : seq'.seqId = seq.seqId := by
  rcases h with ⟨-, rfl⟩ | ⟨-, _, -, -, rfl⟩ <;> rfl

omit [HashFunction] in
theorem blockTable (h : Stepped eosTokenIds results seq seq') :
    seq'.blockTable = seq.blockTable := by
  rcases h with ⟨-, rfl⟩ | ⟨-, _, -, -, rfl⟩ <;> rfl

omit [HashFunction] in
/-- A sequence that goes on keeps its invariant. -/
theorem runningOk (h : Stepped eosTokenIds results seq seq') (hok : seq.RunningOk)
    (hwork : seq.WorkOk) (hfin : seq'.isFinished = false) : seq'.RunningOk := by
  rcases h with ⟨-, rfl⟩ | ⟨hscheduled, executed, -, hmatch, rfl⟩
  · exact hok
  have hpos : 0 < seq.numScheduledTokens := of_decide_eq_true hscheduled
  have hle := hwork.le
  have htable := hwork.table hpos
  have hblocks := seq.le_numBlocks_mul
  have htoken := hmatch.token
  refine ⟨?_, ?_, ?_, ?_⟩
  · -- only a stop changes the status, and it makes the sequence finished
    cases ht : executed.sampledToken with
    | none => exact hok.status
    | some tokenId =>
      rw [ht] at hfin
      simp only [Sequence.isFinished, Sequence.applied] at hfin ⊢
      split at hfin
      · simp at hfin
      · rename_i hstop
        rw [if_neg hstop]
        exact hok.status
  · show seq.numTokens + executed.sampledToken.toList.length =
      (seq.tokenIds ++ executed.sampledToken.toList).length
    rw [List.length_append, hok.numTokens]
  · exact hok.prompt_le.trans (Nat.le_add_right _ _)
  · cases hends : seq.endsHistory with
    | false =>
      have hne : seq.numCachedTokens + seq.numScheduledTokens ≠ seq.numTokens :=
        of_decide_eq_false hends
      obtain hnone : executed.sampledToken = none := by
        rw [hends] at htoken
        exact Option.isNone_iff_eq_none.mp (by simpa using htoken)
      rcases hok.progress with hp | hd
      · refine .inl ⟨?_, ?_, ?_⟩
        · show seq.numCachedTokens + seq.numScheduledTokens <
            seq.numTokens + executed.sampledToken.toList.length
          omega
        · have htarget := hp.target
          simp only [Sequence.prefillTargetTokens, Sequence.applied, hends, Bool.false_eq_true,
            if_false, hnone, Option.toList_none, List.length_nil, Nat.add_zero] at htarget ⊢
          exact htarget
        · simp only [Sequence.applied, Sequence.numBlocks, hnone, Option.toList_none,
            List.length_nil, Nat.add_zero]
          exact hp.table
      · have hcached := hd.cached
        omega
    | true =>
      have heq : seq.numCachedTokens + seq.numScheduledTokens = seq.numTokens :=
        of_decide_eq_true hends
      obtain ⟨tokenId, ht⟩ : ∃ tokenId, executed.sampledToken = some tokenId := by
        rw [hends] at htoken
        exact Option.isSome_iff_exists.mp htoken
      have hone : executed.sampledToken.toList.length = 1 := by rw [ht]; rfl
      refine .inr ⟨?_, ?_, ?_, ?_, ?_, ?_⟩
      · simp only [Sequence.applied, hends, if_true]
      · show seq.numCachedTokens + seq.numScheduledTokens + 1 =
          seq.numTokens + executed.sampledToken.toList.length
        omega
      · show seq.numPromptTokens ≤ seq.numCachedTokens + seq.numScheduledTokens
        exact heq ▸ hok.prompt_le
      · show seq.blockTable.length ≤
          (seq.numTokens + executed.sampledToken.toList.length + (BLOCK_SIZE - 1)) / BLOCK_SIZE
        rw [htable, hone]
        exact Nat.div_le_div_right (by omega)
      · show (seq.numTokens + executed.sampledToken.toList.length + (BLOCK_SIZE - 1)) /
          BLOCK_SIZE ≤ seq.blockTable.length + 1
        rw [htable, hone, Sequence.numBlocks]
        simp only [BLOCK_SIZE]
        omega
      · show seq.numCachedTokens + seq.numScheduledTokens ≤ BLOCK_SIZE * seq.blockTable.length
        rw [htable]
        omega

end Stepped

end VllmOxide
