import Mathlib.Data.Prod.Lex
import VllmOxide.System.Rounds

/-!
# Termination

Every round makes the oldest request progress, or it admits a request without preempting any. So
the live requests, what is missing of the oldest one and the length of the queue go down
lexicographically, and the rounds come to an end.

There is one exception. With a budget of one token the token is reserved for the head of the queue
whenever it can be admitted. A preemption can make this possible: the request that was preempted
is the head of the queue then, and it takes the token and the blocks back from the oldest request
it had to make room for (`Starves`).

## Main definitions

* `Starves`: the state before such a round.
* `roundMeasure`: the measure.

## Main results

* `EngineConfig.rounds_terminate`: rounds that do not starve come to an end.
-/

namespace VllmOxide

variable [HashFunction]

/-- The budget is one token, the next decode does not fit the free blocks, and the youngest
running request can be admitted again with the blocks that it gives back. -/
def Starves (st : EngineState) : Prop :=
  st.1.maxNumBatchedTokens.val = 1 ∧ ¬ st.1.DecodeFits st.2 ∧ 2 ≤ st.1.running.length ∧
    ∃ victim kv, st.1.running.getLast? = some victim ∧
      st.2.deallocate victim = .ok (kv, BlockPool.released victim) ∧
      kv.canAllocate (BlockPool.released victim).preempted ≠ none

omit [HashFunction] in
/-- A decode batch takes one token for each sequence. -/
theorem Scheduler.length_decodeBatch_le_budget (running : List Sequence) :
    ∀ budget, (decodeBatch budget running).length ≤ budget := by
  induction running with
  | nil => intro budget; exact Nat.zero_le _
  | cons seq rest ih =>
    intro budget
    have hle := seq.runningTokenCount_le_budget budget
    have hrest := ih (budget - seq.runningTokenCount budget)
    simp only [decodeBatch]
    split
    · rw [List.length_cons]
      omega
    · omega

section Starving

variable {s : Scheduler} {kv kv' : BlockPool}

/-- Without a reserved token the whole budget is left. -/
theorem Scheduler.runningBudget_of_blocked (h : s.reserveAdmissionToken kv = false) :
    s.runningBudget kv = s.maxNumBatchedTokens.val := by
  rw [runningBudget, h]
  rfl

/-- A decode batch of one token fits if a block is free. -/
theorem Core.fits_of_free (C : Core s kv) (hbudget : s.runningBudget kv ≤ 1)
    (hfree : 0 < kv.freeBlockIds.length) : s.DecodeFits kv := by
  have hready : ∀ seq ∈ Scheduler.decodeBatch (s.runningBudget kv) s.running, seq.AppendReady :=
    fun seq hseq => (C.running seq (Scheduler.of_mem_decodeBatch hseq).1).ready
  have hlength := Scheduler.length_decodeBatch_le_budget s.running (s.runningBudget kv)
  have hmissing := missingBlocks_le_length hready
  rw [Scheduler.DecodeFits, kv.canAppendBatch_eq hready
    ((Scheduler.length_decodeBatch_le _ _).trans C.length_le_usize), decide_eq_true_eq]
  omega

/-- Preempting the youngest sequence frees a block. -/
theorem Core.free_of_preempt (C : Core s kv) {m : ℕ} (hm : m + 1 = s.running.length)
    (C' : Core (s.preemptTo m) kv') (hsame : kv.SameContent kv') :
    0 < kv'.freeBlockIds.length := by
  have hlt : m < s.running.length := by omega
  have hsplit : s.running.map (·.blockTable) =
      (s.running.take m).map (·.blockTable) ++ s.running[m].blockTable :: [] := by
    rw [← List.map_singleton (f := fun seq : Sequence => seq.blockTable), ← List.map_append,
      List.take_append_getElem hlt, List.take_of_length_le hm.ge]
  obtain ⟨b, hb, hnot⟩ := C.ownBlock _ _ _ hsplit
  have hmem : b ∈ kv'.freeBlockIds := by
    rw [C'.pool.ledger.mem_free, hsame.length]
    refine ⟨C.pool.ledger.lt_length (BlockPool.Invariant.holders_ne_zero
      (List.mem_map_of_mem (f := Sequence.holder) (List.getElem_mem hlt)) hb), ?_⟩
    rw [Scheduler.holders, tables_map_holder, holders_eq_zero_iff]
    exact hnot
  exact List.length_pos_of_mem hmem

/-- If a preemption leaves something running but no token for it, the state starves. -/
theorem Core.starves {n : ℕ} {kv₁ : BlockPool} (C : Core s kv)
    (hpreempts : Scheduler.preemptIfNeeded (s, kv) = .ok () (s.preemptTo n, kv₁))
    (hn : 0 < n) (hlt : n < s.running.length) (htokens : 0 < s.maxNumBatchedTokens.val)
    (hzero : (s.preemptTo n).runningBudget kv₁ = 0) : Starves (s, kv) := by
  have hT : s.maxNumBatchedTokens.val = 1 := by
    have h : s.maxNumBatchedTokens.val -
      (if (s.preemptTo n).reserveAdmissionToken kv₁ then 1 else 0) = 0 := hzero
    split at h <;> omega
  obtain ⟨m, hm⟩ : ∃ m, m + 1 = s.running.length := ⟨s.running.length - 1, by omega⟩
  have hwhole : s.preemptTo (m + 1) = s := Scheduler.preemptTo_of_length_le hm.ge
  have hrounds : Scheduler.preemptLoop (m + 1 + 1) (s, kv) = .ok () (s.preemptTo n, kv₁) := by
    rw [hm]
    exact hpreempts
  have hlength : ∀ {k : ℕ} {kv₂ : BlockPool}, k ≤ s.running.length →
      EStateM.Result.ok () (s.preemptTo k, kv₂) =
        (.ok () (s.preemptTo n, kv₁) : EStateM.Result StepPlanError _ Unit) →
      k = n ∧ kv₂ = kv₁ := fun hk heq => by
    simp only [EStateM.Result.ok.injEq, Prod.mk.injEq, true_and] at heq
    have h := congrArg (fun s => s.running.length) heq.1
    simp only [Scheduler.preemptTo_running, List.length_take, Nat.min_eq_left hk,
      Nat.min_eq_left hlt.le] at h
    exact ⟨h, heq.2⟩
  have hnot : ¬ s.DecodeFits kv := fun hfits => by
    rw [Scheduler.preemptLoop_of_fits _ hfits] at hrounds
    have h := hlength hm.le (by rw [hwhole]; exact hrounds)
    omega
  obtain ⟨kv₂, hdeallocate, hsame, C₂⟩ := Core.preemptOne (n := m) (by omega) (hwhole.symm ▸ C)
  have hlast := s.getLast?_preemptTo (n := m) (by omega)
  have hsucc := s.preemptTo_succ (n := m) (by omega)
  rw [hwhole] at hlast hsucc
  rw [Scheduler.preemptLoop_of_not_fits _ hnot hlast hdeallocate, hsucc] at hrounds
  have htwo : 2 ≤ s.running.length := by omega
  refine ⟨hT, hnot, htwo, s.running[m], kv₂, hlast, hdeallocate, fun hcan => ?_⟩
  -- otherwise the token is left for the oldest sequence after one preemption
  have hblocked : (s.preemptTo m).reserveAdmissionToken kv₂ = false := by
    by_contra hreserve
    obtain ⟨w, tail, hw, -, -, hw'⟩ :=
      Scheduler.of_reserveAdmissionToken (by simpa using hreserve)
    have hdrop : s.running.drop m = [s.running[m]] := by
      rw [List.drop_eq_getElem_cons (by omega), hm, List.drop_length]
    rw [Scheduler.preemptTo, hdrop] at hw
    obtain ⟨rfl, -⟩ := List.cons.inj hw
    exact hw' hcan
  have hbudget := Scheduler.runningBudget_of_blocked hblocked
  have hbudget : (s.preemptTo m).runningBudget kv₂ = 1 := hbudget.trans hT
  have hfits := C₂.fits_of_free hbudget.le (C.free_of_preempt hm C₂ hsame)
  rw [Scheduler.preemptLoop_of_fits _ hfits] at hrounds
  obtain ⟨rfl, rfl⟩ := hlength (by omega) hrounds
  omega

end Starving

/-! ### The measure -/

omit [HashFunction] in
/-- The number of cached tokens of the first live request. -/
def Scheduler.headCached (s : Scheduler) : ℕ :=
  ((s.running ++ s.waiting).head?.map (·.numCachedTokens)).getD 0

omit [HashFunction] in
/-- The live requests, the tokens that the oldest one may still cache and the length of the
queue. -/
def roundMeasure (maxModelLen : ℕ) (st : EngineState) : ℕ ×ₗ ℕ ×ₗ ℕ :=
  toLex (st.1.requests.length, toLex (maxModelLen - st.1.headCached, st.1.waiting.length))

omit [HashFunction] in
/-- Fewer requests, or more of the oldest one in the cache, or the same with a shorter queue. -/
theorem roundMeasure_lt {maxModelLen : ℕ} {st st' : EngineState}
    (h : st'.1.requests.length < st.1.requests.length ∨
      st'.1.requests.length = st.1.requests.length ∧ st'.1.headCached ≤ maxModelLen ∧
        (st.1.headCached < st'.1.headCached ∨
          st.1.headCached ≤ st'.1.headCached ∧ st'.1.waiting.length < st.1.waiting.length)) :
    roundMeasure maxModelLen st' < roundMeasure maxModelLen st := by
  simp only [roundMeasure, Prod.Lex.toLex_lt_toLex]
  rcases h with h | ⟨heq, hle, h | ⟨hhead, hwaiting⟩⟩
  · exact .inl h
  · exact .inr ⟨heq, .inl (by omega)⟩
  · refine .inr ⟨heq, ?_⟩
    rcases Nat.eq_or_lt_of_le (Nat.sub_le_sub_left hhead maxModelLen) with h | h
    · exact .inr ⟨h, hwaiting⟩
    · exact .inl h

section Measure

variable {st st' : EngineState} {n : ℕ} {kv₁ kv : BlockPool} {kept admitted all : List Sequence}
  {s : Scheduler} {result : StepResult}

omit [HashFunction] in
theorem Scheduler.headCached_cons {s : Scheduler} {o : Sequence} {rest : List Sequence}
    (h : s.running = o :: rest) : s.headCached = o.numCachedTokens := by
  rw [headCached, h]
  rfl

/-- The first sequence that runs after a selection has as much cached as the first one before. -/
theorem Selected.headCached_le (S : Selected st.1 st.2 n kv₁ kept admitted s kv)
    (C : Core st.1 st.2) (hordered : Ordered st.1) (hlarge : ¬ TooLarge st) {o : Sequence}
    {rest : List Sequence} (ho : s.running = o :: rest) :
    st.1.headCached ≤ o.numCachedTokens := by
  cases hrunning : st.1.running with
  | nil =>
    have hzero : st.1.headCached = 0 := by
      rw [Scheduler.headCached, hrunning, List.nil_append]
      cases hw : st.1.waiting with
      | nil => rfl
      | cons w tail => exact (C.waiting w (by simp [hw])).cached
    omega
  | cons p tail =>
    have hn := S.pos_of_not_large hordered hlarge (by simp [hrunning])
    have hstays := S.stays
    obtain ⟨n, rfl⟩ : ∃ m, n = m + 1 := ⟨n - 1, by omega⟩
    rw [hrunning, List.take_succ_cons] at hstays
    cases hkept : kept with
    | nil => rw [hkept] at hstays; cases hstays
    | cons q kept =>
      rw [hkept] at hstays
      rw [S.running, hkept] at ho
      obtain ⟨rfl, -⟩ := List.cons.inj ho
      rw [Scheduler.headCached_cons hrunning]
      exact (List.forall₂_cons.mp hstays).1.numCachedTokens.ge

/-- A selection without work for the oldest sequence has taken a request from the queue and
preempted none. -/
theorem Selected.waiting_lt (S : Selected st.1 st.2 n kv₁ kept admitted s kv)
    (C : Core st.1 st.2) (hordered : Ordered st.1) (htokens : 0 < st.1.maxNumBatchedTokens.val)
    (hstarves : ¬ Starves st) {o : Sequence} (ho : s.running.head? = some o) (hidle : o.numScheduledTokens = 0) :
    s.waiting.length < st.1.waiting.length := by
  have hzero : (st.1.preemptTo n).runningBudget kv₁ = 0 := by
    by_contra hne
    have hpos := S.head_scheduled (Nat.pos_of_ne_zero hne) ho
    omega
  have hkept : kept ≠ [] := by
    rintro hnil
    have hrunning := S.running
    rw [hnil, List.nil_append] at hrunning
    have hpos := (S.fresh o (List.mem_of_head? (hrunning ▸ ho))).scheduled_pos
    omega
  have hadmitted := S.reserved htokens hzero hordered.waiting_pos hkept
  have hn : n = st.1.running.length := by
    rcases Nat.eq_or_lt_of_le S.n_le with heq | hlt
    · exact heq
    · have hpos : 0 < n := by
        rw [← S.length_kept]
        exact List.length_pos_of_ne_nil hkept
      exact absurd (C.starves S.preempts hpos hlt htokens hzero) hstarves
  have hlength := congrArg List.length (S.ordered hordered.waiting_pos)
  simp only [Scheduler.requests, List.length_map, List.length_append, S.running,
    S.length_kept] at hlength
  have hpos := List.length_pos_of_ne_nil hadmitted
  omega

/-- **Every round goes down the measure**, unless it starves. -/
theorem Round.Effect.measure_lt (E : Round.Effect st n kv₁ kept admitted s kv result all st')
    (C : Core st.1 st.2) (hordered : Ordered st.1) (htokens : 0 < st.1.maxNumBatchedTokens.val)
    (hlarge : ¬ TooLarge st) (hstarves : ¬ Starves st) {maxModelLen : ℕ}
    (hfits : ∀ r ∈ st'.1.requests, r.Fits maxModelLen) :
    roundMeasure maxModelLen st' < roundMeasure maxModelLen st := by
  have S := E.selected
  have hrunning' : st'.1.running = all.filter fun seq => !seq.isFinished := by rw [E.config]
  have hwaiting' : st'.1.waiting = s.waiting := by rw [E.config]
  have hlive : st.1.requests.length = s.running.length + s.waiting.length := by
    rw [← S.requests.length_eq, Scheduler.requests, List.length_map, List.length_append]
  have hlive' : st'.1.requests.length =
      (all.filter fun seq => !seq.isFinished).length + s.waiting.length := by
    rw [Scheduler.requests, List.length_map, List.length_append, hrunning', hwaiting']
  have hall := E.stepped.length_eq
  apply roundMeasure_lt
  rcases Nat.lt_or_ge (all.filter fun seq => !seq.isFinished).length all.length with hlt | hge
  · exact .inl (by omega)
  · -- nothing has finished, so the first request is the same as before
    have hkeep : (all.filter fun seq => !seq.isFinished) = all :=
      List.filter_eq_self.mpr (List.length_filter_eq_length_iff.mp
        (Nat.le_antisymm (List.length_filter_le _ _) hge))
    rw [hkeep] at hrunning' hlive'
    refine .inr ⟨by omega, ?_⟩
    obtain ⟨seq, hseq, -⟩ := E.planned
    obtain ⟨o, rest, ho⟩ := List.exists_cons_of_ne_nil (List.ne_nil_of_mem hseq)
    have hstepped := E.stepped
    rw [ho] at hstepped
    cases hall' : all with
    | nil => rw [hall'] at hstepped; cases hstepped
    | cons o' rest' =>
      rw [hall'] at hstepped hrunning'
      have hmem : o' ∈ st'.1.running := by simp [hrunning']
      have hle := (hfits o'.request (List.mem_map_of_mem (List.mem_append_left _ hmem))).le
      have hcached := (E.inv.core.running o' hmem).cached_lt
      have hnum : o'.request.numTokens = o'.numTokens := rfl
      have hhead := S.headCached_le C hordered hlarge ho
      rw [Scheduler.headCached_cons hrunning', hwaiting']
      refine ⟨by omega, ?_⟩
      rcases (List.forall₂_cons.mp hstepped).1 with ⟨hidle, rfl⟩ | ⟨hscheduled, _, -, -, rfl⟩
      · refine .inr ⟨hhead, S.waiting_lt C hordered htokens hstarves (o := o') (by
          rw [ho]; rfl) ?_⟩
        simpa [Sequence.isScheduled] using hidle
      · have hpos : 0 < o.numScheduledTokens := of_decide_eq_true hscheduled
        exact .inl (hhead.trans_lt (Nat.lt_add_of_pos_right hpos))

end Measure

/-! ### Runs of rounds -/

/-- A state that can be reached when all requests are accepted for a model length that the pool
holds, with the bounds of a valid engine. -/
structure EngineConfig.Serves (config : EngineConfig) (maxModelLen : ℕ) (st : EngineState) :
    Prop where
  reachable : ∃ log, Run Step config.initial log st ∧
    ∀ e ∈ log, e.Prompted ∧ e.Within maxModelLen
  pool : divCeil maxModelLen BLOCK_SIZE ≤ config.numBlocks.val
  tokens : 1 ≤ config.maxNumBatchedTokens.val
  seqs : 1 ≤ config.maxNumSeqs.val

namespace EngineConfig.Serves

variable {config : EngineConfig} {maxModelLen : ℕ} {st st' : EngineState}

theorem inv (h : config.Serves maxModelLen st) : Inv st.1 st.2 :=
  let ⟨_, hrun, _⟩ := h.reachable
  EngineConfig.inv_of_run hrun

theorem governs (h : config.Serves maxModelLen st) : config.Governs st :=
  let ⟨_, hrun, _⟩ := h.reachable
  EngineConfig.governs_of_run hrun

theorem ordered (h : config.Serves maxModelLen st) : Ordered st.1 :=
  let ⟨_, hrun, hlog⟩ := h.reachable
  EngineConfig.ordered_of_run hrun fun e he => (hlog e he).1

theorem fits (h : config.Serves maxModelLen st) : ∀ r ∈ st.1.requests, r.Fits maxModelLen :=
  let ⟨_, hrun, hlog⟩ := h.reachable
  EngineConfig.fits_of_run hrun fun e he => (hlog e he).2

theorem not_tooLarge (h : config.Serves maxModelLen st) : ¬ TooLarge st :=
  VllmOxide.not_tooLarge h.fits (h.governs.length.symm ▸ h.pool)

theorem round (h : config.Serves maxModelLen st) (hround : Round st st') :
    config.Serves maxModelLen st' := by
  obtain ⟨log, hrun, hlog⟩ := h.reachable
  obtain ⟨log', hrun', hlog'⟩ := run_of_round hrun hlog (fun _ _ => ⟨trivial, trivial⟩)
    (fun _ _ => ⟨trivial, trivial⟩) hround
  exact ⟨⟨log', hrun', hlog'⟩, h.pool, h.tokens, h.seqs⟩

/-- A round that does not starve goes down the measure. -/
theorem measure_lt (h : config.Serves maxModelLen st) (hround : Round st st')
    (hstarves : ¬ Starves st) : roundMeasure maxModelLen st' < roundMeasure maxModelLen st := by
  have h' := h.round hround
  obtain ⟨plan, st₁, result, outputs, hplan, happly⟩ := hround
  obtain ⟨n, kv₁, kept, admitted, s, kv, all, E⟩ := Round.effect h.inv hplan happly
  exact E.measure_lt h.inv.core h.ordered
    (by rw [h.governs.maxNumBatchedTokens]; exact h.tokens) h.not_tooLarge hstarves h'.fits

/-- With two tokens to a step nothing starves. -/
theorem not_starves (h : config.Serves maxModelLen st)
    (htokens : 2 ≤ config.maxNumBatchedTokens.val) : ¬ Starves st := by
  rintro ⟨hone, -⟩
  rw [h.governs.maxNumBatchedTokens] at hone
  omega

/-- While a request is live a round is possible. -/
theorem exists_round (h : config.Serves maxModelLen st) (hinFlight : st.1.inFlight = none)
    (hlen : maxModelLen < 4294967296) (hblocks : config.numBlocks.val ≤ 2147483648)
    (hlive : st.1.isRunning = true) (token : ℕ → Token) :
    ∃ plan st₁ outputs st', Scheduler.planStep st = .ok (some plan) st₁ ∧
      Scheduler.applyStepResult (plan.answer token) st₁ = .ok outputs st' := by
  refine h.inv.exists_round h.ordered (by rw [h.governs.maxNumBatchedTokens]; exact h.tokens)
    (by rw [h.governs.maxNumSeqs]; exact h.seqs) hinFlight
    ⟨fun r hr => (h.fits r hr).le.trans_lt hlen, ?_⟩ h.not_tooLarge hlive token
  rw [h.governs.length]
  exact hblocks

end EngineConfig.Serves

/-- After a round no plan is in flight. -/
theorem Round.inFlight {st st' : EngineState} (I : Inv st.1 st.2) (h : Round st st') :
    st'.1.inFlight = none := by
  obtain ⟨plan, st₁, result, outputs, hplan, happly⟩ := h
  obtain ⟨n, kv₁, kept, admitted, s, kv, all, E⟩ := Round.effect I hplan happly
  rw [E.config]

/-- Rounds that do not starve come to an end. -/
theorem EngineConfig.Serves.not_infinite {config : EngineConfig} {maxModelLen : ℕ}
    {rounds : ℕ → EngineState} (h : config.Serves maxModelLen (rounds 0))
    (hstarves : ∀ i, ¬ Starves (rounds i)) : ¬ ∀ i, Round (rounds i) (rounds (i + 1)) := by
  intro hrounds
  refine not_infinite_of_measure (fun st st' => Round st st' ∧ ¬ Starves st) (r := (· < ·))
    (roundMeasure maxModelLen) (P := config.Serves maxModelLen)
    (fun _ _ h hround => h.round hround.1)
    (fun _ _ h hround => h.measure_lt hround.1 hround.2) h fun i => ⟨hrounds i, hstarves i⟩

/-- **Termination.** Take any state of an engine whose requests were accepted for a model length
that the pool holds, without a plan in flight.
* No infinite sequence of rounds starts there, unless one of its states starves.
* With two tokens to a step no state starves.
* The rounds can stop only when nothing is live any more: before that, a plan is returned and its
  answer is accepted, whatever tokens are sampled. -/
theorem EngineConfig.rounds_terminate (config : EngineConfig) {log : List Event}
    {st : EngineState} {maxModelLen : ℕ} (h : Run Step config.initial log st)
    (hprompts : ∀ e ∈ log, e.Prompted) (hwithin : ∀ e ∈ log, e.Within maxModelLen)
    (hpool : divCeil maxModelLen BLOCK_SIZE ≤ config.numBlocks.val)
    (htokens : 1 ≤ config.maxNumBatchedTokens.val) (hseqs : 1 ≤ config.maxNumSeqs.val)
    (hinFlight : st.1.inFlight = none) :
    (∀ rounds : ℕ → EngineState, rounds 0 = st → (∀ i, ¬ Starves (rounds i)) →
      ¬ ∀ i, Round (rounds i) (rounds (i + 1))) ∧
    (2 ≤ config.maxNumBatchedTokens.val →
      ∀ st', Relation.ReflTransGen Round st st' → ¬ Starves st') ∧
    (maxModelLen < 4294967296 → config.numBlocks.val ≤ 2147483648 →
      ∀ st', Relation.ReflTransGen Round st st' → st'.1.isRunning = true → ∀ token : ℕ → Token,
        ∃ plan st₁ outputs st'', Scheduler.planStep st' = .ok (some plan) st₁ ∧
          Scheduler.applyStepResult (plan.answer token) st₁ = .ok outputs st'') := by
  have hserves : config.Serves maxModelLen st :=
    ⟨⟨log, h, fun e he => ⟨hprompts e he, hwithin e he⟩⟩, hpool, htokens, hseqs⟩
  have hreach : ∀ st', Relation.ReflTransGen Round st st' →
      config.Serves maxModelLen st' ∧ st'.1.inFlight = none := by
    intro st' hrounds
    induction hrounds with
    | refl => exact ⟨hserves, hinFlight⟩
    | tail _ hround ih => exact ⟨ih.1.round hround, hround.inFlight ih.1.inv⟩
  refine ⟨fun rounds hstart hstarves => ?_, fun htwo st' hrounds => ?_,
    fun hlen hblocks st' hrounds hlive token => ?_⟩
  · exact EngineConfig.Serves.not_infinite (hstart ▸ hserves) hstarves
  · exact (hreach st' hrounds).1.not_starves htwo
  · obtain ⟨hserves', hinFlight'⟩ := hreach st' hrounds
    exact hserves'.exists_round hinFlight' hlen hblocks hlive token

omit [HashFunction] in
/-- With two tokens to a step and two blocks, two requests are served in finitely many rounds. -/
theorem rounds_terminate_twoRequests :
    letI := constantHash
    ¬ ∃ rounds : ℕ → EngineState,
      rounds 0 = (performAll (EngineConfig.plain 2 2 2).initial twoRequests).2 ∧
      ∀ i, Round (rounds i) (rounds (i + 1)) := by
  let _ := constantHash
  rintro ⟨rounds, hstart, hrounds⟩
  have hwithin : ∀ e ∈ (performAll (EngineConfig.plain 2 2 2).initial twoRequests).1,
      e.Within 5 := acceptsIf_performAll (fun _ _ h => (of_mem_twoRequests h).2.1) _
  have h := EngineConfig.rounds_terminate (EngineConfig.plain 2 2 2)
    (run_performAll twoRequests _) (acceptsIf_performAll (fun _ _ h => (of_mem_twoRequests h).1) _)
    hwithin
    (by simp [EngineConfig.plain, Usize.clamp, USIZE_MAX, divCeil, BLOCK_SIZE])
    (by simp [EngineConfig.plain, Usize.clamp, USIZE_MAX])
    (by simp [EngineConfig.plain, Usize.clamp, USIZE_MAX]) rfl
  have hreach : ∀ i, Relation.ReflTransGen Round (rounds 0) (rounds i) := by
    intro i
    induction i with
    | zero => exact .refl
    | succ i ih => exact ih.tail (hrounds i)
  rw [hstart] at hreach
  exact h.1 rounds hstart (fun i => h.2.1
    (by simp [EngineConfig.plain, Usize.clamp, USIZE_MAX]) _ (hreach i)) hrounds

end VllmOxide
