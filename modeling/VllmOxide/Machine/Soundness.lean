import VllmOxide.Machine.Steps
import VllmOxide.Scheduling.Uncached
import VllmOxide.System.Track

/-!
# The prefix cache tells the truth

The contents of the physical cache agree with what the engine believes about it: a block with a
prefix identity holds the contents of the last block of the token chain, and the cached positions of
a running sequence hold the contents of its own tokens. Executions write only to private blocks
without an identity, whether they succeed or fail, so identities stay true for as long as they exist,
in used, free and shared blocks alike. A block gets an identity only when a result is applied, and
then an execution has filled it.

## Main definitions

* `HoldsBlock`: a block holds the contents of an identity.
* `Machine.Sound`: the invariant.

## Main results

* `Machine.Sound.executePlan`: the execution of the plan in flight.
* `Machine.Sound.step`, `sound_of_run`: every reachable state is sound.
-/

namespace VllmOxide

variable {V : Type} {model : CausalModel V}

/-- A block holds the contents of the last token block of an identity. -/
def HoldsBlock (model : CausalModel V) (memory : Memory V) (b : ℕ) (identity : PrefixCacheIdentity) :
    Prop :=
  ∀ offset < BLOCK_SIZE, memory ((b * BLOCK_SIZE + offset : ℕ) : ℤ) =
    model.contentAt identity.allTokens (BLOCK_SIZE * (identity.depth - 1) + offset)

theorem tableSlot_of_getElem? {table : List ℕ} {i b offset : ℕ} (hb : table[i]? = some b)
    (hoffset : offset < BLOCK_SIZE) :
    tableSlot table (BLOCK_SIZE * i + offset) = ((b * BLOCK_SIZE + offset : ℕ) : ℤ) := by
  have hdiv : (BLOCK_SIZE * i + offset) / BLOCK_SIZE = i := by
    simp only [BLOCK_SIZE] at *
    omega
  have hmod : (BLOCK_SIZE * i + offset) % BLOCK_SIZE = offset := by
    simp only [BLOCK_SIZE] at *
    omega
  rw [tableSlot, hdiv, hb, hmod]

/-- A block of a table holds the identity of a token list when its positions hold their contents. -/
theorem holdsBlock_ofTokens_iff {memory : Memory V} {table : List ℕ} {i b : ℕ}
    (hb : table[i]? = some b) (tokens : List Token) :
    HoldsBlock model memory b (.ofTokens tokens i) ↔ ∀ offset < BLOCK_SIZE,
      memory (tableSlot table (BLOCK_SIZE * i + offset)) =
        model.contentAt tokens (BLOCK_SIZE * i + offset) := by
  refine forall₂_congr fun offset hoffset => ?_
  have hlt : BLOCK_SIZE * i + offset < BLOCK_SIZE * (i + 1) := by
    rw [Nat.mul_succ]
    omega
  rw [tableSlot_of_getElem? hb hoffset, PrefixCacheIdentity.allTokens_ofTokens,
    PrefixCacheIdentity.depth_ofTokens, Nat.add_sub_cancel, model.contentAt_take hlt]

/-- Blocks that hold the identities of a token list hold its leading positions. -/
theorem holds_of_holdsBlock {memory : Memory V} {table : List ℕ} {tokens : List Token} {k : ℕ}
    (h : ∀ i < k, ∃ b, table[i]? = some b ∧ HoldsBlock model memory b (.ofTokens tokens i)) :
    Holds model memory table tokens (BLOCK_SIZE * k) := by
  intro p hp
  obtain ⟨b, hb, hblock⟩ := h (p / BLOCK_SIZE) (by
    simp only [BLOCK_SIZE] at *
    omega)
  have hp' := (holdsBlock_ofTokens_iff hb tokens).mp hblock (p % BLOCK_SIZE)
    (Nat.mod_lt _ (by simp [BLOCK_SIZE]))
  rwa [Nat.div_add_mod] at hp'

/-- Positions that hold their contents fill the blocks before them. -/
theorem Holds.holdsBlock {memory : Memory V} {table : List ℕ} {tokens : List Token} {n i b : ℕ}
    (h : Holds model memory table tokens n) (hb : table[i]? = some b)
    (hn : BLOCK_SIZE * (i + 1) ≤ n) : HoldsBlock model memory b (.ofTokens tokens i) := by
  refine (holdsBlock_ofTokens_iff hb tokens).mpr fun offset hoffset => h _ ?_
  rw [Nat.mul_succ] at hn
  omega

theorem HoldsBlock.congr {memory memory' : Memory V} {b : ℕ} {identity : PrefixCacheIdentity}
    (h : HoldsBlock model memory b identity)
    (hsame : ∀ offset < BLOCK_SIZE, memory' ((b * BLOCK_SIZE + offset : ℕ) : ℤ) =
      memory ((b * BLOCK_SIZE + offset : ℕ) : ℤ)) : HoldsBlock model memory' b identity :=
  fun offset hoffset => (hsame offset hoffset).trans (h offset hoffset)

/-- **The invariant of the machine.** -/
structure Machine.Sound (model : CausalModel V) (m : Machine V) : Prop where
  identities : ∀ b identity, m.engine.2.identityAt b = some identity →
    HoldsBlock model m.memory b identity
  cached : ∀ seq ∈ m.engine.1.running,
    Holds model m.memory seq.blockTable seq.tokenIds seq.numCachedTokens
  plans : ∀ plan, m.engine.1.inFlight = some plan → plan.Assembled
  executedId : ∀ executed, m.executed = some executed → executed.planId < m.engine.1.nextPlanId
  /-- After an execution the scheduled positions of the plan hold their contents as well. -/
  scheduled : ∀ executed plan, m.executed = some executed → m.engine.1.inFlight = some plan →
    executed.planId = plan.id → ∀ seq ∈ m.engine.1.running,
      Holds model m.memory seq.blockTable seq.tokenIds (seq.numCachedTokens + seq.numScheduledTokens)

variable [HashFunction]

section Executions

variable {kv : BlockPool} {running : List Sequence}

/-- **The forward pass over some of the running sequences.** -/
theorem forwardEntries_planned (I : kv.Invariant (running.map Sequence.holder))
    (hwork : ∀ seq ∈ running, seq.WorkOk) (hready : ∀ seq ∈ running, seq.RunningOk) {paged : Bool}
    (todo : List Sequence) :
    ∀ memory : Memory V, (∀ seq ∈ todo, seq ∈ running ∧ seq.isScheduled = true) → todo.Nodup →
      (∀ seq ∈ todo, Holds model memory seq.blockTable seq.tokenIds seq.numCachedTokens) →
      (∀ seq ∈ todo, paged = false → seq.numCachedTokens = 0) →
      List.zipWith model.answer (todo.map (Sequence.plannedEntry kv))
          (model.forwardEntries paged (todo.map (Sequence.plannedEntry kv)) memory).1 =
        todo.map (Sequence.resultOf model) ∧
      (∀ seq ∈ todo, Holds model
        (model.forwardEntries paged (todo.map (Sequence.plannedEntry kv)) memory).2
        seq.blockTable seq.tokenIds (seq.numCachedTokens + seq.numScheduledTokens)) ∧
      ∀ slot, (∀ seq ∈ todo, ¬ seq.Writes slot) →
        (model.forwardEntries paged (todo.map (Sequence.plannedEntry kv)) memory).2 slot =
          memory slot := by
  induction todo with
  | nil => exact fun _ _ _ _ _ => ⟨rfl, by simp, fun _ _ => rfl⟩
  | cons seq rest ih =>
    intro memory hsub hnodup hholds hunpaged
    obtain ⟨hseq, hscheduled⟩ := hsub seq List.mem_cons_self
    obtain ⟨hnotMem, hnodup'⟩ := List.nodup_cons.mp hnodup
    have hpos : 0 < seq.numScheduledTokens := of_decide_eq_true hscheduled
    have hlen := (hready seq hseq).numTokens
    obtain ⟨state, hstate, hfirst⟩ := forwarded_plannedEntry model I.blockSize hlen
      (I.nodup _ (List.mem_map_of_mem hseq)) (hwork seq hseq) hpos (hholds seq List.mem_cons_self)
      (hunpaged seq List.mem_cons_self)
    have hsub' : ∀ q ∈ rest, q ∈ running ∧ q.isScheduled = true :=
      fun q hq => hsub q (List.mem_cons_of_mem _ hq)
    have hne : ∀ q ∈ rest, q ≠ seq := fun q hq heq => hnotMem (heq ▸ hq)
    obtain ⟨hanswers, hrest, hsame⟩ := ih state.2 hsub' hnodup' (fun q hq => by
      refine (hholds q (List.mem_cons_of_mem _ hq)).congr fun p hp => hfirst.frame _ ?_
      exact I.not_writes_cached hseq (hsub' q hq).1 (hwork seq hseq)
        (hp.trans_le (hready q (hsub' q hq).1).ready.cached_le) fun heq => absurd heq (hne q hq))
      fun q hq => hunpaged q (List.mem_cons_of_mem _ hq)
    rw [List.map_cons, CausalModel.forwardEntries, hstate]
    refine ⟨?_, fun q hq => ?_, fun slot hslot => ?_⟩
    · rw [List.map_cons, ← hanswers, ← hfirst.answer_eq hlen hpos]
      rfl
    · rcases List.mem_cons.mp hq with rfl | hq
      · refine hfirst.holds.congr fun p hp => hsame _ fun other hmem => ?_
        have htable := (hwork q hseq).le_table hpos
        exact I.not_writes_cached (hsub' other hmem).1 hseq (hwork other (hsub' other hmem).1)
          (by omega) fun heq => absurd heq.symm (hne other hmem)
      · exact hrest q hq
    · exact (hsame slot fun q hq => hslot q (List.mem_cons_of_mem _ hq)).trans
        (hfirst.frame slot (hslot seq List.mem_cons_self))

/-- No sequence writes a block with an identity. -/
theorem BlockPool.Invariant.not_writes_identity (I : kv.Invariant (running.map Sequence.holder))
    {seq : Sequence} (hseq : seq ∈ running) (hwork : seq.WorkOk) {b offset : ℕ}
    (hoffset : offset < BLOCK_SIZE) (hidentity : kv.identityAt b ≠ none) :
    ¬ seq.Writes ((b * BLOCK_SIZE + offset : ℕ) : ℤ) := by
  intro hwrites
  obtain ⟨c, offset', hslot, hoffset', hnone, -⟩ := I.of_writes hseq hwork hwrites
  have hnat : b * BLOCK_SIZE + offset = c * BLOCK_SIZE + offset' := Int.ofNat_inj.mp hslot
  obtain rfl : b = c := by
    simp only [BLOCK_SIZE] at *
    omega
  exact hidentity hnone

omit [HashFunction] in
/-- The slots of a plan are those that its sequences write. -/
theorem writes_of_mem_slotMapping (hsize : kv.blockSize = BLOCK_SIZE)
    (hwork : ∀ seq ∈ running, seq.WorkOk) {slot : ℤ}
    (hslot : slot ∈ (plannedEntries kv running).flatMap (·.cache.slotMapping)) :
    ∃ seq ∈ running, seq.Writes slot := by
  obtain ⟨entry, hentry, hslot⟩ := List.mem_flatMap.mp hslot
  obtain ⟨seq, hseq, rfl⟩ := List.mem_map.mp hentry
  obtain ⟨hseq, hscheduled⟩ := List.mem_filter.mp hseq
  have hpos : 0 < seq.numScheduledTokens := of_decide_eq_true hscheduled
  rw [slotMapping_plannedEntry hsize (hwork seq hseq) hpos] at hslot
  obtain ⟨i, hi, rfl⟩ := List.mem_map.mp hslot
  have hi := List.mem_range.mp hi
  have htable := (hwork seq hseq).le_table hpos
  exact ⟨seq, hseq, _, Nat.le_add_right _ i, by omega, tableSlot_eq_slot (by omega)⟩

end Executions

namespace Machine

variable {m : Machine V}

/-- **The execution of the plan in flight** is not refused. Its result brings the tokens that the
network says after the histories that end with the plan, and afterwards the scheduled positions hold
their contents as well. -/
theorem Sound.executePlan (S : m.Sound model) (I : Inv m.engine.1 m.engine.2) {plan : StepPlan}
    (hinFlight : m.engine.1.inFlight = some plan) :
    ∃ memory, model.executePlan plan m.memory =
        .ok (resultFor model plan.id m.engine.1.running, memory) ∧
      (∀ seq ∈ m.engine.1.running, Holds model memory seq.blockTable seq.tokenIds
        (seq.numCachedTokens + seq.numScheduledTokens)) ∧
      ∀ slot, (∀ seq ∈ m.engine.1.running, ¬ seq.Writes slot) → memory slot = m.memory slot := by
  have hpool : m.engine.2.Invariant (m.engine.1.running.map Sequence.holder) := I.core.pool
  have hwork := I.work plan hinFlight
  have hplan := S.plans plan hinFlight
  have hnodup : m.engine.1.running.Nodup :=
    (List.nodup_append.mp I.core.nodup_ids).1.of_map
  have hentries : plan.sequences = (m.engine.1.running.filter Sequence.isScheduled).map
      (Sequence.plannedEntry m.engine.2) := I.entries plan hinFlight
  have hfilled : ∀ entry ∈ plan.sequences, entry.Filled := by
    intro entry hentry
    rw [hentries] at hentry
    obtain ⟨seq, hseq, rfl⟩ := List.mem_map.mp hentry
    obtain ⟨hseq, hscheduled⟩ := List.mem_filter.mp hseq
    exact filled_plannedEntry hpool.blockSize (I.core.running seq hseq).numTokens (hwork seq hseq)
      (of_decide_eq_true hscheduled)
  have hunpaged : ∀ seq ∈ m.engine.1.running.filter Sequence.isScheduled,
      plan.attention.usesPagedKv = false → seq.numCachedTokens = 0 := by
    intro seq hseq hform
    have hlengths := ((hplan.covers.unpaged hform).2 (seq.plannedEntry m.engine.2) (by
      rw [hentries]
      exact List.mem_map_of_mem hseq)).2.2
    have hall : seq.numCachedTokens + seq.numScheduledTokens =
        seq.numCachedTokens + seq.numScheduledTokens - seq.numCachedTokens := hlengths
    omega
  obtain ⟨hanswers, hall, hother⟩ := forwardEntries_planned hpool hwork I.core.running
    (m.engine.1.running.filter Sequence.isScheduled) m.memory
    (fun seq hseq => List.mem_filter.mp hseq) (hnodup.filter _)
    (fun seq hseq => S.cached seq (List.mem_of_mem_filter hseq)) hunpaged
  rw [← hentries] at hanswers hall hother
  refine ⟨(model.executed plan m.memory).2, ?_, fun seq hseq => ?_, fun slot hslot =>
    hother slot fun seq hseq => hslot seq (List.mem_of_mem_filter hseq)⟩
  · rw [model.executePlan_eq hplan hfilled, resultFor, ← hanswers]
    rfl
  · cases hidle : seq.isScheduled with
    | true => exact hall seq (List.mem_filter.mpr ⟨hseq, hidle⟩)
    | false =>
      have hzero : seq.numScheduledTokens = 0 := by simpa [Sequence.isScheduled] using hidle
      rw [hzero, Nat.add_zero]
      refine (S.cached seq hseq).congr fun p hp => hother _ fun other hmem => ?_
      have hmem' := List.mem_of_mem_filter hmem
      refine hpool.not_writes_cached hmem' hseq (hwork other hmem')
        (hp.trans_le (I.core.running seq hseq).ready.cached_le) ?_
      rintro rfl
      exact .inl hp

/-- **Executing the plan in flight.** -/
theorem Sound.execute (S : m.Sound model) (I : Inv m.engine.1 m.engine.2) {plan : StepPlan}
    (hinFlight : m.engine.1.inFlight = some plan) {result : StepResult} {memory : Memory V}
    (hexecute : model.executePlan plan m.memory = .ok (result, memory)) :
    Machine.Sound model { m with memory := memory, executed := some result } ∧
      result = resultFor model plan.id m.engine.1.running := by
  have hpool : m.engine.2.Invariant (m.engine.1.running.map Sequence.holder) := I.core.pool
  have hwork := I.work plan hinFlight
  obtain ⟨memory', hexecute', hscheduled, hother⟩ := S.executePlan I hinFlight
  rw [hexecute] at hexecute'
  obtain ⟨rfl, rfl⟩ := Prod.mk.inj (Except.ok.inj hexecute')
  refine ⟨⟨fun b identity hb => ?_, fun seq hseq => ?_, S.plans, ?_, ?_⟩, rfl⟩
  · refine (S.identities b identity hb).congr fun offset hoffset => hother _ fun seq hseq => ?_
    exact hpool.not_writes_identity hseq (hwork seq hseq) hoffset (by simp [hb])
  · exact (hscheduled seq hseq).mono (Nat.le_add_right _ _)
  · intro executed hexecuted
    obtain rfl := Option.some.inj hexecuted
    exact I.planId plan hinFlight
  · exact fun _ _ _ _ _ => hscheduled

/-- **A failing execution** leaves garbage in slots that nothing relies on. -/
theorem Sound.fail (S : m.Sound model) (I : Inv m.engine.1 m.engine.2) {plan : StepPlan}
    (hinFlight : m.engine.1.inFlight = some plan) {garbage : ℤ → Option V}
    (hslots : ∀ slot, garbage slot ≠ none → slot ∈ plan.attention.slotMapping) :
    Machine.Sound model { m with memory := m.memory.overwrite garbage, executed := none } := by
  have hpool : m.engine.2.Invariant (m.engine.1.running.map Sequence.holder) := I.core.pool
  have hwork := I.work plan hinFlight
  have hsame : ∀ slot, (∀ seq ∈ m.engine.1.running, ¬ seq.Writes slot) →
      m.memory.overwrite garbage slot = m.memory slot := by
    intro slot hslot
    have hnone : garbage slot = none := by
      by_contra hsome
      have hmem := hslots slot hsome
      rw [(S.plans plan hinFlight).slots, I.entries plan hinFlight] at hmem
      obtain ⟨seq, hseq, hwrites⟩ := writes_of_mem_slotMapping hpool.blockSize hwork hmem
      exact hslot seq hseq hwrites
    rw [Memory.overwrite, hnone, Option.getD_none]
  refine ⟨fun b identity hb => ?_, fun seq hseq => ?_, S.plans, by simp, by simp⟩
  · refine (S.identities b identity hb).congr fun offset hoffset => hsame _ fun seq hseq => ?_
    exact hpool.not_writes_identity hseq (hwork seq hseq) hoffset (by simp [hb])
  · refine (S.cached seq hseq).congr fun p hp => hsame _ fun other hother => ?_
    refine hpool.not_writes_cached hother hseq (hwork other hother)
      (hp.trans_le (I.core.running seq hseq).ready.cached_le) ?_
    rintro rfl
    exact .inl hp

/-- **Deciding** moves no contents. -/
theorem Sound.selected (S : m.Sound model) {n : ℕ} {kv₁ kv' : BlockPool}
    {kept admitted : List Sequence} {s : Scheduler}
    (hselected : Selected m.engine.1 m.engine.2 n kv₁ kept admitted s kv')
    (hready : ∀ seq ∈ m.engine.1.running, seq.RunningOk)
    (huncached : kv'.prefixCacheEnabled = false → ∀ seq ∈ admitted, seq.numCachedTokens = 0) :
    (∀ b identity, kv'.identityAt b = some identity → HoldsBlock model m.memory b identity) ∧
      ∀ seq ∈ s.running,
        Holds model m.memory seq.blockTable seq.tokenIds seq.numCachedTokens := by
  have hidentities : ∀ b identity, kv'.identityAt b = some identity →
      HoldsBlock model m.memory b identity := fun b identity hb =>
    S.identities b identity (hselected.content.identity b identity hb)
  refine ⟨hidentities, fun seq hseq => ?_⟩
  have hrunning := hselected.running
  rw [hrunning] at hseq
  rcases List.mem_append.mp hseq with hseq | hseq
  · obtain ⟨q, hq, hkept⟩ := exists_of_forall₂ hselected.stays hseq
    have hmem := List.mem_of_mem_take hq
    have hholds := (S.cached q hmem).of_isPrefix hkept.isPrefix (hready q hmem).ready.cached_le
    have htokens : seq.tokenIds = q.tokenIds := congrArg Request.tokenIds hkept.request
    rwa [htokens, hkept.numCachedTokens]
  · have hfresh := hselected.fresh seq hseq
    have hmem : seq ∈ s.running := hrunning ▸ List.mem_append_right _ hseq
    cases henabled : kv'.prefixCacheEnabled with
    | false =>
      rw [huncached henabled seq hseq]
      exact .zero
    | true =>
      -- the blocks that were found carry the identities of the sequence itself
      obtain ⟨k, hk⟩ := hfresh.cached_dvd
      rw [hk]
      refine holds_of_holdsBlock fun i hi => ?_
      have hlt : i < seq.blockTable.length := by
        have hcached := hfresh.prefilling.cached_lt
        have hblocks := seq.le_numBlocks_mul
        rw [hfresh.prefilling.table]
        simp only [BLOCK_SIZE] at *
        omega
      refine ⟨seq.blockTable[i], List.getElem?_eq_getElem hlt, hidentities _ _ ?_⟩
      have hcached := hselected.core.pool.cached seq.holder (List.mem_map_of_mem hmem) i _
        (List.getElem?_eq_getElem hlt)
      rw [hcached, if_pos]
      · rfl
      · exact ⟨henabled, (Nat.mul_le_mul_left _ hi).trans hk.ge⟩

/-- **Applying a result** gives identities to blocks that an execution has filled. -/
theorem Sound.applied (S : m.Sound model) (I : Inv m.engine.1 m.engine.2) {result : StepResult}
    {all : List Sequence} {s' : Scheduler} {kv' : BlockPool}
    (A : AppliesTo m.engine.1 m.engine.2 result all s' kv')
    (hscheduled : ∀ seq ∈ m.engine.1.running, Holds model m.memory seq.blockTable seq.tokenIds
      (seq.numCachedTokens + seq.numScheduledTokens))
    (hwork : ∀ seq ∈ m.engine.1.running, seq.WorkOk) :
    Machine.Sound model { m with engine := (s', kv') } := by
  -- a running sequence after the result, with the contents written for it
  have hafter : ∀ seq' ∈ all, Holds model m.memory seq'.blockTable seq'.tokenIds
      seq'.numCachedTokens := by
    intro seq' hseq'
    obtain ⟨seq, hseq, hstepped⟩ := exists_of_forall₂ A.stepped hseq'
    have hholds := hscheduled seq hseq
    rcases hstepped with ⟨-, rfl⟩ | ⟨-, executed, -, -, rfl⟩
    · exact hholds.mono (Nat.le_add_right _ _)
    · refine hholds.append ?_ _
      rw [← (I.core.running seq hseq).numTokens]
      exact (hwork seq hseq).le
  obtain ⟨kv₁, I₁, hsame, huntouched⟩ := A.pool
  refine ⟨fun b identity hb => ?_, fun seq hseq => ?_, ?_, ?_, ?_⟩
  · have hb₁ : kv₁.identityAt b = some identity := (hsame.identity b).symm.trans hb
    by_cases hmem : ∃ seq' ∈ all, b ∈ seq'.blockTable
    · obtain ⟨seq', hseq', hb'⟩ := hmem
      obtain ⟨i, hi⟩ := List.mem_iff_getElem?.mp hb'
      have hcached := I₁.cached seq'.holder (List.mem_map_of_mem hseq') i b hi
      rw [hb₁] at hcached
      split at hcached
      · rename_i hfull
        obtain rfl := Option.some.inj hcached
        exact (hafter seq' hseq').holdsBlock hi hfull.2
      · cases hcached
    · refine S.identities b identity ?_
      rw [← huntouched.identity b, hb₁]
      intro table htable hb'
      obtain ⟨seq, hseq, rfl⟩ := List.mem_map.mp htable
      have htables : all.map (·.blockTable) = m.engine.1.running.map (·.blockTable) :=
        map_eq_of_forall₂ A.stepped fun _ _ h => h.blockTable
      have hmem' : seq.blockTable ∈ all.map (·.blockTable) := by
        rw [htables]
        exact List.mem_map_of_mem hseq
      obtain ⟨seq', hseq', htable⟩ := List.mem_map.mp hmem'
      exact hmem ⟨seq', hseq', htable ▸ hb'⟩
  · rw [A.config] at hseq
    exact hafter seq (List.mem_of_mem_filter hseq)
  · rw [A.config]
    simp
  · rw [A.config]
    exact S.executedId
  · rw [A.config]
    simp

end Machine

/-- A call of `planStep` that is seen in the log. -/
theorem Step.plansTo {st st' : EngineState} {e : Event} (h : Step st e st')
    (hplan : (∃ decision plan, e = .planned decision plan) ∨
      ∃ decision error, e = .planFailed decision error) : PlansTo st st' := by
  rcases hplan with ⟨_, _, rfl⟩ | ⟨_, _, rfl⟩ <;> cases h
  · exact .inl ⟨_, ‹_›⟩
  · exact .inr ⟨_, ‹_›⟩

/-- The plan that is seen in the log is the one that was returned. -/
theorem Step.planStep_of_planned {st st' : EngineState} {decision : Decision}
    {plan : Option StepPlan} (h : Step st (.planned decision plan) st') :
    Scheduler.planStep st = .ok plan st' := by
  cases h
  assumption

/-- Without a prefix cache a decision admits sequences with nothing cached. -/
theorem PlansTo.uncached {st st' : EngineState} (h : PlansTo st st') (I : Inv st.1 st.2)
    (hinFlight : st.1.inFlight = none) {n : ℕ} {kv₁ kv' : BlockPool} {kept admitted : List Sequence}
    {s : Scheduler} (S : Selected st.1 st.2 n kv₁ kept admitted s kv')
    (hrunning : st'.1.running = s.running) (hdisabled : kv'.prefixCacheEnabled = false) :
    ∀ seq ∈ admitted, seq.numCachedTokens = 0 := by
  refine S.uncached fun seq hseq => ?_
  exact I.core.planStep_uncached (S.content.enabled.symm.trans hdisabled) hinFlight h S.preempts seq
    (hrunning ▸ hseq)

namespace Machine

variable {m m' : Machine V}

/-- **Every operation keeps the cache sound.** -/
theorem Sound.step (S : m.Sound model) (I : Inv m.engine.1 m.engine.2) {o : Operation}
    (h : MachineStep model m o m') : m'.Sound model := by
  cases h with
  | @call e st' h hresult =>
    have hplans := h.plansTo
    have heffect := h.effect I
    cases heffect with
    | accepted => exact ⟨S.identities, S.cached, S.plans, S.executedId, S.scheduled⟩
    | planned hinFlight hselected hsequences hne hid hslots hlengths hbudget =>
      obtain ⟨hidentities, hcached⟩ := S.selected hselected I.core.running
        ((hplans (.inl ⟨_, _, rfl⟩)).uncached I hinFlight hselected rfl)
      have hnext := congrArg Scheduler.nextPlanId hselected.config
      refine ⟨hidentities, hcached, fun plan hplan => ?_, fun executed hexecuted => ?_,
        fun executed plan hexecuted hplan hsame => ?_⟩
      · obtain rfl := Option.some.inj hplan
        exact ⟨hne, hbudget, hslots, hlengths, I.core.covers_of_planStep h.planStep_of_planned⟩
      · have hlt := S.executedId executed hexecuted
        exact (hnext ▸ hlt).trans (Nat.lt_succ_self _)
      · obtain rfl := Option.some.inj hplan
        have hlt := S.executedId executed hexecuted
        rw [hsame, hid, hnext] at hlt
        exact absurd hlt (lt_irrefl _)
    | idle hinFlight hselected | noProgress hinFlight hselected
    | unrepresentable hinFlight hselected =>
      obtain ⟨hidentities, hcached⟩ := S.selected hselected I.core.running
        ((hplans (by simp)).uncached I hinFlight hselected rfl)
      have hnone := (congrArg Scheduler.inFlight hselected.config).trans hinFlight
      have hnext := congrArg Scheduler.nextPlanId hselected.config
      refine ⟨hidentities, hcached, by simp [hnone], fun executed hexecuted => ?_, by simp [hnone]⟩
      exact hnext ▸ S.executedId executed hexecuted
    | busy => exact ⟨S.identities, S.cached, S.plans, S.executedId, S.scheduled⟩
    | applied | rejected => simp [Event.result] at hresult
    | aborted I' hsame =>
      refine ⟨fun b identity hb => S.identities b identity ((hsame.identity b).symm.trans hb),
        by simp, by simp, S.executedId, by simp⟩
  | execute hinFlight hexecute => exact (S.execute I hinFlight hexecute).1
  | fail _ hinFlight hslots => exact S.fail I hinFlight hslots
  | @apply e st' executed result h hexecuted hresult hid =>
    have heffect := h.effect I
    cases heffect with
    | applied haccepts A =>
      obtain rfl := Option.some.inj hresult
      obtain ⟨plan, hinFlight, hplan, -⟩ := haccepts
      exact S.applied I A
        (S.scheduled executed plan hexecuted hinFlight (hid.symm.trans hplan))
        (I.work plan hinFlight)
    | rejected => exact S
    | accepted | planned | idle | noProgress | unrepresentable | busy | aborted =>
      simp [Event.result] at hresult

omit [HashFunction] in
/-- A fresh machine is sound. -/
theorem sound_initial (config : EngineConfig) (memory : Memory V) :
    (Machine.initial config memory).Sound model where
  identities b identity hb := by
    simp only [BlockPool.identityAt, BlockPool.blockAt, Machine.initial, EngineConfig.initial,
      BlockPool.newInner] at hb
    by_cases hlt : b < config.numBlocks.val <;> simp [Block.new, hlt] at hb
  cached := by simp [Machine.initial, EngineConfig.initial, Scheduler.newWithEosTokenIds]
  plans := by simp [Machine.initial, EngineConfig.initial, Scheduler.newWithEosTokenIds]
  executedId := by simp [Machine.initial]
  scheduled := by simp [Machine.initial]

end Machine

/-- **Every reachable state of the machine is sound.** -/
theorem sound_of_run {config : EngineConfig} {memory : Memory V} {log : List Operation}
    {m : Machine V} (h : Run (MachineStep model) (.initial config memory) log m) :
    m.Sound model :=
  h.invariant (P := fun _ m => m.Sound model) (Machine.sound_initial config memory)
    fun _ _ _ _ hrun S hstep => S.step (EngineConfig.inv_of_run (run_of_machine hrun)) hstep

end VllmOxide
