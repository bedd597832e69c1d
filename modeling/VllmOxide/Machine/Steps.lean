import VllmOxide.Machine.ExecutePlan
import VllmOxide.System.Ownership

/-!
# The engine together with the physical cache

The state of the machine is the state of the engine, the physical cache and the result of the last
execution. Its operations are the calls of the engine, the execution of the plan in flight, an
execution that fails after it has left anything in any of the plan's slots, and applying a result for
the executed plan. The tokens of a result may be replaced before it is applied.

The network gets the tokens of a sequence at the scheduled positions of its history. Executing a plan
leaves the right contents in the slots of these positions and every other slot as it was, provided
that the cached positions of the planned sequences hold their contents.

## Main definitions

* `Machine`, `Operation`, `MachineStep`: the states, the labels and the steps.
* `Holds`: the leading positions of a table hold the contents of a token list.
* `resultFor`: the result of executing the plan of a running queue.
* `Forwarded`: what holds after the first rows of a sequence.

## Main results

* `run_of_machine`: a run of the machine is a run of the engine.
* `rows_plannedEntry`: the input of the network for a sequence.
* `forwarded_plannedEntry`: the forward pass over a sequence.
-/

namespace VllmOxide

/-- The engine, the physical cache and the result of the last execution. -/
structure Machine (V : Type) where
  engine : EngineState
  memory : Memory V
  executed : Option StepResult

/-- A fresh engine over a cache with any contents. -/
def Machine.initial {V : Type} (config : EngineConfig) (memory : Memory V) : Machine V where
  engine := config.initial
  memory := memory
  executed := none

/-- The result that a call of `applyStepResult` was made with. -/
def Event.result : Event → Option StepResult
  | .applied result _ => some result
  | .rejected result _ => some result
  | _ => none

/-- What can be seen of an operation of the machine. -/
inductive Operation
  | call (event : Event)
  | executed (result : StepResult)
  | failed
  | applied (executed : StepResult) (event : Event)

/-- The events of the engine behind an operation. -/
def Operation.events : Operation → List Event
  | .call event => [event]
  | .executed _ => []
  | .failed => []
  | .applied _ event => [event]

/-- An operation that applies what was executed. -/
def Operation.Unchanged : Operation → Prop
  | .applied result e => e.result = some result
  | _ => True

/-- The events of the engine behind a log. -/
def engineLog (log : List Operation) : List Event :=
  log.flatMap Operation.events

@[simp] theorem engineLog_nil : engineLog [] = [] := rfl

@[simp] theorem engineLog_append (log log' : List Operation) :
    engineLog (log ++ log') = engineLog log ++ engineLog log' :=
  List.flatMap_append

/-- Leave something in some slots. -/
def Memory.overwrite {V : Type} (memory : Memory V) (garbage : ℤ → Option V) : Memory V :=
  fun slot => (garbage slot).getD (memory slot)

section Steps

variable [HashFunction] {V : Type}

/-- The steps of the machine. -/
inductive MachineStep (model : CausalModel V) : Machine V → Operation → Machine V → Prop
  | call {m : Machine V} {e : Event} {st' : EngineState} (h : Step m.engine e st')
      (hresult : e.result = none) : MachineStep model m (.call e) { m with engine := st' }
  | execute {m : Machine V} {plan : StepPlan} {result : StepResult} {memory : Memory V}
      (hinFlight : m.engine.1.inFlight = some plan)
      (hexecute : model.executePlan plan m.memory = .ok (result, memory)) :
      MachineStep model m (.executed result) { m with memory := memory, executed := some result }
  | fail {m : Machine V} {plan : StepPlan} (garbage : ℤ → Option V)
      (hinFlight : m.engine.1.inFlight = some plan)
      (hslots : ∀ slot, garbage slot ≠ none → slot ∈ plan.attention.slotMapping) :
      MachineStep model m .failed
        { m with memory := m.memory.overwrite garbage, executed := none }
  | apply {m : Machine V} {e : Event} {st' : EngineState} {executed result : StepResult}
      (h : Step m.engine e st') (hexecuted : m.executed = some executed)
      (hresult : e.result = some result) (hid : result.planId = executed.planId) :
      MachineStep model m (.applied executed e) { m with engine := st' }

/-- **A run of the machine is a run of the engine.** -/
theorem run_of_machine {config : EngineConfig} {model : CausalModel V} {memory : Memory V}
    {log : List Operation} {m : Machine V}
    (h : Run (MachineStep model) (.initial config memory) log m) :
    Run Step config.initial (engineLog log) m.engine := by
  refine h.simulate (f := Machine.engine) (g := Operation.events) fun m e m' hstep => ?_
  cases hstep with
  | call h => exact .single h
  | execute => exact .nil
  | fail => exact .nil
  | apply h => exact .single h

end Steps

/-! ### Positions that hold their contents -/

section Holds

variable {V : Type} {model : CausalModel V}

/-- The first `n` positions of a table hold the contents of a token list. -/
def Holds (model : CausalModel V) (memory : Memory V) (blockTable : List ℕ) (tokens : List Token)
    (n : ℕ) : Prop :=
  ∀ p < n, memory (tableSlot blockTable p) = model.contentAt tokens p

theorem tableSlot_eq_slot {seq : Sequence} {p : ℕ} (hp : p < BLOCK_SIZE * seq.blockTable.length) :
    tableSlot seq.blockTable p = (seq.slot p : ℤ) := by
  rw [tableSlot, Sequence.getElem?_blockOf hp]
  rfl

/-- A longer table has the same slots where the shorter one has any. -/
theorem tableSlot_of_isPrefix {table table' : List ℕ} (h : table <+: table') {p : ℕ}
    (hp : p < BLOCK_SIZE * table.length) : tableSlot table' p = tableSlot table p := by
  have hlt : p / BLOCK_SIZE < table.length := by
    simp only [BLOCK_SIZE] at *
    omega
  rw [tableSlot, tableSlot, List.prefix_iff_getElem?.mp h _ hlt, List.getElem?_eq_getElem hlt]

namespace Holds

variable {memory memory' : Memory V} {table table' : List ℕ} {tokens tokens' : List Token} {n k : ℕ}

theorem zero : Holds model memory table tokens 0 :=
  fun _ hp => absurd hp (Nat.not_lt_zero _)

theorem mono (h : Holds model memory table tokens n) (hle : k ≤ n) :
    Holds model memory table tokens k :=
  fun p hp => h p (hp.trans_le hle)

theorem of_isPrefix (h : Holds model memory table tokens n) (htable : table <+: table')
    (hn : n ≤ BLOCK_SIZE * table.length) : Holds model memory table' tokens n := by
  intro p hp
  rw [tableSlot_of_isPrefix htable (hp.trans_le hn)]
  exact h p hp

theorem append (h : Holds model memory table tokens n) (hn : n ≤ tokens.length)
    (more : List Token) : Holds model memory table (tokens ++ more) n := by
  intro p hp
  rw [h p hp, model.contentAt_append (hp.trans_le hn)]

theorem congr (h : Holds model memory table tokens n)
    (hsame : ∀ p < n, memory' (tableSlot table p) = memory (tableSlot table p)) :
    Holds model memory' table tokens n :=
  fun p hp => (hsame p hp).trans (h p hp)

/-- What can be read is what the tokens say. -/
theorem read (h : Holds model memory table tokens n) :
    memory.read table n = model.contentsTo tokens n := by
  rw [model.contentsTo_eq_map, Memory.read]
  exact List.map_congr_left fun p hp => h p (List.mem_range.mp hp)

end Holds

end Holds

/-! ### What an execution writes -/

section Execution

variable {V : Type} (model : CausalModel V) {kv : BlockPool}

/-- The slots that the plan entry of a sequence writes. -/
def Sequence.Writes (seq : Sequence) (slot : ℤ) : Prop :=
  ∃ p, seq.numCachedTokens ≤ p ∧ p < seq.numCachedTokens + seq.numScheduledTokens ∧
    tableSlot seq.blockTable p = slot

/-- The row of a scheduled token of a sequence. -/
def Sequence.inputRow (seq : Sequence) (i : ℕ) : InputRow where
  tokenId := seq.tokenIds.getD (seq.numCachedTokens + i) 0
  position := seq.numCachedTokens + i
  slot := tableSlot seq.blockTable (seq.numCachedTokens + i)

/-- **The input of the network** for a sequence: the tokens of its history at the scheduled
positions, each with the slot of its position. -/
theorem rows_plannedEntry (hsize : kv.blockSize = BLOCK_SIZE) {seq : Sequence}
    (hlen : seq.numTokens = seq.tokenIds.length) (hwork : seq.WorkOk)
    (hpos : 0 < seq.numScheduledTokens) :
    (seq.plannedEntry kv).rows = (List.range seq.numScheduledTokens).map seq.inputRow := by
  have hle := hwork.le
  have htable := hwork.le_table hpos
  have hbudget : seq.plannedTokens.len = seq.numScheduledTokens := Nat.add_sub_cancel_left _ _
  have hids : (seq.plannedEntry kv).inputTokenIds = (List.range seq.numScheduledTokens).map
      fun i => seq.tokenIds.getD (seq.numCachedTokens + i) 0 := by
    show seq.tokenIds.extract seq.numCachedTokens (seq.numCachedTokens + seq.numScheduledTokens) = _
    rw [List.extract_eq_take_drop, Nat.add_sub_cancel_left]
    refine List.ext_getElem ?_ fun i hi hi' => ?_
    · simp
      omega
    · rw [List.length_map, List.length_range] at hi'
      rw [List.getElem_take, List.getElem_drop, List.getElem_map, List.getElem_range,
        List.getD_eq_getElem?_getD, List.getElem?_eq_getElem (by omega), Option.getD_some]
  have hpositions : (seq.plannedEntry kv).logicalPositions.positions =
      (List.range seq.numScheduledTokens).map fun i => seq.numCachedTokens + i := by
    rw [← List.range'_eq_map_range, ← hbudget]
    rfl
  have hslots : (seq.plannedEntry kv).cache.slotMapping = (List.range seq.numScheduledTokens).map
      fun i => tableSlot seq.blockTable (seq.numCachedTokens + i) := by
    rw [slotMapping_plannedEntry hsize hwork hpos]
    refine List.map_congr_left fun i hi => (tableSlot_eq_slot ?_).symm
    have := List.mem_range.mp hi
    omega
  rw [SequenceStepPlan.rows, inputRows, hids, hpositions, hslots, List.zip_map', List.zipWith_map,
    List.zipWith_self]
  rfl

/-- The entry of a scheduled sequence fills its budget. -/
theorem filled_plannedEntry (hsize : kv.blockSize = BLOCK_SIZE) {seq : Sequence}
    (hlen : seq.numTokens = seq.tokenIds.length) (hwork : seq.WorkOk)
    (hpos : 0 < seq.numScheduledTokens) : (seq.plannedEntry kv).Filled := by
  have hle := hwork.le
  have hbudget : (seq.plannedEntry kv).tokenBudget = seq.numScheduledTokens :=
    Nat.add_sub_cancel_left _ _
  refine ⟨hbudget ▸ hpos, ?_, rfl, ?_, fun slot hslot => ?_, le_rfl⟩
  · show (seq.tokenIds.extract seq.numCachedTokens
      (seq.numCachedTokens + seq.numScheduledTokens)).length = _
    rw [hbudget, List.extract_eq_take_drop, List.length_take, List.length_drop]
    omega
  · rw [hbudget, slotMapping_plannedEntry hsize hwork hpos, List.length_map, List.length_range]
  · rw [slotMapping_plannedEntry hsize hwork hpos] at hslot
    obtain ⟨i, -, rfl⟩ := List.mem_map.mp hslot
    exact Int.natCast_nonneg _

/-- The result of a scheduled sequence: when its history ends with the scheduled tokens, the token
that the network says after it. -/
def Sequence.resultOf (model : CausalModel V) (seq : Sequence) : SequenceStepResult where
  requestId := seq.requestId
  sequenceId := seq.seqId
  sampledToken :=
    if seq.endsHistory then
      some (model.next (model.contents seq.tokenIds) seq.tokenIds seq.samplingParams
        seq.numCompletionTokens)
    else none

/-- The result of executing the plan of a running queue. -/
def resultFor (model : CausalModel V) (planId : ℕ) (running : List Sequence) : StepResult where
  planId := planId
  sequences := (running.filter Sequence.isScheduled).map (Sequence.resultOf model)

/-- The first rows of a sequence have been computed: the last of them has seen the contents of all
positions so far, these positions hold them, and no other slot has changed. -/
structure Forwarded (model : CausalModel V) (memory : Memory V) (seq : Sequence) (count : ℕ)
    (state : List (List V) × Memory V) : Prop where
  length : state.1.length = count
  last : 0 < count →
    state.1.head? = some (model.contentsTo seq.tokenIds (seq.numCachedTokens + count))
  holds : Holds model state.2 seq.blockTable seq.tokenIds (seq.numCachedTokens + count)
  frame : ∀ slot, ¬ seq.Writes slot → state.2 slot = memory slot

namespace Forwarded

variable {model} {memory : Memory V} {seq : Sequence} {count : ℕ} {state : List (List V) × Memory V}
  {paged : Bool}

/-- **What a row reads** are the contents of the positions before it, in either form of the
metadata. -/
theorem before_eq (h : Forwarded model memory seq count state)
    (hunpaged : paged = false → seq.numCachedTokens = 0) :
    ((seq.plannedEntry kv).member paged).before state.1 state.2 =
      model.contentsTo seq.tokenIds (seq.numCachedTokens + count) := by
  cases paged with
  | true =>
    have htable : (seq.blockTable.map fun b : ℕ => (b : ℤ)).map Int.toNat = seq.blockTable := by
      rw [List.map_map]
      exact List.map_id _
    have hlength : (seq.plannedEntry kv).cache.kvLength - (seq.plannedEntry kv).tokenBudget +
        state.1.length = seq.numCachedTokens + count := by
      show seq.numCachedTokens + seq.numScheduledTokens -
        (seq.numCachedTokens + seq.numScheduledTokens - seq.numCachedTokens) + _ = _
      rw [h.length]
      omega
    show state.2.read ((seq.blockTable.map fun b : ℕ => (b : ℤ)).map Int.toNat)
      ((seq.plannedEntry kv).cache.kvLength - (seq.plannedEntry kv).tokenBudget +
        state.1.length) = _
    rw [htable, hlength, h.holds.read]
  | false =>
    show state.1.headD [] = _
    rcases Nat.eq_zero_or_pos count with rfl | hpos
    · rw [List.length_eq_zero_iff.mp h.length, hunpaged rfl]
      rfl
    · rw [List.headD_eq_head?_getD, h.last hpos, Option.getD_some]

/-- One more row. -/
theorem row (h : Forwarded model memory seq count state) (hnodup : seq.blockTable.Nodup)
    (hwork : seq.WorkOk) (hcount : count < seq.numScheduledTokens)
    (hunpaged : paged = false → seq.numCachedTokens = 0) :
    Forwarded model memory seq (count + 1)
      (model.forwardRow ((seq.plannedEntry kv).member paged) state (seq.inputRow count)) := by
  have htable := hwork.le_table (by omega)
  have hstep : model.forwardRow ((seq.plannedEntry kv).member paged) state (seq.inputRow count) =
      (model.contentsTo seq.tokenIds (seq.numCachedTokens + (count + 1)) :: state.1,
        Function.update state.2 (tableSlot seq.blockTable (seq.numCachedTokens + count))
          (model.contentAt seq.tokenIds (seq.numCachedTokens + count))) := by
    rw [CausalModel.forwardRow, h.before_eq hunpaged]
    rfl
  rw [hstep]
  refine ⟨congrArg (· + 1) h.length, fun _ => rfl, fun p hp => ?_, fun slot hslot => ?_⟩
  · by_cases heq : p = seq.numCachedTokens + count
    · rw [heq]
      exact Function.update_self _ _ _
    · have hne : tableSlot seq.blockTable p ≠
          tableSlot seq.blockTable (seq.numCachedTokens + count) := by
        rw [tableSlot_eq_slot (by omega), tableSlot_eq_slot (by omega)]
        exact fun h => heq (Sequence.slot_inj hnodup (by omega) (by omega) (Int.ofNat_inj.mp h))
      exact (Function.update_of_ne hne _ _).trans (h.holds p (by omega))
  · have hne : slot ≠ tableSlot seq.blockTable (seq.numCachedTokens + count) := by
      rintro rfl
      exact hslot ⟨_, Nat.le_add_right _ _, by omega, rfl⟩
    exact (Function.update_of_ne hne _ _).trans (h.frame slot hslot)

/-- The result of a sequence whose rows have all been computed. -/
theorem answer_eq (h : Forwarded model memory seq seq.numScheduledTokens state)
    (hlen : seq.numTokens = seq.tokenIds.length) (hpos : 0 < seq.numScheduledTokens) :
    model.answer (seq.plannedEntry kv) state.1.reverse = seq.resultOf model := by
  have hseen : state.1.reverse.getLast?.getD [] =
      model.contentsTo seq.tokenIds (seq.numCachedTokens + seq.numScheduledTokens) := by
    rw [List.getLast?_reverse, h.last hpos, Option.getD_some]
  have hallowed : (seq.plannedEntry kv).samplingAllowed = seq.endsHistory := rfl
  rw [CausalModel.answer, Sequence.resultOf, hallowed, hseen]
  cases hends : seq.endsHistory with
  | true =>
    have hlength : seq.numCachedTokens + seq.numScheduledTokens = seq.tokenIds.length :=
      (of_decide_eq_true hends).trans hlen
    rw [hlength]
    rfl
  | false => rfl

end Forwarded

/-- **The forward pass over one sequence.** -/
theorem forwarded_plannedEntry (hsize : kv.blockSize = BLOCK_SIZE) {seq : Sequence}
    (hlen : seq.numTokens = seq.tokenIds.length) (hnodup : seq.blockTable.Nodup)
    (hwork : seq.WorkOk) (hpos : 0 < seq.numScheduledTokens) {memory : Memory V}
    (hholds : Holds model memory seq.blockTable seq.tokenIds seq.numCachedTokens) {paged : Bool}
    (hunpaged : paged = false → seq.numCachedTokens = 0) :
    ∃ state, model.forwardMember ((seq.plannedEntry kv).member paged) (seq.plannedEntry kv).rows
        memory = (state.1.reverse, state.2) ∧
      Forwarded model memory seq seq.numScheduledTokens state := by
  have hrows : ∀ count ≤ seq.numScheduledTokens, Forwarded model memory seq count
      (((List.range count).map seq.inputRow).foldl
        (model.forwardRow ((seq.plannedEntry kv).member paged)) ([], memory)) := by
    intro count
    induction count with
    | zero => exact fun _ => ⟨rfl, nofun, hholds, fun _ _ => rfl⟩
    | succ count ih =>
      intro hcount
      rw [List.range_succ, List.map_append, List.foldl_append]
      exact (ih (Nat.le_of_succ_le hcount)).row hnodup hwork hcount hunpaged
  rw [CausalModel.forwardMember, rows_plannedEntry hsize hlen hwork hpos]
  exact ⟨_, rfl, hrows _ le_rfl⟩

variable [HashFunction]

/-- A slot that a sequence writes lies in a block without identity that no other sequence has. -/
theorem BlockPool.Invariant.of_writes {running : List Sequence}
    (I : kv.Invariant (running.map Sequence.holder)) {seq : Sequence} (hseq : seq ∈ running)
    (hwork : seq.WorkOk) {slot : ℤ} (hwrites : seq.Writes slot) :
    ∃ b offset, slot = ((b * BLOCK_SIZE + offset : ℕ) : ℤ) ∧ offset < BLOCK_SIZE ∧
      kv.identityAt b = none ∧ ∀ other ∈ running, b ∈ other.blockTable → other = seq := by
  obtain ⟨p, hcached, hp, rfl⟩ := hwrites
  have hlt : p < BLOCK_SIZE * seq.blockTable.length := by
    have := hwork.le_table (by omega)
    omega
  refine ⟨seq.blockOf p, p % BLOCK_SIZE, tableSlot_eq_slot hlt,
    Nat.mod_lt _ (by simp [BLOCK_SIZE]), I.uncached hseq hcached hlt, fun other hother hb => ?_⟩
  exact I.eq_of_private (I.uncached hseq hcached hlt) hseq hother (Sequence.blockOf_mem hlt) hb

omit [HashFunction] in
/-- A position of a sequence is in a slot of its own table. -/
theorem slot_block_unique {b offset p : ℕ} {seq : Sequence} (hoffset : offset < BLOCK_SIZE)
    (hp : p < BLOCK_SIZE * seq.blockTable.length)
    (h : tableSlot seq.blockTable p = ((b * BLOCK_SIZE + offset : ℕ) : ℤ)) :
    seq.blockOf p = b ∧ p % BLOCK_SIZE = offset := by
  rw [tableSlot_eq_slot hp] at h
  have hnat : seq.slot p = b * BLOCK_SIZE + offset := Int.ofNat_inj.mp h
  have hdiv := seq.slot_div p
  have hmod := seq.slot_mod p
  rw [hnat] at hdiv hmod
  simp only [BLOCK_SIZE] at *
  omega

/-- No sequence writes a cached position of a running sequence. -/
theorem BlockPool.Invariant.not_writes_cached {running : List Sequence}
    (I : kv.Invariant (running.map Sequence.holder)) {seq other : Sequence} (hseq : seq ∈ running)
    (hother : other ∈ running) (hwork : seq.WorkOk) {p : ℕ}
    (hp : p < BLOCK_SIZE * other.blockTable.length)
    (hfar : other = seq → p < seq.numCachedTokens ∨
      seq.numCachedTokens + seq.numScheduledTokens ≤ p) :
    ¬ seq.Writes (tableSlot other.blockTable p) := by
  intro hwrites
  obtain ⟨b, offset, hslot, hoffset, -, hprivate⟩ := I.of_writes hseq hwork hwrites
  have hblock := (slot_block_unique hoffset hp hslot).1
  have heq := hprivate other hother (hblock ▸ Sequence.blockOf_mem hp)
  subst heq
  obtain ⟨q, hcached, hq, hsame⟩ := hwrites
  have hlt : q < BLOCK_SIZE * other.blockTable.length := by
    have := hwork.le_table (by omega)
    omega
  rw [tableSlot_eq_slot hlt, tableSlot_eq_slot hp] at hsame
  have := Sequence.slot_inj (I.nodup _ (List.mem_map_of_mem hseq)) hlt hp (Int.ofNat_inj.mp hsame)
  have := hfar rfl
  omega

end Execution

end VllmOxide
