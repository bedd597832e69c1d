import VllmOxide.Machine.Forward
import VllmOxide.System.WellFormed

/-!
# Executing a plan

The network gets the input ids and the positions of all sequences of a plan as two flat lists, and
the metadata of the plan. The plan is refused when its budget is not the number of its ids and of its
positions. Then every sequence that may be sampled gets a token, from what its last row has seen.

When the ids, positions and slots of every entry fill its own budget and the metadata have the entries
as their members, the execution goes entry by entry.

## Main definitions

* `CausalModel.executePlan`: the execution of a plan.
* `StepPlan.Assembled`, `SequenceStepPlan.Filled`: the plans that are executed.
* `CausalModel.executed`: the execution, entry by entry.

## Main results

* `CausalModel.forward_eq`: the forward pass over such a plan.
* `CausalModel.executePlan_eq`: what the execution of such a plan returns.
-/

namespace VllmOxide

/-- The positions of a range. -/
def TokenRange.positions (range : TokenRange) : List ℕ :=
  List.range' range.start range.len

/-- `u32::try_from` on a logical position. -/
def positionToU32 (position : ℕ) : Except String UInt32 :=
  if position < 4294967296 then .ok (UInt32.ofNat position)
  else .error "logical position does not fit u32"

/-- `hidden.get`: what one row has seen. -/
def hiddenAt {V : Type} (hidden : List (List V)) (row : ℕ) : Except String (List V) :=
  match hidden[row]? with
  | some seen => .ok seen
  | none => .error "narrow invalid args start + len > dim_len"

/-- The entries that may be sampled, each with what its last row has seen. -/
def sampleHiddens {V : Type} (hidden : List (List V)) :
    (offset : ℕ) → List SequenceStepPlan → Except String (List (List V × SequenceStepPlan))
  | _, [] => .ok []
  | offset, entry :: entries => do
    if entry.samplingAllowed then
      let last ← hiddenAt hidden (offset + entry.tokenBudget - 1)
      let rest ← sampleHiddens hidden (offset + entry.tokenBudget) entries
      return (last, entry) :: rest
    else sampleHiddens hidden (offset + entry.tokenBudget) entries

/-- The results of the entries of a plan: those that may be sampled take the sampled tokens in
order. -/
def collectResults : List SequenceStepPlan → List Token → List SequenceStepResult
  | [], _ => []
  | entry :: entries, sampledTokens =>
    if entry.samplingAllowed then
      ⟨entry.requestId, entry.sequenceId, sampledTokens.head?⟩ ::
        collectResults entries sampledTokens.tail
    else ⟨entry.requestId, entry.sequenceId, none⟩ :: collectResults entries sampledTokens

namespace CausalModel

variable {V : Type} (model : CausalModel V)

/-- The token sampled for an entry after a row. -/
def sample (seen : List V) (entry : SequenceStepPlan) : Token :=
  model.next seen entry.tokenHistory entry.samplingParams entry.completionStep

/-- `execute_plan`: the result, and the cache after the forward pass. -/
def executePlan (plan : StepPlan) (memory : Memory V) : Except String (StepResult × Memory V) := do
  bailIf (plan.sequences = [] ∨ plan.tokenBudget = 0) "cannot execute an empty step plan"
  let inputTokenIds := plan.sequences.flatMap (·.inputTokenIds)
  let logicalPositions ←
    (plan.sequences.flatMap (·.logicalPositions.positions)).mapM positionToU32
  bailIf (inputTokenIds.length ≠ plan.tokenBudget ∨ logicalPositions.length ≠ plan.tokenBudget)
    "step plan token budget does not match its inputs"
  let state ← model.forward plan.attention inputTokenIds logicalPositions memory
  let hiddens ← sampleHiddens state.1 0 plan.sequences
  let sampledTokens := hiddens.map fun hidden => model.sample hidden.1 hidden.2
  return ({ planId := plan.id, sequences := collectResults plan.sequences sampledTokens }, state.2)

end CausalModel

/-! ### Plans that are executed -/

/-- What `planStep` puts together from the entries of a plan. -/
structure StepPlan.Assembled (plan : StepPlan) : Prop where
  sequences_ne : plan.sequences ≠ []
  tokenBudget : plan.tokenBudget = (plan.sequences.map (·.tokenBudget)).sum
  slots : plan.attention.slotMapping = plan.sequences.flatMap (·.cache.slotMapping)
  kvLength : ∀ entry ∈ plan.sequences, entry.cache.kvLength < 4294967296
  covers : plan.Covers

namespace SequenceStepPlan

/-- An entry whose ids, positions and slots fill its budget. -/
structure Filled (entry : SequenceStepPlan) : Prop where
  tokenBudget : 0 < entry.tokenBudget
  inputTokenIds : entry.inputTokenIds.length = entry.tokenBudget
  logicalPositions : entry.logicalPositions.len = entry.tokenBudget
  slotMapping : entry.cache.slotMapping.length = entry.tokenBudget
  slots_nonneg : ∀ slot ∈ entry.cache.slotMapping, 0 ≤ slot
  stop : entry.logicalPositions.stop ≤ entry.cache.kvLength

/-- The rows of one entry. -/
def rows (entry : SequenceStepPlan) : List InputRow :=
  inputRows entry.inputTokenIds entry.logicalPositions.positions entry.cache.slotMapping

/-- An entry as a member of its step. -/
def member (paged : Bool) (entry : SequenceStepPlan) : AttentionMember where
  queries := entry.tokenBudget
  keys := entry.cache.kvLength
  blockTable := if paged then some (entry.cache.blockTable.map fun b : ℕ => (b : ℤ)) else none

namespace Filled

variable {entry : SequenceStepPlan}

theorem length_positions (h : entry.Filled) :
    entry.logicalPositions.positions.length = entry.tokenBudget := by
  rw [TokenRange.positions, List.length_range', h.logicalPositions]

theorem length_rows (h : entry.Filled) : entry.rows.length = entry.tokenBudget := by
  rw [rows, inputRows, List.length_zipWith, List.length_zip, h.inputTokenIds, h.length_positions,
    h.slotMapping, min_self, min_self]

theorem lt_of_mem_positions (h : entry.Filled) {p : ℕ}
    (hp : p ∈ entry.logicalPositions.positions) : p < entry.cache.kvLength := by
  have hstop := h.stop
  have hpos := h.tokenBudget
  rw [← h.logicalPositions, TokenRange.len] at hpos
  rw [TokenRange.positions, List.mem_range'_1, TokenRange.len] at hp
  omega

theorem tokenBudget_le (h : entry.Filled) : entry.tokenBudget ≤ entry.cache.kvLength := by
  rw [← h.logicalPositions, TokenRange.len]
  exact (Nat.sub_le _ _).trans h.stop

end Filled

end SequenceStepPlan

section Entries

variable {entries : List SequenceStepPlan}

/-- The rows of the flat lists are those of the entries, one after the other. -/
theorem inputRows_flatMap (h : ∀ entry ∈ entries, entry.Filled) :
    inputRows (entries.flatMap (·.inputTokenIds)) (entries.flatMap (·.logicalPositions.positions))
      (entries.flatMap (·.cache.slotMapping)) = entries.flatMap (·.rows) := by
  induction entries with
  | nil => rfl
  | cons entry rest ih =>
    have hentry := h entry List.mem_cons_self
    simp only [List.flatMap_cons]
    rw [← ih fun other hother => h other (List.mem_cons_of_mem _ hother), inputRows,
      List.zip_append (hentry.length_positions.trans hentry.slotMapping.symm),
      List.zipWith_append (by rw [List.length_zip, hentry.inputTokenIds, hentry.length_positions,
        hentry.slotMapping, min_self])]
    rfl

variable {V : Type} {hiddens : List (List (List V))}

/-- The last row of every entry that may be sampled. -/
theorem sampleHiddens_eq (hpos : ∀ entry ∈ entries, 0 < entry.tokenBudget)
    (h : List.Forall₂ (fun entry rows => rows.length = entry.tokenBudget) entries hiddens) :
    ∀ before : List (List V), sampleHiddens (before ++ hiddens.flatten) before.length entries =
      .ok (((entries.zip hiddens).filter (·.1.samplingAllowed)).map fun place =>
        (place.2.getLast?.getD [], place.1)) := by
  induction h with
  | nil => exact fun _ => rfl
  | @cons entry rows entries hiddens hlength _ ih =>
    intro before
    have hbudget := hpos entry List.mem_cons_self
    have hrest := ih (fun other hother => hpos other (List.mem_cons_of_mem _ hother)) (before ++ rows)
    rw [List.append_assoc, List.length_append, hlength] at hrest
    have hlast : hiddenAt (before ++ (rows ++ hiddens.flatten)) (before.length + entry.tokenBudget - 1) =
        .ok (rows.getLast?.getD []) := by
      have hlt : rows.length - 1 < rows.length := by omega
      rw [hiddenAt, Nat.add_sub_assoc hbudget, List.getElem?_append_right (Nat.le_add_right _ _),
        Nat.add_sub_cancel_left, ← hlength, List.getElem?_append_left hlt, List.getLast?_eq_getElem?,
        List.getElem?_eq_getElem hlt]
      rfl
    rw [sampleHiddens, List.flatten_cons, List.zip_cons_cons, List.filter_cons]
    cases hallowed : entry.samplingAllowed with
    | true =>
      rw [if_pos rfl, if_pos rfl, hlast, hrest]
      rfl
    | false => rw [if_neg Bool.false_ne_true, if_neg Bool.false_ne_true, hrest]

/-- The sampled tokens come back to the entries that they were sampled for. -/
theorem collectResults_eq (f : List V → SequenceStepPlan → Token)
    (hlength : entries.length = hiddens.length) :
    collectResults entries ((((entries.zip hiddens).filter (·.1.samplingAllowed)).map fun place =>
        (place.2.getLast?.getD [], place.1)).map fun hidden => f hidden.1 hidden.2) =
      List.zipWith (fun entry rows => ⟨entry.requestId, entry.sequenceId,
        if entry.samplingAllowed then some (f (rows.getLast?.getD []) entry) else none⟩)
        entries hiddens := by
  induction entries generalizing hiddens with
  | nil => rfl
  | cons entry entries ih =>
    obtain ⟨rows, hiddens, rfl⟩ := List.exists_cons_of_length_eq_add_one hlength.symm
    have hrest := ih (Nat.succ.inj hlength)
    rw [collectResults, List.zip_cons_cons, List.zipWith_cons_cons, ← hrest, List.filter_cons]
    cases hallowed : entry.samplingAllowed with
    | true =>
      rw [if_pos rfl]
      rfl
    | false =>
      rw [if_neg Bool.false_ne_true]
      rfl

end Entries

/-- Positions that fit `u32` come back from it. -/
theorem mapM_positionToU32 {positions : List ℕ} (h : ∀ p ∈ positions, p < 4294967296) :
    positions.mapM positionToU32 = .ok (positions.map UInt32.ofNat) ∧
      (positions.map UInt32.ofNat).map UInt32.toNat = positions := by
  refine ⟨mapM_eq_ok fun p hp => if_pos (h p hp), ?_⟩
  rw [List.map_map]
  refine (List.map_congr_left fun p hp => ?_).trans (List.map_id _)
  exact UInt32.toNat_ofNat_of_lt' (h p hp)

theorem StepPlan.Covers.lengths_eq {plan : StepPlan} (h : plan.Covers) : plan.attention.lengths =
    plan.sequences.map fun entry => (entry.tokenBudget, entry.cache.kvLength) := by
  rw [AttnMetadata.lengths, h.queries, h.keys, List.zip_map']

/-- The members of the metadata of a plan, from its entries. -/
theorem StepPlan.Covers.members_eq {plan : StepPlan} (h : plan.Covers) :
    plan.attention.members = plan.sequences.map (·.member plan.attention.usesPagedKv) := by
  rw [AttnMetadata.members, h.lengths_eq]
  cases hpaged : plan.attention.usesPagedKv with
  | true =>
    rw [if_pos rfl, h.paged hpaged, List.zipWith_map, List.zipWith_self]
    rfl
  | false =>
    rw [if_neg Bool.false_ne_true, List.map_map]
    rfl

/-- A list with as many members for each entry as its budget has the length of the whole budget. -/
theorem StepPlan.Assembled.length_flatMap {plan : StepPlan} (h : plan.Assembled) {α : Type}
    {f : SequenceStepPlan → List α}
    (hf : ∀ entry ∈ plan.sequences, (f entry).length = entry.tokenBudget) :
    (plan.sequences.flatMap f).length = plan.tokenBudget := by
  rw [List.length_flatMap, h.tokenBudget]
  exact congrArg List.sum (List.map_congr_left hf)

/-- The network accepts the inputs of an assembled plan. -/
theorem StepPlan.Assembled.checkForward {plan : StepPlan} (h : plan.Assembled)
    (hfilled : ∀ entry ∈ plan.sequences, entry.Filled) {inputIds : List Token}
    {positions : List UInt32} (hpositions : inputIds.length = positions.length)
    (hslots : inputIds.length = plan.attention.slotMapping.length) :
    plan.attention.checkForward inputIds positions = .ok () := by
  have hbatch : ∀ {cuSeqlens : List UInt32} {f : SequenceStepPlan → ℕ},
      (memberLengths cuSeqlens).map UInt32.toNat = plan.sequences.map f →
      cuSeqlens.length = plan.sequences.length + 1 := by
    intro cuSeqlens f hlengths
    have hlength := congrArg List.length hlengths
    have hpos := List.length_pos_iff.mpr h.sequences_ne
    rw [List.length_map, List.length_map, length_memberLengths] at hlength
    omega
  have hbatchQ := hbatch h.covers.queries
  have hbatchK := hbatch h.covers.keys
  have hnonneg : ¬ ∃ slot ∈ plan.attention.slotMapping, slot < 0 := by
    rintro ⟨slot, hslot, hneg⟩
    rw [h.slots] at hslot
    obtain ⟨entry, hentry, hslot⟩ := List.mem_flatMap.mp hslot
    exact absurd ((hfilled entry hentry).slots_nonneg slot hslot) (not_le.mpr hneg)
  have hcausal : ¬ ∃ lengths ∈ plan.attention.lengths, lengths.2 < lengths.1 := by
    rw [h.covers.lengths_eq]
    rintro ⟨lengths, hlengths, hlt⟩
    obtain ⟨entry, hentry, rfl⟩ := List.mem_map.mp hlengths
    exact absurd (hfilled entry hentry).tokenBudget_le (not_le.mpr hlt)
  rw [AttnMetadata.checkForward,
    bailIf_of_not (not_or.mpr ⟨not_not.mpr hpositions, not_not.mpr hslots⟩)]
  show (bailIf _ _ >>= fun _ => _) = _
  rw [bailIf_of_not hnonneg]
  show (bailIf _ _ >>= fun _ => _) = _
  rw [bailIf_of_not (by rw [hbatchQ, hbatchK]; simp)]
  show (if plan.attention.usesPagedKv = true then _ else _) = _
  cases hpaged : plan.attention.usesPagedKv with
  | true =>
    rw [if_pos rfl, bailIf_of_not (by rw [h.covers.paged hpaged, hbatchQ]; simp)]
    exact bailIf_of_not hcausal
  | false => exact bailIf_of_not (not_not.mpr (h.covers.unpaged hpaged).1)

namespace CausalModel

variable {V : Type} (model : CausalModel V)

/-- The forward pass over the entries of a plan: the rows of each entry, and the cache. -/
def forwardEntries (paged : Bool) :
    List SequenceStepPlan → Memory V → List (List (List V)) × Memory V
  | [], memory => ([], memory)
  | entry :: entries, memory =>
    let first := model.forwardMember (entry.member paged) entry.rows memory
    let rest := forwardEntries paged entries first.2
    (first.1 :: rest.1, rest.2)

/-- The result of an entry with the given rows. -/
def answer (entry : SequenceStepPlan) (rows : List (List V)) : SequenceStepResult where
  requestId := entry.requestId
  sequenceId := entry.sequenceId
  sampledToken :=
    if entry.samplingAllowed then some (model.sample (rows.getLast?.getD []) entry) else none

/-- The execution of a plan, entry by entry. -/
def executed (plan : StepPlan) (memory : Memory V) : StepResult × Memory V :=
  let state := model.forwardEntries plan.attention.usesPagedKv plan.sequences memory
  ({ planId := plan.id, sequences := List.zipWith model.answer plan.sequences state.1 }, state.2)

section Entries

variable {entries : List SequenceStepPlan} {paged : Bool}

/-- Every entry gets the rows of its own lists. -/
theorem forwardMembers_eq (h : ∀ entry ∈ entries, entry.Filled) : ∀ memory : Memory V,
    model.forwardMembers (entries.map (·.member paged)) (entries.flatMap (·.rows)) memory =
      ((model.forwardEntries paged entries memory).1.flatten,
        (model.forwardEntries paged entries memory).2) := by
  induction entries with
  | nil => exact fun _ => rfl
  | cons entry rest ih =>
    intro memory
    have hlength := (h entry List.mem_cons_self).length_rows
    have hqueries : (entry.member paged).queries = entry.tokenBudget := rfl
    rw [List.map_cons, forwardMembers, List.flatMap_cons, hqueries, List.take_left' hlength,
      List.drop_left' hlength, ih fun other hother => h other (List.mem_cons_of_mem _ hother)]
    rfl

/-- Every entry has as many rows as its budget. -/
theorem forall₂_forwardEntries (paged : Bool) (h : ∀ entry ∈ entries, entry.Filled) :
    ∀ memory : Memory V, List.Forall₂
      (fun entry rows => rows.length = entry.tokenBudget) entries
      (model.forwardEntries paged entries memory).1 := by
  induction entries with
  | nil => exact fun _ => .nil
  | cons entry rest ih =>
    exact fun memory => .cons
      ((model.length_forwardMember _ _ _).trans (h entry List.mem_cons_self).length_rows)
      (ih (fun other hother => h other (List.mem_cons_of_mem _ hother)) _)

end Entries

section Plans

variable {plan : StepPlan}

/-- **The forward pass over an assembled plan** succeeds, and it goes entry by entry. -/
theorem forward_eq (hplan : plan.Assembled) (hfilled : ∀ entry ∈ plan.sequences, entry.Filled)
    (memory : Memory V) {positions : List UInt32}
    (hlength : positions.length = plan.tokenBudget)
    (hpositions : positions.map UInt32.toNat =
      plan.sequences.flatMap (·.logicalPositions.positions)) :
    model.forward plan.attention (plan.sequences.flatMap (·.inputTokenIds)) positions memory =
      .ok ((model.forwardEntries plan.attention.usesPagedKv plan.sequences memory).1.flatten,
        (model.forwardEntries plan.attention.usesPagedKv plan.sequences memory).2) := by
  have hids := hplan.length_flatMap fun entry hentry => (hfilled entry hentry).inputTokenIds
  have hslots : plan.attention.slotMapping.length = plan.tokenBudget := by
    rw [hplan.slots]
    exact hplan.length_flatMap fun entry hentry => (hfilled entry hentry).slotMapping
  have hrows := model.forall₂_forwardEntries plan.attention.usesPagedKv hfilled memory
  have hlengthRows : (model.forwardEntries plan.attention.usesPagedKv plan.sequences
      memory).1.flatten.length = plan.tokenBudget := by
    rw [List.length_flatten, hplan.tokenBudget]
    exact congrArg List.sum (map_eq_of_forall₂ hrows fun _ _ hlength => hlength)
  rw [forward, hplan.checkForward hfilled (by rw [hids, hlength]) (by rw [hids, hslots])]
  show (bailIf _ _ >>= fun _ => _) = _
  rw [hpositions, hplan.slots, inputRows_flatMap hfilled, hplan.covers.members_eq,
    model.forwardMembers_eq hfilled, bailIf_of_not (by rw [hids, hlengthRows]; simp)]
  rfl

/-- **The execution of an assembled plan succeeds**, and it goes entry by entry. -/
theorem executePlan_eq (hplan : plan.Assembled)
    (hfilled : ∀ entry ∈ plan.sequences, entry.Filled) (memory : Memory V) :
    model.executePlan plan memory = .ok (model.executed plan memory) := by
  have hids := hplan.length_flatMap fun entry hentry => (hfilled entry hentry).inputTokenIds
  have hpositions := hplan.length_flatMap fun entry hentry => (hfilled entry hentry).length_positions
  have hpos : plan.tokenBudget ≠ 0 := by
    obtain ⟨entry, hentry⟩ := List.exists_mem_of_ne_nil _ hplan.sequences_ne
    rw [hplan.tokenBudget, ← Nat.pos_iff_ne_zero, List.sum_pos_iff_exists_pos_nat]
    exact ⟨_, List.mem_map_of_mem hentry, (hfilled entry hentry).tokenBudget⟩
  have hlt : ∀ p ∈ plan.sequences.flatMap (·.logicalPositions.positions), p < 4294967296 := by
    intro p hp
    obtain ⟨entry, hentry, hp⟩ := List.mem_flatMap.mp hp
    exact ((hfilled entry hentry).lt_of_mem_positions hp).trans (hplan.kvLength entry hentry)
  obtain ⟨hmap, hback⟩ := mapM_positionToU32 hlt
  have hforward := model.forward_eq hplan hfilled memory
    ((List.length_map _).trans hpositions) hback
  have hrows := model.forall₂_forwardEntries plan.attention.usesPagedKv hfilled memory
  have hhiddens := sampleHiddens_eq (fun entry hentry => (hfilled entry hentry).tokenBudget) hrows []
  rw [executePlan, bailIf_of_not (by simp [hplan.sequences_ne, hpos]), hmap]
  show (bailIf _ _ >>= fun _ => _) = _
  rw [bailIf_of_not (by rw [List.length_map, hids, hpositions]; simp)]
  show (model.forward plan.attention _ _ memory >>= fun state => _) = _
  rw [hforward]
  show (sampleHiddens ([] ++ List.flatten _) ([] : List (List V)).length _ >>= fun hiddens => _) = _
  rw [hhiddens]
  show Except.ok _ = _
  rw [collectResults_eq model.sample hrows.length_eq]
  rfl

end Plans

end CausalModel

end VllmOxide
