import VllmOxide.Sampler.Workspace

/-!
# The kernels of a sampled row

What the kernels of a row compute is a function of the row's own logits, parameters, history and
seed: `rowToken`. It does not mention the workspace. For every kernel there is one equation, which
says what it leaves in the buffers if the cells that it reads hold what the kernels before it, or the
copies at the start of the call, have written. Nothing is assumed about the other cells.

## Main definitions

* `rowToken`: the token of a row.
* `Workspace.WellSized`: the buffers have the sizes with which they were allocated.
* `HoldsHistory`: the history buffers hold the history of a row.
* `Scratched`: what the kernels of a row leave as it was.

## Main results

* `penalizeOnDevice_eq`, `scaleTemperatureKernel_eq`: the kernels that may set the wide flag.
* `selectWideKernel_eq`, `wideMaxKernel_eq`, `normalizeWideKernel_eq`: the kernels that look at it.
* `sortKernel_eq`, `topPCutoffKernel_eq`: the filters.
-/

namespace VllmOxide.Sampler

open Extended

variable {R D : Type}

/-! ### The token of a row -/

section Token

variable [Field R] [LinearOrder R]

/-- The penalty on one token of a history, and whether wide arithmetic is needed so far. -/
def penalizeEntry (A : DeviceArithmetic R D) (penalties : Penalties R)
    (state : List (Extended R) × Bool) (counted : ℕ × ℕ) : List (Extended R) × Bool :=
  let old := entry state.1 counted.1
  let value := A.penalize old counted.2 penalties
  (state.1.set counted.1 value, state.2 || overflows old value)

/-- The logits after the penalties. -/
def penalizedLogits (A : DeviceArithmetic R D) (rowLogits : List (Extended R))
    (args : RowArguments R) (history : List (ℕ × ℕ)) : List (Extended R) × Bool :=
  if args.penalties.active && decide (0 < args.historyLength) then
    history.foldl (penalizeEntry A args.penalties) (rowLogits, args.subnormalDivisor)
  else (rowLogits, args.subnormalDivisor)

/-- The token of a filtered row. -/
def filteredToken (A : DeviceArithmetic R D) (rowLogits : List (Extended R)) (vocabSize : ℕ)
    (args : RowArguments R) (history : List (ℕ × ℕ)) (logits : List (Extended R)) (wide : Bool) :
    ℕ :=
  let results := logits.map (scaled A args.temperature)
  let wide := wide || logits.any fun value => needsWide value (scaled A args.temperature value)
  let maximum := A.wideMaximum rowLogits history args.penalties
  let keys := if wide then
      (List.range vocabSize).map
        (A.normalize rowLogits history args.penalties args.temperature maximum)
    else results
  let sorted := A.sortPairs (keys.zip (List.range vocabSize))
  let keysOut := sorted.map Prod.fst
  let limit := A.topKLimit keysOut args.topK
  let cutoff := if args.topP < 1 then A.topPCutoff (keysOut.take limit) args.topP else limit
  A.draw (keysOut.take cutoff) ((sorted.map Prod.snd).take cutoff) args.rowSeed

/-- The token of a row, from its logits, its parameters, its history and its seed. -/
def rowToken (A : DeviceArithmetic R D) (rowLogits : List (Extended R)) (vocabSize : ℕ)
    (args : RowArguments R) (history : List (ℕ × ℕ)) : ℕ :=
  let logits := (penalizedLogits A rowLogits args history).1
  let wide := (penalizedLogits A rowLogits args history).2
  let selectWide (greedy : Bool) :=
    A.selectWide rowLogits history args.penalties args.temperature greedy args.rowSeed
  if args.greedy then
    if wide then selectWide true else greedyArgmaxKernel logits
  else if ¬ (args.topK < vocabSize ∨ args.topP < 1) then
    if wide || logits.any fun value => needsWide value (scaled A args.temperature value) then
      selectWide false
    else A.draw (logits.map (scaled A args.temperature)) (List.range vocabSize) args.rowSeed
  else
    filteredToken A rowLogits vocabSize args history logits wide

end Token

/-! ### Buffers -/

/-- The buffers of a workspace have the sizes with which they were allocated. -/
structure Workspace.WellSized (ws : Workspace R D) : Prop where
  keysIn : ws.keysIn.length = ws.vocabSize
  keysOut : ws.keysOut.length = ws.vocabSize
  idsIn : ws.idsIn.length = ws.vocabSize
  idsOut : ws.idsOut.length = ws.vocabSize
  limits : ws.limits.length = 3
  wideMaximum : ws.wideMaximum.length = 2
  historyTokens : ws.historyTokens.length = ws.historyCapacity
  historyCounts : ws.historyCounts.length = ws.historyCapacity

/-- The part of the history buffers at the row's offset holds the counted tokens. -/
structure HoldsHistory (d : Device R D) (args : RowArguments R) (history : List (ℕ × ℕ)) : Prop where
  length : args.historyLength = history.length
  tokens : ∀ i (hi : i < history.length),
    d.historyTokens.read (args.historyBegin + i) = .ok history[i].1
  counts : ∀ i (hi : i < history.length),
    d.historyCounts.read (args.historyBegin + i) = .ok history[i].2

/-- Kernels of a row only write scratch cells. -/
structure Scratched (d d' : Device R D) : Prop where
  wellSized : d.toWorkspace.WellSized → d'.toWorkspace.WellSized
  vocabSize : d'.vocabSize = d.vocabSize
  historyCapacity : d'.historyCapacity = d.historyCapacity
  historyTokens : d'.historyTokens = d.historyTokens
  historyCounts : d'.historyCounts = d.historyCounts

/-- The device with other input keys and another wide flag. -/
def Device.put (d : Device R D) (keysIn : Cells (Extended R)) (flag : ℕ) : Device R D :=
  { d with keysIn := keysIn, limits := d.limits.set 2 (some flag) }

theorem Scratched.refl (d : Device R D) : Scratched d d :=
  ⟨id, rfl, rfl, rfl, rfl⟩

theorem Scratched.trans {d d' d'' : Device R D} (h : Scratched d d') (h' : Scratched d' d'') :
    Scratched d d'' where
  wellSized hd := h'.wellSized (h.wellSized hd)
  vocabSize := h'.vocabSize.trans h.vocabSize
  historyCapacity := h'.historyCapacity.trans h.historyCapacity
  historyTokens := h'.historyTokens.trans h.historyTokens
  historyCounts := h'.historyCounts.trans h.historyCounts

/-- Other input keys of the same length and another flag are scratch. -/
theorem scratched_put {d : Device R D} {keysIn : Cells (Extended R)}
    (hkeys : keysIn.length = d.keysIn.length) (flag : ℕ) : Scratched d (d.put keysIn flag) where
  wellSized h := { h with
    keysIn := hkeys.trans h.keysIn
    limits := (List.length_set ..).trans h.limits }
  vocabSize := rfl
  historyCapacity := rfl
  historyTokens := rfl
  historyCounts := rfl

theorem ok_bind {α β ε : Type} (a : α) (f : α → Except ε β) : (Except.ok a >>= f) = f a := rfl

theorem le_blocksFor {elements : ℕ} (h : elements ≤ I32_MAX) :
    elements ≤ blocksFor elements * kThreads := by
  simp only [blocksFor, wrap32, kThreads, I32_MAX] at h ⊢
  omega

/-- A launch, thread by thread. -/
theorem launch_invariant {thread : ℕ → Device R D → Except MemoryFault (Device R D)}
    {P : ℕ → Device R D → Prop} {elements : ℕ} (hle : elements ≤ I32_MAX)
    (hstep : ∀ i < elements, ∀ d, P i d → ∃ d', thread i d = .ok d' ∧ P (i + 1) d')
    {d : Device R D} (h : P 0 d) : ∃ d', launch elements thread d = .ok d' ∧ P elements d' := by
  rw [launch, forThreads_guard (le_blocksFor hle)]
  exact forThreads_invariant hstep h

/-! ### The kernels of a row -/

section Kernels

variable (A : DeviceArithmetic R D) {d : Device R D} {args : RowArguments R}
  {history : List (ℕ × ℕ)} {keysIn : Cells (Extended R)} {flag row vocabSize : ℕ} {wide : Bool}
  {rowLogits logits : List (Extended R)}

theorem requireWideIf_put (hlimits : d.limits.length = 3) (c : Bool) :
    requireWideIf c (d.put keysIn flag) = .ok (d.put keysIn (if c then 1 else flag)) := by
  cases c with
  | false => rfl
  | true =>
    have hlength : 2 < (d.limits.set 2 (some flag)).length := by simp [hlimits]
    rw [requireWideIf, if_pos rfl, requireWide]
    simp only [Device.put, Cells.write_of_lt 1 hlength, ok_bind, List.set_set, if_true]
    rfl

theorem flag_raise {c : Bool} (h : flag = 0 ↔ wide = false) :
    (if c then 1 else flag) = 0 ↔ (wide || c) = false := by
  cases c <;> simp [h]

theorem read_flag (hlimits : d.limits.length = 3) :
    (d.put keysIn flag).limits.read 2 = .ok flag :=
  Cells.read_set flag (by omega)

theorem readHistory_eq (H : HoldsHistory d args history) : readHistory d args = .ok history := by
  rw [readHistory, H.length]
  refine mapM_range_eq_ok history fun i hi => ?_
  rw [H.tokens i hi, ok_bind, H.counts i hi]
  rfl

theorem length_penalizeEntries (penalties : Penalties R) :
    ((history.foldl (penalizeEntry A penalties) (logits, wide)).1).length = logits.length := by
  induction history generalizing logits wide with
  | nil => rfl
  | cons counted rest ih => exact (ih ..).trans (List.length_set ..)

/-- The penalties of a history on a copy of the logits. -/
theorem applyPenaltiesKernel_eq (hlimits : d.limits.length = 3) (H : HoldsHistory d args history)
    (htokens : ∀ counted ∈ history, counted.1 < logits.length)
    (hlength : history.length ≤ I32_MAX) (hflag : flag = 0 ↔ wide = false) :
    ∃ flag', applyPenaltiesKernel A args (d.put (logits.map some) flag) =
        .ok (d.put ((history.foldl (penalizeEntry A args.penalties) (logits, wide)).1.map some)
          flag') ∧
      (flag' = 0 ↔ (history.foldl (penalizeEntry A args.penalties) (logits, wide)).2 = false) := by
  let state (i : ℕ) := (history.take i).foldl (penalizeEntry A args.penalties) (logits, wide)
  have hstep : ∀ i < args.historyLength, ∀ d',
      (∃ f, d' = d.put ((state i).1.map some) f ∧ (f = 0 ↔ (state i).2 = false)) →
      ∃ d'', penaltyThread A args i d' = .ok d'' ∧
        ∃ f, d'' = d.put ((state (i + 1)).1.map some) f ∧ (f = 0 ↔ (state (i + 1)).2 = false) := by
    rintro i hi d' ⟨f, rfl, hf⟩
    have hi : i < history.length := H.length ▸ hi
    have hnext : state (i + 1) = penalizeEntry A args.penalties (state i) history[i] := by
      simp only [state, List.take_succ_eq_append_getElem hi, List.foldl_append, List.foldl_cons,
        List.foldl_nil]
    have htoken : history[i].1 < (state i).1.length := by
      rw [length_penalizeEntries]
      exact htokens _ (List.getElem_mem hi)
    have hentry : entry (state i).1 history[i].1 = (state i).1[history[i].1] := by
      rw [entry, List.getD_eq_getElem?_getD, List.getElem?_eq_getElem htoken, Option.getD_some]
    have hread : (d.put ((state i).1.map some) f).keysIn.read history[i].1 =
        .ok (entry (state i).1 history[i].1) :=
      hentry ▸ Cells.read_filled htoken
    let old := entry (state i).1 history[i].1
    let raised := overflows old (A.penalize old history[i].2 args.penalties)
    refine ⟨_, ?_, if raised then 1 else f, rfl, ?_⟩
    · rw [penaltyThread]
      change (d.historyTokens.read (args.historyBegin + i) >>= _) = _
      rw [H.tokens i hi, ok_bind, hread, ok_bind]
      change (d.historyCounts.read (args.historyBegin + i) >>= _) = _
      rw [H.counts i hi, ok_bind]
      dsimp only
      rw [requireWideIf_put hlimits, ok_bind]
      dsimp only [Device.put]
      rw [Cells.write_of_lt _ (by rwa [List.length_map]), ok_bind, hnext, penalizeEntry,
        List.map_set]
      rfl
    · rw [hnext]
      exact flag_raise hf
  obtain ⟨d', hrun, f, rfl, hf⟩ := launch_invariant (H.length ▸ hlength) hstep
    (d := d.put (logits.map some) flag) ⟨flag, rfl, hflag⟩
  have hall : state args.historyLength = history.foldl (penalizeEntry A args.penalties)
      (logits, wide) := by
    simp only [state, H.length, List.take_length]
  rw [hall] at hrun hf
  exact ⟨f, hrun, hf⟩

theorem resetWide_eq (hlimits : d.limits.length = 3) (subnormalDivisor : Bool) :
    resetWide subnormalDivisor d =
      .ok (d.put d.keysIn (if subnormalDivisor then 16843009 else 0)) := by
  rw [resetWide, Cells.write_of_lt _ (by omega)]
  rfl

/-- Where the logits of a row are read from, the given logits stand. -/
def Reads (source : LogitSource) (rowLogits : List (Extended R)) (keysIn : Cells (Extended R))
    (logits : List (Extended R)) : Prop :=
  match source with
  | .tensor => logits = rowLogits
  | .keysIn => keysIn = logits.map some

theorem readLogits_eq {source : LogitSource} (hreads : Reads source rowLogits keysIn logits)
    (hlength : logits.length = vocabSize) :
    readLogits source rowLogits vocabSize (d.put keysIn flag) = .ok logits := by
  have hfilled := Cells.readFirst_filled hlength.ge
  rw [List.take_of_length_le hlength.le] at hfilled
  cases source with
  | tensor =>
    obtain rfl := hreads
    exact hfilled
  | keysIn =>
    obtain rfl := hreads
    exact hfilled

/-- The kernel in front of a filtered draw may overwrite the keys that it reads: a thread reads its
key before any thread writes it. -/
theorem readLogit_filledTo {source : LogitSource} (hreads : Reads source rowLogits keysIn logits)
    {results : List (Extended R)} {i : ℕ} (hi : i < logits.length)
    (hresults : results.length = logits.length) :
    readLogit source rowLogits (d.put (keysIn.filledTo results i) flag) i = .ok logits[i] := by
  cases source with
  | tensor =>
    obtain rfl := hreads
    exact Cells.read_filled hi
  | keysIn =>
    obtain rfl := hreads
    exact (Cells.read_filledTo (hresults ▸ hi.le)).trans (Cells.read_filled hi)

variable (rowLogits) in
/-- The fallback to wide arithmetic replaces the token if the flag is set. -/
theorem selectWideKernel_eq (hflag : d.limits.read 2 = .ok flag) (H : HoldsHistory d args history)
    (greedy : Bool) (hrow : row < d.selectedTokens.length) :
    selectWideKernel A rowLogits args greedy row d = .ok { d with
      selectedTokens := if flag = 0 then d.selectedTokens else d.selectedTokens.set row
        (some (A.selectWide rowLogits history args.penalties args.temperature greedy
          args.rowSeed)) } := by
  rw [selectWideKernel, hflag, ok_bind]
  split
  · rfl
  · rw [readHistory_eq H, ok_bind]
    dsimp only
    rw [Cells.write_of_lt _ hrow]
    rfl

variable (rowLogits) in
/-- The maximum in wide arithmetic is there if the flag is set. -/
theorem wideMaxKernel_eq (hflag : d.limits.read 2 = .ok flag) (H : HoldsHistory d args history)
    (hlength : d.wideMaximum.length = 2) :
    ∃ wideMaximum, wideMaxKernel A rowLogits args d = .ok { d with wideMaximum := wideMaximum } ∧
      wideMaximum.length = 2 ∧ (flag ≠ 0 →
        wideMaximum.read 0 = .ok (A.wideMaximum rowLogits history args.penalties).1 ∧
        wideMaximum.read 1 = .ok (A.wideMaximum rowLogits history args.penalties).2) := by
  rw [wideMaxKernel, hflag, ok_bind]
  split
  · rename_i hzero
    exact ⟨d.wideMaximum, rfl, hlength, fun hne => absurd hzero hne⟩
  · obtain ⟨a, b, hcells⟩ := List.length_eq_two.mp hlength
    rw [readHistory_eq H, ok_bind, hcells]
    exact ⟨_, rfl, rfl, fun _ => ⟨rfl, rfl⟩⟩

/-- The scaled keys are replaced if the flag is set. -/
theorem normalizeWideKernel_eq (hflag : d.limits.read 2 = .ok flag)
    (H : HoldsHistory d args history) (hle : vocabSize ≤ I32_MAX) {maximum : D × D}
    (hmaximum : flag ≠ 0 →
      d.wideMaximum.read 0 = .ok maximum.1 ∧ d.wideMaximum.read 1 = .ok maximum.2)
    {results : List (Extended R)} (hkeys : d.keysIn = results.map some)
    (hlength : results.length = vocabSize) :
    normalizeWideKernel A rowLogits vocabSize args d = .ok { d with
      keysIn := (if flag = 0 then results else (List.range vocabSize).map
        (A.normalize rowLogits history args.penalties args.temperature maximum)).map some } := by
  let normalized := (List.range vocabSize).map
    (A.normalize rowLogits history args.penalties args.temperature maximum)
  have hnormalized : normalized.length = vocabSize := by simp [normalized]
  by_cases hzero : flag = 0
  · have hstep : ∀ i < vocabSize, ∀ d', d' = d →
        ∃ d'', normalizeThread A rowLogits args i d' = .ok d'' ∧ d'' = d := by
      rintro i - d' rfl
      refine ⟨d', ?_, rfl⟩
      rw [normalizeThread, hflag, ok_bind, if_pos hzero]
      rfl
    obtain ⟨d', hrun, rfl⟩ := launch_invariant hle hstep rfl
    rw [if_pos hzero, ← hkeys]
    exact hrun
  · obtain ⟨hbase, hcount⟩ := hmaximum hzero
    have hcells : normalized.length = d.keysIn.length := by
      rw [hnormalized, hkeys, List.length_map, hlength]
    have hstep : ∀ i < vocabSize, ∀ d', d' = { d with keysIn := d.keysIn.filledTo normalized i } →
        ∃ d'', normalizeThread A rowLogits args i d' = .ok d'' ∧
          d'' = { d with keysIn := d.keysIn.filledTo normalized (i + 1) } := by
      rintro i hi d' rfl
      have hhistory : HoldsHistory { d with keysIn := d.keysIn.filledTo normalized i } args
        history := ⟨H.length, H.tokens, H.counts⟩
      have hwrite := Cells.write_filledTo (hnormalized.symm ▸ hi) hcells
      rw [show normalized[i] = A.normalize rowLogits history args.penalties args.temperature
        maximum i from by simp [normalized]] at hwrite
      refine ⟨_, ?_, rfl⟩
      rw [normalizeThread, hflag, ok_bind, if_neg hzero, readHistory_eq hhistory, ok_bind,
        hbase, ok_bind, hcount, ok_bind]
      dsimp only
      rw [hwrite]
      rfl
    obtain ⟨d', hrun, rfl⟩ := launch_invariant hle hstep (d := d) rfl
    rw [if_neg hzero, ← Cells.filledTo_length hcells, hnormalized]
    exact hrun

/-- The token indices. -/
theorem initTokenIndicesKernel_eq (hle : vocabSize ≤ I32_MAX) (hids : d.idsIn.length = vocabSize) :
    initTokenIndicesKernel vocabSize d =
      .ok { d with idsIn := (List.range vocabSize).map some } := by
  have hrange : (List.range vocabSize).length = d.idsIn.length := by rw [List.length_range, hids]
  have hstep : ∀ i < vocabSize, ∀ d',
      d' = { d with idsIn := d.idsIn.filledTo (List.range vocabSize) i } →
      ∃ d'', initThread i d' = .ok d'' ∧
        d'' = { d with idsIn := d.idsIn.filledTo (List.range vocabSize) (i + 1) } := by
    rintro i hi d' rfl
    have hwrite := Cells.write_filledTo (i := i) (by rwa [List.length_range]) hrange
    rw [List.getElem_range] at hwrite
    refine ⟨_, ?_, rfl⟩
    rw [initThread, hwrite]
    rfl
  obtain ⟨d', hrun, rfl⟩ := launch_invariant hle hstep (d := d) rfl
  rw [← Cells.filledTo_length hrange, List.length_range]
  exact hrun

/-- The sorted pairs of keys and token indices. -/
theorem sortKernel_eq {keys : List (Extended R)} {ids : List ℕ} (hkeysIn : d.keysIn = keys.map some)
    (hidsIn : d.idsIn = ids.map some) (hkeys : keys.length = vocabSize)
    (hids : ids.length = vocabSize) (hkeysOut : d.keysOut.length = vocabSize)
    (hidsOut : d.idsOut.length = vocabSize) :
    sortKernel A vocabSize d = .ok { d with
      keysOut := ((A.sortPairs (keys.zip ids)).map Prod.fst).map some
      idsOut := ((A.sortPairs (keys.zip ids)).map Prod.snd).map some } := by
  have hlength : (A.sortPairs (keys.zip ids)).length = vocabSize := by
    rw [A.length_sortPairs, List.length_zip, hkeys, hids, min_self]
  rw [sortKernel, hkeysIn, Cells.readFirst_filled hkeys.ge, ok_bind, hidsIn,
    Cells.readFirst_filled hids.ge, ok_bind, List.take_of_length_le hkeys.le,
    List.take_of_length_le hids.le]
  dsimp only
  rw [Cells.writeFirst_of_length (by rw [List.length_map, hlength, hkeysOut]), ok_bind,
    Cells.writeFirst_of_length (by rw [List.length_map, hlength, hidsOut])]
  rfl

variable (args row) in
/-- The draw from the kept part of the sorted scores. -/
theorem filteredDrawKernel_eq {limit : ℕ} {keysOut : List (Extended R)} {idsOut : List ℕ}
    (hlimit : d.limits.read 1 = .ok limit) (hkeysOut : d.keysOut = keysOut.map some)
    (hidsOut : d.idsOut = idsOut.map some) (hkeys : limit ≤ keysOut.length)
    (hids : limit ≤ idsOut.length) (hrow : row < d.selectedTokens.length) :
    filteredDrawKernel A args row d = .ok { d with
      selectedTokens := d.selectedTokens.set row
        (some (A.draw (keysOut.take limit) (idsOut.take limit) args.rowSeed)) } := by
  rw [filteredDrawKernel, hlimit, ok_bind, hkeysOut, Cells.readFirst_filled hkeys, ok_bind, hidsOut,
    Cells.readFirst_filled hids, ok_bind, Cells.write_of_lt _ hrow]
  rfl

variable [Field R] [LinearOrder R]

/-- The penalties of a row, on the device and in one step. -/
theorem penalizeOnDevice_eq (hkeys : d.keysIn.length = rowLogits.length)
    (hlimits : d.limits.length = 3) (H : HoldsHistory d args history)
    (htokens : ∀ counted ∈ history, counted.1 < rowLogits.length)
    (hlength : history.length ≤ I32_MAX) (hflag : flag = 0 ↔ args.subnormalDivisor = false) :
    ∃ source keysIn flag',
      penalizeOnDevice A rowLogits args (d.put d.keysIn flag) =
        .ok (source, d.put keysIn flag') ∧
      keysIn.length = d.keysIn.length ∧
      Reads source rowLogits keysIn (penalizedLogits A rowLogits args history).1 ∧
      (penalizedLogits A rowLogits args history).1.length = rowLogits.length ∧
      (flag' = 0 ↔ (penalizedLogits A rowLogits args history).2 = false) := by
  rw [penalizeOnDevice, penalizedLogits]
  split
  · obtain ⟨flag', hrun, hflag'⟩ := applyPenaltiesKernel_eq A hlimits H htokens hlength hflag
    refine ⟨.keysIn, _, flag', ?_, ?_, rfl, length_penalizeEntries A _, hflag'⟩
    · dsimp only [Device.put] at hrun ⊢
      rw [Cells.writeFirst_of_length hkeys.symm, ok_bind, hrun]
      rfl
    · rw [List.length_map, length_penalizeEntries, hkeys]
  · exact ⟨.tensor, d.keysIn, flag, rfl, rfl, rfl, rfl, hflag⟩

variable (args) in
/-- The scaled logits of a row. -/
theorem scaleTemperatureKernel_eq {source : LogitSource} (hlimits : d.limits.length = 3)
    (hreads : Reads source rowLogits keysIn logits) (hkeys : logits.length = keysIn.length)
    (hle : logits.length ≤ I32_MAX) (hflag : flag = 0 ↔ wide = false) :
    ∃ flag', scaleTemperatureKernel A source rowLogits logits.length args (d.put keysIn flag) =
        .ok (d.put ((logits.map (scaled A args.temperature)).map some) flag') ∧
      (flag' = 0 ↔ (wide || logits.any fun value =>
        needsWide value (scaled A args.temperature value)) = false) := by
  let results := logits.map (scaled A args.temperature)
  let raises (value : Extended R) := needsWide value (scaled A args.temperature value)
  have hresults : results.length = logits.length := List.length_map ..
  have hstep : ∀ i < logits.length, ∀ d',
      (∃ f, d' = d.put (keysIn.filledTo results i) f ∧
        (f = 0 ↔ (wide || (logits.take i).any raises) = false)) →
      ∃ d'', scaleThread A source rowLogits args i d' = .ok d'' ∧
        ∃ f, d'' = d.put (keysIn.filledTo results (i + 1)) f ∧
          (f = 0 ↔ (wide || (logits.take (i + 1)).any raises) = false) := by
    rintro i hi d' ⟨f, rfl, hf⟩
    have hwrite := Cells.write_filledTo (hresults ▸ hi) (hresults.trans hkeys)
    rw [show results[i] = scaled A args.temperature logits[i] from List.getElem_map ..] at hwrite
    refine ⟨_, ?_, if raises logits[i] then 1 else f, rfl, ?_⟩
    · rw [scaleThread, readLogit_filledTo hreads hi hresults, ok_bind]
      dsimp only
      rw [requireWideIf_put hlimits, ok_bind]
      dsimp only [Device.put]
      rw [hwrite]
      rfl
    · rw [List.take_succ_eq_append_getElem hi, List.any_append, List.any_cons,
        List.any_nil, Bool.or_false, ← Bool.or_assoc]
      exact flag_raise hf
  obtain ⟨d', hrun, f, rfl, hf⟩ := launch_invariant hle hstep (d := d.put keysIn flag)
    ⟨flag, rfl, by simpa using hflag⟩
  rw [List.take_length] at hf
  rw [← hresults, Cells.filledTo_length (hresults.trans hkeys), hresults] at hrun
  exact ⟨f, hrun, hf⟩

/-- The number of tokens that the filters keep. -/
def keptTokens (args : RowArguments R) (keysOut : List (Extended R)) : ℕ :=
  if args.topP < 1 then
    A.topPCutoff (keysOut.take (A.topKLimit keysOut args.topK)) args.topP
  else A.topKLimit keysOut args.topK

theorem keptTokens_le {keysOut : List (Extended R)} (hlimit : args.topK ≤ keysOut.length) :
    keptTokens A args keysOut ≤ keysOut.length := by
  have htopK := A.topKLimit_le keysOut args.topK hlimit
  rw [keptTokens]
  split
  · exact (A.topPCutoff_le _ _).trans ((List.length_take_le' ..))
  · exact htopK

variable (args) in
/-- The filters. -/
theorem topPCutoffKernel_eq (keysOut : List (Extended R)) (hkeysOut : d.keysOut = keysOut.map some)
    (hlimits : d.limits.length = 3) (hlimit : args.topK ≤ keysOut.length) :
    (topKLimitKernel A keysOut.length args d >>= topPCutoffKernel A args) = .ok { d with
      limits := (d.limits.set 0 (some (A.topKLimit keysOut args.topK))).set 1
        (some (keptTokens A args keysOut)) } := by
  have htopK := A.topKLimit_le keysOut args.topK hlimit
  have hactive : 0 < d.limits.length := by omega
  have hcutoff : 1 < (d.limits.set 0 (some (A.topKLimit keysOut args.topK))).length := by
    rw [List.length_set, hlimits]
    omega
  rw [topKLimitKernel, hkeysOut, Cells.readFirst_filled le_rfl, ok_bind, List.take_length,
    Cells.write_of_lt _ hactive, ok_bind]
  change topPCutoffKernel A args _ = _
  rw [topPCutoffKernel]
  dsimp only
  rw [Cells.read_set _ hactive, ok_bind, keptTokens]
  split
  · rw [Cells.readFirst_filled htopK, ok_bind, Cells.write_of_lt _ hcutoff]
    rfl
  · rw [Cells.write_of_lt _ hcutoff]
    rfl

variable (args) in
/-- The draw from all tokens, and the flag that it may set. -/
theorem categoricalKernel_eq {source : LogitSource} (hlimits : d.limits.length = 3)
    (hreads : Reads source rowLogits keysIn logits) (hflag : flag = 0 ↔ wide = false)
    (hrow : row < d.selectedTokens.length) :
    ∃ flag', categoricalKernel A source rowLogits logits.length args row (d.put keysIn flag) =
        .ok { d.put keysIn flag' with
          selectedTokens := d.selectedTokens.set row (some (A.draw
            (logits.map (scaled A args.temperature)) (List.range logits.length) args.rowSeed)) } ∧
      (flag' = 0 ↔ (wide || logits.any fun value =>
        needsWide value (scaled A args.temperature value)) = false) := by
  let raised := logits.any fun value => needsWide value (scaled A args.temperature value)
  refine ⟨if raised then 1 else flag, ?_, flag_raise hflag⟩
  rw [categoricalKernel, readLogits_eq hreads rfl, ok_bind]
  dsimp only
  rw [requireWideIf_put hlimits, ok_bind]
  change (d.selectedTokens.write row _ >>= _) = _
  rw [Cells.write_of_lt _ hrow]
  rfl

end Kernels

end VllmOxide.Sampler
