import VllmOxide.Sampler.RowKernels

/-!
# The loop over the rows of a batch

The loop body of `vllm_oxide_sample_f32` selects `rowToken`, whatever the buffers held before: every
cell that a kernel reads was written before, by the same row or, for the histories, by the copies at
the start of the call. So the loop selects the token of every row, and it still does if the scratch
buffers, and the histories of the rows that are done, lose their values before each row.

## Main definitions

* `RowReady`: what a row finds when its turn comes.
* `SelectsRows`: a loop body that selects the token of each row.
* `forgetfulRow`: the loop body on a device that lost what earlier rows and calls left.

## Main results

* `sampleRow_eq`: the loop body selects `rowToken`.
* `selectsRows_sampleRow`, `selectsRows_forgetfulRow`: with and without what earlier rows left.
* `sampleRows_eq`: the loop selects the token of every row.
-/

namespace VllmOxide.Sampler

open Extended

variable {R D : Type} [Field R] [LinearOrder R]

/-! ### One row -/

/-- What a row finds when its turn comes: the buffers of a workspace for the vocabulary, its own
history among the copied ones, and parameters that passed the guard. -/
structure RowReady (d : Device R D) (rowLogits : List (Extended R)) (vocabSize : ℕ)
    (args : RowArguments R) (history : List (ℕ × ℕ)) (row : ℕ) : Prop where
  wellSized : d.toWorkspace.WellSized
  vocab : d.vocabSize = vocabSize
  vocab_le : vocabSize ≤ I32_MAX
  length : rowLogits.length = vocabSize
  topK : args.topK ≤ vocabSize
  holds : HoldsHistory d args history
  tokens : ∀ counted ∈ history, counted.1 < vocabSize
  counted_le : history.length ≤ vocabSize
  selected : row < d.selectedTokens.length

section Row

variable (A : DeviceArithmetic R D) {d : Device R D} {args : RowArguments R}
  {history : List (ℕ × ℕ)} {keysIn : Cells (Extended R)} {flag row vocabSize : ℕ} {wide : Bool}
  {rowLogits logits : List (Extended R)}

/-- The filtered draw. -/
theorem sampleFiltered_eq (h : RowReady d rowLogits vocabSize args history row)
    {source : LogitSource} (hreads : Reads source rowLogits keysIn logits)
    (hkeys : keysIn.length = d.keysIn.length) (hlength : logits.length = vocabSize)
    (hflag : flag = 0 ↔ wide = false) :
    ∃ d', sampleFiltered A source rowLogits vocabSize args row (d.put keysIn flag) = .ok d' ∧
      Scratched d d' ∧ d'.selectedTokens = d.selectedTokens.set row
        (some (filteredToken A rowLogits vocabSize args history logits wide)) := by
  have hkeysIn : keysIn.length = vocabSize := by rw [hkeys, h.wellSized.keysIn, h.vocab]
  obtain ⟨flag', hscale, hflag'⟩ := scaleTemperatureKernel_eq A args h.wellSized.limits
    hreads (hlength.trans hkeysIn.symm) (hlength ▸ h.vocab_le) hflag
  rw [hlength] at hscale
  let results := logits.map (scaled A args.temperature)
  have hresults : results.length = vocabSize := (List.length_map ..).trans hlength
  let scaledDevice := d.put (results.map some) flag'
  have hscaled : HoldsHistory scaledDevice args history := ⟨h.holds.length, h.holds.tokens, h.holds.counts⟩
  have hread : scaledDevice.limits.read 2 = .ok flag' := read_flag h.wellSized.limits
  obtain ⟨w, hmax, hw, hmaximum⟩ := wideMaxKernel_eq A rowLogits hread hscaled
    h.wellSized.wideMaximum
  let maximumDevice := { scaledDevice with wideMaximum := w }
  let keys := if flag' = 0 then results else (List.range vocabSize).map
    (A.normalize rowLogits history args.penalties args.temperature
      (A.wideMaximum rowLogits history args.penalties))
  have hnormalize : normalizeWideKernel A rowLogits vocabSize args maximumDevice =
      .ok { maximumDevice with keysIn := keys.map some } :=
    normalizeWideKernel_eq A (d := maximumDevice) hread ⟨h.holds.length, h.holds.tokens, h.holds.counts⟩ h.vocab_le
      hmaximum rfl hresults
  have hkeysLength : keys.length = vocabSize := by
    simp only [keys]
    split
    · exact hresults
    · rw [List.length_map, List.length_range]
  have hinit := initTokenIndicesKernel_eq (d := { maximumDevice with keysIn := keys.map some })
    h.vocab_le (h.wellSized.idsIn.trans h.vocab)
  have hsort := sortKernel_eq A (d := { maximumDevice with
    keysIn := keys.map some
    idsIn := (List.range vocabSize).map some }) rfl rfl hkeysLength List.length_range
    (h.wellSized.keysOut.trans h.vocab) (h.wellSized.idsOut.trans h.vocab)
  let sorted := A.sortPairs (keys.zip (List.range vocabSize))
  let keysOut := sorted.map Prod.fst
  let idsOut := sorted.map Prod.snd
  have hsorted : sorted.length = vocabSize := by
    rw [A.length_sortPairs, List.length_zip, hkeysLength, List.length_range, min_self]
  have hkeysOut : keysOut.length = vocabSize := (List.length_map ..).trans hsorted
  have hidsOut : idsOut.length = vocabSize := (List.length_map ..).trans hsorted
  let sortedDevice := { maximumDevice with
    keysIn := keys.map some
    idsIn := (List.range vocabSize).map some
    keysOut := keysOut.map some
    idsOut := idsOut.map some }
  have hlimits : sortedDevice.limits.length = 3 := (List.length_set ..).trans h.wellSized.limits
  have hfilter := topPCutoffKernel_eq A args (d := sortedDevice) keysOut rfl
    hlimits (hkeysOut ▸ h.topK)
  rw [hkeysOut] at hfilter
  have hkept : keptTokens A args keysOut ≤ keysOut.length := keptTokens_le A (hkeysOut ▸ h.topK)
  have hlimitsSet : 1 < (sortedDevice.limits.set 0 (some (A.topKLimit keysOut args.topK))).length := by
    rw [List.length_set, hlimits]
    omega
  have hdraw := filteredDrawKernel_eq A args row
    (d := { sortedDevice with
      limits := (sortedDevice.limits.set 0 (some (A.topKLimit keysOut args.topK))).set 1
        (some (keptTokens A args keysOut)) })
    (Cells.read_set _ hlimitsSet) rfl rfl hkept (by rwa [hidsOut, ← hkeysOut]) h.selected
  have htoken : filteredToken A rowLogits vocabSize args history logits wide =
      A.draw (keysOut.take (keptTokens A args keysOut)) (idsOut.take (keptTokens A args keysOut))
        args.rowSeed := by
    simp only [filteredToken, keptTokens, keysOut, idsOut, sorted, keys, results, hflag',
      ← Bool.not_eq_true, ite_not]
  have hrun : sampleFiltered A source rowLogits vocabSize args row (d.put keysIn flag) =
      filteredDrawKernel A args row { sortedDevice with
        limits := (sortedDevice.limits.set 0 (some (A.topKLimit keysOut args.topK))).set 1
          (some (keptTokens A args keysOut)) } := by
    rw [sampleFiltered, hscale, ok_bind, hmax, ok_bind, hnormalize, ok_bind, hinit, ok_bind, hsort,
      ok_bind]
    exact (bind_assoc ..).symm.trans (congrArg (· >>= _) hfilter)
  rw [htoken]
  refine ⟨_, hrun.trans hdraw, ⟨fun hd => ?_, rfl, rfl, rfl, rfl⟩, rfl⟩
  exact {
    keysIn := (List.length_map ..).trans (hkeysLength.trans h.vocab.symm)
    keysOut := (List.length_map ..).trans (hkeysOut.trans h.vocab.symm)
    idsIn := (List.length_map ..).trans (List.length_range.trans h.vocab.symm)
    idsOut := (List.length_map ..).trans (hidsOut.trans h.vocab.symm)
    limits := by simp only [List.length_set, hlimits]
    wideMaximum := hw
    historyTokens := hd.historyTokens
    historyCounts := hd.historyCounts }

omit [Field R] [LinearOrder R] in
/-- The fallback after a token was written: it stands if the flag is not set. -/
theorem selectWideKernel_written (h : RowReady d rowLogits vocabSize args history row)
    (hkeys : keysIn.length = d.keysIn.length) (hflag : flag = 0 ↔ wide = false) (greedy : Bool)
    (token : ℕ) :
    ∃ d', selectWideKernel A rowLogits args greedy row { d.put keysIn flag with
        selectedTokens := d.selectedTokens.set row (some token) } = .ok d' ∧ Scratched d d' ∧
      d'.selectedTokens = d.selectedTokens.set row (some (if wide then
        A.selectWide rowLogits history args.penalties args.temperature greedy args.rowSeed
        else token)) := by
  have hselected : row < (d.selectedTokens.set row (some token)).length := by
    rw [List.length_set]
    exact h.selected
  have hrun := selectWideKernel_eq A rowLogits (d := { d.put keysIn flag with
    selectedTokens := d.selectedTokens.set row (some token) }) (read_flag h.wellSized.limits)
    ⟨h.holds.length, h.holds.tokens, h.holds.counts⟩ greedy hselected
  have hscratched := scratched_put hkeys flag
  refine ⟨_, hrun, ⟨hscratched.wellSized, rfl, rfl, rfl, rfl⟩, ?_⟩
  cases wide with
  | false => exact if_pos (hflag.mpr rfl)
  | true => exact (if_neg fun hzero => Bool.noConfusion (hflag.mp hzero)).trans (List.set_set ..)

/-- **The loop body.** A row selects its own token, and touches nothing but scratch cells and its
place among the selected tokens. -/
theorem sampleRow_eq (h : RowReady d rowLogits vocabSize args history row) :
    ∃ d', sampleRow A rowLogits vocabSize args row d = .ok d' ∧ Scratched d d' ∧
      d'.selectedTokens =
        d.selectedTokens.set row (some (rowToken A rowLogits vocabSize args history)) := by
  have hreset : (if args.subnormalDivisor then 16843009 else 0) = 0 ↔
      args.subnormalDivisor = false := by
    cases args.subnormalDivisor <;> simp
  have hcells : d.keysIn.length = rowLogits.length := by
    rw [h.wellSized.keysIn, h.vocab, h.length]
  obtain ⟨source, keysIn, flag, hpenalize, hkeys, hreads, hlogits, hflag⟩ :=
    penalizeOnDevice_eq A hcells h.wellSized.limits h.holds (h.length ▸ h.tokens)
      (h.counted_le.trans h.vocab_le) hreset
  have hlength := hlogits.trans h.length
  rw [sampleRow, resetWide_eq h.wellSized.limits, ok_bind, hpenalize, ok_bind]
  dsimp only
  rw [rowToken]
  split
  · obtain ⟨d', hwide, hscratched, hselected⟩ := selectWideKernel_written A h hkeys hflag true
      (greedyArgmaxKernel (penalizedLogits A rowLogits args history).1)
    refine ⟨d', ?_, hscratched, hselected⟩
    rw [readLogits_eq hreads hlength, ok_bind, writeGreedy]
    change (d.selectedTokens.write row _ >>= _) >>= _ = _
    rw [Cells.write_of_lt _ h.selected]
    exact hwide
  · split
    · obtain ⟨flag', hdraw, hflag'⟩ := categoricalKernel_eq A args h.wellSized.limits hreads
        hflag h.selected
      rw [hlength] at hdraw
      obtain ⟨d', hwide, hscratched, hselected⟩ := selectWideKernel_written A h hkeys hflag' false
        (A.draw ((penalizedLogits A rowLogits args history).1.map (scaled A args.temperature))
          (List.range vocabSize) args.rowSeed)
      refine ⟨d', ?_, hscratched, hselected⟩
      rw [hdraw, ok_bind]
      exact hwide
    · exact sampleFiltered_eq A h hreads hkeys hlength hflag

end Row

/-! ### The rows of a batch -/

/-- What a row may change for the rows after it, whose histories start at an offset. -/
structure Passes (offset : ℕ) (d d' : Device R D) : Prop where
  wellSized : d.toWorkspace.WellSized → d'.toWorkspace.WellSized
  vocabSize : d'.vocabSize = d.vocabSize
  historyTokens : ∀ i, offset ≤ i → d'.historyTokens.read i = d.historyTokens.read i
  historyCounts : ∀ i, offset ≤ i → d'.historyCounts.read i = d.historyCounts.read i

omit [Field R] [LinearOrder R] in
theorem Scratched.passes {d d' : Device R D} (h : Scratched d d') (offset : ℕ) :
    Passes offset d d' where
  wellSized := h.wellSized
  vocabSize := h.vocabSize
  historyTokens i _ := by rw [h.historyTokens]
  historyCounts i _ := by rw [h.historyCounts]

omit [Field R] [LinearOrder R] in
theorem Passes.trans {offset offset' : ℕ} {d d' d'' : Device R D} (h : Passes offset d d')
    (h' : Passes offset' d' d'') (hle : offset ≤ offset') : Passes offset' d d'' where
  wellSized hd := h'.wellSized (h.wellSized hd)
  vocabSize := h'.vocabSize.trans h.vocabSize
  historyTokens i hi := (h'.historyTokens i hi).trans (h.historyTokens i (hle.trans hi))
  historyCounts i hi := (h'.historyCounts i hi).trans (h.historyCounts i (hle.trans hi))

omit [Field R] [LinearOrder R] in
/-- A row is as ready after the rows before it as it was before them. -/
theorem RowReady.passes {d d' : Device R D} {rowLogits : List (Extended R)} {vocabSize row : ℕ}
    {args : RowArguments R} {history : List (ℕ × ℕ)}
    (h : RowReady d rowLogits vocabSize args history row) {offset : ℕ} (hpasses : Passes offset d d')
    (hle : offset ≤ args.historyBegin)
    (hselected : d'.selectedTokens.length = d.selectedTokens.length) :
    RowReady d' rowLogits vocabSize args history row where
  wellSized := hpasses.wellSized h.wellSized
  vocab := hpasses.vocabSize.trans h.vocab
  vocab_le := h.vocab_le
  length := h.length
  topK := h.topK
  holds := {
    length := h.holds.length
    tokens := fun i hi => (hpasses.historyTokens _ (by omega)).trans (h.holds.tokens i hi)
    counts := fun i hi => (hpasses.historyCounts _ (by omega)).trans (h.holds.counts i hi) }
  tokens := h.tokens
  counted_le := h.counted_le
  selected := hselected ▸ h.selected

/-- A loop body that selects the token of each row. -/
def SelectsRows (A : DeviceArithmetic R D) (body : RowBody R D) : Prop :=
  ∀ (d : Device R D) (rowLogits : List (Extended R)) (vocabSize : ℕ) (args : RowArguments R)
    (history : List (ℕ × ℕ)) (row : ℕ), RowReady d rowLogits vocabSize args history row →
    ∃ d', body rowLogits vocabSize args row d = .ok d' ∧
      Passes (args.historyBegin + args.historyLength) d d' ∧
      d'.selectedTokens =
        d.selectedTokens.set row (some (rowToken A rowLogits vocabSize args history))

theorem selectsRows_sampleRow (A : DeviceArithmetic R D) : SelectsRows A (sampleRow A) := by
  intro d rowLogits vocabSize args history row h
  obtain ⟨d', hrun, hscratched, hselected⟩ := sampleRow_eq A h
  exact ⟨d', hrun, hscratched.passes _, hselected⟩

/-- A device that lost all scratch values, and the histories of the rows before a row. -/
def Device.forget (d : Device R D) (args : RowArguments R) : Device R D :=
  { d with
    keysIn := d.keysIn.forgetFirst d.keysIn.length
    keysOut := d.keysOut.forgetFirst d.keysOut.length
    idsIn := d.idsIn.forgetFirst d.idsIn.length
    idsOut := d.idsOut.forgetFirst d.idsOut.length
    limits := d.limits.forgetFirst d.limits.length
    wideMaximum := d.wideMaximum.forgetFirst d.wideMaximum.length
    historyTokens := d.historyTokens.forgetFirst args.historyBegin
    historyCounts := d.historyCounts.forgetFirst args.historyBegin }

omit [Field R] [LinearOrder R] in
theorem passes_forget (d : Device R D) (args : RowArguments R) :
    Passes args.historyBegin d (d.forget args) where
  wellSized h := {
    keysIn := (Cells.length_forgetFirst ..).trans h.keysIn
    keysOut := (Cells.length_forgetFirst ..).trans h.keysOut
    idsIn := (Cells.length_forgetFirst ..).trans h.idsIn
    idsOut := (Cells.length_forgetFirst ..).trans h.idsOut
    limits := (Cells.length_forgetFirst ..).trans h.limits
    wideMaximum := (Cells.length_forgetFirst ..).trans h.wideMaximum
    historyTokens := (Cells.length_forgetFirst ..).trans h.historyTokens
    historyCounts := (Cells.length_forgetFirst ..).trans h.historyCounts }
  vocabSize := rfl
  historyTokens _ hi := Cells.read_forgetFirst hi
  historyCounts _ hi := Cells.read_forgetFirst hi

/-- The loop body on a device that lost what earlier rows and calls left in it. -/
def forgetfulRow (A : DeviceArithmetic R D) : RowBody R D :=
  fun rowLogits vocabSize args row d => sampleRow A rowLogits vocabSize args row (d.forget args)

theorem selectsRows_forgetfulRow (A : DeviceArithmetic R D) : SelectsRows A (forgetfulRow A) := by
  intro d rowLogits vocabSize args history row h
  have hforget := passes_forget d args
  obtain ⟨d', hrun, hscratched, hselected⟩ := sampleRow_eq A (h.passes hforget le_rfl rfl)
  exact ⟨d', hrun, hforget.trans (hscratched.passes _) (Nat.le_add_right _ _), hselected⟩

/-! ### The loop over the rows -/

/-- The tokens of the rows. -/
def batchTokens (A : DeviceArithmetic R D) (rows : List (List (Extended R) × RowArguments R))
    (vocabSize : ℕ) (entries : List (List (ℕ × ℕ))) : List ℕ :=
  rows.mapIdx fun row item => rowToken A item.1 vocabSize item.2 (entries.getD row [])

/-- **The loop.** If every row finds its history, and the histories stand in the order of the rows,
every row selects its own token. -/
theorem sampleRows_eq {A : DeviceArithmetic R D} {body : RowBody R D} (hbody : SelectsRows A body)
    {rows : List (List (Extended R) × RowArguments R)} {vocabSize : ℕ}
    {entries : List (List (ℕ × ℕ))} {d : Device R D} (offset : ℕ → ℕ)
    (hready : ∀ row item, rows[row]? = some item →
      RowReady d item.1 vocabSize item.2 (entries.getD row []) row ∧
      item.2.historyBegin = offset row ∧
      item.2.historyBegin + item.2.historyLength = offset (row + 1))
    (hselected : d.selectedTokens.length = rows.length) :
    ∃ d', sampleRows body rows vocabSize d = .ok d' ∧
      (d.toWorkspace.WellSized → d'.toWorkspace.WellSized) ∧
      d'.selectedTokens = (batchTokens A rows vocabSize entries).map some := by
  have hlength : (batchTokens A rows vocabSize entries).length = d.selectedTokens.length := by
    rw [batchTokens, List.length_mapIdx, hselected]
  let P (row : ℕ) (s : Device R D) : Prop := Passes (offset row) d s ∧
    s.selectedTokens = d.selectedTokens.filledTo (batchTokens A rows vocabSize entries) row
  have hstep : ∀ row item, rows[row]? = some item → ∀ s, P row s →
      ∃ s', body item.1 vocabSize item.2 row s = .ok s' ∧ P (row + 1) s' := by
    rintro row item hitem s ⟨hpasses, htokens⟩
    obtain ⟨hrow, hbegin, hend⟩ := hready row item hitem
    have hlt : row < (batchTokens A rows vocabSize entries).length := by
      rw [hlength, hselected]
      exact (List.getElem?_eq_some_iff.mp hitem).1
    have hfilled : s.selectedTokens.length = d.selectedTokens.length := by
      rw [htokens, Cells.length_filledTo hlength]
    obtain ⟨s', hrun, hnext, htoken⟩ := hbody s _ _ _ _ _ (hrow.passes hpasses hbegin.ge hfilled)
    refine ⟨s', hrun, hend ▸ hpasses.trans hnext (by omega), ?_⟩
    have hset := Cells.write_filledTo hlt hlength
    rw [Cells.write_of_lt _ (by rwa [Cells.length_filledTo hlength, ← hlength])] at hset
    have hget : (batchTokens A rows vocabSize entries)[row] =
        rowToken A item.1 vocabSize item.2 (entries.getD row []) := by
      simp [batchTokens, (List.getElem?_eq_some_iff.mp hitem).2]
    rw [htoken, htokens, ← hget]
    exact Except.ok.inj hset
  obtain ⟨d', hrun, hpasses, htokens⟩ := foldlM_zipIdx_invariant
    (fun s (indexed : (List (Extended R) × RowArguments R) × ℕ) =>
      body indexed.1.1 vocabSize indexed.1.2 indexed.2 s) hstep
    ⟨⟨id, rfl, fun _ _ => rfl, fun _ _ => rfl⟩, rfl⟩
  refine ⟨d', hrun, hpasses.wellSized, ?_⟩
  rw [htokens, ← Cells.filledTo_length hlength, hlength, hselected]

end VllmOxide.Sampler
