import Mathlib.Data.List.Sort
import VllmOxide.Sampler.History
import VllmOxide.Sampler.RowLoop

/-!
# Rows are sampled in isolation

A call on a batch prepares the arguments and the histories of its rows, makes the workspace fit, and
samples the rows. It runs without fault from a workspace in which nothing was ever written, and the
token of a row is the one that is selected for the row alone, in any other workspace.

## Main definitions

* `PreparedRows`: the arrays of an accepted batch.
* `LogitTensor.row`: a batch of one row.

## Main results

* `sampleF32_eq`: a call selects the token of every row, on either path.
* `forward_isolated`: a call on a batch and the calls on its rows alone.
-/

namespace VllmOxide.Sampler

open Extended

variable {R D : Type} [Field R] [LinearOrder R]

/-! ### The arrays of an accepted batch -/

/-- The arguments with which the kernels of a row are launched. -/
def SamplingParams.rowArguments (params : SamplingParams R)
    (vocab historyBegin historyLength rowSeed : ℕ) : RowArguments R where
  temperature := params.temperature
  topK := min (params.topK.getD vocab) vocab
  topP := params.topP.getD 1
  penalties := ⟨params.presencePenalty, params.frequencyPenalty, params.repetitionPenalty⟩
  historyBegin := historyBegin
  historyLength := historyLength
  rowSeed := rowSeed

/-- The arrays of an accepted batch, row by row. -/
structure PreparedRows (vocab : ℕ) (batch : List (SamplingParams R × List ℕ))
    (prepared : PreparedBatch R) (entries : List (List (ℕ × ℕ))) : Prop
    extends Flattened vocab batch prepared entries where
  accepted : List.Forall₂ (fun row counts =>
    row.1.validate = .ok () ∧ rowCounts 0 vocab row.1 row.2 = .ok counts) batch entries
  temperatures : prepared.temperatures = batch.map fun row => row.1.temperature
  topKs : prepared.topKs = batch.map fun row => min (row.1.topK.getD vocab) vocab
  topPs : prepared.topPs = batch.map fun row => row.1.topP.getD 1
  presencePenalties : prepared.presencePenalties = batch.map fun row => row.1.presencePenalty
  frequencyPenalties : prepared.frequencyPenalties = batch.map fun row => row.1.frequencyPenalty
  repetitionPenalties : prepared.repetitionPenalties = batch.map fun row => row.1.repetitionPenalty
  tokens_le : prepared.historyTokens.length ≤ U32_MAX

theorem tryU32_of_le {n : ℕ} {message : String} (h : n ≤ U32_MAX) : tryU32 n message = .ok n :=
  if_pos h

theorem countOrdered_row {row row' token : ℕ} {counts counts' : List (ℕ × ℕ)}
    (h : countOrdered row token counts = .ok counts') :
    countOrdered row' token counts = .ok counts' := by
  induction counts generalizing counts' with
  | nil => exact h
  | cons first rest ih =>
    obtain ⟨t, n⟩ := first
    rw [countOrdered] at h ⊢
    split_ifs at h ⊢
    · exact h
    · exact h
    · obtain ⟨rest', hrest, h⟩ := exists_of_bind_ok h
      rw [ih hrest]
      exact h

/-- The counts of a row do not depend on where in the batch it stands. -/
theorem rowCounts_row {row row' vocab : ℕ} {params : SamplingParams R} {history : List ℕ}
    {counts : List (ℕ × ℕ)} (h : rowCounts row vocab params history = .ok counts) :
    rowCounts row' vocab params history = .ok counts := by
  rw [rowCounts] at h ⊢
  split_ifs at h ⊢
  · rw [orderedCounts] at h ⊢
    clear * - h
    generalize [] = start at h ⊢
    induction history generalizing start with
    | nil => exact h
    | cons token rest ih =>
      rw [List.foldlM_cons] at h ⊢
      obtain ⟨next, hnext, h⟩ := exists_of_bind_ok h
      have hnext' : (if token < vocab then countOrdered row' token start else pure start) =
          .ok next := by
        split_ifs at hnext ⊢
        · exact countOrdered_row hnext
        · exact hnext
      rw [hnext']
      exact ih _ h
  · exact h

/-- An accepted batch is prepared row by row. -/
theorem preparedRows_prepareBatch {debug : Extended R → String} {params : List (SamplingParams R)}
    {tokenHistory : List (List ℕ)} {vocab : ℕ} {prepared : PreparedBatch R}
    (h : prepareBatch debug params tokenHistory vocab = .ok prepared) :
    ∃ entries, PreparedRows vocab (params.zip tokenHistory) prepared entries := by
  refine prepareBatch_invariant
    (fun rows prepared => ∃ entries, PreparedRows vocab rows prepared entries)
    ⟨[], flattened_initial vocab, .nil, rfl, rfl, rfl, rfl, rfl, rfl, Nat.zero_le _⟩ ?_ h
  rintro rows before rowParams history after ⟨entries, hentries⟩ hrow
  obtain ⟨counts, hcounts, hsnoc⟩ := hentries.toFlattened.snoc hrow
  obtain ⟨hvalid, counts', -, hle, rfl⟩ := prepareRow_ok hrow
  refine ⟨entries ++ [counts], hsnoc, ?_, ?_, ?_, ?_, ?_, ?_, ?_, hle⟩
  · exact List.rel_append hentries.accepted (.cons ⟨hvalid, rowCounts_row hcounts⟩ .nil)
  · simp [hentries.temperatures]
  · simp [hentries.topKs]
  · simp [hentries.topPs]
  · simp [hentries.presencePenalties]
  · simp [hentries.frequencyPenalties]
  · simp [hentries.repetitionPenalties]

theorem AscendingCounts.length_le {vocab : ℕ} {history : List ℕ} {counts : List (ℕ × ℕ)}
    (h : AscendingCounts vocab history counts) : counts.length ≤ vocab := by
  have hsubset : counts.map Prod.fst ⊆ List.range vocab := fun token htoken => by
    obtain ⟨counted, hmem, rfl⟩ := List.mem_map.mp htoken
    exact List.mem_range.mpr ((h.mem_iff _ _).mp hmem).1
  have hle := (List.subperm_of_subset (h.ascending.imp ne_of_lt) hsubset).length_le
  rwa [List.length_map, List.length_range] at hle

omit [Field R] [LinearOrder R] in
theorem hostRead_of_getElem? {α : Type} {values : List α} {i : ℕ} {v : α}
    (h : values[i]? = some v) : hostRead values i = .ok v :=
  Cells.read_of_getElem? (by rw [List.getElem?_map, h]; rfl)

namespace PreparedRows

variable {vocab row rowSeed : ℕ} {batch : List (SamplingParams R × List ℕ)}
  {prepared : PreparedBatch R} {entries : List (List (ℕ × ℕ))} {params : SamplingParams R}
  {history : List ℕ} {counts : List (ℕ × ℕ)}

theorem length_entries (h : PreparedRows vocab batch prepared entries) :
    entries.length = batch.length :=
  h.rows.length_eq.symm

/-- The entry of a row. -/
theorem exists_counts (h : PreparedRows vocab batch prepared entries)
    (hrow : batch[row]? = some (params, history)) :
    ∃ counts, entries[row]? = some counts ∧ params.validate = .ok () ∧
      rowCounts 0 vocab params history = .ok counts ∧
      AscendingCounts vocab (penalizedHistory params history) counts := by
  have hlt : row < entries.length := by
    rw [h.length_entries]
    exact (List.getElem?_eq_some_iff.mp hrow).1
  obtain ⟨owner, howner, hvalid, hcounts⟩ :=
    getElem?_of_forall₂ h.accepted (List.getElem?_eq_getElem hlt)
  obtain rfl := Option.some.inj (hrow.symm.trans howner)
  exact ⟨entries[row], List.getElem?_eq_getElem hlt, hvalid, hcounts,
    ascendingCounts_rowCounts hcounts⟩

theorem getElem?_offsets (h : PreparedRows vocab batch prepared entries)
    (hrow : row ≤ entries.length) :
    prepared.historyOffsets[row]? = some (prepared.historyBegin row) := by
  have hlt : row < prepared.historyOffsets.length := by
    rw [h.offsets, List.length_map, List.length_range]
    omega
  rw [PreparedBatch.historyBegin, List.getD_eq_getElem?_getD, List.getElem?_eq_getElem hlt,
    Option.getD_some]

/-- The part of a row ends where the part of the next row begins. -/
theorem begin_add_length (h : PreparedRows vocab batch prepared entries)
    (hcounts : entries[row]? = some counts) :
    prepared.historyBegin row + counts.length = prepared.historyBegin (row + 1) := by
  have hlt := (List.getElem?_eq_some_iff.mp hcounts).1
  have hlength := (h.toFlattened.part hcounts).1
  have hmono : prepared.historyBegin row ≤ prepared.historyBegin (row + 1) := by
    rw [PreparedBatch.historyBegin, PreparedBatch.historyBegin, h.toFlattened.offset hlt.le,
      h.toFlattened.offset hlt, List.take_add_one, List.flatten_append, List.length_append]
    exact Nat.le_add_right _ _
  rw [PreparedBatch.historyLength] at hlength
  change prepared.historyBegin (row + 1) - _ = _ at hlength
  omega

/-- The kernels of a row get its own parameters and the place of its own history. -/
theorem rowArguments_eq (h : PreparedRows vocab batch prepared entries)
    (hrow : batch[row]? = some (params, history)) (hcounts : entries[row]? = some counts)
    {rowSeeds : List ℕ} (hseed : rowSeeds[row]? = some rowSeed) :
    rowArguments prepared rowSeeds row = .ok
      (params.rowArguments vocab (prepared.historyBegin row) counts.length rowSeed) := by
  have hlt := (List.getElem?_eq_some_iff.mp hcounts).1
  have hget {α : Type} (f : SamplingParams R × List ℕ → α) :
      (batch.map f)[row]? = some (f (params, history)) := by rw [List.getElem?_map, hrow]; rfl
  have hlength : prepared.historyBegin (row + 1) - prepared.historyBegin row = counts.length := by
    rw [← h.begin_add_length hcounts, Nat.add_sub_cancel_left]
  rw [rowArguments, h.temperatures, h.topKs, h.topPs, h.presencePenalties, h.frequencyPenalties,
    h.repetitionPenalties, hostRead_of_getElem? (hget _), ok_bind, hostRead_of_getElem? (hget _),
    ok_bind, hostRead_of_getElem? (hget _), ok_bind, hostRead_of_getElem? (hget _), ok_bind,
    hostRead_of_getElem? (hget _), ok_bind, hostRead_of_getElem? (hget _), ok_bind,
    hostRead_of_getElem? (h.getElem?_offsets hlt.le), ok_bind,
    hostRead_of_getElem? (h.getElem?_offsets hlt), ok_bind, hostRead_of_getElem? hseed, ok_bind,
    hlength]
  rfl

/-- A row of an accepted batch is accepted alone. -/
theorem alone (h : PreparedRows vocab batch prepared entries) (hvocab : vocab ≤ U32_MAX)
    (hrow : batch[row]? = some (params, history)) (hcounts : entries[row]? = some counts)
    (debug : Extended R → String) :
    ∃ prepared', prepareBatch debug [params] [history] vocab = .ok prepared' ∧
      PreparedRows vocab [(params, history)] prepared' [counts] := by
  obtain ⟨counts', hcounts', hvalid, hown, hascending⟩ := h.exists_counts hrow
  obtain rfl := Option.some.inj (hcounts.symm.trans hcounts')
  have htopK : min (params.topK.getD vocab) vocab ≤ U32_MAX := (min_le_right _ _).trans hvocab
  have hlength : (([] : List ℕ) ++ counts.map Prod.fst).length ≤ U32_MAX := by
    rw [List.nil_append, List.length_map]
    exact hascending.length_le.trans hvocab
  obtain ⟨prepared', hprepare⟩ : ∃ prepared',
      prepareRow debug vocab .initial 0 params history = .ok prepared' := by
    rw [prepareRow, hvalid]
    dsimp only
    rw [tryU32_of_le htopK, ok_bind, hown, ok_bind, PreparedBatch.initial]
    dsimp only
    rw [tryU32_of_le hlength]
    exact ⟨_, rfl⟩
  have hbatch : prepareBatch debug [params] [history] vocab = .ok prepared' := by
    rw [prepareBatch, tryU32_of_le hvocab, ok_bind]
    change (prepareRow debug vocab .initial 0 params history >>= pure) = _
    rw [bind_pure, hprepare]
  obtain ⟨entries', hentries⟩ := preparedRows_prepareBatch hbatch
  have hfirst : [(params, history)][0]? = some (params, history) := rfl
  obtain ⟨alone, halone, -, hcountsAlone, -⟩ := hentries.exists_counts hfirst
  obtain rfl := Except.ok.inj (hown.symm.trans hcountsAlone)
  obtain ⟨entry, rfl⟩ := List.length_eq_one_iff.mp hentries.length_entries
  obtain rfl := Option.some.inj halone
  exact ⟨prepared', hbatch, hentries⟩

end PreparedRows

/-! ### The tokens of a call -/

/-- What the kernels of all rows are launched with. -/
def launchArguments (vocab : ℕ) (batch : List (SamplingParams R × List ℕ))
    (prepared : PreparedBatch R) (entries : List (List (ℕ × ℕ))) (rowSeeds : List ℕ) :
    List (RowArguments R) :=
  batch.mapIdx fun row item => item.1.rowArguments vocab (prepared.historyBegin row)
    (entries.getD row []).length (rowSeeds.getD row 0)

/-- The batch of one row. -/
def LogitTensor.row (logits : LogitTensor R) (row : ℕ) : LogitTensor R where
  vocabSize := logits.vocabSize
  rows := logits.rows[row]?.toList
  length_row rowLogits hmem :=
    logits.length_row rowLogits (List.mem_of_getElem? (Option.mem_toList.mp hmem))

/-- A call whose batch was accepted. -/
structure Call (debug : Extended R → String) (logits : LogitTensor R)
    (params : List (SamplingParams R)) (tokenHistory : List (List ℕ)) (rowSeeds : List ℕ)
    (prepared : PreparedBatch R) (entries : List (List (ℕ × ℕ))) : Prop where
  rows : logits.rows.length ≠ 0
  rows_le : logits.rows.length ≤ U32_MAX
  vocab : logits.vocabSize ≠ 0
  vocab_le : logits.vocabSize ≤ I32_MAX
  length_params : params.length = logits.rows.length
  length_history : tokenHistory.length = logits.rows.length
  length_seeds : rowSeeds.length = logits.rows.length
  prepare : prepareBatch debug params tokenHistory logits.vocabSize = .ok prepared
  byRow : PreparedRows logits.vocabSize (params.zip tokenHistory) prepared entries

/-- All rows pass the guard of the kernels. -/
def Guarded (logits : LogitTensor R) (params : List (SamplingParams R))
    (tokenHistory : List (List ℕ)) (rowSeeds : List ℕ) (prepared : PreparedBatch R)
    (entries : List (List (ℕ × ℕ))) : Prop :=
  ∀ args ∈ launchArguments logits.vocabSize (params.zip tokenHistory) prepared entries rowSeeds,
    args.invalid logits.vocabSize = false

/-- **The fast path.** A greedy row without penalties selects what the greedy kernel finds in its
logits. -/
theorem rowToken_plain (A : DeviceArithmetic R D) (rowLogits : List (Extended R)) (vocab : ℕ)
    {args : RowArguments R} (counts : List (ℕ × ℕ)) (hgreedy : args.greedy = true)
    (hplain : args.penalties.plain = true) :
    rowToken A rowLogits vocab args counts = greedyArgmaxKernel rowLogits := by
  simp only [Penalties.plain, Bool.and_eq_true] at hplain
  obtain ⟨⟨hpresence, hfrequency⟩, hrepetition⟩ := hplain
  have hactive : args.penalties.active = false := by
    simp only [Penalties.active, bne, hpresence, hfrequency, hrepetition, Bool.not_true,
      Bool.or_self]
  have hsubnormal : isPositiveSubnormal args.penalties.repetition = false := by
    cases hvalue : args.penalties.repetition with
    | finite x =>
      rw [hvalue] at hrepetition
      obtain rfl : x = 0 := finite_beq_finite.mp hrepetition
      exact decide_eq_false fun h => lt_irrefl _ h.1
    | nan => rfl
    | negInf => rfl
    | posInf => rfl
  have hdivisor : args.subnormalDivisor = false := by
    simp only [RowArguments.subnormalDivisor, hgreedy, hsubnormal, Bool.not_true, Bool.false_and,
      Bool.and_false, Bool.or_self]
  have hlogits : penalizedLogits A rowLogits args counts = (rowLogits, false) := by
    rw [penalizedLogits, hactive, Bool.false_and, if_neg Bool.false_ne_true, hdivisor]
  rw [rowToken, hlogits, if_pos hgreedy]
  rfl

/-! ### The copies of the histories -/

omit [Field R] [LinearOrder R] in
/-- After the copies the history buffers start with the flattened arrays. -/
theorem copyHistory_eq {prepared : PreparedBatch R} {d : Device R D}
    (hcounts : prepared.historyCounts.length = prepared.historyTokens.length)
    (hd : d.toWorkspace.WellSized) (hcapacity : prepared.historyTokens.length ≤ d.historyCapacity) :
    ∃ d', copyHistory prepared prepared.historyTokens.length d = .ok d' ∧
      d'.toWorkspace.WellSized ∧ d'.vocabSize = d.vocabSize ∧
      d'.selectedTokens = d.selectedTokens ∧
      (∀ i v, prepared.historyTokens[i]? = some v → d'.historyTokens.read i = .ok v) ∧
      ∀ i v, prepared.historyCounts[i]? = some v → d'.historyCounts.read i = .ok v := by
  have htokensFit : prepared.historyTokens.length ≤ d.historyTokens.length :=
    hcapacity.trans_eq hd.historyTokens.symm
  have hcountsFit : prepared.historyCounts.length ≤ d.historyCounts.length :=
    (hcounts.trans_le hcapacity).trans_eq hd.historyCounts.symm
  rw [copyHistory]
  split
  · rw [List.take_length, ← hcounts, List.take_length, Cells.writeFirst, if_pos htokensFit, ok_bind,
      Cells.writeFirst, if_pos hcountsFit, ok_bind]
    refine ⟨_, rfl, { hd with historyTokens := ?_, historyCounts := ?_ }, rfl, rfl, fun i v hv => ?_,
      fun i v hv => ?_⟩
    · have := hd.historyTokens
      simp only [List.length_append, List.length_map, List.length_drop]
      omega
    · have := hd.historyCounts
      simp only [List.length_append, List.length_map, List.length_drop]
      omega
    · exact Cells.read_append_map hv
    · exact Cells.read_append_map hv
  · rename_i hempty
    have hnone : prepared.historyTokens.length = 0 := by omega
    refine ⟨d, rfl, hd, rfl, rfl, fun i v hv => ?_, fun i v hv => ?_⟩
    · have := (List.getElem?_eq_some_iff.mp hv).1
      omega
    · have := (List.getElem?_eq_some_iff.mp hv).1
      omega

/-! ### A call -/

namespace Call

variable {debug : Extended R → String} {logits : LogitTensor R} {params : List (SamplingParams R)}
  {tokenHistory : List (List ℕ)} {rowSeeds : List ℕ} {prepared : PreparedBatch R}
  {entries : List (List (ℕ × ℕ))}

/-- The tokens of a call. -/
def tokens (A : DeviceArithmetic R D) (logits : LogitTensor R) (params : List (SamplingParams R))
    (tokenHistory : List (List ℕ)) (rowSeeds : List ℕ) (prepared : PreparedBatch R)
    (entries : List (List (ℕ × ℕ))) : List ℕ :=
  batchTokens A (logits.rows.zip
    (launchArguments logits.vocabSize (params.zip tokenHistory) prepared entries rowSeeds))
    logits.vocabSize entries

theorem length_batch (h : Call debug logits params tokenHistory rowSeeds prepared entries) :
    (params.zip tokenHistory).length = logits.rows.length := by
  rw [List.length_zip, h.length_params, h.length_history, min_self]

theorem length_arguments (h : Call debug logits params tokenHistory rowSeeds prepared entries) :
    (launchArguments logits.vocabSize (params.zip tokenHistory) prepared entries rowSeeds).length =
      logits.rows.length := by
  rw [launchArguments, List.length_mapIdx, h.length_batch]

/-- The arguments of a row, and the entry of its history. -/
theorem exists_row (h : Call debug logits params tokenHistory rowSeeds prepared entries) {row : ℕ}
    (hrow : row < logits.rows.length) :
    ∃ rowParams history counts rowSeed, params[row]? = some rowParams ∧
      tokenHistory[row]? = some history ∧ rowSeeds[row]? = some rowSeed ∧
      (params.zip tokenHistory)[row]? = some (rowParams, history) ∧ entries[row]? = some counts ∧
      (launchArguments logits.vocabSize (params.zip tokenHistory) prepared entries rowSeeds)[row]? =
        some (rowParams.rowArguments logits.vocabSize (prepared.historyBegin row) counts.length
          rowSeed) := by
  have hparams : row < params.length := h.length_params ▸ hrow
  have hhistory : row < tokenHistory.length := h.length_history ▸ hrow
  have hseed : row < rowSeeds.length := h.length_seeds ▸ hrow
  have hbatch : (params.zip tokenHistory)[row]? = some (params[row], tokenHistory[row]) := by
    rw [List.getElem?_zip_eq_some]
    exact ⟨List.getElem?_eq_getElem hparams, List.getElem?_eq_getElem hhistory⟩
  obtain ⟨counts, hcounts, -⟩ := h.byRow.exists_counts hbatch
  refine ⟨params[row], tokenHistory[row], counts, rowSeeds[row], List.getElem?_eq_getElem hparams,
    List.getElem?_eq_getElem hhistory, List.getElem?_eq_getElem hseed, hbatch, hcounts, ?_⟩
  rw [launchArguments, List.getElem?_mapIdx, hbatch, Option.map_some,
    List.getD_eq_getElem?_getD, hcounts, Option.getD_some, List.getD_eq_getElem?_getD,
    List.getElem?_eq_getElem hseed, Option.getD_some]

/-- The token of a row. -/
theorem getElem?_tokens (A : DeviceArithmetic R D) {row : ℕ} {rowLogits : List (Extended R)}
    {counts : List (ℕ × ℕ)} {args : RowArguments R} (hrow : logits.rows[row]? = some rowLogits)
    (hcounts : entries[row]? = some counts)
    (hargs : (launchArguments logits.vocabSize (params.zip tokenHistory) prepared entries
      rowSeeds)[row]? = some args) :
    (tokens A logits params tokenHistory rowSeeds prepared entries)[row]? =
      some (rowToken A rowLogits logits.vocabSize args counts) := by
  have hzip : (logits.rows.zip (launchArguments logits.vocabSize (params.zip tokenHistory)
      prepared entries rowSeeds))[row]? = some (rowLogits, args) :=
    List.getElem?_zip_eq_some.mpr ⟨hrow, hargs⟩
  rw [tokens, batchTokens, List.getElem?_mapIdx, hzip, Option.map_some, List.getD_eq_getElem?_getD,
    hcounts, Option.getD_some]

/-- The arguments are read from the arrays of the host. -/
theorem mapM_rowArguments (h : Call debug logits params tokenHistory rowSeeds prepared entries) :
    (List.range logits.rows.length).mapM (rowArguments prepared rowSeeds) =
      .ok (launchArguments logits.vocabSize (params.zip tokenHistory) prepared entries rowSeeds) := by
  have hcollect := mapM_range_eq_ok
    (launchArguments logits.vocabSize (params.zip tokenHistory) prepared entries rowSeeds)
    (f := rowArguments prepared rowSeeds) fun row hrow => by
      obtain ⟨rowParams, history, counts, rowSeed, -, -, hseed, hbatch, hcounts, hargs⟩ :=
        h.exists_row (h.length_arguments ▸ hrow)
      rw [List.getElem?_eq_getElem hrow] at hargs
      rw [Option.some.inj hargs]
      exact h.byRow.rowArguments_eq hbatch hcounts hseed
  rwa [h.length_arguments] at hcollect

/-- Every row finds its own history after the copies. -/
theorem rowReady (h : Call debug logits params tokenHistory rowSeeds prepared entries)
    {d : Device R D} (hd : d.toWorkspace.WellSized) (hvocab : d.vocabSize = logits.vocabSize)
    (hselected : d.selectedTokens.length = logits.rows.length)
    (htokens : ∀ i v, prepared.historyTokens[i]? = some v → d.historyTokens.read i = .ok v)
    (hcounts : ∀ i v, prepared.historyCounts[i]? = some v → d.historyCounts.read i = .ok v)
    {row : ℕ} {item : List (Extended R) × RowArguments R}
    (hitem : (logits.rows.zip (launchArguments logits.vocabSize (params.zip tokenHistory) prepared
      entries rowSeeds))[row]? = some item) :
    RowReady d item.1 logits.vocabSize item.2 (entries.getD row []) row ∧
      item.2.historyBegin = prepared.historyBegin row ∧
      item.2.historyBegin + item.2.historyLength = prepared.historyBegin (row + 1) := by
  obtain ⟨hlogits, hargs⟩ := List.getElem?_zip_eq_some.mp hitem
  obtain ⟨hlt, hget⟩ := List.getElem?_eq_some_iff.mp hlogits
  obtain ⟨rowParams, history, counts, rowSeed, -, -, -, hbatch, hentry, hargs'⟩ := h.exists_row hlt
  obtain ⟨counts', hentry', -, -, hascending⟩ := h.byRow.exists_counts hbatch
  obtain rfl := Option.some.inj (hentry.symm.trans hentry')
  have hitemArgs := Option.some.inj (hargs.symm.trans hargs')
  rw [List.getD_eq_getElem?_getD, hentry, Option.getD_some, hitemArgs]
  obtain ⟨-, hpartTokens, hpartCounts⟩ := h.byRow.toFlattened.part hentry
  refine ⟨⟨hd, hvocab, h.vocab_le, ?_, min_le_right _ _, ⟨rfl, fun i hi => ?_, fun i hi => ?_⟩, ?_,
    hascending.length_le, hselected ▸ hlt⟩, rfl, h.byRow.begin_add_length hentry⟩
  · exact logits.length_row _ (hget ▸ List.getElem_mem hlt)
  · refine htokens _ _ ((hpartTokens i hi).trans ?_)
    rw [List.getElem?_eq_getElem hi]
    rfl
  · refine hcounts _ _ ((hpartCounts i hi).trans ?_)
    rw [List.getElem?_eq_getElem hi]
    rfl
  · exact fun counted hmem => ((hascending.mem_iff _ _).mp hmem).1

/-- The launch for a batch of greedy rows without penalties selects the tokens of the rows. -/
theorem sampleGreedyRows_eq (h : Call debug logits params tokenHistory rowSeeds prepared entries)
    (A : DeviceArithmetic R D) {d : Device R D}
    (hselected : d.selectedTokens.length = logits.rows.length)
    (hplain : ∀ args ∈ launchArguments logits.vocabSize (params.zip tokenHistory) prepared entries
      rowSeeds, args.greedy = true ∧ args.penalties.plain = true) :
    sampleGreedyRows logits.rows logits.vocabSize d = .ok { d with
      selectedTokens :=
        (tokens A logits params tokenHistory rowSeeds prepared entries).map some } := by
  let selected := tokens A logits params tokenHistory rowSeeds prepared entries
  have hlength : selected.length = d.selectedTokens.length := by
    simp only [selected, tokens, batchTokens, List.length_mapIdx, List.length_zip,
      h.length_arguments, min_self, hselected]
  let P (row : ℕ) (s : Device R D) : Prop :=
    s = { d with selectedTokens := d.selectedTokens.filledTo selected row }
  have hstep : ∀ row rowLogits, logits.rows[row]? = some rowLogits → ∀ s, P row s →
      ∃ s', (readLogits .tensor rowLogits logits.vocabSize s >>= fun read =>
        writeGreedy read row s) = .ok s' ∧ P (row + 1) s' := by
    rintro row rowLogits hrow s rfl
    obtain ⟨hlt, hget⟩ := List.getElem?_eq_some_iff.mp hrow
    obtain ⟨rowParams, history, counts, rowSeed, -, -, -, -, hcounts, hargs⟩ := h.exists_row hlt
    have hwidth : rowLogits.length = logits.vocabSize :=
      logits.length_row _ (hget ▸ List.getElem_mem hlt)
    have hread : Cells.readFirst (rowLogits.map some) logits.vocabSize = .ok rowLogits := by
      rw [Cells.readFirst_filled hwidth.ge, List.take_of_length_le hwidth.le]
    have hlt' : row < selected.length := by rwa [hlength, hselected]
    have htoken : selected[row] = greedyArgmaxKernel rowLogits := by
      obtain ⟨hgreedy, hnone⟩ := hplain _ (List.mem_of_getElem? hargs)
      rw [← rowToken_plain A rowLogits logits.vocabSize counts hgreedy hnone]
      exact Option.some.inj
        ((List.getElem?_eq_getElem hlt').symm.trans (getElem?_tokens A hrow hcounts hargs))
    have hwrite := Cells.write_filledTo hlt' hlength
    rw [htoken] at hwrite
    refine ⟨_, ?_, rfl⟩
    rw [readLogits, hread, ok_bind, writeGreedy, hwrite]
    rfl
  obtain ⟨d', hrun, rfl⟩ := foldlM_zipIdx_invariant
    (fun s (indexed : List (Extended R) × ℕ) =>
      readLogits .tensor indexed.1 logits.vocabSize s >>= fun read =>
        writeGreedy read indexed.2 s) hstep (s := d) rfl
  rw [← Cells.filledTo_length hlength, hlength, hselected]
  exact hrun

/-- The kernels are launched after the guard. -/
theorem sampleF32_guard (h : Call debug logits params tokenHistory rowSeeds prepared entries)
    (body : RowBody R D) (d : Device R D) :
    sampleF32 body logits.rows logits.vocabSize prepared rowSeeds d =
      if (launchArguments logits.vocabSize (params.zip tokenHistory) prepared entries rowSeeds).any
        fun args => args.invalid logits.vocabSize then .ok none
      else if (launchArguments logits.vocabSize (params.zip tokenHistory) prepared entries
        rowSeeds).all fun args => args.greedy && args.penalties.plain then
        sampleGreedyRows logits.rows logits.vocabSize d >>= fun d => .ok (some d)
      else copyHistory prepared prepared.historyTokens.length d >>= fun d =>
        sampleRows body (logits.rows.zip (launchArguments logits.vocabSize
          (params.zip tokenHistory) prepared entries rowSeeds)) logits.vocabSize d >>= fun d =>
        .ok (some d) := by
  have hlast : hostRead prepared.historyOffsets logits.rows.length =
      .ok prepared.historyTokens.length := by
    have hoffset := h.byRow.getElem?_offsets (h.byRow.length_entries.trans h.length_batch).ge
    rw [hostRead_of_getElem? hoffset]
    exact congrArg Except.ok (h.length_batch ▸ h.byRow.toFlattened.partition.last)
  rw [sampleF32, if_neg (not_or.mpr ⟨h.rows, h.vocab⟩), hlast, ok_bind, h.mapM_rowArguments, ok_bind]
  rfl

/-- **A call of the kernels**, on either path: every row selects its own token, whatever the buffers
held. -/
theorem sampleF32_eq (h : Call debug logits params tokenHistory rowSeeds prepared entries)
    (hguard : Guarded logits params tokenHistory rowSeeds prepared entries)
    {A : DeviceArithmetic R D} {body : RowBody R D} (hbody : SelectsRows A body) {d : Device R D}
    (hd : d.toWorkspace.WellSized) (hvocab : d.vocabSize = logits.vocabSize)
    (hcapacity : prepared.historyTokens.length ≤ d.historyCapacity)
    (hselected : d.selectedTokens.length = logits.rows.length) :
    ∃ d', sampleF32 body logits.rows logits.vocabSize prepared rowSeeds d = .ok (some d') ∧
      d'.toWorkspace.WellSized ∧ d'.selectedTokens =
        (tokens A logits params tokenHistory rowSeeds prepared entries).map some := by
  have hvalid : ¬ ((launchArguments logits.vocabSize (params.zip tokenHistory) prepared entries
      rowSeeds).any fun args => args.invalid logits.vocabSize) = true := by
    rw [List.any_eq_true]
    rintro ⟨args, hargs, hinvalid⟩
    rw [hguard args hargs] at hinvalid
    cases hinvalid
  rw [h.sampleF32_guard, if_neg hvalid]
  split
  · rename_i hplain
    rw [List.all_eq_true] at hplain
    rw [h.sampleGreedyRows_eq A hselected fun args hargs => Bool.and_eq_true_iff.mp (hplain args hargs)]
    exact ⟨_, rfl, hd, rfl⟩
  · obtain ⟨d₁, hcopy, hd₁, hvocab₁, hselected₁, htokens, hcounts⟩ :=
      copyHistory_eq h.byRow.toFlattened.partition.counts hd hcapacity
    have hlength : (logits.rows.zip (launchArguments logits.vocabSize (params.zip tokenHistory)
        prepared entries rowSeeds)).length = logits.rows.length := by
      rw [List.length_zip, h.length_arguments, min_self]
    obtain ⟨d₂, hrun, hd₂, hselected₂⟩ := sampleRows_eq hbody (d := d₁) prepared.historyBegin
      (fun row item hitem => h.rowReady hd₁ (hvocab₁.trans hvocab)
        (hselected₁ ▸ hselected) htokens hcounts hitem) (by rw [hselected₁, hselected, hlength])
    rw [hcopy, ok_bind, hrun]
    exact ⟨d₂, rfl, hd₂ hd₁, hselected₂⟩

end Call

/-! ### The workspace of a call -/

theorem nextCapacity_eq {required : ℕ} (h : required ≤ U32_MAX) :
    ∃ capacity, nextCapacity required = .ok capacity ∧ required ≤ capacity := by
  have hcapacity : 2 ^ Nat.clog 2 (max required 1) ≤ USIZE_MAX := by
    have hle : 2 ^ Nat.clog 2 (max required 1) ≤ 2 ^ 32 :=
      Nat.pow_le_pow_right Nat.two_pos (Nat.clog_le_of_le_pow (by
        simp only [U32_MAX] at h
        omega))
    refine hle.trans ?_
    rw [USIZE_MAX]
    omega
  refine ⟨_, if_pos hcapacity, ?_⟩
  exact (le_max_left _ _).trans (Nat.le_pow_clog Nat.one_lt_two _)

omit [LinearOrder R] in
/-- A call gets a workspace for its vocabulary, with room for its histories. -/
theorem Workspace.ensure_eq [Zero D] {slot : Option (Workspace R D)}
    (hslot : ∀ ws ∈ slot, ws.WellSized) {vocabSize historyLen : ℕ} (hvocab : vocabSize ≤ U32_MAX)
    (hhistory : historyLen ≤ U32_MAX) :
    ∃ ws, Workspace.ensure slot vocabSize historyLen = .ok ws ∧ ws.WellSized ∧
      ws.vocabSize = vocabSize ∧ historyLen ≤ ws.historyCapacity := by
  obtain ⟨capacity, hcapacity, hle⟩ := nextCapacity_eq hhistory
  have hnew : ∃ ws, (Workspace.new vocabSize historyLen : Except String (Workspace R D)) = .ok ws ∧
      ws.WellSized ∧ ws.vocabSize = vocabSize ∧ historyLen ≤ ws.historyCapacity := by
    rw [Workspace.new, tryU32_of_le hvocab, ok_bind, hcapacity, ok_bind]
    refine ⟨_, rfl, ⟨?_, ?_, ?_, ?_, rfl, rfl, ?_, ?_⟩, rfl, hle⟩
    all_goals exact List.length_replicate
  have hfit {ws : Workspace R D} (hws : ws.WellSized) (hwidth : ws.vocabSize = vocabSize) :
      ∃ ws', ws.ensureHistoryCapacity historyLen = .ok ws' ∧ ws'.WellSized ∧
        ws'.vocabSize = vocabSize ∧ historyLen ≤ ws'.historyCapacity := by
    rw [Workspace.ensureHistoryCapacity]
    split
    · rename_i hroom
      exact ⟨ws, rfl, hws, hwidth, hroom⟩
    · rw [hcapacity, ok_bind]
      exact ⟨_, rfl, { hws with
        historyTokens := List.length_replicate
        historyCounts := List.length_replicate }, hwidth, hle⟩
  obtain ⟨new, hnewRun, hnewSized, hnewVocab, -⟩ := hnew
  cases slot with
  | none =>
    rw [Workspace.ensure]
    dsimp only
    rw [hnewRun, ok_bind]
    exact hfit hnewSized hnewVocab
  | some ws =>
    rw [Workspace.ensure]
    dsimp only
    split
    · rw [hnewRun, ok_bind]
      exact hfit hnewSized hnewVocab
    · rename_i hsame
      exact hfit (hslot ws rfl) (not_not.mp hsame)

/-! ### Calls in isolation -/

section Forward

variable [Zero D] {debug : Extended R → String} {logits : LogitTensor R}
  {params : List (SamplingParams R)} {tokenHistory : List (List ℕ)} {rowSeeds : List ℕ}
  {slot : Option (Workspace R D)}

/-- An accepted call selects the tokens of its rows. -/
theorem Call.forward_eq {prepared : PreparedBatch R} {entries : List (List (ℕ × ℕ))}
    (h : Call debug logits params tokenHistory rowSeeds prepared entries)
    (hguard : Guarded logits params tokenHistory rowSeeds prepared entries)
    {A : DeviceArithmetic R D} {body : RowBody R D} (hbody : SelectsRows A body)
    (hslot : ∀ ws ∈ slot, ws.WellSized) :
    ∃ ws, forward body debug logits params tokenHistory rowSeeds slot =
        .ok (tokens A logits params tokenHistory rowSeeds prepared entries, ws) ∧
      ws.WellSized := by
  have hvocab : logits.vocabSize ≤ U32_MAX := h.vocab_le.trans (by simp [I32_MAX, U32_MAX])
  have hforward : checkForward logits params tokenHistory = .ok () := by
    rw [checkForward, bailIf_of_not (not_or.mpr ⟨h.rows, h.vocab⟩), ok_bind,
      bailIf_of_not (not_not.mpr h.length_params), ok_bind,
      bailIf_of_not (not_not.mpr h.length_history)]
  have htensor : checkTensor logits rowSeeds = .ok () := by
    rw [checkTensor, bailIf_of_not h.vocab, ok_bind, tryU32_of_le h.rows_le, ok_bind,
      tryU32_of_le hvocab, ok_bind, bailIf_of_not (not_lt.mpr h.vocab_le), ok_bind,
      bailIf_of_not (not_not.mpr h.length_seeds)]
  obtain ⟨ws, hensure, hws, hwidth, hroom⟩ := Workspace.ensure_eq hslot hvocab h.byRow.tokens_le
  obtain ⟨d', hrun, hsized, htokens⟩ := h.sampleF32_eq hguard hbody
    (d := { ws with selectedTokens := zeros logits.rows.length }) hws hwidth hroom
    List.length_replicate
  refine ⟨d'.toWorkspace, ?_, hsized⟩
  have hlength : (tokens A logits params tokenHistory rowSeeds prepared entries).length =
      logits.rows.length := by
    rw [tokens, batchTokens, List.length_mapIdx, List.length_zip, h.length_arguments, min_self]
  have hread := Cells.readFirst_filled hlength.ge
  rw [List.take_of_length_le hlength.le] at hread
  rw [forward, hforward]
  change sample body debug logits params tokenHistory rowSeeds slot = _
  rw [sample, htensor]
  change (refusedBy (prepareBatch debug params tokenHistory logits.vocabSize) >>= _) = _
  rw [h.prepare]
  change (refusedBy (Workspace.ensure slot logits.vocabSize prepared.historyTokens.length) >>= _) = _
  rw [hensure]
  change ((sampleF32 body logits.rows logits.vocabSize prepared rowSeeds
    { ws with selectedTokens := zeros logits.rows.length }).mapError SampleError.memory >>= _) = _
  rw [hrun]
  change ((d'.selectedTokens.readFirst logits.rows.length).mapError SampleError.memory >>= _) = _
  rw [htokens, hread]
  rfl

omit [Field R] [LinearOrder R] [Zero D] in
/-- A step of a call that is not refused goes through. -/
theorem ok_of_not_refused {α β : Type} {x : Except String α} {f : α → Except SampleError β}
    (h : ∀ message, (refusedBy x >>= f) ≠ .error (.refused message)) : ∃ a, x = .ok a := by
  cases x with
  | ok a => exact ⟨a, rfl⟩
  | error message => exact absurd rfl (h message)

/-- A call that is not refused has an accepted batch. -/
theorem call_of_forward {body : RowBody R D}
    (h : ∀ message, forward body debug logits params tokenHistory rowSeeds slot ≠
      .error (.refused message)) :
    ∃ prepared entries, Call debug logits params tokenHistory rowSeeds prepared entries ∧
      Guarded logits params tokenHistory rowSeeds prepared entries := by
  rw [forward] at h
  obtain ⟨u, hforward⟩ := ok_of_not_refused h
  rw [hforward] at h
  change ∀ message, sample body debug logits params tokenHistory rowSeeds slot ≠ _ at h
  rw [sample] at h
  obtain ⟨u', htensor⟩ := ok_of_not_refused h
  rw [htensor] at h
  change ∀ message, (refusedBy (prepareBatch debug params tokenHistory logits.vocabSize) >>= _) ≠ _
    at h
  obtain ⟨prepared, hprepare⟩ := ok_of_not_refused h
  rw [hprepare] at h
  change ∀ message, (refusedBy
    (Workspace.ensure slot logits.vocabSize prepared.historyTokens.length) >>= _) ≠ _ at h
  obtain ⟨ws, hensure⟩ := ok_of_not_refused h
  rw [hensure] at h
  change ∀ message, ((sampleF32 body logits.rows logits.vocabSize prepared rowSeeds
    { ws with selectedTokens := zeros logits.rows.length }).mapError SampleError.memory >>= _) ≠ _
    at h
  obtain ⟨entries, hrows⟩ := preparedRows_prepareBatch hprepare
  obtain ⟨u₁, hnonempty, hforward⟩ := exists_of_bind_ok hforward
  obtain ⟨u₂, hparams, hhistory⟩ := exists_of_bind_ok hforward
  have hnonempty := not_or.mp (not_of_bailIf_ok hnonempty)
  have hparams := not_not.mp (not_of_bailIf_ok hparams)
  have hhistory := not_not.mp (not_of_bailIf_ok hhistory)
  obtain ⟨u₃, -, htensor⟩ := exists_of_bind_ok htensor
  obtain ⟨n, hbatch, htensor⟩ := exists_of_bind_ok htensor
  obtain ⟨n', -, htensor⟩ := exists_of_bind_ok htensor
  obtain ⟨u₄, hvocab, hseeds⟩ := exists_of_bind_ok htensor
  have hcall : Call debug logits params tokenHistory rowSeeds prepared entries :=
    ⟨hnonempty.1, (eq_of_tryU32_ok hbatch).1, hnonempty.2, not_lt.mp (not_of_bailIf_ok hvocab),
      hparams, hhistory, not_not.mp (not_of_bailIf_ok hseeds), hprepare, hrows⟩
  refine ⟨prepared, entries, hcall, fun args hargs => ?_⟩
  by_contra hinvalid
  have hany : ((launchArguments logits.vocabSize (params.zip tokenHistory) prepared entries
      rowSeeds).any fun args => args.invalid logits.vocabSize) = true :=
    List.any_eq_true.mpr ⟨args, hargs, Bool.eq_true_of_not_eq_false hinvalid⟩
  rw [hcall.sampleF32_guard, if_pos hany] at h
  exact h _ rfl

omit [Zero D] in
/-- A row of an accepted call is accepted alone, and has the same token. -/
theorem Call.row {prepared : PreparedBatch R} {entries : List (List (ℕ × ℕ))}
    (h : Call debug logits params tokenHistory rowSeeds prepared entries)
    (hguard : Guarded logits params tokenHistory rowSeeds prepared entries)
    (A : DeviceArithmetic R D) {row token rowSeed : ℕ} {rowParams : SamplingParams R}
    {history : List ℕ} (hparams : params[row]? = some rowParams)
    (hhistory : tokenHistory[row]? = some history) (hseed : rowSeeds[row]? = some rowSeed)
    (htoken : (tokens A logits params tokenHistory rowSeeds prepared entries)[row]? = some token) :
    ∃ prepared' entries',
      Call debug (logits.row row) [rowParams] [history] [rowSeed] prepared' entries' ∧
      Guarded (logits.row row) [rowParams] [history] [rowSeed] prepared' entries' ∧
      tokens A (logits.row row) [rowParams] [history] [rowSeed] prepared' entries' = [token] := by
  have hlt : row < logits.rows.length :=
    h.length_params ▸ (List.getElem?_eq_some_iff.mp hparams).1
  obtain ⟨rowParams', history', counts, rowSeed', hparams', hhistory', hseed', hbatch, hcounts,
    hargs⟩ := h.exists_row hlt
  obtain rfl := Option.some.inj (hparams.symm.trans hparams')
  obtain rfl := Option.some.inj (hhistory.symm.trans hhistory')
  obtain rfl := Option.some.inj (hseed.symm.trans hseed')
  have hvocab : logits.vocabSize ≤ U32_MAX := h.vocab_le.trans (by simp [I32_MAX, U32_MAX])
  obtain ⟨prepared', hprepare, hbyRow⟩ := h.byRow.alone hvocab hbatch hcounts debug
  have hrow : logits.rows[row]? = some logits.rows[row] := List.getElem?_eq_getElem hlt
  have hrows : (logits.row row).rows = [logits.rows[row]] := congrArg Option.toList hrow
  have hlength : (logits.row row).rows.length = 1 := congrArg List.length hrows
  refine ⟨prepared', [counts], ⟨by omega, by simp [hlength, U32_MAX], h.vocab, h.vocab_le,
    hlength.symm, hlength.symm, hlength.symm, hprepare, hbyRow⟩, fun args hmem => ?_, ?_⟩
  · obtain rfl := List.mem_singleton.mp hmem
    have hvalid := hguard _ (List.mem_of_getElem? hargs)
    exact hvalid
  · rw [getElem?_tokens A hrow hcounts hargs] at htoken
    obtain rfl := Option.some.inj htoken
    rw [tokens, hrows]
    rfl

/-- **Isolation.** A call never faults, so it reads no cell that it has not written; it selects the
same tokens if every row starts with buffers that lost what earlier rows and calls left in them; and
the token of a row is the one that the row selects alone, in any other workspace. -/
theorem forward_isolated (A : DeviceArithmetic R D) (debug : Extended R → String)
    (logits : LogitTensor R) (params : List (SamplingParams R)) (tokenHistory : List (List ℕ))
    (rowSeeds : List ℕ) (slot : Option (Workspace R D)) (hslot : ∀ ws ∈ slot, ws.WellSized) :
    (∀ fault, forward (sampleRow A) debug logits params tokenHistory rowSeeds slot ≠
      .error (.memory fault)) ∧
    ∀ tokens ws,
      forward (sampleRow A) debug logits params tokenHistory rowSeeds slot = .ok (tokens, ws) →
      ws.WellSized ∧ tokens.length = logits.rows.length ∧
      ∀ slot' : Option (Workspace R D), (∀ ws' ∈ slot', ws'.WellSized) →
        (∃ ws', forward (forgetfulRow A) debug logits params tokenHistory rowSeeds slot' =
          .ok (tokens, ws')) ∧
        ∀ row rowParams history rowSeed token, params[row]? = some rowParams →
          tokenHistory[row]? = some history → rowSeeds[row]? = some rowSeed →
          tokens[row]? = some token →
          ∃ ws', forward (sampleRow A) debug (logits.row row) [rowParams] [history] [rowSeed] slot' =
            .ok ([token], ws') := by
  refine ⟨fun fault hfault => ?_, fun selected ws hrun => ?_⟩
  · obtain ⟨prepared, entries, hcall, hguard⟩ := call_of_forward fun message hrefused => by
      rw [hfault] at hrefused
      cases hrefused
    obtain ⟨ws, hok, -⟩ := hcall.forward_eq hguard (selectsRows_sampleRow A) hslot
    rw [hfault] at hok
    cases hok
  · obtain ⟨prepared, entries, hcall, hguard⟩ := call_of_forward fun message hrefused => by
      rw [hrun] at hrefused
      cases hrefused
    obtain ⟨ws', hok, hsized⟩ := hcall.forward_eq hguard (selectsRows_sampleRow A) hslot
    rw [hrun] at hok
    obtain ⟨rfl, rfl⟩ := Prod.mk.inj (Except.ok.inj hok)
    refine ⟨hsized, ?_, fun slot' hslot' => ⟨?_, ?_⟩⟩
    · rw [Call.tokens, batchTokens, List.length_mapIdx, List.length_zip, hcall.length_arguments,
        min_self]
    · obtain ⟨ws', hforgetful, -⟩ := hcall.forward_eq hguard (selectsRows_forgetfulRow A) hslot'
      exact ⟨ws', hforgetful⟩
    · intro row rowParams history rowSeed token hparams hhistory hseed htoken
      obtain ⟨prepared', entries', hcall', hguard', htokens⟩ :=
        hcall.row hguard A hparams hhistory hseed htoken
      obtain ⟨ws', halone, -⟩ := hcall'.forward_eq hguard' (selectsRows_sampleRow A) hslot'
      exact ⟨ws', htokens ▸ halone⟩

end Forward

/-! ### A call with three kinds of rows -/

omit [Field R] in
theorem topKLimit_le_length (sortedLogits : List (Extended R)) (requestedK : ℕ)
    (hle : requestedK ≤ sortedLogits.length) :
    Sampler.topKLimit sortedLogits requestedK ≤ sortedLogits.length := by
  rw [topKLimit]
  split
  · exact le_rfl
  · have htied := (List.takeWhile_prefix (l := sortedLogits.drop requestedK)
      (· == entry sortedLogits (requestedK - 1))).length_le
    rw [List.length_drop] at htied
    exact (Nat.add_le_add_left htied _).trans_eq (Nat.add_sub_of_le hle)

/-- The walk through a chunk stops behind one of its entries. -/
theorem exists_of_walkChunk {weight : ℕ → Extended R} {target cumulative : Extended R}
    {indices : List ℕ} {stop : ℕ} (h : walkChunk weight target cumulative indices = some stop) :
    ∃ index ∈ indices, stop = index + 1 := by
  induction indices generalizing cumulative with
  | nil => cases h
  | cons index indices ih =>
    rw [walkChunk] at h
    split at h
    · exact ⟨index, List.mem_cons_self, (Option.some.inj h).symm⟩
    · obtain ⟨other, hother, hstop⟩ := ih h
      exact ⟨other, List.mem_cons_of_mem _ hother, hstop⟩

theorem lt_of_mem_chunkIndices {active chunk index : ℕ} (h : index ∈ chunkIndices active chunk) :
    index < active := by
  rw [chunkIndices, List.mem_range'_1] at h
  omega

/-- The top-p cutoff lies in the prefix that the top-k filter keeps. -/
theorem topPCutoff_le (e : Exponential R) (sortedLogits : List (Extended R)) (active : ℕ)
    (topP : Extended R) : Sampler.topPCutoff e sortedLogits active topP ≤ active := by
  simp only [Sampler.topPCutoff]
  split
  · rename_i selected hselected
    cases hwalk : walkChunk (R := R) _ _ _ _ with
    | none => exact le_rfl
    | some stop =>
      obtain ⟨index, hindex, rfl⟩ := exists_of_walkChunk hwalk
      exact lt_of_mem_chunkIndices hindex
  · exact le_rfl

/-- Exact arithmetic, a draw without noise, and no wide arithmetic. -/
def noiseless : DeviceArithmetic ℚ ℚ where
  penalize value count penalties :=
    let value := if penalties.repetition != 0 then value / penalties.repetition else value
    value - penalties.presence - penalties.frequency * finite (count : ℚ)
  divide := (· / ·)
  wideMaximum _ _ _ := (0, 0)
  normalize _ _ _ _ _ _ := 0
  selectWide _ _ _ _ _ _ := 0
  sortPairs := List.insertionSort fun a b => b.1 ≤ a.1
  length_sortPairs := List.length_insertionSort _
  topKLimit := topKLimit
  topKLimit_le := topKLimit_le_length
  topPCutoff sortedLogits := topPCutoff .rational sortedLogits sortedLogits.length
  topPCutoff_le sortedLogits := topPCutoff_le .rational sortedLogits sortedLogits.length
  draw scores tokens _ := tokens.getD (argmaxBuf scores) 0

/-- The logits of a filtered row, of an unfiltered one and of a greedy one. -/
def threeRows : LogitTensor ℚ where
  vocabSize := 3
  rows := [[negInf, finite 3, negInf], [negInf, negInf, 0], [0, finite 3, finite 2]]
  length_row := by simp

/-- Their parameters; the first and the last row have penalties. -/
def threeParams : List (SamplingParams ℚ) :=
  [⟨1, some 2, some (finite (1 / 2)), 1, 0, 0, finite 3⟩, ⟨1, none, none, 1, 0, 0, 0⟩,
    ⟨0, none, none, 1, 0, 0, finite 3⟩]

theorem forward_isolated_example : ∃ ws ws',
    forward (sampleRow noiseless) (fun _ => "") threeRows threeParams [[1], [], [1]] [7, 8, 9] none =
      .ok ([1, 2, 2], ws) ∧
    forward (sampleRow noiseless) (fun _ => "") (threeRows.row 2) [⟨0, none, none, 1, 0, 0, finite 3⟩]
      [[1]] [9] none = .ok ([2], ws') := by
  obtain ⟨tokens, ws, hrun, rfl⟩ : ∃ tokens ws, forward (sampleRow noiseless) (fun _ => "") threeRows
      threeParams [[1], [], [1]] [7, 8, 9] none = .ok (tokens, ws) ∧ tokens = [1, 2, 2] := by
    have hmap : (forward (sampleRow noiseless) (fun _ => "") threeRows threeParams [[1], [], [1]]
        [7, 8, 9] none).map Prod.fst = .ok [1, 2, 2] := by decide +kernel
    obtain ⟨result, hresult, hfst⟩ := exists_of_map_ok hmap
    exact ⟨result.1, result.2, hresult, hfst⟩
  have hnone : ∀ ws ∈ (none : Option (Workspace ℚ ℚ)), ws.WellSized := fun ws hws => by cases hws
  obtain ⟨-, -, hrows⟩ := (forward_isolated noiseless (fun _ => "") threeRows threeParams
    [[1], [], [1]] [7, 8, 9] none hnone).2 _ _ hrun
  obtain ⟨ws', halone⟩ := (hrows none hnone).2 2 _ [1] 9 2 rfl rfl rfl rfl
  exact ⟨ws, ws', hrun, halone⟩

end VllmOxide.Sampler
