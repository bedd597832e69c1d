import VllmOxide.Library.LowerBound
import VllmOxide.Library.Outcome
import VllmOxide.Sampler.Host

/-!
# The histories of a device batch

`prepare_batch` checks the parameters of every row and flattens the histories of the rows that have
penalties: the tokens of the vocabulary that occur, in ascending order, with their counts, and for each
row the offset at which its part starts. The kernels find the count of a token by a binary search in
the part of their row.

## Main definitions

* `PreparedBatch`, `prepareBatch`: the flattened batch, or the message with which it is refused.
* `HistorySlice`: the part of the flattened arrays that a row's kernels get.
* `widePenalizedScore`: the wide score that a kernel computes from it.
-/

namespace VllmOxide.Sampler

open Extended

/-- `u32::MAX`. -/
def U32_MAX : ℕ := 2 ^ 32 - 1

/-- `u32::try_from`. -/
def tryU32 (n : ℕ) (message : String) : Except String ℕ :=
  if n ≤ U32_MAX then .ok n else .error message

/-- `PreparedBatch`. -/
structure PreparedBatch (R : Type*) where
  temperatures : List (Extended R)
  topKs : List ℕ
  topPs : List (Extended R)
  presencePenalties : List (Extended R)
  frequencyPenalties : List (Extended R)
  repetitionPenalties : List (Extended R)
  historyTokens : List ℕ
  historyCounts : List ℕ
  historyOffsets : List ℕ

section Prepare

variable {R : Type} [Field R] [LinearOrder R]

/-- The formatted value of a validation error, floats by the formatter of the language. -/
def ParamValue.render (debug : Extended R → String) : ParamValue R → String
  | .float x => debug x
  | .count n => toString n

/-- `Display` of a validation error. -/
def SamplingParamsValidationError.render (debug : Extended R → String)
    (error : SamplingParamsValidationError R) : String :=
  let value := error.value.render debug
  s!".{error.field}={value} is invalid: {error.reason}"

/-- `counts.entry(token).or_default()` and the checked increment, in an ordered map. -/
def countOrdered (row token : ℕ) : List (ℕ × ℕ) → Except String (List (ℕ × ℕ))
  | [] => .ok [(token, 1)]
  | (t, n) :: rest =>
    if t = token then
      if n + 1 ≤ U32_MAX then .ok ((t, n + 1) :: rest)
      else .error
        s!"sampler CUDA adapter: row {row} history count overflow for token {token}"
    else if token < t then
      .ok ((token, 1) :: (t, n) :: rest)
    else do
      let rest ← countOrdered row token rest
      return (t, n) :: rest

/-- The ordered map of the counts of a row. -/
def orderedCounts (row vocabSize : ℕ) (history : List ℕ) : Except String (List (ℕ × ℕ)) :=
  history.foldlM
    (fun counts token => if token < vocabSize then countOrdered row token counts else pure counts) []

/-- The counts that a row contributes: none without penalties or without a history. -/
def rowCounts (row vocabSize : ℕ) (params : SamplingParams R) (history : List ℕ) :
    Except String (List (ℕ × ℕ)) :=
  if params.hasPenalties ∧ history ≠ [] then orderedCounts row vocabSize history else .ok []

/-- The pass of `prepare_batch` over one row. -/
def prepareRow (debug : Extended R → String) (vocabSize : ℕ) (prepared : PreparedBatch R)
    (row : ℕ) (params : SamplingParams R) (history : List ℕ) : Except String (PreparedBatch R) := do
  match params.validate with
  | .ok () => pure ()
  | .error error =>
    let error := error.render debug
    throw s!"sampler CUDA adapter: sampling params at row {row}{error}"
  let topK := min (params.topK.getD vocabSize) vocabSize
  let topKU32 ← tryU32 topK s!"sampler CUDA adapter: row {row} top_k {topK} exceeds u32"
  let counts ← rowCounts row vocabSize params history
  let historyTokens := prepared.historyTokens ++ counts.map Prod.fst
  let offset ← tryU32 historyTokens.length
    s!"sampler CUDA adapter: flattened history exceeds u32 after row {row}"
  return {
    temperatures := prepared.temperatures ++ [params.temperature]
    topKs := prepared.topKs ++ [topKU32]
    topPs := prepared.topPs ++ [params.topP.getD 1]
    presencePenalties := prepared.presencePenalties ++ [params.presencePenalty]
    frequencyPenalties := prepared.frequencyPenalties ++ [params.frequencyPenalty]
    repetitionPenalties := prepared.repetitionPenalties ++ [params.repetitionPenalty]
    historyTokens := historyTokens
    historyCounts := prepared.historyCounts ++ counts.map Prod.snd
    historyOffsets := prepared.historyOffsets ++ [offset] }

/-- The batch before its first row. -/
def PreparedBatch.initial : PreparedBatch R where
  temperatures := []
  topKs := []
  topPs := []
  presencePenalties := []
  frequencyPenalties := []
  repetitionPenalties := []
  historyTokens := []
  historyCounts := []
  historyOffsets := [0]

/-- `prepare_batch`. -/
def prepareBatch (debug : Extended R → String) (params : List (SamplingParams R))
    (tokenHistory : List (List ℕ)) (vocabSize : ℕ) : Except String (PreparedBatch R) := do
  let vocabU32 ← tryU32 vocabSize
    s!"sampler CUDA adapter: vocabulary size {vocabSize} exceeds u32"
  (params.zip tokenHistory).zipIdx.foldlM
    (fun prepared indexed => prepareRow debug vocabU32 prepared indexed.2 indexed.1.1 indexed.1.2)
    PreparedBatch.initial

/-! ### The kernels' view -/

/-- The pointers and the length with which the kernels of a row are launched. -/
structure HistorySlice where
  tokens : ℕ → ℕ
  counts : ℕ → ℕ
  length : ℕ

/-- `history_offsets[row]`. -/
def PreparedBatch.historyBegin (prepared : PreparedBatch R) (row : ℕ) : ℕ :=
  prepared.historyOffsets.getD row 0

/-- `history_offsets[row + 1] - history_offsets[row]`. -/
def PreparedBatch.historyLength (prepared : PreparedBatch R) (row : ℕ) : ℕ :=
  prepared.historyOffsets.getD (row + 1) 0 - prepared.historyBegin row

/-- The slice of a row, in device buffers with the given contents. -/
def PreparedBatch.slice (prepared : PreparedBatch R) (tokensDevice countsDevice : ℕ → ℕ) (row : ℕ) :
    HistorySlice where
  tokens i := tokensDevice (prepared.historyBegin row + i)
  counts i := countsDevice (prepared.historyBegin row + i)
  length := prepared.historyLength row

/-- Where the binary search of `wide_penalized_score` ends. -/
def HistorySlice.search (slice : HistorySlice) (token : ℕ) : ℕ :=
  lowerBound slice.tokens token 0 slice.length

/-- The search found the token. -/
def HistorySlice.Finds (slice : HistorySlice) (token : ℕ) : Prop :=
  slice.search token < slice.length ∧ slice.tokens (slice.search token) = token

instance (slice : HistorySlice) (token : ℕ) : Decidable (slice.Finds token) :=
  inferInstanceAs (Decidable (_ ∧ _))

/-- `wide_penalized_score`. -/
def widePenalizedScore (logits : List (Extended R)) (token : ℕ) (slice : HistorySlice)
    (repetitionPenalty : Extended R) : WideScore R :=
  let base := entry logits token
  if slice.Finds token then
    { base := if repetitionPenalty != 0 then base / repetitionPenalty else base
      count := slice.counts (slice.search token) }
  else
    { base := base, count := 0 }

end Prepare

end VllmOxide.Sampler
