import VllmOxide.Library.Extended
import VllmOxide.Library.StableSort

/-!
# The host sampler

The reference implementation of `sampler.rs`, which draws one token from one row of logits: penalties,
the greedy short-circuit, temperature, the top-k and top-p masks and the Gumbel maximum. Arithmetic is
exact; the standard library's sort, its selection, the exponential, the order in which a hash map is
walked and the noise are parameters. `forward` refuses an empty vocabulary, so a row has an entry.

## Main definitions

* `SamplingParams`: the fields that the sampler reads.
* `historyCounts`, `applyPenalties`: how often each token occurs, and what that does to a row.
* `argmaxBuf`, `maskTopK`, `maskTopP`, `gumbelArgmaxBuf`: the steps of the ordinary pipeline.
* `WideScore`, `wideSamplingScores`, `sampleRowWide`: the wide fallback.
* `sampleRowHost`: the pipeline, which picks one of the two.
-/

namespace VllmOxide.Sampler

open Extended

/-! ### Parameters -/

/-- The sampling parameters of one row. `ignore_eos` is left to the engine. -/
structure SamplingParams (R : Type*) where
  temperature : Extended R
  topK : Option ℕ
  topP : Option (Extended R)
  maxTokens : ℕ
  presencePenalty : Extended R
  frequencyPenalty : Extended R
  repetitionPenalty : Extended R

/-- A rejected value, which the source formats. -/
inductive ParamValue (R : Type*) where
  | float (x : Extended R)
  | count (n : ℕ)

/-- `SamplingParamsValidationError`. -/
structure SamplingParamsValidationError (R : Type*) where
  field : String
  value : ParamValue R
  reason : String

section Validation

variable {R : Type*} [Field R] [LinearOrder R]

/-- `validate_additive_penalty`. -/
def validateAdditivePenalty (field : String) (value : Extended R) :
    Except (SamplingParamsValidationError R) Unit :=
  if !value.isFinite then
    .error ⟨field, .float value, "must be finite"⟩
  else if ¬ (finite (-2) ≤ value ∧ value ≤ finite 2) then
    .error ⟨field, .float value, "must be in [-2, 2]"⟩
  else
    .ok ()

namespace SamplingParams

/-- `SamplingParams::validate`. -/
def validate (params : SamplingParams R) : Except (SamplingParamsValidationError R) Unit := do
  if params.temperature.isNan then
    throw ⟨"temperature", .float params.temperature, "must not be NaN"⟩
  if params.temperature < 0 then
    throw ⟨"temperature", .float params.temperature, "must be greater than or equal to 0"⟩
  match params.topK with
  | some 0 => throw ⟨"top_k", .count 0, "must be at least 1 when set"⟩
  | _ => pure ()
  match params.topP with
  | some topP =>
    if !topP.isFinite then
      throw ⟨"top_p", .float topP, "must be finite"⟩
    if ¬ (0 ≤ topP ∧ topP ≤ 1) ∨ topP == 0 then
      throw ⟨"top_p", .float topP, "must be in (0, 1]"⟩
  | none => pure ()
  validateAdditivePenalty "presence_penalty" params.presencePenalty
  validateAdditivePenalty "frequency_penalty" params.frequencyPenalty
  if !params.repetitionPenalty.isFinite then
    throw ⟨"repetition_penalty", .float params.repetitionPenalty, "must be finite"⟩
  if params.repetitionPenalty < 0 then
    throw ⟨"repetition_penalty", .float params.repetitionPenalty,
      "must be greater than or equal to 0"⟩
  if params.maxTokens = 0 then
    throw ⟨"max_tokens", .count params.maxTokens, "must be at least 1"⟩

/-- `SamplingParams::is_greedy`. -/
def isGreedy (params : SamplingParams R) : Bool :=
  params.temperature == 0 || params.topK == some 1

/-- `SamplingParams::has_penalties`. -/
def hasPenalties (params : SamplingParams R) : Bool :=
  params.presencePenalty != 0 || params.frequencyPenalty != 0 || params.repetitionPenalty != 0

end SamplingParams

end Validation

/-! ### The history of a row -/

/-- The order in which the entries of a hash map are visited, which the map does not promise. -/
structure HashOrder where
  walk : List (ℕ × ℕ) → List (ℕ × ℕ)
  perm : ∀ entries, (walk entries).Perm entries

/-- The entries in the order in which they were made. -/
def HashOrder.insertion : HashOrder where
  walk := id
  perm _ := .refl _

/-- `*counts.entry(token).or_insert(0) += 1`. -/
def countToken (counts : List (ℕ × ℕ)) (token : ℕ) : List (ℕ × ℕ) :=
  match counts with
  | [] => [(token, 1)]
  | (t, n) :: rest => if t = token then (t, n + 1) :: rest else (t, n) :: countToken rest token

/-- The count of each token of the vocabulary in a history; tokens outside it are skipped. -/
def historyCounts (vocab : ℕ) (history : List ℕ) : List (ℕ × ℕ) :=
  history.foldl (fun counts token => if token < vocab then countToken counts token else counts) []

section Pipeline

variable {R : Type*} [Field R] [LinearOrder R]

/-- An entry of a buffer. -/
def entry (buf : List (Extended R)) (i : ℕ) : Extended R :=
  buf.getD i negInf

/-- The penalties on the logit of a token that occurs `count` times. -/
def penalize (params : SamplingParams R) (count : ℕ) (logit : Extended R) : Extended R :=
  let logit := if params.repetitionPenalty != 0 then logit / params.repetitionPenalty else logit
  let logit := logit - params.presencePenalty
  if params.frequencyPenalty != 0 then logit - params.frequencyPenalty * ofNat count else logit

/-- `apply_penalties`. -/
def applyPenalties (hash : HashOrder) (params : SamplingParams R) (history : List ℕ) (vocab : ℕ)
    (buf : List (Extended R)) : List (Extended R) :=
  (hash.walk (historyCounts vocab history)).foldl
    (fun buf counted => buf.modify counted.1 (penalize params counted.2)) buf

/-! ### The steps of the ordinary pipeline -/

/-- `argmax_buf`: a strictly greater entry replaces the best one, so the lowest index wins ties. -/
def argmaxBuf (buf : List (Extended R)) : ℕ :=
  (buf.zipIdx.foldl (fun best entry => if best.1 < entry.1 then entry else best) (negInf, 0)).2

/-- The comparator of the masks, which puts greater entries first. -/
def byEntry (buf : List (Extended R)) (a b : ℕ) : Bool :=
  decide (entry buf b < entry buf a)

/-- `mask_top_k`, for `1 ≤ k ≤ buf.length`. -/
def maskTopK (nth : NthSelection ℕ) (k : ℕ) (buf : List (Extended R)) : List (Extended R) :=
  let idx := nth.select (byEntry buf) (List.range buf.length) (k - 1)
  let threshold := entry buf (idx.getD (k - 1) 0)
  buf.map fun v => if v < threshold then negInf else v

/-- The walk over the sorted row that stops once the cumulative probability reaches `p`. -/
def nucleusCutoff (p expSum : Extended R) (keepAll : ℕ) :
    (cumsum : Extended R) → (rank : ℕ) → (weights : List (Extended R)) → ℕ
  | _, _, [] => keepAll
  | cumsum, rank, weight :: weights =>
    let cumsum := cumsum + weight / expSum
    if p ≤ cumsum then rank + 1 else nucleusCutoff p expSum keepAll cumsum (rank + 1) weights

/-- The table `rank_of_token`: the position of each token in the sorted order. -/
def rankOfToken (length : ℕ) (idx : List ℕ) : List ℕ :=
  idx.zipIdx.foldl (fun ranks placed => ranks.set placed.1 placed.2) (List.replicate length 0)

/-- `mask_top_p`. -/
def maskTopP (sort : StableSort ℕ) (e : Exponential R) (p : Extended R) (buf : List (Extended R)) :
    List (Extended R) :=
  let idx := sort.sort (byEntry buf) (List.range buf.length)
  let max := entry buf (idx.getD 0 0)
  let expSum := Extended.sum (buf.map fun v => e.exp (v - max))
  let ranks := rankOfToken buf.length idx
  let cutoff := nucleusCutoff p expSum buf.length 0 0 (idx.map fun tok => e.exp (entry buf tok - max))
  buf.mapIdx fun tok v => if cutoff ≤ ranks.getD tok 0 then negInf else v

/-- `gumbel_argmax_buf`, with the noise drawn for each token. -/
def gumbelArgmaxBuf (noise : ℕ → Extended R) (logits : List (Extended R)) : ℕ :=
  argmaxBuf (logits.mapIdx fun i logit => logit + noise i)

/-- What the pipeline leaves to the standard library and to the generator of noise. -/
structure Platform (R : Type*) [Zero R] [LT R] where
  nth : NthSelection ℕ
  sort : StableSort ℕ
  exp : Exponential R
  noise : ℕ → Extended R

/-- Merge sort, a rational function that grows like an exponential near zero, and no noise. -/
def Platform.rational : Platform ℚ where
  nth := .mergeSort
  sort := .mergeSort
  exp := .rational
  noise _ := 0

/-- The top-k step: the mask with the guard of its callers. -/
def topKStep (env : Platform R) (params : SamplingParams R) (buf : List (Extended R)) :
    List (Extended R) :=
  match params.topK with
  | some k => if 1 ≤ k ∧ k < buf.length then maskTopK env.nth k buf else buf
  | none => buf

/-- The top-p step: the mask with the guard of its callers. -/
def topPStep (env : Platform R) (params : SamplingParams R) (buf : List (Extended R)) :
    List (Extended R) :=
  match params.topP with
  | some p => if 0 < p ∧ p < 1 then maskTopP env.sort env.exp p buf else buf
  | none => buf

/-- The two masks. -/
def maskRow (env : Platform R) (params : SamplingParams R) (buf : List (Extended R)) :
    List (Extended R) :=
  topPStep env params (topKStep env params buf)

/-- The penalty step: the penalties with the guard of their caller. -/
def penalizeRow (hash : HashOrder) (params : SamplingParams R) (history : List ℕ)
    (buf : List (Extended R)) : List (Extended R) :=
  if params.hasPenalties ∧ history ≠ [] then
    applyPenalties hash params history buf.length buf
  else
    buf

/-- The ordinary pipeline of `sample_row_host`. -/
def sampleRowOrdinary (hash : HashOrder) (env : Platform R) (params : SamplingParams R)
    (history : List ℕ) (buf : List (Extended R)) : ℕ :=
  let buf := penalizeRow hash params history buf
  if params.isGreedy then
    argmaxBuf buf
  else
    let invT := 1 / params.temperature
    let buf := buf.map (· * invT)
    gumbelArgmaxBuf env.noise (maskRow env params buf)

/-! ### The wide fallback -/

/-- A score that keeps the count of its token apart from its base. -/
structure WideScore (R : Type*) where
  base : Extended R
  count : ℕ

instance : Inhabited (WideScore R) := ⟨⟨negInf, 0⟩⟩

/-- `two_sum`. -/
def twoSum (left right : Extended R) : Extended R × Extended R :=
  let sum := left + right
  let rightPart := sum - left
  let error := (left - (sum - rightPart)) + (right - rightPart)
  (sum, error)

/-- The presence penalty that separates two tokens with these counts. -/
def presenceGap (params : SamplingParams R) (count other : ℕ) : Extended R :=
  if decide (0 < count) = decide (0 < other) then 0
  else if 0 < count then -params.presencePenalty
  else params.presencePenalty

/-- `count_difference`. -/
def countDifference (count other : ℕ) : Extended R :=
  if other ≤ count then ofNat (count - other) else -ofNat (other - count)

/-- `WideScore::difference`. -/
def WideScore.difference (self other : WideScore R) (params : SamplingParams R) : Extended R :=
  let primary := self.base - other.base
  if !primary.isFinite then
    primary
  else
    let presence := presenceGap params self.count other.count
    let frequency := -params.frequencyPenalty * countDifference self.count other.count
    let (sum, error) := twoSum primary frequency
    let (sum, nextError) := twoSum sum presence
    sum + (error + nextError)

/-- The wide score of a token that occurs `count` times. -/
def WideScore.record (params : SamplingParams R) (count : ℕ) (value : WideScore R) : WideScore R where
  base := if params.repetitionPenalty != 0 then value.base / params.repetitionPenalty else value.base
  count := count

/-- `wide_sampling_scores`. -/
def wideSamplingScores (hash : HashOrder) (buf : List (Extended R)) (params : SamplingParams R)
    (history : List ℕ) : List (WideScore R) :=
  let wide := buf.map fun value => (⟨value, 0⟩ : WideScore R)
  if params.hasPenalties ∧ history ≠ [] then
    (hash.walk (historyCounts wide.length history)).foldl
      (fun wide counted => wide.modify counted.1 (WideScore.record params counted.2)) wide
  else
    wide

/-- The pairwise search for the greatest wide score, from a `-∞` sentinel. -/
def wideBest (params : SamplingParams R) (wide : List (WideScore R)) : WideScore R × ℕ :=
  wide.zipIdx.foldl
    (fun best entry => if 0 < entry.1.difference best.1 params then entry else best) (⟨negInf, 0⟩, 0)

/-- `sample_row_wide`. -/
def sampleRowWide (hash : HashOrder) (env : Platform R) (logits : List (Extended R))
    (params : SamplingParams R) (history : List ℕ) : ℕ :=
  let wide := wideSamplingScores hash logits params history
  let best := wideBest params wide
  if params.isGreedy then
    best.2
  else
    let normalized := wide.map fun value =>
      if params.temperature.isInfinite then 0
      else value.difference best.1 params / params.temperature
    gumbelArgmaxBuf env.noise (maskRow env params normalized)

/-! ### The choice between the two -/

/-- `f32::MAX`. -/
def F32_MAX : Extended R :=
  finite ((2 ^ 24 - 1) * 2 ^ 104)

/-- `requires_wide_sampling`. -/
def requiresWideSampling (buf : List (Extended R)) (params : SamplingParams R) (history : List ℕ) :
    Bool :=
  let penalized := params.hasPenalties && decide (history ≠ [])
  if params.isGreedy && !penalized then
    false
  else if buf.any fun value => !value.isFinite then
    false
  else
    let bound := buf.foldl (fun bound value => bound.max value.abs) 0
    let bound :=
      if penalized then
        let bound :=
          if 0 < params.repetitionPenalty then bound.max (bound / params.repetitionPenalty) else bound
        bound + (params.presencePenalty.abs + params.frequencyPenalty.abs * ofNat history.length)
      else bound
    if F32_MAX < bound then
      true
    else if params.isGreedy || params.temperature.isInfinite then
      false
    else
      let invT := 1 / params.temperature
      !invT.isFinite || decide (finite 16777216 ≤ bound * invT)

/-- `sample_row_host`. -/
def sampleRowHost (hash : HashOrder) (env : Platform R) (params : SamplingParams R)
    (history : List ℕ) (buf : List (Extended R)) : ℕ :=
  if requiresWideSampling buf params history then
    sampleRowWide hash env buf params history
  else
    sampleRowOrdinary hash env params history buf

end Pipeline

end VllmOxide.Sampler
