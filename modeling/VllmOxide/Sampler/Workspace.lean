import Mathlib.Data.Nat.Log
import VllmOxide.Engine.Sequence
import VllmOxide.Library.DeviceMemory
import VllmOxide.Sampler.Greedy
import VllmOxide.Sampler.Prepare

/-!
# The workspace of the device sampler

`vllm_oxide_sample_f32` samples the rows of a batch one after the other in one workspace, which
outlives the call. A batch of greedy rows without penalties is sampled at once. Otherwise each row
goes one of four ways: greedy, a categorical draw, a filtered draw, and a fallback to wide
arithmetic that the kernels of the row may ask for through a flag.

What a kernel computes from the values it reads is a parameter; which cells it reads and writes, and
under which conditions, is not. The threads of a launch run in the order of their indices. Errors of
the CUDA runtime are left out, and so is the scratch storage of the sort.

## Main definitions

* `DeviceArithmetic`: what the kernels compute.
* `Workspace`, `Device`: the reused buffers, and with them the selected tokens of a call.
* `sampleRow`, `sampleF32`: the loop body for one row, and the call.
* `Workspace.ensure`, `sample`, `forward`: the adapter.
-/

namespace VllmOxide.Sampler

open Extended

/-- The penalties of a row. -/
structure Penalties (R : Type) where
  presence : Extended R
  frequency : Extended R
  repetition : Extended R

/-- What the kernels compute from the values that they read. A history is a list of tokens with
their counts. -/
structure DeviceArithmetic (R D : Type) where
  penalize : (value : Extended R) → (count : ℕ) → Penalties R → Extended R
  divide : Extended R → Extended R → Extended R
  wideMaximum : (logits : List (Extended R)) → (history : List (ℕ × ℕ)) → Penalties R → D × D
  normalize : (logits : List (Extended R)) → (history : List (ℕ × ℕ)) → Penalties R →
    (temperature : Extended R) → (maximum : D × D) → (token : ℕ) → Extended R
  selectWide : (logits : List (Extended R)) → (history : List (ℕ × ℕ)) → Penalties R →
    (temperature : Extended R) → (greedy : Bool) → (rowSeed : ℕ) → ℕ
  sortPairs : List (Extended R × ℕ) → List (Extended R × ℕ)
  length_sortPairs : ∀ pairs, (sortPairs pairs).length = pairs.length
  topKLimit : (sortedLogits : List (Extended R)) → (requestedK : ℕ) → ℕ
  topKLimit_le : ∀ sortedLogits requestedK, requestedK ≤ sortedLogits.length →
    topKLimit sortedLogits requestedK ≤ sortedLogits.length
  topPCutoff : (sortedLogits : List (Extended R)) → (topP : Extended R) → ℕ
  topPCutoff_le : ∀ sortedLogits topP, topPCutoff sortedLogits topP ≤ sortedLogits.length
  draw : (scaled : List (Extended R)) → (tokens : List ℕ) → (rowSeed : ℕ) → ℕ

/-- `Workspace`: the buffers that calls share. -/
structure Workspace (R D : Type) where
  vocabSize : ℕ
  historyCapacity : ℕ
  keysIn : Cells (Extended R)
  keysOut : Cells (Extended R)
  idsIn : Cells ℕ
  idsOut : Cells ℕ
  limits : Cells ℕ
  wideMaximum : Cells D
  historyTokens : Cells ℕ
  historyCounts : Cells ℕ

/-- The buffers of a call. -/
structure Device (R D : Type) extends Workspace R D where
  selectedTokens : Cells ℕ

/-- What the kernels of a row are launched with. -/
structure RowArguments (R : Type) where
  temperature : Extended R
  topK : ℕ
  topP : Extended R
  penalties : Penalties R
  historyBegin : ℕ
  historyLength : ℕ
  rowSeed : ℕ

section Kernels

variable {R D : Type} [Field R] [LinearOrder R]

/-- `is_positive_subnormal`. -/
def isPositiveSubnormal : Extended R → Bool
  | finite x => decide (0 < x ∧ x < 1 / (2 ^ 126 : ℕ))
  | _ => false

namespace Penalties

/-- `has_penalties`. -/
def active (penalties : Penalties R) : Bool :=
  penalties.presence != 0 || penalties.frequency != 0 || penalties.repetition != 0

/-- All three penalties compare equal to zero. -/
def plain (penalties : Penalties R) : Bool :=
  penalties.presence == 0 && penalties.frequency == 0 && penalties.repetition == 0

end Penalties

namespace RowArguments

/-- `greedy`. -/
def greedy (args : RowArguments R) : Bool :=
  args.temperature == 0 || args.topK == 1

/-- `subnormal_divisor`. -/
def subnormalDivisor (args : RowArguments R) : Bool :=
  (!args.greedy && isPositiveSubnormal args.temperature) ||
    (decide (0 < args.historyLength) && isPositiveSubnormal args.penalties.repetition)

/-- The defensive guard at the start of a call. -/
def invalid (args : RowArguments R) (vocabSize : ℕ) : Bool :=
  args.temperature.isNan || decide (args.temperature < 0) || decide (args.topK = 0) ||
    decide (vocabSize < args.topK) || !args.topP.isFinite || decide (args.topP ≤ 0) ||
    decide (1 < args.topP)

end RowArguments

/-- `blocks_for`. -/
def blocksFor (elements : ℕ) : ℕ :=
  wrap32 (elements + kThreads - 1) / kThreads

/-- A launch with one thread for each element, and threads past the end that return at once. -/
def launch (elements : ℕ) (thread : ℕ → Device R D → Except MemoryFault (Device R D)) :
    Device R D → Except MemoryFault (Device R D) :=
  forThreads (blocksFor elements * kThreads) fun index d =>
    if elements ≤ index then .ok d else thread index d

/-- `atomicExch(wide_required, 1U)`. -/
def requireWide (d : Device R D) : Except MemoryFault (Device R D) := do
  let limits ← d.limits.write 2 1
  return { d with limits := limits }

/-- `atomicExch` under a condition. -/
def requireWideIf (condition : Bool) (d : Device R D) : Except MemoryFault (Device R D) :=
  if condition then requireWide d else .ok d

/-- `cudaMemsetAsync(limits + 2, ...)`: every byte of the flag is set. -/
def resetWide (subnormalDivisor : Bool) (d : Device R D) : Except MemoryFault (Device R D) := do
  let limits ← d.limits.write 2 (if subnormalDivisor then 16843009 else 0)
  return { d with limits := limits }

/-- The part of the history buffers that belongs to a row. -/
def readHistory (d : Device R D) (args : RowArguments R) : Except MemoryFault (List (ℕ × ℕ)) :=
  (List.range args.historyLength).mapM fun i => do
    let token ← d.historyTokens.read (args.historyBegin + i)
    let count ← d.historyCounts.read (args.historyBegin + i)
    return (token, count)

/-- A finite value that arithmetic took out of the finite range. -/
def overflows (value result : Extended R) : Bool :=
  value.isFinite && !result.isFinite

/-- A thread of `apply_penalties_kernel`. -/
def penaltyThread (A : DeviceArithmetic R D) (args : RowArguments R) (index : ℕ) (d : Device R D) :
    Except MemoryFault (Device R D) := do
  let token ← d.historyTokens.read (args.historyBegin + index)
  let old ← d.keysIn.read token
  let count ← d.historyCounts.read (args.historyBegin + index)
  let value := A.penalize old count args.penalties
  let d ← requireWideIf (overflows old value) d
  let keysIn ← d.keysIn.write token value
  return { d with keysIn := keysIn }

/-- `apply_penalties_kernel`. -/
def applyPenaltiesKernel (A : DeviceArithmetic R D) (args : RowArguments R) :
    Device R D → Except MemoryFault (Device R D) :=
  launch args.historyLength (penaltyThread A args)

/-- `greedy_argmax_kernel` on logits that were read. -/
def writeGreedy (logits : List (Extended R)) (row : ℕ) (d : Device R D) :
    Except MemoryFault (Device R D) := do
  let selectedTokens ← d.selectedTokens.write row (greedyArgmaxKernel logits)
  return { d with selectedTokens := selectedTokens }

/-- `select_wide_kernel`. -/
def selectWideKernel (A : DeviceArithmetic R D) (rowLogits : List (Extended R))
    (args : RowArguments R) (greedy : Bool) (row : ℕ) (d : Device R D) :
    Except MemoryFault (Device R D) := do
  let wideRequired ← d.limits.read 2
  if wideRequired = 0 then return d
  let history ← readHistory d args
  let token := A.selectWide rowLogits history args.penalties args.temperature greedy args.rowSeed
  let selectedTokens ← d.selectedTokens.write row token
  return { d with selectedTokens := selectedTokens }

/-- The division by the temperature, which is a uniform distribution at `+∞`. -/
def scaled (A : DeviceArithmetic R D) (temperature value : Extended R) : Extended R :=
  if temperature.isInfinite then 0 else A.divide value temperature

/-- A finite value whose scaled value is too large for binary32 scores. -/
def needsWide (value result : Extended R) : Bool :=
  value.isFinite && (!result.isFinite || decide (finite ((2 ^ 24 : ℕ) : R) ≤ result.abs))

/-- The source of the logits of a row: the tensor, or the keys after the penalties. -/
inductive LogitSource
  | tensor
  | keysIn
deriving DecidableEq

/-- Read one logit. -/
def readLogit (source : LogitSource) (rowLogits : List (Extended R)) (d : Device R D) (i : ℕ) :
    Except MemoryFault (Extended R) :=
  match source with
  | .tensor => Cells.read (rowLogits.map some) i
  | .keysIn => d.keysIn.read i

/-- Read the logits. -/
def readLogits (source : LogitSource) (rowLogits : List (Extended R)) (vocabSize : ℕ)
    (d : Device R D) : Except MemoryFault (List (Extended R)) :=
  match source with
  | .tensor => Cells.readFirst (rowLogits.map some) vocabSize
  | .keysIn => d.keysIn.readFirst vocabSize

/-- `categorical_gumbel_kernel` on the unsorted logits of a row. -/
def categoricalKernel (A : DeviceArithmetic R D) (source : LogitSource)
    (rowLogits : List (Extended R)) (vocabSize : ℕ) (args : RowArguments R) (row : ℕ)
    (d : Device R D) : Except MemoryFault (Device R D) := do
  let logits ← readLogits source rowLogits vocabSize d
  let scores := logits.map (scaled A args.temperature)
  let d ← requireWideIf (logits.any fun value => needsWide value (scaled A args.temperature value)) d
  let token := A.draw scores (List.range vocabSize) args.rowSeed
  let selectedTokens ← d.selectedTokens.write row token
  return { d with selectedTokens := selectedTokens }

/-- A thread of `scale_temperature_kernel`. -/
def scaleThread (A : DeviceArithmetic R D) (source : LogitSource) (rowLogits : List (Extended R))
    (args : RowArguments R) (index : ℕ) (d : Device R D) : Except MemoryFault (Device R D) := do
  let value ← readLogit source rowLogits d index
  let result := scaled A args.temperature value
  let d ← requireWideIf (needsWide value result) d
  let keysIn ← d.keysIn.write index result
  return { d with keysIn := keysIn }

/-- `scale_temperature_kernel`. -/
def scaleTemperatureKernel (A : DeviceArithmetic R D) (source : LogitSource)
    (rowLogits : List (Extended R)) (vocabSize : ℕ) (args : RowArguments R) :
    Device R D → Except MemoryFault (Device R D) :=
  launch vocabSize (scaleThread A source rowLogits args)

/-- `wide_max_kernel`. -/
def wideMaxKernel (A : DeviceArithmetic R D) (rowLogits : List (Extended R))
    (args : RowArguments R) (d : Device R D) : Except MemoryFault (Device R D) := do
  let wideRequired ← d.limits.read 2
  if wideRequired = 0 then return d
  let history ← readHistory d args
  let maximum := A.wideMaximum rowLogits history args.penalties
  let wideMaximum ← d.wideMaximum.write 0 maximum.1
  let wideMaximum ← Cells.write wideMaximum 1 maximum.2
  return { d with wideMaximum := wideMaximum }

/-- A thread of `normalize_wide_kernel`. -/
def normalizeThread (A : DeviceArithmetic R D) (rowLogits : List (Extended R))
    (args : RowArguments R) (token : ℕ) (d : Device R D) : Except MemoryFault (Device R D) := do
  let wideRequired ← d.limits.read 2
  if wideRequired = 0 then return d
  let history ← readHistory d args
  let base ← d.wideMaximum.read 0
  let count ← d.wideMaximum.read 1
  let value := A.normalize rowLogits history args.penalties args.temperature (base, count) token
  let keysIn ← d.keysIn.write token value
  return { d with keysIn := keysIn }

/-- `normalize_wide_kernel`. -/
def normalizeWideKernel (A : DeviceArithmetic R D) (rowLogits : List (Extended R))
    (vocabSize : ℕ) (args : RowArguments R) : Device R D → Except MemoryFault (Device R D) :=
  launch vocabSize (normalizeThread A rowLogits args)

/-- A thread of `init_token_indices_kernel`. -/
def initThread (index : ℕ) (d : Device R D) : Except MemoryFault (Device R D) := do
  let idsIn ← d.idsIn.write index index
  return { d with idsIn := idsIn }

/-- `init_token_indices_kernel`. -/
def initTokenIndicesKernel (vocabSize : ℕ) : Device R D → Except MemoryFault (Device R D) :=
  launch vocabSize initThread

/-- `SortPairsDescending`. -/
def sortKernel (A : DeviceArithmetic R D) (vocabSize : ℕ) (d : Device R D) :
    Except MemoryFault (Device R D) := do
  let keys ← d.keysIn.readFirst vocabSize
  let ids ← d.idsIn.readFirst vocabSize
  let sorted := A.sortPairs (keys.zip ids)
  let keysOut ← d.keysOut.writeFirst (sorted.map Prod.fst)
  let idsOut ← d.idsOut.writeFirst (sorted.map Prod.snd)
  return { d with keysOut := keysOut, idsOut := idsOut }

/-- `top_k_limit_kernel`. -/
def topKLimitKernel (A : DeviceArithmetic R D) (vocabSize : ℕ) (args : RowArguments R)
    (d : Device R D) : Except MemoryFault (Device R D) := do
  let sortedLogits ← d.keysOut.readFirst vocabSize
  let limits ← d.limits.write 0 (A.topKLimit sortedLogits args.topK)
  return { d with limits := limits }

/-- `top_p_cutoff_kernel`, or `copy_limit_kernel` without a top-p filter. -/
def topPCutoffKernel (A : DeviceArithmetic R D) (args : RowArguments R) (d : Device R D) :
    Except MemoryFault (Device R D) := do
  let active ← d.limits.read 0
  if args.topP < 1 then
    let sortedLogits ← d.keysOut.readFirst active
    let limits ← d.limits.write 1 (A.topPCutoff sortedLogits args.topP)
    return { d with limits := limits }
  else
    let limits ← d.limits.write 1 active
    return { d with limits := limits }

/-- `categorical_gumbel_kernel` on the kept part of the sorted logits, which are scaled already. -/
def filteredDrawKernel (A : DeviceArithmetic R D) (args : RowArguments R) (row : ℕ)
    (d : Device R D) : Except MemoryFault (Device R D) := do
  let limit ← d.limits.read 1
  let scores ← d.keysOut.readFirst limit
  let tokens ← d.idsOut.readFirst limit
  let selectedTokens ← d.selectedTokens.write row (A.draw scores tokens args.rowSeed)
  return { d with selectedTokens := selectedTokens }

/-! ### A row -/

/-- The copy of the logits and the penalties, for a row that has penalties and a history. -/
def penalizeOnDevice (A : DeviceArithmetic R D) (rowLogits : List (Extended R))
    (args : RowArguments R) (d : Device R D) :
    Except MemoryFault (LogitSource × Device R D) :=
  if args.penalties.active && decide (0 < args.historyLength) then do
    let keysIn ← d.keysIn.writeFirst rowLogits
    let d ← applyPenaltiesKernel A args { d with keysIn := keysIn }
    return (.keysIn, d)
  else
    return (.tensor, d)

/-- The filtered draw. -/
def sampleFiltered (A : DeviceArithmetic R D) (source : LogitSource)
    (rowLogits : List (Extended R)) (vocabSize : ℕ) (args : RowArguments R) (row : ℕ)
    (d : Device R D) : Except MemoryFault (Device R D) := do
  let d ← scaleTemperatureKernel A source rowLogits vocabSize args d
  let d ← wideMaxKernel A rowLogits args d
  let d ← normalizeWideKernel A rowLogits vocabSize args d
  let d ← initTokenIndicesKernel vocabSize d
  let d ← sortKernel A vocabSize d
  let d ← topKLimitKernel A vocabSize args d
  let d ← topPCutoffKernel A args d
  filteredDrawKernel A args row d

/-- The loop body of `vllm_oxide_sample_f32`. -/
def sampleRow (A : DeviceArithmetic R D) (rowLogits : List (Extended R)) (vocabSize : ℕ)
    (args : RowArguments R) (row : ℕ) (d : Device R D) : Except MemoryFault (Device R D) := do
  let d ← resetWide args.subnormalDivisor d
  let (source, d) ← penalizeOnDevice A rowLogits args d
  if args.greedy then
    let logits ← readLogits source rowLogits vocabSize d
    let d ← writeGreedy logits row d
    selectWideKernel A rowLogits args true row d
  else if ¬ (args.topK < vocabSize ∨ args.topP < 1) then
    let d ← categoricalKernel A source rowLogits vocabSize args row d
    selectWideKernel A rowLogits args false row d
  else
    sampleFiltered A source rowLogits vocabSize args row d

/-! ### A call -/

/-- Read an array of the host. -/
def hostRead {α : Type} (values : List α) (i : ℕ) : Except MemoryFault α :=
  Cells.read (values.map some) i

/-- The arguments of a row, from the arrays of the host. -/
def rowArguments (prepared : PreparedBatch R) (rowSeeds : List ℕ) (row : ℕ) :
    Except MemoryFault (RowArguments R) := do
  let temperature ← hostRead prepared.temperatures row
  let topK ← hostRead prepared.topKs row
  let topP ← hostRead prepared.topPs row
  let presence ← hostRead prepared.presencePenalties row
  let frequency ← hostRead prepared.frequencyPenalties row
  let repetition ← hostRead prepared.repetitionPenalties row
  let historyBegin ← hostRead prepared.historyOffsets row
  let historyEnd ← hostRead prepared.historyOffsets (row + 1)
  let rowSeed ← hostRead rowSeeds row
  return {
    temperature := temperature
    topK := topK
    topP := topP
    penalties := ⟨presence, frequency, repetition⟩
    historyBegin := historyBegin
    historyLength := historyEnd - historyBegin
    rowSeed := rowSeed }

/-- The copies of the flattened history, if there is one. -/
def copyHistory (prepared : PreparedBatch R) (historyLen : ℕ) (d : Device R D) :
    Except MemoryFault (Device R D) :=
  if 0 < historyLen then do
    let historyTokens ← d.historyTokens.writeFirst (prepared.historyTokens.take historyLen)
    let historyCounts ← d.historyCounts.writeFirst (prepared.historyCounts.take historyLen)
    return { d with historyTokens := historyTokens, historyCounts := historyCounts }
  else
    return d

/-- The launch for a batch of greedy rows without penalties: one block for each row. -/
def sampleGreedyRows (rows : List (List (Extended R))) (vocabSize : ℕ) (d : Device R D) :
    Except MemoryFault (Device R D) :=
  rows.zipIdx.foldlM (fun d (rowLogits, row) => do
    let logits ← readLogits .tensor rowLogits vocabSize d
    writeGreedy logits row d) d

/-- What a loop over the rows does for a row. -/
abbrev RowBody (R D : Type) : Type :=
  (rowLogits : List (Extended R)) → (vocabSize : ℕ) → RowArguments R → (row : ℕ) → Device R D →
    Except MemoryFault (Device R D)

/-- The loop over the rows. -/
def sampleRows (body : RowBody R D) (rows : List (List (Extended R) × RowArguments R))
    (vocabSize : ℕ) (d : Device R D) : Except MemoryFault (Device R D) :=
  rows.zipIdx.foldlM (fun d ((rowLogits, args), row) => body rowLogits vocabSize args row d) d

/-- `vllm_oxide_sample_f32` with a loop body; nothing is returned with the status
`cudaErrorInvalidValue`. -/
def sampleF32 (body : RowBody R D) (rows : List (List (Extended R))) (vocabSize : ℕ)
    (prepared : PreparedBatch R) (rowSeeds : List ℕ) (d : Device R D) :
    Except MemoryFault (Option (Device R D)) :=
  if rows.length = 0 ∨ vocabSize = 0 then return none
  else do
    let historyLen ← hostRead prepared.historyOffsets rows.length
    let args ← (List.range rows.length).mapM (rowArguments prepared rowSeeds)
    if args.any fun args => args.invalid vocabSize then return none
    else if args.all fun args => args.greedy && args.penalties.plain then do
      let d ← sampleGreedyRows rows vocabSize d
      return some d
    else do
      let d ← copyHistory prepared historyLen d
      let d ← sampleRows body (rows.zip args) vocabSize d
      return some d

/-! ### The adapter -/

/-- Why a call returns no tokens: it was refused, or a kernel faulted. -/
inductive SampleError
  | refused (message : String)
  | memory (fault : MemoryFault)
deriving DecidableEq

/-- `next_capacity`. -/
def nextCapacity (required : ℕ) : Except String ℕ :=
  let capacity := 2 ^ Nat.clog 2 (max required 1)
  if capacity ≤ USIZE_MAX then .ok capacity
  else .error
    s!"sampler CUDA workspace history capacity overflow for {required} entries"

/-- `Tensor::zeros`. -/
def zeros {α : Type} [Zero α] (n : ℕ) : Cells α :=
  List.replicate n (some 0)

namespace Workspace

variable [Zero D]

/-- `Workspace::new`. -/
def new (vocabSize historyLen : ℕ) : Except String (Workspace R D) := do
  let _ ← tryU32 vocabSize
    s!"sampler CUDA workspace: vocabulary size {vocabSize} exceeds u32"
  let historyCapacity ← nextCapacity historyLen
  return {
    vocabSize := vocabSize
    historyCapacity := historyCapacity
    keysIn := zeros vocabSize
    keysOut := zeros vocabSize
    idsIn := zeros vocabSize
    idsOut := zeros vocabSize
    limits := zeros 3
    wideMaximum := zeros 2
    historyTokens := zeros historyCapacity
    historyCounts := zeros historyCapacity }

omit [Zero D] [Field R] [LinearOrder R] in
/-- `ensure_history_capacity`. -/
def ensureHistoryCapacity (ws : Workspace R D) (required : ℕ) : Except String (Workspace R D) :=
  if required ≤ ws.historyCapacity then return ws
  else do
    let newCapacity ← nextCapacity required
    return { ws with
      historyTokens := zeros newCapacity
      historyCounts := zeros newCapacity
      historyCapacity := newCapacity }

/-- `ensure_workspace`. -/
def ensure (slot : Option (Workspace R D)) (vocabSize historyLen : ℕ) :
    Except String (Workspace R D) := do
  let ws ← match slot with
    | none => new vocabSize historyLen
    | some ws => if ws.vocabSize ≠ vocabSize then new vocabSize historyLen else pure ws
  ws.ensureHistoryCapacity historyLen

end Workspace

/-- A batch of logits. -/
structure LogitTensor (R : Type) where
  vocabSize : ℕ
  rows : List (List (Extended R))
  length_row : ∀ row ∈ rows, row.length = vocabSize

/-- The error of a refused call. -/
def refusedBy {α : Type} (result : Except String α) : Except SampleError α :=
  result.mapError .refused

/-- The checks of `sample` before the preparation of the batch. -/
def checkTensor (logits : LogitTensor R) (rowSeeds : List ℕ) : Except String Unit := do
  bailIf (logits.vocabSize = 0) "sampler CUDA adapter: vocabulary must not be empty"
  let _ ← tryU32 logits.rows.length
    s!"sampler CUDA adapter: batch size {logits.rows.length} exceeds u32"
  let _ ← tryU32 logits.vocabSize
    s!"sampler CUDA adapter: vocabulary size {logits.vocabSize} exceeds u32"
  bailIf (I32_MAX < logits.vocabSize)
    s!"sampler CUDA adapter: vocabulary size {logits.vocabSize} exceeds i32"
  bailIf (rowSeeds.length ≠ logits.rows.length)
    s!"sampler CUDA adapter: row_seeds.len() = {rowSeeds.length} but batch = {logits.rows.length}"

/-- `sample` with a loop body: the selected tokens, and the workspace for the next call. -/
def sample [Zero D] (body : RowBody R D) (debug : Extended R → String)
    (logits : LogitTensor R) (params : List (SamplingParams R)) (tokenHistory : List (List ℕ))
    (rowSeeds : List ℕ) (slot : Option (Workspace R D)) :
    Except SampleError (List ℕ × Workspace R D) := do
  refusedBy (checkTensor logits rowSeeds)
  let prepared ← refusedBy (prepareBatch debug params tokenHistory logits.vocabSize)
  let ws ← refusedBy (Workspace.ensure slot logits.vocabSize prepared.historyTokens.length)
  let d : Device R D := { ws with selectedTokens := zeros logits.rows.length }
  let result ← (sampleF32 body logits.rows logits.vocabSize prepared rowSeeds d).mapError .memory
  match result with
  | none => throw (.refused
      "sampler CUDA error observed during CUDA sampling: invalid argument (status 1)")
  | some d =>
    let tokens ← (d.selectedTokens.readFirst logits.rows.length).mapError .memory
    return (tokens, d.toWorkspace)

/-- The checks of `Sampler::forward`. -/
def checkForward (logits : LogitTensor R) (params : List (SamplingParams R))
    (tokenHistory : List (List ℕ)) : Except String Unit := do
  bailIf (logits.rows.length = 0 ∨ logits.vocabSize = 0)
    "sampler.forward: batch and vocabulary must be nonempty"
  bailIf (params.length ≠ logits.rows.length)
    s!"sampler.forward: params.len() = {params.length} but batch = {logits.rows.length}"
  bailIf (tokenHistory.length ≠ logits.rows.length)
    s!"sampler.forward: token_history.len() = {tokenHistory.length} but batch = {logits.rows.length}"

/-- `Sampler::forward` on a CUDA device with a loop body, and with the seeds of the rows. -/
def forward [Zero D] (body : RowBody R D) (debug : Extended R → String) (logits : LogitTensor R)
    (params : List (SamplingParams R)) (tokenHistory : List (List ℕ)) (rowSeeds : List ℕ)
    (slot : Option (Workspace R D)) : Except SampleError (List ℕ × Workspace R D) := do
  refusedBy (checkForward logits params tokenHistory)
  sample body debug logits params tokenHistory rowSeeds slot

end Kernels

end VllmOxide.Sampler
