import VllmOxide.Sampler.Host

/-!
# The device sampler

The kernels of `sampler.cu` that filter one row: the radix sort of the scaled logits with their token
ids, the top-k limit and the top-p cutoff. The kept tokens are the ids of a prefix of the sorted row.
Arithmetic on logits is exact; indices are 32-bit and wrap around, and `sample` refuses a vocabulary
beyond `i32::MAX`.

## Main definitions

* `sortPairsDescending`: the sorted keys and ids of a row.
* `topKLimit`: the length of the prefix that the top-k filter keeps.
* `topPCutoff`: the length of the prefix that the top-p filter keeps of it, from sums over chunks.
* `filteredTokens`: the ids that both filters keep.
-/

namespace VllmOxide.Sampler

open Extended

/-- The threads of a block. -/
def kThreads : ℕ := 256

/-- A `uint32_t` sum or product. -/
def wrap32 (n : ℕ) : ℕ :=
  n % 2 ^ 32

/-- `i32::MAX`, the largest vocabulary that `sample` accepts. -/
def I32_MAX : ℕ := 2 ^ 31 - 1

variable {R : Type*} [Field R] [LinearOrder R]

/-- `init_token_indices_kernel` and `SortPairsDescending`: the sorted keys and their token ids. -/
def sortPairsDescending (cub : StableSort (Extended R × ℕ)) (keysIn : List (Extended R)) :
    List (Extended R) × List ℕ :=
  let idsIn := List.range keysIn.length
  (cub.sort (fun a b => decide (b.1 < a.1)) (keysIn.zip idsIn)).unzip

/-- `top_k_limit_kernel`: the requested prefix and the ties of its last entry. -/
def topKLimit (sortedLogits : List (Extended R)) (requestedK : ℕ) : ℕ :=
  if sortedLogits.length ≤ requestedK then
    sortedLogits.length
  else
    let threshold := entry sortedLogits (requestedK - 1)
    requestedK + ((sortedLogits.drop requestedK).takeWhile (· == threshold)).length

/-! ### The top-p cutoff -/

/-- The weight of an index of the sorted row. -/
def sortedWeight (e : Exponential R) (sortedLogits : List (Extended R)) (maximum : Extended R)
    (index : ℕ) : Extended R :=
  e.exp (entry sortedLogits index - maximum)

/-- `chunk_size`. -/
def chunkSize (active : ℕ) : ℕ :=
  wrap32 (active + kThreads - 1) / kThreads

/-- The indices of the chunk of a thread. -/
def chunkIndices (active chunk : ℕ) : List ℕ :=
  let first := wrap32 (chunk * chunkSize active)
  let last := min (wrap32 (first + chunkSize active)) active
  List.range' first (last - first)

/-- The search for the first chunk whose end reaches the target: the sum before it and its number,
which is the number of all chunks if there is none. -/
def selectChunk (target : Extended R) :
    (cumulative : Extended R) → (chunk : ℕ) → (sums : List (Extended R)) → Extended R × ℕ
  | cumulative, chunk, [] => (cumulative, chunk)
  | cumulative, chunk, sum :: sums =>
    let next := cumulative + sum
    if target ≤ next then (cumulative, chunk) else selectChunk target next (chunk + 1) sums

/-- The walk through the selected chunk, to the end of the entry that reaches the target. -/
def walkChunk (weight : ℕ → Extended R) (target : Extended R) :
    (cumulative : Extended R) → (indices : List ℕ) → Option ℕ
  | _, [] => none
  | cumulative, index :: indices =>
    let cumulative := cumulative + weight index
    if target ≤ cumulative then some (index + 1) else walkChunk weight target cumulative indices

/-- `top_p_cutoff_kernel`. -/
def topPCutoff (e : Exponential R) (sortedLogits : List (Extended R)) (active : ℕ)
    (topP : Extended R) : ℕ :=
  let maximum := entry sortedLogits 0
  let weight := sortedWeight e sortedLogits maximum
  let chunkSums := (List.range kThreads).map fun chunk =>
    Extended.sum ((chunkIndices active chunk).map weight)
  let total := Extended.sum chunkSums
  let target := topP * total
  let (cumulative, selectedChunk) := selectChunk target 0 0 chunkSums
  if selectedChunk < kThreads then
    (walkChunk weight target cumulative (chunkIndices active selectedChunk)).getD active
  else
    active

/-- The tokens that `top_k_limit_kernel` and `top_p_cutoff_kernel` leave to the categorical draw. -/
def filteredTokens (cub : StableSort (Extended R × ℕ)) (e : Exponential R) (topK : ℕ)
    (topP : Extended R) (keysIn : List (Extended R)) : List ℕ :=
  let (keysOut, idsOut) := sortPairsDescending cub keysIn
  let limit := topKLimit keysOut topK
  idsOut.take (topPCutoff e keysOut limit topP)

end VllmOxide.Sampler
