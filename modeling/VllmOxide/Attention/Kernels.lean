import Mathlib.Algebra.Field.Defs
import Mathlib.Order.Defs.LinearOrder
import VllmOxide.Attention.Prepared
import VllmOxide.Library.Outcome
import VllmOxide.Library.Tensor

/-!
# The attention kernels

The causal mask with its softmax, and the gather of keys and values from the paged cache, as the
device code computes them: an element of the result for each place of a row-major buffer. A masked
score is `-∞`, which is `none` here. Numbers are exact, and the reductions of a warp are the maximum
and the sum of a row.

## Main definitions

* `ExactArithmetic`: the functions on numbers that the computation uses.
* `queryValid`, `maskedValue`, `softmaxRow`: the causal mask and the softmax of a row.
* `softmax`: the masked softmax of scores, by one kernel for short rows and by three passes for long
  ones.
* `gather`, `gatherCache`, `gatherMember`: the keys or values of logical positions.
-/

namespace VllmOxide

/-! ### Launches -/

/-- The largest number of elements of a launch. -/
def LAUNCH_CAPACITY : ℕ := 2147483647 * 256

/-- `launch_count`. -/
def launchCount (shape : List ℕ) : Except String ℕ :=
  match product shape with
  | none => .error "attention shape overflows"
  | some count =>
    if count = 0 ∨ 2147483647 < divCeil count 256 then
      .error "attention shape exceeds CUDA launch capacity"
    else .ok count

/-- The difference of two `size_t` values. -/
def sizeSub (a b : ℕ) : ℕ :=
  if b ≤ a then a - b else a + 18446744073709551616 - b

/-- The length of a member, the difference of two neighbours of the cumulative lengths. -/
def memberLength (cuSeqlens : List UInt32) (member : ℕ) : ℕ :=
  (cuSeqlens.getD (member + 1) 0 - cuSeqlens.getD member 0).toNat

/-! ### The causal mask -/

/-- The geometry of the scores of a chunk of query rows. -/
structure AttentionMask where
  queries : ℕ
  keys : ℕ
  heads : ℕ
  queryStart : ℕ
  chunkRows : ℕ
  memberOffset : ℕ

namespace AttentionMask

/-- The member of a row of scores. -/
def member (mask : AttentionMask) (row : ℕ) : ℕ :=
  mask.memberOffset + row / (mask.heads * mask.chunkRows)

/-- The query of a row of scores. -/
def query (mask : AttentionMask) (row : ℕ) : ℕ :=
  mask.queryStart + row % mask.chunkRows

end AttentionMask

/-- `query_valid`: queries are padded on the left. -/
def queryValid (row : ℕ) (cuQ : List UInt32) (mask : AttentionMask) : Bool :=
  let length := memberLength cuQ (mask.member row)
  decide (sizeSub mask.queries length ≤ mask.query row ∧ mask.query row < mask.queries)

section Scores

variable {R : Type} [Field R] [LinearOrder R]

/-- `masked_value`. -/
def maskedValue (input : Tensor R) (row column : ℕ) (cuQ cuK : List UInt32) (mask : AttentionMask) :
    Option R :=
  let keys := memberLength cuK (mask.member row)
  if queryValid row cuQ mask = false ∨ column < sizeSub mask.keys keys ∨
      sizeSub mask.keys mask.queries + mask.query row < column then none
  else some (input.entry (row * mask.keys + column) + 0)

/-- The larger of two scores. -/
def maxScore (maximum value : Option R) : Option R :=
  match maximum, value with
  | none, value => value
  | some maximum, none => some maximum
  | some maximum, some value => some (if maximum < value then value else maximum)

/-- The softmax of a row of scores. A row without a score gives zeros. -/
def softmaxRow (exp : R → R) (values : List (Option R)) : List R :=
  match values.foldl maxScore none with
  | none => values.map fun _ => 0
  | some maximum =>
    let weights := values.map fun value => (value.map fun value => exp (value - maximum)).getD 0
    weights.map (· / weights.sum)

/-- The functions on numbers that the computation uses: the exponential function, the square root
that the scale is split by, and the softmax of the tensor library. The last one is only relied on
for rows with a score. -/
structure ExactArithmetic (R : Type) [Field R] [LinearOrder R] where
  exp : R → R
  sqrt : R → R
  softmax : List (Option R) → List R
  sqrt_mul_self : ∀ x, 0 < x → sqrt x * sqrt x = x
  softmax_eq : ∀ row, (∃ value, some value ∈ row) → softmax row = softmaxRow exp row

/-- A row of masked scores. -/
def maskedRow (input : Tensor R) (row : ℕ) (cuQ cuK : List UInt32) (mask : AttentionMask) :
    List (Option R) :=
  (List.range mask.keys).map fun column => maskedValue input row column cuQ cuK mask

/-- The checks before a launch on rows of scores. -/
def attentionRows (input : Tensor R) (mask : AttentionMask) : Except String Unit := do
  let count ← launchCount input.dims
  bailIf (count / mask.keys = 0 ∨ mask.keys = 0 ∨ mask.queries = 0 ∨ mask.heads = 0 ∨
    mask.chunkRows = 0) "attention rows CUDA status 1"

/-- `softmax`. Rows of at most 1024 keys are masked and normalised by one kernel; longer ones are
masked, normalised by the tensor library, and cleared where the query is padding. -/
def softmax (arithmetic : ExactArithmetic R) (scores : Tensor R) (prepared : PreparedAttention)
    (mask : AttentionMask) : Except String (Tensor R) := do
  let (batchHeads, rows, keys) ← scores.dims3
  let cuQ := prepared.logical.cuSeqlensQ
  let cuK := prepared.logical.cuSeqlensK
  let members := batchHeads / mask.heads
  bailIf (mask.heads = 0 ∨ batchHeads % mask.heads ≠ 0 ∨ rows ≠ mask.chunkRows ∨ keys ≠ mask.keys ∨
      keys < mask.queries ∨
      ((checkedAdd mask.queryStart rows).all fun last => decide (mask.queries < last)) ∨
      ((checkedAdd mask.memberOffset members).all fun last => decide (cuQ.length ≤ last)))
    "invalid attention mask extent"
  bailIf ((List.range' mask.memberOffset members).any fun member =>
      decide (mask.queries < memberLength cuQ member ∨ keys < memberLength cuK member))
    "attention mask is smaller than logical lengths"
  attentionRows scores mask
  if keys ≤ 1024 then
    return .build scores.dims fun index =>
      (softmaxRow arithmetic.exp (maskedRow scores (index / keys) cuQ cuK mask)).getD
        (index % keys) 0
  else
    attentionRows scores mask
    return .build scores.dims fun index =>
      if queryValid (index / keys) cuQ mask then
        (arithmetic.softmax (maskedRow scores (index / keys) cuQ cuK mask)).getD (index % keys) 0
      else 0

end Scores

/-! ### The cache -/

/-- `validate_cache`. -/
def PreparedAttention.validateCache (prepared : PreparedAttention) (shape : List ℕ) :
    Except String Unit :=
  if shape.length ≠ 4 ∨ 0 ∈ shape then .error "invalid paged attention cache shape"
  else
    match prepared.cacheShape with
    | some expected =>
      if shape ≠ expected then .error "cache differs from prepared attention geometry" else .ok ()
    | none =>
      let cuK := prepared.logical.cuSeqlensK
      if prepared.logical.blockTable.zipIdx.any fun (blocks, member) =>
          decide (blocks.length < divCeil (memberLength cuK member) (shape.getD 1 0)) ||
            blocks.any fun block => decide (block < 0 ∨ (shape.getD 0 0 : ℤ) ≤ block) then
        .error "paged attention block table exceeds cache bounds"
      else .ok ()

/-- `block_table`. -/
def PreparedAttention.blockTableTensor (prepared : PreparedAttention) :
    Except String BlockTableTensor :=
  match prepared.blockTable with
  | some table => .ok table
  | none => .error "prepared attention metadata has no paged block table"

/-- The geometry of a gather. -/
structure CacheGather where
  batch : ℕ
  keys : ℕ
  kvHeads : ℕ
  headDim : ℕ
  blockSize : ℕ
  tableWidth : ℕ
  numBlocks : ℕ
  memberOffset : ℕ

namespace CacheGather

/-- The number of elements of a token. -/
def width (shape : CacheGather) : ℕ := shape.kvHeads * shape.headDim

/-- The member and the padded column of an element of the result. -/
def place (shape : CacheGather) (index : ℕ) : ℕ × ℕ :=
  let token := index / shape.width
  (shape.memberOffset + token / shape.keys, token % shape.keys)

/-- The columns of padding before the keys of a member. -/
def padding (shape : CacheGather) (cuK : List UInt32) (member : ℕ) : ℕ :=
  sizeSub shape.keys (memberLength cuK member)

/-- The block that holds a logical position of a member. -/
def block (shape : CacheGather) (table : List ℕ) (member logical : ℕ) : ℕ :=
  table.getD (member * shape.tableWidth + logical / shape.blockSize) 0

variable {R : Type} [Zero R]

/-- `cache_gather_kernel`. An element of padding is zero; a block beyond the cache fails the
assertion of the kernel. -/
def kernel (shape : CacheGather) (input : Tensor R) (cuK : List UInt32) (table : List ℕ)
    (index : ℕ) : Except String R :=
  let (member, column) := shape.place index
  let padding := shape.padding cuK member
  if column < padding then .ok 0
  else
    let logical := column - padding
    let block := shape.block table member logical
    if shape.numBlocks ≤ block then .error "attention gather assertion"
    else
      let slot := block * shape.blockSize + logical % shape.blockSize
      .ok (input.entry (slot * shape.width + index % shape.width))

end CacheGather

section Cache

variable {R : Type} [Zero R]

/-- The members, columns and first member of a gather: for one member, as many columns as its keys,
or for the whole batch. -/
def gatherExtent (logical : AttnMetadata) (tableBatch : ℕ) :
    (member : Option ℕ) → Except String (ℕ × ℕ × ℕ)
  | some member =>
    if tableBatch ≤ member then .error "paged attention member exceeds batch"
    else .ok (1, memberLength logical.cuSeqlensK member, member)
  | none => .ok (tableBatch, logical.maxSeqlenK, 0)

/-- `gather`. -/
def gather (cache : Tensor R) (prepared : PreparedAttention) (member : Option ℕ) :
    Except String (Tensor R) := do
  let (numBlocks, blockSize, kvHeads, headDim) ← cache.dims4
  prepared.validateCache cache.dims
  let table ← prepared.blockTableTensor
  let tableBatch := table.flat.length / table.width
  let cuK := prepared.logical.cuSeqlensK
  let (batch, keys, memberOffset) ← gatherExtent prepared.logical tableBatch member
  let shape : CacheGather :=
    { batch, keys, kvHeads, headDim, blockSize, tableWidth := table.width, numBlocks, memberOffset }
  let dims := [batch, keys, kvHeads, headDim]
  let count ← launchCount dims
  bailIf (count = 0 ∨ blockSize = 0 ∨ table.width = 0 ∨ numBlocks = 0)
    "attention gather CUDA status 1"
  let data ← (List.range count).mapM (shape.kernel cache cuK table.flat)
  return .build dims fun index => data.getD index 0

/-- `gather_cache`. -/
def gatherCache (cache : Tensor R) (prepared : PreparedAttention) : Except String (Tensor R) :=
  gather cache prepared none

/-- `gather_member`. -/
def gatherMember (cache : Tensor R) (prepared : PreparedAttention) (member : ℕ) :
    Except String (Tensor R) := do
  let gathered ← gather cache prepared (some member)
  gathered.reshape gathered.dims.tail

end Cache

end VllmOxide
