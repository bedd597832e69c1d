import VllmOxide.Attention.Kernels

/-!
# The attention computation

Causal attention over the rows of a step. Queries of a rectangular layout are padded on the left of
their member and computed at once; a packed layout computes the members one by one, over all heads or
head by head. Either way the rows are processed in chunks. Entries are exact numbers, so that the
conversions between the number formats do nothing.

## Main definitions

* `PreparedAttention.padQueries`, `PreparedAttention.unpadQueries`: the rows of a rectangular layout.
* `dense`: attention of a rectangular batch, in chunks of query rows.
* `prefillAttn`, `pagedAttn`, `attnCompute`: attention over projected and over cached keys and values.
-/

namespace VllmOxide

section

variable {R : Type} [Zero R]

namespace PreparedAttention

/-- `query_work`. -/
def queryWork (prepared : PreparedAttention) (member : ℕ) : Except String QueryWork :=
  match prepared.packedWork[member]? with
  | some work => .ok work
  | none => .error "no packed attention work for member"

/-- `pad_queries`. -/
def padQueries (prepared : PreparedAttention) (input : Tensor R) : Except String (Tensor R) :=
  if prepared.realRows.isNone then .ok input
  else do
    let rows ← input.dim 0
    bailIf (rows ≠ prepared.logical.slotMapping.length)
      "query tensor does not match prepared token rows"
    let parts ← (windows prepared.logical.cuSeqlensQ).mapM fun (first, second) => do
      let count := (second - first).toNat
      let part ← input.narrow 0 first.toNat count
      part.padWithZeros (prepared.logical.maxSeqlenQ - count) 0
    Tensor.cat parts 0

/-- `unpad_queries`. -/
def unpadQueries (prepared : PreparedAttention) (input : Tensor R) : Except String (Tensor R) :=
  match prepared.realRows with
  | some indices => input.indexSelect indices
  | none => .ok input

end PreparedAttention

end

section

variable {R : Type} [Field R] [LinearOrder R]

/-- `validate`. -/
def validate (q k v : Tensor R) (scale : R) : Except String Unit := do
  let (_, heads, dim) ← q.dims3
  let kvHeads ← k.dim (k.dims.length - 2)
  let width ← k.dim (k.dims.length - 1)
  bailIf (heads = 0 ∨ kvHeads = 0 ∨ heads % kvHeads ≠ 0 ∨ dim = 0 ∨ width ≠ dim ∨ k.dims ≠ v.dims ∨
      scale ≤ 0)
    "inconsistent attention projection/cache geometry"

/-- The keys or values of the query heads, as one batch of heads. -/
def expandHeads (input : Tensor R) (batch keys kvHeads heads dim : ℕ) :
    Except String (Tensor R) := do
  let input ← input.reshape [batch, keys, kvHeads, 1, dim]
  let input ← input.broadcastAs [batch, keys, kvHeads, heads / kvHeads, dim]
  let input ← input.reshape [batch, keys, heads, dim]
  let input ← input.transpose
  input.reshape [batch * heads, keys, dim]

/-- The scores of a chunk of query rows, computed with extra rows of zeros for small chunks. -/
def chunkScores (input key : Tensor R) (batchHeads queries keys count dim : ℕ) :
    Except String (Tensor R) :=
  let rows := scoreRows queries keys count
  if count < rows then do
    let padded ← Tensor.cat [input, Tensor.zeros [batchHeads, rows - count, dim]] 1
    let scores ← padded.matmul key
    scores.narrow 1 0 count
  else input.matmul key

/-- `dense`. -/
def dense (arithmetic : ExactArithmetic R) (q k v : Tensor R) (prepared : PreparedAttention)
    (scale : R) (memberOffset chunk : ℕ) : Except String (Tensor R) := do
  let (batch, queries, heads, dim) ← q.dims4
  let (_, keys, kvHeads, _) ← k.dims4
  let query ← q.transpose
  let query ← query.reshape [batch * heads, queries, dim]
  let key ← expandHeads k batch keys kvHeads heads dim
  let value ← expandHeads v batch keys kvHeads heads dim
  let rootScale := arithmetic.sqrt scale
  let query := query.scale rootScale
  let key ← (key.scale rootScale).transpose
  let outputs ← (List.range' 0 (divCeil queries chunk) chunk).mapM fun start => do
    let count := min (queries - start) chunk
    let input ← query.narrow 1 start count
    let scores ← chunkScores input key (batch * heads) queries keys count dim
    let probabilities ← softmax arithmetic scores prepared
      { queries, keys, heads, queryStart := start, chunkRows := count, memberOffset }
    probabilities.matmul value
  let output ← Tensor.cat outputs 1
  let output ← output.reshape [batch, heads, queries, dim]
  let output ← output.transpose
  output.reshape [batch * queries, heads, dim]

/-- A tensor with three axes as a batch of one member. -/
def asBatch (t : Tensor R) : Except String (Tensor R) :=
  t.reshape (1 :: t.dims)

/-- `packed_member`. -/
def packedMember (arithmetic : ExactArithmetic R) (q k v : Tensor R) (prepared : PreparedAttention)
    (scale : R) (member : ℕ) : Except String (Tensor R) := do
  let work ← prepared.queryWork member
  if work.splitHeads = false then
    dense arithmetic (← asBatch q) (← asBatch k) (← asBatch v) prepared scale member work.queryChunk
  else
    let (_, heads, _) ← q.dims3
    let kvHeads ← k.dim 1
    let outputs ← (List.range heads).mapM fun head => do
      let kvHead := head / (heads / kvHeads)
      let q ← q.narrow 1 head 1
      let k ← k.narrow 1 kvHead 1
      let v ← v.narrow 1 kvHead 1
      dense arithmetic (← asBatch q) (← asBatch k) (← asBatch v) prepared scale member
        work.queryChunk
    Tensor.cat outputs 1

/-- `prefill_attn`. -/
def prefillAttn (arithmetic : ExactArithmetic R) (q k v : Tensor R) (prepared : PreparedAttention)
    (scale : R) : Except String (Tensor R) := do
  validate q k v scale
  let logical := prepared.logical
  bailIf (logical.cuSeqlensQ ≠ logical.cuSeqlensK)
    "unpaged prefill requires complete query/key sequences"
  let batch := logical.cuSeqlensQ.length - 1
  if prepared.rectangular then
    let (_, heads, dim) ← q.dims3
    let kvHeads ← k.dim 1
    let q ← q.reshape [batch, logical.maxSeqlenQ, heads, dim]
    let k ← k.reshape [batch, logical.maxSeqlenK, kvHeads, dim]
    let v ← v.reshape [batch, logical.maxSeqlenK, kvHeads, dim]
    dense arithmetic q k v prepared scale 0 logical.maxSeqlenQ
  else
    let outputs ← (List.range batch).mapM fun member => do
      let start := (logical.cuSeqlensQ.getD member 0).toNat
      let count := memberLength logical.cuSeqlensQ member
      let q ← q.narrow 0 start count
      let k ← k.narrow 0 start count
      let v ← v.narrow 0 start count
      packedMember arithmetic q k v prepared scale member
    Tensor.cat outputs 0

/-- `paged_attn`. -/
def pagedAttn (arithmetic : ExactArithmetic R) (q k v : Tensor R) (prepared : PreparedAttention)
    (scale : R) (blockSize : ℕ) : Except String (Tensor R) := do
  validate q k v scale
  prepared.validateCache k.dims
  let page ← k.dim 1
  bailIf (page ≠ blockSize) "attention page size differs from cache"
  let logical := prepared.logical
  let batch := logical.cuSeqlensQ.length - 1
  if prepared.rectangular then
    let (_, heads, dim) ← q.dims3
    let q ← q.reshape [batch, logical.maxSeqlenQ, heads, dim]
    let k ← gatherCache k prepared
    let v ← gatherCache v prepared
    dense arithmetic q k v prepared scale 0 logical.maxSeqlenQ
  else
    let outputs ← (List.range batch).mapM fun member => do
      let start := (logical.cuSeqlensQ.getD member 0).toNat
      let count := memberLength logical.cuSeqlensQ member
      let q ← q.narrow 0 start count
      let k ← gatherMember k prepared member
      let v ← gatherMember v prepared member
      packedMember arithmetic q k v prepared scale member
    Tensor.cat outputs 0

/-- The choice of `attn_compute` between the two, after the projected keys and values have been written
to the cache. -/
def attnCompute (arithmetic : ExactArithmetic R) (q k v keyCache valueCache : Tensor R)
    (prepared : PreparedAttention) (scale : R) (blockSize : ℕ) : Except String (Tensor R) :=
  if prepared.logical.isPrefill && !prepared.logical.usesPagedKv then
    prefillAttn arithmetic q k v prepared scale
  else pagedAttn arithmetic q keyCache valueCache prepared scale blockSize

end

end VllmOxide
