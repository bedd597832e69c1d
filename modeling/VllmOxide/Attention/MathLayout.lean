import VllmOxide.Attention.Metadata
import VllmOxide.Engine.Sequence

/-!
# The layout of the attention computation

Before anything is uploaded for a step, the attention layer checks the cache addresses of the
metadata against the allocated cache and chooses a layout: one rectangular computation for the
whole batch if it fits the execution budget, or one packed computation for each member, with
chunks of query rows and, as a last resort, one query head at a time.

## Main definitions

* `MathLimits`, `MathLimits.plan`: the choice of a layout.
* `MathLimits.checkBounds`: its checks of slots and block tables.

## Main results

* `MathLimits.checkBounds_eq_ok`: addresses within the cache pass the checks.
-/

namespace VllmOxide

/-- The pairs of neighbours of a list (`windows(2)`). -/
def windows {α : Type} (xs : List α) : List (α × α) :=
  xs.zip xs.tail

/-- The lengths of the members of a list of cumulative lengths. The differences wrap as the release
build does. -/
def memberLengths (cumulativeLengths : List UInt32) : List UInt32 :=
  (windows cumulativeLengths).map fun (first, second) => second - first

theorem length_memberLengths (cuSeqlens : List UInt32) :
    (memberLengths cuSeqlens).length = cuSeqlens.length - 1 := by
  rw [memberLengths, List.length_map, windows, List.length_zip, List.length_tail]
  omega

/-- The work for one member of a packed computation: the rows of a chunk, and whether the query
heads are computed one by one. -/
structure QueryWork where
  queryChunk : ℕ
  splitHeads : Bool
deriving DecidableEq

/-- `QueryWork::standard`. -/
def QueryWork.standard (queries : ℕ) : QueryWork where
  queryChunk := if queries ≤ 1024 then max queries 1 else 128
  splitHeads := false

/-- `score_rows`: the rows of a chunk including the extra zero rows of small suffixes. -/
def scoreRows (queries keys chunk : ℕ) : ℕ :=
  if chunk < 32 ∧ chunk < keys ∧ (1 < chunk ∨ 1 < queries) then 32 else chunk

/-- The product of some factors, if it fits. -/
def product (values : List ℕ) : Option ℕ :=
  values.foldlM checkedMul 1

/-- The sum of some terms, if they all exist and it fits. -/
def sum (values : List (Option ℕ)) : Option ℕ :=
  values.foldlM (fun total value => value.bind (checkedAdd total)) 0

/-- The geometry of the model and its cache, and the execution budget. -/
structure MathLimits where
  queryHeads : ℕ
  kvHeads : ℕ
  headDim : ℕ
  blockSize : ℕ
  numBlocks : ℕ
  maxQueryTokens : ℕ
  workspaceBytes : ℕ

namespace MathLimits

/-- `full_bytes`: the workspace of a computation over all heads. -/
def fullBytes (limits : MathLimits) (batch queries keys chunk : ℕ) : Option ℕ :=
  sum [
    product [batch, max queries (scoreRows queries keys chunk), limits.queryHeads, limits.headDim,
      32],
    product [batch, keys, limits.queryHeads, limits.headDim, 16],
    product [batch, limits.queryHeads, scoreRows queries keys chunk, keys, 24]]

/-- `split_bytes`: the workspace of a computation head by head. -/
def splitBytes (limits : MathLimits) (queries keys chunk : ℕ) : Option ℕ :=
  sum [
    product [max queries (scoreRows queries keys chunk), limits.queryHeads, limits.headDim, 8],
    product [keys, limits.kvHeads, limits.headDim, 4],
    product [keys, limits.headDim, 16],
    product [queries, limits.headDim, 16],
    product [scoreRows queries keys chunk, keys, 24]]

/-- Whether a number of bytes exists and is within a budget. -/
def fits (bytes : Option ℕ) (budget : ℕ) : Bool :=
  bytes.any fun bytes => decide (bytes ≤ budget)

/-- The check of the geometry. -/
def checkGeometry (limits : MathLimits) : Except String Unit :=
  if limits.queryHeads = 0 ∨ limits.kvHeads = 0 ∨ limits.headDim = 0 ∨ limits.blockSize = 0 ∨
      limits.numBlocks = 0 ∨ limits.queryHeads % limits.kvHeads ≠ 0 ∨ limits.maxQueryTokens = 0 then
    .error "invalid attention compute geometry or token budget"
  else .ok ()

/-- The checks of slots and block tables. A negative slot is a sentinel. -/
def checkBounds (limits : MathLimits) (metadata : AttnMetadata) : Except String Unit :=
  match checkedMul limits.numBlocks limits.blockSize with
  | none => .error "KV slot capacity overflows"
  | some capacity =>
    if metadata.slotMapping.any fun slot => decide (0 ≤ slot ∧ (capacity : ℤ) ≤ slot) then
      .error "attention slot mapping exceeds the allocated KV cache"
    else if (metadata.blockTable.zip (memberLengths metadata.cuSeqlensK)).any fun (blocks, keys) =>
        decide (blocks.length < divCeil keys.toNat limits.blockSize) ||
          blocks.any fun block => decide (block < 0 ∨ (limits.numBlocks : ℤ) ≤ block) then
      .error "attention block table exceeds or does not cover the allocated KV cache"
    else .ok ()

/-- The loop that halves the chunk until the work fits. Each round but the last makes the chunk
smaller, so that `chunk` rounds are enough. -/
def reduceChunk (limits : MathLimits) (queries keys budget : ℕ) : (rounds chunk : ℕ) → ℕ
  | 0, chunk => chunk
  | rounds + 1, chunk =>
    if 1 < chunk ∧ ¬ fits (limits.splitBytes queries keys chunk) budget then
      reduceChunk limits queries keys budget rounds (divCeil chunk 2)
    else chunk

/-- The work for one member of a packed computation. -/
def memberWork (limits : MathLimits) (budget queries keys : ℕ) : Except String QueryWork :=
  let standard := QueryWork.standard queries
  if fits (limits.fullBytes 1 queries keys standard.queryChunk) budget then .ok standard
  else
    let chunk := max 1 (min queries 128)
    let chunk := limits.reduceChunk queries keys budget chunk chunk
    if fits (limits.splitBytes queries keys chunk) budget then .ok ⟨chunk, true⟩
    else .error s!"attention workspace exceeds {limits.workspaceBytes} bytes; lower gpu_memory_utilization or reduce the context/batch budget"

/-- The choice of a layout: whether it is rectangular, and the work of the members if it is not. -/
def layout (limits : MathLimits) (metadata : AttnMetadata) : Except String (Bool × List QueryWork) :=
  let batch := metadata.cuSeqlensQ.length - 1
  let queries := metadata.maxSeqlenQ
  let rectangular := decide (1 < batch) && fits (checkedMul batch queries) limits.maxQueryTokens &&
    fits (limits.fullBytes batch queries metadata.maxSeqlenK queries) limits.workspaceBytes
  if rectangular then .ok (true, [])
  else
    match product [metadata.slotMapping.length, limits.queryHeads, limits.headDim, 8] with
    | none => .error "attention output shape overflows"
    | some outputBytes =>
      if limits.workspaceBytes < outputBytes then
        .error "packed attention outputs exceed workspace budget"
      else do
        let members := (memberLengths metadata.cuSeqlensQ).zip (memberLengths metadata.cuSeqlensK)
        let work ← members.mapM fun (queries, keys) =>
          limits.memberWork (limits.workspaceBytes - outputBytes) queries.toNat keys.toNat
        return (false, work)

/-- `MathLimits::plan`. -/
def plan (limits : MathLimits) (metadata : AttnMetadata) : Except String (Bool × List QueryWork) := do
  limits.checkGeometry
  limits.checkBounds metadata
  limits.layout metadata

/-- Addresses within the cache pass the checks. -/
theorem checkBounds_eq_ok {limits : MathLimits} {metadata : AttnMetadata}
    (hcapacity : limits.numBlocks * limits.blockSize ≤ USIZE_MAX)
    (hslots : ∀ slot ∈ metadata.slotMapping, slot < (limits.numBlocks * limits.blockSize : ℕ))
    (hrows : ∀ row ∈ metadata.blockTable.zip (memberLengths metadata.cuSeqlensK),
      divCeil row.2.toNat limits.blockSize ≤ row.1.length)
    (hblocks : ∀ blocks ∈ metadata.blockTable, ∀ block ∈ blocks,
      0 ≤ block ∧ block < (limits.numBlocks : ℤ)) :
    limits.checkBounds metadata = .ok () := by
  rw [checkBounds, checkedMul, if_pos hcapacity]
  dsimp only
  rw [if_neg, if_neg]
  · rw [List.any_eq_true]
    rintro ⟨⟨blocks, keys⟩, hrow, hbad⟩
    rw [Bool.or_eq_true, decide_eq_true_eq, List.any_eq_true] at hbad
    rcases hbad with hshort | ⟨block, hblock, hrange⟩
    · exact absurd (hrows _ hrow) (not_le.mpr hshort)
    · have hmem := hblocks blocks (List.of_mem_zip hrow).1 block hblock
      have hrange := of_decide_eq_true hrange
      omega
  · rw [List.any_eq_true]
    rintro ⟨slot, hslot, hbad⟩
    have hlt := hslots slot hslot
    have hbad := of_decide_eq_true hbad
    omega

end MathLimits

end VllmOxide
