import Mathlib.Data.List.Basic
import Mathlib.Tactic.Linarith

/-!
# Sequences

The leaf of the data model: one `Sequence` for each request, with its token history, the
progress of its KV cache, the block table it owns and the sampling parameters it was accepted
with. Token ids are `u32`; lengths, indices and ids are `usize` and are natural numbers here,
except where the source checks an addition for overflow (`checkedAdd`).

## Main definitions

* `SamplingParams`: the request-owned sampling policy; the scheduler reads `maxTokens` and
  `ignoreEos` only.
* `Sequence`, `Sequence.new`, `Sequence.numBlocks`, `Sequence.block`,
  `Sequence.prefillTargetTokens`: the per-request state and its accessors.
-/

namespace VllmOxide

/-- Token ids are `u32` end to end. -/
abbrev Token := UInt32

/-- The largest `usize` of the supported 64-bit targets. -/
@[irreducible] def USIZE_MAX : ℕ := 18446744073709551615

/-- A `usize` configuration value. -/
abbrev Usize := { n : ℕ // n ≤ USIZE_MAX }

/-- `usize::checked_add`. -/
def checkedAdd (a b : ℕ) : Option ℕ :=
  if a + b ≤ USIZE_MAX then some (a + b) else none

theorem checkedAdd_of_le {a b : ℕ} (h : a + b ≤ USIZE_MAX) : checkedAdd a b = some (a + b) := by
  simp [checkedAdd, h]

/-- `usize::checked_mul`. -/
def checkedMul (a b : ℕ) : Option ℕ :=
  if a * b ≤ USIZE_MAX then some (a * b) else none

/-- `usize::div_ceil`. -/
def divCeil (a b : ℕ) : ℕ :=
  a / b + if 0 < a % b then 1 else 0

/-- `divCeil` blocks are enough. -/
theorem le_mul_divCeil (n size : ℕ) (hsize : 0 < size) : n ≤ size * divCeil n size := by
  have hmod := Nat.mod_lt n hsize
  have hsplit := Nat.div_add_mod n size
  rw [divCeil, Nat.mul_add]
  split
  · omega
  · omega

/-- `divCeil` is the smallest number of blocks that is enough. -/
theorem divCeil_le {n size count : ℕ} (h : n ≤ size * count) : divCeil n size ≤ count := by
  have hsplit := Nat.div_add_mod n size
  rw [divCeil]
  split
  · have hlt : size * (n / size) < size * count := by omega
    exact Nat.lt_of_mul_lt_mul_left hlt
  · exact Nat.div_le_of_le_mul h

/-- Block size for KV cache blocks. -/
@[irreducible] def BLOCK_SIZE : ℕ := 256

/-- The request-owned sampling policy. -/
structure SamplingParams where
  temperature : Float32
  topK : Option ℕ
  topP : Option Float32
  maxTokens : ℕ
  ignoreEos : Bool
  presencePenalty : Float32
  frequencyPenalty : Float32
  repetitionPenalty : Float32

/-- `SamplingParams::default`. -/
def SamplingParams.default : SamplingParams where
  temperature := 0
  topK := none
  topP := none
  maxTokens := 16
  ignoreEos := false
  presencePenalty := 0
  frequencyPenalty := 0
  repetitionPenalty := 0

/-- Sequence lifecycle status: `waiting → running → finished`, with `running → waiting` when a
recompute-only preemption releases the physical KV. -/
inductive SequenceStatus
  | waiting
  | running
  | finished
deriving DecidableEq, Repr

/-- Per-sequence state. -/
structure Sequence where
  requestId : ℕ
  seqId : ℕ
  status : SequenceStatus
  tokenIds : List Token
  lastToken : Token
  numTokens : ℕ
  numPromptTokens : ℕ
  numCachedTokens : ℕ
  numScheduledTokens : ℕ
  /-- Frozen logical history length that physical KV must rebuild after a preemption. -/
  recomputeTargetTokens : Option ℕ
  isPrefill : Bool
  blockTable : List ℕ
  samplingParams : SamplingParams

namespace Sequence

/-- Construct a new sequence in `waiting` status. -/
def new (requestId seqId : ℕ) (tokenIds : List Token) (params : SamplingParams) : Sequence where
  requestId := requestId
  seqId := seqId
  status := .waiting
  tokenIds := tokenIds
  lastToken := tokenIds.getLast?.getD 0
  numTokens := tokenIds.length
  numPromptTokens := tokenIds.length
  numCachedTokens := 0
  numScheduledTokens := 0
  recomputeTargetTokens := none
  isPrefill := true
  blockTable := []
  samplingParams := params

/-- Number of blocks needed to hold `numTokens` tokens, rounding up. -/
def numBlocks (seq : Sequence) : ℕ :=
  (seq.numTokens + (BLOCK_SIZE - 1)) / BLOCK_SIZE

/-- The tokens of block `i`; the final block may be partial. -/
def block (seq : Sequence) (i : ℕ) : List Token :=
  seq.tokenIds.extract (i * BLOCK_SIZE) (min (i * BLOCK_SIZE + BLOCK_SIZE) seq.numTokens)

/-- Append one token at the end of the sequence. -/
def appendToken (seq : Sequence) (tokenId : Token) : Sequence :=
  { seq with
    tokenIds := seq.tokenIds ++ [tokenId]
    lastToken := tokenId
    numTokens := seq.numTokens + 1 }

/-- Logical endpoint that prompt or recovery prefill must cache before another completion token
may be sampled. -/
def prefillTargetTokens (seq : Sequence) : ℕ :=
  seq.recomputeTargetTokens.getD seq.numPromptTokens

/-- Number of completion tokens generated so far. -/
def numCompletionTokens (seq : Sequence) : ℕ :=
  seq.numTokens - seq.numPromptTokens

/-- The prompt part of `tokenIds`. -/
def promptTokenIds (seq : Sequence) : List Token :=
  seq.tokenIds.take seq.numPromptTokens

/-- The generated part of `tokenIds`. -/
def completionTokenIds (seq : Sequence) : List Token :=
  seq.tokenIds.drop seq.numPromptTokens

end Sequence

end VllmOxide
