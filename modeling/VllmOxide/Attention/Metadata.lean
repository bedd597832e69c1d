import Mathlib.Data.List.Basic
import Mathlib.Data.Int.Notation

/-!
# Per-step attention metadata

The logical metadata that the scheduler hands to the attention layer with every step plan:
cumulative query and key lengths (prefix sums), the slot of every new token and, for the paged
forms, one block-table row for each member. Cumulative lengths are `u32` and wrap as the
release build does; slots are `i64` and block ids `i32` values.
-/

namespace VllmOxide

/-- Logical attention metadata of one step. -/
structure AttnMetadata where
  isPrefill : Bool
  cuSeqlensQ : List UInt32
  cuSeqlensK : List UInt32
  maxSeqlenQ : ℕ
  maxSeqlenK : ℕ
  slotMapping : List ℤ
  blockTable : List (List ℤ)

/-- Whether the step reads keys and values through the block table. -/
def AttnMetadata.usesPagedKv (metadata : AttnMetadata) : Bool :=
  !metadata.blockTable.isEmpty

/-- The prefix sums of a list of lengths, from `start` on. -/
def cumulative (start : UInt32) : List UInt32 → List UInt32
  | [] => [start]
  | length :: rest => start :: cumulative (start + length) rest

/-- The largest of a list of lengths, or zero. -/
def maxLength (lengths : List UInt32) : ℕ :=
  lengths.foldl (fun best length => max best length.toNat) 0

/-- `build_decode_metadata`: every member has one query token. -/
def buildDecodeMetadata (contextLens : List UInt32) (blockTable : List (List ℤ))
    (slotMapping : List ℤ) : AttnMetadata where
  isPrefill := false
  cuSeqlensQ := cumulative 0 (contextLens.map fun _ => 1)
  cuSeqlensK := cumulative 0 contextLens
  maxSeqlenQ := 1
  maxSeqlenK := maxLength contextLens
  slotMapping := slotMapping
  blockTable := blockTable

/-- `build_prefill_metadata`: the unpaged form, without a block table. The two length lists are
visited in step. -/
def buildPrefillMetadata (scheduledTokens kvLengths : List UInt32) (slotMapping : List ℤ) :
    AttnMetadata :=
  let members := scheduledTokens.zip kvLengths
  { isPrefill := true
    cuSeqlensQ := cumulative 0 (members.map Prod.fst)
    cuSeqlensK := cumulative 0 (members.map Prod.snd)
    maxSeqlenQ := maxLength (members.map Prod.fst)
    maxSeqlenK := maxLength (members.map Prod.snd)
    slotMapping := slotMapping
    blockTable := [] }

/-- `build_continued_prefill_metadata`: the prefill form that reads the paged cache. -/
def buildContinuedPrefillMetadata (scheduledTokens kvLengths : List UInt32)
    (blockTable : List (List ℤ)) (slotMapping : List ℤ) : AttnMetadata :=
  { buildPrefillMetadata scheduledTokens kvLengths slotMapping with blockTable := blockTable }

end VllmOxide
