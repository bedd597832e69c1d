import VllmOxide.Attention.Prepared
import VllmOxide.Library.Outcome
import VllmOxide.Machine.Network

/-!
# The forward pass

The network gets the input ids and the positions of a step as two flat lists, and the attention
metadata. The metadata cut the lists into members, name the slot that each row is written to, and say
what a row can read: through the block table of its member the keys before it, and without block
tables the rows of its member before it. A row sees these contents and its own.

## Main definitions

* `AttnMetadata.members`: the members of a step.
* `CausalModel.forward`: the forward pass.

## Main results

* `CausalModel.length_forwardMember`: a member has one row for each of its ids.
-/

namespace VllmOxide

/-- A member of a step: its query and key lengths, and the block table that it reads, if any. -/
structure AttentionMember where
  queries : ℕ
  keys : ℕ
  blockTable : Option (List ℤ)

namespace AttnMetadata

/-- The query and key lengths of the members of a step. -/
def lengths (metadata : AttnMetadata) : List (ℕ × ℕ) :=
  ((memberLengths metadata.cuSeqlensQ).map UInt32.toNat).zip
    ((memberLengths metadata.cuSeqlensK).map UInt32.toNat)

/-- The members of a step. -/
def members (metadata : AttnMetadata) : List AttentionMember :=
  if metadata.usesPagedKv then
    List.zipWith (fun lengths blockTable => ⟨lengths.1, lengths.2, some blockTable⟩)
      metadata.lengths metadata.blockTable
  else metadata.lengths.map fun lengths => ⟨lengths.1, lengths.2, none⟩

/-- The checks of the network on its inputs. -/
def checkForward (metadata : AttnMetadata) (inputIds : List Token) (positions : List UInt32) :
    Except String Unit := do
  bailIf (inputIds.length ≠ positions.length ∨ inputIds.length ≠ metadata.slotMapping.length)
    "causal model received inconsistent step metadata"
  bailIf (∃ slot ∈ metadata.slotMapping, slot < 0) "causal model received a negative slot"
  bailIf (metadata.cuSeqlensK.length ≠ metadata.cuSeqlensQ.length - 1 + 1)
    "causal model received inconsistent sequence lengths"
  if metadata.usesPagedKv then do
    bailIf (metadata.blockTable.length ≠ metadata.cuSeqlensQ.length - 1)
      "causal model received inconsistent block tables"
    bailIf (∃ lengths ∈ metadata.lengths, lengths.2 < lengths.1)
      "causal model query is longer than its KV context"
  else
    bailIf (metadata.cuSeqlensQ ≠ metadata.cuSeqlensK)
      "initial prefill cannot consume an existing paged prefix in #37"

end AttnMetadata

/-- A row of the forward pass: an input id, its position and the slot for its content. -/
structure InputRow where
  tokenId : Token
  position : ℕ
  slot : ℤ

/-- The rows of a forward pass. -/
def inputRows (inputIds : List Token) (positions : List ℕ) (slotMapping : List ℤ) :
    List InputRow :=
  List.zipWith (fun tokenId place => ⟨tokenId, place.1, place.2⟩) inputIds
    (positions.zip slotMapping)

/-- The contents that the next row of a member reads after the rows `hidden`, the last one first: the
keys before it in the cache, and without a block table what the row before it has seen. -/
def AttentionMember.before {V : Type} (member : AttentionMember) (hidden : List (List V))
    (memory : Memory V) : List V :=
  match member.blockTable with
  | some blockTable =>
    memory.read (blockTable.map Int.toNat) (member.keys - member.queries + hidden.length)
  | none => hidden.headD []

namespace CausalModel

variable {V : Type} (model : CausalModel V)

/-- One row of a member, after the rows `state.1`, the last one first: its content is written to its
slot, and it has seen what it reads and its own content. -/
def forwardRow (member : AttentionMember) (state : List (List V) × Memory V) (row : InputRow) :
    List (List V) × Memory V :=
  let before := member.before state.1 state.2
  let content := model.content row.tokenId row.position before
  ((before ++ [content]) :: state.1, Function.update state.2 row.slot content)

/-- The rows of one member. -/
def forwardMember (member : AttentionMember) (rows : List InputRow) (memory : Memory V) :
    List (List V) × Memory V :=
  let state := rows.foldl (model.forwardRow member) ([], memory)
  (state.1.reverse, state.2)

/-- The rows of all members, one member after the other. -/
def forwardMembers : List AttentionMember → List InputRow → Memory V → List (List V) × Memory V
  | [], _, memory => ([], memory)
  | member :: members, rows, memory =>
    let first := model.forwardMember member (rows.take member.queries) memory
    let rest := forwardMembers members (rows.drop member.queries) first.2
    (first.1 ++ rest.1, rest.2)

/-- `forward`: what the rows have seen, and the cache after the pass. -/
def forward (metadata : AttnMetadata) (inputIds : List Token) (positions : List UInt32)
    (memory : Memory V) : Except String (List (List V) × Memory V) := do
  metadata.checkForward inputIds positions
  let state := model.forwardMembers metadata.members
    (inputRows inputIds (positions.map UInt32.toNat) metadata.slotMapping) memory
  bailIf (state.1.length ≠ inputIds.length) "shape mismatch"
  return state

/-- A member has one row for each of its ids. -/
theorem length_forwardMember (member : AttentionMember) (rows : List InputRow) (memory : Memory V) :
    (model.forwardMember member rows memory).1.length = rows.length := by
  have hfold : ∀ (rows : List InputRow) (state : List (List V) × Memory V),
      (rows.foldl (model.forwardRow member) state).1.length = state.1.length + rows.length := by
    intro rows
    induction rows with
    | nil => exact fun _ => rfl
    | cons row rest ih =>
      intro state
      have hrow : (model.forwardRow member state row).1.length = state.1.length + 1 := rfl
      rw [List.foldl_cons, ih, hrow, List.length_cons, Nat.add_right_comm, Nat.add_assoc]
  rw [forwardMember, List.length_reverse, hfold, List.length_nil, Nat.zero_add]

end CausalModel

end VllmOxide
