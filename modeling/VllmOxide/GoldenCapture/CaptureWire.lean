import VllmOxide.GoldenCapture.Capture

/-!
# What is written is read back

The lines of a spool and of an artifact are read back as they were written, provided that the numbers
fit the machine words and the logits are finite. Numbers that are not finite are lost on the way.

## Main results

* `SpoolRow.read_toJson`, `ArtifactLine.read_toJson`: the round trips.
-/

namespace VllmOxide.GoldenCapture

open Json

/-- Every value of a row is finite. -/
def Finite (logits : List Float32) : Prop :=
  ∀ value ∈ logits, value.isFinite = true

theorem readToken_nat (token : Token) : readToken (.nat token.toNat) = .ok token := by
  have hlt : token.toNat ≤ 4294967295 := Nat.le_of_lt_succ token.toNat_lt
  rw [readToken, readNat_nat hlt]
  exact congrArg Except.ok (UInt32.ofNat_toNat)

theorem readList_float32 {logits : List Float32} (h : Finite logits) :
    readList readFloat32 (.arr (logits.map Json.float32)) = .ok logits :=
  readList_map fun value hvalue => readFloat32_float32 (h value hvalue)

theorem RequestBinding.read_toJson {binding : RequestBinding}
    (hposition : binding.inputPosition ≤ USIZE_MAX) (hid : binding.requestId ≤ USIZE_MAX) :
    RequestBinding.read binding.toJson = .ok binding := by
  have hfields := @fieldsOf_obj [("input_position", .nat binding.inputPosition),
    ("request_id", .nat binding.requestId)] (by simp)
  simp only [List.map_cons, List.map_nil] at hfields
  rw [RequestBinding.read, RequestBinding.toJson, hfields]
  simp only [bind, Except.bind, readNat_nat hposition, readNat_nat hid]
  rfl

/-- The numbers of a row fit the machine words and its values are finite. -/
structure SpoolRow.Readable (row : SpoolRow) : Prop where
  requestId : row.requestId ≤ USIZE_MAX
  completionStep : row.completionStep ≤ USIZE_MAX
  finite : Finite row.logits

/-- **A line of a spool is read back.** -/
theorem SpoolRow.read_toJson {row : SpoolRow} (h : row.Readable) :
    SpoolRow.read row.toJson = .ok row := by
  have hfields := @fieldsOf_obj [("request_id", .nat row.requestId),
    ("selected_token", .nat row.selectedToken.toNat), ("completion_step", .nat row.completionStep),
    ("logits", .arr (row.logits.map Json.float32))] (by simp)
  simp only [List.map_cons, List.map_nil] at hfields
  rw [SpoolRow.read, SpoolRow.toJson, hfields]
  simp only [bind, Except.bind, readNat_nat h.requestId, readNat_nat h.completionStep,
    readToken_nat, readList_float32 h.finite]
  rfl

/-- The numbers of a line fit the machine words and its values are finite. -/
def ArtifactLine.Readable : ArtifactLine → Prop
  | .header value => value.schemaVersion ≤ 4294967295 ∧ ∀ binding ∈ value.requests,
      binding.inputPosition ≤ USIZE_MAX ∧ binding.requestId ≤ USIZE_MAX
  | .row value => value.rowIndex ≤ USIZE_MAX ∧ value.inputPosition ≤ USIZE_MAX ∧
      value.requestId ≤ USIZE_MAX ∧ value.completionStep ≤ USIZE_MAX ∧ value.rowShape ≤ USIZE_MAX ∧
      Finite value.logits
  | .trailer value => value.rowCount ≤ USIZE_MAX ∧ value.tensorShape.1 ≤ USIZE_MAX ∧
      value.tensorShape.2 ≤ USIZE_MAX

/-- **A line of an artifact is read back.** -/
theorem ArtifactLine.read_toJson {line : ArtifactLine} (h : line.Readable) :
    ArtifactLine.read line.toJson = .ok line := by
  cases line with
  | header header =>
    obtain ⟨hversion, hrequests⟩ := h
    have hfields := @fieldsOf_obj [("format", .str header.format),
      ("schema_version", .nat header.schemaVersion), ("call_id", .str header.callId),
      ("requests", .arr (header.requests.map RequestBinding.toJson))] (by simp)
    have hbindings := @readList_map _ RequestBinding.read RequestBinding.toJson header.requests
      fun binding hbinding => RequestBinding.read_toJson (hrequests binding hbinding).1
        (hrequests binding hbinding).2
    simp only [List.map_cons, List.map_nil] at hfields
    rw [ArtifactLine.read, ArtifactLine.toJson, tagged_obj (by simp)]
    simp only [bind, Except.bind, ArtifactHeader.read, hfields, readStr, readNat_nat hversion,
      hbindings]
    rfl
  | row row =>
    obtain ⟨hindex, hposition, hid, hstep, hshape, hfinite⟩ := h
    have hfields := @fieldsOf_obj [("row_index", .nat row.rowIndex),
      ("input_position", .nat row.inputPosition), ("request_id", .nat row.requestId),
      ("selected_token", .nat row.selectedToken.toNat), ("completion_step", .nat row.completionStep),
      ("dtype", .str row.dtype), ("row_shape", .arr [.nat row.rowShape]),
      ("logits", .arr (row.logits.map Json.float32))] (by simp)
    have hwidth := @readList_map _ (readNat USIZE_MAX) Json.nat [row.rowShape]
      (by simpa using readNat_nat hshape)
    simp only [List.map_cons, List.map_nil] at hfields hwidth
    rw [ArtifactLine.read, ArtifactLine.toJson, tagged_obj (by simp)]
    simp only [bind, Except.bind, ArtifactRow.read, hfields, hwidth, readStr, readNat_nat hindex,
      readNat_nat hposition, readNat_nat hid, readToken_nat, readNat_nat hstep,
      readList_float32 hfinite]
    rfl
  | trailer trailer =>
    obtain ⟨hcount, hrows, hwidth⟩ := h
    have hfields := @fieldsOf_obj [("complete", .bool trailer.complete),
      ("row_count", .nat trailer.rowCount), ("dtype", .str trailer.dtype),
      ("tensor_shape", .arr [.nat trailer.tensorShape.1, .nat trailer.tensorShape.2])] (by simp)
    have hshape := @readList_map _ (readNat USIZE_MAX) Json.nat
      [trailer.tensorShape.1, trailer.tensorShape.2]
      (by simpa using ⟨readNat_nat hrows, readNat_nat hwidth⟩)
    simp only [List.map_cons, List.map_nil] at hfields hshape
    rw [ArtifactLine.read, ArtifactLine.toJson, tagged_obj (by simp)]
    simp only [bind, Except.bind, ArtifactTrailer.read, hfields, hshape, readStr, readBool,
      readNat_nat hcount]
    rfl

end VllmOxide.GoldenCapture
