import VllmOxide.GoldenCapture.Capture

/-!
# The consumer of a diagnostic capture

The release gate reads the artifact of a capture with a reader of its own, which declares the same
lines as the producer and makes checks of its own: it compares every row with the outputs of the call
while it reads, and collects the logits. It trusts nothing that the producer has validated.

## Main definitions

* `validateBindings`: the check of the header against the outputs.
* `CaptureScan.line`: the check of one line of the body.
* `readAndValidateCapture`: the reader.
-/

namespace VllmOxide.GoldenCapture

/-- What a capture tells the release gate. -/
structure CapturedGeneration where
  logits : List Float32
  tensorShape : ℕ × ℕ
  tokensByInput : List (List Token)

/-- What the consumer keeps while it reads the body of an artifact. -/
structure CaptureScan where
  expectedSteps : List ℕ
  tokensByInput : List (List Token)
  logits : List Float32
  rowCount : ℕ
  vocabSize : Option ℕ
  lastInputPosition : Option ℕ
  trailer : Option ArtifactTrailer

/-- Nothing of the body has been read. -/
def CaptureScan.start (requests : ℕ) : CaptureScan where
  expectedSteps := List.replicate requests 0
  tokensByInput := List.replicate requests []
  logits := []
  rowCount := 0
  vocabSize := none
  lastInputPosition := none
  trailer := none

/-- The loop of `validate_bindings`, with the request ids it has seen. -/
def checkBindings : (inputPosition : ℕ) → (seen : List ℕ) →
    List (RequestBinding × RequestOutput) → Except String Unit
  | _, _, [] => return ()
  | inputPosition, seen, (binding, output) :: rest => do
    bailIf (binding.inputPosition ≠ inputPosition ∨ binding.requestId ≠ output.requestId ∨
      output.finished = false ∨ binding.requestId ∈ seen)
      "diagnostic capture request bindings are duplicate, stale, or unordered"
    checkBindings (inputPosition + 1) (binding.requestId :: seen) rest

/-- `validate_bindings`. -/
def validateBindings (bindings : List RequestBinding) (outputs : List RequestOutput) :
    Except String Unit := do
  bailIf (bindings.length ≠ outputs.length)
    "diagnostic capture request count does not match RequestOutput count"
  checkBindings 0 [] (bindings.zip outputs)

/-- One round of the loop of `read_and_validate_capture`. -/
def CaptureScan.line (bindings : List RequestBinding) (outputs : List RequestOutput)
    (scan : CaptureScan) : ArtifactLine → Except String CaptureScan
  | .row row => do
    bailIf (scan.trailer.isSome = true)
      "diagnostic capture has additional rows after its trailer"
    bailIf (row.rowIndex ≠ scan.rowCount)
      "diagnostic capture row indices are duplicate or non-contiguous"
    bailIf ((scan.lastInputPosition.any fun previous => decide (row.inputPosition < previous)) = true)
      "diagnostic capture row order is not request-major deterministic"
    let some binding := bindings[row.inputPosition]?
      | throw s!"diagnostic capture contains additional input position {row.inputPosition}"
    bailIf (row.requestId ≠ binding.requestId)
      "diagnostic capture row has a stale stable request identity"
    bailIf (row.completionStep ≠ scan.expectedSteps.getD row.inputPosition 0)
      "diagnostic capture completion steps are duplicate or have a gap"
    let some expectedToken := (outputs[row.inputPosition]?.map (·.tokenIds)).bind (·[row.completionStep]?)
      | throw "diagnostic capture contains an additional row"
    bailIf (row.selectedToken ≠ expectedToken)
      "diagnostic capture selected token disagrees with RequestOutput"
    bailIf (row.dtype ≠ LOGITS_DTYPE ∨ row.rowShape = 0 ∨ row.rowShape ≠ row.logits.length ∨
      (row.logits.any fun value => !value.isFinite) = true)
      "diagnostic capture row has an invalid dtype, shape, or value"
    bailIf ((scan.vocabSize.any fun width => decide (width ≠ row.rowShape)) = true)
      "diagnostic capture rows have inconsistent vocabulary widths"
    return { scan with
      expectedSteps := scan.expectedSteps.modify row.inputPosition (· + 1)
      tokensByInput := scan.tokensByInput.modify row.inputPosition (· ++ [row.selectedToken])
      logits := scan.logits ++ row.logits
      rowCount := scan.rowCount + 1
      vocabSize := some row.rowShape
      lastInputPosition := some row.inputPosition }
  | .trailer trailer => do
    bailIf (scan.trailer.isSome = true) "diagnostic capture has duplicate trailers"
    return { scan with trailer := some trailer }
  | .header _ => throw "diagnostic capture has an additional header"

/-- `read_and_validate_capture`, for a regular private file with these lines. -/
def readAndValidateCapture (lines : List Json) (expectedCallId : String)
    (outputs : List RequestOutput) : Except String CapturedGeneration := do
  match lines with
  | [] => throw "diagnostic capture artifact is empty"
  | header :: body =>
    let bindings ← match ← ArtifactLine.read header with
      | .header value => do
        bailIf (value.format ≠ FORMAT_NAME ∨ value.schemaVersion ≠ SCHEMA_VERSION ∨
          value.callId ≠ expectedCallId)
          "diagnostic capture header has a stale call identity or schema"
        pure value.requests
      | _ => throw "diagnostic capture must begin with a header"
    validateBindings bindings outputs
    let scan ← body.foldlM
      (fun scan line => do scan.line bindings outputs (← ArtifactLine.read line))
      (CaptureScan.start bindings.length)
    let some trailer := scan.trailer | throw "diagnostic capture is missing its completion trailer"
    let vocabSize := scan.vocabSize.getD 0
    bailIf (trailer.complete = false ∨ trailer.rowCount ≠ scan.rowCount ∨
      trailer.dtype ≠ LOGITS_DTYPE ∨ trailer.tensorShape ≠ (scan.rowCount, vocabSize) ∨
      scan.logits.length ≠ min (scan.rowCount * vocabSize) USIZE_MAX)
      "diagnostic capture trailer count, shape, dtype, or completion marker is invalid"
    outputs.zipIdx.forM fun (output, inputPosition) =>
      bailIf (scan.tokensByInput.getD inputPosition [] ≠ output.tokenIds)
        s!"diagnostic capture is missing rows at input position {inputPosition}"
    return { logits := scan.logits
             tensorShape := (scan.rowCount, vocabSize)
             tokensByInput := scan.tokensByInput }

end VllmOxide.GoldenCapture
