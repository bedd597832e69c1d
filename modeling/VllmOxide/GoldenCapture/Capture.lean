import VllmOxide.Engine.Step
import VllmOxide.Library.JsonReader
import VllmOxide.Library.Tensor

/-!
# The diagnostic capture of raw logits

A capture session spools the logits of each request to a private file of its own, in the order in
which the engine samples them, and at the end writes one artifact: a header with the requests, the
rows of the first request, those of the second one and so on, and a trailer. The artifact is read
back and validated before it is published. Files are lists of JSON documents, one for each line.

## Main definitions

* `ArtifactLine`, `SpoolRow`: the lines, how they are written and read.
* `CaptureSession.bindRequests`, `CaptureSession.recordHostRows`,
  `CaptureSession.recordEngineStep`: recording.
* `validateArtifact`: the check of the artifact against the outputs.
* `CaptureSession.finish`: the artifact that is published.
-/

namespace VllmOxide.GoldenCapture

open Json

/-! ### The wire format of the producer -/

def FORMAT_NAME : String := "vllm-oxide-internal-golden-jsonl-v1"

def SCHEMA_VERSION : ℕ := 1

def LOGITS_DTYPE : String := "F32"

structure RequestBinding where
  inputPosition : ℕ
  requestId : ℕ
deriving DecidableEq

/-- A row in the private file of its request. -/
structure SpoolRow where
  requestId : ℕ
  selectedToken : Token
  completionStep : ℕ
  logits : List Float32

structure ArtifactHeader where
  format : String
  schemaVersion : ℕ
  callId : String
  requests : List RequestBinding

structure ArtifactRow where
  rowIndex : ℕ
  inputPosition : ℕ
  requestId : ℕ
  selectedToken : Token
  completionStep : ℕ
  dtype : String
  rowShape : ℕ
  logits : List Float32

structure ArtifactTrailer where
  complete : Bool
  rowCount : ℕ
  dtype : String
  tensorShape : ℕ × ℕ

/-- A line of the artifact. -/
inductive ArtifactLine
  | header (header : ArtifactHeader)
  | row (row : ArtifactRow)
  | trailer (trailer : ArtifactTrailer)

def RequestBinding.toJson (binding : RequestBinding) : Json :=
  .obj [("input_position", .nat binding.inputPosition), ("request_id", .nat binding.requestId)]

def SpoolRow.toJson (row : SpoolRow) : Json :=
  .obj [("request_id", .nat row.requestId), ("selected_token", .nat row.selectedToken.toNat),
    ("completion_step", .nat row.completionStep), ("logits", .arr (row.logits.map Json.float32))]

def ArtifactLine.toJson : ArtifactLine → Json
  | .header value => .obj
    [("kind", .str "header"), ("format", .str value.format),
      ("schema_version", .nat value.schemaVersion), ("call_id", .str value.callId),
      ("requests", .arr (value.requests.map RequestBinding.toJson))]
  | .row value => .obj
    [("kind", .str "row"), ("row_index", .nat value.rowIndex),
      ("input_position", .nat value.inputPosition), ("request_id", .nat value.requestId),
      ("selected_token", .nat value.selectedToken.toNat),
      ("completion_step", .nat value.completionStep), ("dtype", .str value.dtype),
      ("row_shape", .arr [.nat value.rowShape]), ("logits", .arr (value.logits.map Json.float32))]
  | .trailer value => .obj
    [("kind", .str "trailer"), ("complete", .bool value.complete),
      ("row_count", .nat value.rowCount), ("dtype", .str value.dtype),
      ("tensor_shape", .arr [.nat value.tensorShape.1, .nat value.tensorShape.2])]

/-- A `u32` token id. -/
def readToken (json : Json) : Except String Token :=
  (readNat 4294967295 json).map UInt32.ofNat

def RequestBinding.read (json : Json) : Except String RequestBinding := do
  match ← fieldsOf ["input_position", "request_id"] json with
  | [inputPosition, requestId] =>
    return ⟨← readNat USIZE_MAX inputPosition, ← readNat USIZE_MAX requestId⟩
  | _ => throw "invalid length"

def SpoolRow.read (json : Json) : Except String SpoolRow := do
  match ← fieldsOf ["request_id", "selected_token", "completion_step", "logits"] json with
  | [requestId, selectedToken, completionStep, logits] =>
    return ⟨← readNat USIZE_MAX requestId, ← readToken selectedToken,
      ← readNat USIZE_MAX completionStep, ← readList readFloat32 logits⟩
  | _ => throw "invalid length"

def ArtifactHeader.read (json : Json) : Except String ArtifactHeader := do
  match ← fieldsOf ["format", "schema_version", "call_id", "requests"] json with
  | [format, schemaVersion, callId, requests] =>
    return ⟨← readStr format, ← readNat 4294967295 schemaVersion, ← readStr callId,
      ← readList RequestBinding.read requests⟩
  | _ => throw "invalid length"

def ArtifactRow.read (json : Json) : Except String ArtifactRow := do
  match ← fieldsOf ["row_index", "input_position", "request_id", "selected_token",
    "completion_step", "dtype", "row_shape", "logits"] json with
  | [rowIndex, inputPosition, requestId, selectedToken, completionStep, dtype, rowShape, logits] =>
    match ← readList (readNat USIZE_MAX) rowShape with
    | [width] =>
      return ⟨← readNat USIZE_MAX rowIndex, ← readNat USIZE_MAX inputPosition,
        ← readNat USIZE_MAX requestId, ← readToken selectedToken,
        ← readNat USIZE_MAX completionStep, ← readStr dtype, width,
        ← readList readFloat32 logits⟩
    | _ => throw "invalid length"
  | _ => throw "invalid length"

def ArtifactTrailer.read (json : Json) : Except String ArtifactTrailer := do
  match ← fieldsOf ["complete", "row_count", "dtype", "tensor_shape"] json with
  | [complete, rowCount, dtype, tensorShape] =>
    match ← readList (readNat USIZE_MAX) tensorShape with
    | [rows, width] =>
      return ⟨← readBool complete, ← readNat USIZE_MAX rowCount, ← readStr dtype, (rows, width)⟩
    | _ => throw "invalid length"
  | _ => throw "invalid length"

def ArtifactLine.read (json : Json) : Except String ArtifactLine := do
  let (kind, content) ← tagged "kind" json
  match kind with
  | "header" => return .header (← ArtifactHeader.read content)
  | "row" => return .row (← ArtifactRow.read content)
  | "trailer" => return .trailer (← ArtifactTrailer.read content)
  | _ => throw s!"unknown variant {kind}"

/-! ### Recording -/

/-- One row of logits on the host. -/
structure HostCaptureRow where
  requestId : ℕ
  selectedToken : Token
  completionStep : ℕ
  logits : List Float32

/-- The private file of a request. -/
structure RequestSpool where
  binding : RequestBinding
  file : List Json
  nextCompletionStep : ℕ

/-- The row as the last one of a spool. -/
def RequestSpool.push (spool : RequestSpool) (row : HostCaptureRow) : RequestSpool :=
  { spool with
    file := spool.file ++
      [SpoolRow.toJson ⟨row.requestId, row.selectedToken, row.completionStep, row.logits⟩]
    nextCompletionStep := spool.nextCompletionStep + 1 }

/-- A capture session: its call, the spools by input position, the common width of the rows, and
whether recording has failed. -/
structure CaptureSession where
  callId : String
  spools : List RequestSpool
  vocabSize : Option ℕ
  failed : Bool

/-- One row identity of an engine step. -/
structure EngineCaptureRow where
  requestId : ℕ
  selectedToken : Token
  completionStep : ℕ

/-- The rows and the logits of an engine step. -/
structure EngineStepCapture where
  rows : List EngineCaptureRow
  dtype : String
  logits : Tensor Float32

/-- What happens to the files and to the device while rows are recorded: the message of a write that
fails, by its row, and of a copy to the host that fails. -/
structure CaptureFaults where
  write : HostCaptureRow → Option String
  copy : Option String

/-- Nothing fails. -/
def CaptureFaults.none : CaptureFaults where
  write _ := .none
  copy := .none

namespace CaptureSession

/-- A session before it is bound to requests. -/
def prepare (callId : String) : CaptureSession where
  callId := callId
  spools := []
  vocabSize := none
  failed := false

/-- `request_to_spool`: the position of the spool of a request. -/
def requestToSpool (session : CaptureSession) (requestId : ℕ) : Option ℕ :=
  session.spools.findIdx? fun spool => decide (spool.binding.requestId = requestId)

/-- `bind_requests`. -/
def bindRequests (requestIds : List ℕ) (session : CaptureSession) : Except String CaptureSession := do
  bailIf (session.spools ≠ []) "internal golden capture requests are already bound"
  bailIf (¬ requestIds.Nodup) "internal golden capture received duplicate stable request ids"
  return { session with
    spools := requestIds.zipIdx.map fun (requestId, inputPosition) =>
      { binding := ⟨inputPosition, requestId⟩, file := [], nextCompletionStep := 0 } }

/-- Set the latch. -/
def fail (session : CaptureSession) : CaptureSession :=
  { session with failed := true }

/-- One round of the loop of `record_host_rows`. A row of a request that is not bound is refused
without setting the latch. -/
def recordHostRow (faults : CaptureFaults) (row : HostCaptureRow) : EStateM String CaptureSession Unit :=
  fun session =>
    if row.logits = [] then
      .error "captured logits row must have a non-zero vocabulary width" session.fail
    else if row.logits.any fun value => !value.isFinite then
      .error s!"captured logits contain a non-finite value for request {row.requestId} step {row.completionStep}"
        session.fail
    else if (session.vocabSize.any fun vocabSize => decide (vocabSize ≠ row.logits.length)) = true then
      .error s!"captured logits vocabulary width changed from {session.vocabSize.getD 0} to {row.logits.length}"
        session.fail
    else
      let session := { session with vocabSize := some row.logits.length }
      match session.requestToSpool row.requestId with
      | none =>
        .error s!"captured logits reference unknown stable request id {row.requestId}" session
      | some spoolIndex =>
        match session.spools[spoolIndex]? with
        | none => .error "index out of bounds" session
        | some spool =>
          if row.completionStep ≠ spool.nextCompletionStep then
            .error s!"captured logits for request {row.requestId} expected completion step {spool.nextCompletionStep}, got {row.completionStep}"
              session.fail
          else
            match faults.write row with
            | some message =>
              .error s!"writing private raw-logit capture spool: {message}" session.fail
            | none =>
              .ok () { session with spools := session.spools.set spoolIndex (spool.push row) }

/-- The loop of `record_host_rows`. -/
def recordRows (faults : CaptureFaults) : List HostCaptureRow → EStateM String CaptureSession Unit
  | [] => pure ()
  | row :: rest => do
    recordHostRow faults row
    recordRows faults rest

/-- `record_host_rows`. -/
def recordHostRows (faults : CaptureFaults) (rows : List HostCaptureRow) :
    EStateM String CaptureSession Unit := fun session =>
  if session.failed then .error "internal golden capture session already failed" session
  else recordRows faults rows session

/-- The rows of an engine step on the host. -/
def hostRows (step : EngineStepCapture) (vocabSize : ℕ) : List HostCaptureRow :=
  step.rows.zipIdx.map fun (metadata, i) =>
    { requestId := metadata.requestId
      selectedToken := metadata.selectedToken
      completionStep := metadata.completionStep
      logits := (step.logits.data.drop (i * vocabSize)).take vocabSize }

/-- `record_engine_step`. Neither a copy to the host that fails nor a step without rows looks at the
latch. -/
def recordEngineStep (faults : CaptureFaults) (step : EngineStepCapture) :
    EStateM String CaptureSession Unit := fun session =>
  if step.rows = [] then
    if step.logits.dims ≠ [0, 0] then
      .error "engine returned logits without capture row identities" session.fail
    else .ok () session
  else
    match step.logits.dims with
    | [rowCount, vocabSize] =>
      if rowCount ≠ step.rows.length ∨ vocabSize = 0 then
        .error s!"captured logits shape {step.logits.dims} does not match {step.rows.length} row identities"
          session.fail
      else if step.dtype ≠ "F32" then
        .error s!"captured logits must be F32, got {step.dtype}" session.fail
      else
        match faults.copy with
        | some message =>
          .error s!"copying explicitly requested diagnostic logits to host: {message}" session
        | none => recordHostRows faults (hostRows step vocabSize) session
    | dims => .error s!"captured logits must have rank 2 [rows, vocab], got {dims}" session.fail

end CaptureSession

/-! ### The check of the artifact -/

/-- What `validate_artifact` keeps while it reads the body of an artifact. -/
structure ArtifactScan where
  expectedSteps : List ℕ
  selectedTokens : List (List Token)
  rowCount : ℕ
  vocabSize : Option ℕ
  lastInputPosition : Option ℕ
  trailer : Option ArtifactTrailer

/-- Nothing of the body has been read. -/
def ArtifactScan.start (requests : ℕ) : ArtifactScan where
  expectedSteps := List.replicate requests 0
  selectedTokens := List.replicate requests []
  rowCount := 0
  vocabSize := none
  lastInputPosition := none
  trailer := none

/-- One round of the loop of `validate_artifact`. -/
def ArtifactScan.line (expectedBindings : List RequestBinding) (scan : ArtifactScan) :
    ArtifactLine → Except String ArtifactScan
  | .row row => do
    bailIf (scan.trailer.isSome = true)
      "capture artifact contains an additional row after its trailer"
    bailIf (row.rowIndex ≠ scan.rowCount)
      "capture artifact row indices are duplicate or non-contiguous"
    bailIf ((scan.lastInputPosition.any fun previous => decide (row.inputPosition < previous)) = true)
      "capture artifact row order is not request-major deterministic"
    let some binding := expectedBindings[row.inputPosition]?
      | throw s!"capture artifact row has additional input position {row.inputPosition}"
    bailIf (row.requestId ≠ binding.requestId)
      "capture artifact row has stale stable request identity"
    bailIf (row.completionStep ≠ scan.expectedSteps.getD row.inputPosition 0)
      "capture artifact completion steps are duplicate or non-contiguous"
    bailIf (row.dtype ≠ LOGITS_DTYPE ∨ row.rowShape = 0 ∨ row.rowShape ≠ row.logits.length ∨
      (row.logits.any fun value => !value.isFinite) = true)
      "capture artifact row has a dtype, shape, or value mismatch"
    bailIf ((scan.vocabSize.any fun width => decide (width ≠ row.rowShape)) = true)
      "capture artifact rows have inconsistent vocabulary shapes"
    return { scan with
      expectedSteps := scan.expectedSteps.modify row.inputPosition (· + 1)
      selectedTokens := scan.selectedTokens.modify row.inputPosition (· ++ [row.selectedToken])
      rowCount := scan.rowCount + 1
      vocabSize := some row.rowShape
      lastInputPosition := some row.inputPosition }
  | .trailer trailer => do
    bailIf (scan.trailer.isSome = true) "capture artifact has duplicate trailers"
    return { scan with trailer := some trailer }
  | .header _ => throw "capture artifact has an additional header"

/-- `validate_artifact`. -/
def validateArtifact (lines : List Json) (expectedCallId : String)
    (expectedBindings : List RequestBinding) (outputs : List RequestOutput) : Except String Unit := do
  bailIf (outputs.length ≠ expectedBindings.length)
    s!"capture output count {outputs.length} does not match request count {expectedBindings.length}"
  (expectedBindings.zip outputs).forM fun (binding, output) =>
    bailIf (binding.requestId ≠ output.requestId ∨ output.finished = false)
      s!"capture output at input position {binding.inputPosition} has stale request identity or is unfinished"
  match lines with
  | [] => throw "capture artifact is empty"
  | header :: body =>
    match ← ArtifactLine.read header with
    | .header value =>
      bailIf (value.format ≠ FORMAT_NAME ∨ value.schemaVersion ≠ SCHEMA_VERSION ∨
        value.callId ≠ expectedCallId ∨ value.requests ≠ expectedBindings)
        "capture artifact header identity or schema mismatch"
    | _ => throw "capture artifact header identity or schema mismatch"
    let scan ← body.foldlM (fun scan line => do scan.line expectedBindings (← ArtifactLine.read line))
      (ArtifactScan.start expectedBindings.length)
    let some trailer := scan.trailer | throw "capture artifact is missing its completion trailer"
    bailIf (trailer.complete = false ∨ trailer.rowCount ≠ scan.rowCount ∨
      trailer.dtype ≠ LOGITS_DTYPE ∨ trailer.tensorShape ≠ (scan.rowCount, scan.vocabSize.getD 0))
      "capture artifact trailer count, shape, dtype, or completion marker is invalid"
    outputs.zipIdx.forM fun (output, inputPosition) =>
      bailIf (scan.selectedTokens.getD inputPosition [] ≠ output.tokenIds)
        s!"capture artifact rows are missing, additional, or disagree with output at input position {inputPosition}"

namespace CaptureSession

/-- The row of a line of a spool, at its place in the artifact. -/
def artifactRow (rowIndex inputPosition : ℕ) (row : SpoolRow) : ArtifactRow where
  rowIndex := rowIndex
  inputPosition := inputPosition
  requestId := row.requestId
  selectedToken := row.selectedToken
  completionStep := row.completionStep
  dtype := LOGITS_DTYPE
  rowShape := row.logits.length
  logits := row.logits

/-- The rows of one spool in the artifact, with consecutive numbers from `rowIndex` on. -/
def spoolRows (inputPosition : ℕ) : (rowIndex : ℕ) → List Json → Except String (List ArtifactRow)
  | _, [] => return []
  | rowIndex, line :: rest => do
    let row ← SpoolRow.read line
    return artifactRow rowIndex inputPosition row :: (← spoolRows inputPosition (rowIndex + 1) rest)

/-- The rows of all spools in the artifact. -/
def artifactRows : (rowIndex : ℕ) → List RequestSpool → Except String (List ArtifactRow)
  | _, [] => return []
  | rowIndex, spool :: rest => do
    let rows ← spoolRows spool.binding.inputPosition rowIndex spool.file
    return rows ++ (← artifactRows (rowIndex + rows.length) rest)

/-- `finish`: the published artifact. The destination may be taken. -/
def finish (session : CaptureSession) (destinationExists : Bool) (outputs : List RequestOutput) :
    Except String (List Json) := do
  bailIf (session.failed = true) "cannot publish a failed internal golden capture session"
  let bindings := session.spools.map (·.binding)
  let rows ← artifactRows 0 session.spools
  let header : ArtifactLine := .header ⟨FORMAT_NAME, SCHEMA_VERSION, session.callId, bindings⟩
  let trailer : ArtifactLine :=
    .trailer ⟨true, rows.length, LOGITS_DTYPE, (rows.length, session.vocabSize.getD 0)⟩
  let lines := (header :: rows.map ArtifactLine.row ++ [trailer]).map ArtifactLine.toJson
  validateArtifact lines session.callId bindings outputs
  bailIf (destinationExists = true)
    "atomically publishing capture artifact without replacement: file exists"
  return lines

end CaptureSession

end VllmOxide.GoldenCapture
