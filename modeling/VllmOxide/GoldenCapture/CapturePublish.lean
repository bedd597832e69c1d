import VllmOxide.GoldenCapture.CaptureLatch
import VllmOxide.GoldenCapture.CaptureWire

/-!
# What is published

`finish` reads the spools back and writes the rows request by request. The artifact of a session that
holds some rows consists of exactly these rows, the ones of a request in the order in which they were
recorded.

## Main definitions

* `requestMajor`: the rows of an artifact, given the rows of each request.

## Main results

* `CaptureSession.finish_eq_ok`: the artifact that is published.
* `CaptureSession.published_complete`: nothing is published after a row has been lost.
-/

namespace VllmOxide.GoldenCapture

/-! ### The rows of an artifact -/

/-- The line of a spool that holds a row. -/
def HostCaptureRow.spoolRow (row : HostCaptureRow) : SpoolRow :=
  ⟨row.requestId, row.selectedToken, row.completionStep, row.logits⟩

/-- The row that a row of an artifact stands for. -/
def ArtifactRow.hostRow (row : ArtifactRow) : HostCaptureRow :=
  ⟨row.requestId, row.selectedToken, row.completionStep, row.logits⟩

/-- The rows of an artifact, numbered from `rowIndex` on, given the rows of each request with its
input position. -/
def requestMajor : (rowIndex : ℕ) → List (ℕ × List HostCaptureRow) → List ArtifactRow
  | _, [] => []
  | rowIndex, (inputPosition, rows) :: rest =>
    ((rows.zipIdx rowIndex).map fun (row, i) =>
      CaptureSession.artifactRow i inputPosition row.spoolRow) ++
        requestMajor (rowIndex + rows.length) rest

/-- The rows of an artifact are the rows of the requests, one request after the other. -/
theorem hostRow_requestMajor (requests : List (ℕ × List HostCaptureRow)) :
    ∀ rowIndex, (requestMajor rowIndex requests).map ArtifactRow.hostRow =
      requests.flatMap Prod.snd := by
  induction requests with
  | nil => exact fun _ => rfl
  | cons request rest ih =>
    intro rowIndex
    obtain ⟨inputPosition, rows⟩ := request
    rw [requestMajor, List.map_append, List.map_map, ih, List.flatMap_cons]
    congr 1
    have hsame : (ArtifactRow.hostRow ∘ fun (x : HostCaptureRow × ℕ) =>
        CaptureSession.artifactRow x.2 inputPosition x.1.spoolRow) = Prod.fst := rfl
    exact (congrArg (List.map · _) hsame).trans (List.zipIdx_map_fst _ _)

namespace CaptureSession

/-- A spool is read back. -/
theorem spoolRows_toJson {inputPosition : ℕ} {rows : List HostCaptureRow}
    (h : ∀ row ∈ rows, row.spoolRow.Readable) :
    ∀ rowIndex, spoolRows inputPosition rowIndex (rows.map fun row => row.spoolRow.toJson) =
      .ok ((rows.zipIdx rowIndex).map fun (row, i) => artifactRow i inputPosition row.spoolRow) := by
  induction rows with
  | nil => exact fun _ => rfl
  | cons row rest ih =>
    intro rowIndex
    rw [List.map_cons, spoolRows, SpoolRow.read_toJson (h row List.mem_cons_self)]
    simp only [bind, Except.bind, ih (fun other hother => h other (List.mem_cons_of_mem _ hother))]
    rfl

/-- All spools are read back. -/
theorem artifactRows_eq {rowsOf : RequestSpool → List HostCaptureRow} {spools : List RequestSpool}
    (hfile : ∀ spool ∈ spools, spool.file = (rowsOf spool).map fun row => row.spoolRow.toJson)
    (hread : ∀ spool ∈ spools, ∀ row ∈ rowsOf spool, row.spoolRow.Readable) :
    ∀ rowIndex, artifactRows rowIndex spools = .ok (requestMajor rowIndex
      (spools.map fun spool => (spool.binding.inputPosition, rowsOf spool))) := by
  induction spools with
  | nil => exact fun _ => rfl
  | cons spool rest ih =>
    intro rowIndex
    have hrest := ih (fun other hother => hfile other (List.mem_cons_of_mem _ hother))
      fun other hother => hread other (List.mem_cons_of_mem _ hother)
    rw [artifactRows, hfile spool List.mem_cons_self,
      spoolRows_toJson (hread spool List.mem_cons_self)]
    simp only [bind, Except.bind, hrest]
    rw [List.map_cons, requestMajor, List.length_map, List.length_zipIdx]
    rfl

/-! ### The spools of a session -/

/-- A spool after some of its rows. -/
theorem foldl_push_spool (rows : List HostCaptureRow) :
    ∀ spool : RequestSpool, rows.foldl RequestSpool.push spool =
      { spool with
        file := spool.file ++ rows.map fun row => row.spoolRow.toJson
        nextCompletionStep := spool.nextCompletionStep + rows.length } := by
  induction rows with
  | nil => simp
  | cons row rest ih =>
    intro spool
    rw [List.foldl_cons, ih]
    simp [RequestSpool.push, HostCaptureRow.spoolRow, Nat.add_assoc, Nat.add_comm 1]

/-- The rows of a request. -/
def rowsOf (rows : List HostCaptureRow) (requestId : ℕ) : List HostCaptureRow :=
  rows.filter fun row => decide (row.requestId = requestId)

/-- The spools after some rows: each has got the rows of its request. -/
theorem spools_foldl_push (rows : List HostCaptureRow) :
    ∀ session : CaptureSession, (rows.foldl push session).spools =
      session.spools.map fun spool =>
        (rowsOf rows spool.binding.requestId).foldl RequestSpool.push spool := by
  induction rows with
  | nil => exact fun session => (List.map_id _).symm
  | cons row rest ih =>
    intro session
    rw [List.foldl_cons, ih, push, List.map_map]
    refine List.map_congr_left fun spool _ => ?_
    simp only [Function.comp_apply]
    by_cases hid : spool.binding.requestId = row.requestId
    · rw [if_pos hid]
      have hcons : rowsOf (row :: rest) spool.binding.requestId =
          row :: rowsOf rest spool.binding.requestId :=
        List.filter_cons_of_pos (decide_eq_true hid.symm)
      rw [hcons]
      rfl
    · rw [if_neg hid]
      have hrest : rowsOf (row :: rest) spool.binding.requestId =
          rowsOf rest spool.binding.requestId :=
        List.filter_cons_of_neg fun h => hid (of_decide_eq_true h).symm
      rw [hrest]

theorem config_foldl_push (rows : List HostCaptureRow) :
    ∀ session : CaptureSession, (rows.foldl push session).callId = session.callId ∧
      (rows.foldl push session).failed = session.failed ∧
      (rows.foldl push session).vocabSize =
        (rows.getLast?.map (·.logits.length)).or session.vocabSize := by
  induction rows with
  | nil => exact fun _ => ⟨rfl, rfl, rfl⟩
  | cons row rest ih =>
    intro session
    obtain ⟨hcall, hfailed, hwidth⟩ := ih (session.push row)
    refine ⟨hcall, hfailed, hwidth.trans ?_⟩
    cases hlast : rest.getLast? with
    | none =>
      obtain rfl := List.getLast?_eq_none_iff.mp hlast
      rfl
    | some last =>
      rw [List.getLast?_cons, hlast]
      rfl

/-- A bound session. -/
structure Bound (callId : String) (requestIds : List ℕ) (session : CaptureSession) : Prop where
  nodup : requestIds.Nodup
  eq : session = { prepare callId with
    spools := requestIds.zipIdx.map fun (requestId, inputPosition) =>
      { binding := ⟨inputPosition, requestId⟩, file := [], nextCompletionStep := 0 } }

theorem bound_of_bindRequests {callId : String} {requestIds : List ℕ} {session : CaptureSession}
    (h : (prepare callId).bindRequests requestIds = .ok session) :
    Bound callId requestIds session := by
  obtain ⟨-, h⟩ := next_of_bind h
  obtain ⟨hnodup, h⟩ := next_of_bind h
  exact ⟨not_not.mp (not_of_bailIf_ok hnodup), (Except.ok.inj h).symm⟩

namespace Bound

variable {callId : String} {requestIds : List ℕ} {start : CaptureSession}
  {rows : List HostCaptureRow}

theorem ids (h : Bound callId requestIds start) :
    start.spools.map (·.binding.requestId) = requestIds := by
  rw [h.eq, List.map_map]
  exact List.zipIdx_map_fst _ _

theorem distinct (h : Bound callId requestIds start) : start.Distinct := by
  rw [Distinct, h.ids]
  exact h.nodup

/-- The bindings of the artifact. -/
def bindings (requestIds : List ℕ) : List RequestBinding :=
  requestIds.zipIdx.map fun (requestId, inputPosition) => ⟨inputPosition, requestId⟩

/-- The rows of the artifact. -/
def artifact (requestIds : List ℕ) (rows : List HostCaptureRow) : List ArtifactRow :=
  requestMajor 0 ((bindings requestIds).map fun binding =>
    (binding.inputPosition, rowsOf rows binding.requestId))

/-- The spools hold the rows of their requests, and nothing else. -/
theorem spools_foldl_push (h : Bound callId requestIds start) (rows : List HostCaptureRow) :
    (rows.foldl push start).spools = (bindings requestIds).map fun binding =>
      { binding := binding
        file := (rowsOf rows binding.requestId).map fun row => row.spoolRow.toJson
        nextCompletionStep := (rowsOf rows binding.requestId).length } := by
  rw [CaptureSession.spools_foldl_push, h.eq, bindings, List.map_map, List.map_map]
  refine List.map_congr_left fun request _ => ?_
  simp [foldl_push_spool]

/-- The rows that `finish` writes. -/
theorem artifactRows_foldl_push (h : Bound callId requestIds start)
    (hread : ∀ row ∈ rows, row.spoolRow.Readable) :
    artifactRows 0 (rows.foldl push start).spools = .ok (artifact requestIds rows) := by
  have hspools := h.spools_foldl_push rows
  rw [@artifactRows_eq fun spool => rowsOf rows spool.binding.requestId]
  · rw [hspools, artifact, List.map_map]
    rfl
  · intro spool hspool
    rw [hspools] at hspool
    obtain ⟨binding, -, rfl⟩ := List.mem_map.mp hspool
    rfl
  · exact fun spool _ row hrow => hread row (List.mem_of_mem_filter hrow)

/-- The rows of the artifact, request by request. -/
theorem hostRow_artifact (requestIds : List ℕ) (rows : List HostCaptureRow) :
    (artifact requestIds rows).map ArtifactRow.hostRow = requestIds.flatMap (rowsOf rows) := by
  rw [artifact, hostRow_requestMajor, List.flatMap_map, bindings, List.flatMap_map]
  conv_rhs => rw [← List.zipIdx_map_fst 0 requestIds, List.flatMap_map]

/-- Every recorded row of a bound request is in the artifact. -/
theorem mem_artifact {row : HostCaptureRow} (hrow : row ∈ rows) (hid : row.requestId ∈ requestIds) :
    row ∈ (artifact requestIds rows).map ArtifactRow.hostRow := by
  rw [hostRow_artifact]
  exact List.mem_flatMap.mpr ⟨_, hid, List.mem_filter.mpr ⟨hrow, decide_eq_true rfl⟩⟩

end Bound

/-- Recording a row does not change the bound requests. -/
theorem binds_push {session : CaptureSession} {row : HostCaptureRow} {requestId : ℕ} :
    (session.push row).Binds requestId ↔ session.Binds requestId := by
  have hid : ∀ spool : RequestSpool,
      (if spool.binding.requestId = row.requestId then spool.push row else spool).binding =
        spool.binding := fun spool => by
    split <;> rfl
  simp [Binds, push, hid]

/-- The rows that are recorded are finite, and their requests are bound. -/
theorem TakesAll.forall {rows : List HostCaptureRow} :
    ∀ {session : CaptureSession}, session.TakesAll rows →
      ∀ row ∈ rows, session.Binds row.requestId ∧ Finite row.logits := by
  induction rows with
  | nil => exact fun _ _ => nofun
  | cons first rest ih =>
    intro session h row hrow
    rcases List.mem_cons.mp hrow with rfl | hrow
    · obtain ⟨spool, hspool, hid, -⟩ := h.1.next
      exact ⟨⟨spool, hspool, hid⟩, h.1.admits.finite⟩
    · exact (ih h.2 row hrow).imp_left binds_push.mp

/-! ### Publishing -/

/-- The lines of an artifact. -/
def artifactLines (callId : String) (bindings : List RequestBinding) (rows : List ArtifactRow)
    (vocabSize : Option ℕ) : List ArtifactLine :=
  .header ⟨FORMAT_NAME, SCHEMA_VERSION, callId, bindings⟩ ::
    (rows.map .row ++
      [.trailer ⟨true, rows.length, LOGITS_DTYPE, (rows.length, vocabSize.getD 0)⟩])

/-- What `finish` has done when it publishes. -/
theorem finish_eq_ok {session : CaptureSession} {destinationExists : Bool}
    {outputs : List RequestOutput} {lines : List Json} :
    session.finish destinationExists outputs = .ok lines ↔
      session.failed = false ∧ destinationExists = false ∧ ∃ rows,
        artifactRows 0 session.spools = .ok rows ∧
        lines = (artifactLines session.callId (session.spools.map (·.binding)) rows
          session.vocabSize).map ArtifactLine.toJson ∧
        validateArtifact lines session.callId (session.spools.map (·.binding)) outputs = .ok () := by
  simp only [finish, bailIf_bind_eq_ok_iff, Bool.not_eq_true]
  refine and_congr_right fun _ => ⟨fun h => ?_, ?_⟩
  · obtain ⟨rows, hrows, h⟩ := exists_of_bind_ok h
    obtain ⟨hvalid, h⟩ := next_of_bind h
    obtain ⟨hfree, h⟩ := bailIf_bind_eq_ok_iff.mp h
    obtain rfl := Except.ok.inj h
    exact ⟨Bool.eq_false_iff.mpr hfree, rows, hrows, rfl, hvalid⟩
  · rintro ⟨rfl, rows, hrows, rfl, hvalid⟩
    rw [hrows]
    show (validateArtifact _ _ _ _ >>= _) = _
    rw [artifactLines] at hvalid
    erw [hvalid]
    rfl

/-- **Nothing is published after a row has been lost**, when the faults of the calls set the latch.
What is published then has all rows passed to the calls, those of the first request first. After an
error every call and the publication fail. -/
theorem published_complete {callId : String} {requestIds : List ℕ} {start session : CaptureSession}
    {log : List CaptureEvent} (hbind : (prepare callId).bindRequests requestIds = .ok start)
    (h : Run LatchedStep start log session)
    (hrange : ∀ e ∈ log, ∀ row ∈ e.call.rows,
      row.requestId ≤ USIZE_MAX ∧ row.completionStep ≤ USIZE_MAX)
    (destinationExists : Bool) (outputs : List RequestOutput) :
    (∀ lines, session.finish destinationExists outputs = .ok lines →
      (∀ e ∈ log, e.result = .ok ()) ∧ ∃ (header trailer : ArtifactLine) (rows : List ArtifactRow),
        lines = (header :: (rows.map ArtifactLine.row ++ [trailer])).map ArtifactLine.toJson ∧
        rows.map ArtifactRow.hostRow = requestIds.flatMap (rowsOf (passedRows log)) ∧
        ∀ row ∈ passedRows log, row ∈ rows.map ArtifactRow.hostRow) ∧
    (log.Pairwise fun e e' => e.Fails → e'.Fails) ∧
    ∀ e ∈ log, e.Fails → ∀ lines, session.finish destinationExists outputs ≠ .ok lines := by
  have hbound := bound_of_bindRequests hbind
  have hlogged := recorded_of_run hbound.distinct h
  have hpublished : ∀ lines, session.finish destinationExists outputs = .ok lines →
      ∀ e ∈ log, e.result = .ok () := fun lines hfinish =>
    (hlogged.holds (finish_eq_ok.mp hfinish).1).1
  refine ⟨fun lines hfinish => ⟨hpublished lines hfinish, ?_⟩, hlogged.pairwise,
    fun e he hfails lines hfinish => hfails (hpublished lines hfinish e he)⟩
  obtain ⟨hopen, -, rows, hrows, hlines, -⟩ := finish_eq_ok.mp hfinish
  obtain ⟨-, htakes, rfl⟩ := hlogged.holds hopen
  have hread : ∀ row ∈ passedRows log, row.spoolRow.Readable := by
    intro row hrow
    obtain ⟨e, he, hrow'⟩ := List.mem_flatMap.mp hrow
    exact ⟨(hrange e he row hrow').1, (hrange e he row hrow').2, (htakes.forall row hrow).2⟩
  obtain rfl := Except.ok.inj (hrows.symm.trans (hbound.artifactRows_foldl_push hread))
  refine ⟨_, _, _, hlines, Bound.hostRow_artifact _ _, fun row hrow => Bound.mem_artifact hrow ?_⟩
  obtain ⟨spool, hspool, hid⟩ := (htakes.forall row hrow).1
  rw [← hbound.ids, ← hid]
  exact List.mem_map_of_mem hspool

/-- The rows of two requests in one call. -/
theorem published_complete_twoRequests :
    ∃ (start session : CaptureSession) (e : CaptureEvent) (lines : List Json),
      (prepare "call").bindRequests [7, 9] = .ok start ∧ Run LatchedStep start [e] session ∧
      session.finish false [⟨7, [3], "", true⟩, ⟨9, [4, 5], "", true⟩] = .ok lines ∧
      e.result = .ok () ∧ e.call.rows.length = 3 ∧
      ∃ (header trailer : ArtifactLine) (rows : List ArtifactRow),
        lines = (header :: (rows.map ArtifactLine.row ++ [trailer])).map ArtifactLine.toJson ∧
        ∀ row ∈ e.call.rows, row ∈ rows.map ArtifactRow.hostRow := by
  let rows : List HostCaptureRow := [⟨9, 4, 0, [1]⟩, ⟨7, 3, 0, [2]⟩, ⟨9, 5, 1, [1]⟩]
  let outputs : List RequestOutput := [⟨7, [3], "", true⟩, ⟨9, [4, 5], "", true⟩]
  let start : CaptureSession :=
    { prepare "call" with spools := [⟨⟨0, 7⟩, [], 0⟩, ⟨⟨1, 9⟩, [], 0⟩] }
  have hfinish : (match recordHostRows .none rows start with
      | .ok _ session => (session.finish false outputs).toOption.isSome
      | .error _ _ => false) = true := by decide +kernel
  have hbinds : start.BindsRows .none rows :=
    ⟨fun _ => ⟨_, List.mem_cons_of_mem _ List.mem_cons_self, rfl⟩, fun _ _ =>
      ⟨fun _ => binds_push.mpr ⟨_, List.mem_cons_self, rfl⟩, fun _ _ =>
        ⟨fun _ => binds_push.mpr (binds_push.mpr
          ⟨_, List.mem_cons_of_mem _ List.mem_cons_self, rfl⟩), fun _ _ => trivial⟩⟩⟩
  cases hrecord : recordHostRows .none rows start with
  | error message session =>
    rw [hrecord] at hfinish
    cases hfinish
  | ok u session =>
    simp only [hrecord] at hfinish
    cases hpublish : session.finish false outputs with
    | error message =>
      rw [hpublish] at hfinish
      cases hfinish
    | ok lines =>
      have hrun : Run LatchedStep start [⟨.hostRows .none rows, .ok ()⟩] session :=
        .single ⟨fun _ => hbinds, .ok hrecord⟩
      obtain ⟨hall, header, trailer, written, hlines, -, hmem⟩ :=
        (@published_complete "call" [7, 9] start session _ rfl hrun (by
          intro e he row hrow
          obtain rfl := List.mem_singleton.mp he
          simp only [CaptureCall.rows, rows, List.mem_cons, List.not_mem_nil, or_false] at hrow
          rcases hrow with rfl | rfl | rfl <;> simp [USIZE_MAX]) false outputs).1 lines hpublish
      exact ⟨start, session, _, lines, rfl, hrun, hpublish, rfl, rfl, header, trailer, written, hlines,
        fun row hrow => hmem row (by simpa [passedRows] using hrow)⟩

/-- A row of a request that is not bound is lost, and the session publishes nevertheless. -/
theorem published_after_loss :
    ∃ (start session : CaptureSession) (message : String) (lines : List Json),
      (prepare "call").bindRequests [7] = .ok start ∧
      recordHostRows .none [⟨7, 3, 0, [1]⟩, ⟨9, 4, 0, [1]⟩] start = .error message session ∧
      session.finish false [⟨7, [3], "", true⟩] = .ok lines ∧ lines.length = 3 := by
  let rows : List HostCaptureRow := [⟨7, 3, 0, [1]⟩, ⟨9, 4, 0, [1]⟩]
  let start : CaptureSession := { prepare "call" with spools := [⟨⟨0, 7⟩, [], 0⟩] }
  have hfinish : (match recordHostRows .none rows start with
      | .ok _ _ => none
      | .error _ session => (session.finish false [⟨7, [3], "", true⟩]).toOption.map List.length) =
        some 3 := by decide +kernel
  cases hrecord : recordHostRows .none rows start with
  | ok u session =>
    rw [hrecord] at hfinish
    cases hfinish
  | error message session =>
    simp only [hrecord] at hfinish
    cases hpublish : session.finish false [⟨7, [3], "", true⟩] with
    | error reason =>
      rw [hpublish] at hfinish
      cases hfinish
    | ok lines =>
      rw [hpublish] at hfinish
      exact ⟨start, session, message, lines, rfl, hrecord, hpublish, Option.some.inj hfinish⟩

end CaptureSession

end VllmOxide.GoldenCapture
