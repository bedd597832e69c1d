import VllmOxide.GoldenCapture.Capture
import VllmOxide.Library.Run

/-!
# What a capture session has recorded

A session that has not failed holds every row it was given, in the spool of the row's request. Most of
the faults in a batch set the latch, after which nothing is recorded or published. A row of an unknown
request and a copy to the host that fails do not, and a step without rows does not look at the latch;
apart from these, what is published is complete.

## Main definitions

* `CaptureSession.Takes`, `CaptureSession.push`: a row that is recorded, and the session after it.
* `CaptureCall`, `CaptureStep`: the recording calls and what they return.
* `CaptureSession.Latches`: a call whose faults set the latch.

## Main results

* `CaptureSession.recordHostRow_cases`: what recording one row does.
* `recorded_of_run`: what a session holds.
* `CaptureSession.finish_complete`: what is published contains all rows.
-/

namespace VllmOxide.GoldenCapture

open Json

namespace CaptureSession

variable {session : CaptureSession} {row : HostCaptureRow} {rows : List HostCaptureRow}
  {faults : CaptureFaults}

/-! ### One row -/

/-- The values of a row pass the checks ahead of the lookup of its request. -/
structure Admits (session : CaptureSession) (row : HostCaptureRow) : Prop where
  nonempty : row.logits ≠ []
  finite : ∀ value ∈ row.logits, value.isFinite = true
  width : ∀ vocabSize ∈ session.vocabSize, vocabSize = row.logits.length

/-- A session is bound to a request. -/
def Binds (session : CaptureSession) (requestId : ℕ) : Prop :=
  ∃ spool ∈ session.spools, spool.binding.requestId = requestId

/-- A row may be recorded: its values fit, and it is the next one of a bound request. -/
structure Takes (session : CaptureSession) (row : HostCaptureRow) : Prop where
  admits : session.Admits row
  next : ∃ spool ∈ session.spools, spool.binding.requestId = row.requestId ∧
    row.completionStep = spool.nextCompletionStep

/-- The requests of the spools are distinct. -/
def Distinct (session : CaptureSession) : Prop :=
  (session.spools.map (·.binding.requestId)).Nodup

/-- The session after a row has been recorded. -/
def push (session : CaptureSession) (row : HostCaptureRow) : CaptureSession :=
  { session with
    spools := session.spools.map fun spool =>
      if spool.binding.requestId = row.requestId then spool.push row else spool
    vocabSize := some row.logits.length }

theorem Distinct.push (h : session.Distinct) (row : HostCaptureRow) :
    (session.push row).Distinct := by
  have hids : (session.push row).spools.map (·.binding.requestId) =
      session.spools.map (·.binding.requestId) := by
    rw [CaptureSession.push, List.map_map]
    refine List.map_congr_left fun spool _ => ?_
    simp only [Function.comp_apply, RequestSpool.push]
    split <;> rfl
  rw [Distinct, hids]
  exact h

/-- The spool of a bound request. -/
theorem requestToSpool_eq_some {requestId i : ℕ}
    (h : session.requestToSpool requestId = some i) :
    ∃ spool, session.spools[i]? = some spool ∧ spool.binding.requestId = requestId := by
  obtain ⟨hlt, hid, -⟩ := List.findIdx?_eq_some_iff_getElem.mp h
  exact ⟨_, List.getElem?_eq_getElem hlt, of_decide_eq_true hid⟩

theorem requestToSpool_eq_none {requestId : ℕ} :
    session.requestToSpool requestId = none ↔ ¬ session.Binds requestId := by
  rw [requestToSpool, List.findIdx?_eq_none_iff, Binds]
  simp

/-- Only the spool of the row's request changes. -/
theorem set_eq_map {spools : List RequestSpool} {i : ℕ} {spool : RequestSpool}
    (hdistinct : (spools.map (·.binding.requestId)).Nodup) (hget : spools[i]? = some spool)
    (hid : spool.binding.requestId = row.requestId) :
    spools.set i (spool.push row) = spools.map fun other =>
      if other.binding.requestId = row.requestId then other.push row else other := by
  obtain ⟨hi, rfl⟩ := List.getElem?_eq_some_iff.mp hget
  refine List.ext_getElem (by simp) fun j hj hj' => ?_
  rw [List.getElem_set, List.getElem_map]
  have hlt : j < spools.length := by simpa using hj'
  by_cases hij : i = j
  · obtain rfl := hij
    rw [if_pos rfl, if_pos hid]
  · have hne : spools[j].binding.requestId ≠ row.requestId := by
      intro heq
      have hsame : spools[i] = spools[j] := List.inj_on_of_nodup_map hdistinct
        (List.getElem_mem hi) (List.getElem_mem hlt) (hid.trans heq.symm)
      exact hij ((hdistinct.of_map _).getElem_inj_iff.mp hsame)
    rw [if_neg hij, if_neg hne]

theorem eq_of_distinct (hdistinct : session.Distinct) {spool other : RequestSpool}
    (hspool : spool ∈ session.spools) (hother : other ∈ session.spools)
    (hid : spool.binding.requestId = other.binding.requestId) : spool = other :=
  List.inj_on_of_nodup_map hdistinct hspool hother hid

/-- **One row** is recorded, or it is refused; then the latch is set, unless its values fit and its
request is unknown. -/
theorem recordHostRow_cases (hdistinct : session.Distinct) (faults : CaptureFaults)
    (row : HostCaptureRow) :
    (session.Takes row ∧ faults.write row = none ∧
      recordHostRow faults row session = .ok () (session.push row)) ∨
    (¬ (session.Takes row ∧ faults.write row = none) ∧
      ∃ message session', recordHostRow faults row session = .error message session' ∧
        ((session.Admits row → session.Binds row.requestId) → session'.failed = true)) := by
  unfold recordHostRow
  by_cases hempty : row.logits = []
  · exact .inr ⟨fun h => h.1.admits.nonempty hempty, _, _, if_pos hempty, fun _ => rfl⟩
  rw [if_neg hempty]
  by_cases hfinite : row.logits.any (fun value => !value.isFinite) = true
  · refine .inr ⟨fun h => ?_, _, _, if_pos hfinite, fun _ => rfl⟩
    obtain ⟨value, hvalue, hnot⟩ := List.any_eq_true.mp hfinite
    rw [h.1.admits.finite value hvalue] at hnot
    cases hnot
  rw [if_neg hfinite]
  by_cases hwidth : (session.vocabSize.any fun vocabSize =>
      decide (vocabSize ≠ row.logits.length)) = true
  · refine .inr ⟨fun h => ?_, _, _, if_pos hwidth, fun _ => rfl⟩
    obtain ⟨width, hsome, hne⟩ := (Option.any_eq_true _ _).mp hwidth
    exact of_decide_eq_true hne (h.1.admits.width width hsome)
  rw [if_neg hwidth]
  have hadmits : session.Admits row := by
    refine ⟨hempty, fun value hvalue => ?_, fun width hsome => ?_⟩
    · by_contra hnot
      exact hfinite (List.any_eq_true.mpr ⟨value, hvalue, by simpa using hnot⟩)
    · by_contra hne
      exact hwidth ((Option.any_eq_true _ _).mpr ⟨width, hsome, decide_eq_true hne⟩)
  have hlookup : ({ session with vocabSize := some row.logits.length } :
      CaptureSession).requestToSpool row.requestId = session.requestToSpool row.requestId := rfl
  simp only [hlookup]
  cases hspool : session.requestToSpool row.requestId with
  | none =>
    have hunknown := requestToSpool_eq_none.mp hspool
    refine .inr ⟨fun h => ?_, _, _, rfl, fun h => absurd (h hadmits) hunknown⟩
    obtain ⟨spool, hmem, hid, -⟩ := h.1.next
    exact hunknown ⟨spool, hmem, hid⟩
  | some i =>
    obtain ⟨spool, hget, hid⟩ := requestToSpool_eq_some hspool
    have hmem : spool ∈ session.spools := List.mem_of_getElem? hget
    simp only [hget]
    by_cases hstep : row.completionStep = spool.nextCompletionStep
    · rw [if_neg (not_not.mpr hstep)]
      have htakes : session.Takes row := ⟨hadmits, spool, hmem, hid, hstep⟩
      cases hwrite : faults.write row with
      | some message => exact .inr ⟨(fun h => nomatch h.2), _, _, rfl, fun _ => rfl⟩
      | none =>
        refine .inl ⟨htakes, rfl, ?_⟩
        simp only [push, set_eq_map hdistinct hget hid]
    · rw [if_pos hstep]
      refine .inr ⟨fun h => ?_, _, _, rfl, fun _ => rfl⟩
      obtain ⟨other, hother, hid', hnext⟩ := h.1.next
      exact hstep (eq_of_distinct hdistinct hmem hother (hid.trans hid'.symm) ▸ hnext)

/-! ### A batch of rows -/

/-- Every row may be recorded after the rows before it. -/
def TakesAll : CaptureSession → List HostCaptureRow → Prop
  | _, [] => True
  | session, row :: rest => session.Takes row ∧ (session.push row).TakesAll rest

/-- As long as rows are recorded, a row whose values fit is one of a bound request. -/
def BindsRows (faults : CaptureFaults) : CaptureSession → List HostCaptureRow → Prop
  | _, [] => True
  | session, row :: rest => (session.Admits row → session.Binds row.requestId) ∧
      (session.Takes row → faults.write row = none → (session.push row).BindsRows faults rest)

/-- **A batch** is recorded, or it is refused. -/
theorem recordRows_cases (faults : CaptureFaults) (rows : List HostCaptureRow) :
    ∀ {session : CaptureSession}, session.Distinct →
      (session.TakesAll rows ∧ recordRows faults rows session = .ok () (rows.foldl push session)) ∨
      ∃ message session', recordRows faults rows session = .error message session' ∧
        (session.BindsRows faults rows → session'.failed = true) := by
  induction rows with
  | nil => exact fun _ => .inl ⟨trivial, rfl⟩
  | cons row rest ih =>
    intro session hdistinct
    rcases recordHostRow_cases hdistinct faults row with ⟨htakes, hwrite, hrow⟩ |
      ⟨-, message, session', hrow, hlatch⟩
    · have hbind : recordRows faults (row :: rest) session =
          recordRows faults rest (session.push row) := by
        simp only [recordRows, bind, EStateM.bind, hrow]
      rw [hbind]
      rcases ih (hdistinct.push row) with ⟨hall, hrest⟩ | ⟨message, session', hrest, hlatch⟩
      · exact .inl ⟨⟨htakes, hall⟩, hrest⟩
      · exact .inr ⟨message, session', hrest, fun h => hlatch (h.2 htakes hwrite)⟩
    · refine .inr ⟨message, session', ?_, fun h => hlatch h.1⟩
      simp only [recordRows, bind, EStateM.bind, hrow]

theorem takesAll_append {before after : List HostCaptureRow} :
    ∀ {session : CaptureSession}, session.TakesAll (before ++ after) ↔
      session.TakesAll before ∧ (before.foldl push session).TakesAll after := by
  induction before with
  | nil => exact fun {_} => ⟨fun h => ⟨trivial, h⟩, fun h => h.2⟩
  | cons row rest ih =>
    intro session
    exact (and_congr_right fun _ => ih).trans and_assoc.symm

end CaptureSession

/-! ### Recording calls -/

/-- A recording call, with the faults it meets. -/
inductive CaptureCall
  | hostRows (faults : CaptureFaults) (rows : List HostCaptureRow)
  | engineStep (faults : CaptureFaults) (step : EngineStepCapture)

/-- Make a call. -/
def CaptureCall.perform : CaptureCall → EStateM String CaptureSession Unit
  | .hostRows faults rows => CaptureSession.recordHostRows faults rows
  | .engineStep faults step => CaptureSession.recordEngineStep faults step

/-- The width of the logits of an engine step. -/
def EngineStepCapture.width (step : EngineStepCapture) : ℕ :=
  step.logits.dims.getLastD 0

/-- The rows that a call is given. -/
def CaptureCall.rows : CaptureCall → List HostCaptureRow
  | .hostRows _ rows => rows
  | .engineStep _ step => CaptureSession.hostRows step step.width

/-- A call and what it returned. -/
structure CaptureEvent where
  call : CaptureCall
  result : Except String Unit

/-- The call has returned an error. -/
def CaptureEvent.Fails (e : CaptureEvent) : Prop :=
  e.result ≠ .ok ()

/-- The recording calls on a session. -/
inductive CaptureStep : CaptureSession → CaptureEvent → CaptureSession → Prop
  | ok {session session' : CaptureSession} {call : CaptureCall}
      (h : call.perform session = .ok () session') : CaptureStep session ⟨call, .ok ()⟩ session'
  | error {session session' : CaptureSession} {call : CaptureCall} {message : String}
      (h : call.perform session = .error message session') :
      CaptureStep session ⟨call, .error message⟩ session'

/-- **The condition on a call.** As long as the session has not failed, the loop over the rows meets no
row with fitting values whose request is unknown, and a copy to the host that is reached does not fail.
When it has failed, no engine step without rows and logits is recorded. -/
def CaptureSession.Latches (session : CaptureSession) : CaptureCall → Prop
  | .hostRows faults rows => session.failed = false → session.BindsRows faults rows
  | .engineStep faults step =>
    (session.failed = true → ¬ (step.rows = [] ∧ step.logits.dims = [0, 0])) ∧
    (session.failed = false → step.rows ≠ [] →
      step.logits.dims = [step.rows.length, step.width] → step.width ≠ 0 → step.dtype = "F32" →
        faults.copy = none ∧
          session.BindsRows faults (CaptureSession.hostRows step step.width))

/-- A call of which the faults set the latch. -/
def LatchedStep (session : CaptureSession) (e : CaptureEvent) (session' : CaptureSession) : Prop :=
  session.Latches e.call ∧ CaptureStep session e session'

section Calls

variable {session session' : CaptureSession} {call : CaptureCall}

/-- What a call has done: all its rows are recorded, or it returns an error and the latch is set. -/
inductive Recorded (session : CaptureSession) (call : CaptureCall) : Prop
  | all (hopen : session.failed = false) (htakes : session.TakesAll call.rows)
      (hok : call.perform session = .ok () (call.rows.foldl CaptureSession.push session))
  | failed (message : String) (session' : CaptureSession)
      (herror : call.perform session = .error message session') (hfailed : session'.failed = true)

/-- A batch of rows after the latch has been looked at. -/
theorem recordHostRows_cases (hdistinct : session.failed = false → session.Distinct) {faults : CaptureFaults}
    {rows : List HostCaptureRow} (hbinds : session.failed = false → session.BindsRows faults rows) :
    (session.failed = false ∧ session.TakesAll rows ∧
      CaptureSession.recordHostRows faults rows session =
        .ok () (rows.foldl CaptureSession.push session)) ∨
    ∃ message session', CaptureSession.recordHostRows faults rows session = .error message session' ∧
      session'.failed = true := by
  rw [CaptureSession.recordHostRows]
  cases hfailed : session.failed with
  | true => exact .inr ⟨_, session, rfl, hfailed⟩
  | false =>
    rcases CaptureSession.recordRows_cases faults rows (hdistinct hfailed) with ⟨htakes, hok⟩ |
      ⟨message, session', herror, hlatch⟩
    · exact .inl ⟨rfl, htakes, hok⟩
    · exact .inr ⟨message, session', herror, hlatch (hbinds hfailed)⟩

/-- **A call records all its rows, or it returns an error and sets the latch.** -/
theorem CaptureSession.Latches.recorded (h : session.Latches call)
    (hdistinct : session.failed = false → session.Distinct) : Recorded session call := by
  cases call with
  | hostRows faults rows =>
    rcases recordHostRows_cases hdistinct h with ⟨hopen, htakes, hok⟩ |
      ⟨message, session', herror, hfailed⟩
    · exact .all hopen htakes hok
    · exact .failed message session' herror hfailed
  | engineStep faults step =>
    obtain ⟨hempty, hrows⟩ := h
    have hperform : ∀ r, recordEngineStep faults step session = r →
        (CaptureCall.engineStep faults step).perform session = r := fun _ => id
    unfold recordEngineStep at hperform
    by_cases hnone : step.rows = []
    · rw [if_pos hnone] at hperform
      by_cases hdims : step.logits.dims = [0, 0]
      · rw [if_neg (not_not.mpr hdims)] at hperform
        have hno : (CaptureCall.engineStep faults step).rows = [] := by
          rw [CaptureCall.rows, hostRows, hnone]
          rfl
        have hopen : session.failed = false := by
          rw [← Bool.not_eq_true]
          exact fun hfailed => hempty hfailed ⟨hnone, hdims⟩
        refine .all hopen ?_ ?_
        · rw [hno]
          trivial
        · rw [hno]
          exact hperform _ rfl
      · rw [if_pos hdims] at hperform
        exact .failed _ _ (hperform _ rfl) rfl
    rw [if_neg hnone] at hperform
    split at hperform
    · rename_i rowCount vocabSize hdims
      have hwidth : step.width = vocabSize := by
        rw [EngineStepCapture.width, hdims]
        rfl
      by_cases hshape : rowCount ≠ step.rows.length ∨ vocabSize = 0
      · rw [if_pos hshape] at hperform
        exact .failed _ _ (hperform _ rfl) rfl
      rw [if_neg hshape] at hperform
      simp only [not_or, not_not] at hshape
      by_cases hdtype : step.dtype = "F32"
      · rw [if_neg (not_not.mpr hdtype)] at hperform
        have hgood := fun hopen => hrows hopen hnone (by rw [hdims, hwidth, hshape.1])
          (hwidth ▸ hshape.2) hdtype
        rw [hwidth] at hgood
        cases hcopy : faults.copy with
        | some message =>
          rw [hcopy] at hperform
          refine .failed _ _ (hperform _ rfl) ?_
          rw [← Bool.not_eq_false]
          intro hopen
          rw [hcopy] at hgood
          exact nomatch (hgood hopen).1
        | none =>
          rw [hcopy] at hperform
          rcases recordHostRows_cases hdistinct fun hopen => (hgood hopen).2 with
            ⟨hopen, htakes, hok⟩ | ⟨message, session', herror, hfailed⟩
          · have hsame : (CaptureCall.engineStep faults step).rows = hostRows step vocabSize := by
              rw [CaptureCall.rows, hwidth]
            exact .all hopen (hsame ▸ htakes) (hperform _ (hsame ▸ hok))
          · exact .failed _ _ (hperform _ herror) hfailed
      · rw [if_pos hdtype] at hperform
        exact .failed _ _ (hperform _ rfl) rfl
    · exact .failed _ _ (hperform _ rfl) rfl

end Calls

/-! ### Runs -/

/-- The rows passed to the calls of a log. -/
def passedRows (log : List CaptureEvent) : List HostCaptureRow :=
  log.flatMap (·.call.rows)

theorem CaptureSession.Distinct.foldl_push {session : CaptureSession} (h : session.Distinct)
    (rows : List HostCaptureRow) : (rows.foldl CaptureSession.push session).Distinct := by
  induction rows generalizing session with
  | nil => exact h
  | cons row rest ih => exact ih (h.push row)

/-- A session that has not failed holds all rows it was given, and no call returned an error. After an
error every call returns one. -/
structure Logged (start : CaptureSession) (log : List CaptureEvent) (session : CaptureSession) :
    Prop where
  holds : session.failed = false → (∀ e ∈ log, e.result = .ok ()) ∧
    start.TakesAll (passedRows log) ∧ session = (passedRows log).foldl CaptureSession.push start
  pairwise : log.Pairwise fun e e' => e.Fails → e'.Fails

/-- **What a session holds**, after calls whose faults set the latch. -/
theorem recorded_of_run {start session : CaptureSession} {log : List CaptureEvent}
    (hdistinct : start.Distinct) (h : Run LatchedStep start log session) :
    Logged start log session := by
  refine h.invariant (P := Logged start) ⟨fun _ => ⟨by simp, trivial, rfl⟩, .nil⟩ ?_
  rintro log session e session' - ⟨hholds, hpairwise⟩ ⟨hlatches, hstep⟩
  have hrecorded := hlatches.recorded fun hopen =>
    (hholds hopen).2.2 ▸ hdistinct.foldl_push (passedRows log)
  have hpassed : passedRows (log ++ [e]) = passedRows log ++ e.call.rows := by
    simp [passedRows]
  cases hrecorded with
  | all hopen htakes hok =>
    obtain ⟨hall, hbefore, hsession⟩ := hholds hopen
    have hresult : e.result = .ok () ∧ session' = e.call.rows.foldl CaptureSession.push session := by
      cases hstep with
      | ok h =>
        rw [hok] at h
        cases h
        exact ⟨rfl, rfl⟩
      | error h =>
        rw [hok] at h
        cases h
    refine ⟨fun _ => ⟨?_, ?_, ?_⟩, List.pairwise_append.mpr ⟨hpairwise, List.pairwise_singleton _ _,
      fun e' he' _ _ hfails => absurd (hall e' he') hfails⟩⟩
    · intro e' he'
      rcases List.mem_append.mp he' with he' | he'
      · exact hall e' he'
      · exact List.mem_singleton.mp he' ▸ hresult.1
    · rw [hpassed, CaptureSession.takesAll_append, ← hsession]
      exact ⟨hbefore, htakes⟩
    · rw [hpassed, List.foldl_append, ← hsession]
      exact hresult.2
  | failed message other herror hfailed =>
    have hresult : e.Fails ∧ session' = other := by
      cases hstep with
      | ok h =>
        rw [herror] at h
        cases h
      | error h =>
        rw [herror] at h
        cases h
        exact ⟨nofun, rfl⟩
    refine ⟨fun hopen => ?_, List.pairwise_append.mpr ⟨hpairwise, List.pairwise_singleton _ _,
      fun _ _ e' he' _ => List.mem_singleton.mp he' ▸ hresult.1⟩⟩
    rw [hresult.2, hfailed] at hopen
    cases hopen

end VllmOxide.GoldenCapture
