import VllmOxide.System.Engine

/-!
# The track of a request

The log of a run tells everything about a request that a caller can see: its prompt and parameters,
the tokens sampled for it, the preemptions and admissions, and the token ranges planned for it. The
track of a request is this record, read off the log without looking at the states. Reachable states
agree with it.

## Main definitions

* `Track`, `track`: the record of a request and how the log determines it.
* `Contiguous`: ranges that follow one after the other.
* `Tracked`: the state agrees with the tracks.

## Main results

* `EngineConfig.tracked_of_run`: every reachable state agrees with the tracks.
* `EngineConfig.contiguous_of_run`: the ranges planned since an admission are contiguous.
-/

namespace VllmOxide

/-! ### Contiguous ranges -/

/-- Non-empty ranges that lead from one position to another, each starting where the one before
ends. -/
inductive Contiguous : ℕ → List TokenRange → ℕ → Prop
  | nil (start : ℕ) : Contiguous start [] start
  | cons {range : TokenRange} {ranges : List TokenRange} {stop : ℕ}
      (hlt : range.start < range.stop) (h : Contiguous range.stop ranges stop) :
      Contiguous range.start (range :: ranges) stop

namespace Contiguous

variable {start stop : ℕ} {ranges : List TokenRange}

theorem le (h : Contiguous start ranges stop) : start ≤ stop := by
  induction h with
  | nil => exact le_refl _
  | cons hlt _ ih => exact hlt.le.trans ih

/-- One more range. -/
theorem snoc (h : Contiguous start ranges stop) {next : ℕ} (hlt : stop < next) :
    Contiguous start (ranges ++ [⟨stop, next⟩]) next := by
  induction h with
  | nil start =>
    have hone : Contiguous (⟨start, next⟩ : TokenRange).start [⟨start, next⟩] next :=
      .cons hlt (.nil _)
    exact hone
  | cons hrange _ ih => exact .cons hrange (ih hlt)

end Contiguous

/-! ### Tracks -/

/-- What a log says about one request. -/
structure Track where
  prompt : List Token
  params : SamplingParams
  /-- The tokens sampled so far, in order. -/
  sampled : List Token
  /-- The length of the prompt, or of the history at the last preemption. -/
  target : ℕ
  /-- Since the last admission without a preemption: the length of the cached prefix, and the
  ranges planned. -/
  planned : Option (ℕ × List TokenRange)

namespace Track

/-- The prompt and the sampled tokens. -/
def history (t : Track) : List Token :=
  t.prompt ++ t.sampled

/-- The track of a new request. -/
def accepted (prompt : List Token) (params : SamplingParams) : Track :=
  ⟨prompt, params, [], prompt.length, none⟩

/-- The track after a preemption. -/
def preempted (t : Track) : Track :=
  { t with target := t.history.length, planned := none }

/-- The track after an admission with a cached prefix. -/
def admitted (cached : ℕ) (t : Track) : Track :=
  { t with planned := some (cached, []) }

/-- The track after a range may have been planned. -/
def plans (range : Option TokenRange) (t : Track) : Track :=
  { t with planned := t.planned.map fun (start, ranges) => (start, ranges ++ range.toList) }

/-- The track after a token may have been sampled. -/
def samples (token : Option Token) (t : Track) : Track :=
  { t with sampled := t.sampled ++ token.toList }

end Track

/-- What a decision does to the track of a request. A request may be preempted and admitted again
by one decision. -/
def Decision.track (decision : Decision) (id : ℕ) (t : Track) : Track :=
  let t := if id ∈ decision.preempted then t.preempted else t
  match decision.admitted.lookup id with
  | some cached => t.admitted cached
  | none => t

/-- The range that a plan has for a request. -/
def StepPlan.rangeOf (plan : StepPlan) (id : ℕ) : Option TokenRange :=
  (plan.sequences.find? fun planned => decide (planned.sequenceId = id)).map (·.tokenRange)

/-- The token that a result brings for a request. -/
def StepResult.tokenOf (result : StepResult) (id : ℕ) : Option Token :=
  (result.sequences.find? fun executed => decide (executed.sequenceId = id)).bind (·.sampledToken)

/-- What an event does to the track of a request. -/
def Event.track (id : ℕ) : Event → Option Track → Option Track
  | .accepted requestId promptTokenIds params, t =>
    if requestId = id then some (.accepted promptTokenIds params) else t
  | .planned decision plan, t =>
    t.map fun t => (decision.track id t).plans (plan.bind (·.rangeOf id))
  | .planFailed decision _, t => t.map (decision.track id)
  | .applied result _, t => t.map (·.samples (result.tokenOf id))
  | .rejected _ _, t => t
  | .aborted, _ => none
  | .abortFailed _, t => t

/-- The track of a request. -/
def track (id : ℕ) (log : List Event) : Option Track :=
  log.foldl (fun t e => e.track id t) none

theorem Event.track_planned (id : ℕ) (decision : Decision) (plan : StepPlan) (t : Track) :
    (Event.planned decision (some plan)).track id (some t) =
      some ((decision.track id t).plans (plan.rangeOf id)) := rfl

@[simp] theorem track_nil (id : ℕ) : track id [] = none := rfl

@[simp] theorem track_snoc (id : ℕ) (log : List Event) (e : Event) :
    track id (log ++ [e]) = e.track id (track id log) := by
  rw [track, List.foldl_append]
  rfl

namespace Track

variable {t : Track}

@[simp] theorem plans_none : t.plans none = t := by
  cases h : t.planned with
  | none => simp [plans, h]; rw [← h]
  | some planned => simp [plans, h]; rw [← h]

@[simp] theorem samples_none : t.samples none = t := by
  simp [samples]

@[simp] theorem history_samples (token : Option Token) :
    (t.samples token).history = t.history ++ token.toList := by
  simp [samples, history]

end Track

namespace Decision

variable {decision : Decision} {id : ℕ} {t : Track}

theorem track_untouched (hpreempted : id ∉ decision.preempted)
    (hadmitted : decision.admitted.lookup id = none) : decision.track id t = t := by
  simp [track, hpreempted, hadmitted]

theorem track_admitted {cached : ℕ} (hadmitted : decision.admitted.lookup id = some cached) :
    decision.track id t =
      (if id ∈ decision.preempted then t.preempted else t).admitted cached := by
  simp [track, hadmitted]

theorem track_preempted (hpreempted : id ∈ decision.preempted)
    (hadmitted : decision.admitted.lookup id = none) : decision.track id t = t.preempted := by
  simp [track, hpreempted, hadmitted]

/-- A decision ends the planned ranges, starts them again or leaves them. -/
theorem planned_track (decision : Decision) (id : ℕ) (t : Track) :
    (decision.track id t).planned = none ∨
      (∃ cached, (decision.track id t).planned = some (cached, [])) ∨
      (decision.track id t).planned = t.planned := by
  unfold track
  cases decision.admitted.lookup id with
  | some cached => exact .inr (.inl ⟨cached, rfl⟩)
  | none =>
    by_cases hpreempted : id ∈ decision.preempted
    · exact .inl (by simp [hpreempted, Track.preempted])
    · exact .inr (.inr (by simp [hpreempted]))

@[simp] theorem history_track : (decision.track id t).history = t.history := by
  unfold track
  split <;> split <;> rfl

end Decision

/-! ### States that agree with the tracks -/

/-- The track belongs to the request. -/
structure Track.Of (t : Track) (r : Request) : Prop where
  tokenIds : r.tokenIds = t.history
  prompt : r.numPromptTokens = t.prompt.length
  params : r.samplingParams = t.params

/-- The track of a waiting request. -/
structure Track.Waits (t : Track) (w : Sequence) : Prop where
  of : t.Of w.request
  target : t.target = w.numTokens
  planned : t.planned = none

/-- The track of a running request for which ranges have been planned up to `reach`. -/
structure Track.Runs (t : Track) (reach : ℕ) (seq : Sequence) : Prop where
  of : t.Of seq.request
  prefill : seq.phase = .prefill → t.target = seq.numTokens
  decode : seq.phase = .decode → t.target ≤ seq.numCachedTokens
  planned : ∃ start ranges, t.planned = some (start, ranges) ∧ Contiguous start ranges reach

/-- The end of what has been planned for a running sequence. -/
def Scheduler.reach (s : Scheduler) (seq : Sequence) : ℕ :=
  seq.numCachedTokens + if s.inFlight.isSome then seq.numScheduledTokens else 0

/-- The state agrees with the tracks. -/
structure Tracked (log : List Event) (st : EngineState) : Prop where
  running : ∀ seq ∈ st.1.running, ∃ t, track seq.seqId log = some t ∧ t.Runs (st.1.reach seq) seq
  waiting : ∀ w ∈ st.1.waiting, ∃ t, track w.seqId log = some t ∧ t.Waits w
  inFlight : ∀ plan, st.1.inFlight = some plan → ∀ seq ∈ st.1.running, seq.isScheduled = true →
    ∃ t start ranges, track seq.seqId log = some t ∧
      t.planned = some (start, ranges ++ [seq.plannedTokens])

/-- The tracks after the decision of a selection, before a range is planned. -/
structure Decided (log : List Event) (decision : Decision) (s : Scheduler) : Prop where
  running : ∀ seq ∈ s.running, ∃ t, track seq.seqId log = some t ∧
    (decision.track seq.seqId t).Runs seq.numCachedTokens seq
  waiting : ∀ w ∈ s.waiting, ∃ t, track w.seqId log = some t ∧
    (decision.track w.seqId t).Waits w

section Of

variable {t : Track} {seq seq' : Sequence} {reach : ℕ}

theorem Track.Of.preempted {r : Request} (h : t.Of r) : t.preempted.Of r :=
  ⟨h.tokenIds, h.prompt, h.params⟩

theorem Track.Of.admitted {r : Request} (h : t.Of r) (cached : ℕ) : (t.admitted cached).Of r :=
  ⟨h.tokenIds, h.prompt, h.params⟩

/-- A preempted request waits. -/
theorem Track.Runs.preempted (h : t.Runs reach seq) (hrequest : seq'.request = seq.request)
    (hlen : seq.numTokens = seq.tokenIds.length) : t.preempted.Waits seq' where
  of := hrequest ▸ h.of.preempted
  target := by
    have htokens : seq'.numTokens = seq.numTokens := congrArg Request.numTokens hrequest
    have hhistory : seq.tokenIds = t.history := h.of.tokenIds
    rw [htokens, hlen, hhistory]
    rfl
  planned := rfl

/-- An admitted request runs. -/
theorem Track.Waits.admitted {w : Sequence} (h : t.Waits w) (hrequest : seq.request = w.request)
    (hp : seq.Prefilling) : (t.admitted seq.numCachedTokens).Runs seq.numCachedTokens seq where
  of := hrequest ▸ h.of.admitted _
  prefill _ := h.target.trans (congrArg Request.numTokens hrequest).symm
  decode hd := by simp [hp.phase] at hd
  planned := ⟨_, [], rfl, .nil _⟩

/-- Neither the request nor the progress of a kept sequence changes. -/
theorem Track.Runs.kept (h : t.Runs seq.numCachedTokens seq) (hkept : Kept seq seq') :
    t.Runs seq'.numCachedTokens seq' := by
  have hphase : seq'.phase = seq.phase := by
    rw [hkept.eq]
    rfl
  rw [hkept.numCachedTokens]
  refine ⟨hkept.request ▸ h.of, fun hp => ?_, fun hd => ?_, h.planned⟩
  · exact (h.prefill (hphase ▸ hp)).trans (congrArg Request.numTokens hkept.request).symm
  · rw [hkept.numCachedTokens]
    exact h.decode (hphase ▸ hd)

end Of

variable [HashFunction]

/-- The live sequences have distinct ids. -/
theorem Core.nodup_ids {s : Scheduler} {kv : BlockPool} (C : Core s kv) :
    (s.running.map (·.seqId) ++ s.waiting.map (·.seqId)).Nodup := by
  have h := C.identified.nodup
  rw [Scheduler.requests, List.map_map, List.map_append] at h
  exact h

section Decision

variable {st : EngineState} {n : ℕ} {kv₁ kv : BlockPool} {kept admitted : List Sequence}
  {s : Scheduler} {log : List Event} {seq : Sequence}

/-- Where the sequences come from that a decision did not keep. -/
theorem Selected.origin (S : Selected st.1 st.2 n kv₁ kept admitted s kv)
    (hseq : seq ∈ admitted ∨ seq ∈ s.waiting) : ∃ q, q.request = seq.request ∧
      (q ∈ st.1.running.drop n ∨ q ∈ st.1.waiting) := by
  have hmem : seq.request ∈ s.requests := by
    rw [Scheduler.requests, S.running]
    refine List.mem_map_of_mem ?_
    rcases hseq with hseq | hseq
    · exact List.mem_append_left _ (List.mem_append_right _ hseq)
    · exact List.mem_append_right _ hseq
  obtain ⟨q, hq, hrequest⟩ := List.mem_map.mp (S.requests.mem_iff.mp hmem)
  refine ⟨q, hrequest, ?_⟩
  rw [← List.take_append_drop n st.1.running, List.append_assoc] at hq
  rcases List.mem_append.mp hq with hq | hq
  · -- a kept sequence would have the same id
    exfalso
    obtain ⟨k, hk, hkept⟩ := exists_of_forall₂ S.stays.flip hq
    have hid : k.seqId = seq.seqId :=
      congrArg Request.seqId (Kept.request hkept |>.trans hrequest)
    have hnodup := S.core.nodup_ids
    rw [S.running, List.map_append, List.append_assoc, List.nodup_append] at hnodup
    refine hnodup.2.2 _ (List.mem_map_of_mem hk) seq.seqId ?_ hid
    rcases hseq with hseq | hseq
    · exact List.mem_append_left _ (List.mem_map_of_mem hseq)
    · exact List.mem_append_right _ (List.mem_map_of_mem hseq)
  · exact List.mem_append.mp hq

/-- The track of a sequence that a decision did not keep is the one of a waiting request, before
the decision or after its preemption. -/
theorem Selected.waits (S : Selected st.1 st.2 n kv₁ kept admitted s kv) (C : Core st.1 st.2)
    (T : Tracked log st) (hseq : seq ∈ admitted ∨ seq ∈ s.waiting) :
    ∃ w t, w.request = seq.request ∧ track seq.seqId log = some t ∧
      (if seq.seqId ∈ (decisionOf st.1 n admitted).preempted then t.preempted else t).Waits w := by
  obtain ⟨q, hrequest, hq⟩ := S.origin hseq
  have hid : q.seqId = seq.seqId := congrArg Request.seqId hrequest
  rcases hq with hq | hq
  · have hmem := List.mem_of_mem_drop hq
    obtain ⟨t, ht, hruns⟩ := T.running q hmem
    refine ⟨q, t, hrequest, hid ▸ ht, ?_⟩
    rw [if_pos (hid ▸ List.mem_map_of_mem hq)]
    exact hruns.preempted rfl (C.running q hmem).numTokens
  · obtain ⟨t, ht, hwaits⟩ := T.waiting q hq
    refine ⟨q, t, hrequest, hid ▸ ht, ?_⟩
    rw [if_neg]
    · exact hwaits
    · intro hpreempted
      obtain ⟨p, hp, hpid⟩ := List.mem_map.mp hpreempted
      refine (List.nodup_append.mp C.nodup_ids).2.2 _
        (List.mem_map_of_mem (List.mem_of_mem_drop hp)) _ (List.mem_map_of_mem hq) ?_
      exact hpid.trans hid.symm

/-- The tracks after a decision. -/
theorem Selected.decided (S : Selected st.1 st.2 n kv₁ kept admitted s kv) (C : Core st.1 st.2)
    (hinFlight : st.1.inFlight = none) (T : Tracked log st) :
    Decided log (decisionOf st.1 n admitted) s := by
  have hnodup := S.core.nodup_ids
  rw [S.running, List.map_append, List.append_assoc, List.nodup_append] at hnodup
  obtain ⟨-, hrest, hkeptids⟩ := hnodup
  obtain ⟨hadmittedids, -, hwaitingids⟩ := List.nodup_append.mp hrest
  refine ⟨fun seq hseq => ?_, fun w hw => ?_⟩
  · rw [S.running] at hseq
    rcases List.mem_append.mp hseq with hseq | hseq
    · obtain ⟨q, hq, hkept⟩ := exists_of_forall₂ S.stays hseq
      have hid : seq.seqId = q.seqId := congrArg Request.seqId hkept.request
      obtain ⟨t, ht, hruns⟩ := T.running q (List.mem_of_mem_take hq)
      rw [Scheduler.reach, hinFlight] at hruns
      refine ⟨t, hid ▸ ht, ?_⟩
      rw [Decision.track_untouched]
      · exact hruns.kept hkept
      · -- a kept sequence is not preempted
        intro hpreempted
        obtain ⟨p, hp, hpid⟩ := List.mem_map.mp hpreempted
        have hsplit := (List.nodup_append.mp C.nodup_ids).1
        rw [← List.take_append_drop n st.1.running, List.map_append, List.nodup_append] at hsplit
        exact hsplit.2.2 _ (List.mem_map_of_mem hq) _ (List.mem_map_of_mem hp)
          (hid.symm.trans hpid.symm)
      · refine lookup_of_notMem fun hadmitted => ?_
        exact hkeptids _ (List.mem_map_of_mem hseq) _ (List.mem_append_left _ hadmitted) rfl
    · obtain ⟨w, t, hrequest, ht, hwaits⟩ := S.waits C T (.inl hseq)
      refine ⟨t, ht, ?_⟩
      rw [Decision.track_admitted (lookup_of_nodup hadmittedids hseq)]
      exact hwaits.admitted hrequest.symm (S.fresh seq hseq).prefilling
  · obtain ⟨q, t, hrequest, ht, hwaits⟩ := S.waits C T (.inr hw)
    have hlookup : (decisionOf st.1 n admitted).admitted.lookup w.seqId = none := by
      refine lookup_of_notMem fun hadmitted => ?_
      exact hwaitingids _ hadmitted _ (List.mem_map_of_mem hw) rfl
    have htrack : (decisionOf st.1 n admitted).track w.seqId t =
        if w.seqId ∈ (decisionOf st.1 n admitted).preempted then t.preempted else t := by
      split
      · exact Decision.track_preempted ‹_› hlookup
      · exact Decision.track_untouched ‹_› hlookup
    refine ⟨t, ht, ?_⟩
    rw [htrack]
    exact ⟨hrequest ▸ hwaits.of, hwaits.target.trans (congrArg Request.numTokens hrequest),
      hwaits.planned⟩

end Decision

/-! ### Steps -/

omit [HashFunction] in
/-- Without a new plan in flight the decided tracks are those of the state. -/
theorem Decided.tracked {log : List Event} {e : Event} {d : Decision} {s : Scheduler}
    {kv : BlockPool} (h : Decided log d s) (hinFlight : s.inFlight = none)
    (he : ∀ id t, e.track id (some t) = some (d.track id t)) : Tracked (log ++ [e]) (s, kv) where
  running seq hseq := by
    obtain ⟨t, ht, hruns⟩ := h.running seq hseq
    refine ⟨_, by rw [track_snoc, ht, he], ?_⟩
    simpa [Scheduler.reach, hinFlight] using hruns
  waiting w hw := by
    obtain ⟨t, ht, hwaits⟩ := h.waiting w hw
    exact ⟨_, by rw [track_snoc, ht, he], hwaits⟩
  inFlight plan hplan := by
    rw [hinFlight] at hplan
    cases hplan

omit [HashFunction] in
/-- The range of a plan for a running sequence. -/
theorem rangeOf_plannedEntries {plan : StepPlan} {kv : BlockPool} {running : List Sequence}
    (hsequences : plan.sequences = plannedEntries kv running)
    (hnodup : (running.map (·.seqId)).Nodup) {seq : Sequence} (hseq : seq ∈ running) :
    plan.rangeOf seq.seqId = if seq.isScheduled then some seq.plannedTokens else none := by
  have hids : ((plannedEntries kv running).map (·.sequenceId)).Nodup := by
    rw [plannedEntries, List.map_map]
    exact hnodup.sublist (List.filter_sublist.map _)
  rw [StepPlan.rangeOf, hsequences]
  split
  · rename_i hscheduled
    have hmem : seq.plannedEntry kv ∈ plannedEntries kv running :=
      List.mem_map_of_mem (List.mem_filter.mpr ⟨hseq, hscheduled⟩)
    have hfind := find?_of_nodup hids hmem
    rw [show (seq.plannedEntry kv).sequenceId = seq.seqId from rfl] at hfind
    rw [hfind]
    rfl
  · rename_i hidle
    rw [Option.map_eq_none_iff, List.find?_eq_none]
    rintro entry hentry hid
    obtain ⟨q, hq, rfl⟩ := List.mem_map.mp hentry
    obtain ⟨hq, hscheduled⟩ := List.mem_filter.mp hq
    rw [eq_of_seqId hnodup hseq hq (of_decide_eq_true hid)] at hscheduled
    exact hidle hscheduled

omit [HashFunction] in
/-- A range from the end of what has been planned. -/
theorem Track.Runs.plans {t : Track} {seq : Sequence} (h : t.Runs seq.numCachedTokens seq)
    (hscheduled : seq.isScheduled = true) :
    (t.plans (some seq.plannedTokens)).Runs (seq.numCachedTokens + seq.numScheduledTokens) seq ∧
      ∃ start ranges, (t.plans (some seq.plannedTokens)).planned =
        some (start, ranges ++ [seq.plannedTokens]) := by
  obtain ⟨start, ranges, hplanned, hcontiguous⟩ := h.planned
  have hnew : (t.plans (some seq.plannedTokens)).planned =
      some (start, ranges ++ [seq.plannedTokens]) := by
    simp [Track.plans, hplanned]
  have hpos : 0 < seq.numScheduledTokens := of_decide_eq_true hscheduled
  exact ⟨⟨⟨h.of.tokenIds, h.of.prompt, h.of.params⟩, h.prefill, h.decode, start, _, hnew,
    hcontiguous.snoc (by omega)⟩, start, ranges, hnew⟩

/-- The tracks after a plan. -/
theorem Decided.planned {log : List Event} {d : Decision} {s : Scheduler} {kv : BlockPool}
    (h : Decided log d s) (C : Core s kv) {plan : StepPlan}
    (hsequences : plan.sequences = plannedEntries kv s.running) (nextPlanId : ℕ) :
    Tracked (log ++ [.planned d (some plan)])
      ({ s with nextPlanId := nextPlanId, inFlight := some plan }, kv) := by
  have hnodup := (List.nodup_append.mp C.nodup_ids).1
  refine ⟨fun seq hseq => ?_, fun w hw => ?_, fun plan' hplan' seq hseq hscheduled => ?_⟩
  · obtain ⟨t, ht, hruns⟩ := h.running seq hseq
    refine ⟨_, by rw [track_snoc, ht, Event.track_planned], ?_⟩
    rw [rangeOf_plannedEntries hsequences hnodup hseq]
    split
    · rename_i hscheduled
      exact (hruns.plans hscheduled).1
    · rename_i hidle
      have hzero : seq.numScheduledTokens = 0 := by simpa [Sequence.isScheduled] using hidle
      rw [Track.plans_none]
      simpa [Scheduler.reach, hzero] using hruns
  · obtain ⟨t, ht, hwaits⟩ := h.waiting w hw
    refine ⟨(d.track w.seqId t).plans (plan.rangeOf w.seqId),
      by rw [track_snoc, ht, Event.track_planned], ⟨hwaits.of.tokenIds, hwaits.of.prompt,
        hwaits.of.params⟩, hwaits.target, ?_⟩
    simp [Track.plans, hwaits.planned]
  · obtain ⟨t, ht, hruns⟩ := h.running seq hseq
    obtain ⟨start, ranges, hnew⟩ := (hruns.plans hscheduled).2
    refine ⟨_, start, ranges, by rw [track_snoc, ht, Event.track_planned], ?_⟩
    rw [rangeOf_plannedEntries hsequences hnodup hseq, if_pos hscheduled]
    exact hnew

section Applied

variable {s : Scheduler} {result : StepResult} {seq seq' : Sequence}

omit [HashFunction] in
/-- The token of an accepted result for a running sequence. -/
theorem tokenOf_of_matches
    (hmatches : List.Forall₂ Matches (s.running.filter Sequence.isScheduled) result.sequences)
    (hnodup : (s.running.map (·.seqId)).Nodup) {executed : SequenceStepResult}
    (hexecuted : executed ∈ result.sequences) (hmatch : Matches seq executed) :
    result.tokenOf seq.seqId = executed.sampledToken := by
  have hids : (result.sequences.map (·.sequenceId)).Nodup := by
    rw [map_eq_of_forall₂ hmatches fun _ _ h => h.seqId]
    exact hnodup.sublist (List.filter_sublist.map _)
  have hfind := find?_of_nodup hids hexecuted
  rw [hmatch.seqId] at hfind
  rw [StepResult.tokenOf, hfind]
  rfl

omit [HashFunction] in
/-- An accepted result has no token for a sequence that was not planned. -/
theorem tokenOf_eq_none
    (hmatches : List.Forall₂ Matches (s.running.filter Sequence.isScheduled) result.sequences)
    {id : ℕ} (hid : ∀ seq ∈ s.running, seq.isScheduled = true → seq.seqId ≠ id) :
    result.tokenOf id = none := by
  rw [StepResult.tokenOf, Option.bind_eq_none_iff]
  intro executed hfind
  have hmem := List.mem_of_find?_eq_some hfind
  have hexecuted : executed.sequenceId = id := by simpa using List.find?_some hfind
  obtain ⟨seq, hseq, hmatch⟩ := exists_of_forall₂ hmatches hmem
  obtain ⟨hseq, hscheduled⟩ := List.mem_filter.mp hseq
  exact absurd (hmatch.seqId.symm.trans hexecuted) (hid seq hseq hscheduled)

omit [HashFunction] in
/-- A sequence decodes next exactly when its planned tokens end its history. -/
theorem phase_applied {eosTokenIds : List Token} {token : Option Token} (hok : seq.RunningOk)
    (hwork : seq.WorkOk) (hscheduled : seq.isScheduled = true) :
    (seq.applied eosTokenIds token).phase = if seq.endsHistory then .decode else .prefill := by
  have hle := hwork.le
  have hpos : 0 < seq.numScheduledTokens := of_decide_eq_true hscheduled
  have hprompt := hok.prompt_le
  cases hends : seq.endsHistory with
  | true =>
    have heq : seq.numCachedTokens + seq.numScheduledTokens = seq.numTokens :=
      of_decide_eq_true hends
    have htarget : (seq.applied eosTokenIds token).prefillTargetTokens = seq.numPromptTokens := by
      simp [Sequence.prefillTargetTokens, Sequence.applied, hends]
    rw [Sequence.phase, if_neg]
    · rfl
    · rw [htarget]
      exact not_lt.mpr (hprompt.trans heq.ge)
  | false =>
    have hne : seq.numCachedTokens + seq.numScheduledTokens ≠ seq.numTokens :=
      of_decide_eq_false hends
    have htarget : (seq.applied eosTokenIds token).prefillTargetTokens =
        seq.prefillTargetTokens := by
      simp [Sequence.prefillTargetTokens, Sequence.applied, hends]
    have hprefill : seq.Prefilling := hok.progress.resolve_right fun hd => by
      have hcached := hd.cached
      omega
    rw [Sequence.phase, if_pos]
    · rfl
    · rw [htarget, hprefill.target]
      exact lt_of_le_of_ne hle hne

omit [HashFunction] in
/-- The track of a sequence that goes on after an accepted result. -/
theorem Track.Runs.applied {t : Track} {eosTokenIds : List Token}
    {token : Option Token} (h : t.Runs (seq.numCachedTokens + seq.numScheduledTokens) seq)
    (hok : seq.RunningOk) (hwork : seq.WorkOk) (hscheduled : seq.isScheduled = true)
    (htoken : token.isSome = seq.endsHistory) :
    (t.samples token).Runs (seq.numCachedTokens + seq.numScheduledTokens)
      (seq.applied eosTokenIds token) := by
  obtain ⟨start, ranges, hplanned, hcontiguous⟩ := h.planned
  have hphase : (seq.applied eosTokenIds token).phase = _ := phase_applied hok hwork hscheduled
  refine ⟨⟨?_, h.of.prompt, h.of.params⟩, fun hp => ?_, fun hd => ?_, start, ranges, hplanned,
    hcontiguous⟩
  · have htokens : seq.tokenIds = t.history := h.of.tokenIds
    rw [Track.history_samples, ← htokens]
    rfl
  · -- the target stays ahead, and no token has moved it
    have hends : seq.endsHistory = false := by
      by_contra hends
      simp [hphase, hends] at hp
    have hnone : token = none := by
      rw [hends] at htoken
      exact Option.isNone_iff_eq_none.mp (by simpa using htoken)
    have hne : seq.numCachedTokens + seq.numScheduledTokens ≠ seq.numTokens :=
      of_decide_eq_false hends
    have hpos : 0 < seq.numScheduledTokens := of_decide_eq_true hscheduled
    have hle := hwork.le
    have hprefill : seq.Prefilling := hok.progress.resolve_right fun hd => by
      have hcached := hd.cached
      omega
    rw [hnone]
    exact h.prefill hprefill.phase
  · have hends : seq.endsHistory = true := by
      by_contra hends
      simp [hphase, hends] at hd
    have heq : seq.numCachedTokens + seq.numScheduledTokens = seq.numTokens :=
      of_decide_eq_true hends
    show t.target ≤ seq.numCachedTokens + seq.numScheduledTokens
    rcases hok.progress with hprefill | hdecode
    · rw [h.prefill hprefill.phase, heq]
    · exact (h.decode hdecode.phase).trans (Nat.le_add_right _ _)

end Applied

omit [HashFunction] in
/-- The state agrees with every log that has the same tracks. -/
theorem Tracked.congr {log log' : List Event} {st : EngineState} (T : Tracked log st)
    (h : ∀ id, track id log' = track id log) : Tracked log' st where
  running seq hseq := by
    rw [h]
    exact T.running seq hseq
  waiting w hw := by
    rw [h]
    exact T.waiting w hw
  inFlight plan hplan seq hseq := by
    rw [h]
    exact T.inFlight plan hplan seq hseq

/-- Every step keeps the agreement with the tracks. -/
theorem Effect.tracked {st st' : EngineState} {e : Event} {log : List Event}
    (h : Effect st e st') (I : Inv st.1 st.2) (T : Tracked log st) : Tracked (log ++ [e]) st' := by
  have hselected : ∀ {s : Scheduler} {n : ℕ} {kv₁ kv : BlockPool} {kept admitted : List Sequence},
      Selected st.1 st.2 n kv₁ kept admitted s kv → s.inFlight = st.1.inFlight := fun S => by
    rw [S.config]
  cases h with
  | accepted prompt params =>
    have hlt : ∀ q ∈ st.1.running ++ st.1.waiting, st.1.nextRequestId ≠ q.seqId := fun q hq heq => by
      have hlt := I.core.identified.lt_next q.request (List.mem_map_of_mem hq)
      rw [← I.core.nextRequestId, heq] at hlt
      exact lt_irrefl _ hlt
    have hold : ∀ q ∈ st.1.running ++ st.1.waiting,
        track q.seqId (log ++ [.accepted st.1.nextRequestId prompt params]) =
          track q.seqId log := fun q hq => by
      rw [track_snoc, Event.track, if_neg (hlt q hq)]
    refine ⟨fun seq hseq => ?_, fun w hw => ?_, fun plan hplan seq hseq hscheduled => ?_⟩
    · rw [hold seq (List.mem_append_left _ hseq)]
      exact T.running seq hseq
    · rcases List.mem_append.mp hw with hw | hw
      · rw [hold w (List.mem_append_right _ hw)]
        exact T.waiting w hw
      · obtain rfl := List.mem_singleton.mp hw
        refine ⟨.accepted prompt params, ?_, ⟨?_, rfl, rfl⟩, rfl, rfl⟩
        · rw [track_snoc, Event.track]
          exact if_pos I.core.nextRequestId
        · simp [Track.history, Track.accepted, Sequence.new, Sequence.request]
    · rw [hold seq (List.mem_append_left _ hseq)]
      exact T.inFlight plan hplan seq hseq hscheduled
  | planned hinFlight S hsequences hne hid hslots hlengths =>
    exact (S.decided I.core hinFlight T).planned S.core hsequences _
  | idle hinFlight S | noProgress hinFlight S | unrepresentable hinFlight S =>
    refine (S.decided I.core hinFlight T).tracked ((hselected S).trans hinFlight) fun id t => ?_
    simp [Event.track]
  | @busy plan hinFlight =>
    refine T.congr fun id => ?_
    rw [track_snoc, Event.track]
    rcases track id log with _ | t
    · rfl
    · exact congrArg some (Decision.track_untouched List.not_mem_nil rfl)
  | rejected =>
    refine T.congr fun id => ?_
    rw [track_snoc]
    rfl
  | @applied result all s' kv' haccepts A =>
    obtain ⟨plan, hinFlight, -, hmatches⟩ := haccepts
    have hnodup := (List.nodup_append.mp I.core.nodup_ids).1
    refine ⟨fun seq' hseq' => ?_, fun w hw => ?_, fun plan hplan => ?_⟩
    · rw [A.config] at hseq' ⊢
      obtain ⟨seq, hseq, hstepped⟩ := exists_of_forall₂ A.stepped (List.mem_filter.mp hseq').1
      obtain ⟨t, ht, hruns⟩ := T.running seq hseq
      rw [Scheduler.reach, hinFlight, Option.isSome_some, if_pos rfl] at hruns
      rw [hstepped.seqId, track_snoc, ht]
      refine ⟨t.samples (result.tokenOf seq.seqId), rfl, ?_⟩
      rcases hstepped with ⟨hidle, rfl⟩ | ⟨hscheduled, executed, hexecuted, hmatch, rfl⟩
      · have hzero : seq'.numScheduledTokens = 0 := by simpa [Sequence.isScheduled] using hidle
        rw [tokenOf_eq_none hmatches, Track.samples_none]
        · simpa [Scheduler.reach, hzero] using hruns
        · rintro q hq hscheduled hid
          rw [eq_of_seqId hnodup hseq hq hid, hidle] at hscheduled
          cases hscheduled
      · rw [tokenOf_of_matches hmatches hnodup hexecuted hmatch]
        exact hruns.applied (I.core.running seq hseq) (I.work plan hinFlight seq hseq) hscheduled
          hmatch.token
    · rw [A.config] at hw
      obtain ⟨t, ht, hwaits⟩ := T.waiting w hw
      have hnone : result.tokenOf w.seqId = none := tokenOf_eq_none hmatches fun q hq _ =>
        (List.nodup_append.mp I.core.nodup_ids).2.2 _ (List.mem_map_of_mem hq) _
          (List.mem_map_of_mem hw)
      refine ⟨t, ?_, hwaits⟩
      rw [track_snoc, ht, Event.track, hnone]
      simp
    · rw [A.config] at hplan
      cases hplan
  | aborted => exact ⟨by simp, by simp, by simp⟩

/-- **Reachable states agree with the tracks.** -/
theorem EngineConfig.tracked_of_run {config : EngineConfig} {log : List Event} {st : EngineState}
    (h : Run Step config.initial log st) : Tracked log st :=
  EngineConfig.invariant h (P := Tracked)
    ⟨by simp [EngineConfig.initial, Scheduler.newWithEosTokenIds],
      by simp [EngineConfig.initial, Scheduler.newWithEosTokenIds],
      by simp [EngineConfig.initial, Scheduler.newWithEosTokenIds]⟩
    fun _ _ _ _ hrun T heffect => heffect.tracked (EngineConfig.inv_of_run hrun) T

/-! ### Contiguity -/

/-- The ranges planned since the last admission are contiguous. -/
def Track.IsContiguous (t : Track) : Prop :=
  ∀ start ranges, t.planned = some (start, ranges) → ∃ stop, Contiguous start ranges stop

omit [HashFunction] in
theorem Track.IsContiguous.decided {t : Track} (h : t.IsContiguous) (decision : Decision)
    (id : ℕ) : (decision.track id t).IsContiguous := by
  intro start ranges hplanned
  rcases Decision.planned_track decision id t with hnone | ⟨cached, hcached⟩ | hsame
  · rw [hnone] at hplanned
    cases hplanned
  · rw [hcached] at hplanned
    obtain ⟨rfl, rfl⟩ := Prod.mk.inj (Option.some.inj hplanned)
    exact ⟨_, .nil _⟩
  · exact h start ranges (hsame ▸ hplanned)

/-- A step keeps the planned ranges contiguous. -/
theorem Effect.isContiguous {st st' : EngineState} {e : Event} {log : List Event}
    (h : Effect st e st') (I : Inv st.1 st.2) (T : Tracked log st)
    (hall : ∀ id t, track id log = some t → t.IsContiguous) :
    ∀ id t, track id (log ++ [e]) = some t → t.IsContiguous := by
  intro id t ht
  have hdecided : ∀ decision : Decision,
      (track id log).map (decision.track id) = some t → t.IsContiguous := fun decision ht => by
    obtain ⟨u, hu, rfl⟩ := Option.map_eq_some_iff.mp ht
    exact (hall id u hu).decided decision id
  have T' := h.tracked I T
  rw [track_snoc] at ht
  cases h with
  | accepted prompt params =>
    rw [Event.track] at ht
    split at ht
    · obtain rfl := Option.some.inj ht
      rintro start ranges hplanned
      cases hplanned
    · exact hall id t ht
  | @planned n kv₁ kv' kept admitted s plan hinFlight S hsequences hne hid hslots hlengths =>
    obtain ⟨u, hu, rfl⟩ := Option.map_eq_some_iff.mp ht
    rw [Option.bind_some]
    cases hrange : plan.rangeOf id with
    | none =>
      rw [Track.plans_none]
      exact (hall id u hu).decided _ id
    | some range =>
      -- the range belongs to a running sequence, whose track is contiguous
      obtain ⟨entry, hfind, rfl⟩ := Option.map_eq_some_iff.mp hrange
      have hentry := List.mem_of_find?_eq_some hfind
      have hentryid : entry.sequenceId = id := by simpa using List.find?_some hfind
      rw [hsequences] at hentry
      obtain ⟨seq, hseq, rfl⟩ := List.mem_map.mp hentry
      obtain ⟨v, hv, hruns⟩ := T'.running seq (List.mem_of_mem_filter hseq)
      rw [show seq.seqId = id from hentryid, track_snoc, hu, Event.track_planned, hrange] at hv
      obtain rfl := Option.some.inj hv
      rintro start ranges hplanned
      obtain ⟨start', ranges', hplanned', hcontiguous⟩ := hruns.planned
      rw [hplanned] at hplanned'
      obtain ⟨rfl, rfl⟩ := Prod.mk.inj (Option.some.inj hplanned')
      exact ⟨_, hcontiguous⟩
  | @idle n kv₁ kv' kept admitted s =>
    refine hdecided (decisionOf st.1 n admitted) ?_
    simpa [Event.track] using ht
  | noProgress | unrepresentable | busy => exact hdecided _ ht
  | applied =>
    obtain ⟨u, hu, rfl⟩ := Option.map_eq_some_iff.mp ht
    exact hall id u hu
  | rejected => exact hall id t ht
  | aborted => cases ht

/-- **The planned ranges are contiguous**, for every request and at every point of a run. -/
theorem EngineConfig.contiguous_of_run {config : EngineConfig} {log : List Event}
    {st : EngineState} (h : Run Step config.initial log st) :
    ∀ id t, track id log = some t → t.IsContiguous :=
  EngineConfig.invariant h (P := fun log _ => ∀ id t, track id log = some t → t.IsContiguous)
    (by simp) fun _ _ _ _ hrun hall heffect =>
      heffect.isContiguous (EngineConfig.inv_of_run hrun) (EngineConfig.tracked_of_run hrun) hall

end VllmOxide
