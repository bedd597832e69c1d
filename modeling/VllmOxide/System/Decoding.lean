import VllmOxide.Scheduling.Selection
import VllmOxide.System.Completion

/-!
# Decoding, request by request

Seen from the requests, an accepted result only appends tokens: a sampled request goes on with its
token or is answered, and the other live requests stay as they are. Scheduling is invisible at this
level.

## Main definitions

* `Request.sample`: a request with one more token.
* `Samples`: an accepted result samples a token for a running sequence.

## Main results

* `AppliesTo.requests`, `output_of_stepped`: the live requests and the outputs after an accepted
  result.
* `perm_of_stepped`: every live request is still live or has been answered.
-/

namespace VllmOxide

/-- A request with one more token. -/
def Request.sample (r : Request) (token : Token) : Request :=
  { r with tokenIds := r.tokenIds ++ [token], lastToken := token, numTokens := r.numTokens + 1 }

/-- A result samples a token for a sequence. -/
structure Samples (results : List SequenceStepResult) (seq : Sequence) (token : Token) : Prop where
  scheduled : seq.isScheduled = true
  ends : seq.endsHistory = true
  mem : (⟨seq.requestId, seq.seqId, some token⟩ : SequenceStepResult) ∈ results

/-- A running sequence is sampled, and is then finished or not, or its request stays as it is. -/
theorem Stepped.samples_or {eosTokenIds : List Token} {results : List SequenceStepResult}
    {seq seq' : Sequence} (h : Stepped eosTokenIds results seq seq') (hok : seq.RunningOk) :
    (∃ token, Samples results seq token ∧ seq'.request = seq.request.sample token ∧
      seq'.isFinished = seq.stopsAt eosTokenIds token) ∨
    ((∀ executed ∈ results, Matches seq executed → executed.sampledToken.isSome = true →
        seq.isScheduled = false) ∧ seq'.request = seq.request ∧ seq'.isFinished = false) := by
  have hrunning : seq.isFinished = false := by simp [Sequence.isFinished, hok.status]
  rcases h with ⟨hidle, rfl⟩ | ⟨hscheduled, executed, hexecuted, hmatch, rfl⟩
  · exact .inr ⟨fun _ _ _ _ => hidle, rfl, hrunning⟩
  · cases htoken : executed.sampledToken with
    | none =>
      have hends : seq.endsHistory = false := by
        have h := hmatch.token
        rw [htoken] at h
        exact h.symm
      refine .inr ⟨fun other _ hmatches hsome => ?_, ?_, ?_⟩
      · rw [hmatches.token, hends] at hsome
        cases hsome
      · simp [Sequence.applied, Sequence.request]
      · simpa [Sequence.applied, Sequence.isFinished] using hrunning
    | some token =>
      have hends : seq.endsHistory = true := by
        have h := hmatch.token
        rw [htoken] at h
        exact h.symm
      refine .inl ⟨token, ⟨hscheduled, hends, ?_⟩, rfl, ?_⟩
      · rw [← hmatch.requestId, ← hmatch.seqId, ← htoken]
        exact hexecuted
      · cases hstops : seq.stopsAt eosTokenIds token <;>
          simp [Sequence.applied, Sequence.isFinished, hstops, hok.status]

theorem Samples.matches {results : List SequenceStepResult} {seq : Sequence} {token : Token}
    (h : Samples results seq token) : Matches seq ⟨seq.requestId, seq.seqId, some token⟩ :=
  ⟨rfl, rfl, h.ends.symm⟩

variable [HashFunction]

/-- Planning changes neither the requests nor the EOS ids, and puts the plan in flight. -/
theorem Inv.of_planStep {st st' : EngineState} (I : Inv st.1 st.2) {plan : StepPlan}
    (h : Scheduler.planStep st = .ok (some plan) st') :
    Inv st'.1 st'.2 ∧ st'.1.inFlight = some plan ∧ st'.1.requests.Perm st.1.requests ∧
      st'.1.eosTokenIds = st.1.eosTokenIds := by
  obtain ⟨selection, n, kv₁, kept, admitted, s, -, S, -, -, -, hstate⟩ := I.core.planStep_some h
  refine ⟨((Step.planStep h).effect I).inv I, by rw [hstate], ?_, ?_⟩
  · rw [hstate]
    exact S.requests
  · rw [hstate, S.config]

section AppliesTo

variable {s s' : Scheduler} {kv kv' : BlockPool} {result : StepResult} {all : List Sequence}

/-- **The live requests after an accepted result**: a request was live before and is not sampled,
or it has got a token and goes on. -/
theorem AppliesTo.requests (A : AppliesTo s kv result all s' kv') (C : Core s kv)
    {r' : Request} (hr' : r' ∈ s'.requests) :
    (∃ seq ∈ s.running, ∃ token, Samples result.sequences seq token ∧
      seq.stopsAt s.eosTokenIds token = false ∧ r' = seq.request.sample token) ∨
    (r' ∈ s.requests ∧ ∀ seq ∈ s.running, ∀ token, Samples result.sequences seq token →
      seq.seqId ≠ r'.seqId) := by
  rw [A.config] at hr'
  obtain ⟨seq', hseq', rfl⟩ := List.mem_map.mp hr'
  rcases List.mem_append.mp hseq' with hseq' | hseq'
  · obtain ⟨hseq', hfin⟩ := List.mem_filter.mp hseq'
    obtain ⟨seq, hseq, hstepped⟩ := exists_of_forall₂ A.stepped hseq'
    rcases hstepped.samples_or (C.running seq hseq) with
      ⟨token, hsamples, hrequest, hfinished⟩ | ⟨hnot, hrequest, -⟩
    · refine .inl ⟨seq, hseq, token, hsamples, ?_, hrequest⟩
      rw [← hfinished]
      simpa using hfin
    · refine .inr ⟨hrequest ▸ List.mem_map_of_mem (List.mem_append_left _ hseq),
        fun q hq token hsamples hid => ?_⟩
      obtain rfl : q = seq := eq_of_seqId (List.nodup_append.mp C.nodup_ids).1 hseq hq
        (hid.trans (congrArg Request.seqId hrequest))
      have hidle := hnot _ hsamples.mem hsamples.matches rfl
      rw [hsamples.scheduled] at hidle
      cases hidle
  · refine .inr ⟨List.mem_map_of_mem (List.mem_append_right _ hseq'), fun q hq token _ hid => ?_⟩
    exact (List.nodup_append.mp C.nodup_ids).2.2 _ (List.mem_map_of_mem hq) _
      (List.mem_map_of_mem hseq') hid

omit [HashFunction] in
/-- An output brings the tokens of a request that is sampled and stops there. -/
theorem output_of_stepped {s : Scheduler} {all : List Sequence} {results : List SequenceStepResult}
    (hstepped : List.Forall₂ (Stepped s.eosTokenIds results) s.running all)
    (hok : ∀ seq ∈ s.running, seq.RunningOk) {output : RequestOutput}
    (houtput : output ∈ (all.filter Sequence.isFinished).map Sequence.output) :
    ∃ seq ∈ s.running, ∃ token, Samples results seq token ∧
      seq.stopsAt s.eosTokenIds token = true ∧
      output = ⟨seq.requestId, seq.completionTokenIds ++ [token], "", true⟩ := by
  obtain ⟨seq', hseq', rfl⟩ := List.mem_map.mp houtput
  obtain ⟨hseq', hfin⟩ := List.mem_filter.mp hseq'
  obtain ⟨seq, hseq, hstep⟩ := exists_of_forall₂ hstepped hseq'
  rcases hstep.samples_or (hok seq hseq) with
    ⟨token, hsamples, hrequest, hfinished⟩ | ⟨-, -, hnot⟩
  · refine ⟨seq, hseq, token, hsamples, hfinished ▸ hfin, ?_⟩
    have hle : seq.numPromptTokens ≤ seq.tokenIds.length :=
      (hok seq hseq).numTokens ▸ (hok seq hseq).prompt_le
    have htokens : seq'.completionTokenIds = seq.completionTokenIds ++ [token] := by
      have hids := congrArg Request.tokenIds hrequest
      have hprompt := congrArg Request.numPromptTokens hrequest
      rw [Sequence.completionTokenIds, Sequence.completionTokenIds,
        ← List.drop_append_of_le_length hle]
      exact congrArg₂ List.drop hprompt hids
    rw [Sequence.output, htokens, hstep.requestId]
  · rw [hnot] at hfin
    cases hfin

omit [HashFunction] in
/-- **Every live request is still live or has been answered.** -/
theorem perm_of_stepped {s : Scheduler} {all waiting : List Sequence}
    {results : List SequenceStepResult}
    (hstepped : List.Forall₂ (Stepped s.eosTokenIds results) s.running all) :
    (((all.filter Sequence.isFinished).map Sequence.output).map (·.requestId) ++
      (((all.filter fun seq => !seq.isFinished) ++ waiting).map Sequence.request).map
        (·.requestId)).Perm (((s.running ++ waiting).map Sequence.request).map (·.requestId)) := by
  have hids : all.map (·.requestId) = s.running.map (·.requestId) :=
    map_eq_of_forall₂ hstepped fun _ _ h => h.requestId
  have hsplit : ((all.filter Sequence.isFinished).map (·.requestId) ++
      (all.filter fun seq => !seq.isFinished).map (·.requestId)).Perm
      (s.running.map (·.requestId)) := by
    rw [← hids, ← List.map_append]
    exact (List.filter_append_perm _ _).map _
  simp only [List.map_map, List.map_append]
  rw [← List.append_assoc]
  exact hsplit.append_right _

end AppliesTo

end VllmOxide
