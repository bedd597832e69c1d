import VllmOxide.Engine.Step
import VllmOxide.Library.Lists

/-!
# Outputs in input order

`LLM::generate` collects the outputs in the order in which the requests finish, and returns them in
the order in which the requests were accepted. With one output for each request this succeeds.

## Main definitions

* `orderRequestOutputs`: put the outputs at the input positions of their requests.

## Main results

* `orderRequestOutputs_ok`: outputs for the requests, one each, are returned in input order.
-/

namespace VllmOxide

/-- The input positions of the request ids, which must be distinct. -/
def inputPositions : (position : ℕ) → List ℕ → (ℕ → Option ℕ) → Except String (ℕ → Option ℕ)
  | _, [], positions => .ok positions
  | position, requestId :: rest, positions =>
    if (positions requestId).isSome then
      .error s!"generate: request {requestId} was accepted more than once"
    else inputPositions (position + 1) rest (Function.update positions requestId (some position))

/-- Put each output at the input position of its request. -/
def placeOutputs (requestIds : List ℕ) (positions : ℕ → Option ℕ) :
    List RequestOutput → List (Option RequestOutput) → Except String (List (Option RequestOutput))
  | [], ordered => .ok ordered
  | output :: rest, ordered =>
    match positions output.requestId with
    | none => .error s!"generate: completed unknown request {output.requestId}"
    | some position =>
      if (ordered.getD position none).isSome then
        .error s!"generate: request {requestIds.getD position 0} completed more than once"
      else placeOutputs requestIds positions rest (ordered.set position (some output))

/-- Take the outputs out of their positions. -/
def collectOutputs (requestIds : List ℕ) :
    (position : ℕ) → List (Option RequestOutput) → Except String (List RequestOutput)
  | _, [] => .ok []
  | position, none :: _ =>
    .error s!"generate: request {requestIds.getD position 0} at input position {position} did not complete"
  | position, some output :: rest => (collectOutputs requestIds (position + 1) rest).map (output :: ·)

/-- `order_request_outputs`. -/
def orderRequestOutputs (requestIds : List ℕ) (completedOutputs : List RequestOutput) :
    Except String (List RequestOutput) :=
  match inputPositions 0 requestIds fun _ => none with
  | .error error => .error error
  | .ok positions =>
    match placeOutputs requestIds positions completedOutputs
        (List.replicate requestIds.length none) with
    | .error error => .error error
    | .ok ordered => collectOutputs requestIds 0 ordered

/-! ### Success -/

/-- Distinct ids have input positions. -/
theorem inputPositions_ok {requestIds : List ℕ} (hnodup : requestIds.Nodup) :
    ∀ (position : ℕ) (positions : ℕ → Option ℕ), (∀ id ∈ requestIds, positions id = none) →
      ∃ positions', inputPositions position requestIds positions = .ok positions' ∧
        (∀ (i : ℕ) id, requestIds[i]? = some id → positions' id = some (position + i)) ∧
        ∀ id ∉ requestIds, positions' id = positions id := by
  induction requestIds with
  | nil => exact fun _ positions _ => ⟨positions, rfl, by simp, fun _ _ => rfl⟩
  | cons first rest ih =>
    intro position positions hnone
    obtain ⟨hfirst, hrest⟩ := List.nodup_cons.mp hnodup
    obtain ⟨positions', hrun, hat, hother⟩ := ih hrest (position + 1)
      (Function.update positions first (some position)) fun id hid => by
        have hne : id ≠ first := fun heq => hfirst (heq ▸ hid)
        rw [Function.update_of_ne hne]
        exact hnone id (List.mem_cons_of_mem _ hid)
    refine ⟨positions', ?_, fun i id hi => ?_, fun id hid => ?_⟩
    · rw [inputPositions, if_neg (by simp [hnone first List.mem_cons_self]), hrun]
    · cases i with
      | zero =>
        obtain rfl : first = id := by simpa using hi
        rw [hother first hfirst, Function.update_self]
        rfl
      | succ i =>
        rw [hat i id (by simpa using hi)]
        congr 1
        omega
    · rw [List.mem_cons, not_or] at hid
      rw [hother id hid.2, Function.update_of_ne hid.1]

/-- The positions after some outputs have been placed. -/
def placed (requestIds : List ℕ) (outputs : List RequestOutput) : List (Option RequestOutput) :=
  requestIds.map fun id => outputs.find? fun output => decide (output.requestId = id)

/-- Placing an output for a request that has none. -/
theorem set_placed {requestIds : List ℕ} (hnodup : requestIds.Nodup)
    {outputs : List RequestOutput} {output : RequestOutput} {i : ℕ}
    (hi : requestIds[i]? = some output.requestId)
    (hnew : output.requestId ∉ outputs.map (·.requestId)) :
    (placed requestIds outputs).set i (some output) = placed requestIds (outputs ++ [output]) := by
  obtain ⟨hlt, heq⟩ := List.getElem?_eq_some_iff.mp hi
  refine List.ext_getElem (by simp [placed]) fun j hj hj' => ?_
  have hj'' : j < requestIds.length := by simpa [placed] using hj
  rw [List.getElem_set]
  simp only [placed, List.getElem_map, List.find?_append]
  split
  · rename_i hij
    subst hij
    have hnone : outputs.find? (fun o => decide (o.requestId = requestIds[i])) = none := by
      rw [List.find?_eq_none]
      rintro o ho hid
      exact hnew (List.mem_map.mpr ⟨o, ho, (of_decide_eq_true hid).trans heq⟩)
    rw [hnone]
    simp [heq]
  · rename_i hij
    have hne : output.requestId ≠ requestIds[j] := fun hsame =>
      hij ((List.Nodup.getElem_inj_iff hnodup).mp (heq.trans hsame))
    simp [hne]

/-- Outputs for distinct known requests are placed. -/
theorem placeOutputs_ok {requestIds : List ℕ} (hnodup : requestIds.Nodup)
    {positions : ℕ → Option ℕ}
    (hpositions : ∀ (i : ℕ) id, requestIds[i]? = some id → positions id = some i)
    (rest : List RequestOutput) :
    ∀ done : List RequestOutput, ((done ++ rest).map (·.requestId)).Nodup →
      (∀ output ∈ rest, output.requestId ∈ requestIds) →
      placeOutputs requestIds positions rest (placed requestIds done) =
        .ok (placed requestIds (done ++ rest)) := by
  induction rest with
  | nil => intro done _ _; rw [List.append_nil, placeOutputs]
  | cons output rest ih =>
    intro done hids hknown
    obtain ⟨i, hi⟩ := List.mem_iff_getElem?.mp (hknown output List.mem_cons_self)
    have hnew : output.requestId ∉ done.map (·.requestId) := by
      rw [List.map_append, List.map_cons, List.nodup_append] at hids
      exact fun hmem => hids.2.2 _ hmem _ List.mem_cons_self rfl
    have hempty : (placed requestIds done).getD i none = none := by
      rw [List.getD_eq_getElem?_getD, placed, List.getElem?_map, hi, Option.map_some,
        Option.getD_some, List.find?_eq_none]
      rintro o ho hid
      exact hnew (List.mem_map.mpr ⟨o, ho, of_decide_eq_true hid⟩)
    rw [placeOutputs, hpositions i _ hi]
    simp only [hempty, Option.isSome_none, Bool.false_eq_true, if_false]
    rw [set_placed hnodup hi hnew, ih (done ++ [output]) (by simpa using hids)
      fun o ho => hknown o (List.mem_cons_of_mem _ ho)]
    simp

/-- Filled positions are taken out. -/
theorem collectOutputs_ok (requestIds : List ℕ) {outputs : List RequestOutput} :
    ∀ position, collectOutputs requestIds position (outputs.map some) = .ok outputs := by
  induction outputs with
  | nil => exact fun _ => rfl
  | cons output rest ih =>
    intro position
    rw [List.map_cons, collectOutputs, ih]
    rfl

/-- When every request has an output, the outputs stand at the positions of their requests. -/
theorem exists_placed {outputs : List RequestOutput} {requestIds : List ℕ}
    (h : ∀ id ∈ requestIds, id ∈ outputs.map (·.requestId)) :
    ∃ ordered : List RequestOutput, placed requestIds outputs = ordered.map some ∧
      ordered.map (·.requestId) = requestIds ∧ ∀ output ∈ ordered, output ∈ outputs := by
  induction requestIds with
  | nil => exact ⟨[], rfl, rfl, by simp⟩
  | cons id rest ih =>
    obtain ⟨ordered, hplaced, hids, hmem⟩ := ih fun id hid => h id (List.mem_cons_of_mem _ hid)
    obtain ⟨o, ho, hid⟩ := List.mem_map.mp (h id List.mem_cons_self)
    have hsome : (outputs.find? fun output => decide (output.requestId = id)).isSome = true :=
      List.find?_isSome.mpr ⟨o, ho, decide_eq_true hid⟩
    obtain ⟨output, hfind⟩ := Option.isSome_iff_exists.mp hsome
    have hfound : output.requestId = id := by simpa using List.find?_some hfind
    refine ⟨output :: ordered, ?_, ?_, ?_⟩
    · rw [List.map_cons, ← hplaced, ← hfind]
      rfl
    · rw [List.map_cons, hids, hfound]
    · rintro q (_ | ⟨_, hq⟩)
      · exact List.mem_of_find?_eq_some hfind
      · exact hmem q hq

/-- **Input order.** One output for each of the distinct requests: they are returned in input
order. -/
theorem orderRequestOutputs_ok {requestIds : List ℕ} {completedOutputs : List RequestOutput}
    (hnodup : requestIds.Nodup)
    (hperm : (completedOutputs.map (·.requestId)).Perm requestIds) :
    ∃ ordered, orderRequestOutputs requestIds completedOutputs = .ok ordered ∧
      ordered.map (·.requestId) = requestIds ∧ ordered.Perm completedOutputs := by
  have hids : (completedOutputs.map (·.requestId)).Nodup := hperm.nodup_iff.mpr hnodup
  obtain ⟨positions, hpositions, hat, -⟩ := inputPositions_ok hnodup 0 (fun _ => none) fun _ _ => rfl
  have hplace := placeOutputs_ok hnodup (fun i id hi => by simpa using hat i id hi)
    completedOutputs [] hids fun output ho => hperm.mem_iff.mp (List.mem_map_of_mem ho)
  have hstart : placed requestIds [] = List.replicate requestIds.length none := by
    simp [placed]
  rw [hstart, List.nil_append] at hplace
  obtain ⟨ordered, hplaced, hordered, hmem⟩ := exists_placed fun id hid =>
    hperm.mem_iff.mpr hid
  refine ⟨ordered, ?_, hordered, ?_⟩
  · simp only [orderRequestOutputs, hpositions, hplace]
    rw [hplaced, collectOutputs_ok]
  · have hnodup' : ordered.Nodup := List.Nodup.of_map (·.requestId) (hordered.symm ▸ hnodup)
    refine (List.subperm_of_subset hnodup' hmem).perm_of_length_le ?_
    have hlength := congrArg List.length hordered
    have hlength' := hperm.length_eq
    rw [List.length_map] at hlength hlength'
    omega

end VllmOxide
