import Mathlib.Data.List.Basic

/-!
# Outcomes of fallible computations

`Gives P x Q` says what is known about a fallible computation: under `P` it succeeds, and whatever
it returns satisfies `Q`. The two halves are kept together so that a chain of computations, in
which some steps can be refused, is described by one chain of rules.

## Main results

* `Gives.bind`, `Gives.bindEq`, `Gives.mapM`: the rules for sequences of computations.
* `Gives.ite_error`: the rule for a check.
-/

namespace VllmOxide

/-- A sequence of two steps succeeds when both do. -/
theorem exists_of_bind_ok {α β ε : Type} {x : Except ε α} {f : α → Except ε β} {y : β}
    (h : x >>= f = .ok y) : ∃ a, x = .ok a ∧ f a = .ok y := by
  cases x with
  | error error => cases h
  | ok a => exact ⟨a, rfl, h⟩

theorem exists_of_map_ok {α β ε : Type} {x : Except ε α} {f : α → β} {y : β}
    (h : x.map f = .ok y) : ∃ a, x = .ok a ∧ f a = y := by
  cases x with
  | error error => cases h
  | ok a => exact ⟨a, rfl, Except.ok.inj h⟩

theorem exists_of_isOk {α ε : Type} {x : Except ε α} (h : x.isOk = true) : ∃ a, x = .ok a := by
  cases x with
  | error error => cases h
  | ok a => exact ⟨a, rfl⟩

theorem exists_of_run'_isSome {α ε σ : Type} {x : EStateM ε σ α} {s : σ}
    (h : (x.run' s).isSome = true) : ∃ a s', x s = .ok a s' := by
  cases hx : x s with
  | ok a s' => exact ⟨a, s', rfl⟩
  | error error s' =>
    have hnone : x.run' s = none :=
      congrArg (fun result => EStateM.run' (fun _ : σ => result) s) hx
    rw [hnone] at h
    cases h

/-- A loop succeeds when it succeeds on every member. -/
theorem exists_mapM_ok {α β ε : Type} {f : α → Except ε β} {xs : List α}
    (h : ∀ x ∈ xs, ∃ y, f x = .ok y) : ∃ ys, xs.mapM f = .ok ys := by
  induction xs with
  | nil => exact ⟨[], rfl⟩
  | cons x xs ih =>
    obtain ⟨y, hy⟩ := h x List.mem_cons_self
    obtain ⟨ys, hys⟩ := ih fun x' hx' => h x' (List.mem_cons_of_mem _ hx')
    exact ⟨y :: ys, by rw [List.mapM_cons, hy, hys]; rfl⟩

/-- A loop that succeeds lists the values. -/
theorem forall₂_of_mapM_ok {α β ε : Type} {f : α → Except ε β} {xs : List α} :
    ∀ {ys : List β}, xs.mapM f = .ok ys → List.Forall₂ (fun x y => f x = .ok y) xs ys := by
  induction xs with
  | nil =>
    intro ys h
    obtain rfl : [] = ys := Except.ok.inj h
    exact .nil
  | cons x xs ih =>
    intro ys h
    rw [List.mapM_cons] at h
    obtain ⟨y, hy, h⟩ := exists_of_bind_ok h
    obtain ⟨ys', hys, h⟩ := exists_of_bind_ok h
    obtain rfl := Except.ok.inj h
    exact .cons hy (ih hys)

/-- A loop fails when it fails on some member. -/
theorem exists_mapM_error_iff {α β ε : Type} {f : α → Except ε β} {xs : List α} :
    (∃ error, xs.mapM f = .error error) ↔ ∃ x ∈ xs, ∃ error, f x = .error error := by
  constructor
  · rintro ⟨error, herror⟩
    by_contra hnone
    push Not at hnone
    have hok : ∀ x ∈ xs, ∃ y, f x = .ok y := by
      intro x hx
      cases hfx : f x with
      | ok y => exact ⟨y, rfl⟩
      | error error => exact absurd hfx (hnone x hx error)
    obtain ⟨ys, hys⟩ := exists_mapM_ok hok
    rw [herror] at hys
    cases hys
  · rintro ⟨x, hx, error, herror⟩
    induction xs with
    | nil => cases hx
    | cons first xs ih =>
      rw [List.mapM_cons]
      cases hfirst : f first with
      | error error => exact ⟨error, rfl⟩
      | ok y =>
        rcases List.mem_cons.mp hx with rfl | hx
        · rw [hfirst] at herror
          cases herror
        · obtain ⟨error, hrest⟩ := ih hx
          exact ⟨error, by rw [hrest]; rfl⟩

/-- A loop collects the values of its steps. -/
theorem mapM_eq_ok {α β ε : Type} {f : α → Except ε β} {F : α → β} {xs : List α}
    (h : ∀ x ∈ xs, f x = .ok (F x)) : xs.mapM f = .ok (xs.map F) := by
  induction xs with
  | nil => rfl
  | cons x xs ih =>
    rw [List.mapM_cons, h x List.mem_cons_self, ih fun x' hx' => h x' (List.mem_cons_of_mem _ hx')]
    rfl

/-- A loop over the first numbers collects a list. -/
theorem mapM_range_eq_ok {α ε : Type} {f : ℕ → Except ε α} (ys : List α)
    (h : ∀ i (hi : i < ys.length), f i = .ok ys[i]) : (List.range ys.length).mapM f = .ok ys := by
  cases ys with
  | nil => rfl
  | cons y rest =>
    have hmap : (List.range (y :: rest).length).map (fun i => (y :: rest).getD i y) = y :: rest :=
      List.ext_getElem (by simp) fun i _ hi => by
        simp [List.getD_eq_getElem?_getD, List.getElem?_eq_getElem hi]
    have hcollect : (List.range (y :: rest).length).mapM f =
        .ok ((List.range (y :: rest).length).map fun i => (y :: rest).getD i y) :=
      mapM_eq_ok fun i hi => by
        have hi' := List.mem_range.mp hi
        rw [h i hi', List.getD_eq_getElem?_getD, List.getElem?_eq_getElem hi', Option.getD_some]
    rwa [hmap] at hcollect

/-- A loop of checks is passed when every one of them is. -/
theorem forM_eq_ok_iff {α ε : Type} {f : α → Except ε Unit} {xs : List α} :
    xs.forM f = .ok () ↔ ∀ x ∈ xs, f x = .ok () := by
  induction xs with
  | nil => exact iff_of_true rfl nofun
  | cons x xs ih =>
    change (f x >>= fun _ => xs.forM f) = .ok () ↔ _
    rw [List.forall_mem_cons, ← ih]
    constructor
    · intro h
      obtain ⟨u, hx, hrest⟩ := exists_of_bind_ok h
      exact ⟨hx, hrest⟩
    · rintro ⟨hx, hrest⟩
      rw [hx]
      exact hrest

/-- A loop of checks that can only fail in one way fails when one of them does. -/
theorem forM_eq_error_iff {α ε : Type} {f : α → Except ε Unit} {e : ε} {xs : List α}
    (h : ∀ x ∈ xs, f x = .ok () ∨ f x = .error e) :
    xs.forM f = .error e ↔ ∃ x ∈ xs, f x = .error e := by
  induction xs with
  | nil => exact iff_of_false nofun nofun
  | cons x xs ih =>
    change (f x >>= fun _ => xs.forM f) = .error e ↔ _
    rw [List.exists_mem_cons_iff, ← ih fun y hy => h y (List.mem_cons_of_mem _ hy)]
    rcases h x List.mem_cons_self with hx | hx
    · rw [hx]
      exact (or_iff_right nofun).symm
    · rw [hx]
      exact iff_of_true rfl (.inl rfl)

theorem next_of_bind {α ε : Type} {x : Except ε Unit} {next : Unit → Except ε α} {a : α}
    (h : (x >>= next) = .ok a) : x = .ok () ∧ next () = .ok a := by
  cases x with
  | error e => cases h
  | ok u => exact ⟨rfl, h⟩

theorem of_mapError_ok {α ε ε' : Type} {x : Except ε α} {f : ε → ε'} {a : α}
    (h : x.mapError f = .ok a) : x = .ok a := by
  cases x with
  | error e => cases h
  | ok b => exact congrArg _ (Except.ok.inj h)

/-- A check: it fails with a message when the condition holds. -/
def bailIf (c : Prop) [Decidable c] (message : String) : Except String Unit :=
  if c then .error message else .ok ()

/-- A check that is passed. -/
theorem bailIf_of_not {c : Prop} [Decidable c] {message : String} (h : ¬ c) :
    bailIf c message = .ok () :=
  if_neg h

theorem not_of_bailIf_ok {c : Prop} [Decidable c] {message : String} {u : Unit}
    (h : bailIf c message = .ok u) : ¬ c := by
  intro hc
  rw [bailIf, if_pos hc] at h
  cases h

theorem bailIf_of {c : Prop} [Decidable c] {message : String} (h : c) :
    bailIf c message = .error message :=
  if_pos h

/-- A computation after a check. -/
theorem bailIf_bind_eq_ok_iff {α : Type} {c : Prop} [Decidable c] {message : String}
    {next : Unit → Except String α} {a : α} :
    (bailIf c message >>= next) = .ok a ↔ ¬ c ∧ next () = .ok a := by
  by_cases hc : c
  · rw [bailIf_of hc]
    exact iff_of_false nofun fun h => h.1 hc
  · rw [bailIf_of_not hc]
    exact ⟨fun h => ⟨hc, h⟩, fun h => h.2⟩

theorem bailIf_eq_error_iff {c : Prop} [Decidable c] {message e : String} :
    bailIf c message = .error e ↔ c ∧ message = e := by
  constructor
  · intro h
    by_cases hc : c
    · rw [bailIf_of hc] at h
      exact ⟨hc, Except.error.inj h⟩
    · rw [bailIf_of_not hc] at h
      cases h
  · rintro ⟨hc, rfl⟩
    exact bailIf_of hc

theorem bind_eq_ok_iff {α β ε : Type} {x : Except ε α} {f : α → Except ε β} {y : β} :
    x >>= f = .ok y ↔ ∃ a, x = .ok a ∧ f a = .ok y := by
  refine ⟨exists_of_bind_ok, ?_⟩
  rintro ⟨a, rfl, h⟩
  exact h

theorem bind_eq_error_iff {α β ε : Type} {x : Except ε α} {f : α → Except ε β} {e : ε} :
    x >>= f = .error e ↔ x = .error e ∨ ∃ a, x = .ok a ∧ f a = .error e := by
  cases x with
  | error e' =>
    refine ⟨fun h => .inl (congrArg Except.error (Except.error.inj h)), ?_⟩
    rintro (h | ⟨a, h, -⟩)
    · exact congrArg Except.error (Except.error.inj h)
    · cases h
  | ok a =>
    refine ⟨fun h => .inr ⟨a, rfl, h⟩, ?_⟩
    rintro (h | ⟨b, h, hf⟩)
    · cases h
    · cases h
      exact hf

/-- Under `P` the computation succeeds, and whatever it returns satisfies `Q`. -/
structure Gives {ε α : Type} (P : Prop) (x : Except ε α) (Q : α → Prop) : Prop where
  succeeds : P → ∃ a, x = .ok a
  returns : ∀ a, x = .ok a → Q a

namespace Gives

variable {ε α β : Type} {P : Prop} {x : Except ε α} {Q Q' : α → Prop}

theorem ok {a : α} (h : Q a) : Gives P (.ok a : Except ε α) Q where
  succeeds _ := ⟨a, rfl⟩
  returns b hb := by
    cases hb
    exact h

theorem of_eq_ok {a : α} (hx : x = .ok a) (h : Q a) : Gives P x Q := by
  subst hx
  exact ok h

theorem imp (h : Gives P x Q) (hQ : ∀ a, Q a → Q' a) : Gives P x Q' where
  succeeds := h.succeeds
  returns a ha := hQ a (h.returns a ha)

/-- A computation that is refused gives anything, if it may be refused. -/
theorem error {e : ε} (h : ¬ P) : Gives P (.error e : Except ε α) Q where
  succeeds hP := absurd hP h
  returns _ ha := nomatch ha

/-- A branch that is refused, if it may be refused. -/
theorem ite_error {c : Prop} [Decidable c] {e : ε} (hc : P → ¬ c) (h : ¬ c → Gives P x Q) :
    Gives P (if c then .error e else x) Q := by
  split
  · rename_i hbad
    exact error fun hP => hc hP hbad
  · rename_i hgood
    exact h hgood

/-- A check that holds under `P`. -/
theorem bailIf {c : Prop} [Decidable c] {message : String} (hc : P → ¬ c) :
    Gives P (VllmOxide.bailIf c message) fun _ => ¬ c :=
  ite_error hc fun h => ok h

theorem bind {f : α → Except ε β} {S : β → Prop} (hx : Gives P x Q)
    (hf : ∀ a, Q a → Gives P (f a) S) : Gives P (x >>= f) S := by
  cases x with
  | error e =>
    refine error fun hP => ?_
    obtain ⟨a, ha⟩ := hx.succeeds hP
    cases ha
  | ok a => exact hf a (hx.returns a rfl)

/-- The rule for a computation whose value is known. -/
theorem bindEq {f : α → Except ε β} {S : β → Prop} {v : α} (hx : Gives P x (· = v))
    (hf : Gives P (f v) S) : Gives P (x >>= f) S :=
  hx.bind fun _ ha => ha ▸ hf

/-- The rule for a loop that collects values. -/
theorem mapM {xs : List α} {f : α → Except ε β} {F : α → β}
    (h : ∀ a ∈ xs, Gives P (f a) (· = F a)) : Gives P (xs.mapM f) (· = xs.map F) := by
  induction xs with
  | nil => exact of_eq_ok List.mapM_nil rfl
  | cons a xs ih =>
    rw [List.mapM_cons, List.map_cons]
    exact (h a List.mem_cons_self).bindEq
      ((ih fun b hb => h b (List.mem_cons_of_mem a hb)).bindEq (ok rfl))

end Gives

end VllmOxide
