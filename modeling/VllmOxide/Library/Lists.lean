import Mathlib.Data.List.Basic
import Mathlib.Data.List.Dedup
import Mathlib.Data.List.Forall2
import Mathlib.Data.List.Perm.Basic

/-!
# Facts about lists

Lists that are related member by member, members that are related to what stands before them, the
members that two lists without repetitions share, lists whose members have distinct keys, and
prefixes of filtered lists.
-/

namespace VllmOxide

section Related

variable {α β γ : Type} {R : α → β → Prop} {xs : List α} {ys : List β}

/-- A function that a relation preserves has equal images on related lists. -/
theorem map_eq_of_forall₂ {f : α → γ} {g : β → γ} (h : List.Forall₂ R xs ys)
    (hfg : ∀ x y, R x y → g y = f x) : ys.map g = xs.map f := by
  induction h with
  | nil => rfl
  | cons hxy _ ih => rw [List.map_cons, List.map_cons, hfg _ _ hxy, ih]

/-- Each member of the second list is related to a member of the first. -/
theorem exists_of_forall₂ (h : List.Forall₂ R xs ys) {y : β} (hy : y ∈ ys) :
    ∃ x ∈ xs, R x y := by
  induction h with
  | nil => cases hy
  | cons hxy _ ih =>
    rcases List.mem_cons.mp hy with rfl | hy
    · exact ⟨_, List.mem_cons_self, hxy⟩
    · obtain ⟨x, hx, hR⟩ := ih hy
      exact ⟨x, List.mem_cons_of_mem _ hx, hR⟩

/-- A relation between lists may be weakened knowing the first member. -/
theorem getElem?_of_forall₂ (h : List.Forall₂ R xs ys) {i : ℕ} {y : β} (hy : ys[i]? = some y) :
    ∃ x, xs[i]? = some x ∧ R x y := by
  induction h generalizing i with
  | nil => simp at hy
  | @cons x y' xs ys hxy _ ih =>
    cases i with
    | zero =>
      obtain rfl : y' = y := by simpa using hy
      exact ⟨x, rfl, hxy⟩
    | succ i => exact ih (by simpa using hy)

theorem forall₂_imp_mem {S : α → β → Prop} (h : List.Forall₂ R xs ys)
    (hS : ∀ x ∈ xs, ∀ y, R x y → S x y) : List.Forall₂ S xs ys := by
  induction h with
  | nil => exact .nil
  | @cons x y xs ys hxy _ ih =>
    exact .cons (hS x List.mem_cons_self y hxy) (ih fun x' hx' => hS x' (List.mem_cons_of_mem _ hx'))

/-- Two relations compose along lists. -/
theorem forall₂_trans {S : β → γ → Prop} {T : α → γ → Prop} {zs : List γ}
    (h : List.Forall₂ R xs ys) (h' : List.Forall₂ S ys zs)
    (hT : ∀ x ∈ xs, ∀ y z, R x y → S y z → T x z) : List.Forall₂ T xs zs := by
  induction h generalizing zs with
  | nil =>
    cases h'
    exact .nil
  | @cons x y xs ys hxy _ ih =>
    cases h' with
    | cons hyz hrest =>
      exact .cons (hT x List.mem_cons_self _ _ hxy hyz)
        (ih hrest fun x' hx' => hT x' (List.mem_cons_of_mem _ hx'))

/-- Related lists split where the first one does. -/
theorem exists_append_of_forall₂ {xs' : List α} (h : List.Forall₂ R (xs ++ xs') ys) :
    ∃ zs zs', ys = zs ++ zs' ∧ List.Forall₂ R xs zs ∧ List.Forall₂ R xs' zs' := by
  induction xs generalizing ys with
  | nil => exact ⟨[], ys, rfl, .nil, h⟩
  | cons x xs ih =>
    cases h with
    | @cons _ y _ ys hxy hrest =>
      obtain ⟨zs, zs', rfl, h, h'⟩ := ih hrest
      exact ⟨y :: zs, zs', rfl, .cons hxy h, h'⟩

/-- Related lists are equal when their related members are. -/
theorem eq_of_forall₂ {R : α → α → Prop} {xs ys : List α} (h : List.Forall₂ R xs ys)
    (heq : ∀ x ∈ xs, ∀ y, R x y → y = x) : ys = xs := by
  induction h with
  | nil => rfl
  | @cons x y xs ys hxy _ ih =>
    rw [heq x List.mem_cons_self y hxy, ih fun x' hx' => heq x' (List.mem_cons_of_mem _ hx')]

end Related

/-- Counting members at places: what satisfies `p` in `xs` faces something that satisfies `q` in
`ys`. -/
theorem length_filter_le_of_getElem? {α β : Type} {p : α → Bool} {q : β → Bool} {xs : List α} :
    ∀ {ys : List β}, (∀ (j : ℕ) (a : α), xs[j]? = some a → p a = true →
        ∃ b, ys[j]? = some b ∧ q b = true) →
      (xs.filter p).length ≤ (ys.filter q).length := by
  induction xs with
  | nil => intro ys _; exact Nat.zero_le _
  | cons x xs ih =>
    intro ys h
    have hrest : (xs.filter p).length ≤ (ys.tail.filter q).length := by
      refine ih fun j a ha hp => ?_
      obtain ⟨b, hb, hq⟩ := h (j + 1) a (by simpa using ha) hp
      exact ⟨b, by rw [List.getElem?_tail]; exact hb, hq⟩
    have htail : (ys.tail.filter q).length ≤ (ys.filter q).length :=
      ((List.tail_sublist ys).filter q).length_le
    cases hp : p x with
    | false =>
      rw [List.filter_cons_of_neg (by simp [hp])]
      exact Nat.le_trans hrest htail
    | true =>
      obtain ⟨y, hy, hq⟩ := h 0 x rfl hp
      cases ys with
      | nil => simp at hy
      | cons z zs =>
        obtain rfl : z = y := by simpa using hy
        rw [List.filter_cons_of_pos hp, List.filter_cons_of_pos hq, List.length_cons,
          List.length_cons]
        exact Nat.succ_le_succ hrest

/-! ### Members that follow others -/

/-- Every member is related to the list of the members before it. -/
def EachAfter {α : Type} (R : List α → α → Prop) (xs : List α) : Prop :=
  ∀ older x younger, xs = older ++ x :: younger → R older x

namespace EachAfter

variable {α : Type} {R S : List α → α → Prop} {xs : List α} {x : α}

theorem nil : EachAfter R [] := by
  intro older x younger h
  simp at h

theorem snoc (h : EachAfter R xs) (hx : R xs x) : EachAfter R (xs ++ [x]) := by
  intro older y younger heq
  rcases List.eq_nil_or_concat younger with rfl | ⟨init, last, rfl⟩
  · obtain ⟨rfl, hlast⟩ := List.append_inj' heq rfl
    obtain rfl := List.singleton_inj.mp hlast
    exact hx
  · rw [List.concat_eq_append, ← List.cons_append, ← List.append_assoc] at heq
    obtain ⟨heq, -⟩ := List.append_inj' heq rfl
    exact h older y init heq

theorem imp (h : EachAfter R xs) (hRS : ∀ older x, R older x → S older x) : EachAfter S xs :=
  fun older x younger heq => hRS older x (h older x younger heq)

theorem init (h : EachAfter R (xs ++ [x])) : EachAfter R xs :=
  fun older y younger heq => h older y (younger ++ [x]) (by simp [heq])

theorem last (h : EachAfter R (xs ++ [x])) : R xs x :=
  h xs x [] rfl

end EachAfter

variable {α : Type} [DecidableEq α]

/-- Two lists without repetitions share as many members counted in either. -/
theorem length_filter_mem_comm {xs ys : List α} (hx : xs.Nodup) (hy : ys.Nodup) :
    (xs.filter (· ∈ ys)).length = (ys.filter (· ∈ xs)).length := by
  refine List.Perm.length_eq ((List.perm_ext_iff_of_nodup (hx.filter _) (hy.filter _)).mpr
    fun a => ?_)
  simp [and_comm]

/-- Removing the members of `ys` from `xs` removes as many as `ys` has in `xs`. -/
theorem length_filter_notMem_add {xs ys : List α} (hx : xs.Nodup) (hy : ys.Nodup) :
    (xs.filter (· ∉ ys)).length + (ys.filter (· ∈ xs)).length = xs.length := by
  rw [← length_filter_mem_comm hx hy, Nat.add_comm]
  have h := List.length_eq_length_filter_add (l := xs) fun a => decide (a ∈ ys)
  simpa using h.symm

/-! ### Lists with distinct keys -/

/-- A list that has as many members without repetitions has no repetition. -/
theorem nodup_of_length_dedup {α : Type} [DecidableEq α] {xs : List α}
    (h : xs.dedup.length = xs.length) : xs.Nodup :=
  List.dedup_eq_self.mp ((List.dedup_sublist xs).eq_of_length h)

section Keys

variable {α β γ : Type} [DecidableEq β] {xs : List α} {f : α → β}

/-- The position of a member of a list without repetitions. -/
theorem findIdx?_of_nodup {ids : List β} (h : ids.Nodup) {i : ℕ} {id : β}
    (hi : ids[i]? = some id) : (ids.findIdx? fun x => decide (x = id)) = some i := by
  obtain ⟨hlt, heq⟩ := List.getElem?_eq_some_iff.mp hi
  rw [List.findIdx?_eq_some_iff_getElem]
  refine ⟨hlt, decide_eq_true heq, fun j hj => ?_⟩
  have hne : ids[j] ≠ id := fun hsame =>
    Nat.ne_of_lt hj ((List.Nodup.getElem_inj_iff h).mp (hsame.trans heq.symm))
  simpa using hne

/-- With distinct keys the member with a given key is found. -/
theorem find?_of_nodup (h : (xs.map f).Nodup) {x : α} (hx : x ∈ xs) :
    xs.find? (fun y => decide (f y = f x)) = some x := by
  rw [List.find?_eq_some_iff_append]
  obtain ⟨ys, zs, rfl⟩ := List.append_of_mem hx
  refine ⟨decide_eq_true rfl, ys, zs, rfl, fun y hy => ?_⟩
  rw [List.map_append, List.map_cons, List.nodup_append] at h
  simpa using h.2.2 (f y) (List.mem_map_of_mem hy) (f x) List.mem_cons_self

/-- With distinct keys only one member has a given key. -/
theorem filter_of_nodup (h : (xs.map f).Nodup) {x : α} (hx : x ∈ xs) :
    xs.filter (fun y => decide (f y = f x)) = [x] := by
  obtain ⟨ys, zs, rfl⟩ := List.append_of_mem hx
  rw [List.map_append, List.map_cons, List.nodup_append, List.nodup_cons] at h
  have hys : ys.filter (fun y => decide (f y = f x)) = [] := by
    rw [List.filter_eq_nil_iff]
    intro y hy
    simpa using h.2.2 (f y) (List.mem_map_of_mem hy) (f x) List.mem_cons_self
  have hzs : zs.filter (fun y => decide (f y = f x)) = [] := by
    rw [List.filter_eq_nil_iff]
    intro z hz
    simpa using fun heq : f z = f x => h.2.1.1 (heq ▸ List.mem_map_of_mem hz)
  rw [List.filter_append, List.filter_cons_of_pos (by simp), hys, hzs]
  rfl

/-- With distinct keys the value at a key is looked up. -/
theorem lookup_of_nodup (h : (xs.map f).Nodup) {g : α → γ} {x : α} (hx : x ∈ xs) :
    (xs.map fun y => (f y, g y)).lookup (f x) = some (g x) := by
  rw [List.lookup_eq_some_iff]
  obtain ⟨ys, zs, rfl⟩ := List.append_of_mem hx
  refine ⟨ys.map fun y => (f y, g y), zs.map fun y => (f y, g y), by simp, fun p hp => ?_⟩
  obtain ⟨y, hy, rfl⟩ := List.mem_map.mp hp
  rw [List.map_append, List.map_cons, List.nodup_append] at h
  simpa using (h.2.2 (f y) (List.mem_map_of_mem hy) (f x) List.mem_cons_self).symm

/-- Nothing is looked up at a key that does not occur. -/
theorem lookup_of_notMem {g : α → γ} {b : β} (h : b ∉ xs.map f) :
    (xs.map fun y => (f y, g y)).lookup b = none := by
  rw [List.lookup_eq_none_iff]
  intro p hp
  obtain ⟨y, hy, rfl⟩ := List.mem_map.mp hp
  simpa using fun heq : b = f y => h (heq ▸ List.mem_map_of_mem hy)

end Keys

section Prefixes

variable {α : Type} {p : α → Bool}

/-- Filtering keeps a prefix whose members all stay. -/
theorem take_filter_of_forall {l : List α} :
    ∀ {n : ℕ}, (∀ a ∈ l.take n, p a = true) → (l.filter p).take n = l.take n := by
  induction l with
  | nil => intro n _; simp
  | cons a l ih =>
    intro n h
    cases n with
    | zero => simp
    | succ n =>
      rw [List.take_succ_cons, List.forall_mem_cons] at h
      rw [List.filter_cons_of_pos h.1, List.take_succ_cons, List.take_succ_cons, ih h.2]

end Prefixes

end VllmOxide
