import VllmOxide.Library.Json
import VllmOxide.Library.Outcome
import Mathlib.Data.List.Nodup

/-!
# Reading JSON values

Derived readers of records and tagged variants. A record is an object, whose fields are looked up by
name and may stand in any order next to unknown ones, or an array of the field values. A variant is an
object with its tag among the fields, or an array that starts with the tag. What the writers write is
read back.

## Main definitions

* `Json.fieldsOf`, `Json.tagged`: records and tagged variants.
* `Json.readNat`, `Json.readFloat32`, `Json.readList`: values.
* `Json.float32`: how a binary32 value is written.

## Main results

* `Json.fieldsOf_obj`, `Json.tagged_obj`: a written record is read back.
* `Json.readNat_nat`, `Json.readList_map`: so are numbers and lists.
-/

namespace VllmOxide.Json

/-- The values of the fields of a record, in the order of the names. -/
def fieldsOf (names : List String) : Json → Except String (List Json)
  | .obj fields => names.mapM fun name =>
    match fields.filter fun field => decide (field.1 = name) with
    | [] => .error s!"missing field {name}"
    | field :: others =>
      if others.isEmpty then .ok field.2 else .error s!"duplicate field {name}"
  | .arr items => if items.length = names.length then .ok items else .error "invalid length"
  | _ => .error "invalid type"

def readStr : Json → Except String String
  | .str value => .ok value
  | _ => .error "invalid type"

/-- The tag of a variant and the record of its other fields. -/
def tagged (tag : String) : Json → Except String (String × Json)
  | .obj fields => do
    let variant ← match fields.filter fun field => decide (field.1 = tag) with
      | [] => .error s!"missing field {tag}"
      | field :: others =>
        if others.isEmpty then readStr field.2 else .error s!"duplicate field {tag}"
    .ok (variant, .obj (fields.filter fun field => decide (field.1 ≠ tag)))
  | .arr [] => .error s!"missing tag {tag}"
  | .arr (first :: items) => do .ok (← readStr first, .arr items)
  | _ => .error "invalid type"

/-- A number without a fraction that is at most a bound. -/
def readNat (bound : ℕ) : Json → Except String ℕ
  | .int n => if 0 ≤ n ∧ n ≤ bound then .ok n.toNat else .error "invalid value"
  | _ => .error "invalid type"

def readBool : Json → Except String Bool
  | .bool value => .ok value
  | _ => .error "invalid type"

/-- A binary32 value; a number without a fraction is one as well. -/
def readFloat32 : Json → Except String Float32
  | .float value => .ok value
  | .int n => .ok (Float32.ofInt n)
  | _ => .error "invalid type"

def readList {α : Type} (read : Json → Except String α) : Json → Except String (List α)
  | .arr items => items.mapM read
  | _ => .error "invalid type"

/-- How a binary32 value is written: values that are not finite are lost. -/
def float32 (value : Float32) : Json :=
  if value.isFinite then .float value else .null

/-! ### What is written is read back -/

theorem readNat_nat {bound n : ℕ} (h : n ≤ bound) : readNat bound (.nat n) = .ok n := by
  rw [nat, readNat, if_pos ⟨Int.natCast_nonneg n, Int.ofNat_le.mpr h⟩, Int.toNat_natCast]

theorem readFloat32_float32 {value : Float32} (h : value.isFinite = true) :
    readFloat32 (float32 value) = .ok value := by
  rw [float32, if_pos h]
  rfl

theorem readList_map {α : Type} {read : Json → Except String α} {write : α → Json} {values : List α}
    (h : ∀ value ∈ values, read (write value) = .ok value) :
    readList read (.arr (values.map write)) = .ok values := by
  have hread := mapM_eq_ok (f := fun value => read (write value)) (F := id) h
  rw [List.map_id] at hread
  rw [readList, List.mapM_map]
  exact hread

/-- The only field of a name. -/
theorem filter_field_eq {fields : List (String × Json)} (hnodup : (fields.map Prod.fst).Nodup)
    {field : String × Json} (hfield : field ∈ fields) :
    fields.filter (fun other => decide (other.1 = field.1)) = [field] := by
  induction fields with
  | nil => cases hfield
  | cons first rest ih =>
    rw [List.map_cons, List.nodup_cons] at hnodup
    rcases List.mem_cons.mp hfield with rfl | hfield
    · rw [List.filter_cons_of_pos (by simp), List.cons_eq_cons]
      refine ⟨rfl, List.filter_eq_nil_iff.mpr fun other hother heq => hnodup.1 ?_⟩
      exact of_decide_eq_true heq ▸ List.mem_map_of_mem hother
    · rw [List.filter_cons_of_neg, ih hnodup.2 hfield]
      intro heq
      exact hnodup.1 (of_decide_eq_true heq ▸ List.mem_map_of_mem hfield)

/-- **A written record is read back.** -/
theorem fieldsOf_obj {fields : List (String × Json)} (hnodup : (fields.map Prod.fst).Nodup) :
    fieldsOf (fields.map Prod.fst) (.obj fields) = .ok (fields.map Prod.snd) := by
  rw [fieldsOf, List.mapM_map]
  refine mapM_eq_ok fun field hfield => ?_
  simp only [Function.comp_apply, filter_field_eq hnodup hfield, List.isEmpty_nil, if_true]

/-- **A written variant is read back.** -/
theorem tagged_obj {tag variant : String} {fields : List (String × Json)}
    (hfields : tag ∉ fields.map Prod.fst) :
    tagged tag (.obj ((tag, .str variant) :: fields)) = .ok (variant, .obj fields) := by
  have hnone : fields.filter (fun field => decide (field.1 = tag)) = [] :=
    List.filter_eq_nil_iff.mpr fun field hfield heq =>
      hfields (of_decide_eq_true heq ▸ List.mem_map_of_mem hfield)
  have hall : fields.filter (fun field => decide (field.1 ≠ tag)) = fields :=
    List.filter_eq_self.mpr fun field hfield => decide_eq_true fun heq =>
      hfields (heq ▸ List.mem_map_of_mem hfield)
  rw [tagged, List.filter_cons_of_pos (by simp), hnone, List.filter_cons_of_neg (by simp), hall]
  rfl

end VllmOxide.Json
