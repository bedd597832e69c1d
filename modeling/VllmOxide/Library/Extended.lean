import Mathlib.Algebra.Order.Field.Basic
import Mathlib.Algebra.Order.Ring.Rat
import Mathlib.Order.WithBot
import Mathlib.Tactic.Linarith

/-!
# Exact arithmetic with the special values of IEEE 754

Numbers of an ordered field together with the two infinities and a NaN. Sums, products and quotients
of finite values are exact; the special values follow the rules of IEEE 754, with one zero, whose sign
is taken to be positive in a quotient.

## Main definitions

* `Extended`: a finite value, an infinity or a NaN.
* `Extended.ofBot`: the values without a NaN and without `+∞`, from a linear order.
* `Exponential`: a positive function that stands for the exponential.

## Main results

* `Extended.ofBot_lt_ofBot`: on those values the comparison is the one of the linear order.
* `Extended.shift_lt_shift`, `Extended.shift_sub_shift`, `Extended.shift_add`: subtracting one finite
  value everywhere changes no comparison and no difference, and commutes with sums.
-/

namespace VllmOxide

/-- A finite value, an infinity or a NaN. -/
inductive Extended (R : Type*) where
  | nan
  | negInf
  | finite (x : R)
  | posInf

namespace Extended

variable {R : Type*}

instance : Inhabited (Extended R) := ⟨nan⟩

instance [Zero R] : Zero (Extended R) := ⟨finite 0⟩

instance [One R] : One (Extended R) := ⟨finite 1⟩

theorem zero_def [Zero R] : (0 : Extended R) = finite 0 := rfl

theorem one_def [One R] : (1 : Extended R) = finite 1 := rfl

/-- `is_nan`. -/
def isNan : Extended R → Bool
  | nan => true
  | _ => false

theorem isNan_eq_true {a : Extended R} : a.isNan = true ↔ a = nan := by
  cases a <;> simp [isNan]

/-- `is_finite`. -/
def isFinite : Extended R → Bool
  | finite _ => true
  | _ => false

/-- `is_infinite`. -/
def isInfinite : Extended R → Bool
  | negInf => true
  | posInf => true
  | _ => false

/-- The values without a NaN and without `+∞`. -/
def ofBot : WithBot R → Extended R
  | ⊥ => negInf
  | (x : R) => finite x

@[simp] theorem ofBot_bot : (ofBot ⊥ : Extended R) = negInf := rfl

@[simp] theorem ofBot_coe {x : R} : ofBot (x : WithBot R) = finite x := rfl

theorem ofBot_eq_negInf {a : WithBot R} : ofBot a = negInf ↔ a = ⊥ := by
  cases a with
  | bot => simp
  | coe x => simp

section Order

variable [LinearOrder R]

/-- `<`: a NaN is below nothing and above nothing. -/
protected def lt : Extended R → Extended R → Prop
  | negInf, finite _ => True
  | negInf, posInf => True
  | finite x, finite y => x < y
  | finite _, posInf => True
  | _, _ => False

/-- `<=`. -/
protected def le : Extended R → Extended R → Prop
  | negInf, negInf => True
  | negInf, finite _ => True
  | negInf, posInf => True
  | finite x, finite y => x ≤ y
  | finite _, posInf => True
  | posInf, posInf => True
  | _, _ => False

instance : LT (Extended R) := ⟨Extended.lt⟩

instance : LE (Extended R) := ⟨Extended.le⟩

instance : DecidableLT (Extended R) := fun a b =>
  match a, b with
  | negInf, finite _ => isTrue trivial
  | negInf, posInf => isTrue trivial
  | finite x, finite y => inferInstanceAs (Decidable (x < y))
  | finite _, posInf => isTrue trivial
  | nan, _ => isFalse id
  | negInf, nan => isFalse id
  | negInf, negInf => isFalse id
  | finite _, nan => isFalse id
  | finite _, negInf => isFalse id
  | posInf, _ => isFalse id

instance : DecidableLE (Extended R) := fun a b =>
  match a, b with
  | negInf, negInf => isTrue trivial
  | negInf, finite _ => isTrue trivial
  | negInf, posInf => isTrue trivial
  | finite x, finite y => inferInstanceAs (Decidable (x ≤ y))
  | finite _, posInf => isTrue trivial
  | posInf, posInf => isTrue trivial
  | nan, _ => isFalse id
  | negInf, nan => isFalse id
  | finite _, nan => isFalse id
  | finite _, negInf => isFalse id
  | posInf, nan => isFalse id
  | posInf, negInf => isFalse id
  | posInf, finite _ => isFalse id

/-- `==`: equal values, which a NaN is not even to itself. -/
instance : BEq (Extended R) := ⟨fun a b => decide (a ≤ b) && decide (b ≤ a)⟩

@[simp] theorem finite_lt_finite {x y : R} : (finite x < finite y) ↔ x < y := Iff.rfl

@[simp] theorem finite_le_finite {x y : R} : (finite x ≤ finite y) ↔ x ≤ y := Iff.rfl

@[simp] theorem negInf_lt_finite {x : R} : negInf < finite x := trivial

@[simp] theorem not_lt_negInf {a : Extended R} : ¬ a < negInf := by
  cases a <;> exact id

theorem finite_lt_posInf {x : R} : finite x < posInf := trivial

@[simp] theorem finite_beq_finite {x y : R} : (finite x == finite y) = true ↔ x = y := by
  change (decide (x ≤ y) && decide (y ≤ x)) = true ↔ x = y
  rw [Bool.and_eq_true, decide_eq_true_eq, decide_eq_true_eq]
  exact ⟨fun h => le_antisymm h.1 h.2, fun h => ⟨h.le, h.ge⟩⟩

@[simp] theorem ofBot_lt_ofBot {a b : WithBot R} : ofBot a < ofBot b ↔ a < b := by
  cases a with
  | bot =>
    cases b with
    | bot => simp
    | coe y => simp
  | coe x =>
    cases b with
    | bot => simp
    | coe y => simp

@[simp] theorem ofBot_le_ofBot {a b : WithBot R} : ofBot a ≤ ofBot b ↔ a ≤ b := by
  cases a with
  | bot =>
    cases b with
    | bot => exact iff_of_true trivial le_rfl
    | coe y => exact iff_of_true trivial bot_le
  | coe x =>
    cases b with
    | bot => exact iff_of_false id (by simp)
    | coe y => simp

@[simp] theorem ofBot_beq_ofBot {a b : WithBot R} : (ofBot a == ofBot b) = true ↔ a = b := by
  change (decide (ofBot a ≤ ofBot b) && decide (ofBot b ≤ ofBot a)) = true ↔ a = b
  simp only [Bool.and_eq_true, decide_eq_true_eq, ofBot_le_ofBot]
  exact ⟨fun h => le_antisymm h.1 h.2, fun h => ⟨h.le, h.ge⟩⟩

/-! ### The order of the values that are not a NaN -/

/-- The place of a value that is not a NaN. -/
def place : Extended R → WithBot (WithTop R)
  | finite x => ((x : WithTop R) : WithBot (WithTop R))
  | posInf => ((⊤ : WithTop R) : WithBot (WithTop R))
  | _ => ⊥

theorem lt_iff_place {a b : Extended R} (ha : a ≠ nan) (hb : b ≠ nan) :
    a < b ↔ a.place < b.place := by
  cases a with
  | nan => exact absurd rfl ha
  | negInf =>
    cases b with
    | nan => exact absurd rfl hb
    | negInf => exact iff_of_false id (lt_irrefl _)
    | finite y => exact iff_of_true trivial (WithBot.bot_lt_coe _)
    | posInf => exact iff_of_true trivial (WithBot.bot_lt_coe _)
  | finite x =>
    cases b with
    | nan => exact absurd rfl hb
    | negInf => exact iff_of_false id (not_lt_bot)
    | finite y => simp [place]
    | posInf => exact iff_of_true trivial (WithBot.coe_lt_coe.mpr (WithTop.coe_lt_top x))
  | posInf =>
    cases b with
    | nan => exact absurd rfl hb
    | negInf => exact iff_of_false id (not_lt_bot)
    | finite y => exact iff_of_false id (by simp [place])
    | posInf => exact iff_of_false id (lt_irrefl _)

theorem le_iff_place {a b : Extended R} (ha : a ≠ nan) (hb : b ≠ nan) :
    a ≤ b ↔ a.place ≤ b.place := by
  cases a with
  | nan => exact absurd rfl ha
  | negInf =>
    cases b with
    | nan => exact absurd rfl hb
    | negInf | finite y | posInf => exact iff_of_true trivial bot_le
  | finite x =>
    cases b with
    | nan => exact absurd rfl hb
    | negInf => exact iff_of_false id (by simp [place])
    | finite y => simp [place]
    | posInf => exact iff_of_true trivial (by simp [place])
  | posInf =>
    cases b with
    | nan => exact absurd rfl hb
    | negInf => exact iff_of_false id (by simp [place])
    | finite y => exact iff_of_false id (by simp [place])
    | posInf => exact iff_of_true trivial (le_refl _)

theorem beq_iff_place {a b : Extended R} (ha : a ≠ nan) (hb : b ≠ nan) :
    (a == b) = true ↔ a.place = b.place := by
  change (decide (a ≤ b) && decide (b ≤ a)) = true ↔ _
  rw [Bool.and_eq_true, decide_eq_true_eq, decide_eq_true_eq, le_iff_place ha hb,
    le_iff_place hb ha]
  exact ⟨fun h => le_antisymm h.1 h.2, fun h => ⟨h.le, h.ge⟩⟩

theorem ne_nan_of_lt_right {a b : Extended R} (h : a < b) : b ≠ nan := by
  rintro rfl
  cases a <;> exact h

theorem eq_negInf_of_not_lt {a : Extended R} (h : ¬ negInf < a) (ha : a ≠ nan) : a = negInf := by
  cases a with
  | nan => exact absurd rfl ha
  | negInf => rfl
  | finite x => exact absurd trivial h
  | posInf => exact absurd trivial h

theorem eq_of_place_eq {a b : Extended R} (ha : a ≠ nan) (hb : b ≠ nan)
    (h : a.place = b.place) : a = b := by
  cases a with
  | nan => exact absurd rfl ha
  | negInf | finite x | posInf =>
    cases b with
    | nan => exact absurd rfl hb
    | negInf | finite y | posInf => simp_all [place]

end Order

/-! ### Arithmetic -/

section Arithmetic

variable [Field R] [LinearOrder R]

/-- `-`. -/
protected def neg : Extended R → Extended R
  | nan => nan
  | negInf => posInf
  | finite x => finite (-x)
  | posInf => negInf

/-- `+`: infinities of opposite signs have no sum. -/
protected def add : Extended R → Extended R → Extended R
  | finite x, finite y => finite (x + y)
  | nan, _ => nan
  | _, nan => nan
  | negInf, posInf => nan
  | posInf, negInf => nan
  | negInf, _ => negInf
  | _, negInf => negInf
  | posInf, _ => posInf
  | _, posInf => posInf

/-- An infinity with the sign of a value, and a NaN for a value without a sign. -/
def signedInf (x : R) : Extended R :=
  if 0 < x then posInf else if x < 0 then negInf else nan

/-- `*`: zero has no product with an infinity. -/
protected def mul : Extended R → Extended R → Extended R
  | finite x, finite y => finite (x * y)
  | nan, _ => nan
  | _, nan => nan
  | finite x, posInf => signedInf x
  | posInf, finite x => signedInf x
  | finite x, negInf => signedInf (-x)
  | negInf, finite x => signedInf (-x)
  | posInf, posInf => posInf
  | negInf, negInf => posInf
  | posInf, negInf => negInf
  | negInf, posInf => negInf

/-- `/`. -/
protected def div : Extended R → Extended R → Extended R
  | finite x, finite y => if y = 0 then signedInf x else finite (x / y)
  | nan, _ => nan
  | _, nan => nan
  | finite _, posInf => finite 0
  | finite _, negInf => finite 0
  | posInf, finite y => if y < 0 then negInf else posInf
  | negInf, finite y => if y < 0 then posInf else negInf
  | _, _ => nan

instance : Neg (Extended R) := ⟨Extended.neg⟩

instance : Add (Extended R) := ⟨Extended.add⟩

instance : Sub (Extended R) := ⟨fun a b => a + -b⟩

instance : Mul (Extended R) := ⟨Extended.mul⟩

instance : Div (Extended R) := ⟨Extended.div⟩

omit [LinearOrder R] in
@[simp] theorem neg_finite {x : R} : -finite x = finite (-x) := rfl

omit [LinearOrder R] in
@[simp] theorem finite_add_finite {x y : R} : finite x + finite y = finite (x + y) := rfl

omit [LinearOrder R] in
@[simp] theorem finite_sub_finite {x y : R} : finite x - finite y = finite (x - y) := by
  change finite (x + -y) = finite (x - y)
  rw [sub_eq_add_neg]

@[simp] theorem finite_mul_finite {x y : R} : finite x * finite y = finite (x * y) := rfl

theorem finite_div_finite {x y : R} (hy : y ≠ 0) : finite x / finite y = finite (x / y) :=
  if_neg hy

omit [LinearOrder R] in
@[simp] theorem negInf_sub_finite {x : R} : negInf - finite x = negInf := rfl

omit [LinearOrder R] in
@[simp] theorem finite_sub_negInf {x : R} : finite x - negInf = posInf := rfl

/-- `abs`. -/
protected def abs : Extended R → Extended R
  | nan => nan
  | finite x => finite |x|
  | _ => posInf

/-- `max`: a NaN gives way to the other value. -/
protected def max (a b : Extended R) : Extended R :=
  if a.isNan then b else if b.isNan then a else if a < b then b else a

/-- `value as f64` of a count. -/
def ofNat (n : ℕ) : Extended R :=
  finite (n : R)

end Arithmetic

/-! ### Subtracting one finite value everywhere -/

section Shift

variable [Field R] [LinearOrder R] [IsStrictOrderedRing R]

/-- Subtracting one finite value changes no comparison. -/
theorem shift_lt_shift {c : R} {a b : Extended R} : a - finite c < b - finite c ↔ a < b := by
  cases a with
  | finite x =>
    cases b with
    | finite y => simp
    | nan | negInf | posInf => exact Iff.rfl
  | nan | negInf | posInf => cases b <;> exact Iff.rfl

omit [LinearOrder R] [IsStrictOrderedRing R] in
/-- Subtracting one finite value changes no difference. -/
theorem shift_sub_shift {c : R} {a b : Extended R} : a - finite c - (b - finite c) = a - b := by
  cases a with
  | finite x =>
    cases b with
    | finite y => simp
    | nan | negInf | posInf => rfl
  | nan | negInf | posInf => cases b <;> rfl

omit [LinearOrder R] [IsStrictOrderedRing R] in
/-- Subtracting a finite value commutes with adding another value. -/
theorem shift_add {c : R} {a g : Extended R} : a - finite c + g = a + g - finite c := by
  cases a with
  | finite x =>
    cases g with
    | finite y =>
      simp only [finite_sub_finite, finite_add_finite]
      rw [sub_add_eq_add_sub]
    | nan | negInf | posInf => rfl
  | nan | negInf | posInf => cases g <;> rfl

end Shift

/-! ### Sums -/

section Sum

variable [Field R]

/-- A sum from left to right. -/
def sum (xs : List (Extended R)) : Extended R :=
  xs.foldl (· + ·) 0

theorem foldl_add_finite (acc : R) (xs : List R) :
    (xs.map finite).foldl (· + ·) (finite acc) = finite (acc + xs.sum) := by
  induction xs generalizing acc with
  | nil => simp
  | cons x xs ih =>
    rw [List.map_cons, List.foldl_cons, finite_add_finite, ih, List.sum_cons, add_assoc]

/-- The sum of finite values is their exact sum. -/
theorem sum_map_finite (xs : List R) : sum (xs.map finite) = finite xs.sum := by
  rw [sum, zero_def, foldl_add_finite, zero_add]

end Sum

end Extended

/-- A positive function, which stands for the exponential. -/
structure Exponential (R : Type*) [Zero R] [LT R] where
  toFun : R → R
  pos : ∀ x, 0 < toFun x

namespace Exponential

variable {R : Type*} [Zero R] [LT R]

/-- `exp`. -/
def exp (e : Exponential R) : Extended R → Extended R
  | .nan => .nan
  | .negInf => .finite 0
  | .finite x => .finite (e.toFun x)
  | .posInf => .posInf

@[simp] theorem exp_finite (e : Exponential R) (x : R) :
    e.exp (.finite x) = .finite (e.toFun x) := rfl

@[simp] theorem exp_negInf (e : Exponential R) : e.exp .negInf = .finite 0 := rfl

/-- A rational function that grows like the exponential near zero. -/
def rational : Exponential ℚ where
  toFun x := if 0 ≤ x then 1 + x else 1 / (1 - x)
  pos x := by
    split_ifs with hx
    · linarith
    · exact one_div_pos.mpr (by linarith)

end Exponential

end VllmOxide
