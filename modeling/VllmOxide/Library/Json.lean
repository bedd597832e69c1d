import Mathlib.Data.List.Basic
import Mathlib.Data.Int.Notation

/-!
# JSON values

The values of JSON documents. Writing a document and reading it back gives the same value; numbers
without a fraction are integers, and the other numbers are kept as the binary32 values they were
written from.
-/

namespace VllmOxide

/-- JSON values. -/
inductive Json
  | null
  | bool (value : Bool)
  | int (value : ℤ)
  | float (value : Float32)
  | str (value : String)
  | arr (items : List Json)
  | obj (fields : List (String × Json))

namespace Json

/-- A natural number. -/
def nat (n : ℕ) : Json :=
  .int (n : ℤ)

/-- A list of token ids. -/
def tokens (tokenIds : List UInt32) : Json :=
  .arr (tokenIds.map fun t => .nat t.toNat)

/-- A value that may be missing. -/
def option {α : Type} (f : α → Json) : Option α → Json
  | none => .null
  | some a => f a

end Json

end VllmOxide
