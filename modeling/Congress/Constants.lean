import Mathlib.Data.Rat.Defs
import Mathlib.Order.WithBot
import Congress.FactSet

/-!
# Constants

The constants of policies: strings, integers and floats that are numbers, which Python compares by their
values.
-/

namespace Congress

/-- The values of integers and floats: exact numbers and the two infinities. -/
abbrev Number := WithBot (WithTop ℚ)

/-- `ObjectConstant`: a name with its type. -/
inductive ObjectConstant
  | string (name : String)
  | integer (name : ℤ)
  | float (name : Number)
  deriving DecidableEq

namespace ObjectConstant

/-- The name as Python compares it. -/
def native : ObjectConstant → String ⊕ Number
  | .string name => .inl name
  | .integer name => .inr ((name : ℚ) : WithTop ℚ)
  | .float name => .inr name

end ObjectConstant

/-- Native values as they are in Python. -/
def Natives.python : Natives ObjectConstant (String ⊕ Number) := ⟨ObjectConstant.native, .string⟩

end Congress
