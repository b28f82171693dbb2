import Congress.Graph
import Congress.Syntax

/-!
# Policies for Z3

What the engine asks of policies that Z3 evaluates: recursion is allowed inside of them only
(`cycleNotContainedInZ3`).
-/

namespace Congress

/-- What is read of a policy here. -/
structure TheoryClass where
  name : String
  isZ3Theory : Bool
  deriving DecidableEq

/-- The `ValueError` of `str.index`. -/
structure SubstringNotFound where
  deriving DecidableEq

/-- `fullname[:fullname.index(':')]`. -/
def beforeColon (fullname : String) : Except SubstringNotFound String :=
  if ':' ∈ fullname.toList then .ok (String.ofList (fullname.toList.takeWhile (· ≠ ':')))
  else .error {}

/-- `cycle_not_contained_in_z3`, with the values of the dictionary of policies. -/
def cycleNotContainedInZ3 (theories : List TheoryClass) (cycles : List (List String)) :
    Except SubstringNotFound Bool :=
  let acceptables := (theories.filter (·.isZ3Theory)).map (·.name)
  cycles.flatten.anyM fun fullname => do
    let policy ← beforeColon fullname
    pure (policy ∉ acceptables)

end Congress
