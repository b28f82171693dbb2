import Mathlib.Data.List.Perm.Basic
import Mathlib.Data.List.Dedup
import Mathlib.Data.Finset.Basic

/-!
# The policy language

Terms, table names, literals, rules and events. Constants are of any type `V`: a constant's name
together with its type. What nothing here reads (locations, ids, names, comments) is left out.
-/

namespace Congress

/-- A variable or a constant. -/
inductive Term (V : Type*)
  | variable (name : String)
  | object (value : V)
  deriving DecidableEq

/-- A table, maybe of another policy or a service, maybe under a modal such as `execute`. -/
structure Tablename where
  service : Option String
  table : String
  modal : Option String
  deriving DecidableEq

namespace Tablename

def globalTablename (t : Tablename) (pre : Option String) : String :=
  ":".intercalate ([pre, t.service, some t.table].filterMap id)

/-- The string name, with a default for the service. -/
def name (t : Tablename) (defaultService : Option String) : String :=
  match t.service.or defaultService with
  | none => t.table
  | some service => service ++ ":" ++ t.table

/-- The table's name ends in `+` or `-`. -/
def isUpdate (t : Tablename) : Bool :=
  t.table.toList.getLast? = some '+' || t.table.toList.getLast? = some '-'

end Tablename

/-- `parse_service_table`. -/
def parseServiceTable (tablename : String) : Tablename :=
  match tablename.toList.dropWhile (· ≠ ':') with
  | [] => ⟨none, tablename, none⟩
  | _ :: table =>
    ⟨some (String.ofList (tablename.toList.takeWhile (· ≠ ':'))), String.ofList table, none⟩

def buildServiceTable (service table : String) : String := service ++ ":" ++ table

/-- A possibly negated atomic statement; an argument can be given by position, or by the number or
the name of its column. -/
structure Literal (V : Type*) where
  table : Tablename
  arguments : List (Term V)
  negated : Bool
  namedArguments : List ((ℕ ⊕ String) × Term V)
  deriving DecidableEq

/-- A rule, which has a head and maybe more of them. -/
structure Rule (V : Type*) where
  head : Literal V
  moreHeads : List (Literal V)
  body : List (Literal V)
  deriving DecidableEq

/-- What a policy is made of: an atom, or a rule. -/
inductive Formula (V : Type*)
  | atom (literal : Literal V)
  | rule (rule : Rule V)
  deriving DecidableEq

/-- An insertion or deletion of a formula into a policy. -/
structure Event (V : Type*) where
  formula : Formula V
  insert : Bool
  target : Option String
  deriving DecidableEq

variable {V : Type*} [DecidableEq V]

namespace Term

def isVariable : Term V → Bool
  | .variable _ => true
  | .object _ => false

/-- The variables among a list of terms. -/
def names (ts : List (Term V)) : List String :=
  ts.filterMap fun
    | .variable x => some x
    | .object _ => none

end Term

namespace Literal

def isGround (l : Literal V) : Bool := l.arguments.all (! ·.isVariable)

/-- `variable_names`, which leaves out the named arguments. -/
def variableNames (l : Literal V) : List String := Term.names l.arguments

def tablename (l : Literal V) (defaultService : Option String) : String :=
  l.table.name defaultService

end Literal

namespace Rule

def heads (r : Rule V) : List (Literal V) := r.head :: r.moreHeads

/-- `__eq__` compares the sorted heads and the sorted bodies. -/
def same (r r' : Rule V) : Bool := r.heads.isPerm r'.heads && r.body.isPerm r'.body

variable {r r' r'' : Rule V}

theorem same_iff : r.same r' = true ↔ r.heads.Perm r'.heads ∧ r.body.Perm r'.body := by
  simp [same, List.isPerm_iff]

theorem same_refl (r : Rule V) : r.same r = true := same_iff.2 ⟨.refl _, .refl _⟩

theorem same_symm (h : r.same r' = true) : r'.same r = true :=
  same_iff.2 ⟨(same_iff.1 h).1.symm, (same_iff.1 h).2.symm⟩

theorem same_comm : r.same r' = r'.same r := Bool.eq_iff_iff.2 ⟨same_symm, same_symm⟩

theorem same_trans (h : r.same r' = true) (h' : r'.same r'' = true) : r.same r'' = true :=
  same_iff.2 ⟨(same_iff.1 h).1.trans (same_iff.1 h').1, (same_iff.1 h).2.trans (same_iff.1 h').2⟩

end Rule

namespace Formula

/-- `is_atom_like`. -/
def isAtomLike : Formula V → Bool
  | .atom _ => true
  | .rule r => r.moreHeads.isEmpty && r.body.isEmpty

/-- The heads of a rule, and the atom itself. -/
def heads : Formula V → List (Literal V)
  | .atom l => [l]
  | .rule r => r.heads

def body : Formula V → List (Literal V)
  | .atom _ => []
  | .rule r => r.body

/-- `__eq__`. -/
def same : Formula V → Formula V → Bool
  | .atom l, .atom l' => l = l'
  | .rule r, .rule r' => r.same r'
  | _, _ => false

end Formula

end Congress
