import Mathlib.Data.List.AList
import Congress.Syntax

/-!
# Builtins and rule sets

The registry of builtin predicates, and `RuleSet`, in which a policy keeps its rules and its facts
by table. The indices of a `FactSet` only make `find` faster and are left out: `find` goes through
all facts, as it does when there is no index. Constants that Python finds equal are one constant.
-/

namespace Congress

/-- A `CongressBuiltinPred`. Its code may raise; without outputs it is a test, with outputs it
returns their values (a single value stands for the list of it). -/
inductive Builtin (V : Type*)
  | test (numInputs : ℕ) (code : List V → Option Bool)
  | function (numInputs moreOutputs : ℕ) (code : List V → Option (List V))

namespace Builtin

variable {V : Type*}

def numInputs : Builtin V → ℕ
  | .test n _ => n
  | .function n _ _ => n

def numOutputs : Builtin V → ℕ
  | .test _ _ => 0
  | .function _ k _ => k + 1

/-- The number of `predargs`. -/
def arity (b : Builtin V) : ℕ := b.numInputs + b.numOutputs

end Builtin

/-- The builtin predicates by their names: `preddict`. -/
abbrev BuiltinRegistry (V : Type*) := String → Option (Builtin V)

/-- `is_builtin`: a service is not looked at; and with no arguments, neither is the arity. -/
def BuiltinRegistry.isBuiltin {V : Type*} (reg : BuiltinRegistry V) (table : Tablename)
    (arity : ℕ) : Bool :=
  match reg table.table with
  | none => false
  | some b => arity = 0 || b.arity = arity

/-- `is_builtin` of a literal. -/
def Literal.isBuiltin {V : Type*} (l : Literal V) (reg : BuiltinRegistry V)
    (checkArguments : Bool) : Bool :=
  reg.isBuiltin l.table (if checkArguments then l.arguments.length else 0)

/-- The rules and the facts of each table. -/
structure RuleSet (V : Type*) where
  rules : AList fun _ : String => List (Rule V)
  facts : AList fun _ : String => List (List V)

variable {V : Type*} [DecidableEq V]

/-- The lookup of `get_rules`: the index on the given columns is made of all facts, which is an
`IndexError` for a fact that is too short; then `find` gives the facts with the given values. -/
def findFacts (facts : List (List V)) (partialFact : List (ℕ × V)) : Option (List (List V)) :=
  if facts.all fun f => partialFact.all (·.1 < f.length) then
    some (facts.filter fun f => partialFact.all fun (i, v) => f[i]? = some v)
  else none

/-- A fact as a rule. -/
def factRule (key : String) (fact : List V) : Rule V :=
  ⟨⟨⟨none, key, none⟩, fact.map .object, false, []⟩, [], []⟩

namespace RuleSet

def empty : RuleSet V := ⟨∅, ∅⟩

def keys (s : RuleSet V) : List String := s.facts.keys ++ s.rules.keys

/-- The columns of a literal that are not variables. -/
def partialFact (l : Literal V) : List (ℕ × V) :=
  l.arguments.zipIdx.filterMap fun
    | (.object v, i) => some (i, v)
    | (.variable _, _) => none

omit [DecidableEq V] in
theorem mem_partialFact {l : Literal V} {i : ℕ} {v : V} :
    (i, v) ∈ partialFact l ↔ l.arguments[i]? = some (.object v) := by
  rw [partialFact, List.mem_filterMap]
  constructor
  · rintro ⟨⟨t, j⟩, hmem, he⟩
    rw [List.mem_zipIdx_iff_getElem?] at hmem
    cases t with
    | object w =>
      cases he
      exact hmem
    | «variable» => cases he
  · exact fun he => ⟨(.object v, i), List.mem_zipIdx_iff_getElem?.2 he, rfl⟩

/-- `get_rules`. -/
def getRules (s : RuleSet V) (key : String) (matchLiteral : Option (Literal V)) :
    Option (List (Rule V)) :=
  let all := (s.facts.lookup key).getD []
  let facts :=
    match matchLiteral with
    | some l => if l.negated then some all else findFacts all (partialFact l)
    | none => some all
  facts.map fun facts => facts.map (factRule key) ++ (s.rules.lookup key).getD []

end RuleSet

end Congress
