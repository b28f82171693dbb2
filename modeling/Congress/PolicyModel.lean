import Congress.Lib.Digraph
import Congress.Lib.Stratified
import Congress.RuleGraph
import Congress.TopDown

/-!
# What policies mean

The stratified model of a set of policies: the facts and the ground instances of the rules of all
policies are one program, whose atoms are the rows of the policies' tables. Builtins, and the tables
`true` and `false`, have their meaning outside of it. A literal with a policy name is about that
policy's table; for evaluation this is not so for the pseudo-modals, tables whose names end in `+`
or `-`, which are only found in the policy they are evaluated in. So the model takes as a parameter
which names are followed to the other policy.
-/

namespace Congress

open Lib

set_option linter.unusedSectionVars false

/-- Finitely many policies by their names. -/
abbrev Policies (V : Type*) := AList fun _ : String => RuleSet V

/-- A row of a policy's table. -/
structure Row (V : Type*) where
  policy : String
  table : String
  values : List V

variable {V : Type*} [DecidableEq V]

namespace RuleSet

def HasRule (rules : RuleSet V) (r : Rule V) : Prop :=
  ∃ rs, rules.rules.lookup r.head.table.table = some rs ∧ r ∈ rs

def HasFact (rules : RuleSet V) (table : String) (values : List V) : Prop :=
  ∃ fs, rules.facts.lookup table = some fs ∧ values ∈ fs

end RuleSet

/-- The theories that evaluation sees. -/
def Policies.theories (ps : Policies V) : Theories V :=
  fun p => (ps.lookup p).map (·.toTopDown p)

/-- The policy and the table that a name in policy `p` is about. -/
def Tablename.resolve (follows : Tablename → Bool) (p : String) (t : Tablename) :
    Option (String × String) :=
  match t.service with
  | none => some (p, t.table)
  | some q => if q = p ∨ follows t then some (q, t.table) else none

/-- The names that evaluation follows. -/
def evaluationFollows (t : Tablename) : Bool := !t.isUpdate

def Term.value (ν : String → V) : Term V → V
  | .object v => v
  | .variable x => ν x

def Literal.values (ν : String → V) (l : Literal V) : List V := l.arguments.map (Term.value ν)

/-- The relation that a builtin computes; a call that raises is false. -/
def BuiltinRegistry.Relation (reg : BuiltinRegistry V) (table : String) (values : List V) : Prop :=
  match reg table with
  | none => False
  | some (.test n code) => code (values.take n) = some true
  | some (.function n _ code) => code (values.take n) = some (values.drop n)

/-- What an atom says: something that does not depend on the policies, or that they have a row. -/
inductive Meaning (V : Type*)
  | settled (p : Prop)
  | row (a : Row V)

def Meaning.IsTrue (M : Set (Row V)) : Meaning V → Prop
  | .settled p => p
  | .row a => a ∈ M

section

variable (reg : BuiltinRegistry V) (follows : Tablename → Bool)

/-- The meaning in policy `p` of the atom of a literal. -/
def Literal.meaning (p : String) (ν : String → V) (l : Literal V) : Meaning V :=
  if l.tablename none = "true" then .settled True
  else if l.tablename none = "false" then .settled False
  else if l.isBuiltin reg true then .settled (reg.Relation l.table.table (l.values ν))
  else
    match l.table.resolve follows p with
    | none => .settled False
    | some (q, table) => .row ⟨q, table, l.values ν⟩

/-- A literal of policy `p` is true in a model. -/
def Literal.Holds (M : Set (Row V)) (p : String) (ν : String → V) (l : Literal V) : Prop :=
  if l.negated then ¬ (l.meaning reg follows p ν).IsTrue M else (l.meaning reg follows p ν).IsTrue M

/-- An instance of a rule of policy `p`. -/
def Rule.ground (p : String) (ν : String → V) (head : Literal V) (body : List (Literal V)) :
    GroundClause (Row V) where
  head := ⟨p, head.table.table, head.values ν⟩
  pos := {a | ∃ l ∈ body, l.negated = false ∧ l.meaning reg follows p ν = .row a}
  neg := {a | ∃ l ∈ body, l.negated = true ∧ l.meaning reg follows p ν = .row a}

/-- The clauses of the policies: their facts, and the instances of their rules in which what does
not depend on the policies is true. -/
inductive Policies.Program (ps : Policies V) : GroundClause (Row V) → Prop
  | fact {p : String} {rules : RuleSet V} {table : String} {values : List V}
      (hp : ps.lookup p = some rules) (hf : rules.HasFact table values) :
      Program ps ⟨⟨p, table, values⟩, ∅, ∅⟩
  | rule {p : String} {rules : RuleSet V} {r : Rule V} {head : Literal V} {ν : String → V}
      (hp : ps.lookup p = some rules) (hr : rules.HasRule r) (hh : head ∈ r.heads)
      (hs : ∀ l ∈ r.body, ∀ q, l.meaning reg follows p ν = .settled q → (l.negated = false ↔ q)) :
      Program ps (Rule.ground reg follows p ν head r.body)

/-- The instances of a query to policy `p` that are true in a model. -/
def Formula.Answers (M : Set (Row V)) (p : String) (query : Formula V) : Set (Formula V) :=
  {f | ∃ ν : String → V, (∀ l ∈ query.literals, l.Holds reg follows M p ν)
    ∧ f = query.plugDict ((Congress.variableNames query.literals).map fun x => (x, .object (ν x)))}

end

/-- The edges that the rules of the policies have in the dependency graph. -/
def Policies.Edge (ps : Policies V) (a b : String) : Prop :=
  ∃ p rules r ne label, ps.lookup p = some rules ∧ RuleSet.HasRule rules r
    ∧ RuleDependencyGraph.formulaNodesEdges true ⟨false, fun _ => true, fun _ => true⟩
      (Formula.rule r) (some p) = some ne ∧ (a, b, label) ∈ ne.edges

/-- A literal of policy `p` that has no modal and as many arguments as its table; `true` and `false`
have none, and a pseudo-modal has as many as in `p`. -/
structure Literal.Admitted (reg : BuiltinRegistry V) (arity : String → String → ℕ) (p : String)
    (l : Literal V) : Prop where
  modal : l.table.modal = none
  builtin : ∀ built, reg l.table.table = some built → l.arguments.length = built.arity
  reserved : l.tablename none = "true" ∨ l.tablename none = "false" → l.arguments = []
  pseudoModal : l.table.isUpdate → l.arguments.length = arity p l.table.table
  arity : l.arguments.length = arity (l.table.service.getD p) l.table.table

/-- Policies whose rules were found to have no errors and were reordered, have one head each and are
not recursive together; each table has one arity. -/
structure Policies.Admitted (reg : BuiltinRegistry V) (arity : String → String → ℕ)
    (ps : Policies V) : Prop where
  checked : ∀ p rules r, ps.lookup p = some rules → rules.HasRule r → ∃ r₀ schemas,
    ruleErrors reg schemas (some p) r₀ = [] ∧ reorderForSafety reg r₀ = some r
  oneHead : ∀ p rules r, ps.lookup p = some rules → rules.HasRule r →
    r.moreHeads = [] ∧ r.head.negated = false
  head : ∀ p rules r, ps.lookup p = some rules → rules.HasRule r → r.head.Admitted reg arity p
  body : ∀ p rules r, ps.lookup p = some rules → rules.HasRule r →
    ∀ l ∈ r.body, l.Admitted reg arity p
  facts : ∀ p rules table values, ps.lookup p = some rules → rules.HasFact table values →
    values.length = arity p table
  nonrecursive : ¬ Cyclic ps.Edge

end Congress
