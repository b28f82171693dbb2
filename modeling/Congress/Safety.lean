import Congress.RuleSet

/-!
# Checks of facts and rules

`reorder_for_safety` moves negated literals and builtins behind the literals that bind their
variables. `rule_errors` and `fact_errors` list what is wrong with a rule or a fact before it is put
in a policy.
-/

namespace Congress

set_option linter.unusedSectionVars false

variable {V : Type*} [DecidableEq V]

/-- What is known about tables; `count` is missing when the columns are given. -/
structure Schema where
  columns : AList fun _ : String => List String
  count : Option (AList fun _ : String => ℕ)
  complete : Bool

/-- The number of columns of a table, if it is known. -/
def Schema.arity (s : Schema) (table : String) : Option ℕ := (s.columns.lookup table).map List.length

/-- The schemas of the policies that there are; a policy may have none. -/
abbrev Schemas := String → Option (Option Schema)

/-- What is wrong with a reference to a column. -/
inductive ColumnProblem
  | unknown
  | tooLarge
  | givenByPosition
  | givenByNumber
  | givenByName
  | givenTwice

/-- The errors of facts, rules and updates: all are a `PolicyException`. -/
inductive PolicyError (V : Type*)
  | notGround (fact : Literal V)
  | factWithPolicy (fact : Literal V)
  | builtinTable (head : Literal V)
  | unboundInHead (name : String) (rule : Rule V)
  | notReordered (rule : Rule V)
  | unknownTable (literal : Literal V) (policy : String)
  | arity (literal : Literal V) (permitted : ℕ)
  | headWithPolicy (head : Literal V) (rule : Rule V)
  | modalNotPermitted (head : Literal V)
  | manyModalHeads (heads : List (Literal V))
  | modalInBody (literal : Literal V)
  | notDatasource (literal : Literal V)
  | column (literal : Literal V) (col : ℕ ⊕ String) (problem : ColumnProblem)
  | nonFormula (formula : Formula V)
  | nonAtomic (formula : Formula V)
  | noPolicies
  | mustChoose
  | unknownPolicy (name : String)
  | recursiveRules

/-- What `reorder_for_safety` keeps: the variables that are bound, the literals put off, for each of
them the variables that were missing, and the new body. -/
structure Reordering (V : Type*) where
  safeVars : List String
  unsafeLiterals : List (Literal V)
  unsafeVariables : Literal V → List String
  newBody : List (Literal V)

namespace Reordering

def makeSafe (r : Reordering V) (l : Literal V) : Reordering V :=
  { r with safeVars := r.safeVars ++ l.variableNames, newBody := r.newBody ++ [l] }

/-- The loop of `make_safe_plus`: the first literal put off whose variables are bound by now. -/
def makeSafeLoop : ℕ → Reordering V → Reordering V
  | 0, r => r
  | fuel + 1, r =>
    match r.unsafeLiterals.find? fun l => (r.unsafeVariables l).all (· ∈ r.safeVars) with
    | none => r
    | some l =>
      makeSafeLoop fuel ({ r with unsafeLiterals := r.unsafeLiterals.erase l }.makeSafe l)

/-- Each round takes one literal from those put off. -/
def makeSafePlus (r : Reordering V) (l : Literal V) : Reordering V :=
  makeSafeLoop r.unsafeLiterals.length (r.makeSafe l)

/-- One literal of the body. -/
def take (reg : BuiltinRegistry V) (r : Reordering V) (l : Literal V) : Reordering V :=
  let wait (targetVars : List String) : Reordering V :=
    let newUnsafeVars := targetVars.filter (· ∉ r.safeVars)
    if newUnsafeVars.isEmpty then r.makeSafePlus l
    else { r with
      unsafeLiterals := r.unsafeLiterals ++ [l]
      unsafeVariables := Function.update r.unsafeVariables l newUnsafeVars }
  if l.negated then wait l.variableNames
  else if l.isBuiltin reg true then
    match reg l.table.table with
    | none => r
    | some built => wait (Term.names (l.arguments.take built.numInputs))
  else r.makeSafePlus l

end Reordering

/-- `reorder_for_safety` of a rule; the exception is `none`. -/
def reorderForSafety (reg : BuiltinRegistry V) (rule : Rule V) : Option (Rule V) :=
  let r := rule.body.foldl (Reordering.take reg) ⟨[], [], fun _ => [], []⟩
  if r.unsafeLiterals.isEmpty then some { rule with body := r.newBody } else none

/-- `reorder_for_safety`, which leaves alone what is not a rule. -/
def Formula.reorderForSafety (reg : BuiltinRegistry V) : Formula V → Option (Formula V)
  | .atom l => some (.atom l)
  | .rule r => if r.heads.any (·.negated) then some (.rule r)
    else (Congress.reorderForSafety reg r).map .rule

/-- `rule_body_safety`: the errors, and the rule as it is left. -/
def ruleBodySafety (reg : BuiltinRegistry V) (rule : Rule V) : List (PolicyError V) × Formula V :=
  match (Formula.rule rule).reorderForSafety reg with
  | none => ([.notReordered rule], .rule rule)
  | some rule' => ([], rule')

/-- `keywords_safety`. -/
def keywordsSafety (reg : BuiltinRegistry V) (l : Literal V) : List (PolicyError V) :=
  if l.isBuiltin reg false then [.builtinTable l] else []

/-- `fact_has_no_theory`. -/
def factHasNoTheory (atom : Literal V) : List (PolicyError V) :=
  if atom.table.service = none then [] else [.factWithPolicy atom]

/-- `literal_schema_consistency`; `theory` is the policy of literals that name none. -/
def literalSchemaConsistency (schemas : Schemas) (theory : Option String) (l : Literal V) :
    List (PolicyError V) :=
  if !l.namedArguments.isEmpty then []
  else
    match l.table.service.or theory with
    | none => []
    | some activeTheory =>
      match schemas activeTheory with
      | some (some schema) =>
        if schema.complete ∧ l.table.table ∉ schema.columns then [.unknownTable l activeTheory]
        else
          match schema.arity l.table.table with
          | some n => if l.arguments.length = n then [] else [.arity l n]
          | none => []
      | _ => []

/-- `check_schema_consistency`. -/
def checkSchemaConsistency (schemas : Schemas) (theory : Option String) (f : Formula V) :
    List (PolicyError V) :=
  (f.heads ++ f.body).flatMap (literalSchemaConsistency schemas theory)

/-- `fact_errors`. -/
def factErrors (reg : BuiltinRegistry V) (schemas : Schemas) (theory : Option String)
    (atom : Literal V) : List (PolicyError V) :=
  (if atom.isGround then [] else [.notGround atom])
    ++ checkSchemaConsistency schemas theory (.atom atom) ++ factHasNoTheory atom
    ++ keywordsSafety reg atom

/-- The variables of some literals, each once. -/
def variableNames (ls : List (Literal V)) : List String := (ls.flatMap Literal.variableNames).dedup

/-- `rule_head_safety`. -/
def ruleHeadSafety (rule : Rule V) : List (PolicyError V) :=
  ((variableNames rule.heads).filter (· ∉ variableNames rule.body)).map (.unboundInHead · rule)

/-- `rule_head_has_no_theory`. -/
def ruleHeadHasNoTheory (rule : Rule V) (permitHead : Literal V → Bool) : List (PolicyError V) :=
  (rule.heads.filter fun h => h.table.service.isSome && h.table.modal.isNone && !permitHead h).map
    (.headWithPolicy · rule)

/-- `rule_modal_safety`, where `execute` is the permitted modal. -/
def ruleModalSafety (rule : Rule V) : List (PolicyError V) :=
  let modalHeads := rule.heads.filter (·.table.modal.isSome)
  (modalHeads.filter (·.table.modal.map String.toLower ≠ some "execute")).map .modalNotPermitted
    ++ (if !modalHeads.isEmpty && rule.heads.length > 1 then [.manyModalHeads rule.heads] else [])
    ++ (rule.body.filter (·.table.modal.isSome)).map .modalInBody

/-- `rule_errors`; its check of the body leaves the rule reordered. -/
def ruleErrors (reg : BuiltinRegistry V) (schemas : Schemas) (theory : Option String)
    (rule : Rule V) : List (PolicyError V) :=
  ruleHeadSafety rule
    ++ (match reorderForSafety reg rule with
      | none => [.notReordered rule] ++ rest rule
      | some rule' => rest rule')
where
  rest (rule : Rule V) : List (PolicyError V) :=
    checkSchemaConsistency schemas theory (.rule rule) ++ ruleHeadHasNoTheory rule (fun _ => false)
      ++ ruleModalSafety rule ++ keywordsSafety reg rule.head

/-- A literal can be evaluated once the variables `bound` are. -/
def Literal.Safe (reg : BuiltinRegistry V) (bound : String → Prop) (l : Literal V) : Prop :=
  if l.negated then ∀ x ∈ l.variableNames, bound x
  else if l.isBuiltin reg true then
    ∀ built, reg l.table.table = some built →
      ∀ x ∈ Term.names (l.arguments.take built.numInputs), bound x
  else True

/-- Literals that can be evaluated from left to right, once the variables `bound` are. -/
def SafeInOrder (reg : BuiltinRegistry V) : (String → Prop) → List (Literal V) → Prop
  | _, [] => True
  | bound, l :: ls => l.Safe reg bound ∧ SafeInOrder reg (fun x => bound x ∨ x ∈ l.variableNames) ls

end Congress
