import Congress.RuleGraph

/-!
# Subpolicies

`find_subpolicy` picks the rules that matter for some output tables. In the graph tables go by their
full names, `service:table`; the rules that define a table are kept under its name without the
service, and so are tables looked up.
-/

namespace Congress

variable {V : Type*} [DecidableEq V]

/-- The defaults: all formulas contribute, with all of their literals. -/
def Selection.all : Selection V := ⟨true, fun _ => true, fun _ => true⟩

/-- What `find_subpolicy` works on: the dependency graph, and for each table a set of rules. -/
structure Subpolicy (V : Type*) where
  graph : RuleDependencyGraph
  definitions : String → Option (List (Rule V))

/-- What can be raised: a fact that is written as a rule has no `table`, or a search fails. -/
inductive SubpolicyError
  | attributeError
  | search (e : Raised String)
  deriving DecidableEq

/-- `set.add` for rules: an equal one stays. -/
def addRule (rules : List (Rule V)) (rule : Rule V) : List (Rule V) :=
  if rules.any (·.same rule) then rules else rules ++ [rule]

/-- The rules that define each table. -/
def definitionsOf (rules : List (Rule V)) : String → Option (List (Rule V)) :=
  rules.foldl (fun definitions rule => rule.heads.foldl (fun definitions head =>
    Function.update definitions head.table.table
      (some (addRule ((definitions head.table.table).getD []) rule))) definitions) fun _ => none

namespace Subpolicy

/-- The graph after `formula_delete` of a rule. -/
def formulaDelete (graph : RuleDependencyGraph) (rule : Rule V) : RuleDependencyGraph :=
  (graph.formulaUpdate .all [⟨.rule rule, false, none⟩]).1

/-- One round of the loop in `filter_output_definitions`. -/
def filterTable (rulePermitted : Rule V → Bool) (s : Subpolicy V) (outputTable : String) :
    Subpolicy V :=
  match s.definitions outputTable with
  | none => s
  | some rules =>
    { graph := (rules.filter (!rulePermitted ·)).foldl formulaDelete s.graph
      definitions := Function.update s.definitions outputTable (some (rules.filter rulePermitted)) }

def filterOutputDefinitions (outputTables : List String) (rulePermitted : Rule V → Bool)
    (s : Subpolicy V) : Subpolicy V :=
  outputTables.foldl (filterTable rulePermitted) s

end Subpolicy

/-- The rules that define the tables. -/
def Subpolicy.rulesOf (s : Subpolicy V) (tables : List String) : List (Rule V) :=
  tables.foldl (fun subpolicy table => ((s.definitions table).getD []).foldl addRule subpolicy) []

/-- `find_subpolicy`. -/
def findSubpolicy (rules : List (Rule V)) (requiredTables prohibitedTables outputTables : List String) :
    Except SubpolicyError (List (Rule V)) :=
  match RuleDependencyGraph.formulaUpdate .all (.init true)
      (rules.map fun rule => ⟨.rule rule, true, none⟩) with
  | (_, none) => .error .attributeError
  | (graph, some _) =>
    match graph.bag.graph.findDependentNodes prohibitedTables with
    | .error e => .error (.search e)
    | .ok dependent =>
      let prohibited := dependent.filter (· ∉ outputTables)
      let s := Subpolicy.filterOutputDefinitions outputTables
        (fun rule => rule.body.all fun lit => lit.table.table ∉ prohibited) ⟨graph, definitionsOf rules⟩
      match s.graph.bag.graph.findDependentNodes requiredTables with
      | .error e => .error (.search e)
      | .ok required =>
        let s := s.filterOutputDefinitions outputTables fun rule =>
          rule.body.any fun lit => lit.table.table ∈ required
        match (s.graph.bag.graph.findReachableNodes outputTables).2 with
        | .error e => .error (.search e)
        | .ok outputs => .ok (s.rulesOf outputs)

end Congress
