import Congress.Policies
import Congress.RuleGraph

/-!
# The runtime

`Runtime` holds the policies, the dependency graph of all their rules, the events that wait for a
schema and those that came to nothing. An update is checked, then the graph is changed, and last the
policies are. A call that raises leaves behind what it has changed by then. Policies for Z3 are left
out: there are none where Z3 is not installed. Of triggers, which change no policy, only what they
raise is kept.
-/

namespace Congress

open Lib Stateful

structure Runtime (V A : Type) [DecidableEq V] where
  theory : PolicyMap V A
  globalDependencyGraph : RuleDependencyGraph
  disabledEvents : List (AnnotatedEvent V A)
  errorEvents : List (AnnotatedEvent V A × List (PolicyError V))

/-- A platform on which triggers may raise: in updating their registry and in their queries before the
policies change, and in their queries and callbacks after that. -/
structure Host (V A : Type) [DecidableEq V] extends Platform V where
  triggersBefore : Runtime V A → List (AnnotatedEvent V A) → Option Fault
  triggersAfter : Runtime V A → Runtime V A → List (AnnotatedEvent V A) → Option Fault

/-- A platform without builtins whose triggers never raise; the lists stay in the order they are in. -/
def Host.plain {V A : Type} [DecidableEq V] (variableName : String → V) : Host V A where
  registry _ := none
  variableName := variableName
  sorted := id
  setOrder := id
  evalFuel := 30
  queueFuel := 30
  triggersBefore _ _ := none
  triggersAfter _ _ _ := none

/-- An update is permitted and reports changes, or it is not and reports errors. -/
inductive UpdateResult (V A : Type)
  | permitted (changes : List (PolicyMap.Changed V A))
  | rejected (errors : List (PolicyError V))

inductive PolicyKind
  | nonrecursive
  | action
  | datasource
  | database
  | materialized

variable {V A : Type} [DecidableEq V]

/-- What `_process_limbo_events` makes of events. -/
structure Limbo (V A : Type) where
  enabled : List (AnnotatedEvent V A)
  disabled : List (AnnotatedEvent V A)
  errors : List (AnnotatedEvent V A × List (PolicyError V))

/-- All rules, and no atoms, contribute to the dependency graph. -/
def Selection.rules : Selection V := ⟨false, fun _ => true, fun _ => true⟩

namespace AnnotatedEvent

/-- The event after materialized views have replaced self-joins in its rule. -/
def withoutSelfJoins (e : AnnotatedEvent V A) : AnnotatedEvent V A :=
  { e with formula :=
      match e.formula with
      | .atom l => .atom l
      | .rule r => .rule { r with body := renameSelfJoins [] r.body } }

/-- The events as an update of a policy leaves them. -/
def leftBy (d : Option (PolicyData V A)) (events : List (AnnotatedEvent V A)) :
    List (AnnotatedEvent V A) :=
  match d with
  | some (.materialized _) => events.map (·.withoutSelfJoins)
  | _ => events

/-- `_group_events_by_target`: the targets, in the order in which they come. -/
def targets (events : List (AnnotatedEvent V A)) : List String :=
  (events.filterMap (·.target)).reverse.dedup.reverse

end AnnotatedEvent

/-- The loop of `_process_limbo_events`. An event that is not consistent with the schemas is both
enabled and an error. -/
def PolicyMap.processLimboEvents (pf : Platform V) (ps : PolicyMap V A) (persistent : Bool) :
    List (AnnotatedEvent V A) → Outcome (Limbo V A)
  | [] => pure ⟨[], [], []⟩
  | e :: events => do
    match e.formula.eliminateColumnReferences pf.sorted ps.infos e.target with
    | .ok formula =>
      let e := { e with formula := formula }
      let errs := checkSchemaConsistency ps.schemas e.target formula
      let rest ← processLimboEvents pf ps persistent events
      pure { rest with
        enabled := e :: rest.enabled
        errors := if errs.isEmpty then rest.errors else (e, errs) :: rest.errors }
    | .error .incompleteSchema =>
      if persistent then .error .policyException
      else
        let rest ← processLimboEvents pf ps persistent events
        pure { rest with disabled := e :: rest.disabled }
    | .error (.policyException errs) =>
      let rest ← processLimboEvents pf ps persistent events
      pure { rest with errors := (e, errs) :: rest.errors }

/-- `_actual_events`: each event is looked at in the policies as they are before the update. -/
def PolicyMap.actualEvents (pf : Platform V) (ps : PolicyMap V A) :
    List (AnnotatedEvent V A) → Outcome (List (AnnotatedEvent V A))
  | [] => pure []
  | e :: events => do
    match e.target.bind ps.lookup with
    | none => .error .policyException
    | some p =>
      let contained ← p.contains pf e.formula
      let rest ← actualEvents pf ps events
      pure (if e.insert != contained then e :: rest else rest)

/-- The checks of the events, target by target. -/
def PolicyMap.errors (reg : BuiltinRegistry V) (ps : PolicyMap V A)
    (events : List (AnnotatedEvent V A)) : List String → Outcome (List (PolicyError V))
  | [] => pure []
  | name :: names => do
    match ps.lookup name with
    | none => .error .policyException
    | some p =>
      let errors ← p.updateWouldCauseErrors reg ps.schemas name
        ((events.filter (·.target = some name)).map (·.formula))
      let rest ← PolicyMap.errors reg ps events names
      pure (errors ++ rest)

/-- The loop that applies the events: all of them to each target. -/
def PolicyMap.updateTargets (pf : Platform V) : List String → List (AnnotatedEvent V A) →
    PolicyMap.Run V A (List (PolicyMap.Changed V A))
  | [], _ => pure []
  | name :: names, events => do
    let d := ((← get).lookup name).map (·.data)
    let changes ← PolicyMap.update pf name events
    let rest ← updateTargets pf names (AnnotatedEvent.leftBy d events)
    pure (changes ++ rest)

namespace Runtime

/-- Calls on a runtime. -/
abbrev Run (V A : Type) [DecidableEq V] := Stateful Fault (Runtime V A)

def init : Runtime V A := ⟨∅, .init true, [], []⟩

/-- `get_target_name`. -/
def getTargetName (rt : Runtime V A) : Option String → Except (PolicyError V) String
  | some name => if name ∈ rt.theory then .ok name else .error (.unknownPolicy name)
  | none =>
    match rt.theory.keys with
    | [] => .error .noPolicies
    | [name] => .ok name
    | _ => .error .mustChoose

/-- The targets of the events, where `theory` is the one by default. -/
def resolveTargets (rt : Runtime V A) (theory : Option String) :
    List (AnnotatedEvent V A) → List (AnnotatedEvent V A) × List (PolicyError V)
  | [] => ([], [])
  | e :: events =>
    let (resolved, errors) := rt.resolveTargets theory events
    match rt.getTargetName (e.target.or theory) with
    | .ok name => ({ e with target := some name } :: resolved, errors)
    | .error err => (e :: resolved, err :: errors)

def onPolicies {α : Type} (x : PolicyMap.Run V A α) : Run V A α :=
  zoom (·.theory) (fun rt ps => { rt with theory := ps }) x

def onGraph (f : RuleDependencyGraph → RuleDependencyGraph) : Run V A Unit :=
  modify fun rt => { rt with globalDependencyGraph := f rt.globalDependencyGraph }

def raise : Option Fault → Run V A Unit
  | none => pure ()
  | some fault => fail fault

/-- Changes the graph, and changes it back if there is a cycle then; returns whether there is none. -/
def updateGraph (events : List (AnnotatedEvent V A)) : Run V A Bool := do
  match ((← get).globalDependencyGraph.formulaUpdate Selection.rules (events.map (·.toEvent))) with
  | (graph, none) =>
    onGraph fun _ => graph
    fail .attributeError
  | (graph, some changes) =>
    if changes.isEmpty then
      onGraph fun _ => graph
      pure true
    else
      let (g, answer) := graph.bag.graph.hasCycle
      let graph := { graph with bag := { graph.bag with graph := g } }
      match answer with
      | .error _ =>
        onGraph fun _ => graph
        fail .keyError
      | .ok true =>
        onGraph fun _ => graph.undoChanges changes
        pure false
      | .ok false =>
        onGraph fun _ => graph
        pure true

/-- `_update_obj_datalog`. -/
def updateObjDatalog (host : Host V A) (events : List (AnnotatedEvent V A)) :
    Run V A (UpdateResult V A) := do
  let events ← lift ((← get).theory.actualEvents host.toPlatform events)
  if events.isEmpty then pure (.permitted [])
  else
    let targets := AnnotatedEvent.targets events
    let errors ← lift ((← get).theory.errors host.registry events targets)
    if !errors.isEmpty then pure (.rejected errors)
    else if !(← updateGraph events) then pure (.rejected [.recursiveRules])
    else
      let before ← get
      raise (host.triggersBefore before events)
      let changes ← onPolicies (PolicyMap.updateTargets host.toPlatform targets events)
      raise (host.triggersAfter before (← get) events)
      pure (.permitted changes)

/-- `update`. -/
def update (host : Host V A) (events : List (AnnotatedEvent V A)) (target : Option String)
    (persistent : Bool) : Run V A (UpdateResult V A) := do
  let (events, errors) := (← get).resolveTargets target events
  if !errors.isEmpty then pure (.rejected errors)
  else
    let limbo ← lift ((← get).theory.processLimboEvents host.toPlatform persistent events)
    if !limbo.errors.isEmpty then pure (.rejected (limbo.errors.flatMap (·.2)))
    else
      match ← updateObjDatalog host limbo.enabled with
      | .rejected errors => pure (.rejected errors)
      | .permitted changes =>
        modify fun rt => { rt with disabledEvents := rt.disabledEvents ++ limbo.disabled }
        pure (.permitted changes)

/-- A new policy, as its class makes it. -/
def newPolicy (name : String) : PolicyKind → Policy V A
  | .nonrecursive => ⟨.rules .nonrecursive .empty, some .init⟩
  | .action => ⟨.rules .action .empty, some .init⟩
  | .datasource => ⟨.rules .datasource .empty, some .init⟩
  | .database => ⟨.database .empty, none⟩
  | .materialized => ⟨.materialized (.empty name), none⟩

/-- `create_policy`. -/
def createPolicy (name : String) (kind : PolicyKind) : Run V A Unit := do
  if name ∈ (← get).theory then fail .keyError
  else modify fun rt => { rt with theory := rt.theory.insert name (newPolicy name kind) }

/-- `delete_policy` of a policy given by its name. -/
def deletePolicy [Inhabited A] (host : Host V A) (name : String) : Run V A Unit := do
  match (← get).theory.lookup name with
  | none => fail .keyError
  | some p =>
    let events := p.content.map fun (formula, info) =>
      { formula := formula, insert := false, target := some name, info := info }
    match ← update host events none false with
    | .rejected _ => fail .policyException
    | .permitted _ =>
      modify fun rt => { rt with
        disabledEvents := rt.disabledEvents.filter (·.target ≠ some name)
        theory := rt.theory.erase name }

/-- The loop of `set_schema` over the events that were enabled. -/
def applyEnabled (host : Host V A) : List (AnnotatedEvent V A) → Run V A Unit
  | [] => pure ()
  | e :: events => do
    match ← updateObjDatalog host [e] with
    | .permitted _ => pure ()
    | .rejected errors => modify fun rt => { rt with errorEvents := rt.errorEvents ++ [(e, errors)] }
    applyEnabled host events

/-- `set_schema`. -/
def setSchema (host : Host V A) (name : String) (columns : AList fun _ : String => List String)
    (complete : Bool) : Run V A Unit := do
  match (← get).theory.lookup name with
  | none => fail .congressException
  | some p =>
    if p.schema.any (!·.columns.keys.isEmpty) then fail .congressException
    else
      modify fun rt => { rt with
        theory := rt.theory.insert name { p with schema := some ⟨columns, none, complete⟩ } }
      let limbo ← lift ((← get).theory.processLimboEvents host.toPlatform false
        (← get).disabledEvents)
      modify fun rt => { rt with
        disabledEvents := limbo.disabled
        errorEvents := rt.errorEvents ++ limbo.errors }
      applyEnabled host limbo.enabled

/-- The facts of `initialize_tables`, those for tables that are not initialized left out. -/
def initializeFacts (store : RuleStore V A) (schema : Option Schema) (tablenames : List String) :
    List (String × List V) → RuleStore V A × Option Schema
  | [] => (store, schema)
  | (table, fact) :: facts =>
    if table ∈ tablenames then
      let literal : Literal V := ⟨⟨none, table, none⟩, fact.map .object, false, []⟩
      let schema := schema.map fun s =>
        if s.columns.keys.isEmpty then s else (s.update literal true).1
      initializeFacts (store.addFact table fact).1 schema tablenames facts
    else initializeFacts store schema tablenames facts

/-- `initialize_tables`, which only policies with a rule set implement. -/
def initializeTables (host : Host V A) (tablenames : List String) (facts : List (String × List V))
    (target : Option String) : Run V A Unit := do
  let before ← get
  match before.getTargetName target with
  | .error _ => fail .policyException
  | .ok name =>
    raise (host.triggersBefore before [])
    match before.theory.lookup name with
    | some ⟨.rules kind store, schema⟩ =>
      let (store, schema) :=
        initializeFacts (tablenames.foldl .clearTable store) schema tablenames facts
      modify fun rt => { rt with theory := rt.theory.insert name ⟨.rules kind store, schema⟩ }
      raise (host.triggersAfter before (← get) [])
    | _ => fail .notImplemented

end Runtime

end Congress
