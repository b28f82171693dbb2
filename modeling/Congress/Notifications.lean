import Congress.Runtime
import Congress.Triggers

/-!
# Notifications

A runtime has a registry of triggers, whose dependency graph is its own. An update looks in the index, as
it was before, for the triggers that are relevant to its events; these are called if what a query for their
table returns has changed. Then the index is made anew, from the graph as it is now. This model changes the
policies first, on which none of that depends.
-/

namespace Congress

open Lib Stateful

/-- What `relevant_triggers` takes: an event, or the name of a table. -/
inductive TableChange (V : Type*)
  | event (e : Event V)
  | table (name : String)

/-- The tables that an event is for. -/
def Event.tables {V : Type*} (e : Event V) : List String :=
  match e.formula with
  | .rule r => r.heads.map fun l => l.table.globalTablename e.target
  | .atom l => [l.table.globalTablename e.target]

def TableChange.tables {V : Type*} : TableChange V → List String
  | .event e => e.tables
  | .table name => [name]

/-- `relevant_triggers`. -/
def TriggerRegistry.relevantTriggers {V : Type*} (r : TriggerRegistry) (changes : List (TableChange V)) :
    Finset Trigger :=
  (changes.flatMap (·.tables)).foldl (fun triggers table => triggers ∪ (r.index table).getD ∅) ∅

variable {V A : Type} [DecidableEq V]

/-- The query of `table_contents_queries` for the table of a trigger with so many columns. -/
def Trigger.query (t : Trigger) (arity : ℕ) : Formula V :=
  .atom ⟨{ parseServiceTable t.tablename with modal := t.modal },
    (List.range arity).map fun i => .variable ("x" ++ toString i), false, []⟩

/-- What `_compute_table_contents` finds for the table of a trigger, by one query. -/
def PolicyMap.contents (pf : Platform V) (ps : PolicyMap V A) (t : Trigger) (arity : ℕ) :
    Outcome (List (Formula V)) :=
  match ps.lookup t.policy with
  | none => .error .policyException
  | some p => (p.topDown t.policy).select pf.registry ps.topDown pf.evalFuel (t.query arity) true

structure NotifyingRuntime (V A : Type) [DecidableEq V] extends Runtime V A where
  triggerRegistry : TriggerRegistry

namespace NotifyingRuntime

abbrev Run (V A : Type) [DecidableEq V] := Stateful Fault (NotifyingRuntime V A)

def init : NotifyingRuntime V A := ⟨.init, .empty .empty⟩

def onRuntime {α : Type} (x : Runtime.Run V A α) : Run V A α :=
  zoom (·.toRuntime) (fun n rt => { n with toRuntime := rt }) x

/-- The registry, with the dependency graph of the runtime. -/
def registry (n : NotifyingRuntime V A) : TriggerRegistry :=
  { n.triggerRegistry with dependencyGraph := n.globalDependencyGraph.bag.graph }

/-- A call of the registry; a search in the graph leaves it with no cycles known. -/
def onRegistry {α : Type} (f : TriggerRegistry → Except (Raised String) (TriggerRegistry × α)) :
    Run V A α := do
  match f (← get).registry with
  | .error _ => fail .keyError
  | .ok (r, a) =>
    modify fun n => { n with
      globalDependencyGraph := { n.globalDependencyGraph with
        bag := { n.globalDependencyGraph.bag with graph := r.dependencyGraph } }
      triggerRegistry := r }
    pure a

/-- `_update_obj_datalog`, with the triggers that it looks at. -/
def updateObjDatalog (host : Host V A) (events : List (AnnotatedEvent V A)) :
    Run V A (UpdateResult V A × Finset Trigger) := do
  let effective ← lift ((← get).theory.actualEvents host.toPlatform events)
  match ← onRuntime (Runtime.updateObjDatalog host events) with
  | .rejected errors => pure (.rejected errors, ∅)
  | .permitted changes =>
    if effective.isEmpty then pure (.permitted changes, ∅)
    else
      let relevant := (← get).triggerRegistry.relevantTriggers
        (effective.map fun e => .event e.toEvent)
      onRegistry fun r => (r.updateDependencies r.dependencyGraph).map fun r => (r, ())
      pure (.permitted changes, relevant)

/-- `initialize_tables`, with the triggers that it looks at. -/
def initializeTables (host : Host V A) (tablenames : List String) (facts : List (String × List V))
    (target : Option String) : Run V A (Finset Trigger) := do
  let n ← get
  match n.getTargetName target with
  | .error _ => fail .policyException
  | .ok name =>
    onRuntime (Runtime.initializeTables host tablenames facts target)
    pure (n.triggerRegistry.relevantTriggers (V := V)
      (tablenames.map fun x => .table (buildServiceTable name x)))

/-- `register_trigger`. -/
def registerTrigger (tablename : String) (callback : Callback) (policy modal : Option String) :
    Run V A Trigger := do
  match (← get).getTargetName policy with
  | .error _ => fail .policyException
  | .ok name => onRegistry (·.registerTable tablename name callback modal)

/-- `unregister_trigger`. -/
def unregisterTrigger (t : Trigger) : Run V A Unit :=
  onRegistry fun r => (r.unregister t).map fun r => (r, ())

end NotifyingRuntime

end Congress
