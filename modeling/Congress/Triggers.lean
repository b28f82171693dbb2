import Mathlib.Data.Finset.Basic
import Congress.Graph
import Congress.Syntax

/-!
# Triggers

`TriggerRegistry` keeps triggers, each a callback for when the contents of a table change, and an
index from tables to the triggers whose table depends on them. Triggers are objects: each has a
number of its own.
-/

namespace Congress

/-- What a trigger runs: the publication of its table, or other code. -/
inductive Callback
  | pubPolicyResult
  | other (n : ℕ)
  deriving DecidableEq

structure Trigger where
  id : ℕ
  tablename : String
  policy : String
  modal : Option String
  callback : Callback
  deriving DecidableEq

namespace Trigger

def fullTable (t : Trigger) : String := buildServiceTable t.policy t.tablename

end Trigger

/-- The triggers, of which `created` have been made, and the index. -/
structure TriggerRegistry where
  dependencyGraph : Graph String Bool
  triggers : List Trigger
  index : String → Option (Finset Trigger)
  created : ℕ

namespace TriggerRegistry

def empty (graph : Graph String Bool) : TriggerRegistry := ⟨graph, [], fun _ => none, 0⟩

/-- The tables that the one of a trigger depends on, itself included. -/
def deps (r : TriggerRegistry) (t : Trigger) :
    Except (Raised String) (TriggerRegistry × List String) :=
  let (graph, found) := r.dependencyGraph.dependencies t.fullTable
  found.map fun found => ({ r with dependencyGraph := graph }, found.getD [t.fullTable])

/-- The loop of `_add_indexes`. -/
def addToIndex (t : Trigger) (tables : List String) (index : String → Option (Finset Trigger)) :
    String → Option (Finset Trigger) :=
  tables.foldl (fun index table =>
    Function.update index table (some (insert t ((index table).getD ∅)))) index

def addIndexes (r : TriggerRegistry) (t : Trigger) : Except (Raised String) TriggerRegistry := do
  let (r, tables) ← r.deps t
  pure { r with index := addToIndex t tables r.index }

/-- The loop of `_delete_indexes`. -/
def deleteFromIndex (t : Trigger) : List String → (String → Option (Finset Trigger)) →
    Except (Raised String) (String → Option (Finset Trigger))
  | [], index => .ok index
  | table :: tables, index =>
    match index table with
    | none => .error (.keyError table)
    | some ts => deleteFromIndex t tables (Function.update index table (some (ts.erase t)))

def deleteIndexes (r : TriggerRegistry) (t : Trigger) : Except (Raised String) TriggerRegistry := do
  let (r, tables) ← r.deps t
  let index ← deleteFromIndex t tables r.index
  pure { r with index := index }

/-- `register_table`, which returns the new trigger. -/
def registerTable (r : TriggerRegistry) (tablename policy : String) (callback : Callback)
    (modal : Option String) : Except (Raised String) (TriggerRegistry × Trigger) := do
  let t : Trigger := ⟨r.created, tablename, policy, modal, callback⟩
  let r ← { r with triggers := r.triggers ++ [t], created := r.created + 1 }.addIndexes t
  pure (r, t)

/-- `unregister`; a trigger that is not there is a `KeyError`. -/
def unregister (r : TriggerRegistry) (t : Trigger) : Except (Raised String) TriggerRegistry :=
  if t ∈ r.triggers then { r with triggers := r.triggers.erase t }.deleteIndexes t
  else .error (.keyError t.fullTable)

/-- `update_dependencies`, after the dependency graph has changed. -/
def updateDependencies (r : TriggerRegistry) (graph : Graph String Bool) :
    Except (Raised String) TriggerRegistry :=
  r.triggers.foldlM addIndexes { r with dependencyGraph := graph, index := fun _ => none }

end TriggerRegistry

end Congress
