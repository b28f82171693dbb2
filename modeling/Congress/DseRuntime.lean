import Congress.Runtime
import Congress.Subscribers

/-!
# The runtime as a service

A `DseRuntime` subscribes to the tables of services that its rules refer to: around some of its calls
it computes the tables of all policies before and after, and subscribes and unsubscribes by the
difference. With a subscription the data of the table may come, which initialize it.
-/

namespace Congress

open Lib Stateful

/-- What comes of the request for a table that a subscription makes: the service is not found, or what
it sends is stale; the request fails; or there are rows, which are handed on. -/
inductive Delivery (V : Type)
  | nothing
  | fault (fault : Fault)
  | snapshot (rows : List (List V))

/-- What a call meets outside of the engine: the order in which a set of tables comes, and the answers of
the services. -/
structure Network (V : Type) where
  order : SetOrder String
  deliver : String → String → Delivery V

/-- The engine, with the pairs of a service and a table that it is subscribed to. -/
structure DseRuntime (V A : Type) [DecidableEq V] extends Runtime V A where
  subscriptions : Finset (String × String)

variable {V A : Type} [DecidableEq V]

/-- `tablenames` of a rule, those in its body only. -/
def Rule.bodyTablenames (reg : BuiltinRegistry V) (r : Rule V) : List String :=
  (r.body.filter fun l => !l.isBuiltin reg true).map (·.tablename none)

/-- `tablenames` of a policy, with the tables of its facts, which a database knows nothing of. -/
def Policy.tablenames [Inhabited A] (reg : BuiltinRegistry V) (p : Policy V A) :
    Outcome (Finset String) :=
  let tables := (p.policy.flatMap fun r => r.1.bodyTablenames reg).toFinset
  match p.data with
  | .rules _ store => pure (tables ∪ store.facts.keys.toFinset)
  | .database _ => .error .typeError
  | .materialized _ => pure tables

def unionTablenames [Inhabited A] (reg : BuiltinRegistry V) :
    List (Policy V A) → Outcome (Finset String)
  | [] => pure ∅
  | p :: ps => do
    let tables ← p.tablenames reg
    let rest ← unionTablenames reg ps
    pure (tables ∪ rest)

/-- `reserved_tablename`. -/
def reservedTablename (name : String) : Bool := "___".toList.isPrefixOf name.toList

namespace DseRuntime

/-- Calls on the engine. -/
abbrev Run (V A : Type) [DecidableEq V] := Stateful Fault (DseRuntime V A)

def init : DseRuntime V A := ⟨.init, ∅⟩

def onRuntime {α : Type} (x : Runtime.Run V A α) : Run V A α :=
  zoom (·.toRuntime) (fun s rt => { s with toRuntime := rt }) x

/-- `tablenames` of all policies, those in bodies only. -/
def tablenames [Inhabited A] (reg : BuiltinRegistry V) (s : DseRuntime V A) :
    Outcome (Finset String) :=
  unionTablenames reg (s.theory.entries.map (·.2))

/-- `subscribe`, and `receive_data_full` if there are data. -/
def subscribe (host : Host V A) (net : Network V) (service table : String) : Run V A Unit := do
  modify fun s => { s with subscriptions := insert (service, table) s.subscriptions }
  match net.deliver service table with
  | .nothing => pure ()
  | .fault fault => fail fault
  | .snapshot rows =>
    onRuntime (Runtime.initializeTables host [table] (rows.map (table, ·)) (some service))

/-- `unsubscribe`. -/
def unsubscribe (service table : String) : Run V A Unit :=
  modify fun s => { s with subscriptions := s.subscriptions.erase (service, table) }

/-- The first loop of `update_table_subscriptions`. -/
def subscribeAll (host : Host V A) (net : Network V) : List String → Run V A Unit
  | [] => pure ()
  | table :: tables => do
    if reservedTablename table then subscribeAll host net tables
    else
      let t := parseServiceTable table
      match t.service with
      | none => subscribeAll host net tables
      | some service =>
        subscribe host net service t.table
        subscribeAll host net tables

/-- The second loop. -/
def unsubscribeAll : List String → Run V A Unit
  | [] => pure ()
  | table :: tables => do
    let t := parseServiceTable table
    match t.service with
    | none => unsubscribeAll tables
    | some service =>
      unsubscribe service t.table
      unsubscribeAll tables

/-- `update_table_subscriptions`. -/
def updateTableSubscriptions (host : Host V A) (net : Network V) (oldtables newtables : Finset String) :
    Run V A Unit := do
  subscribeAll host net (net.order.toList (newtables \ oldtables))
  unsubscribeAll (net.order.toList (oldtables \ newtables))

/-- A call of the superclass, and an update of the subscriptions by the tables before and after. -/
def resubscribing [Inhabited A] {α : Type} (host : Host V A) (net : Network V)
    (x : Runtime.Run V A α) : Run V A α := do
  let oldtables ← lift ((← get).tablenames host.registry)
  let result ← onRuntime x
  let newtables ← lift ((← get).tablenames host.registry)
  updateTableSubscriptions host net oldtables newtables
  pure result

/-- `process_policy_update`. -/
def processPolicyUpdate [Inhabited A] (host : Host V A) (net : Network V)
    (events : List (AnnotatedEvent V A)) (persistent : Bool) : Run V A (UpdateResult V A) :=
  resubscribing host net (Runtime.update host events none persistent)

/-- `set_schema`. -/
def setSchema [Inhabited A] (host : Host V A) (net : Network V) (name : String)
    (columns : AList fun _ : String => List String) (complete : Bool) : Run V A Unit :=
  resubscribing host net (Runtime.setSchema host name columns complete)

end DseRuntime

/-- What is done with the engine. -/
inductive DseOp (V A : Type)
  | processPolicyUpdate (net : Network V) (events : List (AnnotatedEvent V A)) (persistent : Bool)
  | setSchema (net : Network V) (name : String) (columns : AList fun _ : String => List String)
    (complete : Bool)
  | createPolicy (name : String) (kind : PolicyKind)
  | deletePolicy (name : String)

/-- The engine after a call, which may raise. -/
def DseRuntime.step [Inhabited A] (host : Host V A) (s : DseRuntime V A) :
    DseOp V A → DseRuntime V A
  | .processPolicyUpdate net events persistent =>
    ((processPolicyUpdate host net events persistent).run s).2
  | .setSchema net name columns complete => ((setSchema host net name columns complete).run s).2
  | .createPolicy name kind => ((onRuntime (Runtime.createPolicy name kind)).run s).2
  | .deletePolicy name => ((onRuntime (Runtime.deletePolicy host name)).run s).2

end Congress
