import Mathlib.Data.List.AList
import Mathlib.Data.Finset.Basic
import Congress.Triggers

/-!
# Subscribers of policy tables

A `DseNode` knows which services on it subscribe to which tables, and from their heartbeats the same
of its peers. Whenever that changes the tables of the policy engine that have subscribers, the engine
registers and unregisters triggers that publish them.
-/

namespace Congress

/-- The order in which the elements of a set come, which nothing is known about. -/
structure SetOrder (α : Type*) where
  toList : Finset α → List α
  mem : ∀ s a, a ∈ toList s ↔ a ∈ s
  nodup : ∀ s, (toList s).Nodup

/-- A `DseRuntime`, as far as it publishes its tables: the triggers, those that it publishes by, for
each table by its name, its policy and the modal `None`, and the tables that had subscribers. -/
structure PublishingRuntime where
  triggerRegistry : TriggerRegistry
  policySubData : String × Option String → Option Trigger
  publishedTablesWithSubscriber : Finset String

namespace PublishingRuntime

/-- The key of a table in `policySubData`. -/
def subKey (table : String) : String × Option String :=
  let t := parseServiceTable table
  (t.table, t.service)

/-- `on_first_subs`. -/
def onFirstSubs : List String → PublishingRuntime → Except (Raised String) PublishingRuntime
  | [], s => .ok s
  | table :: tables, s =>
    let t := parseServiceTable table
    match t.service with
    | none => .ok s
    | some policy =>
      if s.policySubData (t.table, some policy) = none then do
        let (registry, trig) ←
          s.triggerRegistry.registerTable t.table policy .pubPolicyResult none
        onFirstSubs tables { s with
          triggerRegistry := registry
          policySubData := Function.update s.policySubData (t.table, some policy) (some trig) }
      else onFirstSubs tables s

/-- `on_no_subs`. -/
def onNoSubs : List String → PublishingRuntime → Except (Raised String) PublishingRuntime
  | [], s => .ok s
  | table :: tables, s =>
    match s.policySubData (subKey table) with
    | none => onNoSubs tables s
    | some trig => do
      let registry ← s.triggerRegistry.unregister trig
      onNoSubs tables { s with
        triggerRegistry := registry
        policySubData := Function.update s.policySubData (subKey table) none }

end PublishingRuntime

/-- The node, with the policy engine, which is the service `serviceId`; the subscribers are given by
publisher and table, and the subscribed tables of each peer by publisher. -/
structure DseNode where
  serviceId : String
  engine : PublishingRuntime
  subscriptions : AList fun _ : String => AList fun _ : String => Finset String
  peers : AList fun _ : String => AList fun _ : String => Finset String

namespace DseNode

def init (serviceId : String) : DseNode :=
  ⟨serviceId, ⟨.empty .empty, fun _ => none, ∅⟩, ∅, ∅⟩

/-- `subscribe_table`. -/
def subscribeTable (n : DseNode) (subscriber publisher table : String) : DseNode :=
  let tables := (n.subscriptions.lookup publisher).getD ∅
  let subscribers := (tables.lookup table).getD ∅
  { n with subscriptions :=
      n.subscriptions.insert publisher (tables.insert table (insert subscriber subscribers)) }

/-- `unsubscribe_table`. -/
def unsubscribeTable (n : DseNode) (subscriber publisher table : String) : DseNode :=
  match n.subscriptions.lookup publisher with
  | none => n
  | some tables =>
    match tables.lookup table with
    | none => n
    | some subscribers =>
      let subscribers := subscribers.erase subscriber
      let tables := if subscribers = ∅ then tables.erase table else tables.insert table subscribers
      { n with subscriptions :=
          if tables.keys = [] then n.subscriptions.erase publisher
          else n.subscriptions.insert publisher tables }

/-- The tables of the engine that have a subscriber on this node or on a peer. -/
def tablesWithSubs (n : DseNode) : Finset String :=
  ((n.subscriptions.lookup n.serviceId).getD ∅).keys.toFinset
    ∪ n.peers.entries.foldl (fun tables peer => tables ∪ (peer.2.lookup n.serviceId).getD ∅) ∅

/-- `_update_tables_with_subscriber`, for the engine. -/
def updateTablesWithSubscriber (n : DseNode) (order : SetOrder String) :
    Except (Raised String) DseNode := do
  let withSubs := n.tablesWithSubs
  let published := n.engine.publishedTablesWithSubscriber
  let engine ← n.engine.onFirstSubs (order.toList (withSubs \ published))
  let engine ← engine.onNoSubs (order.toList (published \ withSubs))
  pure { n with engine := { engine with publishedTablesWithSubscriber := withSubs } }

end DseNode

/-- What happens at a node; a change of the policies may change the dependency graph, whose edges lead
to its nodes. -/
inductive NodeOp
  | subscribe (subscriber publisher table : String)
  | unsubscribe (subscriber publisher table : String)
  | heartbeat (peer : String) (subscribedTables : AList fun _ : String => Finset String)
  | updateDependencies (graph : Graph String Bool) (closed : ∀ v, ∀ x ∈ graph.out v, x.1 ∈ graph.nodes)
  | updateTables (order : SetOrder String)

def DseNode.step (n : DseNode) : NodeOp → Except (Raised String) DseNode
  | .subscribe subscriber publisher table => .ok (n.subscribeTable subscriber publisher table)
  | .unsubscribe subscriber publisher table => .ok (n.unsubscribeTable subscriber publisher table)
  | .heartbeat peer tables => .ok { n with peers := n.peers.insert peer tables }
  | .updateDependencies graph _ => do
    let registry ← n.engine.triggerRegistry.updateDependencies graph
    pure { n with engine := { n.engine with triggerRegistry := registry } }
  | .updateTables order => n.updateTablesWithSubscriber order

end Congress
