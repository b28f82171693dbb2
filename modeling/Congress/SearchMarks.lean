import Mathlib.Logic.Function.Basic
import Congress.Graph

/-!
# Marks of a search

The searches of a graph keep marks in its dictionary of nodes: when a search came to a node and when it left
it. A graph and its inverted copy share this dictionary, and what a search leaves there is still there when
the next one begins.
-/

namespace Congress

variable {N L : Type} [DecidableEq N] [DecidableEq L]

/-- `dfs_data`: the counter when a search came to a node, and when it left it. -/
structure DfsObj where
  begun : Option ℕ
  ended : Option ℕ

/-- What a search can raise. -/
inductive SearchError (N : Type)
  | keyError (node : N)
  -- a node has no marks
  | attributeError
  | outOfFuel
  deriving DecidableEq

/-- The marks of the nodes, and the counter. -/
structure Marks (N : Type) where
  info : N → Option DfsObj
  counter : ℕ

/-- A graph with the marks in its dictionary of nodes. -/
structure MarkedGraph (N L : Type) where
  graph : Graph N L
  info : N → Option DfsObj

/-- `_reset_dfs_data`. -/
def Marks.reset : Marks N := ⟨fun _ => some ⟨none, none⟩, 0⟩

/-- `self.nodes[node].begin = self.next_counter()`. -/
def Marks.enter (m : Marks N) (node : N) (obj : DfsObj) : Marks N :=
  ⟨Function.update m.info node (some { obj with begun := some m.counter }), m.counter + 1⟩

/-- `self.nodes[node].end = self.next_counter()`. -/
def Marks.leave (m : Marks N) (node : N) : Except (SearchError N) (Marks N) :=
  match m.info node with
  | none => .error .attributeError
  | some obj => .ok ⟨Function.update m.info node (some { obj with ended := some m.counter }), m.counter + 1⟩

/-- `self.nodes[node].begin is not None`. -/
def hasBegun (info : N → Option DfsObj) (node : N) : Except (SearchError N) Bool :=
  match info node with
  | none => .error .attributeError
  | some obj => .ok obj.begun.isSome

namespace Graph

/-- `dfs` without a target. -/
def mark (g : Graph N L) : ℕ → N → Marks N → Except (SearchError N) (Marks N)
  | 0, _, _ => .error .outOfFuel
  | fuel + 1, node, m =>
    if node ∉ g.nodes then .error (.keyError node)
    else
      match m.info node with
      | none => .error .attributeError
      | some obj =>
        if obj.begun.isSome then .ok m
        else do
          let m ← ((g.out node).map Prod.fst).foldlM (fun m v => g.mark fuel v m) (m.enter node obj)
          m.leave node

/-- The loop of `depth_first_search`. -/
def markAll (g : Graph N L) : List N → Marks N → Except (SearchError N) (Marks N)
  | [], m => .ok m
  | node :: roots, m =>
    if node ∈ g.nodes then do
      if ← hasBegun m.info node then g.markAll roots m
      else
        let m ← g.mark g.dfsFuel node m
        g.markAll roots m
    else g.markAll roots m

/-- The nodes at which a search has begun. -/
def markedNodes (info : N → Option DfsObj) : List N → Except (SearchError N) (List N)
  | [] => .ok []
  | node :: nodes => do
    let b ← hasBegun info node
    let rest ← markedNodes info nodes
    pure (if b then node :: rest else rest)

end Graph

namespace MarkedGraph

/-- `dependencies`; `reset` has made all marks new before they are looked at. -/
def dependencies (m : MarkedGraph N L) (node : N) :
    Except (SearchError N) (MarkedGraph N L × Option (List N)) :=
  if node ∉ m.graph.nodes then .ok (m, none)
  else do
    let marks ← m.graph.markAll [node] .reset
    let found ← Graph.markedNodes marks.info m.graph.nodes
    pure (⟨m.graph.setCycles (some []), marks.info⟩, some found)

/-- `find_reachable_nodes`, which removes the marks in the end. -/
def findReachableNodes (m : MarkedGraph N L) (roots : List N) :
    Except (SearchError N) (MarkedGraph N L × List N) :=
  if roots.length = 0 then .ok (m, [])
  else do
    let marks ← m.graph.markAll roots .reset
    let found ← Graph.markedNodes marks.info m.graph.nodes
    pure (⟨m.graph.setCycles (some []), fun _ => none⟩, found)

/-- `_inverted_edge_graph`, which has the same dictionary of nodes. -/
def invertedEdgeGraph (m : MarkedGraph N L) : MarkedGraph N Unit := ⟨m.graph.invertedEdgeGraph, m.info⟩

/-- `find_dependent_nodes`. -/
def findDependentNodes (m : MarkedGraph N L) (nodes : List N) :
    Except (SearchError N) (MarkedGraph N L × List N) := do
  let (inverted, found) ← m.invertedEdgeGraph.findReachableNodes nodes
  pure ({ m with info := inverted.info }, (found ++ nodes).dedup)

end MarkedGraph

/-- The queries about reachability. -/
inductive SearchQuery (N : Type)
  | dependencies (node : N)
  | findReachableNodes (roots : List N)
  | findDependentNodes (nodes : List N)

/-- The answer to a query, and the graph after it. -/
def SearchQuery.run (m : MarkedGraph N L) :
    SearchQuery N → Except (SearchError N) (MarkedGraph N L × Option (List N))
  | .dependencies node => m.dependencies node
  | .findReachableNodes roots => do
    let (m, found) ← m.findReachableNodes roots
    pure (m, some found)
  | .findDependentNodes nodes => do
    let (m, found) ← m.findDependentNodes nodes
    pure (m, some found)

/-- Queries one after another. -/
def SearchQuery.runAll (m : MarkedGraph N L) :
    List (SearchQuery N) → Except (SearchError N) (MarkedGraph N L × List (Option (List N)))
  | [] => .ok (m, [])
  | query :: queries => do
    let (m, answer) ← query.run m
    let (m, answers) ← runAll m queries
    pure (m, answer :: answers)

end Congress
