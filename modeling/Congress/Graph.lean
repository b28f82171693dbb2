import Mathlib.Data.Finset.Basic
import Mathlib.Data.List.Nodup

/-!
# Graphs

`Graph` with its cached cycles and its depth first search, and `BagGraph`, which counts how often
each node and edge was inserted. Dictionaries keep the order of insertion, and so do sets here. Of
what the search records for a node only whether it has begun is read.
-/

namespace Congress

/-- What a call can raise; a search that is not given enough fuel would run out of it, which does
not happen (`dfs_spec`). -/
inductive Raised (N : Type*)
  | keyError (node : N)
  | outOfFuel
  deriving DecidableEq

/-- A cycle as the list of its nodes; as a set it is that of its edges. -/
structure Cycle (N : Type*) where
  listRepr : List N
  deriving DecidableEq

set_option linter.unusedSectionVars false

variable {N L : Type*} [DecidableEq N] [DecidableEq L]

def Cycle.edges (c : Cycle N) : Finset (N × N) := (c.listRepr.zip c.listRepr.tail).toFinset

/-- `set.add`. -/
def addTo {α : Type*} [DecidableEq α] (l : List α) (a : α) : List α := if a ∈ l then l else l ++ [a]

/-- `set.add` for cycles: an equal one stays. -/
def addCycle (cycles : List (Cycle N)) (c : Cycle N) : List (Cycle N) :=
  if cycles.any (·.edges = c.edges) then cycles else cycles ++ [c]

/-- The nodes, for each node with outgoing edges their targets and labels, and the cycles if they
are known. Only nodes have outgoing edges. -/
structure Graph (N L : Type*) where
  nodes : List N
  edges : N → Option (List (N × L))
  cycles : Option (List (Cycle N))
  nodup : nodes.Nodup
  keys : ∀ v, edges v ≠ none → v ∈ nodes

namespace Graph

def empty : Graph N L := ⟨[], fun _ => none, none, .nil, by simp⟩

/-- `self.edges[node]`, if there are any. -/
def out (g : Graph N L) (v : N) : List (N × L) := (g.edges v).getD []

/-- `self._cycles = cycles`. -/
def setCycles (g : Graph N L) (cycles : Option (List (Cycle N))) : Graph N L :=
  { g with cycles := cycles }

def addNode (g : Graph N L) (v : N) : Graph N L :=
  if h : v ∈ g.nodes then g
  else
    { g with
      nodes := g.nodes ++ [v]
      nodup := g.nodup.append (List.nodup_singleton v) (List.disjoint_singleton.2 h)
      keys := fun u hu => List.mem_append_left _ (g.keys u hu) }

/-- `delete_node`; that a value which is no node has no edges is asserted, and is `keys`. -/
def deleteNode (g : Graph N L) (v : N) : Graph N L :=
  { g with
    nodes := g.nodes.erase v
    edges := Function.update g.edges v none
    nodup := g.nodup.erase v
    keys := fun u hu => by
      by_cases h : u = v
      · simp [h] at hu
      · rw [Function.update_of_ne h] at hu
        exact (List.mem_erase_of_ne h).2 (g.keys u hu) }

theorem mem_addNode {g : Graph N L} {u v : N} : u ∈ (g.addNode v).nodes ↔ u ∈ g.nodes ∨ u = v := by
  unfold addNode
  split_ifs with h
  · exact ⟨.inl, fun hu => hu.elim id fun hu => hu ▸ h⟩
  · simp

/-- The last part of `add_edge`, when its endpoints are nodes. -/
def insertEdge (g : Graph N L) (v₁ v₂ : N) (label : L) (h : v₁ ∈ g.nodes) : Graph N L :=
  { g with
    edges := Function.update g.edges v₁ (some (addTo (g.out v₁) (v₂, label)))
    keys := fun u hu => by
      by_cases hv : u = v₁
      · exact hv ▸ h
      · rw [Function.update_of_ne hv] at hu
        exact g.keys u hu }

def addEdge (g : Graph N L) (v₁ v₂ : N) (label : L) : Graph N L :=
  (((g.setCycles none).addNode v₁).addNode v₂).insertEdge v₁ v₂ label
    (mem_addNode.2 (.inl (mem_addNode.2 (.inr rfl))))

def deleteEdge (g : Graph N L) (v₁ v₂ : N) (label : L) : Graph N L :=
  if h : (v₂, label) ∈ g.out v₁ then
    { g with
      edges := Function.update g.edges v₁ (some ((g.out v₁).filter (· ≠ (v₂, label))))
      cycles := none
      keys := fun u hu => by
        by_cases hv : u = v₁
        · subst hv
          exact g.keys u fun h0 => by simp [out, h0] at h
        · rw [Function.update_of_ne hv] at hu
          exact g.keys u hu }
  else g

def nodeIn (g : Graph N L) (v : N) : Bool := v ∈ g.nodes

def edgeIn (g : Graph N L) (v₁ v₂ : N) (label : L) : Bool := (v₂, label) ∈ g.out v₁

/-! ## Searching -/

/-- What a search records: the nodes at which it has begun, and the paths to its target. -/
structure DfsData (N : Type*) where
  begun : List N
  targetPaths : List (List N)

/-- `_reset_dfs_data`. -/
def DfsData.reset : DfsData N := ⟨[], []⟩

/-- `dfs`: a path that leads on from somewhere to the target is recorded, and the search goes on from
the node if it has not begun there before. -/
def dfs (g : Graph N L) (target : Option N) : ℕ → N → List N → DfsData N →
    Except (Raised N) (DfsData N)
  | 0, _, _, _ => .error .outOfFuel
  | fuel + 1, node, dfsStack, d =>
    let dfsStack := dfsStack ++ [node]
    let d := if target = some node ∧ 1 < dfsStack.length then
      { d with targetPaths := d.targetPaths ++ [dfsStack] } else d
    if node ∉ g.nodes then .error (.keyError node)
    else if node ∈ d.begun then .ok d
    else ((g.out node).map Prod.fst).foldlM (fun d v => g.dfs target fuel v dfsStack d)
      { d with begun := d.begun ++ [node] }

/-- The fuel of a search: each nested call begins at another node. -/
def dfsFuel (g : Graph N L) : ℕ := g.nodes.length + 1

/-- The nodes at which a search from `roots` begins. -/
def depthFirstSearch (g : Graph N L) (roots : List N) : Except (Raised N) (DfsData N) :=
  roots.foldlM (fun d v =>
    if v ∈ g.nodes ∧ v ∉ d.begun then g.dfs none g.dfsFuel v [] d else .ok d) .reset

/-- `_enumerate_cycles` from the nodes left: the cycles found, and what is raised in the end. -/
def enumerateCycles (g : Graph N L) : List N → List (Cycle N) →
    List (Cycle N) × Except (Raised N) Unit
  | [], cycles => (cycles, .ok ())
  | node :: nodes, cycles =>
    match g.dfs (some node) g.dfsFuel node [] .reset with
    | .error e => (cycles, .error e)
    | .ok d => g.enumerateCycles nodes ((d.targetPaths.map Cycle.mk).foldl addCycle cycles)

/-- The graph with its cycles computed if they were not known, what is raised in computing them,
and the cycles. -/
def knowCycles (g : Graph N L) : Graph N L × Except (Raised N) (List (Cycle N)) :=
  match g.cycles with
  | some cycles => (g, .ok cycles)
  | none =>
    let (cycles, r) := g.enumerateCycles g.nodes []
    (g.setCycles (some cycles), r.map fun _ => cycles)

/-- `has_cycle`: the graph after it, and its answer. -/
def hasCycle (g : Graph N L) : Graph N L × Except (Raised N) Bool :=
  let (g, r) := g.knowCycles
  (g, r.map (0 < ·.length))

/-- `cycles`: the graph after it, and its answer. -/
def cyclesList (g : Graph N L) : Graph N L × Except (Raised N) (List (List N)) :=
  let (g, r) := g.knowCycles
  (g, r.map (·.map Cycle.listRepr))

/-- `dependencies`: every search resets the known cycles. -/
def dependencies (g : Graph N L) (node : N) :
    Graph N L × Except (Raised N) (Option (List N)) :=
  if node ∉ g.nodes then (g, .ok none)
  else (g.setCycles (some []),
    (g.depthFirstSearch [node]).map fun d => some (g.nodes.filter (· ∈ d.begun)))

def findReachableNodes (g : Graph N L) (roots : List N) :
    Graph N L × Except (Raised N) (List N) :=
  if roots.length = 0 then (g, .ok [])
  else (g.setCycles (some []), (g.depthFirstSearch roots).map fun d => g.nodes.filter (· ∈ d.begun))

/-- `_inverted_edge_graph`; the edges lose their labels. An edge to a value that is no node is left
out: no search from a node gets there. -/
def invertedEdgeGraph (g : Graph N L) : Graph N Unit where
  nodes := g.nodes
  edges v := if v ∈ g.nodes then
    some ((g.nodes.filter fun u => v ∈ (g.out u).map Prod.fst).map fun u => (u, ())) else none
  cycles := none
  nodup := g.nodup
  keys v h := by
    by_contra hv
    simp [hv] at h

/-- `find_dependent_nodes`, which searches the inverted graph and leaves the graph as it is. -/
def findDependentNodes (g : Graph N L) (nodes : List N) : Except (Raised N) (List N) :=
  (g.invertedEdgeGraph.findReachableNodes nodes).2.map fun found => (found ++ nodes).dedup

end Graph

/-- What is done with a graph. -/
inductive GraphOp (N L : Type*)
  | addNode (v : N)
  | deleteNode (v : N)
  | addEdge (v₁ v₂ : N) (label : L)
  | deleteEdge (v₁ v₂ : N) (label : L)
  | hasCycle
  | cycles
  | dependencies (node : N)
  | findReachableNodes (roots : List N)
  | findDependentNodes (nodes : List N)

def Graph.step (g : Graph N L) : GraphOp N L → Graph N L
  | .addNode v => g.addNode v
  | .deleteNode v => g.deleteNode v
  | .addEdge v₁ v₂ label => g.addEdge v₁ v₂ label
  | .deleteEdge v₁ v₂ label => g.deleteEdge v₁ v₂ label
  | .hasCycle => g.hasCycle.1
  | .cycles => g.cyclesList.1
  | .dependencies node => (g.dependencies node).1
  | .findReachableNodes roots => (g.findReachableNodes roots).1
  | .findDependentNodes _ => g

/-! ## Bag graphs -/

/-- A graph that counts its nodes and edges; a value that is not in the dictionary of counts counts
`0`. -/
structure BagGraph (N L : Type*) where
  graph : Graph N L
  nodeRefcounts : N → ℕ
  edgeRefcounts : N × N × L → ℕ

namespace BagGraph

def empty : BagGraph N L := ⟨.empty, fun _ => 0, fun _ => 0⟩

def addNode (b : BagGraph N L) (v : N) : BagGraph N L :=
  { b with
    graph := b.graph.addNode v
    nodeRefcounts := Function.update b.nodeRefcounts v (b.nodeRefcounts v + 1) }

def deleteNode (b : BagGraph N L) (v : N) : BagGraph N L :=
  if b.nodeRefcounts v = 0 then b
  else
    { b with
      graph := if b.nodeRefcounts v = 1 then b.graph.deleteNode v else b.graph
      nodeRefcounts := Function.update b.nodeRefcounts v (b.nodeRefcounts v - 1) }

def addEdge (b : BagGraph N L) (v₁ v₂ : N) (label : L) : BagGraph N L :=
  let b' := ({ b with graph := b.graph.setCycles none }.addNode v₁).addNode v₂
  { b' with
    graph := b'.graph.insertEdge v₁ v₂ label
      (Graph.mem_addNode.2 (.inl (Graph.mem_addNode.2 (.inr rfl))))
    edgeRefcounts := Function.update b.edgeRefcounts (v₁, v₂, label)
      (b.edgeRefcounts (v₁, v₂, label) + 1) }

def deleteEdge (b : BagGraph N L) (v₁ v₂ : N) (label : L) : BagGraph N L :=
  let edge := (v₁, v₂, label)
  if b.edgeRefcounts edge = 0 then b
  else
    let b' := (b.deleteNode v₁).deleteNode v₂
    { b' with
      graph := if b.edgeRefcounts edge = 1 then b'.graph.deleteEdge v₁ v₂ label else b'.graph
      edgeRefcounts := Function.update b.edgeRefcounts edge (b.edgeRefcounts edge - 1) }

def nodeIn (b : BagGraph N L) (v : N) : Bool := b.nodeRefcounts v ≠ 0

def edgeIn (b : BagGraph N L) (v₁ v₂ : N) (label : L) : Bool :=
  b.edgeRefcounts (v₁, v₂, label) ≠ 0

def nodeCount (b : BagGraph N L) (v : N) : ℕ := b.nodeRefcounts v

def edgeCount (b : BagGraph N L) (v₁ v₂ : N) (label : L) : ℕ := b.edgeRefcounts (v₁, v₂, label)

/-- The queries are inherited. -/
def step (b : BagGraph N L) : GraphOp N L → BagGraph N L
  | .addNode v => b.addNode v
  | .deleteNode v => b.deleteNode v
  | .addEdge v₁ v₂ label => b.addEdge v₁ v₂ label
  | .deleteEdge v₁ v₂ label => b.deleteEdge v₁ v₂ label
  | .hasCycle => { b with graph := b.graph.hasCycle.1 }
  | .cycles => { b with graph := b.graph.cyclesList.1 }
  | .dependencies node => { b with graph := (b.graph.dependencies node).1 }
  | .findReachableNodes roots => { b with graph := (b.graph.findReachableNodes roots).1 }
  | .findDependentNodes _ => b

end BagGraph

end Congress
