import Mathlib.Data.Multiset.UnionInter
import Congress.Graph
import Congress.Syntax

/-!
# Rule dependency graphs

A `RuleDependencyGraph` is a bag graph of table names, to which the nodes and edges of each formula
are added, together with an index of the tables in heads under a modal. The index's inner
dictionaries are objects: adding one index to another makes the two share those that the other one
lacks.
-/

namespace Congress

set_option linter.unusedSectionVars false

variable {V : Type*} [DecidableEq V]

/-- The inner dictionaries of each modal by their number, each as the bag of its tables. -/
structure ModalHeap where
  dicts : String → ℕ → Multiset String
  fresh : ℕ

/-- For each modal that is there the number of its dictionary. -/
abbrev ModalIndex := String → Option ℕ

namespace ModalHeap

/-- An index of its own with the given tables. -/
def alloc (h : ModalHeap) (tables : String → Multiset String) : ModalHeap × ModalIndex :=
  (⟨fun m => Function.update (h.dicts m) h.fresh (tables m), h.fresh + 1⟩,
    fun m => if tables m = 0 then none else some h.fresh)

/-- `tables`. -/
def tables (h : ModalHeap) (index : ModalIndex) (modal : String) : Multiset String :=
  match index modal with
  | none => 0
  | some i => h.dicts modal i

/-- `__iadd__`: a dictionary that `index` lacks is taken over from `other`. -/
def iadd (h : ModalHeap) (index other : ModalIndex) : ModalHeap × ModalIndex :=
  ({ h with dicts := fun m =>
      match index m, other m with
      | some i, some j => Function.update (h.dicts m) i (h.dicts m i + h.dicts m j)
      | _, _ => h.dicts m },
    fun m => (index m).or (other m))

/-- `__isub__`: a dictionary that gets empty is dropped from `index`. -/
def isub (h : ModalHeap) (index other : ModalIndex) : ModalHeap × ModalIndex :=
  ({ h with dicts := fun m =>
      match index m, other m with
      | some i, some j => Function.update (h.dicts m) i (h.dicts m i - h.dicts m j)
      | _, _ => h.dicts m },
    fun m =>
      match index m, other m with
      | some i, some j =>
        if h.dicts m i ∩ h.dicts m j ≠ 0 ∧ h.dicts m i - h.dicts m j = 0 then none else some i
      | i, _ => i)

end ModalHeap

/-- What `formula_nodes_edges` returns. -/
structure NodesEdges where
  nodes : List String
  edges : List (String × String × Bool)
  modals : String → Multiset String

/-- An entry of the list of changes. -/
inductive Change
  | node (n : String) (insert : Bool)
  | edge (src dst : String) (label insert : Bool)
  | modal (modals : ModalIndex) (insert : Bool)

/-- Which formulas contribute, and which of their literals. -/
structure Selection (V : Type*) where
  includeAtoms : Bool
  selectHead : Literal V → Bool
  selectBody : Literal V → Bool

/-- The graph; whether its edges lead from the head to the body is fixed when it is made. -/
structure RuleDependencyGraph where
  bag : BagGraph String Bool
  modalIndex : ModalIndex
  heap : ModalHeap
  headToBody : Bool

namespace RuleDependencyGraph

def init (headToBody : Bool) : RuleDependencyGraph :=
  ⟨.empty, fun _ => none, ⟨fun _ _ => 0, 0⟩, headToBody⟩

/-- `formula_nodes_edges`; an atom that is written as a rule has no attribute `table`. -/
def formulaNodesEdges (headToBody : Bool) (sel : Selection V) (formula : Formula V)
    (theory : Option String) : Option NodesEdges :=
  let modals (heads : List (Literal V)) (m : String) : Multiset String :=
    (heads.filter (·.table.modal = some m)).map (·.table.globalTablename theory)
  if formula.isAtomLike then
    if sel.includeAtoms then
      match formula with
      | .atom l => some ⟨[l.table.globalTablename theory], [], modals [l]⟩
      | .rule _ => none
    else some ⟨[], [], fun _ => 0⟩
  else
    let heads := formula.heads.filter sel.selectHead
    let body := formula.body.filter sel.selectBody
    let edge (head lit : Literal V) : String × String × Bool :=
      if headToBody then
        (head.table.globalTablename theory, lit.tablename theory, lit.negated)
      else (lit.tablename theory, head.table.globalTablename theory, lit.negated)
    some ⟨(heads.flatMap fun head => head.table.globalTablename theory
        :: body.map (·.tablename theory)).dedup,
      (heads.flatMap fun head => body.map (edge head)).dedup, modals heads⟩

/-- The changes to the graph by an event, and their list. -/
def applyEvent (g : RuleDependencyGraph) (ne : NodesEdges) (insert : Bool) :
    RuleDependencyGraph × List Change :=
  let (heap, modals) := g.heap.alloc ne.modals
  if insert then
    let bag := ne.nodes.foldl .addNode g.bag
    let bag := ne.edges.foldl (fun b (src, dst, label) => b.addEdge src dst label) bag
    let (heap, modalIndex) := heap.iadd g.modalIndex modals
    ({ g with bag := bag, modalIndex := modalIndex, heap := heap },
      ne.nodes.map (.node · true) ++ ne.edges.map (fun (src, dst, label) => .edge src dst label true)
        ++ [.modal modals true])
  else
    let bag := ne.nodes.foldl .deleteNode g.bag
    let bag := ne.edges.foldl (fun b (src, dst, label) => b.deleteEdge src dst label) bag
    let (heap, modalIndex) := heap.isub g.modalIndex modals
    ({ g with bag := bag, modalIndex := modalIndex, heap := heap },
      ne.nodes.map (.node · false)
        ++ ne.edges.map (fun (src, dst, label) => .edge src dst label false)
        ++ [.modal modals false])

/-- `formula_update`: the graph after it, and the changes unless an `AttributeError` is raised. -/
def formulaUpdate (sel : Selection V) :
    RuleDependencyGraph → List (Event V) → RuleDependencyGraph × Option (List Change)
  | g, [] => (g, some [])
  | g, e :: events =>
    match formulaNodesEdges g.headToBody sel e.formula e.target with
    | none => (g, none)
    | some ne =>
      let (g, changes) := g.applyEvent ne e.insert
      let (g, changes') := formulaUpdate sel g events
      (g, changes'.map (changes ++ ·))

/-- One step of `undo_changes`. -/
def undoChange (g : RuleDependencyGraph) : Change → RuleDependencyGraph
  | .node n true => { g with bag := g.bag.deleteNode n }
  | .node n false => { g with bag := g.bag.addNode n }
  | .edge src dst label true => { g with bag := g.bag.deleteEdge src dst label }
  | .edge src dst label false => { g with bag := g.bag.addEdge src dst label }
  | .modal modals true =>
    let (heap, modalIndex) := g.heap.isub g.modalIndex modals
    { g with modalIndex := modalIndex, heap := heap }
  | .modal modals false =>
    let (heap, modalIndex) := g.heap.iadd g.modalIndex modals
    { g with modalIndex := modalIndex, heap := heap }

def undoChanges (g : RuleDependencyGraph) (changes : List Change) : RuleDependencyGraph :=
  changes.foldl undoChange g

end RuleDependencyGraph

/-- What is done with a rule dependency graph; `formula_insert` and `formula_delete` are updates
with one event. -/
inductive RuleGraphOp (V : Type*)
  | formulaUpdate (sel : Selection V) (events : List (Event V))
  | undoChanges (changes : List Change)
  | inherited (o : GraphOp String Bool)

def RuleDependencyGraph.step (g : RuleDependencyGraph) : RuleGraphOp V → RuleDependencyGraph
  | .formulaUpdate sel events => (formulaUpdate sel g events).1
  | .undoChanges changes => g.undoChanges changes
  | .inherited o => { g with bag := g.bag.step o }

end Congress
