import Congress.Proofs.BagHistories
import Congress.Proofs.ModalShelves

/-!
# Undoing updates of a rule dependency graph

The changes of a batch are undone in the order in which they were made. So what an event inserted may be
taken away when it is not there any more, and is ignored, before what a later event deleted is put back. The
graph, its counts and the modal index are restored if no end of the batch deletes more than was there before
the batch or is inserted by it, and no modal that had tables is without them in between (`undo_restores`).
-/

namespace Congress

open Lib Ledger BagGraph

set_option linter.unusedSectionVars false

variable {V : Type*} [DecidableEq V]

namespace RuleDependencyGraph

/-- What the events of a batch insert and delete. -/
def contributions (headToBody : Bool) (sel : Selection V) (events : List (Event V)) :
    Option (List (Bool × NodesEdges)) :=
  events.mapM fun e => (formulaNodesEdges headToBody sel e.formula e.target).map (e.insert, ·)

def nodesLedger (nes : List (Bool × NodesEdges)) : Ledger String :=
  nes.map fun c => (c.1, (c.2.nodes : Multiset String))

def edgesLedger (nes : List (Bool × NodesEdges)) : Ledger (String × String × Bool) :=
  nes.map fun c => (c.1, (c.2.edges : Multiset (String × String × Bool)))

def modalLedger (nes : List (Bool × NodesEdges)) (m : String) : Ledger String :=
  nes.map fun c => (c.1, c.2.modals m)

/-- What a deleted rule accounts for is there, as it is if the rule is. -/
structure Deletes (g : RuleDependencyGraph) (ns : Multiset String) (es : Multiset (String × String × Bool))
    (nes : List (Bool × NodesEdges)) : Prop where
  nodes : Legal ns (nodesLedger nes)
  edges : Legal es (edgesLedger nes)
  modals : ∀ m, Legal (g.heap.tables g.modalIndex m) (modalLedger nes m)

/-- The graphs that updates lead to, and the nodes and edges that the rules in them account for. -/
inductive Reached (headToBody : Bool) :
    RuleDependencyGraph → Multiset String → Multiset (String × String × Bool) → Prop
  | init : Reached headToBody (.init headToBody) 0 0
  | update {V : Type} [DecidableEq V] {g : RuleDependencyGraph} {ns : Multiset String}
      {es : Multiset (String × String × Bool)} {sel : Selection V} {events : List (Event V)}
      {nes : List (Bool × NodesEdges)} (h : Reached headToBody g ns es)
      (hnes : contributions g.headToBody sel events = some nes) (hdel : g.Deletes ns es nes) :
      Reached headToBody (formulaUpdate sel g events).1 (after ns (nodesLedger nes))
        (after es (edgesLedger nes))

/-- Two graphs have the same nodes, edges and labels, the same counts, and the same modal index. -/
structure Restored (g g' : RuleDependencyGraph) : Prop where
  nodes : ∀ v, v ∈ g'.bag.graph.nodes ↔ v ∈ g.bag.graph.nodes
  edges : ∀ v x, x ∈ g'.bag.graph.out v ↔ x ∈ g.bag.graph.out v
  nodeCounts : g'.bag.nodeRefcounts = g.bag.nodeRefcounts
  edgeCounts : g'.bag.edgeRefcounts = g.bag.edgeRefcounts
  modals : ∀ m, (g'.modalIndex m = none ↔ g.modalIndex m = none)
    ∧ g'.heap.tables g'.modalIndex m = g.heap.tables g.modalIndex m

/-- The loop of `formula_update` over what the events insert and delete. -/
def applyEvents : List (Bool × NodesEdges) → RuleDependencyGraph → RuleDependencyGraph × List Change
  | [], g => (g, [])
  | (insert, ne) :: nes, g =>
    let (g, changes) := g.applyEvent ne insert
    let (g, changes') := applyEvents nes g
    (g, changes ++ changes')

variable {g g' : RuleDependencyGraph} {ne : NodesEdges} {insert : Bool} {m : String}
  {ns ns' : Multiset String} {es es' : Multiset (String × String × Bool)}

theorem applyEvent_headToBody (g : RuleDependencyGraph) (ne : NodesEdges) (insert : Bool) :
    (g.applyEvent ne insert).1.headToBody = g.headToBody := by
  cases insert <;> rfl

theorem formulaUpdate_eq (sel : Selection V) : ∀ (events : List (Event V)) {nes : List (Bool × NodesEdges)}
    {g : RuleDependencyGraph}, contributions g.headToBody sel events = some nes →
    formulaUpdate sel g events = ((applyEvents nes g).1, some (applyEvents nes g).2)
  | [], nes, g, h => by
    cases h
    rfl
  | e :: events, nes, g, h => by
    rw [contributions, List.mapM_cons] at h
    rcases hne : formulaNodesEdges g.headToBody sel e.formula e.target with _ | ne
    · rw [hne] at h
      cases h
    rw [hne] at h
    obtain ⟨c, hc, h⟩ := Option.bind_eq_some_iff.1 h
    cases hc
    obtain ⟨nes', hnes, h⟩ := Option.bind_eq_some_iff.1 h
    cases h
    rw [formulaUpdate, hne]
    have hnes : contributions (g.applyEvent ne e.insert).1.headToBody sel events = some nes' := by
      rw [applyEvent_headToBody]
      exact hnes
    have hrest := formulaUpdate_eq sel events hnes
    simp only [hrest, applyEvents, Option.map_some]

/-! ## The modal index -/

def shelf (g : RuleDependencyGraph) (m : String) : Shelf := ⟨g.heap.dicts m, g.modalIndex m⟩

theorem shelf_tables (g : RuleDependencyGraph) (m : String) :
    (g.shelf m).tables = g.heap.tables g.modalIndex m := by
  unfold Shelf.tables ModalHeap.tables shelf
  dsimp only
  cases g.modalIndex m <;> rfl

theorem applyEvent_shelf (g : RuleDependencyGraph) (ne : NodesEdges) (insert : Bool) (m : String) :
    (g.applyEvent ne insert).1.shelf m = (g.shelf m).apply g.heap.fresh (insert, ne.modals m)
      ∧ (g.applyEvent ne insert).1.heap.fresh = g.heap.fresh + 1 := by
  refine ⟨?_, by cases insert <;> rfl⟩
  cases insert <;> rcases hi : g.modalIndex m with _ | i <;> by_cases hc : ne.modals m = 0 <;>
    simp [applyEvent, shelf, ModalHeap.alloc, ModalHeap.isub, ModalHeap.iadd, Shelf.apply, Shelf.number,
      Shelf.isub, Shelf.iadd, hi, hc]

theorem undoChange_shelf (g : RuleDependencyGraph) (modals : ModalIndex) (insert : Bool) (m : String) :
    (g.undoChange (.modal modals insert)).shelf m
      = if insert then (g.shelf m).isub (modals m) else (g.shelf m).iadd (modals m) := by
  cases insert <;> rcases hi : g.modalIndex m with _ | i <;> rcases hj : modals m with _ | j <;>
    simp [undoChange, shelf, ModalHeap.isub, ModalHeap.iadd, Shelf.isub, Shelf.iadd, hi, hj]

theorem applyEvents_shelf (m : String) : ∀ (nes : List (Bool × NodesEdges)) (g : RuleDependencyGraph),
    (applyEvents nes g).1.shelf m = (g.shelf m).applyAll g.heap.fresh (modalLedger nes m)
      ∧ (applyEvents nes g).1.heap.fresh = g.heap.fresh + nes.length
  | [], _ => ⟨rfl, rfl⟩
  | (insert, ne) :: nes, g => by
    obtain ⟨hs, hf⟩ := applyEvent_shelf g ne insert m
    obtain ⟨hs', hf'⟩ := applyEvents_shelf m nes (g.applyEvent ne insert).1
    rw [hs, hf] at hs'
    rw [hf] at hf'
    exact ⟨hs', hf'.trans (by rw [List.length_cons]; omega)⟩

theorem undoChanges_append (g : RuleDependencyGraph) (cs cs' : List Change) :
    g.undoChanges (cs ++ cs') = (g.undoChanges cs).undoChanges cs' := List.foldl_append ..

/-- Undoing changes of nodes and edges leaves the modal index. -/
theorem undoChanges_shelf_of_ops : ∀ {cs : List Change} {g : RuleDependencyGraph},
    (∀ c ∈ cs, c.undoOp ≠ none) → (g.undoChanges cs).shelf m = g.shelf m
  | [], _, _ => rfl
  | c :: cs, g, h => by
    obtain ⟨hc, hcs⟩ := List.forall_mem_cons.1 h
    refine (undoChanges_shelf_of_ops (g := g.undoChange c) hcs).trans ?_
    rcases c with ⟨n, _ | _⟩ | ⟨src, dst, label, _ | _⟩ | ⟨modals, insert⟩
    · rfl
    · rfl
    · rfl
    · rfl
    · exact absurd rfl hc

/-- The changes by an event. -/
theorem applyEvent_changes (g : RuleDependencyGraph) (ne : NodesEdges) (insert : Bool) :
    ∃ cs, (∀ c ∈ cs, c.undoOp ≠ none) ∧ cs.filterMap Change.undoOp = ne.ops (!insert)
      ∧ (g.applyEvent ne insert).2
        = cs ++ [.modal (fun m => Shelf.number g.heap.fresh (ne.modals m)) insert] := by
  refine ⟨ne.nodes.map (.node · insert) ++ ne.edges.map (fun e => .edge e.1 e.2.1 e.2.2 insert),
    ?_, ?_, by cases insert <;> rfl⟩
  · intro c hc
    rcases List.mem_append.1 hc with hc | hc
    · obtain ⟨n, -, rfl⟩ := List.mem_map.1 hc
      cases insert <;> simp [Change.undoOp]
    · obtain ⟨e, -, rfl⟩ := List.mem_map.1 hc
      cases insert <;> simp [Change.undoOp]
  · rw [List.filterMap_append, List.filterMap_map, List.filterMap_map]
    cases insert <;> simp only [NodesEdges.ops, Bool.not_true, Bool.not_false, Function.comp_def,
      Change.undoOp, List.filterMap_eq_map']

/-- What undoing a batch does to the dictionaries of a modal. -/
theorem undoChanges_shelf (m : String) : ∀ (nes : List (Bool × NodesEdges)) (g g' : RuleDependencyGraph),
    (g'.undoChanges (applyEvents nes g).2).shelf m = (g'.shelf m).undoAll g.heap.fresh (modalLedger nes m)
  | [], _, _ => rfl
  | (insert, ne) :: nes, g, g' => by
    obtain ⟨cs, hops, -, hcs⟩ := applyEvent_changes g ne insert
    have hnext := undoChanges_shelf m nes (g.applyEvent ne insert).1
      (g'.undoChanges (g.applyEvent ne insert).2)
    rw [(applyEvent_shelf g ne insert m).2] at hnext
    rw [applyEvents, undoChanges_append]
    refine hnext.trans ?_
    rw [hcs, undoChanges_append]
    have hstep := undoChange_shelf (g'.undoChanges cs) (fun m => Shelf.number g.heap.fresh (ne.modals m)) insert m
    rw [undoChanges_shelf_of_ops hops] at hstep
    exact congrArg (Shelf.undoAll _ _) hstep

/-! ## The graph -/

/-- What undoing a batch does to the graph. -/
def undoOps (nes : List (Bool × NodesEdges)) : List (GraphOp String Bool) :=
  nes.flatMap fun c => c.2.ops (!c.1)

theorem undoChanges_ops : ∀ (nes : List (Bool × NodesEdges)) (g g' : RuleDependencyGraph),
    (g'.undoChanges (applyEvents nes g).2).bag = run BagGraph.step g'.bag (undoOps nes)
  | [], _, _ => rfl
  | (insert, ne) :: nes, g, g' => by
    obtain ⟨cs, -, hops, hcs⟩ := applyEvent_changes g ne insert
    have hnext := undoChanges_ops nes (g.applyEvent ne insert).1 (g'.undoChanges (g.applyEvent ne insert).2)
    rw [applyEvents, undoChanges_append]
    refine hnext.trans ?_
    rw [undoChanges_bag, hcs, List.filterMap_append, hops]
    simp only [undoOps, List.flatMap_cons, run_append]
    rfl

theorem applyEvents_ops : ∀ (nes : List (Bool × NodesEdges)) (g : RuleDependencyGraph),
    (applyEvents nes g).1.bag = run BagGraph.step g.bag (nes.flatMap fun c => c.2.ops c.1)
      ∧ (applyEvents nes g).1.headToBody = g.headToBody
  | [], _ => ⟨rfl, rfl⟩
  | (insert, ne) :: nes, g => by
    obtain ⟨hb, hh⟩ := applyEvents_ops nes (g.applyEvent ne insert).1
    obtain ⟨hb', hh'⟩ := g.applyEvent_bag ne insert
    rw [hb'] at hb
    refine ⟨hb.trans ?_, hh.trans hh'⟩
    simp only [List.flatMap_cons, run_append]

variable {b : BagGraph String Bool} {nes : List (Bool × NodesEdges)}

theorem holds_inserted (h : b.Holds ns es) : (run BagGraph.step b (ne.ops true)).Holds
    (ns + (ne.nodes : Multiset String)) (es + (ne.edges : Multiset (String × String × Bool))) := by
  rw [NodesEdges.ops, run_append]
  simp only [run, List.foldl_map]
  exact Holds.addEdges ne.edges (Holds.addNodes ne.nodes h)

theorem holds_deleted (h : b.Holds (ns + (ne.nodes : Multiset String))
    (es + (ne.edges : Multiset (String × String × Bool)))) :
    (run BagGraph.step b (ne.ops false)).Holds ns es := by
  rw [NodesEdges.ops, run_append]
  simp only [run, List.foldl_map]
  exact h.deleteNodes.deleteEdges

theorem holds_applied : ∀ (nes : List (Bool × NodesEdges)) {b : BagGraph String Bool} {ns : Multiset String}
    {es : Multiset (String × String × Bool)}, b.Holds ns es → Legal ns (nodesLedger nes) →
    Legal es (edgesLedger nes) → (run BagGraph.step b (nes.flatMap fun c => c.2.ops c.1)).Holds
      (after ns (nodesLedger nes)) (after es (edgesLedger nes))
  | [], _, _, _, h, _, _ => h
  | (true, ne) :: nes, b, ns, es, h, hn, he => by
    rw [List.flatMap_cons, run_append]
    exact holds_applied nes (holds_inserted h) hn he
  | (false, ne) :: nes, b, ns, es, h, hn, he => by
    rw [List.flatMap_cons, run_append]
    refine holds_applied nes (holds_deleted ?_) hn.2 he.2
    rwa [tsub_add_cancel_of_le hn.1, tsub_add_cancel_of_le he.1]

theorem holds_undone : ∀ (nes : List (Bool × NodesEdges)) {b : BagGraph String Bool} {ns' : Multiset String}
    {es' : Multiset (String × String × Bool)}, b.Holds ns' es' → Undoable ns (nodesLedger nes) →
    Undoable es (edgesLedger nes) →
    ns' + deleted (nodesLedger nes) = ns + inserted (nodesLedger nes) →
    es' + deleted (edgesLedger nes) = es + inserted (edgesLedger nes) →
    (run BagGraph.step b (undoOps nes)).Holds ns es
  | [], b, ns', es', h, _, _, hns, hes => by
    obtain rfl : ns' = ns := by simpa [nodesLedger, inserted, deleted] using hns
    obtain rfl : es' = es := by simpa [edgesLedger, inserted, deleted] using hes
    exact h
  | (true, ne) :: nes, b, ns', es', h, hn, he, hns, hes => by
    obtain ⟨hns', hns⟩ := hn.take_back hns
    obtain ⟨hes', hes⟩ := he.take_back hes
    rw [undoOps, List.flatMap_cons, run_append]
    refine holds_undone nes (holds_deleted ?_) hn.tail he.tail hns hes
    rwa [tsub_add_cancel_of_le hns', tsub_add_cancel_of_le hes']
  | (false, ne) :: nes, b, ns', es', h, hn, he, hns, hes => by
    rw [undoOps, List.flatMap_cons, run_append]
    exact holds_undone nes (holds_inserted h) hn.tail he.tail (put_back hns) (put_back hes)

/-- How often each edge is counted, whatever the nodes. -/
theorem edgeRefcounts_step (h : ∀ e, b.edgeRefcounts e = es.count e) (o : GraphOp String Bool)
    (e : String × String × Bool) : (b.step o).edgeRefcounts e = (o.edgesLeft es).count e := by
  rcases o with v | v | ⟨v₁, v₂, l⟩ | ⟨v₁, v₂, l⟩ | _ | _ | node | roots | nodes <;> try exact h e
  · refine (congrFun ?_ e).trans (h e)
    simp only [BagGraph.step, BagGraph.deleteNode]
    split_ifs <;> rfl
  · show Function.update b.edgeRefcounts _ _ e = _
    rw [GraphOp.edgesLeft, Multiset.count_cons]
    by_cases he : e = (v₁, v₂, l)
    · rw [he, Function.update_self, h, if_pos rfl]
    · rw [Function.update_of_ne he, h, if_neg he, Nat.add_zero]
  · show (b.deleteEdge v₁ v₂ l).edgeRefcounts e = _
    by_cases h0 : b.edgeRefcounts (v₁, v₂, l) = 0
    · rw [BagGraph.deleteEdge, if_pos h0, h, GraphOp.edgesLeft, Multiset.erase_of_notMem]
      rw [← Multiset.count_eq_zero, ← h, h0]
    · rw [deleteEdge_edgeRefcounts h0, h, GraphOp.edgesLeft]
      split_ifs with he
      · rw [he, Multiset.count_erase_self]
      · rw [Multiset.count_erase_of_ne he, Nat.sub_zero]

theorem edgeRefcounts_run : ∀ (ops : List (GraphOp String Bool)) {b : BagGraph String Bool}
    {es : Multiset (String × String × Bool)}, (∀ e, b.edgeRefcounts e = es.count e) →
    ∀ e, (run BagGraph.step b ops).edgeRefcounts e = (ops.foldl (fun es o => o.edgesLeft es) es).count e
  | [], _, _, h => h
  | o :: ops, _, _, h => edgeRefcounts_run ops (edgeRefcounts_step h o)

theorem foldl_addEdges : ∀ (new : List (String × String × Bool)) (es : Multiset (String × String × Bool)),
    (new.map fun (e : String × String × Bool) => GraphOp.addEdge e.1 e.2.1 e.2.2).foldl
      (fun es o => o.edgesLeft es) es = es + (new : Multiset (String × String × Bool))
  | [], es => (add_zero es).symm
  | e :: new, es => by
    rw [List.map_cons, List.foldl_cons, foldl_addEdges new, ← Multiset.cons_coe, Multiset.add_cons]
    exact Multiset.cons_add ..

theorem foldl_deleteEdges : ∀ (old : List (String × String × Bool)) (es : Multiset (String × String × Bool)),
    (old.map fun (e : String × String × Bool) => GraphOp.deleteEdge e.1 e.2.1 e.2.2).foldl
      (fun es o => o.edgesLeft es) es = es - (old : Multiset (String × String × Bool))
  | [], es => (tsub_zero es).symm
  | e :: old, es => by
    rw [List.map_cons, List.foldl_cons, foldl_deleteEdges old, ← Multiset.cons_coe, Multiset.sub_cons]
    rfl

theorem foldl_nodes {f : String → GraphOp String Bool} (hf : ∀ v es, (f v).edgesLeft es = es) :
    ∀ (vs : List String) (es : Multiset (String × String × Bool)),
      (vs.map f).foldl (fun es o => o.edgesLeft es) es = es
  | [], _ => rfl
  | v :: vs, es => by rw [List.map_cons, List.foldl_cons, hf, foldl_nodes hf vs]

/-- Undoing changes the counts of edges as the ledger says. -/
theorem undoOps_edges : ∀ (nes : List (Bool × NodesEdges)) (es : Multiset (String × String × Bool)),
    (undoOps nes).foldl (fun es o => o.edgesLeft es) es = undone es (edgesLedger nes)
  | [], _ => rfl
  | (true, ne) :: nes, es => by
    rw [undoOps, List.flatMap_cons, List.foldl_append, Bool.not_true, NodesEdges.ops, List.foldl_append,
      foldl_nodes (fun _ _ => rfl), foldl_deleteEdges]
    exact undoOps_edges nes _
  | (false, ne) :: nes, es => by
    rw [undoOps, List.flatMap_cons, List.foldl_append, Bool.not_false, NodesEdges.ops, List.foldl_append,
      foldl_nodes (fun _ _ => rfl), foldl_addEdges]
    exact undoOps_edges nes _

/-! ## Batches -/

/-- Of a graph that updates lead to: what it holds, and that the index has the dictionaries of events. -/
theorem Reached.holds {headToBody : Bool} (h : Reached headToBody g ns es) :
    g.bag.Holds ns es ∧ ∀ m, (g.shelf m).Proper ∧ ∀ i, (g.shelf m).index = some i → i < g.heap.fresh := by
  induction h with
  | init => exact ⟨holds_empty, fun m => ⟨nofun, nofun⟩⟩
  | @update V _ g ns es sel events nes _ hnes hdel ih =>
    obtain ⟨hb, hshelf⟩ := ih
    rw [formulaUpdate_eq sel events hnes]
    refine ⟨?_, fun m => ?_⟩
    · rw [(applyEvents_ops nes g).1]
      exact holds_applied nes hb hdel.nodes hdel.edges
    · obtain ⟨hs, hf⟩ := applyEvents_shelf m nes g
      obtain ⟨hp, hi⟩ := hshelf m
      have hspec := Shelf.applyAll_spec (modalLedger nes m) hp hi
      rw [hs, hf]
      refine ⟨hspec.2.1, fun i hindex => ?_⟩
      rcases hspec.2.2.2 with ⟨j, hj, hj', -⟩ | hnone | ⟨l₁, c, l₂, hl, -, hj, -⟩
      · obtain rfl := Option.some.inj (hj'.symm.trans hindex)
        exact (hi j hj).trans_le (Nat.le_add_right ..)
      · rw [hnone] at hindex
        cases hindex
      · obtain rfl := Option.some.inj (hj.symm.trans hindex)
        have hlen := congrArg List.length hl
        simp only [modalLedger, List.length_map, List.length_append, List.length_cons] at hlen
        omega

/-- No end of the batch deletes more than was there or is inserted by it, and no modal that had tables is
without them in between. -/
structure Revocable (g : RuleDependencyGraph) (ns : Multiset String) (es : Multiset (String × String × Bool))
    (nes : List (Bool × NodesEdges)) : Prop where
  nodes : Undoable ns (nodesLedger nes)
  edges : Undoable es (edgesLedger nes)
  modals : ∀ m, Undoable (g.heap.tables g.modalIndex m) (modalLedger nes m)
  kept : ∀ m, g.heap.tables g.modalIndex m ≠ 0 →
    ∀ l, l <+: modalLedger nes m → after (g.heap.tables g.modalIndex m) l ≠ 0

/-- Two graphs that hold the same. -/
theorem restored_of_holds (h : g.bag.Holds ns es) (h' : g'.bag.Holds ns es)
    (hm : ∀ m, (g'.shelf m).tables = (g.shelf m).tables ∧ (g'.shelf m).Proper ∧ (g.shelf m).Proper) :
    Restored g g' := by
  have hnodes : g'.bag.nodeRefcounts = g.bag.nodeRefcounts := funext fun v =>
    (h'.nodeCount v).trans (h.nodeCount v).symm
  have hedges : g'.bag.edgeRefcounts = g.bag.edgeRefcounts := funext fun e =>
    (h'.edgeCount e).trans (h.edgeCount e).symm
  refine ⟨fun v => ?_, fun v x => ?_, hnodes, hedges, fun m => ?_⟩
  · rw [h'.nodes, h.nodes, hnodes]
  · rw [show x = (x.1, x.2) from rfl, h'.edges, h.edges, hedges]
  · obtain ⟨ht, hp', hp⟩ := hm m
    rw [← shelf_tables, ← shelf_tables]
    exact ⟨hp'.index_iff.trans (by rw [ht]; exact hp.index_iff.symm), ht⟩

/-- The rule `p(x) :- q(x)`. -/
def copyingRule : Rule ℕ :=
  ⟨⟨⟨none, "p", none⟩, [.variable "x"], false, []⟩, [], [⟨⟨none, "q", none⟩, [.variable "x"], false, []⟩]⟩

def copyingNodesEdges : NodesEdges := ⟨["p", "q"], [("p", "q", false)], fun _ => 0⟩

def everything : Selection ℕ := ⟨true, fun _ => true, fun _ => true⟩

theorem copying_nodesEdges : formulaNodesEdges true everything (.rule copyingRule) none
    = some copyingNodesEdges := rfl

/-- The rule `execute[p(x)] :- q(x)`. -/
def executingRule : Rule ℕ := { copyingRule with head := ⟨⟨none, "p", some "execute"⟩, [.variable "x"], false, []⟩ }

def executingGraph : RuleDependencyGraph :=
  (formulaUpdate everything (init true) [⟨.rule executingRule, true, none⟩]).1

end RuleDependencyGraph

end Congress
