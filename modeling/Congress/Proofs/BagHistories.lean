import Congress.Proofs.Bags
import Congress.Proofs.Reachability

/-!
# Histories of bag graphs

As long as nodes are deleted by themselves no more often than they were inserted, a bag graph holds the
nodes left and the edges left after each operation, where deleting an edge that is not there is no effect
(`holds_step`). So the counts are as they should be, and every search ends (`counts_of_history`).
-/

namespace Congress

open Lib Relation

set_option linter.unusedSectionVars false

variable {N L : Type*} [DecidableEq N] [DecidableEq L]

namespace GraphOp

def insertsNode (v : N) : GraphOp N L → Bool
  | .addNode u => u = v
  | _ => false

def deletesNode (v : N) : GraphOp N L → Bool
  | .deleteNode u => u = v
  | _ => false

/-- The edges left: a deletion has an effect on an edge that is there. -/
def edgesLeft (es : Multiset (N × N × L)) : GraphOp N L → Multiset (N × N × L)
  | .addEdge v₁ v₂ label => (v₁, v₂, label) ::ₘ es
  | .deleteEdge v₁ v₂ label => es.erase (v₁, v₂, label)
  | _ => es

/-- The nodes left of those that were inserted by themselves. -/
def nodesLeft (ns : Multiset N) : GraphOp N L → Multiset N
  | .addNode v => v ::ₘ ns
  | .deleteNode v => ns.erase v
  | _ => ns

/-- No node is deleted that was not inserted by itself. -/
def Deletes (ns : Multiset N) : GraphOp N L → Prop
  | .deleteNode v => v ∈ ns
  | _ => True

end GraphOp

open GraphOp

/-- Up to each point, `delete_node` was called for no node more often than `add_node`. -/
def Balanced (ops : List (GraphOp N L)) : Prop :=
  ∀ before, before <+: ops → ∀ v, before.countP (deletesNode v) ≤ before.countP (insertsNode v)

namespace Graph

variable {g : Graph N L}

theorem knowCycles_nodes (g : Graph N L) : g.knowCycles.1.nodes = g.nodes := by
  unfold knowCycles
  split <;> rfl

theorem knowCycles_edges (g : Graph N L) : g.knowCycles.1.edges = g.edges := by
  unfold knowCycles
  split <;> rfl

/-- Where edges lead to nodes, the cycles can be computed. -/
theorem knowCycles_ok (ht : ∀ v w, g.Edge v w → w ∈ g.nodes) : ∃ cycles, g.knowCycles.2 = .ok cycles := by
  unfold knowCycles
  rcases g.cycles with _ | cs
  · obtain ⟨cs, hok, -⟩ := enumerateCycles_spec ht g.nodes [] fun _ hv => hv
    exact ⟨cs, by simp only [hok]; rfl⟩
  · exact ⟨cs, rfl⟩

/-- No query asks for a node that is missing. -/
structure Searchable (g : Graph N L) : Prop where
  hasCycle : ∃ answer, g.hasCycle.2 = .ok answer
  cycles : ∃ cycles, g.cyclesList.2 = .ok cycles
  depthFirstSearch : ∀ roots, ∃ d, g.depthFirstSearch roots = .ok d
  dependencies : ∀ node, ∃ found, (g.dependencies node).2 = .ok found
  reachable : ∀ roots, ∃ found, (g.findReachableNodes roots).2 = .ok found
  dependent : ∀ nodes, ∃ found, g.findDependentNodes nodes = .ok found

theorem searchable (ht : ∀ v w, g.Edge v w → w ∈ g.nodes) : g.Searchable := by
  obtain ⟨cs, hcs⟩ := knowCycles_ok ht
  have hdfs : ∀ roots, ∃ d, g.depthFirstSearch roots = .ok d := fun roots =>
    (depthFirstSearch_spec ht roots).imp fun _ h => h.1
  refine ⟨⟨_, congrArg (Except.map _) hcs⟩, ⟨_, congrArg (Except.map _) hcs⟩, hdfs, fun node => ?_,
    fun roots => (findReachableNodes_spec ht roots).imp fun _ h => h.1,
    fun nodes => (findDependentNodes_spec ht nodes).imp fun _ h => h.1⟩
  unfold Graph.dependencies
  obtain ⟨d, hd⟩ := hdfs [node]
  split_ifs
  · exact ⟨_, congrArg (Except.map _) hd⟩
  · exact ⟨_, rfl⟩

end Graph

namespace BagGraph

variable {b : BagGraph N L} {ns : Multiset N} {es : Multiset (N × N × L)}

theorem Holds.of_graph (h : b.Holds ns es) {g : Graph N L} (hn : g.nodes = b.graph.nodes)
    (he : g.edges = b.graph.edges) : ({ b with graph := g } : BagGraph N L).Holds ns es := by
  refine ⟨h.nodeCount, h.edgeCount, fun v => ?_, fun v w l => ?_⟩
  · rw [hn]
    exact h.nodes v
  · rw [Graph.out, he]
    exact h.edges v w l

/-- What a bag graph holds after an operation. -/
theorem Holds.step (h : b.Holds ns es) (o : GraphOp N L) (ho : o.Deletes ns) :
    (b.step o).Holds (o.nodesLeft ns) (o.edgesLeft es) := by
  rcases o with v | v | ⟨v₁, v₂, l⟩ | ⟨v₁, v₂, l⟩ | _ | _ | node | roots | nodes
  · exact h.addNode v
  · refine Holds.deleteNode ?_
    rwa [GraphOp.nodesLeft, Multiset.cons_erase ho]
  · exact h.addEdge v₁ v₂ l
  · show (b.deleteEdge v₁ v₂ l).Holds ns (es.erase (v₁, v₂, l))
    by_cases he : (v₁, v₂, l) ∈ es
    · refine Holds.deleteEdge ?_
      rwa [Multiset.cons_erase he]
    · rw [BagGraph.deleteEdge, if_pos (by rw [h.edgeCount, Multiset.count_eq_zero]; exact he),
        Multiset.erase_of_notMem he]
      exact h
  · exact h.of_graph b.graph.knowCycles_nodes b.graph.knowCycles_edges
  · exact h.of_graph b.graph.knowCycles_nodes b.graph.knowCycles_edges
  · refine h.of_graph ?_ ?_ <;> (unfold Graph.dependencies; split_ifs <;> rfl)
  · refine h.of_graph ?_ ?_ <;> (unfold Graph.findReachableNodes; split_ifs <;> rfl)
  · exact h

/-- What a bag graph holds after a history. -/
theorem holds_history {ops : List (GraphOp N L)} (hops : Balanced ops) :
    (ops.foldl step empty).Holds (ops.foldl nodesLeft 0) (ops.foldl edgesLeft 0)
      ∧ ∀ v, (ops.foldl nodesLeft 0).count v
        = ops.countP (insertsNode v) - ops.countP (deletesNode v) := by
  induction ops using List.reverseRecOn with
  | nil => exact ⟨holds_empty, fun v => rfl⟩
  | append_singleton ops o ih =>
    obtain ⟨h, hcount⟩ := ih fun before hb => hops before (hb.trans (List.prefix_append ..))
    have hle := fun v => hops ops (List.prefix_append ..) v
    have hlast := fun v => hops (ops ++ [o]) (List.prefix_refl _) v
    simp only [List.foldl_append, List.foldl_cons, List.foldl_nil, List.countP_append,
      List.countP_singleton] at hlast ⊢
    refine ⟨h.step o ?_, fun v => ?_⟩
    · rcases o with _ | v | _ <;> try trivial
      have hv := hlast v
      simp only [insertsNode, deletesNode, decide_true, Bool.false_eq_true, if_true, if_false] at hv
      refine Multiset.count_pos.1 ?_
      rw [hcount]
      omega
    · have hv := hlast v
      have hn := hcount v
      have hl := hle v
      rcases o with u | u | _ | _ | _ | _ | _ | _ | _ <;>
        simp only [nodesLeft, insertsNode, deletesNode, Bool.false_eq_true, if_false, Nat.add_zero] at hv ⊢ <;>
        try exact hn
      · rw [Multiset.count_cons, hn]
        by_cases huv : u = v
        · subst huv
          simp only [decide_true, if_true]
          omega
        · simp only [huv, decide_false, Bool.false_eq_true, if_false, if_neg (Ne.symm huv)]
          omega
      · by_cases huv : u = v
        · subst huv
          rw [Multiset.count_erase_self, hn]
          simp only [decide_true, if_true]
          omega
        · rw [Multiset.count_erase_of_ne (Ne.symm huv), hn]
          simp only [huv, decide_false, Bool.false_eq_true, if_false]
          omega

/-- Nodes and edges are counted as a multiset graph has them, whatever the history. -/
theorem counts_of_history (ops : List (GraphOp N L)) (hops : Balanced ops) :
    let b : BagGraph N L := ops.foldl step empty
    let es : Multiset (N × N × L) := ops.foldl edgesLeft 0
    (∀ v w l, b.edgeCount v w l = es.count (v, w, l))
    ∧ (∀ v, b.nodeCount v = ops.countP (insertsNode v) - ops.countP (deletesNode v)
        + ((es.map (·.1)).count v + (es.map (·.2.1)).count v))
    ∧ (∀ v, (b.nodeIn v = true ↔ 0 < b.nodeCount v) ∧ (v ∈ b.graph.nodes ↔ 0 < b.nodeCount v))
    ∧ (∀ v w l, (b.edgeIn v w l = true ↔ 0 < b.edgeCount v w l)
        ∧ ((w, l) ∈ b.graph.out v ↔ 0 < b.edgeCount v w l))
    ∧ (∀ v w l, b.edgeIn v w l = false → b.deleteEdge v w l = b)
    ∧ (∀ v w l, b.edgeIn v w l = true → b.nodeIn v = true ∧ b.nodeIn w = true)
    ∧ b.graph.Searchable := by
  intro b es
  obtain ⟨h, hcount⟩ := holds_history hops
  have hnodeIn : ∀ v, b.nodeIn v = true ↔ 0 < b.nodeCount v := fun v => by
    rw [nodeIn, decide_eq_true_eq, nodeCount, Nat.pos_iff_ne_zero]
  have hedgeIn : ∀ v w l, b.edgeIn v w l = true ↔ 0 < b.edgeCount v w l := fun v w l => by
    rw [edgeIn, decide_eq_true_eq, edgeCount, Nat.pos_iff_ne_zero]
  refine ⟨fun v w l => h.edgeCount (v, w, l), fun v => ?_, fun v => ⟨hnodeIn v, h.nodes v⟩,
    fun v w l => ⟨hedgeIn v w l, h.edges v w l⟩, fun v w l hl => ?_, fun v w l hl => ?_,
    Graph.searchable fun v w => h.edge_target⟩
  · rw [nodeCount, h.nodeCount, Multiset.count_add, hcount, endpoints, Multiset.count_add]
  · rw [edgeIn, decide_eq_false_iff_not, not_not] at hl
    exact if_pos hl
  · have hmem : (v, w, l) ∈ es := h.mem_out.1 ((h.edges v w l).2 ((hedgeIn v w l).1 hl))
    have hpos : ∀ u, u ∈ endpoints es → b.nodeIn u = true := fun u hu =>
      (hnodeIn u).2 ((h.nodes u).1 (h.mem_nodes.2 (.inr hu)))
    exact ⟨hpos v (mem_endpoints_of_source hmem),
      hpos w (Multiset.mem_add.2 (.inr (Multiset.mem_map.2 ⟨_, hmem, rfl⟩)))⟩

/-- A self loop, which counts its node twice, and another edge. -/
def loopHistory : List (GraphOp Bool Unit) :=
  [.addNode true, .addEdge true true (), .addEdge true false (), .deleteEdge true true (), .deleteNode true]

theorem counts_of_history_loop :
    (∀ v, (loopHistory.foldl step empty).nodeCount v
      = loopHistory.countP (insertsNode v) - loopHistory.countP (deletesNode v)
        + (((loopHistory.foldl edgesLeft 0).map (·.1)).count v
          + ((loopHistory.foldl edgesLeft 0).map (·.2.1)).count v))
    ∧ (loopHistory.foldl step empty).graph.Searchable := by
  have h := counts_of_history loopHistory fun before hb => by
    have hmem : before ∈ loopHistory.inits := (List.mem_inits ..).2 hb
    clear hb
    revert before
    decide
  exact ⟨h.2.1, h.2.2.2.2.2.2⟩

end BagGraph

end Congress
