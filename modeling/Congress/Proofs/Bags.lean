import Mathlib.Algebra.Order.Group.Multiset
import Mathlib.Data.Multiset.Count
import Congress.Proofs.HasCycle

/-!
# Bag graphs count

A bag graph stands for a multiset of nodes and a multiset of edges, each of which counts for its two
endpoints too (`BagGraph.Holds`). As long as only what is there is deleted, insertions add to the
multisets and deletions take away from them, and the edges of the graph lead to its nodes.
-/

namespace Congress

open Lib Relation

set_option linter.unusedSectionVars false

variable {N L : Type*} [DecidableEq N] [DecidableEq L]

/-- The two endpoints of each edge. -/
def endpoints (es : Multiset (N × N × L)) : Multiset N := es.map (·.1) + es.map (·.2.1)

@[simp] theorem endpoints_zero : endpoints (0 : Multiset (N × N × L)) = 0 := rfl

@[simp] theorem endpoints_cons (e : N × N × L) (es : Multiset (N × N × L)) :
    endpoints (e ::ₘ es) = e.1 ::ₘ e.2.1 ::ₘ endpoints es := by
  simp only [endpoints, Multiset.map_cons, Multiset.cons_add, Multiset.add_cons]
  exact Multiset.cons_swap _ _ _

namespace BagGraph

/-- The graph holds the nodes `ns`, and the edges `es` with their endpoints. -/
structure Holds (b : BagGraph N L) (ns : Multiset N) (es : Multiset (N × N × L)) : Prop where
  nodeCount : ∀ v, b.nodeRefcounts v = (ns + endpoints es).count v
  edgeCount : ∀ e, b.edgeRefcounts e = es.count e
  nodes : ∀ v, v ∈ b.graph.nodes ↔ 0 < b.nodeRefcounts v
  edges : ∀ v w l, (w, l) ∈ b.graph.out v ↔ 0 < b.edgeRefcounts (v, w, l)

variable {b : BagGraph N L} {ns ns' : Multiset N} {es es' : Multiset (N × N × L)} {v v₁ v₂ w : N} {l : L}

theorem holds_empty : (empty : BagGraph N L).Holds 0 0 :=
  ⟨fun _ => rfl, fun _ => rfl, fun v => by simp [empty, Graph.empty], fun v w l => by
    simp [empty, Graph.empty, Graph.out]⟩

theorem Holds.mem_nodes (h : b.Holds ns es) : v ∈ b.graph.nodes ↔ v ∈ ns ∨ v ∈ endpoints es := by
  rw [h.nodes, h.nodeCount, Multiset.count_pos, Multiset.mem_add]

theorem Holds.mem_out (h : b.Holds ns es) : (w, l) ∈ b.graph.out v ↔ (v, w, l) ∈ es := by
  rw [h.edges, h.edgeCount, Multiset.count_pos]

theorem Holds.edge_iff (h : b.Holds ns es) : b.graph.Edge v w ↔ ∃ l, (v, w, l) ∈ es := by
  rw [Graph.edge_iff]
  exact exists_congr fun l => h.mem_out

theorem Holds.edge_target (h : b.Holds ns es) (hw : b.graph.Edge v w) : w ∈ b.graph.nodes := by
  obtain ⟨l, hl⟩ := h.edge_iff.1 hw
  exact h.mem_nodes.2 (.inr (Multiset.mem_add.2 (.inr (Multiset.mem_map.2 ⟨_, hl, rfl⟩))))

theorem mem_endpoints_of_source (h : (v, w, l) ∈ es) : v ∈ endpoints es :=
  Multiset.mem_add.2 (.inl (Multiset.mem_map.2 ⟨_, h, rfl⟩))

theorem Holds.addNode (h : b.Holds ns es) (v : N) : (b.addNode v).Holds (v ::ₘ ns) es where
  nodeCount u := by
    show Function.update b.nodeRefcounts v _ u = _
    rw [Multiset.cons_add, Multiset.count_cons]
    by_cases hu : u = v
    · rw [hu, Function.update_self, h.nodeCount, if_pos rfl]
    · rw [Function.update_of_ne hu, h.nodeCount, if_neg hu, Nat.add_zero]
  edgeCount := h.edgeCount
  nodes u := by
    show u ∈ (b.graph.addNode v).nodes ↔ 0 < Function.update b.nodeRefcounts v _ u
    rw [Graph.mem_addNode, h.nodes]
    by_cases hu : u = v
    · simp [hu]
    · simp [hu]
  edges u w l := by
    show (w, l) ∈ (b.graph.addNode v).out u ↔ _
    rw [Graph.addNode_out]
    exact h.edges u w l

/-- A node that was inserted by itself can be deleted. -/
theorem Holds.deleteNode (h : b.Holds (v ::ₘ ns) es) : (b.deleteNode v).Holds ns es where
  nodeCount u := by
    have hu := h.nodeCount u
    rw [Multiset.cons_add, Multiset.count_cons] at hu
    rw [deleteNode_nodeRefcounts, hu, Nat.add_sub_cancel]
  edgeCount e := by
    rw [← h.edgeCount]
    unfold BagGraph.deleteNode
    split_ifs <;> rfl
  nodes u := by
    rw [mem_deleteNode, h.nodes, deleteNode_nodeRefcounts]
    by_cases hu : u = v
    · subst hu
      simp only [true_and, if_true]
      omega
    · simp [hu]
  edges u w l := by
    have hrefs : (b.deleteNode v).edgeRefcounts = b.edgeRefcounts := by
      unfold BagGraph.deleteNode
      split_ifs <;> rfl
    rw [deleteNode_out, hrefs, ← h.edges]
    split_ifs with hv
    · -- the node goes with its last occurrence, so no edge starts there
      obtain ⟨rfl, hone⟩ := hv
      have hcount := h.nodeCount u
      rw [hone, Multiset.cons_add, Multiset.count_cons_self, Multiset.count_add] at hcount
      have hnone : u ∉ endpoints es := Multiset.count_eq_zero.1 (by omega)
      refine iff_of_false (by simp) fun hw => hnone ?_
      exact mem_endpoints_of_source (h.mem_out.1 hw)
    · rfl

theorem addEdge_out (b : BagGraph N L) (v₁ v₂ : N) (l : L) (u : N) : (b.addEdge v₁ v₂ l).graph.out u
    = if u = v₁ then addTo (b.graph.out v₁) (v₂, l) else b.graph.out u := by
  refine (Graph.insertEdge_out _ v₁ v₂ l
    (Graph.mem_addNode.2 (.inl (Graph.mem_addNode.2 (.inr rfl)))) u).trans ?_
  simp only [Graph.addNode_out]
  rfl

theorem Holds.addEdge (h : b.Holds ns es) (v₁ v₂ : N) (l : L) :
    (b.addEdge v₁ v₂ l).Holds ns ((v₁, v₂, l) ::ₘ es) := by
  have hnodes := (Holds.addNode (b := { b with graph := b.graph.setCycles none })
    ⟨h.nodeCount, h.edgeCount, h.nodes, h.edges⟩ v₁).addNode v₂
  refine ⟨fun u => ?_, fun e => ?_, fun u => hnodes.nodes u, fun u w l' => ?_⟩
  · have hu := hnodes.nodeCount u
    rw [endpoints_cons]
    simp only [Multiset.cons_add, Multiset.add_cons, Multiset.count_cons] at hu ⊢
    exact hu.trans (by omega)
  · show Function.update b.edgeRefcounts _ _ e = _
    rw [Multiset.count_cons]
    by_cases he : e = (v₁, v₂, l)
    · rw [he, Function.update_self, h.edgeCount, if_pos rfl]
    · rw [Function.update_of_ne he, h.edgeCount, if_neg he, Nat.add_zero]
  · show _ ↔ 0 < Function.update b.edgeRefcounts _ _ (u, w, l')
    rw [addEdge_out]
    by_cases hu : u = v₁
    · subst hu
      rw [if_pos rfl, Graph.mem_addTo, h.edges]
      by_cases he : (w, l') = (v₂, l)
      · obtain ⟨rfl, rfl⟩ := Prod.mk.inj he
        simp
      · simp [he]
    · rw [if_neg hu, h.edges]
      have he' : (u, w, l') ≠ (v₁, v₂, l) := fun h0 => hu (Prod.mk.inj h0).1
      rw [Function.update_of_ne he']

theorem deleteEdge_edgeRefcounts (h0 : b.edgeRefcounts (v₁, v₂, l) ≠ 0) (e : N × N × L) :
    (b.deleteEdge v₁ v₂ l).edgeRefcounts e
      = b.edgeRefcounts e - if e = (v₁, v₂, l) then 1 else 0 := by
  simp only [deleteEdge, h0, if_false]
  by_cases he : e = (v₁, v₂, l)
  · subst he
    simp
  · simp [he]

/-- An edge that was inserted can be deleted. -/
theorem Holds.deleteEdge (h : b.Holds ns ((v₁, v₂, l) ::ₘ es)) :
    (b.deleteEdge v₁ v₂ l).Holds ns es := by
  have hpos : b.edgeRefcounts (v₁, v₂, l) = es.count (v₁, v₂, l) + 1 := by
    rw [h.edgeCount, Multiset.count_cons_self]
  have h0 : b.edgeRefcounts (v₁, v₂, l) ≠ 0 := by omega
  have hrefs : ∀ u, (b.deleteEdge v₁ v₂ l).nodeRefcounts u
      = b.nodeRefcounts u - (if u = v₁ then 1 else 0) - if u = v₂ then 1 else 0 := by
    intro u
    simp only [BagGraph.deleteEdge, h0, if_false, deleteNode_nodeRefcounts]
  have hcount : ∀ u, b.nodeRefcounts u
      = (ns + endpoints es).count u + (if u = v₁ then 1 else 0) + if u = v₂ then 1 else 0 := by
    intro u
    rw [h.nodeCount, endpoints_cons]
    simp only [Multiset.add_cons, Multiset.count_cons]
    omega
  -- the nodes that go are those of which nothing is left
  have hdrop : ∀ u, b.DropsOut v₁ v₂ u ↔ 0 < b.nodeRefcounts u ∧ (ns + endpoints es).count u = 0 := by
    intro u
    have := hcount u
    unfold DropsOut
    simp only [List.count_cons, List.count_nil, beq_iff_eq, eq_comm (b := u)]
    omega
  have hnodes : ∀ u, u ∈ (b.deleteEdge v₁ v₂ l).graph.nodes
      ↔ u ∈ b.graph.nodes ∧ ¬ b.DropsOut v₁ v₂ u := by
    intro u
    rw [← mem_deleteNode_deleteNode]
    simp only [BagGraph.deleteEdge, h0, if_false]
    split_ifs
    · rw [Graph.deleteEdge_nodes]
    · rfl
  refine ⟨fun u => ?_, fun e => ?_, fun u => ?_, fun u w l' => ?_⟩
  · have := hcount u
    rw [hrefs]
    omega
  · rw [deleteEdge_edgeRefcounts h0, h.edgeCount, Multiset.count_cons]
    omega
  · have := hcount u
    rw [hnodes, h.nodes, hdrop, hrefs]
    omega
  · have hsource : b.DropsOut v₁ v₂ u → (u, w, l') ∉ es := fun hu hmem =>
      Multiset.count_eq_zero.1 ((hdrop u).1 hu).2
        (Multiset.mem_add.2 (.inr (mem_endpoints_of_source hmem)))
    have hleft : 0 < (b.deleteEdge v₁ v₂ l).edgeRefcounts (u, w, l') ↔ (u, w, l') ∈ es := by
      rw [deleteEdge_edgeRefcounts h0, h.edgeCount, Multiset.count_cons, ← Multiset.count_pos]
      omega
    have hmid : (w, l') ∈ ((b.deleteNode v₁).deleteNode v₂).graph.out u
        ↔ ¬ b.DropsOut v₁ v₂ u ∧ ((u, w, l') = (v₁, v₂, l) ∨ (u, w, l') ∈ es) := by
      rw [deleteNode_deleteNode_out]
      split_ifs with hu
      · simp [hu]
      · rw [h.mem_out, Multiset.mem_cons]
        simp [hu]
    rw [hleft]
    simp only [BagGraph.deleteEdge, h0, if_false]
    by_cases hone : b.edgeRefcounts (v₁, v₂, l) = 1
    · have hlast : (v₁, v₂, l) ∉ es := Multiset.count_eq_zero.1 (by omega)
      rw [if_pos hone, Graph.deleteEdge_out]
      by_cases hu : u = v₁
      · subst hu
        rw [if_pos rfl, List.mem_filter, hmid, decide_eq_true_eq]
        constructor
        · rintro ⟨⟨-, he | he⟩, hne⟩
          · exact absurd (Prod.mk.inj he).2 hne
          · exact he
        · refine fun he => ⟨⟨fun hd => hsource hd he, .inr he⟩, fun h0 => ?_⟩
          obtain ⟨rfl, rfl⟩ := Prod.mk.inj h0
          exact hlast he
      · rw [if_neg hu, hmid]
        constructor
        · rintro ⟨-, he | he⟩
          · exact absurd (Prod.mk.inj he).1 hu
          · exact he
        · exact fun he => ⟨fun hd => hsource hd he, .inr he⟩
    · have hmore : (v₁, v₂, l) ∈ es := Multiset.count_pos.1 (by omega)
      rw [if_neg hone, hmid]
      constructor
      · rintro ⟨-, he | he⟩
        · exact he ▸ hmore
        · exact he
      · exact fun he => ⟨fun hd => hsource hd he, .inr he⟩

/-! ## Whole formulas -/

theorem Holds.addNodes : ∀ (vs : List N) {b : BagGraph N L} {ns : Multiset N}, b.Holds ns es →
    (vs.foldl BagGraph.addNode b).Holds (ns + vs) es
  | [], _, _, h => by simpa using h
  | v :: vs, b, ns, h => by
    have := Holds.addNodes vs (h.addNode v)
    rwa [Multiset.cons_add, ← Multiset.add_cons, Multiset.cons_coe] at this

theorem Holds.deleteNodes : ∀ {vs : List N} {b : BagGraph N L}, b.Holds (ns + vs) es →
    (vs.foldl BagGraph.deleteNode b).Holds ns es
  | [], _, h => by simpa using h
  | v :: vs, b, h => by
    rw [← Multiset.cons_coe, Multiset.add_cons] at h
    exact h.deleteNode.deleteNodes

theorem Holds.addEdges : ∀ (new : List (N × N × L)) {b : BagGraph N L} {es : Multiset (N × N × L)},
    b.Holds ns es → (new.foldl (fun b (src, dst, label) => b.addEdge src dst label) b).Holds ns (es + new)
  | [], _, _, h => by simpa using h
  | (v₁, v₂, l) :: new, b, es, h => by
    have := Holds.addEdges new (h.addEdge v₁ v₂ l)
    rwa [Multiset.cons_add, ← Multiset.add_cons, Multiset.cons_coe] at this

theorem Holds.deleteEdges : ∀ {old : List (N × N × L)} {b : BagGraph N L}, b.Holds ns (es + old) →
    (old.foldl (fun b (src, dst, label) => b.deleteEdge src dst label) b).Holds ns es
  | [], _, h => by simpa using h
  | (v₁, v₂, l) :: old, b, h => by
    rw [← Multiset.cons_coe, Multiset.add_cons] at h
    exact h.deleteEdge.deleteEdges

end BagGraph

end Congress
