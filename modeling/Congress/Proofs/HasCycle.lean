import Congress.Lib.Run
import Congress.RuleGraph
import Congress.Proofs.Search

/-!
# Recursion detection

`has_cycle` answers from the cached cycles, or enumerates them, which needs every edge to lead to a
node. Both go wrong: a depth first search leaves an empty cache behind, deleting a node leaves the
cache and the edges to that node as they were, and a bag graph that deletes the last edge of a
node deletes the node first, so that deleting the edge has no effect on the cache. A step that does
none of this (`KeepsCycles`) keeps the answers exact.
-/

namespace Congress

open Lib Relation

set_option linter.unusedSectionVars false

variable {N L : Type*} [DecidableEq N] [DecidableEq L]

namespace Graph

variable {g : Graph N L} {v w : N} {l : L}

/-! ## Asking -/

/-- `has_cycle` answers, and tells whether the edges contain a directed cycle. -/
def Exact (g : Graph N L) : Prop :=
  ∃ answer, g.hasCycle.2 = .ok answer ∧ (answer = true ↔ Cyclic g.Edge)

/-- Every edge leads to a node, but for those that are spared. -/
def Targets (g : Graph N L) (spare : N → N → L → Prop) : Prop :=
  ∀ v w l, (w, l) ∈ g.out v → w ∈ g.nodes ∨ spare v w l

/-- If the cycles are known, there are some exactly if there is a cycle. -/
def Cached (g : Graph N L) : Prop :=
  ∀ cycles, g.cycles = some cycles → (cycles ≠ [] ↔ Cyclic g.Edge)

/-- What makes the answers exact. -/
structure Sound (g : Graph N L) : Prop where
  targets : g.Targets fun _ _ _ => False
  cached : g.Cached

theorem edge_iff : g.Edge v w ↔ ∃ l, (w, l) ∈ g.out v := by
  simp [Edge]

theorem mem_nodes_of_out {x : N × L} (h : x ∈ g.out v) : v ∈ g.nodes :=
  g.keys v fun h0 => by simp [out, h0] at h

theorem Edge.mem_nodes (h : g.Edge v w) : v ∈ g.nodes := by
  obtain ⟨l, h⟩ := edge_iff.1 h
  exact mem_nodes_of_out h

theorem Sound.edge_target (h : g.Sound) (hw : g.Edge v w) : w ∈ g.nodes := by
  obtain ⟨l, hw⟩ := edge_iff.1 hw
  exact (h.targets v w l hw).resolve_right id

theorem foldl_addCycle_ne_nil : ∀ (cs acc : List (Cycle N)),
    cs.foldl addCycle acc ≠ [] ↔ acc ≠ [] ∨ cs ≠ []
  | [], acc => by simp
  | c :: cs, acc => by
    have hc : addCycle acc c ≠ [] := by
      unfold addCycle
      split_ifs with h
      · rintro rfl
        simp at h
      · simp
    rw [List.foldl_cons, foldl_addCycle_ne_nil cs]
    simp [hc]

/-- Enumerating finds a cycle exactly if one of the nodes lies on one. -/
theorem enumerateCycles_spec (ht : ∀ v w, g.Edge v w → w ∈ g.nodes) : ∀ (ns : List N)
    (cs : List (Cycle N)), (∀ v ∈ ns, v ∈ g.nodes) →
      ∃ cs', g.enumerateCycles ns cs = (cs', .ok ())
        ∧ (cs' ≠ [] ↔ cs ≠ [] ∨ ∃ v ∈ ns, TransGen g.Edge v v)
  | [], cs, _ => ⟨cs, rfl, by simp⟩
  | n :: ns, cs, hn => by
    obtain ⟨d, hok, hd⟩ := dfs_self ht (hn n (List.mem_cons_self ..))
    obtain ⟨cs', hok', hcs⟩ := enumerateCycles_spec ht ns
      ((d.targetPaths.map Cycle.mk).foldl addCycle cs) fun v hv => hn v (List.mem_cons_of_mem _ hv)
    refine ⟨cs', by rw [enumerateCycles, hok]; exact hok', ?_⟩
    rw [hcs, foldl_addCycle_ne_nil, ne_eq (List.map _ _), List.map_eq_nil_iff, ← ne_eq, hd, or_assoc]
    simp only [List.mem_cons, exists_eq_or_imp]

/-- Knowing the cycles leaves nodes and edges as they are, and the answer is exact. -/
theorem Sound.knowCycles (h : g.Sound) : ∃ cycles, g.knowCycles = (g.setCycles (some cycles),
    .ok cycles) ∧ (cycles ≠ [] ↔ Cyclic g.Edge) := by
  unfold Graph.knowCycles
  rcases hc : g.cycles with _ | cs
  · obtain ⟨cs, hok, hcs⟩ := enumerateCycles_spec (fun v w => h.edge_target) g.nodes []
      fun _ hv => hv
    refine ⟨cs, by simp only [hok]; rfl, hcs.trans ?_⟩
    simp only [ne_eq, not_true_eq_false, false_or]
    refine ⟨fun ⟨v, _, hv⟩ => ⟨v, hv⟩, fun ⟨v, hv⟩ => ⟨v, ?_, hv⟩⟩
    obtain ⟨w, hw, -⟩ := TransGen.head'_iff.1 hv
    exact hw.mem_nodes
  · refine ⟨cs, ?_, h.cached cs hc⟩
    simp only [setCycles, ← hc]

theorem Sound.exact (h : g.Sound) : g.Exact := by
  obtain ⟨cs, hk, hcs⟩ := h.knowCycles
  refine ⟨0 < cs.length, by simp only [hasCycle, hk]; rfl, ?_⟩
  rw [decide_eq_true_eq, List.length_pos_iff, hcs]

theorem Sound.setCycles (h : g.Sound) {cycles : List (Cycle N)}
    (hc : cycles ≠ [] ↔ Cyclic g.Edge) : (g.setCycles (some cycles)).Sound :=
  ⟨h.targets, fun _ h' => Option.some.inj h' ▸ hc⟩

theorem Sound.asked (h : g.Sound) : g.knowCycles.1.Sound := by
  obtain ⟨cs, hk, hcs⟩ := h.knowCycles
  rw [hk]
  exact h.setCycles hcs

/-! ## Changing -/

section Change

variable {spare : N → N → L → Prop}

@[simp] theorem addNode_out (g : Graph N L) (v u : N) : (g.addNode v).out u = g.out u := by
  unfold addNode
  split_ifs <;> rfl

@[simp] theorem addNode_cycles (g : Graph N L) (v : N) : (g.addNode v).cycles = g.cycles := by
  unfold addNode
  split_ifs <;> rfl

theorem Edge.congr {g g' : Graph N L} (h : ∀ v, g'.out v = g.out v) : g'.Edge = g.Edge := by
  funext v w
  simp only [Edge, h]

theorem Sound.addNode (h : g.Sound) (v : N) : (g.addNode v).Sound where
  targets u w l hw := .inl (mem_addNode.2 (.inl ((h.targets u w l (by simpa using hw)).resolve_right
    id)))
  cached cs hcs := by
    rw [Edge.congr (g.addNode_out v)]
    exact h.cached cs (by simpa using hcs)

theorem deleteNode_out (g : Graph N L) (v u : N) :
    (g.deleteNode v).out u = if u = v then [] else g.out u := by
  unfold out deleteNode
  split_ifs with h <;> simp [h]

theorem mem_deleteNode {g : Graph N L} {v u : N} :
    u ∈ (g.deleteNode v).nodes ↔ u ≠ v ∧ u ∈ g.nodes :=
  g.nodup.mem_erase_iff

theorem Targets.deleteNode (h : g.Targets spare) (v : N)
    (hv : ∀ u ≠ v, ∀ l, (v, l) ∈ g.out u → spare u v l) : (g.deleteNode v).Targets spare := by
  intro u w l hw
  rw [deleteNode_out] at hw
  split_ifs at hw with hu
  · simp at hw
  · by_cases hwv : w = v
    · exact .inr (hwv ▸ hv u hu l (hwv ▸ hw))
    · exact (h u w l hw).imp_left fun h => mem_deleteNode.2 ⟨hwv, h⟩

theorem Cached.deleteNode (h : g.Cached) (v : N)
    (hv : g.cycles = none ∨ ¬ TransGen g.Edge v v) : (g.deleteNode v).Cached := by
  intro cs hcs
  have hcs : g.cycles = some cs := hcs
  have hv := hv.resolve_left (by simp [hcs])
  rw [h cs hcs]
  refine cyclic_iff_of_off_cycle (fun u w hw => ?_) fun u w hw => ?_
  · obtain ⟨l, hw⟩ := edge_iff.1 hw
    rw [deleteNode_out] at hw
    split_ifs at hw
    · simp at hw
    · exact edge_iff.2 ⟨l, hw⟩
  · by_cases hu : u = v
    · exact .inr (hu ▸ hv)
    · refine .inl ?_
      unfold Edge
      rwa [deleteNode_out, if_neg hu]

/-- A node to which no other node has an edge lies on a cycle only if it has an edge to itself. -/
theorem transGen_self (hv : ∀ u ≠ v, ¬ g.Edge u v) (h : TransGen g.Edge v v) : g.Edge v v := by
  obtain ⟨u, -, hu⟩ := TransGen.tail'_iff.1 h
  by_cases huv : u = v
  · exact huv ▸ hu
  · exact absurd hu (hv u huv)

theorem insertEdge_out (g : Graph N L) (v₁ v₂ : N) (l : L) (h : v₁ ∈ g.nodes) (u : N) :
    (g.insertEdge v₁ v₂ l h).out u = if u = v₁ then addTo (g.out v₁) (v₂, l) else g.out u := by
  conv_lhs => unfold out insertEdge
  split_ifs with hu <;> simp [hu, out]

theorem mem_addTo {α : Type*} [DecidableEq α] {s : List α} {a b : α} :
    b ∈ addTo s a ↔ b ∈ s ∨ b = a := by
  unfold addTo
  split_ifs with h
  · exact ⟨.inl, fun hb => hb.elim id fun hb => hb ▸ h⟩
  · simp

theorem Sound.insertEdge (h : g.Sound) (hc : g.cycles = none) {v₁ v₂ : N} (l : L)
    (h₁ : v₁ ∈ g.nodes) (h₂ : v₂ ∈ g.nodes) : (g.insertEdge v₁ v₂ l h₁).Sound where
  targets u w l' hw := by
    rw [insertEdge_out] at hw
    split_ifs at hw with hu
    · rcases mem_addTo.1 hw with hw | hw
      · exact h.targets v₁ w l' hw
      · exact .inl ((Prod.mk.inj hw).1 ▸ h₂)
    · exact h.targets u w l' hw
  cached cs hcs := absurd (hc.symm.trans hcs) (by simp)

theorem Sound.unknown (h : g.Sound) : (g.setCycles none).Sound :=
  ⟨h.targets, fun _ hcs => absurd hcs (by simp [Graph.setCycles])⟩

theorem Sound.addEdge (h : g.Sound) (v₁ v₂ : N) (l : L) : (g.addEdge v₁ v₂ l).Sound :=
  ((h.unknown.addNode v₁).addNode v₂).insertEdge (by simp [Graph.setCycles]) l _
    (mem_addNode.2 (.inr rfl))

theorem deleteEdge_out (g : Graph N L) (v₁ v₂ : N) (l : L) (u : N) :
    (g.deleteEdge v₁ v₂ l).out u
      = if u = v₁ then (g.out v₁).filter (· ≠ (v₂, l)) else g.out u := by
  unfold deleteEdge
  split_ifs with h hu hu
  · simp [out, hu]
  · simp [out, hu]
  · rw [hu]
    refine (List.filter_eq_self.2 fun x hx => decide_eq_true ?_).symm
    rintro rfl
    exact h hx
  · rfl

theorem deleteEdge_nodes (g : Graph N L) (v₁ v₂ : N) (l : L) :
    (g.deleteEdge v₁ v₂ l).nodes = g.nodes := by
  unfold deleteEdge
  split_ifs <;> rfl

theorem Cached.deleteEdge (h : g.Cached ∨ (w, l) ∈ g.out v) : (g.deleteEdge v w l).Cached := by
  by_cases he : (w, l) ∈ g.out v
  · intro cs hcs
    simp [Graph.deleteEdge, he] at hcs
  · rw [show g.deleteEdge v w l = g by simp [Graph.deleteEdge, he]]
    exact h.resolve_right he

theorem Sound.deleteEdge (h : g.Sound) (v w : N) (l : L) : (g.deleteEdge v w l).Sound where
  targets u x l' hx := by
    rw [deleteEdge_out] at hx
    rw [deleteEdge_nodes]
    split_ifs at hx with hu
    · exact h.targets v x l' (List.mem_of_mem_filter hx)
    · exact h.targets u x l' hx
  cached := .deleteEdge (.inl h.cached)

/-! ## A step -/

/-- No search is started in a graph with a cycle, no node is deleted to which another has an edge,
nor one with an edge to itself while the cycles are known. -/
def KeepsCycles (g : Graph N L) : GraphOp N L → Prop
  | .deleteNode v => (∀ u ≠ v, ¬ g.Edge u v) ∧ (g.cycles = none ∨ ¬ g.Edge v v)
  | .dependencies node => node ∈ g.nodes → ¬ Cyclic g.Edge
  | .findReachableNodes roots => roots ≠ [] → ¬ Cyclic g.Edge
  | _ => True

theorem Sound.deleteNode (h : g.Sound) (hk : g.KeepsCycles (.deleteNode v)) :
    (g.deleteNode v).Sound where
  targets := h.targets.deleteNode v fun u hu l hv => hk.1 u hu (edge_iff.2 ⟨l, hv⟩)
  cached := h.cached.deleteNode v (hk.2.imp_right fun hn hc => hn (transGen_self hk.1 hc))

theorem Sound.dependencies (h : g.Sound) {node : N} (hk : node ∈ g.nodes → ¬ Cyclic g.Edge) :
    (g.dependencies node).1.Sound := by
  unfold Graph.dependencies
  split_ifs with hn
  · exact h.setCycles (iff_of_false (by simp) (hk hn))
  · exact h

theorem Sound.findReachableNodes (h : g.Sound) {roots : List N}
    (hk : roots ≠ [] → ¬ Cyclic g.Edge) : (g.findReachableNodes roots).1.Sound := by
  unfold Graph.findReachableNodes
  split_ifs with hn
  · exact h
  · exact h.setCycles (iff_of_false (by simp) (hk fun h0 => hn (by simp [h0])))

theorem Sound.step (h : g.Sound) (o : GraphOp N L) (hk : g.KeepsCycles o) : (g.step o).Sound := by
  match o with
  | .addNode v => exact h.addNode v
  | .deleteNode v => exact h.deleteNode hk
  | .addEdge v₁ v₂ l => exact h.addEdge v₁ v₂ l
  | .deleteEdge v₁ v₂ l => exact h.deleteEdge v₁ v₂ l
  | .hasCycle => exact h.asked
  | .cycles => exact h.asked
  | .dependencies node => exact h.dependencies hk
  | .findReachableNodes roots => exact h.findReachableNodes hk
  | .findDependentNodes nodes => exact h

theorem sound_empty : (empty : Graph N L).Sound :=
  ⟨fun _ _ _ h => by simp [out, empty] at h, fun _ h => by simp [empty] at h⟩

end Change

end Graph

/-! ## Bag graphs -/

namespace BagGraph

variable {b : BagGraph N L} {v w : N} {l : L}

/-- The node drops out of the graph with the deletion of an edge from `v₁` to `v₂`. -/
def DropsOut (b : BagGraph N L) (v₁ v₂ v : N) : Prop :=
  0 < b.nodeRefcounts v ∧ b.nodeRefcounts v ≤ [v₁, v₂].count v

instance (b : BagGraph N L) (v₁ v₂ v : N) : Decidable (b.DropsOut v₁ v₂ v) :=
  inferInstanceAs (Decidable (_ ∧ _))

/-- The condition on a step. Deleting an edge deletes the nodes that drop out with it: nothing else
may lead to them from a node that stays, and no cycle through them may be known, unless deleting
the edge makes the cycles unknown. -/
def KeepsCycles (b : BagGraph N L) : GraphOp N L → Prop
  | .deleteNode v => b.nodeRefcounts v = 1 → b.graph.KeepsCycles (.deleteNode v)
  | .deleteEdge v₁ v₂ l => b.edgeRefcounts (v₁, v₂, l) ≠ 0 → ∀ v, b.DropsOut v₁ v₂ v →
      (∀ u l', (v, l') ∈ b.graph.out u → b.DropsOut v₁ v₂ u
        ∨ (u, v, l') = (v₁, v₂, l) ∧ b.edgeRefcounts (v₁, v₂, l) = 1)
      ∧ (b.graph.cycles = none ∨ ¬ TransGen b.graph.Edge v v
        ∨ ¬ b.DropsOut v₁ v₂ v₁ ∧ (v₂, l) ∈ b.graph.out v₁ ∧ b.edgeRefcounts (v₁, v₂, l) = 1)
  | o => b.graph.KeepsCycles o

theorem deleteNode_nodeRefcounts (b : BagGraph N L) (v u : N) :
    (b.deleteNode v).nodeRefcounts u = b.nodeRefcounts u - if u = v then 1 else 0 := by
  unfold deleteNode
  by_cases h : b.nodeRefcounts v = 0
  · rw [if_pos h]
    split_ifs with hu
    · rw [hu, h]
    · rfl
  · rw [if_neg h]
    change Function.update b.nodeRefcounts v _ u = _
    by_cases hu : u = v
    · subst hu
      simp
    · simp [hu]

theorem mem_deleteNode {u : N} : u ∈ (b.deleteNode v).graph.nodes
    ↔ u ∈ b.graph.nodes ∧ ¬ (u = v ∧ b.nodeRefcounts v = 1) := by
  unfold deleteNode
  split_ifs with h0 h1
  · simp [h0]
  · rw [Graph.mem_deleteNode]
    simp [h1, and_comm]
  · simp [h1]

theorem deleteNode_out (b : BagGraph N L) (v u : N) : (b.deleteNode v).graph.out u
    = if u = v ∧ b.nodeRefcounts v = 1 then [] else b.graph.out u := by
  unfold deleteNode
  split_ifs with h0 h1 h2 h2 <;> simp_all [Graph.deleteNode_out]

theorem deleteNode_cycles (b : BagGraph N L) (v : N) :
    (b.deleteNode v).graph.cycles = b.graph.cycles := by
  unfold deleteNode
  split_ifs <;> rfl

theorem dropsOut_iff (b : BagGraph N L) (v₁ v₂ v : N) : b.DropsOut v₁ v₂ v
    ↔ v = v₁ ∧ b.nodeRefcounts v₁ = 1 ∨ v = v₂ ∧ (b.deleteNode v₁).nodeRefcounts v₂ = 1 := by
  unfold DropsOut
  rw [deleteNode_nodeRefcounts]
  simp only [List.count_cons, List.count_nil, beq_iff_eq]
  by_cases h₁ : v₁ = v <;> by_cases h₂ : v₂ = v <;> simp [h₁, h₂, eq_comm] <;> omega

/-- What deleting the nodes of an edge leaves of the graph. -/
theorem mem_deleteNode_deleteNode {v₁ v₂ : N} :
    v ∈ ((b.deleteNode v₁).deleteNode v₂).graph.nodes
      ↔ v ∈ b.graph.nodes ∧ ¬ b.DropsOut v₁ v₂ v := by
  rw [mem_deleteNode, mem_deleteNode, dropsOut_iff, and_assoc, not_or]

theorem deleteNode_deleteNode_out (b : BagGraph N L) (v₁ v₂ v : N) :
    ((b.deleteNode v₁).deleteNode v₂).graph.out v
      = if b.DropsOut v₁ v₂ v then [] else b.graph.out v := by
  rw [deleteNode_out, deleteNode_out]
  simp only [dropsOut_iff]
  split_ifs <;> tauto

/-- The graph in which the nodes of an edge, and it if it is the last of its kind, are deleted. -/
theorem sound_deleteEdge (h : b.graph.Sound) {v₁ v₂ : N}
    (hk : b.KeepsCycles (.deleteEdge v₁ v₂ l)) : (b.deleteEdge v₁ v₂ l).graph.Sound := by
  by_cases h0 : b.edgeRefcounts (v₁, v₂, l) = 0
  · simpa only [deleteEdge, h0, if_true] using h
  simp only [deleteEdge, h0, if_false]
  replace hk := hk h0
  set g := ((b.deleteNode v₁).deleteNode v₂).graph with hg
  have hmem : ∀ v, v ∈ g.nodes ↔ v ∈ b.graph.nodes ∧ ¬ b.DropsOut v₁ v₂ v := fun v =>
    mem_deleteNode_deleteNode
  have hout : ∀ v, g.out v = if b.DropsOut v₁ v₂ v then [] else b.graph.out v :=
    b.deleteNode_deleteNode_out v₁ v₂
  have hcyc : g.cycles = b.graph.cycles := by rw [hg, deleteNode_cycles, deleteNode_cycles]
  -- the edges left over lead to nodes that stay
  have ht : g.Targets fun u w l' => (u, w, l') = (v₁, v₂, l) ∧ b.edgeRefcounts (v₁, v₂, l) = 1 := by
    intro u w l' hw
    rw [hout] at hw
    split_ifs at hw with hu
    · simp at hw
    · by_cases hd : b.DropsOut v₁ v₂ w
      · exact .inr (((hk w hd).1 u l' hw).resolve_left hu)
      · exact .inl ((hmem w).2 ⟨(h.targets u w l' hw).resolve_right id, hd⟩)
  have hc : g.Cached ∨ (v₂, l) ∈ g.out v₁ ∧ b.edgeRefcounts (v₁, v₂, l) = 1 := by
    by_cases hlast : ¬ b.DropsOut v₁ v₂ v₁ ∧ (v₂, l) ∈ b.graph.out v₁
        ∧ b.edgeRefcounts (v₁, v₂, l) = 1
    · exact .inr ⟨by rw [hout, if_neg hlast.1]; exact hlast.2.1, hlast.2.2⟩
    refine .inl fun cs hcs => ?_
    rw [hcyc] at hcs
    rw [h.cached cs hcs]
    refine cyclic_iff_of_off_cycle (fun u w hw => ?_) fun u w hw => ?_
    · unfold Graph.Edge at hw ⊢
      rw [hout] at hw
      split_ifs at hw
      · simp at hw
      · exact hw
    · by_cases hu : b.DropsOut v₁ v₂ u
      · refine .inr ?_
        rcases (hk u hu).2 with hn | hn | hn
        · exact absurd (hn.symm.trans hcs) (by simp)
        · exact hn
        · exact absurd hn hlast
      · refine .inl ?_
        unfold Graph.Edge
        rwa [hout, if_neg hu]
  by_cases h1 : b.edgeRefcounts (v₁, v₂, l) = 1
  · simp only [h1, if_true]
    refine ⟨fun u w l' hw => ?_, .deleteEdge (hc.imp_right And.left)⟩
    rw [Graph.deleteEdge_nodes]
    rw [Graph.deleteEdge_out] at hw
    split_ifs at hw with hu
    · obtain ⟨hw, hne⟩ := List.mem_filter.1 hw
      refine .inl ((ht v₁ w l' hw).resolve_right fun he => ?_)
      obtain ⟨rfl, rfl⟩ := Prod.mk.inj (Prod.mk.inj he.1).2
      simp at hne
    · exact .inl ((ht u w l' hw).resolve_right fun he => hu (Prod.mk.inj he.1).1)
  · simp only [h1, if_false]
    exact ⟨fun u w l' hw => .inl ((ht u w l' hw).resolve_right fun he => h1 he.2),
      hc.resolve_right fun he => h1 he.2⟩

theorem sound_addEdge (h : b.graph.Sound) (v₁ v₂ : N) (l : L) :
    (b.addEdge v₁ v₂ l).graph.Sound := h.addEdge v₁ v₂ l

theorem sound_step (h : b.graph.Sound) (o : GraphOp N L) (hk : b.KeepsCycles o) :
    (b.step o).graph.Sound := by
  match o with
  | .addNode v => exact h.addNode v
  | .deleteNode v =>
    simp only [step, deleteNode]
    split_ifs with h0 h1
    · exact h
    · exact h.deleteNode (hk h1)
    · exact h
  | .addEdge v₁ v₂ l => exact sound_addEdge h v₁ v₂ l
  | .deleteEdge v₁ v₂ l => exact sound_deleteEdge h hk
  | .hasCycle => exact h.asked
  | .cycles => exact h.asked
  | .dependencies node => exact h.dependencies hk
  | .findReachableNodes roots => exact h.findReachableNodes hk
  | .findDependentNodes nodes => exact h

end BagGraph

/-! ## Rule dependency graphs -/

/-- What undoing a change does to the graph. -/
def Change.undoOp : Change → Option (GraphOp String Bool)
  | .node n true => some (.deleteNode n)
  | .node n false => some (.addNode n)
  | .edge src dst label true => some (.deleteEdge src dst label)
  | .edge src dst label false => some (.addEdge src dst label)
  | .modal _ _ => none

/-- What an event does to the graph. -/
def NodesEdges.ops (ne : NodesEdges) : Bool → List (GraphOp String Bool)
  | true => ne.nodes.map .addNode ++ ne.edges.map fun (src, dst, label) => .addEdge src dst label
  | false =>
    ne.nodes.map .deleteNode ++ ne.edges.map fun (src, dst, label) => .deleteEdge src dst label

namespace RuleDependencyGraph

variable {V : Type*} [DecidableEq V]

/-- What an update does to the graph. -/
def updateOps (headToBody : Bool) (sel : Selection V) : List (Event V) → List (GraphOp String Bool)
  | [] => []
  | e :: events =>
    match formulaNodesEdges headToBody sel e.formula e.target with
    | none => []
    | some ne => ne.ops e.insert ++ updateOps headToBody sel events

def graphOps (g : RuleDependencyGraph) : RuleGraphOp V → List (GraphOp String Bool)
  | .formulaUpdate sel events => updateOps g.headToBody sel events
  | .undoChanges changes => changes.filterMap Change.undoOp
  | .inherited o => [o]

theorem applyEvent_bag (g : RuleDependencyGraph) (ne : NodesEdges) (insert : Bool) :
    (g.applyEvent ne insert).1.bag = run BagGraph.step g.bag (ne.ops insert)
      ∧ (g.applyEvent ne insert).1.headToBody = g.headToBody := by
  cases insert <;>
    simp only [applyEvent, NodesEdges.ops, run, List.foldl_append, List.foldl_map] <;>
    exact ⟨rfl, rfl⟩

theorem formulaUpdate_bag (sel : Selection V) : ∀ (events : List (Event V))
    (g : RuleDependencyGraph),
      (formulaUpdate sel g events).1.bag = run BagGraph.step g.bag (updateOps g.headToBody sel events)
  | [], g => rfl
  | e :: events, g => by
    rcases hne : formulaNodesEdges g.headToBody sel e.formula e.target with _ | ne
    · simp only [formulaUpdate, updateOps, hne, run_nil]
    · obtain ⟨hb, hh⟩ := g.applyEvent_bag ne e.insert
      simp only [formulaUpdate, updateOps, hne, run_append]
      rw [formulaUpdate_bag sel events, hb, hh]

theorem undoChanges_bag : ∀ (changes : List Change) (g : RuleDependencyGraph),
    (g.undoChanges changes).bag = run BagGraph.step g.bag (changes.filterMap Change.undoOp)
  | [], g => rfl
  | c :: changes, g => by
    have h := undoChanges_bag changes (g.undoChange c)
    unfold undoChanges at h ⊢
    rw [List.foldl_cons, h]
    rcases c with ⟨n, _ | _⟩ | ⟨src, dst, label, _ | _⟩ | ⟨modals, _ | _⟩ <;> rfl

/-- A step is the run of what it does to the graph. -/
theorem step_bag (g : RuleDependencyGraph) (o : RuleGraphOp V) :
    (g.step o).bag = run BagGraph.step g.bag (g.graphOps o) := by
  match o with
  | .formulaUpdate sel events => exact formulaUpdate_bag sel events g
  | .undoChanges changes => exact undoChanges_bag changes g
  | .inherited o => rfl

/-- The condition on a step: all it does to the graph meets the condition there. -/
def KeepsCycles (g : RuleDependencyGraph) (o : RuleGraphOp V) : Prop :=
  Along BagGraph.step BagGraph.KeepsCycles g.bag (g.graphOps o)

end RuleDependencyGraph

/-! ## Runs -/

/-- In every run of a graph, a bag graph or a rule dependency graph whose steps all meet the
condition, every answer of `has_cycle` is exact. -/
theorem hasCycle_exact :
    (∀ ops : List (GraphOp N L), Along Graph.step Graph.KeepsCycles .empty ops →
        Always Graph.step Graph.Exact .empty ops)
      ∧ (∀ ops : List (GraphOp N L), Along BagGraph.step BagGraph.KeepsCycles .empty ops →
        Always BagGraph.step (fun b => b.graph.Exact) .empty ops)
      ∧ ∀ {V : Type} [DecidableEq V] (headToBody : Bool) (ops : List (RuleGraphOp V)),
        Along RuleDependencyGraph.step RuleDependencyGraph.KeepsCycles (.init headToBody) ops →
        Always RuleDependencyGraph.step (fun g => g.bag.graph.Exact) (.init headToBody) ops := by
  refine ⟨fun ops h => ?_, fun ops h => ?_, fun headToBody ops h => ?_⟩
  · exact (always_of_along (fun g o hg hk => hg.step o hk) ops Graph.sound_empty h).imp
      fun g hg => hg.exact
  · exact (always_of_along (P := fun b : BagGraph N L => b.graph.Sound)
      (fun b o hb hk => BagGraph.sound_step hb o hk) ops Graph.sound_empty h).imp
      fun b hb => hb.exact
  · refine (always_of_along (P := fun g : RuleDependencyGraph => g.bag.graph.Sound)
      (fun g o hg hk => ?_) ops Graph.sound_empty h).imp fun g hg => hg.exact
    rw [RuleDependencyGraph.step_bag]
    exact (always_of_along (P := fun b : BagGraph String Bool => b.graph.Sound)
      (fun b o hb hk => BagGraph.sound_step hb o hk) (g.graphOps o) hg hk).last

/-- A loop is added and deleted, and a cycle of two edges is added and found. -/
theorem hasCycle_exact_loop :
    Always Graph.step Graph.Exact (.empty : Graph ℕ Unit)
        [.addEdge 0 1 (), .hasCycle, .addEdge 1 0 (), .hasCycle]
      ∧ Always BagGraph.step (fun b => b.graph.Exact) (.empty : BagGraph ℕ Unit)
        [.addEdge 0 0 (), .deleteEdge 0 0 (), .hasCycle]
      ∧ Always RuleDependencyGraph.step (fun g => g.bag.graph.Exact) (.init true)
        [(.inherited .hasCycle : RuleGraphOp ℕ)] := by
  refine ⟨(hasCycle_exact (N := ℕ) (L := Unit)).1 _ ⟨trivial, trivial, trivial, trivial, trivial⟩,
    (hasCycle_exact (N := ℕ) (L := Unit)).2.1 _ ⟨trivial, fun _ v hv => ?_, trivial, trivial⟩,
    (hasCycle_exact (N := ℕ) (L := Unit)).2.2 true _ ⟨⟨trivial, trivial⟩, trivial⟩⟩
  refine ⟨fun u l hu => .inr ?_, .inl rfl⟩
  have hu0 : u = 0 := List.mem_singleton.1 (Graph.mem_nodes_of_out hu)
  subst hu0
  exact ⟨congrArg (0, ·) (List.mem_singleton.1 hu), rfl⟩

/-- A search empties the cache, so that a loop is overlooked; a loop is still found when it is
deleted from a bag graph; and an edge to a deleted node makes `has_cycle` raise a `KeyError`. -/
theorem not_hasCycle_exact :
    ¬ (run Graph.step (.empty : Graph ℕ Unit) [.addEdge 0 0 (), .dependencies 0]).Exact
      ∧ ¬ (run BagGraph.step (.empty : BagGraph ℕ Unit)
        [.addEdge 0 0 (), .hasCycle, .deleteEdge 0 0 ()]).graph.Exact
      ∧ ¬ (run Graph.step (.empty : Graph ℕ Unit) [.addEdge 0 1 (), .deleteNode 1]).Exact := by
  refine ⟨?_, ?_, ?_⟩ <;> rintro ⟨answer, hok, h⟩
  · have hf : answer = false := by
      have : (run Graph.step (.empty : Graph ℕ Unit) [.addEdge 0 0 (), .dependencies 0]).hasCycle.2
        = .ok false := by decide
      exact Except.ok.inj (hok.symm.trans this)
    exact absurd (h.2 ⟨0, .single (by decide)⟩) (by simp [hf])
  · have ht : answer = true := by
      have : (run BagGraph.step (.empty : BagGraph ℕ Unit) [.addEdge 0 0 (), .hasCycle,
        .deleteEdge 0 0 ()]).graph.hasCycle.2 = .ok true := by decide
      exact Except.ok.inj (hok.symm.trans this)
    obtain ⟨v, hv⟩ := h.1 ht
    obtain ⟨w, hw, -⟩ := TransGen.head'_iff.1 hv
    have hn : (run BagGraph.step (.empty : BagGraph ℕ Unit) [.addEdge 0 0 (), .hasCycle,
      .deleteEdge 0 0 ()]).graph.nodes = [] := by decide
    exact List.not_mem_nil (hn ▸ hw.mem_nodes)
  · have : (run Graph.step (.empty : Graph ℕ Unit) [.addEdge 0 1 (), .deleteNode 1]).hasCycle.2
      = .error (.keyError 1) := by decide
    exact absurd (hok.symm.trans this) (by simp)

end Congress
