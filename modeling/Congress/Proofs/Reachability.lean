import Congress.Proofs.HasCycle

/-!
# Reachability queries

In a graph whose edges lead to nodes, `find_reachable_nodes` finds just the nodes that can be reached
from roots that are nodes (`findReachableNodes_spec`), and `find_dependent_nodes` what one of the given
nodes can be reached from (`findDependentNodes_spec`).
-/

namespace Congress

open Lib Relation

set_option linter.unusedSectionVars false

variable {N L : Type*} [DecidableEq N] [DecidableEq L]

namespace Graph

variable {g : Graph N L} {v w : N} {roots nodes : List N} {d d' : DfsData N}

/-- A root at which the search has begun, and one that is no node, are passed over. -/
theorem depthFirstSearch_fold (ht : ∀ v w, g.Edge v w → w ∈ g.nodes) : ∀ (roots : List N)
    (d : DfsData N), (∀ v ∈ d.begun, v ∈ g.nodes) → ∃ d',
      roots.foldlM (fun d v =>
        if v ∈ g.nodes ∧ v ∉ d.begun then g.dfs none g.dfsFuel v [] d else .ok d) d = .ok d'
        ∧ g.Explores none (roots.filter (· ∈ g.nodes)) [] d d'
  | [], d, _ => ⟨d, rfl, .nil d⟩
  | v :: roots, d, hd => by
    rw [List.foldlM_cons]
    by_cases hv : v ∈ g.nodes
    · rw [List.filter_cons_of_pos (by simpa using hv)]
      by_cases hb : v ∈ d.begun
      · obtain ⟨d', hok, h⟩ := depthFirstSearch_fold ht roots d hd
        rw [if_neg fun h => h.2 hb]
        have hskip : g.Explores none [v] [] d d :=
          ⟨fun _ h => h, by simpa using hb, fun _ h => .inl h, fun _ h h' => absurd h h', by simp⟩
        exact ⟨d', hok, hskip.cons h⟩
      · obtain ⟨d₁, hok₁, h₁⟩ := @dfs_spec _ _ _ _ g none ht g.dfsFuel v [] d hv (g.unbegun_lt_dfsFuel d)
        have hd₁ : ∀ u ∈ d₁.begun, u ∈ g.nodes := by
          intro u hu
          rcases h₁.reach u hu with hu | ⟨r, hr, hu⟩
          · exact hd u hu
          · obtain rfl := List.mem_singleton.1 hr
            exact mem_of_reflTransGen (p := (· ∈ g.nodes)) (fun a b _ hab => ht a b hab) hv hu
        obtain ⟨d', hok, h⟩ := depthFirstSearch_fold ht roots d₁ hd₁
        rw [if_pos ⟨hv, hb⟩, hok₁]
        exact ⟨d', hok, h₁.cons h⟩
    · rw [List.filter_cons_of_neg (by simpa using hv), if_neg fun h => hv h.1]
      exact depthFirstSearch_fold ht roots d hd

/-- A search begins at just what can be reached from the roots that are nodes. -/
theorem depthFirstSearch_spec (ht : ∀ v w, g.Edge v w → w ∈ g.nodes) (roots : List N) :
    ∃ d, g.depthFirstSearch roots = .ok d
      ∧ ∀ v, v ∈ d.begun ↔ ∃ r ∈ roots, r ∈ g.nodes ∧ ReflTransGen g.Edge r v := by
  obtain ⟨d, hok, h⟩ := depthFirstSearch_fold ht roots .reset (by simp [DfsData.reset])
  refine ⟨d, hok, fun v => ⟨fun hv => ?_, ?_⟩⟩
  · obtain ⟨r, hr, hv⟩ := (h.reach v hv).resolve_left List.not_mem_nil
    obtain ⟨hr, hn⟩ := List.mem_filter.1 hr
    exact ⟨r, hr, by simpa using hn, hv⟩
  · rintro ⟨r, hr, hn, hv⟩
    exact mem_of_reflTransGen (p := (· ∈ d.begun)) (fun u w hu => h.closed u hu List.not_mem_nil w)
      (h.root r (List.mem_filter.2 ⟨hr, by simpa using hn⟩)) hv

theorem mem_nodes_of_reflTransGen (ht : ∀ v w, g.Edge v w → w ∈ g.nodes) (hv : v ∈ g.nodes)
    (h : ReflTransGen g.Edge v w) : w ∈ g.nodes :=
  mem_of_reflTransGen (p := (· ∈ g.nodes)) (fun a b _ hab => ht a b hab) hv h

theorem findReachableNodes_spec (ht : ∀ v w, g.Edge v w → w ∈ g.nodes) (roots : List N) :
    ∃ found, (g.findReachableNodes roots).2 = .ok found
      ∧ ∀ v, v ∈ found ↔ ∃ r ∈ roots, r ∈ g.nodes ∧ ReflTransGen g.Edge r v := by
  unfold findReachableNodes
  split_ifs with h0
  · obtain rfl := List.length_eq_zero_iff.1 h0
    exact ⟨[], rfl, by simp⟩
  · obtain ⟨d, hok, hd⟩ := depthFirstSearch_spec ht roots
    refine ⟨g.nodes.filter (· ∈ d.begun), by rw [hok]; rfl, fun v => ?_⟩
    rw [List.mem_filter, decide_eq_true_eq, hd, and_iff_right_iff_imp]
    rintro ⟨r, -, hn, hv⟩
    exact mem_nodes_of_reflTransGen ht hn hv

theorem invertedEdgeGraph_edge (ht : ∀ v w, g.Edge v w → w ∈ g.nodes) :
    g.invertedEdgeGraph.Edge v w ↔ g.Edge w v := by
  unfold invertedEdgeGraph
  simp only [Edge, out]
  split_ifs with hv
  · simp only [Option.getD_some, List.map_map, Function.comp_def, List.map_id', List.mem_filter]
    exact ⟨fun h => of_decide_eq_true h.2, fun h => ⟨Edge.mem_nodes h, decide_eq_true h⟩⟩
  · simp only [Option.getD_none, List.map_nil, List.not_mem_nil, false_iff]
    exact fun h => hv (ht w v h)

theorem findDependentNodes_spec (ht : ∀ v w, g.Edge v w → w ∈ g.nodes) (nodes : List N) :
    ∃ found, g.findDependentNodes nodes = .ok found
      ∧ ∀ v, v ∈ found ↔ ∃ r ∈ nodes, ReflTransGen g.Edge v r := by
  have hedge : g.invertedEdgeGraph.Edge = Function.swap g.Edge := by
    ext v w
    exact invertedEdgeGraph_edge ht
  have ht' : ∀ v w, g.invertedEdgeGraph.Edge v w → w ∈ g.invertedEdgeGraph.nodes := by
    intro v w h
    rw [hedge] at h
    exact Edge.mem_nodes (g := g) h
  obtain ⟨found, hok, hfound⟩ := findReachableNodes_spec ht' nodes
  refine ⟨(found ++ nodes).dedup, by rw [findDependentNodes, hok]; rfl, fun v => ?_⟩
  rw [List.mem_dedup, List.mem_append, hfound, hedge]
  constructor
  · rintro (⟨r, hr, -, hv⟩ | hv)
    · exact ⟨r, hr, reflTransGen_swap.1 hv⟩
    · exact ⟨v, hv, .refl⟩
  · rintro ⟨r, hr, hv⟩
    rcases ReflTransGen.cases_tail hv with rfl | ⟨u, -, hu⟩
    · exact .inr hr
    · exact .inl ⟨r, hr, ht u r hu, reflTransGen_swap.2 hv⟩

end Graph

end Congress
