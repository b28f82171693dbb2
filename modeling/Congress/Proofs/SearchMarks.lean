import Congress.Proofs.Reachability
import Congress.SearchMarks

/-!
# Searching with marks

A search that keeps marks begins at the nodes at which the search begins that keeps a list of them
(`mark_of_dfs`), as each search makes all marks new first. So queries about reachability are answered
exactly, whatever queries came before (`searches_exact`).
-/

namespace Congress

open Lib Relation Graph

set_option linter.unusedSectionVars false

variable {N L : Type} [DecidableEq N] [DecidableEq L] {g : Graph N L} {m m' : Marks N} {d d' : DfsData N}
  {node v w : N}

/-- All nodes have marks, and the nodes at which a search has begun are those of the list. -/
def Marks.Reflects (g : Graph N L) (m : Marks N) (d : DfsData N) : Prop :=
  ∀ v ∈ g.nodes, ∃ obj, m.info v = some obj ∧ (obj.begun.isSome = true ↔ v ∈ d.begun)

theorem reset_reflects (g : Graph N L) : Marks.reset.Reflects g .reset := fun v _ =>
  ⟨⟨none, none⟩, rfl, by simp [DfsData.reset]⟩

theorem Marks.Reflects.enter (h : m.Reflects g d) (node : N) (obj : DfsObj) :
    (m.enter node obj).Reflects g { d with begun := d.begun ++ [node] } := by
  intro v hv
  by_cases hvn : v = node
  · subst hvn
    exact ⟨_, Function.update_self .., by simp⟩
  · obtain ⟨obj', hinfo, hbegun⟩ := h v hv
    refine ⟨obj', (Function.update_of_ne hvn ..).trans hinfo, ?_⟩
    rw [hbegun]
    simp [hvn]

theorem Marks.Reflects.leave (h : m.Reflects g d) (hn : node ∈ g.nodes) :
    ∃ m', m.leave node = .ok m' ∧ m'.Reflects g d := by
  obtain ⟨obj, hinfo, hbegun⟩ := h node hn
  refine ⟨_, by rw [Marks.leave, hinfo], fun v hv => ?_⟩
  by_cases hvn : v = node
  · subst hvn
    exact ⟨_, Function.update_self .., hbegun⟩
  · obtain ⟨obj', hinfo', hbegun'⟩ := h v hv
    exact ⟨obj', (Function.update_of_ne hvn ..).trans hinfo', hbegun'⟩

theorem hasBegun_eq (h : m.Reflects g d) (hv : v ∈ g.nodes) : hasBegun m.info v = .ok (decide (v ∈ d.begun)) := by
  obtain ⟨obj, hinfo, hbegun⟩ := h v hv
  rw [hasBegun, hinfo, Except.ok.injEq, Bool.eq_iff_iff, hbegun, decide_eq_true_eq]

namespace Graph

/-- What the search with a list of nodes does, the search with marks does. -/
theorem mark_of_dfs : ∀ (fuel : ℕ) {node : N} {stack : List N} {m : Marks N} {d d' : DfsData N}, m.Reflects g d →
    g.dfs none fuel node stack d = .ok d' → ∃ m', g.mark fuel node m = .ok m' ∧ m'.Reflects g d'
  | 0, _, _, _, _, _, _, hd => by cases hd
  | fuel + 1, node, stack, m, d, d', hm, hd => by
    have hfold : ∀ (vs : List N) (stack : List N) (m : Marks N) (d : DfsData N), m.Reflects g d →
        vs.foldlM (fun d v => g.dfs none fuel v stack d) d = .ok d' →
        ∃ m', vs.foldlM (fun m v => g.mark fuel v m) m = .ok m' ∧ m'.Reflects g d' := fun vs stack => by
      induction vs with
      | nil =>
        rintro m d hm hd
        obtain rfl : d = d' := Except.ok.inj hd
        exact ⟨m, rfl, hm⟩
      | cons v vs ih =>
        intro m d hm hd
        rw [List.foldlM_cons] at hd ⊢
        rcases hv : g.dfs none fuel v stack d with e | d₁
        · rw [hv] at hd
          cases hd
        · rw [hv] at hd
          obtain ⟨m₁, hm₁, hr₁⟩ := mark_of_dfs fuel hm hv
          rw [hm₁]
          exact ih m₁ d₁ hr₁ hd
    simp only [dfs, reduceCtorEq, false_and, if_false] at hd
    rw [mark]
    split_ifs at hd with hn hb
    · obtain ⟨obj, hinfo, hbegun⟩ := hm node hn
      obtain rfl : d = d' := Except.ok.inj hd
      rw [if_neg (not_not.2 hn), hinfo]
      exact ⟨m, if_pos (hbegun.2 hb), hm⟩
    · obtain ⟨obj, hinfo, hbegun⟩ := hm node hn
      obtain ⟨m₁, hok, hm₁⟩ := hfold _ _ _ _ (hm.enter node obj) hd
      obtain ⟨m₂, hok₂, hm₂⟩ := hm₁.leave hn
      refine ⟨m₂, ?_, hm₂⟩
      rw [if_neg (not_not.2 hn), hinfo]
      dsimp only
      rw [if_neg fun h => hb (hbegun.1 h), hok]
      exact hok₂

theorem markAll_of_fold : ∀ {roots : List N} {m : Marks N} {d d' : DfsData N}, m.Reflects g d →
    roots.foldlM (fun d v => if v ∈ g.nodes ∧ v ∉ d.begun then g.dfs none g.dfsFuel v [] d else .ok d) d = .ok d' →
    ∃ m', g.markAll roots m = .ok m' ∧ m'.Reflects g d'
  | [], m, d, d', hm, hd => by
    obtain rfl : d = d' := Except.ok.inj hd
    exact ⟨m, rfl, hm⟩
  | v :: roots, m, d, d', hm, hd => by
    rw [List.foldlM_cons] at hd
    rw [markAll]
    by_cases hv : v ∈ g.nodes
    · rw [if_pos hv, hasBegun_eq hm hv]
      by_cases hb : v ∈ d.begun
      · rw [if_neg fun h => h.2 hb] at hd
        obtain ⟨m', hok, hm'⟩ := markAll_of_fold hm hd
        exact ⟨m', by simpa [hb, bind, Except.bind] using hok, hm'⟩
      · rw [if_pos ⟨hv, hb⟩] at hd
        rcases hdfs : g.dfs none g.dfsFuel v [] d with e | d₁
        · rw [hdfs] at hd
          cases hd
        · rw [hdfs] at hd
          obtain ⟨m₁, hok₁, hm₁⟩ := mark_of_dfs g.dfsFuel hm hdfs
          obtain ⟨m', hok, hm'⟩ := markAll_of_fold hm₁ hd
          exact ⟨m', by simpa [hb, hok₁, bind, Except.bind] using hok, hm'⟩
    · rw [if_neg fun h => hv h.1] at hd
      rw [if_neg hv]
      exact markAll_of_fold hm hd

theorem markedNodes_eq (hm : m.Reflects g d) : ∀ {ns : List N}, (∀ v ∈ ns, v ∈ g.nodes) →
    markedNodes m.info ns = .ok (ns.filter (· ∈ d.begun))
  | [], _ => rfl
  | v :: ns, h => by
    obtain ⟨hv, hns⟩ := List.forall_mem_cons.1 h
    rw [markedNodes, hasBegun_eq hm hv, markedNodes_eq hm hns, List.filter_cons]
    rfl

/-- A search with marks marks the nodes that can be reached from roots that are nodes. -/
theorem markAll_spec (ht : ∀ v w, g.Edge v w → w ∈ g.nodes) (roots : List N) :
    ∃ m found, g.markAll roots .reset = .ok m ∧ markedNodes m.info g.nodes = .ok found
      ∧ ∀ v, v ∈ found ↔ ∃ r ∈ roots, r ∈ g.nodes ∧ ReflTransGen g.Edge r v := by
  obtain ⟨d, hd, hreach⟩ := depthFirstSearch_spec ht roots
  obtain ⟨m, hok, hm⟩ := markAll_of_fold (reset_reflects g) hd
  refine ⟨m, _, hok, markedNodes_eq hm fun v hv => hv, fun v => ?_⟩
  rw [List.mem_filter, decide_eq_true_eq, hreach, and_iff_right_iff_imp]
  rintro ⟨r, -, hn, hv⟩
  exact mem_nodes_of_reflTransGen ht hn hv

theorem invertedEdgeGraph_swap (ht : ∀ v w, g.Edge v w → w ∈ g.nodes) :
    g.invertedEdgeGraph.Edge = Function.swap g.Edge := by
  ext v w
  exact invertedEdgeGraph_edge ht

end Graph

/-! ## Queries -/

/-- The answer that a query should get. -/
def SearchQuery.Right (g : Graph N L) : SearchQuery N → Option (List N) → Prop
  | .dependencies node, answer =>
    if node ∈ g.nodes then ∃ found, answer = some found ∧ ∀ v, v ∈ found ↔ ReflTransGen g.Edge node v
    else answer = none
  | .findReachableNodes roots, answer =>
    ∃ found, answer = some found ∧ ∀ v, v ∈ found ↔ ∃ r ∈ roots, r ∈ g.nodes ∧ ReflTransGen g.Edge r v
  | .findDependentNodes nodes, answer =>
    ∃ found, answer = some found ∧ ∀ v, v ∈ found ↔ ∃ r ∈ nodes, ReflTransGen g.Edge v r

/-- Two graphs have the same nodes and the same edges. -/
def Graph.SameEdges (g g' : Graph N L) : Prop := g.nodes = g'.nodes ∧ g.edges = g'.edges

variable {M : MarkedGraph N L}

theorem findReachableNodes_marked (ht : ∀ v w, M.graph.Edge v w → w ∈ M.graph.nodes) (roots : List N) :
    ∃ M' found, M.findReachableNodes roots = .ok (M', found) ∧ M'.graph.SameEdges M.graph
      ∧ ∀ v, v ∈ found ↔ ∃ r ∈ roots, r ∈ M.graph.nodes ∧ ReflTransGen M.graph.Edge r v := by
  rw [MarkedGraph.findReachableNodes]
  split_ifs with h0
  · obtain rfl := List.length_eq_zero_iff.1 h0
    exact ⟨M, [], rfl, ⟨rfl, rfl⟩, by simp⟩
  · obtain ⟨m, found, hok, hmarked, hfound⟩ := markAll_spec ht roots
    rw [hok]
    refine ⟨⟨M.graph.setCycles (some []), fun _ => none⟩, found, ?_, ⟨rfl, rfl⟩, hfound⟩
    simp only [bind, Except.bind, hmarked]
    rfl

theorem SearchQuery.run_right (ht : ∀ v w, M.graph.Edge v w → w ∈ M.graph.nodes) (query : SearchQuery N) :
    ∃ M' answer, query.run M = .ok (M', answer) ∧ M'.graph.SameEdges M.graph ∧ query.Right M.graph answer := by
  cases query with
  | dependencies node =>
    rw [SearchQuery.run, MarkedGraph.dependencies]
    by_cases hn : node ∈ M.graph.nodes
    · obtain ⟨m, found, hok, hmarked, hfound⟩ := markAll_spec ht [node]
      rw [if_neg (not_not.2 hn), hok]
      refine ⟨⟨M.graph.setCycles (some []), m.info⟩, some found, ?_, ⟨rfl, rfl⟩, ?_⟩
      · simp only [bind, Except.bind, hmarked]
        rfl
      · rw [SearchQuery.Right, if_pos hn]
        exact ⟨found, rfl, fun v => (hfound v).trans (by simp [hn])⟩
    · rw [if_pos hn]
      exact ⟨M, none, rfl, ⟨rfl, rfl⟩, by rw [SearchQuery.Right, if_neg hn]⟩
  | findReachableNodes roots =>
    obtain ⟨M', found, hok, hsame, hfound⟩ := findReachableNodes_marked ht roots
    rw [SearchQuery.run, hok]
    exact ⟨M', some found, rfl, hsame, found, rfl, hfound⟩
  | findDependentNodes nodes =>
    have hedge := invertedEdgeGraph_swap ht
    have ht' : ∀ v w, M.invertedEdgeGraph.graph.Edge v w → w ∈ M.invertedEdgeGraph.graph.nodes := fun v w h => by
      have h : M.graph.invertedEdgeGraph.Edge v w := h
      rw [hedge] at h
      exact Edge.mem_nodes (g := M.graph) h
    obtain ⟨M', found, hok, -, hfound⟩ := findReachableNodes_marked ht' nodes
    rw [SearchQuery.run, MarkedGraph.findDependentNodes, hok]
    refine ⟨{ M with info := M'.info }, _, rfl, ⟨rfl, rfl⟩, (found ++ nodes).dedup, rfl, fun v => ?_⟩
    rw [List.mem_dedup, List.mem_append, hfound]
    have hreach : ∀ r, ReflTransGen M.invertedEdgeGraph.graph.Edge r v ↔ ReflTransGen M.graph.Edge v r := fun r => by
      show ReflTransGen M.graph.invertedEdgeGraph.Edge r v ↔ _
      rw [hedge]
      exact reflTransGen_swap
    simp only [hreach]
    constructor
    · rintro (⟨r, hr, -, hv⟩ | hv)
      · exact ⟨r, hr, hv⟩
      · exact ⟨v, hv, .refl⟩
    · rintro ⟨r, hr, hv⟩
      rcases ReflTransGen.cases_tail hv with rfl | ⟨u, -, hu⟩
      · exact .inr hr
      · exact .inl ⟨r, hr, ht u r hu, hv⟩

theorem Graph.SameEdges.edge {g' : Graph N L} (h : g.SameEdges g') : g.Edge = g'.Edge := by
  funext v w
  rw [Edge, Edge, out, out, h.2]

theorem SearchQuery.Right.congr {g' : Graph N L} (h : g.SameEdges g') {query : SearchQuery N}
    {answer : Option (List N)} (hr : query.Right g answer) : query.Right g' answer := by
  cases query <;> simpa only [SearchQuery.Right, h.edge, h.1] using hr

/-- Queries one after another, on a graph whose edges lead to nodes: all end, change no node and no edge, and
get the right answers. -/
theorem searches_exact (M : MarkedGraph N L) (ht : ∀ v w, M.graph.Edge v w → w ∈ M.graph.nodes)
    (queries : List (SearchQuery N)) : ∃ M' answers, SearchQuery.runAll M queries = .ok (M', answers) ∧ M'.graph.SameEdges M.graph
      ∧ List.Forall₂ (SearchQuery.Right M.graph) queries answers := by
  induction queries generalizing M with
  | nil => exact ⟨M, [], rfl, ⟨rfl, rfl⟩, .nil⟩
  | cons query queries ih =>
    obtain ⟨M₁, answer, hok, hsame, hright⟩ := query.run_right ht
    have ht₁ : ∀ v w, M₁.graph.Edge v w → w ∈ M₁.graph.nodes := by
      rw [hsame.edge, hsame.1]
      exact ht
    obtain ⟨M₂, answers, hok₂, hsame₂, hright₂⟩ := ih M₁ ht₁
    refine ⟨M₂, answer :: answers, ?_, ⟨hsame₂.1.trans hsame.1, hsame₂.2.trans hsame.2⟩, .cons hright ?_⟩
    · rw [SearchQuery.runAll, hok]
      simp only [bind, Except.bind, hok₂]
      rfl
    · exact hright₂.imp fun _ _ h => h.congr hsame

/-- A cycle of two nodes and a third node. -/
theorem searches_exact_cycle :
    let g : Graph (Fin 3) Unit := ((Graph.empty.addEdge 0 1 ()).addEdge 1 0 ()).addNode 2
    ∃ M' answers, SearchQuery.runAll ⟨g, fun _ => none⟩ [.findReachableNodes [0], .findDependentNodes [2]]
        = .ok (M', answers) ∧ M'.graph.SameEdges g
      ∧ List.Forall₂ (SearchQuery.Right g) [.findReachableNodes [0], .findDependentNodes [2]] answers :=
  searches_exact ⟨((Graph.empty.addEdge 0 1 ()).addEdge 1 0 ()).addNode 2, fun _ => none⟩ (by decide) _

end Congress
