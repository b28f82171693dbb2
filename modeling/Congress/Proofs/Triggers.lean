import Congress.Triggers
import Congress.Proofs.HasCycle

/-!
# The index of triggers

The index of a registry holds a trigger at exactly the tables that the trigger's own table depends on
(`TriggerRegistry.Indexed`), so that registering, unregistering and changes of the dependency graph
never fail.
-/

namespace Congress

open Lib Relation

namespace TriggerRegistry

variable {r : TriggerRegistry} {t t' : Trigger} {tables : List String} {x : String}
  {index : String → Option (Finset Trigger)}

/-- The tables that the one of a trigger depends on. -/
def DependsOn (r : TriggerRegistry) (t : Trigger) (x : String) : Prop :=
  ReflTransGen r.dependencyGraph.Edge t.fullTable x

structure Indexed (r : TriggerRegistry) : Prop where
  closed : ∀ v w, r.dependencyGraph.Edge v w → w ∈ r.dependencyGraph.nodes
  nodup : r.triggers.Nodup
  fresh : ∀ t ∈ r.triggers, t.id < r.created
  exact : ∀ x t, t ∈ (r.index x).getD ∅ ↔ t ∈ r.triggers ∧ r.DependsOn t x

theorem dependsOn_of_not_mem (h : t.fullTable ∉ r.dependencyGraph.nodes) :
    r.DependsOn t x ↔ x = t.fullTable := by
  refine ⟨fun hx => ?_, fun hx => hx ▸ .refl⟩
  rcases ReflTransGen.cases_head hx with rfl | ⟨y, hy, -⟩
  · rfl
  · exact absurd hy.mem_nodes h

/-- What a registry looks up for a trigger; only the known cycles change. -/
theorem deps_spec (hc : ∀ v w, r.dependencyGraph.Edge v w → w ∈ r.dependencyGraph.nodes)
    (t : Trigger) : ∃ cycles tables, r.deps t
        = .ok ({ r with dependencyGraph := r.dependencyGraph.setCycles cycles }, tables)
      ∧ ∀ x, x ∈ tables ↔ r.DependsOn t x := by
  unfold deps Graph.dependencies
  by_cases hn : t.fullTable ∈ r.dependencyGraph.nodes
  · obtain ⟨d, hok, h⟩ : ∃ d, r.dependencyGraph.dfs none _ t.fullTable [] .reset = .ok d ∧ _ :=
      Graph.dfs_spec hc r.dependencyGraph.dfsFuel hn (r.dependencyGraph.unbegun_lt_dfsFuel .reset)
    have hsearch : r.dependencyGraph.depthFirstSearch [t.fullTable] = .ok d := by
      rw [Graph.depthFirstSearch, List.foldlM_cons, if_pos ⟨hn, by simp [Graph.DfsData.reset]⟩, hok]
      rfl
    refine ⟨some [], _, by rw [if_neg (not_not.2 hn), hsearch]; rfl, fun x => ?_⟩
    simp only [Option.getD_some, List.mem_filter, decide_eq_true_eq]
    constructor
    · rintro ⟨-, hx⟩
      obtain ⟨v, hv, hx⟩ := (h.reach x hx).resolve_left List.not_mem_nil
      rw [List.mem_singleton.1 hv] at hx
      exact hx
    · intro hx
      refine ⟨mem_of_reflTransGen (p := (· ∈ r.dependencyGraph.nodes)) (fun v w _ => hc v w) hn hx,
        mem_of_reflTransGen (p := (· ∈ d.begun)) (fun v w hv hw => ?_) ?_ hx⟩
      · exact h.closed v hv List.not_mem_nil w hw
      · exact h.root _ (List.mem_singleton_self _)
  · refine ⟨r.dependencyGraph.cycles, _, by rw [if_pos hn]; rfl, fun x => ?_⟩
    rw [dependsOn_of_not_mem hn, Option.getD_none, List.mem_singleton]

theorem mem_addToIndex : ∀ {tables : List String} {index : String → Option (Finset Trigger)},
    t' ∈ (addToIndex t tables index x).getD ∅ ↔ t' ∈ (index x).getD ∅ ∨ t' = t ∧ x ∈ tables
  | [], index => by simp [addToIndex]
  | table :: tables, index => by
    rw [addToIndex, List.foldl_cons, ← addToIndex, mem_addToIndex, List.mem_cons]
    by_cases hx : x = table
    · subst hx
      simp only [Function.update_self, Option.getD_some, Finset.mem_insert, true_or, and_true]
      tauto
    · rw [Function.update_of_ne hx]
      simp [hx]

/-- A trigger is taken out of the index; every table of the loop is in it. -/
theorem deleteFromIndex_spec : ∀ {tables : List String} {index : String → Option (Finset Trigger)},
    (∀ x ∈ tables, index x ≠ none) → ∃ index', deleteFromIndex t tables index = .ok index'
      ∧ ∀ x t', t' ∈ (index' x).getD ∅ ↔ t' ∈ (index x).getD ∅ ∧ ¬ (t' = t ∧ x ∈ tables)
  | [], index, _ => ⟨index, rfl, by simp⟩
  | table :: tables, index, h => by
    obtain ⟨htable, htables⟩ := List.forall_mem_cons.1 h
    obtain ⟨ts, hts⟩ := Option.ne_none_iff_exists'.1 htable
    obtain ⟨index', hok, hindex'⟩ := @deleteFromIndex_spec tables
      (Function.update index table (some (ts.erase t))) fun x hx => by
        by_cases hx' : x = table
        · simp [hx']
        · rw [Function.update_of_ne hx']
          exact htables x hx
    refine ⟨index', by rw [deleteFromIndex, hts]; exact hok, fun x t' => ?_⟩
    rw [hindex', List.mem_cons]
    by_cases hx : x = table
    · subst hx
      simp only [Function.update_self, Option.getD_some, Finset.mem_erase, hts, true_or, and_true]
      tauto
    · rw [Function.update_of_ne hx]
      simp [hx]

theorem addIndexes_spec (hc : ∀ v w, r.dependencyGraph.Edge v w → w ∈ r.dependencyGraph.nodes)
    (t : Trigger) : ∃ cycles index, r.addIndexes t
        = .ok { r with dependencyGraph := r.dependencyGraph.setCycles cycles, index := index }
      ∧ ∀ x t', t' ∈ (index x).getD ∅ ↔ t' ∈ (r.index x).getD ∅ ∨ t' = t ∧ r.DependsOn t x := by
  obtain ⟨cycles, tables, hok, htables⟩ := deps_spec hc t
  refine ⟨cycles, addToIndex t tables r.index, by rw [addIndexes, hok]; rfl, fun x t' => ?_⟩
  rw [mem_addToIndex, htables]

theorem Indexed.registerTable (h : r.Indexed) (tablename policy : String) (callback : Callback)
    (modal : Option String) : ∃ r' t, r.registerTable tablename policy callback modal = .ok (r', t)
      ∧ r'.Indexed ∧ t = ⟨r.created, tablename, policy, modal, callback⟩ ∧ t ∉ r.triggers
      ∧ r'.triggers = r.triggers ++ [t] := by
  set t : Trigger := ⟨r.created, tablename, policy, modal, callback⟩ with ht
  have hnew : t ∉ r.triggers := fun hmem => absurd (h.fresh t hmem) (Nat.lt_irrefl _)
  obtain ⟨cycles, index, hok, hindex⟩ := addIndexes_spec
    (r := { r with triggers := r.triggers ++ [t], created := r.created + 1 }) h.closed t
  have hreg : r.registerTable tablename policy callback modal = .ok (⟨r.dependencyGraph.setCycles cycles,
      r.triggers ++ [t], index, r.created + 1⟩, t) := by
    rw [TriggerRegistry.registerTable, ← ht, hok]
    rfl
  refine ⟨_, t, hreg, ⟨h.closed, ?_, ?_, ?_⟩, rfl, hnew, rfl⟩
  · exact h.nodup.append (List.nodup_singleton t) (List.disjoint_singleton.2 hnew)
  · intro t' ht'
    rcases List.mem_append.1 ht' with ht' | ht'
    · exact (h.fresh t' ht').trans (Nat.lt_succ_self _)
    · rw [List.mem_singleton.1 ht']
      exact Nat.lt_succ_self _
  · intro x t'
    rw [hindex, List.mem_append, List.mem_singleton, or_and_right]
    refine or_congr (h.exact x t') (and_congr_right ?_)
    rintro rfl
    exact .rfl

theorem Indexed.unregister (h : r.Indexed) (ht : t ∈ r.triggers) :
    ∃ r', r.unregister t = .ok r' ∧ r'.Indexed ∧ r'.triggers = r.triggers.erase t := by
  obtain ⟨cycles, tables, hok, htables⟩ := deps_spec (r := { r with triggers := r.triggers.erase t })
    h.closed t
  have hin : ∀ x ∈ tables, r.index x ≠ none := fun x hx hnone => by
    have := (h.exact x t).2 ⟨ht, (htables x).1 hx⟩
    simp [hnone] at this
  obtain ⟨index, hdel, hindex⟩ := deleteFromIndex_spec (t := t) hin
  refine ⟨⟨r.dependencyGraph.setCycles cycles, r.triggers.erase t, index, r.created⟩, ?_,
    ⟨h.closed, h.nodup.erase t, fun t' ht' => h.fresh t' (List.mem_of_mem_erase ht'), ?_⟩, rfl⟩
  · rw [TriggerRegistry.unregister, if_pos ht, deleteIndexes, hok]
    show (deleteFromIndex t tables r.index).bind _ = _
    rw [hdel]
    rfl
  · intro x t'
    rw [hindex, h.exact, htables, h.nodup.mem_erase_iff]
    constructor
    · rintro ⟨⟨ht', hx⟩, hne⟩
      exact ⟨⟨fun he => hne ⟨he, he ▸ hx⟩, ht'⟩, hx⟩
    · rintro ⟨⟨hne, ht'⟩, hx⟩
      exact ⟨⟨ht', hx⟩, fun he => hne he.1⟩

/-- The loop of `update_dependencies`. -/
theorem foldlM_addIndexes : ∀ {ts : List Trigger} {r : TriggerRegistry},
    (∀ v w, r.dependencyGraph.Edge v w → w ∈ r.dependencyGraph.nodes) →
      ∃ cycles index, ts.foldlM addIndexes r
          = .ok { r with dependencyGraph := r.dependencyGraph.setCycles cycles, index := index }
        ∧ ∀ x t, t ∈ (index x).getD ∅ ↔ t ∈ (r.index x).getD ∅ ∨ t ∈ ts ∧ r.DependsOn t x
  | [], r, _ => ⟨r.dependencyGraph.cycles, r.index, rfl, by simp⟩
  | t :: ts, r, hc => by
    obtain ⟨cycles, index, hok, hindex⟩ := addIndexes_spec hc t
    obtain ⟨cycles', index', hok', hindex'⟩ := @foldlM_addIndexes ts
      { r with dependencyGraph := r.dependencyGraph.setCycles cycles, index := index } hc
    refine ⟨cycles', index', by rw [List.foldlM_cons, hok]; exact hok', fun x t' => ?_⟩
    rw [hindex', hindex, List.mem_cons, or_and_right, or_assoc]
    refine or_congr_right (or_congr_left (and_congr_right ?_))
    rintro rfl
    exact .rfl

theorem Indexed.updateDependencies (h : r.Indexed) {graph : Graph String Bool}
    (hc : ∀ v w, graph.Edge v w → w ∈ graph.nodes) :
    ∃ r', r.updateDependencies graph = .ok r' ∧ r'.Indexed ∧ r'.triggers = r.triggers := by
  obtain ⟨cycles, index, hok, hindex⟩ := @foldlM_addIndexes r.triggers
    { r with dependencyGraph := graph, index := fun _ => none } hc
  refine ⟨_, hok, ⟨hc, h.nodup, h.fresh, fun x t => ?_⟩, rfl⟩
  rw [hindex]
  simp only [Option.getD_none, Finset.notMem_empty, false_or]
  exact .rfl

theorem indexed_empty : (empty .empty).Indexed where
  closed v w h := by simp [empty, Graph.empty, Graph.Edge, Graph.out] at h
  nodup := .nil
  fresh := by simp [empty]
  exact := by simp [empty]

end TriggerRegistry

end Congress
