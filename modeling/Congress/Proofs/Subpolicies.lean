import Congress.Proofs.Bags
import Congress.Proofs.Reachability
import Congress.Subpolicy

/-!
# What a subpolicy contains

The rules that `find_subpolicy` returns support an output table and depend on no prohibited table that
is not itself for output, those for output tables depend on a required table, and no rule that is
needed is left out (`findSubpolicy_spec`). That takes that the names under which tables are looked up
mean what the names in the graph mean, and that a rule that is dropped defines one table only: the graph
forgets it once for every output table that it defines.
-/

namespace Congress

open Lib Relation

set_option linter.unusedSectionVars false

variable {V : Type*} [DecidableEq V]

theorem Tablename.globalTablename_none (t : Tablename) : t.globalTablename none = t.name none := by
  rcases t with ⟨_ | service, table, modal⟩ <;> rfl

/-! ## Dependence -/

/-- The full names of the tables in the heads. -/
def Rule.defined (r : Rule V) : List String := r.heads.map (·.tablename none)

/-- The full names of the tables in the body. -/
def Rule.used (r : Rule V) : List String := r.body.map (·.tablename none)

/-- `b` occurs in the body of a rule with `a` in the head. -/
def DependsDirectly (rules : Set (Rule V)) (a b : String) : Prop :=
  ∃ r ∈ rules, a ∈ r.defined ∧ b ∈ r.used

/-- Table `a` depends on table `b`. -/
def DependsOn (rules : Set (Rule V)) : String → String → Prop := TransGen (DependsDirectly rules)

/-- Table `a` is table `b` or depends on it. -/
def Reaches (rules : Set (Rule V)) : String → String → Prop := ReflTransGen (DependsDirectly rules)

variable {rules rules' : Set (Rule V)} {a b : String} {r r' : Rule V} {rs ds kept : List (Rule V)}
  {g : RuleDependencyGraph} {s : Subpolicy V} {T T' : String}

theorem DependsDirectly.mono (h : rules ⊆ rules') (hab : DependsDirectly rules a b) :
    DependsDirectly rules' a b := by
  obtain ⟨r, hr, hab⟩ := hab
  exact ⟨r, h hr, hab⟩

theorem Reaches.mono (h : rules ⊆ rules') (hab : Reaches rules a b) : Reaches rules' a b :=
  ReflTransGen.mono (fun _ _ => DependsDirectly.mono h) _ _ hab

/-! ## Graphs of rules -/

/-- The nodes of a rule. -/
def Rule.nodes (r : Rule V) : List String :=
  (r.heads.flatMap fun head => head.tablename none :: r.used).dedup

/-- The edges of a rule, with their labels. -/
def Rule.edges (r : Rule V) : List (String × String × Bool) :=
  (r.heads.flatMap fun head =>
    r.body.map fun lit => (head.tablename none, lit.tablename none, lit.negated)).dedup

/-- The graph is that of the rules. -/
structure Represents (g : RuleDependencyGraph) (rs : List (Rule V)) : Prop where
  headToBody : g.headToBody = true
  holds : g.bag.Holds ↑(rs.flatMap Rule.nodes) ↑(rs.flatMap Rule.edges)

theorem represents_init : Represents (.init true) ([] : List (Rule V)) :=
  ⟨rfl, BagGraph.holds_empty⟩

theorem Represents.perm (h : Represents g rs) (hp : rs.Perm ds) : Represents g ds :=
  ⟨h.headToBody, by
    rw [← Multiset.coe_eq_coe.2 (hp.flatMap_right _), ← Multiset.coe_eq_coe.2 (hp.flatMap_right _)]
    exact h.holds⟩

theorem formulaNodesEdges_rule (hr : (Formula.rule r).isAtomLike = false) : ∃ ne,
    RuleDependencyGraph.formulaNodesEdges true .all (.rule r) none = some ne
      ∧ ne.nodes = r.nodes ∧ ne.edges = r.edges := by
  have hname : ∀ l : Literal V, l.table.globalTablename none = l.tablename none := fun l =>
    l.table.globalTablename_none
  unfold RuleDependencyGraph.formulaNodesEdges
  rw [if_neg (by simp [hr])]
  simp only [Selection.all, List.filter_true, hname]
  exact ⟨_, rfl, rfl, rfl⟩

theorem Represents.insert (h : Represents g rs) (hr : (Formula.rule r).isAtomLike = false) :
    ∃ ne, RuleDependencyGraph.formulaNodesEdges g.headToBody .all (.rule r) none = some ne
      ∧ Represents (g.applyEvent ne true).1 (r :: rs) := by
  obtain ⟨ne, hne, hnodes, hedges⟩ := formulaNodesEdges_rule hr
  refine ⟨ne, h.headToBody ▸ hne, h.headToBody, ?_⟩
  rw [List.flatMap_cons, List.flatMap_cons, ← hnodes, ← hedges, ← Multiset.coe_add, ← Multiset.coe_add,
    add_comm, add_comm (Multiset.ofList ne.edges)]
  exact (h.holds.addNodes ne.nodes).addEdges ne.edges

theorem represents_formulaUpdate : ∀ (rs : List (Rule V)) {ds : List (Rule V)} {g : RuleDependencyGraph},
    Represents g ds → (∀ r ∈ rs, (Formula.rule r).isAtomLike = false) → ∃ g' changes,
      g.formulaUpdate .all (rs.map fun rule => ⟨.rule rule, true, none⟩) = (g', some changes)
        ∧ Represents g' (rs ++ ds)
  | [], ds, g, h, _ => ⟨g, [], rfl, h⟩
  | r :: rs, ds, g, h, hrs => by
    obtain ⟨hr, hrs⟩ := List.forall_mem_cons.1 hrs
    obtain ⟨ne, hne, h₁⟩ := h.insert hr
    obtain ⟨g', changes, hrun, h'⟩ := represents_formulaUpdate rs h₁ hrs
    refine ⟨g', (g.applyEvent ne true).2 ++ changes, ?_, h'.perm List.perm_middle⟩
    rw [List.map_cons, RuleDependencyGraph.formulaUpdate, hne]
    dsimp only
    rw [hrun]
    rfl

theorem Represents.delete (h : Represents g (r :: rs)) (hr : (Formula.rule r).isAtomLike = false) :
    Represents (Subpolicy.formulaDelete g r) rs := by
  obtain ⟨ne, hne, hnodes, hedges⟩ := formulaNodesEdges_rule hr
  have hholds := h.holds
  rw [List.flatMap_cons, List.flatMap_cons, ← hnodes, ← hedges, ← Multiset.coe_add, ← Multiset.coe_add,
    add_comm, add_comm (Multiset.ofList ne.edges)] at hholds
  have hbag := hholds.deleteNodes.deleteEdges
  unfold Subpolicy.formulaDelete
  rw [RuleDependencyGraph.formulaUpdate]
  dsimp only
  rw [h.headToBody, hne]
  exact ⟨h.headToBody, hbag⟩

theorem Represents.deleteAll : ∀ {ds : List (Rule V)} {g : RuleDependencyGraph},
    Represents g (ds ++ rs) → (∀ r ∈ ds, (Formula.rule r).isAtomLike = false) →
      Represents (ds.foldl Subpolicy.formulaDelete g) rs
  | [], _, h, _ => h
  | _ :: _, _, h, hds => by
    obtain ⟨hr, hds⟩ := List.forall_mem_cons.1 hds
    exact (h.delete hr).deleteAll hds

theorem Represents.edge_iff (h : Represents g rs) :
    g.bag.graph.Edge a b ↔ DependsDirectly {r | r ∈ rs} a b := by
  rw [h.holds.edge_iff]
  simp only [DependsDirectly, Rule.defined, Rule.used, Rule.edges, Multiset.mem_coe, List.mem_flatMap,
    List.mem_dedup, List.mem_map, Prod.mk.injEq, Set.mem_ofPred_eq]
  constructor
  · rintro ⟨l, r, hr, head, hhead, lit, hlit, ha, hb, -⟩
    exact ⟨r, hr, ⟨head, hhead, ha⟩, lit, hlit, hb⟩
  · rintro ⟨r, hr, ⟨head, hhead, ha⟩, lit, hlit, hb⟩
    exact ⟨_, r, hr, head, hhead, lit, hlit, ha, hb, rfl⟩

theorem Represents.edge_eq (h : Represents g rs) : g.bag.graph.Edge = DependsDirectly {r | r ∈ rs} := by
  ext a b
  exact h.edge_iff

theorem Represents.mem_nodes (h : Represents g rs) (hr : r ∈ rs) (ha : a ∈ r.defined) :
    a ∈ g.bag.graph.nodes := by
  obtain ⟨head, hhead, rfl⟩ := List.mem_map.1 ha
  refine h.holds.mem_nodes.2 (.inl (Multiset.mem_coe.2 (List.mem_flatMap.2 ⟨r, hr, ?_⟩)))
  exact List.mem_dedup.2 (List.mem_flatMap.2 ⟨head, hhead, List.mem_cons_self ..⟩)

/-! ## Definitions -/

/-- A head has the table's name, whatever its service. -/
def Rule.defines (r : Rule V) (T : String) : Bool := r.heads.any (·.table.table = T)

/-- No two of the rules are equal up to the order of their literals. -/
def DistinctRules (rs : List (Rule V)) : Prop := rs.Pairwise fun r r' => r.same r' = false

theorem DistinctRules.eq_of_same : ∀ {rs : List (Rule V)}, DistinctRules rs → r ∈ rs → r' ∈ rs →
    r.same r' = true → r = r'
  | [], _, hr, _, _ => absurd hr List.not_mem_nil
  | o :: rs, h, hr, hr', hsame => by
    obtain ⟨ho, hrs⟩ := List.pairwise_cons.1 h
    rcases List.mem_cons.1 hr with rfl | hmem
    · rcases List.mem_cons.1 hr' with rfl | hmem'
      · rfl
      · exact absurd hsame (by simp [ho r' hmem'])
    · rcases List.mem_cons.1 hr' with rfl | hmem'
      · exact absurd (Rule.same_symm hsame) (by simp [ho r hmem])
      · exact eq_of_same hrs hmem hmem' hsame

theorem addRule_addRule (rs : List (Rule V)) (r : Rule V) :
    addRule (addRule rs r) r = addRule rs r := by
  have hany : (addRule rs r).any (·.same r) = true := by
    rw [addRule]
    split_ifs with h
    · exact h
    · simp [Rule.same_refl]
  conv_lhs => rw [addRule, if_pos hany]

theorem definitionsOf_heads (r : Rule V) (T : String) : ∀ (heads : List (Literal V))
    (definitions : String → Option (List (Rule V))),
    (heads.foldl (fun (definitions : String → Option (List (Rule V))) head =>
        Function.update definitions head.table.table
        (some (addRule ((definitions head.table.table).getD []) r))) definitions T).getD []
      = if heads.any (·.table.table = T) then addRule ((definitions T).getD []) r
        else (definitions T).getD []
  | [], _ => by simp
  | head :: heads, definitions => by
    rw [List.foldl_cons, definitionsOf_heads r T heads, List.any_cons]
    by_cases hT : head.table.table = T
    · subst hT
      simp [addRule_addRule]
    · simp [hT, Function.update_of_ne (Ne.symm hT)]

theorem definitionsOf_fold (T : String) : ∀ (rs ds : List (Rule V))
    (definitions : String → Option (List (Rule V))), DistinctRules (ds ++ rs) →
      (definitions T).getD [] = ds.filter (·.defines T) →
      ((rs.foldl (fun definitions rule => rule.heads.foldl (fun definitions head =>
        Function.update definitions head.table.table
          (some (addRule ((definitions head.table.table).getD []) rule))) definitions) definitions)
            T).getD [] = (ds ++ rs).filter (·.defines T)
  | [], ds, _, _, h => by simpa using h
  | r :: rs, ds, definitions, hdist, h => by
    rw [List.append_cons] at hdist ⊢
    rw [List.foldl_cons]
    refine definitionsOf_fold T rs _ _ hdist ?_
    rw [definitionsOf_heads, h, List.filter_append]
    show (if r.defines T = true then _ else _) = _
    split_ifs with hT
    · have hnew : ¬ (ds.filter (·.defines T)).any (·.same r) = true := by
        rw [List.any_eq_true]
        rintro ⟨r', hr', hsame⟩
        have hpair := (List.pairwise_append.1 (List.pairwise_append.1 hdist).1).2.2 r'
          (List.mem_of_mem_filter hr') r (List.mem_singleton_self r)
        exact absurd hsame (by simp [hpair])
      rw [addRule, if_neg hnew]
      simp [hT]
    · simp [hT]

theorem definitionsOf_eq (hdist : DistinctRules rs) (T : String) :
    (definitionsOf rs T).getD [] = rs.filter (·.defines T) := by
  have := definitionsOf_fold T rs [] (fun _ => none) (by simpa using hdist) rfl
  exact this

theorem mem_foldl_addRule {pool : List (Rule V)} (hdist : DistinctRules pool) : ∀ {new rs : List (Rule V)},
    (∀ r ∈ new, r ∈ pool) → (∀ r ∈ rs, r ∈ pool) →
      (r ∈ new.foldl addRule rs ↔ r ∈ rs ∨ r ∈ new)
  | [], rs, _, _ => by simp
  | r' :: new, rs, hnew, hrs => by
    obtain ⟨hr', hnew⟩ := List.forall_mem_cons.1 hnew
    have hadd : ∀ o, o ∈ addRule rs r' ↔ o ∈ rs ∨ o = r' := by
      intro o
      rw [addRule]
      split_ifs with h
      · refine ⟨.inl, fun ho => ho.elim id fun ho => ?_⟩
        obtain ⟨r₀, hr₀, hsame⟩ := List.any_eq_true.1 h
        rw [ho, ← hdist.eq_of_same (hrs r₀ hr₀) hr' hsame]
        exact hr₀
      · simp
    have hrs' : ∀ o ∈ addRule rs r', o ∈ pool := fun o ho => by
      rcases (hadd o).1 ho with ho | rfl
      · exact hrs o ho
      · exact hr'
    rw [List.foldl_cons, mem_foldl_addRule hdist hnew hrs', hadd, List.mem_cons, or_assoc]

namespace Subpolicy

/-- The rules kept for a table. -/
def rulesFor (s : Subpolicy V) (T : String) : List (Rule V) := (s.definitions T).getD []

theorem mem_rulesOf {pool : List (Rule V)} (hdist : DistinctRules pool)
    (hs : ∀ T, ∀ r ∈ s.rulesFor T, r ∈ pool) (tables : List String) :
    r ∈ s.rulesOf tables ↔ ∃ T ∈ tables, r ∈ s.rulesFor T := by
  have hfold : ∀ (tables : List String) (rs : List (Rule V)), (∀ r ∈ rs, r ∈ pool) →
      (r ∈ tables.foldl (fun subpolicy table => (s.rulesFor table).foldl addRule subpolicy) rs
        ↔ r ∈ rs ∨ ∃ T ∈ tables, r ∈ s.rulesFor T) := by
    intro tables
    induction tables with
    | nil => simp
    | cons T tables ih =>
      intro rs hrs
      have hmem : ∀ r, r ∈ (s.rulesFor T).foldl addRule rs ↔ r ∈ rs ∨ r ∈ s.rulesFor T := fun r =>
        mem_foldl_addRule hdist (hs T) hrs
      rw [List.foldl_cons, ih _ fun r hr => ((hmem r).1 hr).elim (hrs r) (hs T r), hmem, or_assoc]
      simp
  have := hfold tables [] (by simp)
  simpa [rulesOf, rulesFor] using this

/-! ## Filtering -/

theorem filterTable_graph (permitted : Rule V → Bool) (s : Subpolicy V) (T : String) :
    (s.filterTable permitted T).graph
      = ((s.rulesFor T).filter (!permitted ·)).foldl formulaDelete s.graph := by
  unfold filterTable rulesFor
  rcases s.definitions T with _ | rs <;> rfl

theorem filterTable_rulesFor (permitted : Rule V → Bool) (s : Subpolicy V) (T T' : String) :
    (s.filterTable permitted T).rulesFor T'
      = if T' = T then (s.rulesFor T).filter permitted else s.rulesFor T' := by
  unfold filterTable
  rcases hT : s.definitions T with _ | rs
  · simp only [rulesFor, hT, Option.getD_none, List.filter_nil]
    split_ifs with h
    · rw [h, hT]
      rfl
    · rfl
  · simp only [rulesFor, hT, Option.getD_some]
    split_ifs with h
    · rw [h, Function.update_self]
      rfl
    · rw [Function.update_of_ne h]

/-- The rule is not dropped on account of one of the tables. -/
def Stays (permitted : Rule V → Bool) (tables : List String) (r : Rule V) : Bool :=
  permitted r || !r.heads.any (·.table.table ∈ tables)

/-- What filtering the definitions of some tables leaves of rules that have been kept so far. -/
structure Filtered (permitted : Rule V → Bool) (kept : List (Rule V)) (D : String → List (Rule V))
    (tables : List String) (s : Subpolicy V) : Prop where
  graph : Represents s.graph (kept.filter (Stays permitted tables))
  definitions : ∀ T, s.rulesFor T = if T ∈ tables then (D T).filter permitted else D T

theorem Filtered.table {permitted : Rule V → Bool} {D : String → List (Rule V)} {tables : List String}
    (h : Filtered permitted kept D tables s) (hfacts : ∀ r ∈ kept, (Formula.rule r).isAtomLike = false)
    (hD : D T = kept.filter (·.defines T))
    (halone : ∀ r ∈ kept, permitted r = false → r.defines T = true →
      ∀ head ∈ r.heads, head.table.table = T) :
    Filtered permitted kept D (T :: tables) (s.filterTable permitted T) where
  graph := by
    rw [filterTable_graph, h.definitions]
    by_cases hT : T ∈ tables
    · have hstays : kept.filter (Stays permitted (T :: tables)) = kept.filter (Stays permitted tables) := by
        refine List.filter_congr fun r _ => ?_
        have hmem : ∀ x, x ∈ T :: tables ↔ x ∈ tables := fun x =>
          ⟨fun hx => (List.mem_cons.1 hx).elim (· ▸ hT) id, List.mem_cons_of_mem _⟩
        simp only [Stays, hmem]
      rw [if_pos hT, hstays, List.filter_filter]
      simpa using h.graph
    · rw [if_neg hT, hD, List.filter_filter]
      refine Represents.deleteAll (h.graph.perm ?_) fun r hr => hfacts r (List.mem_of_mem_filter hr)
      -- the rules dropped now, and those that stay
      have hsplit := List.filter_append_perm (fun r : Rule V => !permitted r && r.defines T)
        (kept.filter (Stays permitted tables))
      rw [List.filter_filter, List.filter_filter] at hsplit
      refine hsplit.symm.trans (List.Perm.of_eq (congrArg₂ (· ++ ·) ?_ ?_))
      · refine List.filter_congr fun r hr => ?_
        rcases hp : permitted r with _ | _
        · rcases hd : r.defines T with _ | _
          · simp
          · have hnone : r.heads.any (·.table.table ∈ tables) = false := by
              rw [List.any_eq_false]
              intro head hhead
              rw [halone r hr hp hd head hhead]
              simpa using hT
            simp [Stays, hnone]
        · simp
      · refine List.filter_congr fun r hr => ?_
        have hany : r.heads.any (·.table.table ∈ T :: tables)
            = (r.defines T || r.heads.any (·.table.table ∈ tables)) := by
          rw [Bool.eq_iff_iff, Bool.or_eq_true]
          simp only [Rule.defines, List.any_eq_true, List.mem_cons, decide_eq_true_eq]
          constructor
          · rintro ⟨head, hhead, hh | hh⟩
            · exact .inl ⟨head, hhead, hh⟩
            · exact .inr ⟨head, hhead, hh⟩
          · rintro (⟨head, hhead, hh⟩ | ⟨head, hhead, hh⟩)
            · exact ⟨head, hhead, .inl hh⟩
            · exact ⟨head, hhead, .inr hh⟩
        rw [Stays, Stays, hany]
        cases permitted r <;> cases r.defines T <;> simp
  definitions T' := by
    rw [filterTable_rulesFor, h.definitions, h.definitions]
    by_cases hT' : T' = T
    · subst hT'
      by_cases hT : T' ∈ tables <;> simp [hT, List.filter_filter]
    · simp [hT']

theorem Filtered.tables {permitted : Rule V → Bool} {D : String → List (Rule V)}
    (hfacts : ∀ r ∈ kept, (Formula.rule r).isAtomLike = false) : ∀ {new done : List String}
    {s : Subpolicy V}, Filtered permitted kept D done s →
      (∀ T ∈ new, D T = kept.filter (·.defines T)) →
      (∀ T ∈ new, ∀ r ∈ kept, permitted r = false → r.defines T = true →
        ∀ head ∈ r.heads, head.table.table = T) →
      Filtered permitted kept D (new.reverse ++ done) (s.filterOutputDefinitions new permitted)
  | [], _, _, h, _, _ => h
  | T :: new, done, s, h, hD, halone => by
    obtain ⟨hDT, hD⟩ := List.forall_mem_cons.1 hD
    obtain ⟨haloneT, halone⟩ := List.forall_mem_cons.1 halone
    rw [List.reverse_cons, List.append_assoc]
    exact (h.table hfacts hDT haloneT).tables hfacts hD halone

/-- What a whole phase of filtering leaves. -/
theorem filterOutputDefinitions_spec (permitted : Rule V → Bool) (tables : List String)
    (hgraph : Represents s.graph kept) (hfacts : ∀ r ∈ kept, (Formula.rule r).isAtomLike = false)
    (hD : ∀ T ∈ tables, s.rulesFor T = kept.filter (·.defines T))
    (halone : ∀ r ∈ kept, permitted r = false → ∀ T ∈ tables, r.defines T = true →
      ∀ head ∈ r.heads, head.table.table = T) :
    Represents (s.filterOutputDefinitions tables permitted).graph (kept.filter (Stays permitted tables))
      ∧ ∀ T, (s.filterOutputDefinitions tables permitted).rulesFor T
        = if T ∈ tables then (s.rulesFor T).filter permitted else s.rulesFor T := by
  have hstart : Filtered permitted kept s.rulesFor [] s := by
    refine ⟨?_, fun T => by simp⟩
    rw [List.filter_eq_self.2 fun r _ => by simp [Stays]]
    exact hgraph
  have h := hstart.tables hfacts hD fun T hT r hr hp => halone r hr hp T hT
  rw [List.append_nil] at h
  refine ⟨?_, fun T => by simpa using h.definitions T⟩
  have hstays : Stays permitted tables.reverse = Stays (V := V) permitted tables := by
    funext r
    simp [Stays]
  exact hstays ▸ h.graph

end Subpolicy

/-! ## Which rules are returned -/

section Choice

variable (rs : List (Rule V)) (required prohibited outputs : List String)

/-- The rule defines an output table, by the name without a service. -/
def ForOutput (r : Rule V) : Prop := ∃ T ∈ outputs, r.defines T = true

/-- The table depends on a prohibited table or is one, and is not for output. -/
def Barred (T : String) : Prop := T ∉ outputs ∧ ∃ p ∈ prohibited, Reaches {r | r ∈ rs} T p

/-- The rules without those for output tables in whose body a table is barred. -/
def Remaining : Set (Rule V) :=
  {r | r ∈ rs ∧ ¬ (ForOutput outputs r ∧ ∃ lit ∈ r.body, Barred rs prohibited outputs lit.table.table)}

/-- The table is required, or depends on a table that is by the rules that remain. -/
def Wanted (T : String) : Prop := ∃ q ∈ required, Reaches (Remaining rs prohibited outputs) T q

/-- The rule is for an output table, and a table in its body is barred or none is wanted. -/
def Dropped (r : Rule V) : Prop :=
  ForOutput outputs r ∧ ((∃ lit ∈ r.body, Barred rs prohibited outputs lit.table.table)
    ∨ ∀ lit ∈ r.body, ¬ Wanted rs required prohibited outputs lit.table.table)

def KeptRules : Set (Rule V) := {r | r ∈ rs ∧ ¬ Dropped rs required prohibited outputs r}

/-- The names without a service, under which tables are looked up, mean what the full names mean:
for heads where output tables depend on them, for the bodies of rules for output tables. -/
structure Lookups : Prop where
  heads : ∀ r ∈ rs, ∀ head ∈ r.heads, ∀ T, (∃ o ∈ outputs, Reaches {r | r ∈ rs} o T) →
    (head.table.table = T ↔ head.tablename none = T)
  barred : ∀ r ∈ rs, ForOutput outputs r → ∀ lit ∈ r.body,
    (Barred rs prohibited outputs lit.table.table ↔ Barred rs prohibited outputs (lit.tablename none))
  wanted : ∀ r ∈ rs, ForOutput outputs r → ∀ lit ∈ r.body,
    (Wanted rs required prohibited outputs lit.table.table
      ↔ Wanted rs required prohibited outputs (lit.tablename none))

/-- A rule that is dropped defines one table only. -/
def DroppedAlone : Prop :=
  ∀ r ∈ rs, Dropped rs required prohibited outputs r → ∀ head ∈ r.heads, ∀ head' ∈ r.heads,
    head.table.table = head'.table.table

end Choice

variable {required prohibited outputs : List String}

theorem defines_iff : r.defines T = true ↔ ∃ head ∈ r.heads, head.table.table = T := by
  simp [Rule.defines]

theorem any_heads_iff : r.heads.any (·.table.table ∈ outputs) = true ↔ ForOutput outputs r := by
  simp only [ForOutput, defines_iff, List.any_eq_true, decide_eq_true_eq]
  constructor
  · rintro ⟨head, hhead, hT⟩
    exact ⟨_, hT, head, hhead, rfl⟩
  · rintro ⟨T, hT, head, hhead, rfl⟩
    exact ⟨head, hhead, hT⟩

theorem Subpolicy.stays_iff {permitted : Rule V → Bool} :
    Subpolicy.Stays permitted outputs r = true ↔ (ForOutput outputs r → permitted r = true) := by
  rw [Subpolicy.Stays, Bool.or_eq_true, Bool.not_eq_true', ← Bool.not_eq_true, any_heads_iff]
  tauto

theorem keptRules_subset : KeptRules rs required prohibited outputs ⊆ {r | r ∈ rs} := fun _ h => h.1

/-- The name without the service of a table that output tables depend on. -/
theorem Lookups.defines_iff (h : Lookups rs required prohibited outputs) (hr : r ∈ rs)
    (hT : ∃ o ∈ outputs, Reaches {r | r ∈ rs} o T) : r.defines T = true ↔ T ∈ r.defined := by
  rw [Congress.defines_iff, Rule.defined, List.mem_map]
  exact exists_congr fun head => and_congr_right fun hhead => h.heads r hr head hhead T hT

/-- The rules returned are those kept that define a table which an output table is or depends on. -/
theorem findSubpolicy_mem (hdist : DistinctRules rs)
    (hfacts : ∀ r ∈ rs, (Formula.rule r).isAtomLike = false)
    (hnames : Lookups rs required prohibited outputs)
    (halone : DroppedAlone rs required prohibited outputs) :
    ∃ sub, findSubpolicy rs required prohibited outputs = .ok sub
      ∧ ∀ r, r ∈ sub ↔ r ∈ KeptRules rs required prohibited outputs
        ∧ ∃ o ∈ outputs, ∃ T ∈ r.defined, Reaches (KeptRules rs required prohibited outputs) o T := by
  -- the graph of all rules
  obtain ⟨g, changes, hrun, hg⟩ := represents_formulaUpdate rs represents_init hfacts
  rw [List.append_nil] at hg
  obtain ⟨dependent, hdep, hdependent⟩ := Graph.findDependentNodes_spec
    (fun v w => hg.holds.edge_target) prohibited
  have hbarred : ∀ T, T ∈ dependent.filter (· ∉ outputs) ↔ Barred rs prohibited outputs T := by
    intro T
    rw [List.mem_filter, decide_eq_true_eq, hdependent, hg.edge_eq, and_comm]
    rfl
  set permitted₁ : Rule V → Bool := fun rule =>
    rule.body.all fun lit => lit.table.table ∉ dependent.filter (· ∉ outputs) with hp₁
  have hpermitted₁ : ∀ r, permitted₁ r = true
      ↔ ¬ ∃ lit ∈ r.body, Barred rs prohibited outputs lit.table.table := by
    intro r
    simp only [hp₁, List.all_eq_true, decide_eq_true_eq, hbarred, not_exists, not_and]
  -- the first phase
  have hstart : ∀ T, Subpolicy.rulesFor ⟨g, definitionsOf rs⟩ T = rs.filter (·.defines T) :=
    definitionsOf_eq hdist
  obtain ⟨hg₁, hrules₁⟩ := Subpolicy.filterOutputDefinitions_spec permitted₁ outputs
    (s := ⟨g, definitionsOf rs⟩) hg hfacts (fun T _ => hstart T)
    fun r hr hp T hT hd head hhead => by
      obtain ⟨head', hhead', rfl⟩ := defines_iff.1 hd
      refine halone r hr ⟨⟨_, hT, hd⟩, .inl ?_⟩ head hhead head' hhead'
      by_contra hno
      exact absurd ((hpermitted₁ r).2 hno) (by simp [hp])
  generalize hs₁ : Subpolicy.filterOutputDefinitions outputs permitted₁ ⟨g, definitionsOf rs⟩ = s₁
    at hg₁ hrules₁
  have hkept₁ : ∀ r, r ∈ rs.filter (Subpolicy.Stays permitted₁ outputs)
      ↔ r ∈ Remaining rs prohibited outputs := by
    intro r
    rw [List.mem_filter, Subpolicy.stays_iff, hpermitted₁]
    simp only [Remaining, Set.mem_ofPred_eq, not_and]
  obtain ⟨requiredNodes, hreq, hrequired⟩ := Graph.findDependentNodes_spec
    (fun v w => hg₁.holds.edge_target) required
  have hwanted : ∀ T, T ∈ requiredNodes ↔ Wanted rs required prohibited outputs T := by
    intro T
    rw [hrequired, hg₁.edge_eq, show {r | r ∈ rs.filter (Subpolicy.Stays permitted₁ outputs)}
      = Remaining rs prohibited outputs from Set.ext hkept₁]
    rfl
  set permitted₂ : Rule V → Bool := fun rule =>
    rule.body.any fun lit => lit.table.table ∈ requiredNodes with hp₂
  have hpermitted₂ : ∀ r, permitted₂ r = true
      ↔ ¬ ∀ lit ∈ r.body, ¬ Wanted rs required prohibited outputs lit.table.table := by
    intro r
    simp only [hp₂, List.any_eq_true, decide_eq_true_eq, hwanted, not_forall, not_not, exists_prop]
  -- the second phase
  have hrules₁' : ∀ T ∈ outputs, s₁.rulesFor T
      = (rs.filter (Subpolicy.Stays permitted₁ outputs)).filter (·.defines T) := by
    intro T hT
    rw [hrules₁, if_pos hT, hstart, List.filter_filter, List.filter_filter]
    refine List.filter_congr fun r _ => ?_
    rcases hd : r.defines T with _ | _
    · simp
    · have hstays : Subpolicy.Stays permitted₁ outputs r = permitted₁ r := by
        rw [Bool.eq_iff_iff, Subpolicy.stays_iff]
        exact ⟨fun h => h ⟨T, hT, hd⟩, fun h _ => h⟩
      rw [hstays, Bool.and_comm]
  obtain ⟨hg₂, hrules₂⟩ := Subpolicy.filterOutputDefinitions_spec permitted₂ outputs
    (s := s₁) hg₁ (fun r hr => hfacts r (List.mem_of_mem_filter hr)) hrules₁'
    fun r hr hp T hT hd head hhead => by
      obtain ⟨head', hhead', rfl⟩ := defines_iff.1 hd
      refine halone r (List.mem_of_mem_filter hr) ⟨⟨_, hT, hd⟩, .inr ?_⟩ head hhead head' hhead'
      by_contra hno
      exact absurd ((hpermitted₂ r).2 hno) (by simp [hp])
  generalize hs₂ : Subpolicy.filterOutputDefinitions outputs permitted₂ s₁ = s₂ at hg₂ hrules₂
  have hkept₂ : ∀ r, r ∈ (rs.filter (Subpolicy.Stays permitted₁ outputs)).filter
      (Subpolicy.Stays permitted₂ outputs) ↔ r ∈ KeptRules rs required prohibited outputs := by
    intro r
    rw [List.mem_filter, hkept₁, Subpolicy.stays_iff, hpermitted₂]
    constructor
    · rintro ⟨⟨hr, hbar⟩, hwant⟩
      exact ⟨hr, fun ⟨hout, hd⟩ => hd.elim (fun hb => hbar ⟨hout, hb⟩) (hwant hout)⟩
    · rintro ⟨hr, hdrop⟩
      exact ⟨⟨hr, fun ⟨hout, hb⟩ => hdrop ⟨hout, .inl hb⟩⟩, fun hout hw => hdrop ⟨hout, .inr hw⟩⟩
  obtain ⟨found, hfind, hfound⟩ := Graph.findReachableNodes_spec
    (fun v w => hg₂.holds.edge_target) outputs
  rw [hg₂.edge_eq, show {r | r ∈ (rs.filter (Subpolicy.Stays permitted₁ outputs)).filter
    (Subpolicy.Stays permitted₂ outputs)} = KeptRules rs required prohibited outputs from
      Set.ext hkept₂] at hfound
  have hfor : ∀ T r, r ∈ s₂.rulesFor T ↔ r ∈ rs ∧ r.defines T = true
      ∧ (T ∈ outputs → r ∈ KeptRules rs required prohibited outputs) := by
    intro T r
    rw [hrules₂]
    split_ifs with hT
    · rw [List.mem_filter, hrules₁' T hT, List.mem_filter, ← hkept₂]
      constructor
      · rintro ⟨⟨hr, hd⟩, hp⟩
        exact ⟨List.mem_of_mem_filter hr, hd, fun _ =>
          List.mem_filter.2 ⟨hr, Subpolicy.stays_iff.2 fun _ => hp⟩⟩
      · rintro ⟨-, hd, hkept⟩
        obtain ⟨hr, hp⟩ := List.mem_filter.1 (hkept hT)
        exact ⟨⟨hr, hd⟩, Subpolicy.stays_iff.1 hp ⟨T, hT, hd⟩⟩
    · rw [hrules₁, if_neg hT, hstart, List.mem_filter]
      simp [hT]
  refine ⟨s₂.rulesOf found, ?_, fun r => ?_⟩
  · rw [findSubpolicy, hrun]
    simp only [hdep]
    rw [hs₁, hreq]
    simp only []
    rw [hs₂, hfind]
  rw [Subpolicy.mem_rulesOf hdist fun T r hr => ((hfor T r).1 hr).1]
  constructor
  · rintro ⟨T, hT, hr⟩
    obtain ⟨o, ho, -, hoT⟩ := (hfound T).1 hT
    obtain ⟨hmem, hd, hkept⟩ := (hfor T r).1 hr
    have hsupport : ∃ o ∈ outputs, Reaches {r | r ∈ rs} o T := ⟨o, ho, Reaches.mono keptRules_subset hoT⟩
    refine ⟨⟨hmem, fun hdrop => ?_⟩, o, ho, T, (hnames.defines_iff hmem hsupport).1 hd, hoT⟩
    -- a rule that is dropped defines an output table only
    obtain ⟨O, hO, hdO⟩ := hdrop.1
    obtain ⟨head, hhead, rfl⟩ := defines_iff.1 hd
    obtain ⟨head', hhead', rfl⟩ := defines_iff.1 hdO
    rw [halone r hmem hdrop head hhead head' hhead'] at hkept
    exact (hkept hO).2 hdrop
  · rintro ⟨hkept, o, ho, T, hT, hoT⟩
    have hsupport : ∃ o ∈ outputs, Reaches {r | r ∈ rs} o T := ⟨o, ho, Reaches.mono keptRules_subset hoT⟩
    have hd := (hnames.defines_iff hkept.1 hsupport).2 hT
    refine ⟨T, (hfound T).2 ⟨o, ho, ?_, hoT⟩, (hfor T r).2 ⟨hkept.1, hd, fun _ => hkept⟩⟩
    rcases ReflTransGen.cases_head hoT with rfl | ⟨T', ⟨r', hr', ho', -⟩, -⟩
    · exact hg₂.mem_nodes ((hkept₂ r).2 hkept) hT
    · exact hg₂.mem_nodes ((hkept₂ r').2 hr') ho'

/-! ## What they are good for -/

/-- What the documentation says of a rule that is chosen, the dependence being that by the rules
chosen: an output table is or depends on a table in its head, which depends on no prohibited table and
on a required one. -/
def Pertinent (required prohibited outputs : List String) (sub : List (Rule V)) (r : Rule V) : Prop :=
  ∃ R ∈ r.defined, (R ∈ outputs ∨ ∃ o ∈ outputs, DependsOn {r | r ∈ sub} o R)
    ∧ (∀ p ∈ prohibited, ¬ DependsOn {r | r ∈ sub} R p) ∧ ∃ q ∈ required, DependsOn {r | r ∈ sub} R q

/-- The rule defines an output table, by tables one of which is required and none of which is or
depends on an output table or a prohibited table. -/
def Needed (rs : List (Rule V)) (required prohibited outputs : List String) (r : Rule V) : Prop :=
  (∃ T ∈ r.defined, T ∈ outputs) ∧ (∃ b ∈ r.used, b ∈ required)
    ∧ ∀ b ∈ r.used, ∀ T, T ∈ outputs ∨ T ∈ prohibited → ¬ Reaches {r | r ∈ rs} b T

/-- A rule that is needed is chosen, and so is every rule for a table that it depends on. -/
def Complete (rs : List (Rule V)) (required prohibited outputs : List String) (sub : List (Rule V)) :
    Prop :=
  ∀ r ∈ rs, Needed rs required prohibited outputs r → r ∈ sub
    ∧ ∀ b ∈ r.used, ∀ T, Reaches {r | r ∈ rs} b T → ∀ r' ∈ rs, T ∈ r'.defined → r' ∈ sub

/-- The rules kept that define a table which an output table is or depends on. -/
def Chosen (rs : List (Rule V)) (required prohibited outputs : List String) (sub : List (Rule V)) : Prop :=
  ∀ r, r ∈ sub ↔ r ∈ KeptRules rs required prohibited outputs
    ∧ ∃ o ∈ outputs, ∃ T ∈ r.defined, Reaches (KeptRules rs required prohibited outputs) o T

section Chosen

variable {sub : List (Rule V)} {o p q : String}

theorem Chosen.subset (h : Chosen rs required prohibited outputs sub) :
    {r | r ∈ sub} ⊆ KeptRules rs required prohibited outputs := fun r hr => ((h r).1 hr).1

theorem Chosen.direct (h : Chosen rs required prohibited outputs sub) (ho : o ∈ outputs)
    (hoa : Reaches (KeptRules rs required prohibited outputs) o a)
    (hab : DependsDirectly (KeptRules rs required prohibited outputs) a b) :
    DependsDirectly {r | r ∈ sub} a b := by
  obtain ⟨r, hr, ha, hb⟩ := hab
  exact ⟨r, (h r).2 ⟨hr, o, ho, a, ha, hoa⟩, ha, hb⟩

/-- What output tables depend on by the rules kept, they depend on by the rules chosen. -/
theorem Chosen.reaches (h : Chosen rs required prohibited outputs sub) (ho : o ∈ outputs)
    (hoa : Reaches (KeptRules rs required prohibited outputs) o a)
    (hab : Reaches (KeptRules rs required prohibited outputs) a b) : Reaches {r | r ∈ sub} a b := by
  induction hab with
  | refl => exact .refl
  | tail hab hbc ih => exact ih.tail (h.direct ho (hoa.trans hab) hbc)

theorem Lookups.forOutput (h : Lookups rs required prohibited outputs) (hr : r ∈ rs)
    (ha : a ∈ r.defined) (hout : a ∈ outputs) : ForOutput outputs r :=
  ⟨a, hout, (h.defines_iff hr ⟨a, hout, .refl⟩).2 ha⟩

/-- By the rules kept no output table depends on a prohibited table that is not for output. -/
theorem Lookups.not_output (h : Lookups rs required prohibited outputs) (hp : p ∈ prohibited)
    (hpo : p ∉ outputs) (hap : DependsOn (KeptRules rs required prohibited outputs) a p) :
    a ∉ outputs := by
  have hstep : ∀ {a b}, DependsDirectly (KeptRules rs required prohibited outputs) a b →
      Reaches {r | r ∈ rs} b p → b ∉ outputs → a ∉ outputs := by
    intro a b hab hbp hb ha
    obtain ⟨r, ⟨hr, hdrop⟩, har, hbr⟩ := hab
    have hout := h.forOutput hr har ha
    obtain ⟨lit, hlit, rfl⟩ := List.mem_map.1 hbr
    have hbar : Barred rs prohibited outputs (lit.tablename none) := ⟨hb, p, hp, hbp⟩
    exact hdrop ⟨hout, .inl ⟨lit, hlit, (h.barred r hr hout lit hlit).2 hbar⟩⟩
  induction hap using TransGen.head_induction_on with
  | single hab => exact hstep hab .refl hpo
  | head hab hbp ih => exact hstep hab (Reaches.mono keptRules_subset hbp.to_reflTransGen) ih

/-- A table on the way to a required table keeps its rules. -/
theorem Lookups.reaches_kept (h : Lookups rs required prohibited outputs) (hq : q ∈ required)
    (haq : Reaches (Remaining rs prohibited outputs) a q) :
    Reaches (KeptRules rs required prohibited outputs) a q := by
  induction haq using ReflTransGen.head_induction_on with
  | refl => exact .refl
  | head hab hbq ih =>
    obtain ⟨r, ⟨hr, hbar⟩, har, hbr⟩ := hab
    refine .head ⟨r, ⟨hr, fun ⟨hout, hd⟩ => ?_⟩, har, hbr⟩ ih
    rcases hd with hd | hd
    · exact hbar ⟨hout, hd⟩
    · obtain ⟨lit, hlit, rfl⟩ := List.mem_map.1 hbr
      exact hd lit hlit ((h.wanted r hr hout lit hlit).2 ⟨q, hq, hbq⟩)

/-- An output table that keeps a rule depends on a required table. -/
theorem Chosen.depends (h : Chosen rs required prohibited outputs sub)
    (hnames : Lookups rs required prohibited outputs) (ho : o ∈ outputs)
    (hr : r ∈ KeptRules rs required prohibited outputs) (hor : o ∈ r.defined) :
    ∃ q ∈ required, DependsOn {r | r ∈ sub} o q := by
  have hout := hnames.forOutput hr.1 hor ho
  obtain ⟨lit, hlit, hw⟩ : ∃ lit ∈ r.body, Wanted rs required prohibited outputs lit.table.table := by
    by_contra hno
    exact hr.2 ⟨hout, .inr fun lit hlit hw => hno ⟨lit, hlit, hw⟩⟩
  obtain ⟨q, hq, hreach⟩ := (hnames.wanted r hr.1 hout lit hlit).1 hw
  have hdirect : DependsDirectly (KeptRules rs required prohibited outputs) o (lit.tablename none) :=
    ⟨r, hr, hor, List.mem_map_of_mem hlit⟩
  refine ⟨q, hq, .head' (h.direct ho .refl hdirect) ?_⟩
  exact h.reaches ho (.single hdirect) (hnames.reaches_kept hq hreach)

/-- No rule for a table that a needed rule depends on is dropped. -/
theorem kept_of_needed (hnames : Lookups rs required prohibited outputs)
    (halone : DroppedAlone rs required prohibited outputs)
    (hsupport : ∃ o ∈ outputs, Reaches {r | r ∈ rs} o a) (ha : a ∉ outputs) (hr : r ∈ rs)
    (har : a ∈ r.defined) : r ∈ KeptRules rs required prohibited outputs := by
  refine ⟨hr, fun hdrop => ha ?_⟩
  obtain ⟨O, hO, hd⟩ := hdrop.1
  obtain ⟨head, hhead, rfl⟩ := defines_iff.1 hd
  obtain ⟨head', hhead', htable⟩ := defines_iff.1 ((hnames.defines_iff hr hsupport).2 har)
  rwa [← htable, halone r hr hdrop head' hhead' head hhead]

theorem Chosen.complete (h : Chosen rs required prohibited outputs sub)
    (hnames : Lookups rs required prohibited outputs)
    (halone : DroppedAlone rs required prohibited outputs) :
    Complete rs required prohibited outputs sub := by
  rintro r hr ⟨⟨o, hor, ho⟩, ⟨b, hb, hreq⟩, hclean⟩
  have hout := hnames.forOutput hr hor ho
  have hkept : r ∈ KeptRules rs required prohibited outputs := by
    refine ⟨hr, fun ⟨_, hd⟩ => ?_⟩
    rcases hd with ⟨lit, hlit, hbar⟩ | hd
    · obtain ⟨-, p, hp, hreach⟩ := (hnames.barred r hr hout lit hlit).1 hbar
      exact hclean _ (List.mem_map_of_mem hlit) p (.inr hp) hreach
    · obtain ⟨lit, hlit, rfl⟩ := List.mem_map.1 hb
      exact hd lit hlit ((hnames.wanted r hr hout lit hlit).2 ⟨_, hreq, .refl⟩)
  refine ⟨(h r).2 ⟨hkept, o, ho, o, hor, .refl⟩, fun b hb T hbT => ?_⟩
  have hob : DependsDirectly (KeptRules rs required prohibited outputs) o b := ⟨r, hkept, hor, hb⟩
  -- the tables it depends on are not for output, so they keep their rules
  have hreach : Reaches (KeptRules rs required prohibited outputs) o T ∧ T ∉ outputs := by
    induction hbT with
    | refl => exact ⟨.single hob, fun hT => hclean b hb b (.inl hT) .refl⟩
    | @tail T T' hbT hTT' ih =>
      have hT' : T' ∉ outputs := fun hT' => hclean b hb T' (.inl hT') (hbT.tail hTT')
      obtain ⟨r'', hr'', hTr, hT'r⟩ := hTT'
      obtain ⟨hoT, hTout⟩ := ih
      have hkept'' := kept_of_needed hnames halone ⟨o, ho, Reaches.mono keptRules_subset hoT⟩ hTout hr''
        hTr
      exact ⟨hoT.tail ⟨r'', hkept'', hTr, hT'r⟩, hT'⟩
  intro r' hr' hT
  refine (h r').2 ⟨?_, o, ho, T, hT, hreach.1⟩
  exact kept_of_needed hnames halone ⟨o, ho, Reaches.mono keptRules_subset hreach.1⟩ hreach.2 hr' hT

end Chosen

/-- Without services, names are looked up as they are. -/
theorem lookups_of_unqualified (h : ∀ r ∈ rs, ∀ l ∈ r.heads ++ r.body, l.table.service = none) :
    Lookups rs required prohibited outputs := by
  have hname : ∀ {r : Rule V} {l : Literal V}, r ∈ rs → l ∈ r.heads ∨ l ∈ r.body →
      l.tablename none = l.table.table := by
    intro r l hr hl
    rw [Literal.tablename, Tablename.name, h r hr l (List.mem_append.2 hl)]
    rfl
  refine ⟨fun r hr head hhead T _ => ?_, fun r hr _ lit hlit => ?_, fun r hr _ lit hlit => ?_⟩
  · rw [hname hr (.inl hhead)]
  · rw [hname hr (.inr hlit)]
  · rw [hname hr (.inr hlit)]

theorem droppedAlone_of_single (h : ∀ r ∈ rs, r.moreHeads = []) :
    DroppedAlone rs required prohibited outputs := by
  intro r hr _ head hhead head' hhead'
  rw [Rule.heads, h r hr, List.mem_singleton] at hhead hhead'
  rw [hhead, hhead']

/-- A literal without arguments. -/
def Literal.plain (table : String) : Literal ℕ := ⟨⟨none, table, none⟩, [], false, []⟩

/-- `error() :- t(), q()` and `t() :- s()`. -/
def supportRules : List (Rule ℕ) :=
  [⟨.plain "error", [], [.plain "t", .plain "q"]⟩, ⟨.plain "t", [], [.plain "s"]⟩]

/-- `error() :- w(), q()` and `w() :- q()`. -/
def outputRules : List (Rule ℕ) :=
  [⟨.plain "error", [], [.plain "w", .plain "q"]⟩, ⟨.plain "w", [], [.plain "q"]⟩]

theorem dependsDirectly_supportRules : DependsDirectly {r | r ∈ supportRules} a b
    ↔ a = "error" ∧ (b = "t" ∨ b = "q") ∨ a = "t" ∧ b = "s" := by
  simp [DependsDirectly, supportRules, Rule.defined, Rule.used, Rule.heads, Literal.plain,
    Literal.tablename, Tablename.name, eq_comm]

theorem not_dependsOn_supportRules : ¬ DependsOn {r | r ∈ supportRules} "t" "q" := by
  intro h
  obtain ⟨b, htb, hbq⟩ := TransGen.head'_iff.1 h
  have hb : b = "s" := by simpa using dependsDirectly_supportRules.1 htb
  subst hb
  rcases ReflTransGen.cases_head hbq with hsq | ⟨c, hsc, -⟩
  · exact absurd hsq (by decide)
  · simpa using dependsDirectly_supportRules.1 hsc

end Congress
