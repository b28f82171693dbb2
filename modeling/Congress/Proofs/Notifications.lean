import Congress.Notifications
import Congress.Proofs.Subscribers
import Congress.Proofs.Triggers
import Congress.Proofs.Unaffected

/-!
# What triggers depend on

A query for the table of a trigger comes only to tables that this one depends on. A change of other tables
leaves what the query returns (`PolicyMap.contents_of_applied`, `PolicyMap.contents_of_initialized`).
-/

namespace Congress

open Lib Stateful Relation

set_option linter.unusedSectionVars false

variable {V A : Type} [DecidableEq V] [Inhabited A] {pf : Platform V} {name p : String}

/-! ## Tables and their names -/

theorem Tablename.global_of_none {t : Tablename} (h : t.service = none) :
    t.globalTablename (some p) = buildServiceTable p t.table := by
  rw [globalTablename, h]
  rfl

theorem Tablename.name_of_own {t : Tablename} (h : t.service = none ∨ t.service = some p) :
    t.name (some p) = buildServiceTable p t.table := by
  rw [name]
  rcases h with h | h
  · rw [h]
    rfl
  · rw [h]
    rfl

theorem table_of_none {tablename : String} (h : (parseServiceTable tablename).service = none) :
    (parseServiceTable tablename).table = tablename := by
  unfold parseServiceTable at h ⊢
  split at h
  · rfl
  · cases h

/-- A table is joined from the parts that it is parsed into. -/
theorem global_parse (tablename : String) (modal : Option String) :
    ({ parseServiceTable tablename with modal := modal } : Tablename).globalTablename (some p)
      = buildServiceTable p tablename := by
  cases h : (parseServiceTable tablename).service with
  | none => exact (Tablename.global_of_none h).trans (congrArg _ (table_of_none h))
  | some service =>
    have hglobal : ({ parseServiceTable tablename with modal := modal } : Tablename).globalTablename (some p)
        = p ++ ":" ++ service ++ ":" ++ (parseServiceTable tablename).table := by
      rw [Tablename.globalTablename, h]
      rfl
    rw [hglobal, buildServiceTable, ← String.toList_inj]
    simp [toList_of_qualified h]

/-! ## What a query for the table of a trigger reads -/

/-- The tables that a trigger's own one depends on, as literals of policy `p` name them; a literal with a modal
is also not about the table of a fact that changes. -/
def Trigger.Reads (r : TriggerRegistry) (t : Trigger) (changed : List String) (p : String) (tn : Tablename) :
    Prop :=
  match tn.modal with
  | none => (tn.isUpdate → ∀ q, tn.service = some q → q = p) ∧ r.DependsOn t (tn.name (some p))
  | some _ => tn.service ≠ some p ∧ r.DependsOn t (tn.globalTablename (some p))
      ∧ buildServiceTable p tn.table ∉ changed

/-- A rule that writes its head as one of policy `p`, or else under a modal, and whose body has no modals, and
pseudo-modals only of that policy. -/
structure Rule.Plain (p : String) (r : Rule V) : Prop where
  head : r.head.table.modal = none ∨ r.body = [] → r.head.table.service = none
  foreign : r.head.table.service ≠ some p
  body : ∀ l ∈ r.body, l.table.modal = none
    ∧ (l.table.isUpdate → ∀ q, l.table.service = some q → q = p)

theorem Rule.Plain.reordered {f f' : Formula V} (h : f.asRule.Plain p)
    (hf : f.reorderForSafety pf.registry = some f') : f'.asRule.Plain p := by
  obtain ⟨hhead, -, hbody⟩ := reordered_uses hf
  refine ⟨fun hm => ?_, by rw [hhead]; exact h.foreign, fun l hl => h.body l (hbody.mem_iff.1 hl)⟩
  rw [hhead] at hm ⊢
  rcases hm with hm | hnil
  · exact h.head (.inl hm)
  · rw [hnil] at hbody
    exact h.head (.inr (List.nil_perm.1 hbody))

/-- The table is named by itself, or under a modal by another service. -/
structure Trigger.Plain (t : Trigger) : Prop where
  service : t.modal = none → (parseServiceTable t.tablename).service = none
  foreign : (parseServiceTable t.tablename).service ≠ some t.policy

section

variable {r : TriggerRegistry} {t : Trigger} {changed : List String} {th : TopDownTheory V}

theorem service_of_stays {l : Literal V} (h : TopDown.movesTo th l = none) (hm : l.table.modal = none) :
    l.table.service = none ∨ l.table.service = some th.name ∨ l.table.isUpdate := by
  unfold TopDown.movesTo at h
  cases hs : l.table.service with
  | none => exact .inl rfl
  | some q =>
    rw [hs] at h
    dsimp only at h
    split_ifs at h with hif
    by_cases hq : q = th.name
    · exact .inr (.inl (congrArg some hq))
    · exact .inr (.inr (by_contra fun hu => hif ⟨hm, hq, hu⟩))

theorem service_of_moves {l : Literal V} {service : String} (h : TopDown.movesTo th l = some service) :
    l.table.modal = none ∧ l.table.service = some service ∧ ¬ l.table.isUpdate := by
  unfold TopDown.movesTo at h
  cases hs : l.table.service with
  | none =>
    rw [hs] at h
    cases h
  | some q =>
    rw [hs] at h
    dsimp only at h
    split_ifs at h with hif
    cases h
    exact ⟨hif.1, rfl, hif.2.2⟩

theorem Trigger.Reads.moved {l : Literal V} {service : String} (h : t.Reads r changed th.name l.table)
    (hmoves : TopDown.movesTo th l = some service) : t.Reads r changed service l.table := by
  obtain ⟨hm, hs, hu⟩ := service_of_moves hmoves
  unfold Trigger.Reads at h ⊢
  rw [hm] at h ⊢
  refine ⟨fun hu' => absurd hu' hu, ?_⟩
  have hname : l.table.name (some service) = l.table.name (some th.name) := by
    rw [Tablename.name, Tablename.name, hs]
    rfl
  rw [hname]
  exact h.2

/-- A literal that stays in its policy reads the table of that policy. -/
theorem Trigger.Reads.own {l : Literal V} (h : t.Reads r changed th.name l.table)
    (hmoves : TopDown.movesTo th l = none) (hm : l.table.modal = none) :
    (l.table.service = none ∨ l.table.service = some th.name)
      ∧ r.DependsOn t (buildServiceTable th.name l.table.table) := by
  unfold Trigger.Reads at h
  rw [hm] at h
  have hs : l.table.service = none ∨ l.table.service = some th.name := by
    rcases service_of_stays hmoves hm with hs | hs | hu
    · exact .inl hs
    · exact .inr hs
    · cases hs : l.table.service with
      | none => exact .inl rfl
      | some q => exact .inr (congrArg some (h.1 hu q hs))
  exact ⟨hs, Tablename.name_of_own hs ▸ h.2⟩

/-- The heads that a literal that is read is unified with are of tables that the trigger depends on. -/
theorem Trigger.Reads.head {l : Literal V} {rule : Rule V} (h : t.Reads r changed th.name l.table)
    (hmoves : TopDown.movesTo th l = none) (hplain : rule.Plain th.name)
    (hsame : rule.head.table.same l.table (some th.name) = true) :
    r.DependsOn t (rule.head.table.globalTablename (some th.name)) := by
  simp only [Tablename.same, Bool.and_eq_true, decide_eq_true_eq] at hsame
  obtain ⟨⟨htable, hmodal⟩, hservice⟩ := hsame
  cases hm : l.table.modal with
  | none =>
    rw [hm] at hmodal
    rw [Tablename.global_of_none (hplain.head (.inl hmodal)), htable]
    exact (h.own hmoves hm).2
  | some m =>
    unfold Trigger.Reads at h
    rw [hm] at h hmodal
    obtain ⟨hforeign, hdepends, -⟩ := h
    have hs : rule.head.table.service = l.table.service := by
      have hf := hplain.foreign
      cases hr : rule.head.table.service <;> cases hl : l.table.service <;> simp_all
    have heq : rule.head.table.globalTablename (some th.name) = l.table.globalTablename (some th.name) := by
      rw [Tablename.globalTablename, Tablename.globalTablename, hs, htable]
    rw [heq]
    exact hdepends

/-- An event for a table that the trigger does not depend on misses the literals that are read. -/
theorem Trigger.Reads.misses {l : Literal V} {e : AnnotatedEvent V A}
    (h : t.Reads r changed th.name l.table) (hmoves : TopDown.movesTo th l = none)
    (hplain : e.formula.asRule.Plain th.name)
    (htable : e.formula.asRule.head.table.globalTablename (some th.name) ∈ changed)
    (hchanged : ∀ x ∈ changed, ¬ r.DependsOn t x) : e.Misses th.name l.table where
  fact hbody heq := by
    rw [Tablename.global_of_none (hplain.head (.inr hbody)), heq] at htable
    cases hm : l.table.modal with
    | none => exact hchanged _ htable (h.own hmoves hm).2
    | some m =>
      unfold Trigger.Reads at h
      rw [hm] at h
      exact h.2.2 htable
  rule _ := Bool.eq_false_iff.2 fun hsame => hchanged _ htable (h.head hmoves hplain hsame)

/-- The query for the table of a trigger reads that table. -/
theorem Trigger.Plain.reads (h : t.Plain)
    (hfacts : t.modal = none ∨ buildServiceTable t.policy (parseServiceTable t.tablename).table ∉ changed)
    (n : ℕ) : ∀ l ∈ (t.query n : Formula V).literals, t.Reads r changed t.policy l.table := by
  rintro l (_ | ⟨_, ⟨⟩⟩)
  unfold Trigger.Reads
  dsimp only
  cases hm : t.modal with
  | none =>
    have hservice := h.service hm
    refine ⟨fun _ q hq => ?_, ?_⟩
    · rw [hservice] at hq
      cases hq
    · have hname : ({ parseServiceTable t.tablename with modal := none } : Tablename).name (some t.policy)
          = t.fullTable :=
        (Tablename.name_of_own (.inl hservice)).trans (congrArg _ (table_of_none hservice))
      rw [hname]
      exact .refl
  | some m =>
    refine ⟨h.foreign, ?_, hfacts.resolve_left (by rw [hm]; nofun)⟩
    rw [global_parse]
    exact .refl

end

/-! ## Policies -/

namespace PolicyMap

variable {ps ps' : PolicyMap V A} {events : List (AnnotatedEvent V A)} {r : TriggerRegistry} {t : Trigger}
  {changed : List String}

/-- Every stored rule is a plain one. -/
def Plain (ps : PolicyMap V A) : Prop := ∀ p r, ps.HasRule p r → r.Plain p

theorem edge_of_rule {rule : Rule V} {l : Literal V} (h : ps.HasRule p rule) (hl : l ∈ rule.body) :
    ps.Edge (rule.head.table.globalTablename (some p)) (l.table.name (some p)) := by
  refine ⟨p, rule, h, l.negated, ?_⟩
  have hatom : (Formula.rule rule).isAtomLike = false := by
    cases hb : rule.body with
    | nil =>
      rw [hb] at hl
      exact absurd hl List.not_mem_nil
    | cons => simp [Formula.isAtomLike, hb]
  rw [RuleDependencyGraph.edgesOf, Multiset.mem_coe, (RuleDependencyGraph.contribution_of_rule hatom).2,
    List.mem_dedup, List.mem_flatMap]
  exact ⟨rule.head, List.mem_cons_self, List.mem_map.2 ⟨l, hl, rfl⟩⟩

/-- The bodies of rules that are read are read. -/
theorem reads_body (hedges : ∀ v w, r.dependencyGraph.Edge v w ↔ ps.Edge v w) (hplain : ps.Plain)
    {th : TopDownTheory V} {rule : Rule V} {lit : Literal V} (hrule : ps.HasRule th.name rule)
    (hread : t.Reads r changed th.name lit.table) (hmoves : TopDown.movesTo th lit = none)
    (hsame : rule.head.table.same lit.table (some th.name) = true) :
    ∀ l ∈ rule.body, t.Reads r changed th.name l.table := by
  intro l hl
  obtain ⟨hm, hupdate⟩ := (hplain _ _ hrule).body l hl
  unfold Trigger.Reads
  rw [hm]
  refine ⟨hupdate, ?_⟩
  exact (hread.head hmoves (hplain _ _ hrule) hsame).tail ((hedges _ _).2 (edge_of_rule hrule hl))

/-- What changes for the policy of an update are clauses that its events are about. -/
theorem Applied.sameFor (h : Applied pf name events ps ps')
    (hdatalog : ∀ e ∈ events, e.formula.isDatalog = true)
    (hatoms : ∀ db, ps.data name = some (.database db) → ∀ e ∈ events, e.formula.asRule.body = []) :
    ∃ d d', ps.data name = some d ∧ ps'.data = Function.update ps.data name (some d')
      ∧ ∀ tn, (∀ e ∈ events, e.Misses name tn) → d.SameFor name tn d' := by
  cases h with
  | @rules kind store events' hbefore hreordered hafter =>
    refine ⟨_, _, hbefore, hafter, fun tn hmisses => .rules (RuleStore.sameFor_putAll ?_ ?_)⟩
    · intro e' he'
      obtain ⟨e, he, hre⟩ := AnnotatedEvent.exists_of_reordered hreordered he'
      exact (hmisses e he).reordered hre
    · intro e' he'
      obtain ⟨e, he, hre⟩ := AnnotatedEvent.exists_of_reordered hreordered he'
      exact hre.statement.2.2 (hdatalog e he)
  | database hbefore hafter hwithin =>
    exact ⟨_, _, hbefore, hafter, fun tn hmisses => .database
      (hwithin _ fun e he => (hmisses e he).fact (hatoms _ hbefore e he))⟩

theorem Applied.named (h : Applied pf name events ps ps') (hnamed : ps.Named) : ps'.Named :=
  fun other th hd => hnamed other th (h.materialized hd)

/-- What an update leaves of the contents of a table that a trigger is for. -/
theorem Unaffected.contents {reads : String → Tablename → Prop} {d d' : PolicyData V A} {n : ℕ}
    (h : Unaffected reads name d d' ps ps')
    (hread : ∀ l ∈ (t.query n : Formula V).literals, reads t.policy l.table) :
    ps'.contents pf t n = ps.contents pf t n := by
  unfold PolicyMap.contents
  cases hp : ps.lookup t.policy with
  | none =>
    have hdata : ps.data t.policy = none := by rw [data, hp]; rfl
    have ho : t.policy ≠ name := fun ho => by
      rw [ho, h.before] at hdata
      cases hdata
    have hdata' : ps'.data t.policy = none := by rw [h.after, Function.update_of_ne ho, hdata]
    rw [Option.map_eq_none_iff.1 hdata']
  | some p =>
    obtain ⟨p', hp', hselect⟩ := h.select hp hread true
    rw [hp']
    exact hselect

/-- A change of one policy leaves what a query for the table of a trigger returns, if the policy has the same
clauses for what is read there. -/
theorem contents_of_sameFor {d d' : PolicyData V A} {n : ℕ} (hd : ps.data name = some d)
    (hd' : ps'.data = Function.update ps.data name (some d')) (hnamed : ps.Named) (hnamed' : ps'.Named)
    (hplain : ps.Plain) (hedges : ∀ v w, r.dependencyGraph.Edge v w ↔ ps.Edge v w)
    (hsame : ∀ lit : Literal V, t.Reads r changed name lit.table →
      TopDown.movesTo (d.topDown name) lit = none → d.SameFor name lit.table d')
    (ht : t.Plain)
    (hfacts : t.modal = none ∨ buildServiceTable t.policy (parseServiceTable t.tablename).table ∉ changed) :
    ps'.contents pf t n = ps.contents pf t n :=
  Unaffected.contents ⟨hnamed, hnamed', hd, hd', hsame, fun _ _ _ hread hmoves => hread.moved hmoves,
    fun _ _ _ hrule hread hmoves hsame => reads_body hedges hplain hrule hread hmoves hsame⟩
    (ht.reads hfacts n)

theorem contents_of_applied {n : ℕ} (happlied : Applied pf name events ps ps')
    (hdatalog : ∀ e ∈ events, e.formula.isDatalog = true)
    (hatoms : ∀ db, ps.data name = some (.database db) → ∀ e ∈ events, e.formula.asRule.body = [])
    (hnamed : ps.Named) (hplain : ps.Plain) (hevents : ∀ e ∈ events, e.formula.asRule.Plain name)
    (hedges : ∀ v w, r.dependencyGraph.Edge v w ↔ ps.Edge v w)
    (htables : ∀ e ∈ events, e.formula.asRule.head.table.globalTablename (some name) ∈ changed)
    (hchanged : ∀ x ∈ changed, ¬ r.DependsOn t x) (ht : t.Plain)
    (hfacts : t.modal = none ∨ buildServiceTable t.policy (parseServiceTable t.tablename).table ∉ changed) :
    ps'.contents pf t n = ps.contents pf t n := by
  obtain ⟨d, d', hd, hd', hsame⟩ := happlied.sameFor hdatalog hatoms
  refine contents_of_sameFor hd hd' hnamed (happlied.named hnamed) hplain hedges
    (fun lit hread hmoves => hsame _ fun e he => ?_) ht hfacts
  have hname := hnamed.topDown_name hd
  rw [← hname] at hread
  have hevent := hevents e he
  have htable := htables e he
  rw [← hname] at hevent htable ⊢
  exact hread.misses hmoves hevent htable hchanged

/-- The tables of a policy that are initialized are the only ones whose facts change. -/
theorem contents_of_initialized {kind : RuleKind} {store store' : RuleStore V A} {tablenames : List String}
    {n : ℕ} (hd : ps.data name = some (.rules kind store))
    (hd' : ps'.data = Function.update ps.data name (some (.rules kind store')))
    (hrules : store'.rulesOf = store.rulesOf)
    (hstored : ∀ table, table ∉ tablenames → store'.factsOf table = store.factsOf table)
    (hnamed : ps.Named) (hnamed' : ps'.Named) (hplain : ps.Plain)
    (hedges : ∀ v w, r.dependencyGraph.Edge v w ↔ ps.Edge v w)
    (hchanged : ∀ table ∈ tablenames, ¬ r.DependsOn t (buildServiceTable name table)) (ht : t.Plain)
    (hfacts : t.modal = none ∨ buildServiceTable t.policy (parseServiceTable t.tablename).table
      ∉ tablenames.map (buildServiceTable name)) :
    ps'.contents pf t n = ps.contents pf t n := by
  refine contents_of_sameFor hd hd' hnamed hnamed' hplain hedges (fun lit hread hmoves => .rules ⟨?_, ?_⟩)
    ht hfacts
  · refine hstored _ fun hmem => ?_
    cases hm : lit.table.modal with
    | none => exact hchanged _ hmem (hread.own hmoves hm).2
    | some m =>
      unfold Trigger.Reads at hread
      rw [hm] at hread
      exact hread.2.2 (List.mem_map_of_mem hmem)
  · intro n
    rw [hrules]

/-- The rules stay plain ones. -/
theorem Plain.applied (h : ps.Plain) (happlied : Applied pf name events ps ps')
    (hdatalog : ∀ e ∈ events, e.formula.isDatalog = true)
    (hevents : ∀ e ∈ events, e.formula.asRule.Plain name) : ps'.Plain := by
  rintro other rule ⟨kind', store', key, info, hd, hr⟩
  cases happlied with
  | rules hbefore hreordered hafter =>
    rw [hafter] at hd
    by_cases ho : other = name
    · subst ho
      rw [Function.update_self] at hd
      cases hd
      refine RuleStore.forall_putAll (P := fun _ r => r.Plain other) ?_ ?_ ?_ key _ hr
      · rintro k ⟨r', info'⟩ hr'
        exact h other r' ⟨_, _, k, info', hbefore, hr'⟩
      · intro e' he'
        obtain ⟨e, he, hre⟩ := AnnotatedEvent.exists_of_reordered hreordered he'
        exact hre.statement.2.2 (hdatalog e he)
      · intro e' he' _
        obtain ⟨e, he, formula, hformula, rfl⟩ := AnnotatedEvent.exists_of_reordered hreordered he'
        exact (hevents e he).reordered hformula
    · rw [Function.update_of_ne ho] at hd
      exact h other rule ⟨kind', store', key, info, hd, hr⟩
  | database hbefore hafter =>
    rw [hafter] at hd
    by_cases ho : other = name
    · subst ho
      rw [Function.update_self] at hd
      cases hd
    · rw [Function.update_of_ne ho] at hd
      exact h other rule ⟨kind', store', key, info, hd, hr⟩

end PolicyMap

/-! ## Registries -/

namespace TriggerRegistry

variable {r r' : TriggerRegistry} {t : Trigger}

/-- The relevant triggers are those that depend on a table that changes. -/
theorem Indexed.mem_relevantTriggers (h : r.Indexed) {changes : List (TableChange V)} :
    t ∈ r.relevantTriggers changes
      ↔ t ∈ r.triggers ∧ ∃ x ∈ changes.flatMap (·.tables), r.DependsOn t x := by
  unfold relevantTriggers
  rw [DseNode.mem_foldl_union]
  simp only [Finset.notMem_empty, false_or, h.exact]
  constructor
  · rintro ⟨x, hx, ht, hd⟩
    exact ⟨ht, x, hx, hd⟩
  · rintro ⟨ht, x, hx, hd⟩
    exact ⟨x, hx, ht, hd⟩

/-- A registry is indexed by any graph with the same edges. -/
theorem Indexed.congr (h : r.Indexed) {graph : Graph String Bool}
    (hedges : ∀ v w, graph.Edge v w ↔ r.dependencyGraph.Edge v w)
    (hclosed : ∀ v w, graph.Edge v w → w ∈ graph.nodes) :
    Indexed { r with dependencyGraph := graph } := by
  refine ⟨hclosed, h.nodup, h.fresh, fun x t => (h.exact x t).trans (and_congr_right fun _ => ?_)⟩
  exact ⟨(ReflTransGen.mono fun v w hw => (hedges v w).2 hw) _ _,
    (ReflTransGen.mono fun v w hw => (hedges v w).1 hw) _ _⟩

/-- Making the index anew for a graph. -/
theorem Indexed.updateDependencies_ok {graph : Graph String Bool} (h : r.Indexed)
    (hclosed : ∀ v w, graph.Edge v w → w ∈ graph.nodes) (hr : r.updateDependencies graph = .ok r') :
    r'.Indexed ∧ ∃ cycles, r'.dependencyGraph = graph.setCycles cycles := by
  obtain ⟨r₁, hr₁, hindexed, -⟩ := h.updateDependencies hclosed
  obtain ⟨cycles, index, hok, -⟩ := @foldlM_addIndexes r.triggers
    { r with dependencyGraph := graph, index := fun _ => none } hclosed
  have hr₂ := hr
  rw [TriggerRegistry.updateDependencies, hok] at hr₂
  rw [hr] at hr₁
  cases hr₁
  cases hr₂
  exact ⟨hindexed, cycles, rfl⟩

theorem Indexed.registerTable_ok {tablename policy : String} {callback : Callback} {modal : Option String}
    (h : r.Indexed) (hr : r.registerTable tablename policy callback modal = .ok (r', t)) :
    r'.Indexed ∧ ∃ cycles, r'.dependencyGraph = r.dependencyGraph.setCycles cycles := by
  obtain ⟨r₁, t₁, hr₁, hindexed, -⟩ := h.registerTable tablename policy callback modal
  obtain ⟨cycles, index, hok, -⟩ := addIndexes_spec (r := { r with
      triggers := r.triggers ++ [⟨r.created, tablename, policy, modal, callback⟩], created := r.created + 1 })
    h.closed ⟨r.created, tablename, policy, modal, callback⟩
  have hr₂ := hr
  rw [TriggerRegistry.registerTable, hok] at hr₂
  rw [hr] at hr₁
  cases hr₁
  cases hr₂
  exact ⟨hindexed, cycles, rfl⟩

theorem Indexed.unregister_ok (h : r.Indexed) (hr : r.unregister t = .ok r') :
    r'.Indexed ∧ ∃ cycles, r'.dependencyGraph = r.dependencyGraph.setCycles cycles := by
  by_cases ht : t ∈ r.triggers
  · obtain ⟨r₁, hr₁, hindexed, -⟩ := h.unregister ht
    obtain ⟨cycles, tables, hok, -⟩ := deps_spec (r := { r with triggers := r.triggers.erase t }) h.closed t
    have hr₂ := hr
    rw [TriggerRegistry.unregister, if_pos ht, deleteIndexes, hok] at hr₂
    rw [hr] at hr₁
    cases hr₁
    refine ⟨hindexed, cycles, ?_⟩
    change (deleteFromIndex t tables r.index).bind _ = _ at hr₂
    cases hdel : deleteFromIndex t tables r.index with
    | error err =>
      rw [hdel] at hr₂
      cases hr₂
    | ok index =>
      rw [hdel] at hr₂
      cases hr₂
      rfl
  · rw [TriggerRegistry.unregister, if_neg ht] at hr
    cases hr

end TriggerRegistry

end Congress
