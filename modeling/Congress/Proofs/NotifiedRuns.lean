import Congress.Proofs.Notifications
import Congress.Proofs.StoredRuns

/-!
# Notifications miss no change

As long as calls return, the index of the registry is that of the stored rules (`Watched`). So the triggers
that an update finds there, before it changes the index, are all whose tables it changes
(`relevant_of_change`).
-/

namespace Congress

open Lib Stateful Relation

set_option linter.unusedSectionVars false

variable {V A : Type} [DecidableEq V] [Inhabited A] {pf : Platform V} {name : String}

namespace RuleStore

theorem factsOf_clearTables {key : String} : ∀ {tables : List String} {s : RuleStore V A},
    key ∉ tables → (tables.foldl clearTable s).factsOf key = s.factsOf key
  | [], _, _ => rfl
  | table :: tables, s, h => by
    obtain ⟨htable, htables⟩ := not_or.1 (mt List.mem_cons.2 h)
    have hfirst : (s.clearTable table).factsOf key = s.factsOf key := by
      refine (factsOf_setFacts (s := s.setRules table [] .nil) .nil).trans ?_
      rw [if_neg htable, factsOf_setRules]
    exact (factsOf_clearTables (s := s.clearTable table) htables).trans hfirst

end RuleStore

theorem Runtime.factsOf_initializeFacts {key : String} : ∀ {facts : List (String × List V)}
    {store : RuleStore V A} {schema : Option Schema} {tablenames : List String}, key ∉ tablenames →
      (initializeFacts store schema tablenames facts).1.factsOf key = store.factsOf key
  | [], _, _, _, _ => rfl
  | (table, fact) :: facts, store, schema, tablenames, h => by
    unfold initializeFacts
    split_ifs with htable
    · have hne : ¬ (key = table ∧ fact ∉ store.factsOf table) := fun heq => h (heq.1 ▸ htable)
      rw [factsOf_initializeFacts h, (RuleStore.addFact_spec ..).2.1, if_neg hne]
    · exact factsOf_initializeFacts h

namespace PolicyMap

variable {ps ps' : PolicyMap V A} {kind : RuleKind} {store store' : RuleStore V A}

/-- A rule set changes, and its rules do not. -/
theorem hasRule_congr {p : String} {r : Rule V} (hd : ps.data name = some (.rules kind store))
    (hd' : ps'.data = Function.update ps.data name (some (.rules kind store')))
    (hrules : store'.rulesOf = store.rulesOf) : ps'.HasRule p r ↔ ps.HasRule p r := by
  by_cases hp : p = name
  · subst hp
    have hp' : ps'.data p = some (.rules kind store') := by rw [hd', Function.update_self]
    constructor
    · rintro ⟨kind₁, store₁, key, info, h, hr⟩
      rw [hp'] at h
      cases h
      exact ⟨kind, store, key, info, hd, hrules ▸ hr⟩
    · rintro ⟨kind₁, store₁, key, info, h, hr⟩
      rw [hd] at h
      cases h
      exact ⟨kind, store', key, info, hp', hrules ▸ hr⟩
  · unfold HasRule
    rw [hd', Function.update_of_ne hp]

theorem Named.update (h : ps.Named)
    (hd' : ps'.data = Function.update ps.data name (some (.rules kind store'))) : ps'.Named := by
  intro other th hother
  rw [hd'] at hother
  by_cases ho : other = name
  · subst ho
    rw [Function.update_self] at hother
    cases hother
  · rw [Function.update_of_ne ho] at hother
    exact h other th hother

end PolicyMap

/-! ## Calls -/

namespace NotifyingRuntime

variable {host : Host V A} {n n' : NotifyingRuntime V A} {events : List (AnnotatedEvent V A)} {α : Type}

theorem map_unit_ok {ε σ : Type} {x : Except ε σ} {s : σ} (h : (x.map fun s => (s, ())) = .ok (s, ())) :
    x = .ok s := by
  cases x with
  | error err => cases h
  | ok s' =>
    cases h
    rfl

theorem onRegistry_ok {f : TriggerRegistry → Except (Raised String) (TriggerRegistry × α)} {a : α}
    (h : (onRegistry f).run n = (.ok a, n')) : ∃ r, f n.registry = .ok (r, a)
      ∧ n' = ⟨{ n.toRuntime with
        globalDependencyGraph := { n.globalDependencyGraph with
          bag := { n.globalDependencyGraph.bag with graph := r.dependencyGraph } } }, r⟩ := by
  unfold onRegistry at h
  rw [run_get_bind] at h
  cases hf : f n.registry with
  | error err =>
    rw [hf] at h
    cases h
  | ok ra =>
    obtain ⟨r, b⟩ := ra
    rw [hf] at h
    cases h
    exact ⟨r, rfl, rfl⟩

/-- What an update comes to with triggers: the registry stays as it is, or it is indexed anew. -/
inductive Notified (host : Host V A) (n : NotifyingRuntime V A) (events : List (AnnotatedEvent V A)) :
    UpdateResult V A → Finset Trigger → NotifyingRuntime V A → Prop
  | rejected {rt : Runtime V A} {errors : List (PolicyError V)}
      (datalog : Runtime.Datalog host n.toRuntime events (.rejected errors) rt) :
      Notified host n events (.rejected errors) ∅ { n with toRuntime := rt }
  | noop {rt : Runtime V A} {changes : List (PolicyMap.Changed V A)}
      (actual : n.theory.actualEvents host.toPlatform events = .ok [])
      (datalog : Runtime.Datalog host n.toRuntime events (.permitted changes) rt) :
      Notified host n events (.permitted changes) ∅ { n with toRuntime := rt }
  | permitted {effective : List (AnnotatedEvent V A)} {rt : Runtime V A}
      {changes : List (PolicyMap.Changed V A)} {r : TriggerRegistry}
      (actual : n.theory.actualEvents host.toPlatform events = .ok effective) (nonempty : effective ≠ [])
      (datalog : Runtime.Datalog host n.toRuntime events (.permitted changes) rt)
      (updated : (⟨rt, n.triggerRegistry⟩ : NotifyingRuntime V A).registry.updateDependencies
        rt.globalDependencyGraph.bag.graph = .ok r) :
      Notified host n events (.permitted changes)
        (n.triggerRegistry.relevantTriggers (effective.map fun e => .event e.toEvent))
        ⟨{ rt with globalDependencyGraph := { rt.globalDependencyGraph with
            bag := { rt.globalDependencyGraph.bag with graph := r.dependencyGraph } } }, r⟩

theorem updateObjDatalog_ok {result : UpdateResult V A} {relevant : Finset Trigger}
    (h : (updateObjDatalog host events).run n = (.ok (result, relevant), n')) :
    Notified host n events result relevant n' := by
  unfold updateObjDatalog at h
  rw [run_get_bind, run_lift_bind_ok] at h
  obtain ⟨effective, hactual, h⟩ := h
  obtain ⟨result', n₁, hdatalog, h⟩ := run_bind_ok.1 h
  rw [onRuntime, run_zoom] at hdatalog
  obtain ⟨hresult, rfl⟩ := Prod.mk.inj hdatalog
  have hdatalog := Runtime.updateObjDatalog_ok (Prod.ext hresult rfl)
  cases result' with
  | rejected errors =>
    cases h
    exact .rejected hdatalog
  | permitted changes =>
    by_cases hnil : effective = []
    · subst hnil
      cases h
      exact .noop hactual hdatalog
    · dsimp only at h
      rw [if_neg (by simpa using hnil), run_get_bind] at h
      obtain ⟨⟨⟩, n₂, hregistry, h⟩ := run_bind_ok.1 h
      cases h
      obtain ⟨r, hr, rfl⟩ := onRegistry_ok hregistry
      exact .permitted hactual hnil hdatalog (map_unit_ok hr)

/-! ## What calls keep -/

/-- The registry is indexed, by a graph that has the edges of the stored rules; the triggers that an update
finds are those that depend on its tables. -/
structure Watched (n : NotifyingRuntime V A) : Prop where
  accounts : n.toRuntime.Accounts
  indexed : n.triggerRegistry.Indexed
  edges : ∀ v w, n.triggerRegistry.dependencyGraph.Edge v w ↔ n.theory.Edge v w
  named : n.theory.Named
  plain : n.theory.Plain

variable {rt : Runtime V A} {r : TriggerRegistry} {tablenames : List String} {facts : List (String × List V)}
  {target : Option String}

/-- The policies change, and their rules do not. -/
theorem Watched.congr (h : n.Watched) (haccounts : rt.Accounts)
    (hrules : ∀ p r, rt.theory.HasRule p r ↔ n.theory.HasRule p r) (hnamed : rt.theory.Named) :
    Watched { n with toRuntime := rt } where
  accounts := haccounts
  indexed := h.indexed
  edges v w := by
    refine (h.edges v w).trans ⟨?_, ?_⟩
    · rintro ⟨p, r, hr, hedge⟩
      exact ⟨p, r, (hrules p r).2 hr, hedge⟩
    · rintro ⟨p, r, hr, hedge⟩
      exact ⟨p, r, (hrules p r).1 hr, hedge⟩
  named := hnamed
  plain p r hr := h.plain p r ((hrules p r).1 hr)

/-- The registry is called, which leaves the dependency graph without known cycles. -/
theorem Watched.of_registry (haccounts : rt.Accounts) (hr : r.Indexed)
    (hgraph : ∃ cycles, r.dependencyGraph = rt.globalDependencyGraph.bag.graph.setCycles cycles)
    (hnamed : rt.theory.Named) (hplain : rt.theory.Plain) :
    Watched ⟨{ rt with globalDependencyGraph := { rt.globalDependencyGraph with
      bag := { rt.globalDependencyGraph.bag with graph := r.dependencyGraph } } }, r⟩ := by
  obtain ⟨cycles, hgraph⟩ := hgraph
  have hnodes : ∀ v, v ∈ r.dependencyGraph.nodes ↔ v ∈ rt.globalDependencyGraph.bag.graph.nodes := by
    intro v
    rw [hgraph]
    rfl
  have hout : ∀ v w, r.dependencyGraph.Edge v w ↔ rt.globalDependencyGraph.bag.graph.Edge v w := by
    intro v w
    rw [hgraph]
    rfl
  refine ⟨⟨haccounts.headToBody, ?_, haccounts.nonrecursive, haccounts.proper⟩, hr, fun v w => ?_, hnamed, hplain⟩
  · rw [hgraph]
    exact haccounts.holds.of_graph rfl rfl
  · exact (hout v w).trans haccounts.edge_iff

theorem Watched.registry (h : n.Watched) : n.registry.Indexed :=
  h.indexed.congr (fun v w => h.accounts.edge_iff.trans (h.edges v w).symm)
    fun _ _ hw => h.accounts.holds.edge_target hw

theorem Watched.onRegistry {f : TriggerRegistry → Except (Raised String) (TriggerRegistry × α)} {a : α}
    (h : n.Watched) (hrun : (onRegistry f).run n = (.ok a, n'))
    (hf : ∀ r, f n.registry = .ok (r, a) → r.Indexed
      ∧ ∃ cycles, r.dependencyGraph = n.registry.dependencyGraph.setCycles cycles) : n'.Watched := by
  obtain ⟨r, hr, rfl⟩ := onRegistry_ok hrun
  obtain ⟨hindexed, hgraph⟩ := hf r hr
  exact .of_registry h.accounts hindexed hgraph h.named h.plain

/-- The tables whose clauses an update is about. -/
def eventTables (events : List (AnnotatedEvent V A)) : List String :=
  events.flatMap fun e => e.toEvent.tables

theorem tables_eq {e : AnnotatedEvent V A} (htarget : e.target = some name)
    (he : e.formula.isDatalog = true) :
    e.toEvent.tables = [e.formula.asRule.head.table.globalTablename (some name)] := by
  have hmore := Formula.moreHeads_of_isDatalog he
  unfold Event.tables
  rw [htarget]
  cases hf : e.formula with
  | atom l => rfl
  | rule r =>
    rw [hf] at hmore
    dsimp only [Formula.asRule] at hmore ⊢
    rw [Rule.heads, hmore]
    rfl

/-- What an update that is permitted comes to. -/
theorem applied_of_permitted {effective : List (AnnotatedEvent V A)} {changes : List (PolicyMap.Changed V A)}
    (hactual : n.theory.actualEvents host.toPlatform events = .ok effective) (hnil : effective ≠ [])
    (hdatalog : Runtime.Datalog host n.toRuntime events (.permitted changes) rt)
    (ho : PolicyMap.Orderly host.toPlatform n.theory name effective) :
    PolicyMap.Applied host.toPlatform name effective n.theory rt.theory
      ∧ (∀ e ∈ effective, e.formula.isDatalog = true)
      ∧ ∀ db, n.theory.data name = some (.database db) → ∀ e ∈ effective, e.formula.asRule.body = [] := by
  cases hdatalog with
  | noop hactual' =>
    rw [hactual] at hactual'
    cases hactual'
    exact absurd rfl hnil
  | permitted hactual' _ hchecks _ happlied =>
    rw [hactual] at hactual'
    cases hactual'
    refine ⟨PolicyMap.applied_of_updateTargets hnil ho happlied,
      PolicyMap.isDatalog_of_errors hactual hchecks, fun db hd e he => ?_⟩
    obtain ⟨l, hl⟩ := PolicyMap.atom_of_checked hd hchecks ho e he
    rw [hl]
    rfl

theorem theory_of_rejected {errors : List (PolicyError V)}
    (h : Runtime.Datalog host n.toRuntime events (.rejected errors) rt) : rt.theory = n.theory := by
  cases h <;> rfl

theorem theory_of_noop {changes : List (PolicyMap.Changed V A)}
    (hactual : n.theory.actualEvents host.toPlatform events = .ok [])
    (h : Runtime.Datalog host n.toRuntime events (.permitted changes) rt) : rt.theory = n.theory := by
  cases h with
  | noop => rfl
  | permitted hactual' hnil =>
    rw [hactual] at hactual'
    cases hactual'
    exact absurd rfl hnil

/-- A trigger that an update does not look at has the contents that it had. -/
def Missed (host : Host V A) (n n' : NotifyingRuntime V A) (tables : List String) (relevant : Finset Trigger) :
    Prop :=
  ∀ t ∈ n.triggerRegistry.triggers, t ∉ relevant → t.Plain →
    (t.modal = none ∨ buildServiceTable t.policy (parseServiceTable t.tablename).table ∉ tables) →
    ∀ m, n'.theory.contents host.toPlatform t m = n.theory.contents host.toPlatform t m

theorem Watched.not_dependsOn (h : n.Watched) {changes : List (TableChange V)} {t : Trigger} {x : String}
    (ht : t ∈ n.triggerRegistry.triggers) (hrelevant : t ∉ n.triggerRegistry.relevantTriggers changes)
    (hx : x ∈ changes.flatMap (·.tables)) : ¬ n.triggerRegistry.DependsOn t x :=
  fun hd => hrelevant (h.indexed.mem_relevantTriggers.2 ⟨ht, x, hx, hd⟩)

theorem Watched.updateObjDatalog {result : UpdateResult V A} {relevant : Finset Trigger} (h : n.Watched)
    (hrun : (updateObjDatalog host events).run n = (.ok (result, relevant), n'))
    (ho : PolicyMap.Orderly host.toPlatform n.theory name (n.theory.effective host.toPlatform events))
    (hplain : ∀ e ∈ n.theory.effective host.toPlatform events, e.formula.asRule.Plain name) :
    n'.Watched ∧ Missed host n n' (eventTables (n.theory.effective host.toPlatform events)) relevant := by
  have hunchanged : ∀ {rt : Runtime V A}, rt.Accounts → rt.theory = n.theory →
      Watched { n with toRuntime := rt } ∧ Missed host n { n with toRuntime := rt }
        (eventTables (n.theory.effective host.toPlatform events)) ∅ := by
    intro rt haccounts htheory
    refine ⟨h.congr haccounts (fun p r => by rw [htheory]) (htheory ▸ h.named), fun t _ _ _ _ m => ?_⟩
    show rt.theory.contents _ _ _ = _
    rw [htheory]
  cases updateObjDatalog_ok hrun with
  | rejected hdatalog => exact hunchanged (h.accounts.datalog hdatalog ⟨name, ho⟩) (theory_of_rejected hdatalog)
  | noop hactual hdatalog =>
    exact hunchanged (h.accounts.datalog hdatalog ⟨name, ho⟩) (theory_of_noop hactual hdatalog)
  | @permitted effective rt changes r hactual hnil hdatalog hupdated =>
    have haccounts := h.accounts.datalog hdatalog ⟨name, ho⟩
    have heffective : n.theory.effective host.toPlatform events = effective := by
      rw [PolicyMap.effective, hactual]
    rw [heffective] at ho hplain ⊢
    obtain ⟨happlied, hdata, hatoms⟩ := applied_of_permitted hactual hnil hdatalog ho
    obtain ⟨hindexed, hgraph⟩ := h.indexed.updateDependencies_ok
      (fun _ _ hw => haccounts.holds.edge_target hw) hupdated
    refine ⟨.of_registry haccounts hindexed hgraph (happlied.named h.named)
      (h.plain.applied happlied hdata hplain), fun t ht hrelevant htplain hfacts m => ?_⟩
    have htables : ∀ e ∈ effective,
        e.formula.asRule.head.table.globalTablename (some name) ∈ eventTables effective := by
      intro e he
      refine List.mem_flatMap.2 ⟨e, he, ?_⟩
      rw [tables_eq (ho.target e he) (hdata e he)]
      exact List.mem_singleton_self _
    refine PolicyMap.contents_of_applied happlied hdata hatoms h.named h.plain hplain h.edges htables
      (fun x hx => h.not_dependsOn ht hrelevant ?_) htplain hfacts
    obtain ⟨e, he, hx⟩ := List.mem_flatMap.1 hx
    exact List.mem_flatMap.2 ⟨_, List.mem_map_of_mem he, hx⟩

theorem initializeTables_ok {relevant : Finset Trigger}
    (h : (initializeTables host tablenames facts target).run n = (.ok relevant, n')) :
    ∃ name, n.getTargetName target = .ok name
      ∧ relevant = n.triggerRegistry.relevantTriggers (V := V)
        (tablenames.map fun x => .table (buildServiceTable name x))
      ∧ ∃ rt, (Runtime.initializeTables host tablenames facts target).run n.toRuntime = (.ok (), rt)
        ∧ n' = { n with toRuntime := rt } := by
  unfold initializeTables at h
  rw [run_get_bind] at h
  cases hname : n.getTargetName target with
  | error err =>
    rw [hname] at h
    cases h
  | ok name =>
    rw [hname] at h
    obtain ⟨⟨⟩, n₁, hruntime, h⟩ := run_bind_ok.1 h
    rw [onRuntime, run_zoom] at hruntime
    obtain ⟨hresult, rfl⟩ := Prod.mk.inj hruntime
    cases h
    exact ⟨name, rfl, rfl, _, Prod.ext hresult rfl, rfl⟩

theorem Watched.initializeTables {relevant : Finset Trigger} (h : n.Watched)
    (hrun : (initializeTables host tablenames facts target).run n = (.ok relevant, n'))
    (ho : Runtime.Orderly host n.toRuntime (.initializeTables tablenames facts target)) :
    n'.Watched ∧ ∀ name, n.getTargetName target = .ok name →
      Missed host n n' (tablenames.map (buildServiceTable name)) relevant := by
  obtain ⟨name, hname, rfl, rt, hruntime, rfl⟩ := initializeTables_ok hrun
  have haccounts := h.accounts.initializeTables hruntime ho
  obtain ⟨name', kind, store, schema, hname', hlook, rfl⟩ := Runtime.initializeTables_eq hruntime
  obtain rfl : name = name' := by
    rw [hname] at hname'
    cases hname'
    rfl
  have hd : n.theory.data name = some (.rules kind store) := PolicyMap.data_of_lookup hlook
  have hempty := ho name kind store hname hd
  set filled := (Runtime.initializeFacts (tablenames.foldl .clearTable store) schema tablenames facts) with hfilled
  have hrules : filled.1.rulesOf = store.rulesOf := by
    rw [hfilled, Runtime.initializeFacts_rulesOf, RuleStore.rulesOf_clearTables hempty]
  have hdata : PolicyMap.data (n.theory.insert name ⟨.rules kind filled.1, filled.2⟩)
      = Function.update n.theory.data name (some (.rules kind filled.1)) := by
    funext other
    rw [PolicyMap.data_insert, Function.update_apply]
  have hnamed := h.named.update hdata
  refine ⟨h.congr haccounts (fun p r => PolicyMap.hasRule_congr hd hdata hrules) hnamed,
    fun name' hname' t ht hrelevant hplain hfacts m => ?_⟩
  obtain rfl : name = name' := by
    rw [hname] at hname'
    cases hname'
    rfl
  refine PolicyMap.contents_of_initialized hd hdata hrules (fun table htable => ?_) h.named hnamed h.plain
    h.edges (fun table htable => ?_) hplain hfacts
  · rw [hfilled, Runtime.factsOf_initializeFacts htable, RuleStore.factsOf_clearTables htable]
  · refine h.not_dependsOn ht hrelevant ?_
    exact List.mem_flatMap.2 ⟨_, List.mem_map_of_mem htable, List.mem_singleton_self _⟩

theorem Watched.createPolicy {kind : PolicyKind} (h : n.Watched)
    (hrun : (onRuntime (Runtime.createPolicy name kind)).run n = (.ok (), n')) : n'.Watched := by
  rw [onRuntime, run_zoom] at hrun
  obtain ⟨hresult, rfl⟩ := Prod.mk.inj hrun
  have hruntime : (Runtime.createPolicy name kind).run n.toRuntime
      = (.ok (), ((Runtime.createPolicy name kind).run n.toRuntime).2) := Prod.ext hresult rfl
  have haccounts := h.accounts.createPolicy hruntime
  rcases Runtime.createPolicy_eq hruntime with heq | ⟨hmem, heq⟩
  · rw [heq]
    exact h
  · rw [heq] at haccounts ⊢
    refine h.congr haccounts (fun p r => ?_) fun other th hother => ?_
    · have hnew : ∀ kind' store, (Runtime.newPolicy name kind : Policy V A).data = .rules kind' store →
          ∀ key, store.rulesOf key = [] := by
        intro kind' store hkind key
        cases kind <;> cases hkind <;> rfl
      have hnone : n.theory.data name = none := by
        rw [PolicyMap.data, AList.lookup_eq_none.2 hmem]
        rfl
      unfold PolicyMap.HasRule
      simp only [PolicyMap.data_insert]
      by_cases hp : p = name
      · subst hp
        rw [if_pos rfl, hnone]
        refine ⟨?_, by rintro ⟨_, _, _, _, h, -⟩; cases h⟩
        rintro ⟨kind', store, key, info, hd, hr⟩
        rw [hnew kind' store (Option.some.inj hd) key] at hr
        exact absurd hr List.not_mem_nil
      · rw [if_neg hp]
    · rw [PolicyMap.data_insert] at hother
      split_ifs at hother with ho
      · subst ho
        cases kind <;> cases hother
        rfl
      · exact h.named other th hother

theorem Watched.registerTrigger {tablename : String} {callback : Callback} {policy modal : Option String}
    {t : Trigger} (h : n.Watched)
    (hrun : (registerTrigger tablename callback policy modal).run n = (.ok t, n')) : n'.Watched := by
  unfold NotifyingRuntime.registerTrigger at hrun
  rw [run_get_bind] at hrun
  cases hname : n.getTargetName policy with
  | error err =>
    rw [hname] at hrun
    cases hrun
  | ok name =>
    rw [hname] at hrun
    exact h.onRegistry hrun fun r hr => h.registry.registerTable_ok hr

theorem Watched.unregisterTrigger {t : Trigger} (h : n.Watched)
    (hrun : (unregisterTrigger t).run n = (.ok (), n')) : n'.Watched :=
  h.onRegistry hrun fun _ hr => h.registry.unregister_ok (map_unit_ok hr)

/-! ## Runs -/

/-- A call that changes what policies hold, and for which triggers are looked at. -/
inductive Alteration (V A : Type)
  | update (events : List (AnnotatedEvent V A))
  | initializeTables (tablenames : List String) (facts : List (String × List V)) (target : Option String)

inductive Call (V A : Type)
  | alter (c : Alteration V A)
  | createPolicy (name : String) (kind : PolicyKind)
  | registerTrigger (tablename : String) (callback : Callback) (policy modal : Option String)
  | unregisterTrigger (t : Trigger)

/-- Returns the triggers that are looked at. -/
def alter (host : Host V A) : Alteration V A → Run V A (Finset Trigger)
  | .update events => do
    let (_, relevant) ← updateObjDatalog host events
    pure relevant
  | .initializeTables tablenames facts target => initializeTables host tablenames facts target

def perform (host : Host V A) : Call V A → Run V A Unit
  | .alter c => do
    let _ ← alter host c
    pure ()
  | .createPolicy name kind => onRuntime (Runtime.createPolicy name kind)
  | .registerTrigger tablename callback policy modal => do
    let _ ← registerTrigger tablename callback policy modal
    pure ()
  | .unregisterTrigger t => unregisterTrigger t

def call (host : Host V A) (n : NotifyingRuntime V A) (c : Call V A) : NotifyingRuntime V A :=
  ((perform host c).run n).2

/-- The tables that a call is about. -/
def tables (host : Host V A) (n : NotifyingRuntime V A) : Alteration V A → List String
  | .update events => eventTables (n.theory.effective host.toPlatform events)
  | .initializeTables tablenames _ target =>
    match n.getTargetName target with
    | .ok name => tablenames.map (buildServiceTable name)
    | .error _ => []

/-- The events of an update, as far as they are no noops, are about different facts and plain rules of one
policy, which is no materialized view; tables that are initialized have no rules. -/
def Orderly (host : Host V A) (n : NotifyingRuntime V A) : Alteration V A → Prop
  | .update events => ∃ name,
      PolicyMap.Orderly host.toPlatform n.theory name (n.theory.effective host.toPlatform events)
        ∧ ∀ e ∈ n.theory.effective host.toPlatform events, e.formula.asRule.Plain name
  | .initializeTables tablenames facts target =>
      Runtime.Orderly host n.toRuntime (.initializeTables tablenames facts target)

/-- The call returns, and its events are orderly. -/
def Accepted (host : Host V A) (n : NotifyingRuntime V A) (c : Call V A) : Prop :=
  ((perform host c).run n).1 = .ok () ∧ ∀ a, c = .alter a → Orderly host n a

theorem Watched.alter {c : Alteration V A} {relevant : Finset Trigger} (h : n.Watched)
    (ho : Orderly host n c) (hrun : (alter host c).run n = (.ok relevant, n')) :
    n'.Watched ∧ Missed host n n' (tables host n c) relevant := by
  cases c with
  | update events =>
    obtain ⟨name, ho, hplain⟩ := ho
    obtain ⟨⟨result, relevant'⟩, n₁, hupdate, hpure⟩ := run_bind_ok.1 hrun
    cases hpure
    exact h.updateObjDatalog hupdate ho hplain
  | initializeTables tablenames facts target =>
    obtain ⟨hwatched, hmissed⟩ := h.initializeTables hrun ho
    obtain ⟨name, hname, -⟩ := initializeTables_ok hrun
    have htables : tables host n (.initializeTables tablenames facts target)
        = tablenames.map (buildServiceTable name) := by
      rw [tables, hname]
    rw [htables]
    exact ⟨hwatched, hmissed name hname⟩

theorem Watched.call {c : Call V A} (h : n.Watched) (hc : Accepted host n c) : (call host n c).Watched := by
  obtain ⟨hreturns, ho⟩ := hc
  obtain ⟨n', hrun⟩ : ∃ n', (perform host c).run n = (.ok (), n') :=
    ⟨((perform host c).run n).2, Prod.ext hreturns rfl⟩
  unfold NotifyingRuntime.call
  rw [hrun]
  cases c with
  | alter a =>
    obtain ⟨relevant, n₁, halter, hpure⟩ := run_bind_ok.1 hrun
    cases hpure
    exact (h.alter (ho a rfl) halter).1
  | createPolicy name kind => exact h.createPolicy hrun
  | registerTrigger tablename callback policy modal =>
    obtain ⟨t, n₁, hregister, hpure⟩ := run_bind_ok.1 hrun
    cases hpure
    exact h.registerTrigger hregister
  | unregisterTrigger t => exact h.unregisterTrigger hrun

theorem watched_init : (init : NotifyingRuntime V A).Watched where
  accounts := Runtime.accounts_init
  indexed := TriggerRegistry.indexed_empty
  edges _ _ := Runtime.accounts_init.edge_iff
  named := nofun
  plain := by
    rintro p r ⟨kind, store, key, info, hd, -⟩
    cases hd

/-- Publishes the table `q` of a policy, which is the table `p` of another one. -/
def published : List (Call ℕ Unit) :=
  [.createPolicy "a" .nonrecursive, .createPolicy "nova" .datasource,
    .registerTrigger "q" .pubPolicyResult (some "a") none, .alter (.update [DseRuntime.insertRule])]

theorem orderly_insertRule {host : Host ℕ Unit} {n : NotifyingRuntime ℕ Unit}
    (h : ∀ th, n.theory.data "a" ≠ some (.materialized th)) :
    Orderly host n (.update [DseRuntime.insertRule]) := by
  have hone : ∀ e ∈ n.theory.effective host.toPlatform [DseRuntime.insertRule], e = DseRuntime.insertRule :=
    fun e he => List.mem_singleton.1 (Runtime.effective_sublist.subset he)
  refine ⟨"a", ⟨fun e he => ?_, h, (List.pairwise_singleton ..).sublist Runtime.effective_sublist⟩,
    fun e he => ?_⟩
  · rw [hone e he]
    rfl
  · rw [hone e he]
    refine ⟨fun _ => rfl, nofun, fun l hl => ?_⟩
    obtain rfl := List.mem_singleton.1 hl
    exact ⟨rfl, fun hu => absurd hu (by decide)⟩

end NotifyingRuntime

end Congress
