import Congress.Proofs.StoredGraph
import Congress.Proofs.Subscriptions

/-!
# Runs of calls on the runtime

Policies are created and deleted, updated, given schemas and initialized, in any order. As long as the
calls return, and the events of each are about different rules of one policy, the dependency graph holds
what the stored rules account for, and these are not recursive (`accounts_along`).
-/

namespace Congress

open Lib Lib.Ledger Stateful Relation

set_option linter.unusedSectionVars false

variable {V A α : Type} [DecidableEq V] [Inhabited A] [DecidableEq α] {pf : Platform V} {name : String}

namespace RuleStore

variable {s : RuleStore V A} {events : List (AnnotatedEvent V A)} {key : String}
  {w : String → Rule V → Multiset α}

theorem statements_putAll : ∀ {events : List (AnnotatedEvent V A)} {s : RuleStore V A},
    (∀ e ∈ events, e.formula.isDatalog = true) → (s.putAll pf events).statements
      = applyAll s.statements (events.map fun e => (e.statement pf).change e.insert)
  | [], _, _ => rfl
  | e :: events, s, h => by
    obtain ⟨he, hevents⟩ := List.forall_mem_cons.1 h
    have hput : (s.putEvent pf e).statements = ((e.statement pf).change e.insert).apply s.statements :=
      statements_put fun _ => PolicyMap.negated_of_isDatalog he
    show ((s.putEvent pf e).putAll pf events).statements = _
    rw [statements_putAll hevents, hput]
    rfl

theorem weight_eq_zero (hw : Accountable w) (h : ∀ key, s.rulesOf key = []) :
    s.weight (fun _ => w name) = 0 := by
  refine Multiset.eq_zero_of_forall_notMem fun x hx => ?_
  obtain ⟨key, r, hr, -⟩ := (mem_weight hw).1 hx
  rw [h key] at hr
  exact absurd hr List.not_mem_nil

/-- Facts account for nothing. -/
theorem weight_setFacts_eq (hw : Accountable w) (fs : List (List V)) (h : fs.Nodup) :
    (s.setFacts key fs h).weight (fun _ => w name) = s.weight fun _ => w name := by
  have hzero : ∀ fs : List (List V), (fs.map fun f => w name (factRule key f)).sum = 0 := by
    intro fs
    refine List.sum_eq_zero fun m hm => ?_
    obtain ⟨f, -, rfl⟩ := List.mem_map.1 hm
    exact hw.fact _ _ rfl rfl
  have hset := weight_setFacts (fun _ => w name) s key fs h
  rwa [hzero, hzero, add_zero, add_zero] at hset

theorem weight_clearTable (hw : Accountable w) (h : s.rulesOf key = []) :
    (s.clearTable key).weight (fun _ => w name) = s.weight fun _ => w name := by
  have hset := weight_setRules (fun _ => w name) s key [] .nil
  rw [h, List.map_nil, List.sum_nil, add_zero, add_zero] at hset
  exact (weight_setFacts_eq hw _ _).trans hset

theorem rulesOf_clearTables : ∀ {tables : List String} {s : RuleStore V A},
    (∀ table ∈ tables, s.rulesOf table = []) → (tables.foldl clearTable s).rulesOf = s.rulesOf
  | [], _, _ => rfl
  | table :: tables, s, h => by
    obtain ⟨htable, htables⟩ := List.forall_mem_cons.1 h
    have hrules := rulesOf_clearTable htable
    exact (rulesOf_clearTables (s := s.clearTable table) (by rwa [hrules])).trans hrules

theorem weight_clearTables (hw : Accountable w) : ∀ {tables : List String} {s : RuleStore V A},
    (∀ table ∈ tables, s.rulesOf table = []) →
      (tables.foldl clearTable s).weight (fun _ => w name) = s.weight fun _ => w name
  | [], _, _ => rfl
  | table :: tables, s, h => by
    obtain ⟨htable, htables⟩ := List.forall_mem_cons.1 h
    have hrules := rulesOf_clearTable htable
    exact (weight_clearTables hw (s := s.clearTable table) (by rwa [hrules])).trans
      (weight_clearTable hw htable)

end RuleStore

theorem Runtime.weight_initializeFacts {w : String → Rule V → Multiset α} (hw : Accountable w) :
    ∀ {facts : List (String × List V)} {store : RuleStore V A} {schema : Option Schema}
      {tablenames : List String}, (initializeFacts store schema tablenames facts).1.weight
        (fun _ => w name) = store.weight fun _ => w name
  | [], _, _, _ => rfl
  | (table, fact) :: facts, store, schema, tablenames => by
    unfold initializeFacts
    split_ifs
    · rw [weight_initializeFacts hw, RuleStore.weight_addFact, hw.fact _ _ rfl rfl, add_zero, ite_self]
    · exact weight_initializeFacts hw

namespace PolicyMap

variable {ps ps' : PolicyMap V A} {M : Type} [AddCommMonoid M] {w : String → String → Rule V → M}

/-- A policy that goes no longer contributes. -/
theorem weight_erase {d : PolicyData V A} (hd : ps.data name = some d)
    (h : ps'.data = Function.update ps.data name none) :
    ps'.weight w + d.weight (w name) = ps.weight w := by
  have hmem : name ∈ ps.keys.toFinset := mem_keys_iff.2 (by rw [hd]; rfl)
  have hkeys : ps'.keys.toFinset = ps.keys.toFinset.erase name := by
    ext other
    rw [Finset.mem_erase, mem_keys_iff, mem_keys_iff, h]
    by_cases ho : other = name
    · subst ho
      simp
    · rw [Function.update_of_ne ho]
      simp [ho]
  have hrest : ∀ other ∈ ps.keys.toFinset.erase name, ps'.data other = ps.data other :=
    fun other ho => by rw [h, Function.update_of_ne (Finset.ne_of_mem_erase ho)]
  rw [weight, weight, hkeys, ← Finset.add_sum_erase _ _ hmem, hd,
    Finset.sum_congr rfl fun other ho => by rw [hrest other ho], add_comm]
  rfl

theorem data_erase : data (ps.erase name) = Function.update ps.data name none := by
  funext other
  by_cases ho : other = name
  · subst ho
    rw [Function.update_self, data, AList.lookup_erase]
    rfl
  · rw [Function.update_of_ne ho, data, data, AList.lookup_erase_ne ho]

theorem weight_insert_new {p : Policy V A} (h : name ∉ ps) (hp : p.data.weight (w name) = 0) :
    PolicyMap.weight w (ps.insert name p) = ps.weight w := by
  have hnone : ps.data name = none := by rw [data, AList.lookup_eq_none.2 h]; rfl
  have herase : ps.data = Function.update (data (ps.insert name p)) name none := by
    funext other
    by_cases ho : other = name
    · subst ho
      rw [Function.update_self, hnone]
    · rw [Function.update_of_ne ho, data_insert, if_neg ho]
  have hweight := weight_erase (w := w) (data_of_lookup (AList.lookup_insert ps)) herase
  rw [hp, add_zero] at hweight
  exact hweight.symm

end PolicyMap

namespace Runtime

open RuleDependencyGraph

variable {host : Host V A} {rt rt' : Runtime V A} {events resolved : List (AnnotatedEvent V A)}

/-! ## Calls -/

/-- A call that changes what policies hold. -/
inductive Call (V A : Type)
  | update (b : Batch V A)
  | createPolicy (name : String) (kind : PolicyKind)
  | deletePolicy (name : String)
  | setSchema (name : String) (columns : AList fun _ : String => List String) (complete : Bool)
  | initializeTables (tablenames : List String) (facts : List (String × List V))
    (target : Option String)

def perform (host : Host V A) : Call V A → Run V A Unit
  | .update b => do
    let _ ← update host b.events b.target b.persistent
    pure ()
  | .createPolicy name kind => createPolicy name kind
  | .deletePolicy name => deletePolicy host name
  | .setSchema name columns complete => setSchema host name columns complete
  | .initializeTables tablenames facts target => initializeTables host tablenames facts target

def call (host : Host V A) (rt : Runtime V A) (c : Call V A) : Runtime V A := ((perform host c).run rt).2

/-- The events by which a policy is deleted. -/
def deletions (name : String) (p : Policy V A) : List (AnnotatedEvent V A) :=
  p.content.map fun c => ⟨⟨c.1, false, some name⟩, c.2⟩

theorem target_of_mem_deletions {p : Policy V A} {e : AnnotatedEvent V A} (h : e ∈ deletions name p) :
    e.target = some name := by
  obtain ⟨c, -, rfl⟩ := List.mem_map.1 h
  rfl

/-- The events of a call, as far as they are no noops, are about different facts and rules of one policy,
which is no materialized view. A policy that is deleted has its rules deleted as they are, and tables that
are initialized have no rules. -/
def Orderly (host : Host V A) (rt : Runtime V A) : Call V A → Prop
  | .update b => ∃ name, PolicyMap.Orderly host.toPlatform rt.theory name
      (rt.theory.effective host.toPlatform (rt.enabled host b.events b.target b.persistent))
  | .createPolicy _ _ => True
  | .deletePolicy name => ∀ p, rt.theory.lookup name = some p →
      rt.enabled host (deletions name p) none false = deletions name p
        ∧ PolicyMap.Orderly host.toPlatform rt.theory name (deletions name p)
  | .setSchema _ _ _ => ∀ e ∈ rt.disabledEvents, ∀ name, e.target = some name →
      ∀ th, rt.theory.data name ≠ some (.materialized th)
  | .initializeTables tablenames _ target => ∀ name kind store, rt.getTargetName target = .ok name →
      rt.theory.data name = some (.rules kind store) → ∀ table ∈ tablenames, store.rulesOf table = []

/-- The call returns, and its events are orderly. -/
def Accepted (host : Host V A) (rt : Runtime V A) (c : Call V A) : Prop :=
  ((perform host c).run rt).1 = .ok () ∧ Orderly host rt c

/-! ## What calls keep -/

/-- Accounts are about the graph and what policies account for. -/
theorem Accounts.congr (h : rt.Accounts) (hgraph : rt'.globalDependencyGraph = rt.globalDependencyGraph)
    (hn : (rt'.theory.weight fun name _ => nodesOf name) = rt.theory.weight fun name _ => nodesOf name)
    (he : (rt'.theory.weight fun name _ => edgesOf name) = rt.theory.weight fun name _ => edgesOf name)
    (hproper : rt'.theory.Proper) : rt'.Accounts := by
  have hholds := h.holds
  rw [← hgraph, ← hn, ← he] at hholds
  refine ⟨hgraph ▸ h.headToBody, hholds, fun hc => h.nonrecursive (hc.mono fun a b hab => ?_), hproper⟩
  rw [← h.edge_iff, ← hgraph]
  exact (PolicyMap.edge_iff_of_holds hholds).2 hab

theorem Accounts.of_sameData (h : rt.Accounts)
    (hgraph : rt'.globalDependencyGraph = rt.globalDependencyGraph)
    (hdata : rt.theory.SameData rt'.theory) : rt'.Accounts := by
  refine h.congr hgraph (PolicyMap.weight_congr hdata) (PolicyMap.weight_congr hdata)
    fun name kind store hd => h.proper name kind store ?_
  rwa [← hdata]

theorem enabled_of_limbo {target : Option String} {persistent : Bool} {limbo : Limbo V A}
    (htargets : rt.resolveTargets target events = (resolved, []))
    (hlimbo : rt.theory.processLimboEvents host.toPlatform persistent resolved = .ok limbo) :
    rt.enabled host events target persistent = limbo.enabled := by
  rw [enabled, htargets, hlimbo]

theorem Accounts.update {target : Option String} {persistent : Bool} {result : UpdateResult V A}
    (h : rt.Accounts) (hrun : (Runtime.update host events target persistent).run rt = (.ok result, rt'))
    (ho : ∃ name, PolicyMap.Orderly host.toPlatform rt.theory name
      (rt.theory.effective host.toPlatform (rt.enabled host events target persistent))) :
    rt'.Accounts := by
  cases update_ok hrun with
  | unresolved => exact h
  | inconsistent => exact h
  | rejected htargets hlimbo hconsistent hdatalog =>
    rw [enabled_of_limbo htargets hlimbo] at ho
    exact h.datalog hdatalog ho
  | permitted htargets hlimbo hconsistent hdatalog =>
    rw [enabled_of_limbo htargets hlimbo] at ho
    exact (h.datalog hdatalog ho).of_sameData rfl rfl

theorem weight_newPolicy {w : String → Rule V → Multiset α} {kind : PolicyKind} :
    (newPolicy name kind : Policy V A).data.weight (fun _ => w name) = 0 := by
  cases kind <;> rfl

theorem createPolicy_eq {kind : PolicyKind} {r : Except Fault Unit}
    (hrun : (Runtime.createPolicy name kind).run rt = (r, rt')) :
    rt' = rt ∨ name ∉ rt.theory
      ∧ rt' = { rt with theory := rt.theory.insert name (newPolicy name kind) } := by
  unfold Runtime.createPolicy at hrun
  rw [run_get_bind] at hrun
  split_ifs at hrun with hmem
  · cases hrun
    exact .inl rfl
  · cases hrun
    exact .inr ⟨hmem, rfl⟩

theorem Accounts.createPolicy {kind : PolicyKind} {r : Except Fault Unit} (h : rt.Accounts)
    (hrun : (Runtime.createPolicy name kind).run rt = (r, rt')) : rt'.Accounts := by
  rcases createPolicy_eq hrun with rfl | ⟨hmem, rfl⟩
  · exact h
  · refine h.congr rfl (PolicyMap.weight_insert_new hmem weight_newPolicy)
      (PolicyMap.weight_insert_new hmem weight_newPolicy) fun other kind' store hd => ?_
    rw [PolicyMap.data_insert] at hd
    split_ifs at hd with ho
    · obtain rfl : store = .empty := by
        cases kind <;> cases hd <;> rfl
      exact RuleStore.proper_empty
    · exact h.proper _ _ _ hd

/-- The events that come to the policies are among those that are enabled. -/
theorem effective_sublist {ps : PolicyMap V A} : (ps.effective pf events).Sublist events := by
  classical
  unfold PolicyMap.effective
  split
  · rename_i effective hactual
    rw [PolicyMap.actualEvents_ok hactual]
    exact List.filter_sublist
  · exact List.nil_sublist _

/-! ## Deleting policies -/

/-- A rule of a policy is among the events by which it is deleted. -/
theorem mem_deletions {p : Policy V A} {kind : RuleKind} {store : RuleStore V A} {key : String}
    {r : Rule V × A} (hp : p.data = .rules kind store) (hr : r ∈ store.rulesOf key)
    (hbody : r.1.body ≠ []) : (⟨⟨.rule r.1, false, some name⟩, r.2⟩ : AnnotatedEvent V A)
      ∈ deletions name p := by
  refine List.mem_map.2 ⟨(.rule r.1, r.2), ?_, rfl⟩
  unfold Policy.content
  rw [hp]
  exact List.mem_map.2 ⟨r, (RuleStore.mem_content hbody).2 ⟨key, hr⟩, rfl⟩

/-- Nothing is left of the rules of a policy that all are deleted. -/
theorem rulesOf_of_deleted {store : RuleStore V A} {key : String}
    {effective events' : List (AnnotatedEvent V A)} (hproper : store.Proper)
    (hall : ∀ key, ∀ r ∈ store.rulesOf key, ∃ e ∈ effective, e.formula = .rule r.1)
    (hdatalog : ∀ e ∈ effective, e.formula.isDatalog = true) (hdel : ∀ e ∈ effective, e.insert = false)
    (hr : List.Forall₂ (AnnotatedEvent.Reordered pf.registry) effective events') :
    (store.putAll pf events').rulesOf key = [] := by
  refine List.eq_nil_iff_forall_not_mem.2 fun r hmem => ?_
  have hdatalog' : ∀ e' ∈ events', e'.formula.isDatalog = true := by
    intro e' he'
    obtain ⟨e, he, hre⟩ := AnnotatedEvent.exists_of_reordered hr he'
    exact hre.statement.2.2 (hdatalog e he)
  have hin : Statement.rule key r.1 ∈ (store.putAll pf events').statements :=
    RuleStore.mem_statements_rule.2 ⟨r, hmem, Rule.same_refl _⟩
  rw [RuleStore.statements_putAll hdatalog'] at hin
  have hnot : ∀ c ∈ events'.map fun e => (e.statement pf).change e.insert,
      ∀ x ∈ c.on, (c.insert = true ↔ x ∈ (∅ : Set (Statement V))) := by
    intro c hc x _
    obtain ⟨e', he', rfl⟩ := List.mem_map.1 hc
    obtain ⟨e, he, hre⟩ := AnnotatedEvent.exists_of_reordered hr he'
    simp [Statement.change, hre.statement.2.1, hdel e he]
  by_cases htouched : ∃ c ∈ events'.map fun e => (e.statement pf).change e.insert,
      Statement.rule key r.1 ∈ c.on
  · rw [mem_applyAll_of_agree hnot htouched] at hin
    exact hin
  · simp only [not_exists, not_and] at htouched
    rw [mem_applyAll_of_untouched htouched, RuleStore.mem_statements_rule] at hin
    obtain ⟨r', hr', hsame⟩ := hin
    obtain ⟨hkey, hbody, -⟩ := hproper key r' hr'
    obtain ⟨e, he, hformula⟩ := hall key r' hr'
    obtain ⟨e', he', hre⟩ := AnnotatedEvent.exists_of_reordered_left hr he
    refine htouched _ (List.mem_map_of_mem he') ?_
    have hstatement : (e.statement pf).Same (.rule key r.1) := by
      have : e.statement pf = .rule key r'.1 := by
        rw [AnnotatedEvent.statement, hformula, Formula.asRule, RuleStore.statement_of_ne_nil hbody, hkey]
      rw [this]
      exact ⟨rfl, hsame⟩
    exact hre.statement.1.trans hstatement

/-- A rule of a policy is no noop among the events by which it is deleted. -/
theorem effective_of_stored {p : Policy V A} {kind : RuleKind} {store : RuleStore V A} {key : String}
    {r : Rule V × A} (hlook : rt.theory.lookup name = some p) (hp : p.data = .rules kind store)
    (hproper : store.Proper) (hr : r ∈ store.rulesOf key) {effective : List (AnnotatedEvent V A)}
    (hactual : rt.theory.actualEvents pf (deletions name p) = .ok effective) :
    ∃ e ∈ effective, e.formula = .rule r.1 := by
  obtain ⟨hkey, hbody, -⟩ := hproper key r hr
  have hcontains : store.contains pf r.1 = true := by
    rw [RuleStore.contains_iff, RuleStore.statement_of_ne_nil hbody, hkey]
    exact RuleStore.mem_statements_rule.2 ⟨r, hr, Rule.same_refl _⟩
  refine ⟨_, (PolicyMap.mem_actualEvents hactual).2
    ⟨mem_deletions hp hr hbody, name, p, true, rfl, hlook, ?_, Bool.false_ne_true⟩, rfl⟩
  unfold Policy.contains
  rw [hp]
  exact congrArg Except.ok hcontains

/-- What is left of a policy before it goes accounts for nothing. -/
theorem weight_of_deleted {p : Policy V A} {changes : List (PolicyMap.Changed V A)}
    {w : String → Rule V → Multiset α} (hw : Accountable w) (hproper : rt.theory.Proper)
    (hlook : rt.theory.lookup name = some p)
    (ho : PolicyMap.Orderly host.toPlatform rt.theory name (deletions name p))
    (hd : Datalog host rt (deletions name p) (.permitted changes) rt') :
    ∃ d, rt'.theory.data name = some d ∧ d.weight (fun _ => w name) = 0 := by
  have hdata : rt.theory.data name = some p.data := PolicyMap.data_of_lookup hlook
  cases hd with
  | noop hactual =>
    refine ⟨p.data, hdata, ?_⟩
    cases hkind : p.data with
    | rules kind store =>
      refine RuleStore.weight_eq_zero hw fun key => List.eq_nil_iff_forall_not_mem.2 fun r hr => ?_
      obtain ⟨e, he, -⟩ := effective_of_stored hlook hkind (hproper _ _ _ (hkind ▸ hdata)) hr hactual
      exact absurd he List.not_mem_nil
    | database db => rfl
    | materialized th => rfl
  | @permitted effective graph changes ps hactual hnil hchecks hstep happlied =>
    have hdatalog := PolicyMap.isDatalog_of_errors hactual hchecks
    have hmem : ∀ e ∈ effective, e ∈ deletions name p := fun e he =>
      ((PolicyMap.mem_actualEvents hactual).1 he).1
    have heffective : PolicyMap.Orderly host.toPlatform rt.theory name effective := by
      classical
      refine ⟨fun e he => ho.target e (hmem e he), ho.stored, ?_⟩
      rw [PolicyMap.actualEvents_ok hactual]
      exact ho.distinct.filter _
    cases PolicyMap.applied_of_updateTargets hnil heffective happlied with
    | @rules kind store events' hbefore hreordered hafter =>
      refine ⟨.rules kind (store.putAll host.toPlatform events'),
        by rw [hafter, Function.update_self], RuleStore.weight_eq_zero hw fun key => ?_⟩
      have hkind : p.data = .rules kind store := Option.some.inj (hdata.symm.trans hbefore)
      refine rulesOf_of_deleted (hproper _ _ _ hbefore) (fun key r hr => ?_) hdatalog (fun e he => ?_)
        hreordered
      · exact effective_of_stored hlook hkind (hproper _ _ _ hbefore) hr hactual
      · obtain ⟨c, -, rfl⟩ := List.mem_map.1 (hmem e he)
        rfl
    | database hbefore hafter => exact ⟨_, by rw [hafter, Function.update_self], rfl⟩

theorem deletePolicy_eq (hrun : (Runtime.deletePolicy host name).run rt = (.ok (), rt')) :
    ∃ p changes rt₁, rt.theory.lookup name = some p
      ∧ (update host (deletions name p) none false).run rt = (.ok (.permitted changes), rt₁)
      ∧ rt' = { rt₁ with
          disabledEvents := rt₁.disabledEvents.filter (·.target ≠ some name)
          theory := rt₁.theory.erase name } := by
  unfold Runtime.deletePolicy at hrun
  rw [run_get_bind] at hrun
  cases hlook : rt.theory.lookup name with
  | none =>
    rw [hlook] at hrun
    cases hrun
  | some p =>
    rw [hlook] at hrun
    obtain ⟨result, rt₁, hupdate, hrun⟩ := run_bind_ok.1 hrun
    cases result with
    | rejected => cases hrun
    | permitted changes =>
      cases hrun
      exact ⟨p, changes, rt₁, rfl, hupdate, rfl⟩

/-- The events by which a policy is deleted come to it as they are. -/
theorem orderly_deletions {p : Policy V A} (hlook : rt.theory.lookup name = some p)
    (ho : Orderly host rt (.deletePolicy name)) :
    PolicyMap.Orderly host.toPlatform rt.theory name
      (rt.theory.effective host.toPlatform (rt.enabled host (deletions name p) none false)) := by
  obtain ⟨henabled, horderly⟩ := ho p hlook
  rw [henabled]
  exact ⟨fun e he => horderly.target e (effective_sublist.subset he), horderly.stored,
    horderly.distinct.sublist effective_sublist⟩

theorem Accounts.deletePolicy (h : rt.Accounts)
    (hrun : (Runtime.deletePolicy host name).run rt = (.ok (), rt'))
    (ho : Orderly host rt (.deletePolicy name)) : rt'.Accounts := by
  obtain ⟨p, changes, rt₁, hlook, hupdate, rfl⟩ := deletePolicy_eq hrun
  have h₁ : rt₁.Accounts := h.update hupdate ⟨name, orderly_deletions hlook ho⟩
  obtain ⟨henabled, horderly⟩ := ho p hlook
  cases update_ok hupdate with
  | @permitted resolved limbo changes after htargets hlimbo hconsistent hdatalog =>
    rw [← enabled_of_limbo htargets hlimbo, henabled] at hdatalog
    have hweight : ∀ {β : Type} [DecidableEq β] {w : String → Rule V → Multiset β}, Accountable w →
        PolicyMap.weight (fun name _ => w name) (after.theory.erase name)
          = after.theory.weight fun name _ => w name := by
      intro β _ w hw
      obtain ⟨d, hd, hzero⟩ := weight_of_deleted hw h.proper hlook horderly hdatalog
      have herase := PolicyMap.weight_erase (w := fun name _ => w name) hd PolicyMap.data_erase
      rwa [hzero, add_zero] at herase
    refine h₁.congr rfl (hweight accountable_nodesOf) (hweight accountable_edgesOf)
      fun other kind store hd => ?_
    have hd : PolicyMap.data (after.theory.erase name) other = some (.rules kind store) := hd
    rw [PolicyMap.data_erase] at hd
    by_cases hother : other = name
    · subst hother
      rw [Function.update_self] at hd
      cases hd
    · rw [Function.update_of_ne hother] at hd
      exact h₁.proper _ _ _ hd

/-! ## Schemas and initial facts -/

theorem target_of_enabled {ps : PolicyMap V A} {persistent : Bool} :
    ∀ {events : List (AnnotatedEvent V A)} {limbo : Limbo V A},
      ps.processLimboEvents pf persistent events = .ok limbo →
        ∀ e ∈ limbo.enabled, ∃ e' ∈ events, e.target = e'.target
  | [], limbo, h => by
    cases h
    simp
  | e :: events, limbo, h => by
    have htail : ∀ {limbo : Limbo V A}, ps.processLimboEvents pf persistent events = .ok limbo →
        ∀ e₁ ∈ limbo.enabled, ∃ e' ∈ e :: events, e₁.target = e'.target := by
      intro limbo hrest e₁ he₁
      obtain ⟨e', he', htarget⟩ := target_of_enabled hrest e₁ he₁
      exact ⟨e', List.mem_cons_of_mem _ he', htarget⟩
    unfold PolicyMap.processLimboEvents at h
    split at h
    · obtain ⟨rest, hrest, h⟩ := bind_ok.1 h
      cases h
      exact List.forall_mem_cons.2 ⟨⟨e, List.mem_cons_self, rfl⟩, htail hrest⟩
    · split_ifs at h
      obtain ⟨rest, hrest, h⟩ := bind_ok.1 h
      have ih := htail hrest
      cases h
      exact ih
    · obtain ⟨rest, hrest, h⟩ := bind_ok.1 h
      have ih := htail hrest
      cases h
      exact ih

/-- None of the events is for a policy that keeps materialized views. -/
def Storable (ps : PolicyMap V A) (events : List (AnnotatedEvent V A)) : Prop :=
  ∀ e ∈ events, ∀ name, e.target = some name → ∀ th, ps.data name ≠ some (.materialized th)

/-- An event alone is orderly. -/
theorem orderly_one {e : AnnotatedEvent V A} {result : UpdateResult V A}
    (h : Datalog host rt [e] result rt') (hs : Storable rt.theory [e]) :
    ∃ name, PolicyMap.Orderly host.toPlatform rt.theory name
      (rt.theory.effective host.toPlatform [e]) := by
  classical
  obtain ⟨effective, hactual⟩ : ∃ effective,
      rt.theory.actualEvents host.toPlatform [e] = .ok effective := by
    cases h with
    | noop hactual => exact ⟨_, hactual⟩
    | errors hactual => exact ⟨_, hactual⟩
    | recursive hactual => exact ⟨_, hactual⟩
    | permitted hactual => exact ⟨_, hactual⟩
  obtain ⟨name, p, b, hname, -⟩ := PolicyMap.contained_of_actualEvents hactual e List.mem_cons_self
  rw [PolicyMap.effective, hactual]
  refine ⟨name, fun e' he' => ?_, hs e List.mem_cons_self name hname, ?_⟩
  · obtain rfl := List.mem_singleton.1 ((PolicyMap.mem_actualEvents hactual).1 he').1
    exact hname
  · show effective.Pairwise _
    rw [PolicyMap.actualEvents_ok hactual]
    exact (List.pairwise_singleton ..).filter _

/-- What was no materialized view does not become one. -/
theorem Datalog.materialized {result : UpdateResult V A} {other : String}
    {th : MaterializedViewTheory V} (h : Datalog host rt events result rt')
    (ho : ∃ name, PolicyMap.Orderly host.toPlatform rt.theory name
      (rt.theory.effective host.toPlatform events))
    (hd : rt'.theory.data other = some (.materialized th)) :
    rt.theory.data other = some (.materialized th) := by
  obtain ⟨name, ho⟩ := ho
  cases h with
  | noop => exact hd
  | errors => exact hd
  | recursive => exact hd
  | permitted hactual hnil hchecks hstep happlied =>
    rw [PolicyMap.effective, hactual] at ho
    exact (PolicyMap.applied_of_updateTargets hnil ho happlied).materialized hd

theorem Accounts.applyEnabled : ∀ {events : List (AnnotatedEvent V A)} {rt rt' : Runtime V A},
    (Runtime.applyEnabled host events).run rt = (.ok (), rt') → rt.Accounts →
      Storable rt.theory events → rt'.Accounts
  | [], rt, rt', hrun, h, _ => by
    cases hrun
    exact h
  | e :: events, rt, rt', hrun, h, hs => by
    obtain ⟨he, hevents⟩ := List.forall_mem_cons.1 hs
    unfold Runtime.applyEnabled at hrun
    obtain ⟨result, rt₁, hupdate, hrun⟩ := run_bind_ok.1 hrun
    have hdatalog := updateObjDatalog_ok hupdate
    have ho := orderly_one hdatalog (List.forall_mem_singleton.2 he)
    have h₁ := h.datalog hdatalog ho
    have hs₁ : Storable rt₁.theory events := fun e' he' name hname th hd =>
      hevents e' he' name hname th (hdatalog.materialized ho hd)
    cases result with
    | permitted changes => exact Accounts.applyEnabled hrun h₁ hs₁
    | rejected errors =>
      rw [run_modify_bind] at hrun
      exact Accounts.applyEnabled hrun (h₁.of_sameData rfl rfl) hs₁

theorem setSchema_eq {columns : AList fun _ : String => List String} {complete : Bool}
    (hrun : (Runtime.setSchema host name columns complete).run rt = (.ok (), rt')) :
    ∃ ps limbo, rt.theory.SameData ps
      ∧ ps.processLimboEvents host.toPlatform false rt.disabledEvents = .ok limbo
      ∧ (applyEnabled host limbo.enabled).run { rt with
          theory := ps
          disabledEvents := limbo.disabled
          errorEvents := rt.errorEvents ++ limbo.errors } = (.ok (), rt') := by
  unfold Runtime.setSchema at hrun
  rw [run_get_bind] at hrun
  cases hlook : rt.theory.lookup name with
  | none =>
    rw [hlook] at hrun
    cases hrun
  | some p =>
    rw [hlook] at hrun
    dsimp only at hrun
    split_ifs at hrun with hschema
    · cases hrun
    · rw [run_modify_bind, run_get_bind, run_get_bind, run_lift_bind_ok] at hrun
      obtain ⟨limbo, hlimbo, hrun⟩ := hrun
      rw [run_modify_bind] at hrun
      exact ⟨_, limbo, PolicyMap.sameData_insert hlook, hlimbo, hrun⟩

theorem Accounts.setSchema {columns : AList fun _ : String => List String} {complete : Bool}
    (h : rt.Accounts) (hrun : (Runtime.setSchema host name columns complete).run rt = (.ok (), rt'))
    (ho : Orderly host rt (.setSchema name columns complete)) : rt'.Accounts := by
  obtain ⟨ps, limbo, hsame, hlimbo, hrun⟩ := setSchema_eq hrun
  refine Accounts.applyEnabled hrun (h.of_sameData rfl hsame) fun e he other hother th hd => ?_
  obtain ⟨e', he', htarget⟩ := target_of_enabled hlimbo e he
  refine ho e' he' other (htarget ▸ hother) th ?_
  rw [← hsame]
  exact hd

/-- A rule set is replaced by one that accounts for the same. -/
theorem Accounts.insert_rules {kind : RuleKind} {store store' : RuleStore V A} {schema : Option Schema}
    (h : rt.Accounts) (hd : rt.theory.data name = some (.rules kind store))
    (hn : store'.weight (fun _ => nodesOf name) = store.weight fun _ => nodesOf name)
    (he : store'.weight (fun _ => edgesOf name) = store.weight fun _ => edgesOf name)
    (hproper : store'.Proper) :
    ({ rt with theory := rt.theory.insert name ⟨.rules kind store', schema⟩ } : Runtime V A).Accounts := by
  have hdata : PolicyMap.data (rt.theory.insert name ⟨.rules kind store', schema⟩)
      = Function.update rt.theory.data name (some (.rules kind store')) := by
    funext other
    rw [PolicyMap.data_insert, Function.update_apply]
  have hnodes := PolicyMap.weight_update (w := fun name _ => nodesOf name) hd hdata
  have hedges := PolicyMap.weight_update (w := fun name _ => edgesOf name) hd hdata
  simp only [PolicyData.weight] at hnodes hedges
  rw [hn] at hnodes
  rw [he] at hedges
  refine h.congr rfl (add_right_cancel hnodes) (add_right_cancel hedges) fun other kind' store₁ hd₁ => ?_
  have hd₁ : PolicyMap.data (rt.theory.insert name ⟨.rules kind store', schema⟩) other
      = some (.rules kind' store₁) := hd₁
  rw [hdata] at hd₁
  by_cases hother : other = name
  · subst hother
    rw [Function.update_self] at hd₁
    cases hd₁
    exact hproper
  · rw [Function.update_of_ne hother] at hd₁
    exact h.proper _ _ _ hd₁

theorem initializeTables_eq {tablenames : List String} {facts : List (String × List V)}
    {target : Option String}
    (hrun : (Runtime.initializeTables host tablenames facts target).run rt = (.ok (), rt')) :
    ∃ name kind store schema, rt.getTargetName target = .ok name
      ∧ rt.theory.lookup name = some ⟨.rules kind store, schema⟩
      ∧ rt' = { rt with
          theory := AList.insert name
            ⟨.rules kind (initializeFacts (tablenames.foldl .clearTable store) schema tablenames facts).1,
              (initializeFacts (tablenames.foldl .clearTable store) schema tablenames facts).2⟩
            rt.theory } := by
  unfold Runtime.initializeTables at hrun
  rw [run_get_bind] at hrun
  cases hname : rt.getTargetName target with
  | error err =>
    rw [hname] at hrun
    cases hrun
  | ok name =>
    rw [hname] at hrun
    obtain ⟨⟨⟩, rt₁, hraise, hrun⟩ := run_bind_ok.1 hrun
    obtain rfl := raise_ok hraise
    split at hrun
    · rename_i kind store schema hlook
      rw [run_modify_bind, run_get_bind] at hrun
      exact ⟨name, kind, store, schema, rfl, hlook, raise_ok hrun⟩
    · cases hrun

theorem Accounts.initializeTables {tablenames : List String} {facts : List (String × List V)}
    {target : Option String} (h : rt.Accounts)
    (hrun : (Runtime.initializeTables host tablenames facts target).run rt = (.ok (), rt'))
    (ho : Orderly host rt (.initializeTables tablenames facts target)) : rt'.Accounts := by
  obtain ⟨name, kind, store, schema, hname, hlook, rfl⟩ := initializeTables_eq hrun
  have hd : rt.theory.data name = some (.rules kind store) := PolicyMap.data_of_lookup hlook
  have hempty := ho name kind store hname hd
  have hweight : ∀ {β : Type} [DecidableEq β] {w : String → Rule V → Multiset β}, Accountable w →
      (initializeFacts (tablenames.foldl .clearTable store) schema tablenames facts).1.weight
        (fun _ => w name) = store.weight fun _ => w name :=
    fun hw => (weight_initializeFacts hw).trans (RuleStore.weight_clearTables hw hempty)
  refine h.insert_rules hd (hweight accountable_nodesOf) (hweight accountable_edgesOf) fun key r hr => ?_
  rw [initializeFacts_rulesOf, RuleStore.rulesOf_clearTables hempty] at hr
  exact h.proper _ _ _ hd key r hr

/-! ## Runs -/

/-- At most one event becomes of one. -/
theorem enabled_one {ps : PolicyMap V A} {persistent : Bool} {e : AnnotatedEvent V A} {limbo : Limbo V A}
    (h : ps.processLimboEvents pf persistent [e] = .ok limbo) :
    limbo.enabled = [] ∨ ∃ e', limbo.enabled = [e'] ∧ e'.target = e.target := by
  unfold PolicyMap.processLimboEvents at h
  split at h
  · cases h
    exact .inr ⟨_, rfl, rfl⟩
  · split_ifs at h
    cases h
    exact .inl rfl
  · cases h
    exact .inl rfl

/-- A batch of one event is orderly, unless it is for materialized views. -/
theorem orderly_update {e : AnnotatedEvent V A} {persistent : Bool} (he : e.target = some name)
    (hs : ∀ th, rt.theory.data name ≠ some (.materialized th)) :
    Orderly host rt (.update ⟨[e], none, persistent⟩) := by
  refine ⟨name, ?_⟩
  have hresolved : ∃ e', (rt.resolveTargets none [e]).1 = [e'] ∧ e'.target = some name := by
    unfold resolveTargets
    rw [he]
    dsimp only [Option.some_or]
    cases hname : rt.getTargetName (some name) with
    | error err => exact ⟨e, rfl, he⟩
    | ok name' =>
      unfold getTargetName at hname
      dsimp only at hname
      split_ifs at hname
      cases hname
      exact ⟨_, rfl, rfl⟩
  obtain ⟨e', hresolved, he'⟩ := hresolved
  have henabled : rt.enabled host [e] none persistent = []
      ∨ ∃ e', rt.enabled host [e] none persistent = [e'] ∧ e'.target = some name := by
    unfold enabled
    rw [hresolved]
    cases hlimbo : rt.theory.processLimboEvents host.toPlatform persistent [e'] with
    | error f => exact .inl rfl
    | ok limbo =>
      rcases enabled_one hlimbo with hnil | ⟨e'', hone, htarget⟩
      · exact .inl hnil
      · exact .inr ⟨e'', hone, htarget.trans he'⟩
  show PolicyMap.Orderly _ _ _ (rt.theory.effective _ (rt.enabled host [e] none persistent))
  rcases henabled with hnil | ⟨e', hone, htarget⟩
  · rw [hnil]
    exact ⟨fun x hx => absurd (effective_sublist.subset hx) List.not_mem_nil, hs,
      List.Pairwise.nil.sublist effective_sublist⟩
  · rw [hone]
    refine ⟨fun x hx => ?_, hs, (List.pairwise_singleton ..).sublist effective_sublist⟩
    rw [List.mem_singleton.1 (effective_sublist.subset hx), htarget]

/-- A call that returns and whose events are orderly keeps the graph up to date. -/
theorem Accounts.call {c : Call V A} (h : rt.Accounts) (hc : Accepted host rt c) :
    (call host rt c).Accounts := by
  obtain ⟨hreturns, ho⟩ := hc
  obtain ⟨rt', hrun⟩ : ∃ rt', (perform host c).run rt = (.ok (), rt') :=
    ⟨((perform host c).run rt).2, Prod.ext hreturns rfl⟩
  unfold Runtime.call
  rw [hrun]
  cases c with
  | update b =>
    obtain ⟨result, rt₁, hupdate, hpure⟩ := run_bind_ok.1 hrun
    cases hpure
    exact h.update hupdate ho
  | createPolicy name kind => exact h.createPolicy hrun
  | deletePolicy name => exact h.deletePolicy hrun ho
  | setSchema name columns complete => exact h.setSchema hrun ho
  | initializeTables tablenames facts target => exact h.initializeTables hrun ho

theorem accounts_init : (init : Runtime V A).Accounts where
  headToBody := rfl
  holds := BagGraph.holds_empty
  nonrecursive := by
    rintro ⟨a, h⟩
    obtain ⟨b, ⟨name, r, ⟨kind, store, key, info, hd, -⟩, -⟩, -⟩ := TransGen.head'_iff.1 h
    cases hd
  proper := nofun

/-- A policy is created, gets a rule, and is deleted. -/
def shortLife : List (Call ℕ Unit) :=
  [.createPolicy "a" .nonrecursive, .update ⟨[DseRuntime.insertRule], none, false⟩, .deletePolicy "a"]

end Runtime

end Congress
