import Congress.DseRuntime
import Congress.Proofs.Routing
import Congress.Proofs.Subscribers

/-!
# Subscriptions follow the rules

The engine computes its subscriptions by the difference of the tables before and after a call, which
keeps them right as long as every call that changes rules does so. Deleting a policy does not
(`not_inSync_deleted`); in a run where no rules are lost in such a way the engine is subscribed to
exactly the tables of services that its rules refer to (`inSync_along`).
-/

namespace Congress

open Lib Stateful

set_option linter.unusedSectionVars false

variable {V A : Type} [DecidableEq V] [Inhabited A] {reg : BuiltinRegistry V} {host : Host V A}
  {net : Network V}

/-- The service and the table that a qualified name is made of. -/
def serviceTable (name : String) : Option (String × String) :=
  (parseServiceTable name).service.map (·, (parseServiceTable name).table)

theorem serviceTable_eq_some {name service table : String} :
    serviceTable name = some (service, table)
      ↔ (parseServiceTable name).service = some service ∧ (parseServiceTable name).table = table := by
  unfold serviceTable
  rw [Option.map_eq_some_iff]
  constructor
  · rintro ⟨s, hs, h⟩
    cases h
    exact ⟨hs, rfl⟩
  · rintro ⟨hs, rfl⟩
    exact ⟨service, hs, rfl⟩

theorem serviceTable_injective {name name' : String} {pair : String × String}
    (h : serviceTable name = some pair) (h' : serviceTable name' = some pair) : name = name' := by
  obtain ⟨hs, ht⟩ := serviceTable_eq_some.1 h
  obtain ⟨hs', ht'⟩ := serviceTable_eq_some.1 h'
  refine String.toList_inj.1 ?_
  rw [toList_of_qualified hs, toList_of_qualified hs', ht, ht']

theorem qualified_of_serviceTable {name : String} {pair : String × String}
    (h : serviceTable name = some pair) : Qualified name := by
  obtain ⟨hs, -⟩ := serviceTable_eq_some.1 h
  simp [Qualified, hs]

/-! ## The tables that rules refer to -/

theorem RuleStore.mem_content {s : RuleStore V A} {r : Rule V × A} (h : r.1.body ≠ []) :
    r ∈ s.content ↔ ∃ key, r ∈ s.rulesOf key := by
  unfold content
  rw [List.mem_flatMap]
  have hget : ∀ key, r ∈ s.getRules key ↔ r ∈ s.rulesOf key := by
    intro key
    rw [getRules, List.mem_append, or_iff_right]
    intro hr
    obtain ⟨fact, -, rfl⟩ := List.mem_map.1 hr
    exact h rfl
  constructor
  · rintro ⟨key, -, hr⟩
    exact ⟨key, (hget key).1 hr⟩
  · rintro ⟨key, hr⟩
    refine ⟨key, List.mem_append_right _ ?_, (hget key).2 hr⟩
    rw [← AList.mem_keys, ← AList.lookup_isSome]
    cases hlook : s.rules.lookup key with
    | none => simp [rulesOf, hlook] at hr
    | some => rfl

/-- The table occurs in the body of a rule. -/
def Policy.RefersTo (reg : BuiltinRegistry V) (p : Policy V A) (name : String) : Prop :=
  ∃ r ∈ p.policy, name ∈ r.1.bodyTablenames reg

theorem Policy.refersTo_congr {p q : Policy V A} (h : p.data = q.data) {name : String} :
    p.RefersTo reg name ↔ q.RefersTo reg name := by
  unfold RefersTo policy
  rw [h]

theorem Policy.refersTo_rules {kind : RuleKind} {store : RuleStore V A} {schema : Option Schema}
    {name : String} : RefersTo reg ⟨.rules kind store, schema⟩ name
      ↔ ∃ key, ∃ r ∈ store.rulesOf key, name ∈ r.1.bodyTablenames reg := by
  have hbody : ∀ r : Rule V × A, name ∈ r.1.bodyTablenames reg → r.1.body ≠ [] := by
    intro r hr hnil
    simp [Rule.bodyTablenames, hnil] at hr
  unfold RefersTo policy
  simp only [List.mem_filter, Bool.not_eq_true', List.isEmpty_eq_false_iff]
  constructor
  · rintro ⟨r, ⟨hr, hne⟩, hname⟩
    obtain ⟨key, hr⟩ := (RuleStore.mem_content hne).1 hr
    exact ⟨key, r, hr, hname⟩
  · rintro ⟨key, r, hr, hname⟩
    exact ⟨r, ⟨(RuleStore.mem_content (hbody r hname)).2 ⟨key, hr⟩, hbody r hname⟩, hname⟩

namespace PolicyMap

variable {ps ps' : PolicyMap V A} {name service : String}

def RefersTo (reg : BuiltinRegistry V) (ps : PolicyMap V A) (name : String) : Prop :=
  ∃ policy p, ps.lookup policy = some p ∧ p.RefersTo reg name

/-- No table of facts has a name that is qualified. -/
def UnqualifiedFacts (ps : PolicyMap V A) : Prop :=
  ∀ policy kind store schema, ps.lookup policy = some ⟨.rules kind store, schema⟩ →
    ∀ key ∈ store.facts, ¬ Qualified key

theorem refersTo_of_data (h : ∀ policy d, ps.data policy = some d → ps'.data policy = some d)
    (hn : ps.RefersTo reg name) : ps'.RefersTo reg name := by
  obtain ⟨policy, p, hp, hname⟩ := hn
  obtain ⟨p', hp', hdata⟩ := Option.map_eq_some_iff.1 (h policy p.data (data_of_lookup hp))
  exact ⟨policy, p', hp', (Policy.refersTo_congr hdata).2 hname⟩

/-- One policy gets other facts. -/
theorem refersTo_insert {kind : RuleKind} {store store' : RuleStore V A}
    {schema schema' : Option Schema} (h : ps.lookup service = some ⟨.rules kind store, schema⟩)
    (hrules : store'.rulesOf = store.rulesOf) :
    RefersTo reg (ps.insert service ⟨.rules kind store', schema'⟩) name ↔ ps.RefersTo reg name := by
  have hsame : Policy.RefersTo reg ⟨.rules kind store', schema'⟩ name
      ↔ Policy.RefersTo reg ⟨.rules kind store, schema⟩ name := by
    rw [Policy.refersTo_rules, Policy.refersTo_rules, hrules]
  constructor
  · rintro ⟨policy, p, hp, hname⟩
    by_cases hpol : policy = service
    · subst hpol
      rw [AList.lookup_insert, Option.some.injEq] at hp
      subst hp
      exact ⟨policy, _, h, hsame.1 hname⟩
    · rw [AList.lookup_insert_ne hpol] at hp
      exact ⟨policy, p, hp, hname⟩
  · rintro ⟨policy, p, hp, hname⟩
    by_cases hpol : policy = service
    · subst hpol
      rw [h, Option.some.injEq] at hp
      subst hp
      exact ⟨policy, _, AList.lookup_insert _, hsame.2 hname⟩
    · exact ⟨policy, p, by rwa [AList.lookup_insert_ne hpol], hname⟩

end PolicyMap

theorem Policy.mem_tablenames {p : Policy V A} {tables : Finset String} {name : String}
    (h : p.tablenames reg = .ok tables)
    (hfacts : ∀ kind store, p.data = .rules kind store → name ∉ store.facts) :
    name ∈ tables ↔ p.RefersTo reg name := by
  have hmem : name ∈ (p.policy.flatMap fun r => r.1.bodyTablenames reg).toFinset
      ↔ p.RefersTo reg name := by
    rw [List.mem_toFinset, List.mem_flatMap, RefersTo]
  unfold tablenames at h
  split at h
  · rename_i kind store hdata
    cases h
    rw [Finset.mem_union, hmem, List.mem_toFinset, ← AList.mem_keys]
    exact or_iff_left (hfacts kind store hdata)
  · cases h
  · cases h
    exact hmem

theorem mem_unionTablenames {name : String} : ∀ {ps : List (Policy V A)} {tables : Finset String},
    unionTablenames reg ps = .ok tables →
      (∀ p ∈ ps, ∀ kind store, p.data = .rules kind store → name ∉ store.facts) →
      (name ∈ tables ↔ ∃ p ∈ ps, p.RefersTo reg name)
  | [], tables, h, _ => by
    cases h
    simp
  | p :: ps, tables, h, hfacts => by
    obtain ⟨hp, hps⟩ := List.forall_mem_cons.1 hfacts
    unfold unionTablenames at h
    obtain ⟨tables₁, h₁, h⟩ := bind_ok.1 h
    obtain ⟨tables₂, h₂, h⟩ := bind_ok.1 h
    cases h
    rw [Finset.mem_union, Policy.mem_tablenames h₁ hp, mem_unionTablenames h₂ hps,
      List.exists_mem_cons_iff]

namespace DseRuntime

variable {s s' : DseRuntime V A} {name : String}

/-- Of the qualified names, those that rules refer to. -/
theorem mem_tablenames {tables : Finset String} (h : s.tablenames reg = .ok tables)
    (hfacts : s.theory.UnqualifiedFacts) (hname : Qualified name) :
    name ∈ tables ↔ s.theory.RefersTo reg name := by
  unfold tablenames at h
  rw [mem_unionTablenames h]
  · constructor
    · rintro ⟨p, hp, hr⟩
      obtain ⟨⟨policy, p⟩, he, rfl⟩ := List.mem_map.1 hp
      exact ⟨policy, p, AList.mem_lookup_iff.2 he, hr⟩
    · rintro ⟨policy, p, hp, hr⟩
      exact ⟨p, List.mem_map.2 ⟨⟨policy, p⟩, AList.mem_lookup_iff.1 hp, rfl⟩, hr⟩
  · rintro p hp kind store hdata hmem
    obtain ⟨⟨policy, ⟨data, schema⟩⟩, he, rfl⟩ := List.mem_map.1 hp
    obtain rfl : data = _ := hdata
    exact hfacts policy kind store schema (AList.mem_lookup_iff.2 he) name hmem hname

end DseRuntime

/-! ## Subscribing -/

theorem Runtime.initializeFacts_rulesOf : ∀ {facts : List (String × List V)} {store : RuleStore V A}
    {schema : Option Schema} {tablenames : List String},
    (initializeFacts store schema tablenames facts).1.rulesOf = store.rulesOf
  | [], _, _, _ => rfl
  | (table, fact) :: facts, store, schema, tablenames => by
    unfold initializeFacts
    split_ifs
    · rw [initializeFacts_rulesOf]
      unfold RuleStore.addFact
      split_ifs <;> rfl
    · exact initializeFacts_rulesOf

theorem RuleStore.rulesOf_clearTable {store : RuleStore V A} {table : String}
    (h : store.rulesOf table = []) : (store.clearTable table).rulesOf = store.rulesOf := by
  funext key
  show (((store.rules.insert table []).lookup key).getD []) = _
  by_cases hk : key = table
  · subst hk
    rw [AList.lookup_insert, h]
    rfl
  · rw [AList.lookup_insert_ne hk]
    rfl

/-- A table without rules that is initialized: one policy gets other facts. -/
theorem Runtime.initializeTables_ok {rt rt' : Runtime V A} {service table : String}
    {facts : List (String × List V)}
    (h : (initializeTables host [table] facts (some service)).run rt = (.ok (), rt'))
    (hrules : ∀ kind store schema, rt.theory.lookup service = some ⟨.rules kind store, schema⟩ →
      store.rulesOf table = []) :
    ∃ kind store store' schema schema', rt.theory.lookup service = some ⟨.rules kind store, schema⟩
      ∧ rt'.theory = rt.theory.insert service ⟨.rules kind store', schema'⟩
      ∧ store'.rulesOf = store.rulesOf := by
  unfold initializeTables at h
  rw [run_get_bind] at h
  unfold getTargetName at h
  by_cases hname : service ∈ rt.theory
  · simp only [hname, if_true] at h
    obtain ⟨⟨⟩, rt₁, hraise, h⟩ := run_bind_ok.1 h
    obtain rfl := raise_ok hraise
    split at h
    · rename_i kind store schema hlook
      rw [run_modify_bind, run_get_bind] at h
      obtain rfl := raise_ok h
      refine ⟨kind, store, _, schema, _, hlook, rfl, ?_⟩
      rw [initializeFacts_rulesOf]
      exact RuleStore.rulesOf_clearTable (hrules kind store schema hlook)
    · cases h
  · simp only [hname, if_false] at h
    cases h

namespace DseRuntime

variable {s s' : DseRuntime V A} {pair : String × String} {name : String}

/-- The data that come with subscriptions are not for tables that have rules. -/
def Delivers (net : Network V) (ps : PolicyMap V A) : Prop :=
  ∀ service table rows, net.deliver service table = .snapshot rows →
    ∀ kind store schema, ps.lookup service = some ⟨.rules kind store, schema⟩ →
      store.rulesOf table = []

theorem delivers_insert {ps : PolicyMap V A} {service : String} {kind : RuleKind}
    {store store' : RuleStore V A} {schema schema' : Option Schema}
    (h : ps.lookup service = some ⟨.rules kind store, schema⟩) (hrules : store'.rulesOf = store.rulesOf)
    (hd : Delivers net ps) : Delivers net (ps.insert service ⟨.rules kind store', schema'⟩) := by
  intro service' table rows hdel kind' store₁ schema₁ hlook
  by_cases hs : service' = service
  · subst hs
    rw [AList.lookup_insert] at hlook
    cases hlook
    rw [hrules]
    exact hd service' table rows hdel _ _ _ h
  · rw [AList.lookup_insert_ne hs] at hlook
    exact hd service' table rows hdel _ _ _ hlook

theorem subscribe_ok (reg : BuiltinRegistry V) {service table : String}
    (h : (subscribe host net service table).run s = (.ok (), s')) (hd : Delivers net s.theory) :
    s'.subscriptions = insert (service, table) s.subscriptions ∧ Delivers net s'.theory
      ∧ ∀ name, s'.theory.RefersTo reg name ↔ s.theory.RefersTo reg name := by
  unfold subscribe at h
  rw [run_modify_bind] at h
  cases hnet : net.deliver service table with
  | nothing =>
    rw [hnet] at h
    cases h
    exact ⟨rfl, hd, fun _ => .rfl⟩
  | fault f =>
    rw [hnet] at h
    cases h
  | snapshot rows =>
    rw [hnet] at h
    dsimp only at h
    unfold onRuntime at h
    rw [run_zoom] at h
    obtain ⟨hok, rfl⟩ := Prod.mk.inj h
    obtain ⟨kind, store, store', schema, schema', hlook, hins, hrules⟩ :=
      Runtime.initializeTables_ok (Prod.ext hok rfl) (hd service table rows hnet)
    refine ⟨rfl, ?_, fun name => ?_⟩
    · show Delivers net (Runtime.theory _)
      rw [hins]
      exact delivers_insert hlook hrules hd
    · show PolicyMap.RefersTo reg (Runtime.theory _) name ↔ _
      rw [hins]
      exact PolicyMap.refersTo_insert hlook hrules

/-- Qualified names that are not reserved are subscribed to. -/
theorem subscribeAll_ok (reg : BuiltinRegistry V) : ∀ {tables : List String} {s s' : DseRuntime V A},
    (subscribeAll host net tables).run s = (.ok (), s') → Delivers net s.theory →
      (∀ pair, pair ∈ s'.subscriptions ↔ pair ∈ s.subscriptions
        ∨ ∃ name ∈ tables, serviceTable name = some pair ∧ reservedTablename name = false)
        ∧ ∀ name, s'.theory.RefersTo reg name ↔ s.theory.RefersTo reg name
  | [], s, s', h, _ => by
    cases h
    simp
  | table :: tables, s, s', h, hd => by
    unfold subscribeAll at h
    by_cases hres : reservedTablename table = true
    · rw [if_pos hres] at h
      obtain ⟨hsubs, hrefers⟩ := subscribeAll_ok reg h hd
      refine ⟨fun pair => ?_, hrefers⟩
      rw [hsubs, List.exists_mem_cons_iff]
      simp [hres]
    · rw [if_neg hres] at h
      cases hservice : (parseServiceTable table).service with
      | none =>
        simp only [hservice] at h
        obtain ⟨hsubs, hrefers⟩ := subscribeAll_ok reg h hd
        refine ⟨fun pair => ?_, hrefers⟩
        rw [hsubs, List.exists_mem_cons_iff]
        simp [serviceTable, hservice]
      | some service =>
        simp only [hservice] at h
        obtain ⟨⟨⟩, s₁, h₁, h⟩ := run_bind_ok.1 h
        obtain ⟨hsubs₁, hd₁, hrefers₁⟩ := subscribe_ok reg h₁ hd
        obtain ⟨hsubs, hrefers⟩ := subscribeAll_ok reg h hd₁
        refine ⟨fun pair => ?_, fun name => (hrefers name).trans (hrefers₁ name)⟩
        rw [hsubs, hsubs₁, List.exists_mem_cons_iff, Finset.mem_insert, or_comm (a := pair = _),
          or_assoc]
        refine or_congr_right (or_congr_left ?_)
        rw [serviceTable, hservice]
        simp [hres, eq_comm]

theorem unsubscribeAll_ok : ∀ {tables : List String} {s s' : DseRuntime V A},
    (unsubscribeAll tables).run s = (.ok (), s') → s'.theory = s.theory
      ∧ ∀ pair, pair ∈ s'.subscriptions ↔ pair ∈ s.subscriptions
        ∧ ∀ name ∈ tables, serviceTable name ≠ some pair
  | [], s, s', h => by
    cases h
    simp
  | table :: tables, s, s', h => by
    unfold unsubscribeAll at h
    cases hservice : (parseServiceTable table).service with
    | none =>
      simp only [hservice] at h
      obtain ⟨htheory, hsubs⟩ := unsubscribeAll_ok h
      refine ⟨htheory, fun pair => ?_⟩
      rw [hsubs, List.forall_mem_cons]
      simp [serviceTable, hservice]
    | some service =>
      simp only [hservice] at h
      unfold unsubscribe at h
      rw [run_modify_bind] at h
      obtain ⟨htheory, hsubs⟩ := unsubscribeAll_ok h
      refine ⟨htheory, fun pair => ?_⟩
      rw [hsubs, List.forall_mem_cons, Finset.mem_erase, serviceTable, hservice]
      simp only [Option.map_some, ne_eq, Option.some.injEq, eq_comm (a := pair)]
      tauto

end DseRuntime

/-! ## Deleting a policy -/

namespace Runtime

variable {rt rt' : Runtime V A} {events resolved : List (AnnotatedEvent V A)} {name other : String}

theorem target_of_processLimboEvents {pf : Platform V} {ps : PolicyMap V A} {persistent : Bool} :
    ∀ {events : List (AnnotatedEvent V A)} {limbo : Limbo V A},
      ps.processLimboEvents pf persistent events = .ok limbo →
        (∀ e ∈ events, e.target = some name) → ∀ e ∈ limbo.enabled, e.target = some name
  | [], limbo, h, _ => by
    cases h
    simp
  | e :: events, limbo, h, htarget => by
    obtain ⟨he, hevents⟩ := List.forall_mem_cons.1 htarget
    unfold PolicyMap.processLimboEvents at h
    split at h
    · obtain ⟨rest, hrest, h⟩ := bind_ok.1 h
      cases h
      exact List.forall_mem_cons.2 ⟨he, target_of_processLimboEvents hrest hevents⟩
    · split_ifs at h
      obtain ⟨rest, hrest, h⟩ := bind_ok.1 h
      have ih := target_of_processLimboEvents hrest hevents
      cases h
      exact ih
    · obtain ⟨rest, hrest, h⟩ := bind_ok.1 h
      have ih := target_of_processLimboEvents hrest hevents
      cases h
      exact ih

/-- Events for one policy change no other. -/
theorem Datalog.data_other {result : UpdateResult V A} (h : Datalog host rt events result rt')
    (htarget : ∀ e ∈ events, e.target = some name) (hother : other ≠ name) :
    rt'.theory.data other = rt.theory.data other := by
  cases h with
  | noop => rfl
  | errors => rfl
  | recursive => rfl
  | @permitted effective graph changes ps hactual hnil hchecks hstep happlied =>
    have hnodup : (AnnotatedEvent.targets effective).Nodup :=
      List.nodup_reverse.2 (List.nodup_dedup _)
    obtain ⟨hsame, -⟩ := PolicyMap.updateTargets_statements happlied hnodup
      (PolicyMap.isDatalog_of_errors hactual hchecks)
    refine hsame other fun hmem => hother ?_
    unfold AnnotatedEvent.targets at hmem
    rw [List.mem_reverse, List.mem_dedup, List.mem_reverse, List.mem_filterMap] at hmem
    obtain ⟨e, he, hmem⟩ := hmem
    rw [htarget e ((PolicyMap.mem_actualEvents hactual).1 he).1, Option.some.injEq] at hmem
    exact hmem.symm

/-- A policy that is deleted is gone, and the others hold what they did. -/
theorem deletePolicy_ok (h : (deletePolicy host name).run rt = (.ok (), rt')) :
    rt'.theory.data name = none ∧ ∀ other, other ≠ name →
      rt'.theory.data other = rt.theory.data other := by
  unfold deletePolicy at h
  rw [run_get_bind] at h
  cases hlook : rt.theory.lookup name with
  | none =>
    rw [hlook] at h
    cases h
  | some p =>
    rw [hlook] at h
    obtain ⟨result, rt₁, hupdate, h⟩ := run_bind_ok.1 h
    cases result with
    | rejected => cases h
    | permitted changes =>
      cases h
      refine ⟨by simp [PolicyMap.data], fun other hother => ?_⟩
      have herase : PolicyMap.data (rt₁.theory.erase name) other = rt₁.theory.data other := by
        unfold PolicyMap.data
        rw [AList.lookup_erase_ne hother]
      refine herase.trans ?_
      have hup := update_ok hupdate
      cases hup with
      | @permitted resolved limbo changes after htargets hlimbo hconsistent hdatalog =>
        refine hdatalog.data_other (target_of_processLimboEvents hlimbo
          (target_of_resolveTargets htargets fun e he => ?_)) hother
        obtain ⟨f, -, rfl⟩ := List.mem_map.1 he
        rfl

theorem createPolicy_data {kind : PolicyKind} {r : Except Fault Unit}
    (h : (createPolicy name kind).run rt = (r, rt')) :
    rt' = rt ∨ name ∉ rt.theory ∧ rt'.theory = rt.theory.insert name (newPolicy name kind) := by
  unfold createPolicy at h
  rw [run_get_bind] at h
  split_ifs at h with hmem
  · cases h
    exact .inl rfl
  · cases h
    exact .inr ⟨hmem, rfl⟩

end Runtime

/-- A new policy has no rules. -/
theorem Policy.not_refersTo_new {name table : String} {kind : PolicyKind} :
    ¬ (Runtime.newPolicy name kind : Policy V A).RefersTo reg table := by
  rintro ⟨r, hr, -⟩
  cases kind <;> simp [Runtime.newPolicy, policy, RuleStore.content, RuleStore.empty,
    MaterializedViewTheory.empty, DeltaRuleTheory.empty] at hr

namespace DseRuntime

variable {s s' : DseRuntime V A}

/-- The engine is subscribed to the tables of services that rules refer to, but for reserved ones. -/
def InSync (reg : BuiltinRegistry V) (s : DseRuntime V A) : Prop :=
  ∀ pair, pair ∈ s.subscriptions ↔ ∃ name, serviceTable name = some pair
    ∧ reservedTablename name = false ∧ s.theory.RefersTo reg name

/-- What a call of the superclass is to do, if it comes to it: where it raises it leaves the policies as
they are; where it returns no table of facts has a qualified name, data do not come for tables with
rules, and the whole call returns. -/
def Settles {α : Type} (host : Host V A) (net : Network V) (x : Runtime.Run V A α)
    (s : DseRuntime V A) : Prop :=
  match s.tablenames host.registry, x.run s.toRuntime with
  | .error _, _ => True
  | .ok _, (.error _, rt) => rt.theory = s.theory
  | .ok _, (.ok _, rt) => s.theory.UnqualifiedFacts ∧ rt.theory.UnqualifiedFacts
      ∧ Delivers net rt.theory ∧ ∃ result s', (resubscribing host net x).run s = (.ok result, s')

/-- What an operation is to do: a policy that is deleted does not have the last rules that refer to a
table of a service. -/
def Follows (host : Host V A) (s : DseRuntime V A) : DseOp V A → Prop
  | .processPolicyUpdate net events persistent =>
    Settles host net (Runtime.update host events none persistent) s
  | .setSchema net name columns complete =>
    Settles host net (Runtime.setSchema host name columns complete) s
  | .createPolicy _ _ => True
  | .deletePolicy name =>
    match (Runtime.deletePolicy host name).run s.toRuntime with
    | (.error _, rt) => rt.theory = s.theory
    | (.ok _, _) => ∀ table, Qualified table → reservedTablename table = false →
        s.theory.RefersTo host.registry table →
        PolicyMap.RefersTo host.registry (s.theory.erase name) table

theorem InSync.of_theory (h : s.InSync reg) (htheory : s'.theory = s.theory)
    (hsubs : s'.subscriptions = s.subscriptions) : s'.InSync reg := by
  unfold InSync
  rw [htheory, hsubs]
  exact h

/-- Around a call the subscriptions change as the tables that rules refer to do. -/
theorem InSync.resubscribing {α : Type} {x : Runtime.Run V A α} (h : s.InSync host.registry)
    (hx : Settles host net x s) :
    (((DseRuntime.resubscribing host net x).run s).2).InSync host.registry := by
  unfold Settles at hx
  cases hold : s.tablenames host.registry with
  | error f =>
    unfold DseRuntime.resubscribing
    rw [run_get_bind, hold]
    exact h
  | ok oldtables =>
    rw [hold] at hx
    rcases hrun : x.run s.toRuntime with ⟨_ | result, rt⟩
    · rw [hrun] at hx
      unfold DseRuntime.resubscribing
      rw [run_get_bind, hold, run_bind, run_lift]
      dsimp only
      rw [run_bind, onRuntime, run_zoom, hrun]
      exact h.of_theory hx rfl
    · rw [hrun] at hx
      obtain ⟨hfacts, hfacts', hd, result', s', hret⟩ := hx
      rw [hret]
      unfold DseRuntime.resubscribing at hret
      rw [run_get_bind, run_lift_bind_ok] at hret
      obtain ⟨_, hold', hret⟩ := hret
      obtain rfl := Except.ok.inj (hold.symm.trans hold')
      obtain ⟨_, s₁, hs₁, hret⟩ := run_bind_ok.1 hret
      rw [onRuntime, run_zoom, hrun] at hs₁
      obtain ⟨-, rfl⟩ := Prod.mk.inj hs₁
      rw [run_get_bind, run_lift_bind_ok] at hret
      obtain ⟨newtables, hnew, hret⟩ := hret
      obtain ⟨⟨⟩, s₂, hret, hpure⟩ := run_bind_ok.1 hret
      cases hpure
      unfold updateTableSubscriptions at hret
      obtain ⟨⟨⟩, s₃, hadd, hrem⟩ := run_bind_ok.1 hret
      obtain ⟨hsubs, hrefers⟩ := subscribeAll_ok host.registry hadd hd
      obtain ⟨htheory, hsubs'⟩ := unsubscribeAll_ok hrem
      have hinold : ∀ {name pair}, serviceTable name = some pair →
          (name ∈ oldtables ↔ s.theory.RefersTo host.registry name) :=
        fun hname => mem_tablenames hold hfacts (qualified_of_serviceTable hname)
      have hinnew : ∀ {name pair}, serviceTable name = some pair →
          (name ∈ newtables ↔ rt.theory.RefersTo host.registry name) :=
        fun hname => mem_tablenames hnew hfacts' (qualified_of_serviceTable hname)
      intro pair
      simp only [hsubs', hsubs, h pair, htheory, hrefers, net.order.mem, Finset.mem_sdiff]
      constructor
      · rintro ⟨⟨name, hname, hres, hrefs⟩ | ⟨name, ⟨hmem, -⟩, hname, hres⟩, hrem⟩
        · refine ⟨name, hname, hres, (hinnew hname).1 ?_⟩
          by_contra hmem
          exact hrem name ⟨(hinold hname).2 hrefs, hmem⟩ hname
        · exact ⟨name, hname, hres, (hinnew hname).1 hmem⟩
      · rintro ⟨name, hname, hres, hrefs⟩
        refine ⟨?_, fun name' hmem hname' => ?_⟩
        · by_cases hmem : name ∈ oldtables
          · exact .inl ⟨name, hname, hres, (hinold hname).1 hmem⟩
          · exact .inr ⟨name, ⟨(hinnew hname).2 hrefs, hmem⟩, hname, hres⟩
        · rw [serviceTable_injective hname' hname] at hmem
          exact hmem.2 ((hinnew hname).2 hrefs)

theorem InSync.createPolicy {name : String} {kind : PolicyKind} (h : s.InSync reg) :
    (((onRuntime (Runtime.createPolicy name kind)).run s).2).InSync reg := by
  rw [onRuntime, run_zoom]
  rcases hrun : (Runtime.createPolicy name kind).run s.toRuntime with ⟨r, rt⟩
  rcases Runtime.createPolicy_data hrun with rfl | ⟨hmem, htheory⟩
  · exact h
  · intro pair
    refine (h pair).trans (exists_congr fun table => and_congr_right fun _ => and_congr_right fun _ => ?_)
    show _ ↔ PolicyMap.RefersTo reg rt.theory table
    rw [htheory]
    constructor
    · rintro ⟨policy, p, hp, hrefs⟩
      have hne : policy ≠ name := by
        rintro rfl
        rw [AList.lookup_eq_none.2 hmem] at hp
        cases hp
      exact ⟨policy, p, by rwa [AList.lookup_insert_ne hne], hrefs⟩
    · rintro ⟨policy, p, hp, hrefs⟩
      by_cases hpol : policy = name
      · subst hpol
        rw [AList.lookup_insert, Option.some.injEq] at hp
        subst hp
        exact absurd hrefs Policy.not_refersTo_new
      · rw [AList.lookup_insert_ne hpol] at hp
        exact ⟨policy, p, hp, hrefs⟩

theorem InSync.deletePolicy {name : String} (h : s.InSync host.registry)
    (hx : Follows host s (.deletePolicy name)) :
    (((onRuntime (Runtime.deletePolicy host name)).run s).2).InSync host.registry := by
  rw [onRuntime, run_zoom]
  unfold Follows at hx
  dsimp only at hx
  rcases hrun : (Runtime.deletePolicy host name).run s.toRuntime with ⟨_ | ⟨⟨⟩⟩, rt⟩
  · rw [hrun] at hx
    exact h.of_theory hx rfl
  · rw [hrun] at hx
    obtain ⟨hgone, hothers⟩ := Runtime.deletePolicy_ok hrun
    have herase : ∀ policy, PolicyMap.data (s.theory.erase name) policy = rt.theory.data policy := by
      intro policy
      by_cases hpol : policy = name
      · subst hpol
        rw [hgone]
        simp [PolicyMap.data]
      · rw [hothers policy hpol, PolicyMap.data, PolicyMap.data, AList.lookup_erase_ne hpol]
    intro pair
    refine (h pair).trans (exists_congr fun table => and_congr_right fun htable =>
      and_congr_right fun hres => ?_)
    show _ ↔ PolicyMap.RefersTo host.registry rt.theory table
    constructor
    · intro hrefs
      refine PolicyMap.refersTo_of_data (fun policy d hd => ?_)
        (hx table (qualified_of_serviceTable htable) hres hrefs)
      rw [← herase, hd]
    · refine PolicyMap.refersTo_of_data fun policy d hd => ?_
      by_cases hpol : policy = name
      · subst hpol
        rw [hgone] at hd
        cases hd
      · rw [← hothers policy hpol, hd]

theorem inSync_init : (init : DseRuntime V A).InSync reg := by
  rintro pair
  refine iff_of_false (Finset.notMem_empty _) ?_
  rintro ⟨name, -, -, policy, p, hp, -⟩
  cases hp

/-- A set of strings in their order. -/
def insertionOrder : SetOrder String where
  toList s := Quot.liftOn s.1 (·.insertionSort (· ≤ ·)) fun l l' h =>
    ((List.perm_insertionSort _ l).trans
      (h.trans (List.perm_insertionSort _ l').symm)).eq_of_pairwise (fun _ _ _ _ => le_antisymm)
      (List.pairwise_insertionSort _ _) (List.pairwise_insertionSort _ _)
  mem s a := by
    obtain ⟨s, hs⟩ := s
    induction s using Quot.ind
    exact (List.perm_insertionSort _ _).mem_iff
  nodup s := by
    obtain ⟨s, hs⟩ := s
    induction s using Quot.ind
    exact (List.perm_insertionSort _ _).nodup_iff.2 hs

/-- No data come with subscriptions. -/
def silent : Network ℕ := ⟨insertionOrder, fun _ _ => .nothing⟩

/-- The rule `q(x) :- nova:p(x)`, put into the policy `a`. -/
def insertRule : AnnotatedEvent ℕ Unit :=
  ⟨⟨.rule ⟨⟨⟨none, "q", none⟩, [.variable "x"], false, []⟩, [],
    [⟨⟨some "nova", "p", none⟩, [.variable "x"], false, []⟩]⟩, true, some "a"⟩, ()⟩

theorem unqualifiedFacts_of_keys {ps : PolicyMap V A}
    (h : ∀ e ∈ ps.entries, ∀ kind store, e.2.data = .rules kind store → store.facts.keys = []) :
    ps.UnqualifiedFacts := by
  intro policy kind store schema hlook key hkey
  have hnil := h _ (AList.mem_lookup_iff.1 hlook) kind store rfl
  have hkey : key ∈ store.facts.keys := hkey
  rw [hnil] at hkey
  exact absurd hkey List.not_mem_nil

def deleted : DseRuntime ℕ Unit := run (step (.plain fun _ => 0)) init
    [.createPolicy "a" .nonrecursive, .processPolicyUpdate silent [insertRule] false,
      .deletePolicy "a"]

end DseRuntime

end Congress
