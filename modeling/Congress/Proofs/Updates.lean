import Congress.Runtime
import Congress.Proofs.ViewUpdates

/-!
# What updates do to policies

Inversion lemmas for the calls that change policies. A change of schemas leaves alone what policies
hold (`updateRuleSchema_keeps`). An event that reaches a rule set is put into it, and is taken back
from the schemas if it was no change (`RuleStep`).
-/

namespace Congress

open Lib Stateful

set_option linter.unusedSectionVars false

variable {V A : Type} [DecidableEq V] {pf : Platform V} {name other : String} {insert : Bool}
  {ps ps' : PolicyMap V A} {e : AnnotatedEvent V A} {events : List (AnnotatedEvent V A)}

namespace PolicyMap

theorem data_of_lookup {p : Policy V A} (h : ps.lookup name = some p) : ps.data name = some p.data := by
  simp [data, h]

theorem data_insert {p : Policy V A} :
    data (ps.insert name p) other = if other = name then some p.data else ps.data other := by
  unfold data
  split_ifs with h
  · subst h
    simp
  · rw [AList.lookup_insert_ne h]

/-- The policies hold the same; their schemas may differ. -/
def SameData (ps ps' : PolicyMap V A) : Prop := ps'.data = ps.data

theorem SameData.refl (ps : PolicyMap V A) : ps.SameData ps := rfl

theorem SameData.trans (ps ps' ps'' : PolicyMap V A) (h : ps.SameData ps') (h' : ps'.SameData ps'') :
    ps.SameData ps'' := Eq.trans h' h

/-- A policy gets another schema. -/
theorem sameData_insert {p : Policy V A} {schema : Option Schema} (h : ps.lookup name = some p) :
    SameData ps (ps.insert name { p with schema := schema }) := by
  funext other
  rw [data_insert]
  split_ifs with ho
  · rw [ho, data_of_lookup h]
  · rfl

/-! ## Schemas -/

theorem updateLitSchema_keeps {l : Literal V} :
    Keeps SameData (updateLitSchema (A := A) name l insert) ps := by
  unfold Keeps updateLitSchema
  rw [run_get_bind]
  cases hlook : ps.lookup name with
  | none => rfl
  | some p =>
    dsimp only
    split
    · rfl
    · split_ifs
      · rfl
      · exact sameData_insert hlook
    · rfl

theorem updateBodySchema_keeps {reg : BuiltinRegistry V} : ∀ {ls : List (Literal V)}
    {ps : PolicyMap V A}, Keeps SameData (updateBodySchema reg name insert ls) ps
  | [], ps => .refl ps
  | l :: ls, ps => by
    unfold updateBodySchema
    have ih : ∀ ps, Keeps SameData (updateBodySchema (A := A) reg name insert ls) ps :=
      fun _ => updateBodySchema_keeps
    show SameData ps _
    rw [run_get_bind]
    split_ifs
    · exact ih ps
    · exact Keeps.bind SameData.trans updateLitSchema_keeps fun _ _ _ =>
        Keeps.bind SameData.trans (ih _) fun _ _ _ => .refl _

/-- Schemas say nothing about what policies hold. -/
theorem updateRuleSchema_keeps {reg : BuiltinRegistry V} {formula : Formula V} :
    Keeps SameData (updateRuleSchema (A := A) reg name formula insert) ps := by
  unfold updateRuleSchema
  show SameData ps _
  rw [run_get_bind]
  split
  · rfl
  · split_ifs
    · rfl
    · cases formula with
      | atom l =>
        exact Keeps.bind SameData.trans updateLitSchema_keeps fun _ _ _ => .refl _
      | rule r =>
        exact Keeps.bind SameData.trans updateLitSchema_keeps fun _ _ _ =>
          Keeps.bind SameData.trans updateBodySchema_keeps fun _ _ _ => .refl _

theorem revertSchema_keeps : ∀ {changes : List (Option SchemaChange)} {ps : PolicyMap V A},
    Keeps SameData (revertSchema name changes) ps
  | [], ps => .refl ps
  | none :: changes, ps => @revertSchema_keeps changes ps
  | some change :: changes, ps => by
    unfold revertSchema
    have ih : ∀ ps, Keeps SameData (revertSchema (A := A) name changes) ps :=
      fun _ => revertSchema_keeps
    show SameData ps _
    rw [run_get_bind]
    cases hlook : ps.lookup (change.service.getD name) with
    | none => rfl
    | some p =>
      dsimp only
      cases p.schema with
      | none => rfl
      | some schema =>
        refine Keeps.bind SameData.trans (Keeps.lift .refl _) fun schema' ps' h => ?_
        obtain ⟨-, rfl⟩ := Prod.mk.inj h
        exact SameData.trans _ _ _ (sameData_insert hlook) (ih _)

/-! ## Rule sets -/

/-- An event that reaches the rule set of a policy: whether it is a change, and the policies after. -/
inductive RuleStep (pf : Platform V) (name : String) (e : AnnotatedEvent V A) (ps : PolicyMap V A) :
    Bool → PolicyMap V A → Prop
  | changed {ps₁ : PolicyMap V A} {changes : List (Option SchemaChange)} {formula : Formula V}
      {kind : RuleKind} {store : RuleStore V A} {schema : Option Schema}
      (schemas : (updateRuleSchema pf.registry name e.formula e.insert).run ps = (.ok changes, ps₁))
      (reordered : e.formula.reorderForSafety pf.registry = some formula)
      (policy : ps₁.lookup name = some ⟨.rules kind store, schema⟩)
      (put : (store.put pf formula.asRule e.info e.insert).2 = true) :
      RuleStep pf name e ps true
        (ps₁.insert name ⟨.rules kind (store.put pf formula.asRule e.info e.insert).1, schema⟩)
  | noop {ps₁ ps' : PolicyMap V A} {changes : List (Option SchemaChange)} {formula : Formula V}
      {kind : RuleKind} {store : RuleStore V A} {schema : Option Schema}
      (schemas : (updateRuleSchema pf.registry name e.formula e.insert).run ps = (.ok changes, ps₁))
      (reordered : e.formula.reorderForSafety pf.registry = some formula)
      (policy : ps₁.lookup name = some ⟨.rules kind store, schema⟩)
      (put : (store.put pf formula.asRule e.info e.insert).2 = false)
      (reverted : (revertSchema name changes).run
        (ps₁.insert name ⟨.rules kind (store.put pf formula.asRule e.info e.insert).1, schema⟩)
          = (.ok (), ps')) :
      RuleStep pf name e ps false ps'

/-- An update of a rule set that returns has taken a step for each event. -/
theorem updateRules_cons {changes : List (AnnotatedEvent V A)}
    (h : (updateRules pf name (e :: events)).run ps = (.ok changes, ps')) :
    ∃ changed ps₁ changes', RuleStep pf name e ps changed ps₁
      ∧ (updateRules pf name events).run ps₁ = (.ok changes', ps')
      ∧ changes = if changed then e :: changes' else changes' := by
  unfold updateRules at h
  obtain ⟨schemaChanges, ps₁, hschema, h⟩ := run_bind_ok.1 h
  cases hformula : e.formula.reorderForSafety pf.registry with
  | none => simp [hformula] at h
  | some formula =>
    simp only [hformula, run_get_bind] at h
    split at h
    · rename_i kind store schema hlook
      cases hput : (store.put pf formula.asRule e.info e.insert).2 with
      | true =>
        simp only [hput, run_modify_bind, if_true] at h
        obtain ⟨changes', ps₂, h, h'⟩ := run_bind_ok.1 h
        cases h'
        exact ⟨true, _, changes', .changed hschema hformula hlook hput, h, rfl⟩
      | false =>
        simp only [hput, run_modify_bind, Bool.false_eq_true, if_false] at h
        obtain ⟨⟨⟩, ps₂, hrevert, h⟩ := run_bind_ok.1 h
        exact ⟨false, _, changes, .noop hschema hformula hlook hput hrevert, h, rfl⟩
    · cases h

theorem RuleStep.data {changed : Bool} (h : RuleStep pf name e ps changed ps') :
    ∃ kind store formula, ps.data name = some (.rules kind store)
      ∧ e.formula.reorderForSafety pf.registry = some formula
      ∧ ps'.data = Function.update ps.data name
        (some (.rules kind (store.put pf formula.asRule e.info e.insert).1)) := by
  cases h with
  | @changed ps₁ changes formula kind store schema hschema hformula hlook hput =>
    have hsame := updateRuleSchema_keeps.of_run hschema
    refine ⟨kind, store, formula, by rw [← hsame, data_of_lookup hlook], hformula, ?_⟩
    rw [← hsame]
    funext other
    rw [data_insert, Function.update_apply]
  | @noop ps₁ ps' changes formula kind store schema hschema hformula hlook hput hrevert =>
    have hsame := updateRuleSchema_keeps.of_run hschema
    have hreverted := revertSchema_keeps.of_run hrevert
    refine ⟨kind, store, formula, by rw [← hsame, data_of_lookup hlook], hformula, ?_⟩
    rw [hreverted, ← hsame]
    funext other
    rw [data_insert, Function.update_apply]

/-- Whether an event is a change. -/
theorem RuleStep.put_eq {changed : Bool} {kind : RuleKind} {store : RuleStore V A}
    {formula : Formula V} (h : RuleStep pf name e ps changed ps')
    (hd : ps.data name = some (.rules kind store))
    (hformula : e.formula.reorderForSafety pf.registry = some formula) :
    (store.put pf formula.asRule e.info e.insert).2 = changed := by
  cases h with
  | changed hschema hformula' hlook hput =>
    obtain rfl := Option.some.inj (hformula.symm.trans hformula')
    have hd' := data_of_lookup hlook
    rw [updateRuleSchema_keeps.of_run hschema, hd] at hd'
    obtain ⟨rfl, rfl⟩ := PolicyData.rules.inj (Option.some.inj hd')
    exact hput
  | noop hschema hformula' hlook hput =>
    obtain rfl := Option.some.inj (hformula.symm.trans hformula')
    have hd' := data_of_lookup hlook
    rw [updateRuleSchema_keeps.of_run hschema, hd] at hd'
    obtain ⟨rfl, rfl⟩ := PolicyData.rules.inj (Option.some.inj hd')
    exact hput

/-- A rule is stated the same when it was reordered. -/
theorem change_of_reordered (pf : Platform V) (insert : Bool) {formula formula' : Formula V}
    (h : formula.reorderForSafety pf.registry = some formula') :
    (formula'.asRule.statement pf).change insert = (formula.asRule.statement pf).change insert
      ∧ (formula.isDatalog = true → formula'.isDatalog = true) := by
  cases formula with
  | atom l =>
    cases h
    exact ⟨rfl, id⟩
  | rule r =>
    unfold Formula.reorderForSafety at h
    dsimp only at h
    split_ifs at h with hneg
    · cases h
      exact ⟨rfl, id⟩
    · obtain ⟨r', hr', rfl⟩ := Option.map_eq_some_iff.1 h
      obtain ⟨hhead, hmore, hbody, -⟩ := reorderForSafety_safe hr'
      have hsame := reorderForSafety_same hr'
      refine ⟨?_, by simp [Formula.isDatalog, hhead, hmore]⟩
      unfold Formula.asRule Rule.statement
      dsimp only
      rw [hhead, hbody.isEmpty_eq]
      split_ifs
      · rfl
      · exact Statement.change_congr
          (show Statement.Same (.rule _ r') (.rule _ r) from ⟨rfl, Rule.same_symm hsame⟩) insert

theorem negated_of_isDatalog {formula : Formula V} (h : formula.isDatalog = true) :
    formula.asRule.head.negated = false := by
  cases formula with
  | atom l => simpa [Formula.isDatalog, Formula.asRule] using h
  | rule r =>
    simp only [Formula.isDatalog, Bool.and_eq_true, Bool.not_eq_true'] at h
    exact h.2

/-- An update of a rule set does what the events say. -/
theorem updateRules_statements : ∀ {events changes : List (AnnotatedEvent V A)} {ps ps' : PolicyMap V A}
    {kind : RuleKind} {store : RuleStore V A},
    (updateRules pf name events).run ps = (.ok changes, ps') →
      (∀ e ∈ events, e.formula.isDatalog = true) → ps.data name = some (.rules kind store) →
      ∃ store', ps'.data = Function.update ps.data name (some (.rules kind store'))
        ∧ store'.statements = applyAll store.statements
          (events.map fun e => (e.formula.asRule.statement pf).change e.insert)
  | [], _, ps, ps', kind, store, h, _, hd => by
    cases h
    exact ⟨store, by rw [← hd, Function.update_eq_self], rfl⟩
  | e :: events, changes, ps, ps', kind, store, h, hdatalog, hd => by
    obtain ⟨he, hevents⟩ := List.forall_mem_cons.1 hdatalog
    obtain ⟨changed, ps₁, changes', hstep, h', -⟩ := updateRules_cons h
    obtain ⟨kind', store₀, formula, hd', hformula, hdata⟩ := hstep.data
    rw [hd, Option.some.injEq, PolicyData.rules.injEq] at hd'
    obtain ⟨rfl, rfl⟩ := hd'
    obtain ⟨hchange, hdl⟩ := change_of_reordered pf e.insert hformula
    obtain ⟨store', hdata', hst⟩ := updateRules_statements h' hevents
      (by rw [hdata]; exact Function.update_self ..)
    refine ⟨store', by rw [hdata', hdata, Function.update_idem], ?_⟩
    rw [hst, RuleStore.statements_put fun _ => negated_of_isDatalog (hdl he), hchange]
    rfl

/-- An update of a database does what the events say, except to tuples with proofs. -/
theorem updateDatabase_statements (pf : Platform V) : ∀ {events changes : List (AnnotatedEvent V A)}
    {ps ps' : PolicyMap V A} {schema : Option Schema} {db : Database V},
    (updateDatabase name schema db events).run ps = (.ok changes, ps') →
      (∀ e ∈ events, e.formula.isDatalog = true) → ps.data name = some (.database db) →
      ∃ db', ps'.data = Function.update ps.data name (some (.database db'))
        ∧ db'.statements = applyAll db.statements
          ((events.flatMap ((PolicyData.database db).changes pf)).map (·.sparing db.proved))
  | [], _, ps, ps', schema, db, h, _, hd => by
    cases h
    exact ⟨db, by rw [← hd, Function.update_eq_self], rfl⟩
  | e :: events, changes, ps, ps', schema, db, h, hdatalog, hd => by
    obtain ⟨he, hevents⟩ := List.forall_mem_cons.1 hdatalog
    unfold updateDatabase at h
    rw [run_lift_bind_ok] at h
    obtain ⟨⟨db₁, changes₁⟩, hmod, h⟩ := h
    simp only [run_modify_bind] at h
    obtain ⟨rest, ps₁, h₁, h⟩ := run_bind_ok.1 h
    cases h
    obtain ⟨l, hl, hst, hproved⟩ := Database.modify_base hmod
    have hdata : data (ps.insert name ⟨.database db₁, schema⟩)
        = Function.update ps.data name (some (.database db₁)) := by
      funext other
      rw [data_insert, Function.update_apply]
    obtain ⟨db', hdata', hst'⟩ := updateDatabase_statements pf h₁ hevents
      (by rw [hdata]; exact Function.update_self ..)
    refine ⟨db', by rw [hdata', hdata, Function.update_idem], ?_⟩
    have hchanges : (PolicyData.database db).changes pf e = [l.statement.change e.insert] := by
      rw [PolicyData.changes, if_pos he]
      simp only [hl]
    rw [hst', hst, hproved, List.flatMap_cons, hchanges]
    rfl

/-! ## Policies -/

theorem changes_within {th : MaterializedViewTheory V} {D : Set String}
    (hD : (PolicyData.materialized (A := A) th).defined events ⊆ D) :
    th.DefinesWithin D ∧ (∀ e ∈ th.queue, MaterializedViewTheory.Within D e)
      ∧ ∀ p ∈ events.map fun e => (e.formula, e.insert),
        ∀ e ∈ MaterializedViewTheory.expand p.1 p.2, MaterializedViewTheory.Within D e := by
  refine ⟨fun table d hd => hD (.inl (.inl ⟨table, d, hd, rfl⟩)), fun e he => ⟨fun r hr => ?_,
    fun l hl => ?_⟩, fun p hp e he => ?_⟩
  · exact hD (.inl (.inr ⟨e, he, .inl ⟨r, hr, rfl⟩⟩))
  · by_cases hps : e.proofs = []
    · exact .inl hps
    · exact .inr (hD (.inl (.inr ⟨e, he, .inr ⟨hps, l, hl, rfl⟩⟩)))
  · obtain ⟨ev, hev, rfl⟩ := List.mem_map.1 hp
    unfold MaterializedViewTheory.expand at he
    cases hf : ev.formula with
    | atom l =>
      simp only [hf, List.mem_singleton] at he
      subst he
      refine ⟨fun r hr => ?_, fun l _ => .inl rfl⟩
      cases hr
    | rule r =>
      simp only [hf, List.mem_map] at he
      obtain ⟨r', hr', rfl⟩ := he
      refine ⟨fun r'' hr'' => ?_, fun l hl => ?_⟩
      · cases hr''
        exact hD (.inr ⟨ev, hev, r, hf, r', hr', rfl⟩)
      · cases hl

/-- An update of a policy of any kind does what the events say, as far as events can. -/
theorem update_statements {changes : List (Changed V A)} {d : PolicyData V A}
    (h : (PolicyMap.update pf name events).run ps = (.ok changes, ps'))
    (hdatalog : ∀ e ∈ events, e.formula.isDatalog = true) (hd : ps.data name = some d) :
    ∃ d', ps'.data = Function.update ps.data name (some d') ∧ ∀ D, d.defined events ⊆ D →
      d'.statements D = applyAll (d.statements D)
        ((d.pending ++ events.flatMap (d.changes pf)).map (·.sparing (d.fixed D))) := by
  unfold PolicyMap.update at h
  rw [run_get_bind] at h
  obtain ⟨p, hp, rfl⟩ := Option.map_eq_some_iff.1 hd
  rw [hp] at h
  dsimp only at h
  cases hkind : p.data with
  | rules kind store =>
    simp only [hkind] at h
    obtain ⟨changes', ps₁, h, h'⟩ := run_bind_ok.1 h
    cases h'
    obtain ⟨store', hdata, hst⟩ := updateRules_statements h hdatalog (by rw [hd, hkind])
    refine ⟨_, hdata, fun D _ => ?_⟩
    have hchanges : events.flatMap ((PolicyData.rules kind store).changes pf)
        = events.flatMap fun e => [(e.formula.asRule.statement pf).change e.insert] :=
      List.flatMap_congr fun e he => by rw [PolicyData.changes, if_pos (hdatalog e he)]
    show store'.statements = _
    rw [hst, hchanges]
    simp [PolicyData.pending, PolicyData.fixed, PolicyData.statements, List.map_eq_flatMap]
  | database db =>
    simp only [hkind] at h
    obtain ⟨changes', ps₁, h, h'⟩ := run_bind_ok.1 h
    cases h'
    obtain ⟨db', hdata, hst⟩ := updateDatabase_statements pf h hdatalog (by rw [hd, hkind])
    exact ⟨_, hdata, fun D _ => hst⟩
  | materialized th =>
    simp only [hkind] at h
    obtain ⟨changes', ps₁, h, h'⟩ := run_bind_ok.1 h
    cases h'
    unfold updateMaterialized at h
    rw [run_get_bind, run_zoom] at h
    obtain ⟨hok, hps⟩ := Prod.mk.inj h
    rcases hrun : (MaterializedViewTheory.update pf.registry ps.topDown pf.setOrder pf.evalFuel
      pf.queueFuel (events.map fun e => (e.formula, e.insert))).run th with ⟨r, th'⟩
    rw [hrun] at hok hps
    dsimp only at hok hps
    subst hok hps
    refine ⟨.materialized th', ?_, fun D hD => ?_⟩
    · funext other
      rw [data_insert, Function.update_apply]
    · obtain ⟨hth, hqueue, hevents⟩ := changes_within hD
      obtain ⟨-, hst⟩ := MaterializedViewTheory.update_statements hrun hth hqueue hevents
      have hchanges : events.flatMap ((PolicyData.materialized th).changes pf)
          = events.flatMap fun e =>
            (MaterializedViewTheory.expand e.formula e.insert).map MaterializedViewTheory.change :=
        List.flatMap_congr fun e he => by rw [PolicyData.changes, if_pos (hdatalog e he)]
      show th'.statements D = _
      rw [hst, hchanges]
      simp [PolicyData.pending, PolicyData.fixed, PolicyData.statements, List.map_flatMap,
        List.flatMap_map, Function.comp_def]

end PolicyMap

end Congress
