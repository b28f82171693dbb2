import Congress.Proofs.Updates

/-!
# What calls on the runtime do

Inversion lemmas for the calls that return. An update of rules without columns ends in one of four
ways (`Datalog`): there is nothing to do, the checks find errors, the rules would be recursive, or
the policies are updated.
-/

namespace Congress

open Lib Stateful

set_option linter.unusedSectionVars false

variable {V A : Type} [DecidableEq V] {host : Host V A} {rt rt' : Runtime V A}
  {events effective : List (AnnotatedEvent V A)} {target : Option String} {persistent : Bool}

namespace Runtime

/-- The graph after an update of it, and what the update returns. -/
inductive GraphStep (rt : Runtime V A) (events : List (AnnotatedEvent V A)) :
    Bool → RuleDependencyGraph → Prop
  | unchanged {graph : RuleDependencyGraph}
      (update : rt.globalDependencyGraph.formulaUpdate Selection.rules (events.map (·.toEvent))
        = (graph, some [])) :
      GraphStep rt events true graph
  | acyclic {graph : RuleDependencyGraph} {changes : List Change} {g : Graph String Bool}
      (update : rt.globalDependencyGraph.formulaUpdate Selection.rules (events.map (·.toEvent))
        = (graph, some changes)) (nonempty : changes ≠ [])
      (answer : graph.bag.graph.hasCycle = (g, .ok false)) :
      GraphStep rt events true { graph with bag := { graph.bag with graph := g } }
  | cyclic {graph : RuleDependencyGraph} {changes : List Change} {g : Graph String Bool}
      (update : rt.globalDependencyGraph.formulaUpdate Selection.rules (events.map (·.toEvent))
        = (graph, some changes)) (nonempty : changes ≠ [])
      (answer : graph.bag.graph.hasCycle = (g, .ok true)) :
      GraphStep rt events false
        (({ graph with bag := { graph.bag with graph := g } } : RuleDependencyGraph).undoChanges changes)

theorem updateGraph_ok {b : Bool} (h : (updateGraph events).run rt = (.ok b, rt')) :
    ∃ graph, rt' = { rt with globalDependencyGraph := graph } ∧ GraphStep rt events b graph := by
  unfold updateGraph at h
  rw [run_get_bind] at h
  rcases hupdate : rt.globalDependencyGraph.formulaUpdate Selection.rules (events.map (·.toEvent))
    with ⟨graph, _ | changes⟩
  · rw [hupdate] at h
    cases h
  · rw [hupdate] at h
    dsimp only at h
    by_cases hchanges : changes = []
    · subst hchanges
      cases h
      exact ⟨graph, rfl, .unchanged hupdate⟩
    · rw [if_neg (by simpa using hchanges)] at h
      rcases hcycle : graph.bag.graph.hasCycle with ⟨g, _ | _ | _⟩
      · rw [hcycle] at h
        cases h
      · rw [hcycle] at h
        cases h
        exact ⟨_, rfl, .acyclic hupdate hchanges hcycle⟩
      · rw [hcycle] at h
        cases h
        exact ⟨_, rfl, .cyclic hupdate hchanges hcycle⟩

/-- How an update of rules without columns ends. -/
inductive Datalog (host : Host V A) (rt : Runtime V A) (events : List (AnnotatedEvent V A)) :
    UpdateResult V A → Runtime V A → Prop
  | noop (actual : rt.theory.actualEvents host.toPlatform events = .ok []) :
      Datalog host rt events (.permitted []) rt
  | errors {effective : List (AnnotatedEvent V A)} {errors : List (PolicyError V)}
      (actual : rt.theory.actualEvents host.toPlatform events = .ok effective)
      (checks : rt.theory.errors host.registry effective (AnnotatedEvent.targets effective)
        = .ok errors) (nonempty : errors ≠ []) :
      Datalog host rt events (.rejected errors) rt
  | recursive {effective : List (AnnotatedEvent V A)} {graph : RuleDependencyGraph}
      (actual : rt.theory.actualEvents host.toPlatform events = .ok effective)
      (checks : rt.theory.errors host.registry effective (AnnotatedEvent.targets effective) = .ok [])
      (step : GraphStep rt effective false graph) :
      Datalog host rt events (.rejected [.recursiveRules])
        { rt with globalDependencyGraph := graph }
  | permitted {effective : List (AnnotatedEvent V A)} {graph : RuleDependencyGraph}
      {changes : List (PolicyMap.Changed V A)} {ps : PolicyMap V A}
      (actual : rt.theory.actualEvents host.toPlatform events = .ok effective)
      (nonempty : effective ≠ [])
      (checks : rt.theory.errors host.registry effective (AnnotatedEvent.targets effective) = .ok [])
      (step : GraphStep rt effective true graph)
      (applied : (PolicyMap.updateTargets host.toPlatform (AnnotatedEvent.targets effective)
        effective).run rt.theory = (.ok changes, ps)) :
      Datalog host rt events (.permitted changes)
        { rt with theory := ps, globalDependencyGraph := graph }

theorem raise_ok {o : Option Fault} {u : Unit} (h : (raise o).run rt = (.ok u, rt')) : rt' = rt := by
  cases o with
  | none =>
    cases h
    rfl
  | some => cases h

theorem updateObjDatalog_ok {result : UpdateResult V A}
    (h : (updateObjDatalog host events).run rt = (.ok result, rt')) :
    Datalog host rt events result rt' := by
  unfold updateObjDatalog at h
  rw [run_get_bind, run_lift_bind_ok] at h
  obtain ⟨effective, hactual, h⟩ := h
  by_cases hnil : effective = []
  · subst hnil
    cases h
    exact .noop hactual
  · rw [if_neg (by simpa using hnil), run_get_bind, run_lift_bind_ok] at h
    obtain ⟨errors, hchecks, h⟩ := h
    by_cases herrors : errors = []
    · subst herrors
      simp only [List.isEmpty_nil, Bool.not_true, Bool.false_eq_true, if_false] at h
      obtain ⟨b, rt₁, hgraph, h⟩ := run_bind_ok.1 h
      obtain ⟨graph, rfl, hstep⟩ := updateGraph_ok hgraph
      cases b with
      | false =>
        cases h
        exact .recursive hactual hchecks hstep
      | true =>
        simp only [Bool.not_true, Bool.false_eq_true, if_false, run_get_bind] at h
        obtain ⟨⟨⟩, rt₂, hraise, h⟩ := run_bind_ok.1 h
        obtain rfl := raise_ok hraise
        obtain ⟨changes, rt₃, happlied, h⟩ := run_bind_ok.1 h
        rw [run_get_bind] at h
        obtain ⟨⟨⟩, rt₄, hraise', h⟩ := run_bind_ok.1 h
        cases h
        obtain rfl := raise_ok hraise'
        unfold onPolicies at happlied
        rw [run_zoom] at happlied
        rcases hrun : (PolicyMap.updateTargets host.toPlatform (AnnotatedEvent.targets effective)
          effective).run rt.theory with ⟨r, ps⟩
        dsimp only at happlied
        rw [hrun] at happlied
        obtain ⟨rfl, rfl⟩ := Prod.mk.inj happlied
        exact .permitted hactual hnil hchecks hstep hrun
    · rw [if_pos (by simpa using herrors)] at h
      cases h
      exact .errors hactual hchecks herrors

/-- How an update ends. -/
inductive Updated (host : Host V A) (rt : Runtime V A) (events : List (AnnotatedEvent V A))
    (target : Option String) (persistent : Bool) : UpdateResult V A → Runtime V A → Prop
  | unresolved {resolved : List (AnnotatedEvent V A)} {errors : List (PolicyError V)}
      (targets : rt.resolveTargets target events = (resolved, errors)) (nonempty : errors ≠ []) :
      Updated host rt events target persistent (.rejected errors) rt
  | inconsistent {resolved : List (AnnotatedEvent V A)} {limbo : Limbo V A}
      (targets : rt.resolveTargets target events = (resolved, []))
      (eliminated : rt.theory.processLimboEvents host.toPlatform persistent resolved = .ok limbo)
      (nonempty : limbo.errors ≠ []) :
      Updated host rt events target persistent (.rejected (limbo.errors.flatMap (·.2))) rt
  | rejected {resolved : List (AnnotatedEvent V A)} {limbo : Limbo V A} {errors : List (PolicyError V)}
      {after : Runtime V A} (targets : rt.resolveTargets target events = (resolved, []))
      (eliminated : rt.theory.processLimboEvents host.toPlatform persistent resolved = .ok limbo)
      (consistent : limbo.errors = []) (datalog : Datalog host rt limbo.enabled (.rejected errors) after) :
      Updated host rt events target persistent (.rejected errors) after
  | permitted {resolved : List (AnnotatedEvent V A)} {limbo : Limbo V A}
      {changes : List (PolicyMap.Changed V A)} {after : Runtime V A}
      (targets : rt.resolveTargets target events = (resolved, []))
      (eliminated : rt.theory.processLimboEvents host.toPlatform persistent resolved = .ok limbo)
      (consistent : limbo.errors = [])
      (datalog : Datalog host rt limbo.enabled (.permitted changes) after) :
      Updated host rt events target persistent (.permitted changes)
        { after with disabledEvents := after.disabledEvents ++ limbo.disabled }

theorem update_ok {result : UpdateResult V A}
    (h : (update host events target persistent).run rt = (.ok result, rt')) :
    Updated host rt events target persistent result rt' := by
  unfold update at h
  rw [run_get_bind] at h
  rcases htargets : rt.resolveTargets target events with ⟨resolved, errors⟩
  simp only [htargets] at h
  by_cases herrors : errors = []
  · subst herrors
    rw [if_neg (by simp), run_get_bind, run_lift_bind_ok] at h
    obtain ⟨limbo, hlimbo, h⟩ := h
    by_cases hconsistent : limbo.errors = []
    · rw [if_neg (by simp [hconsistent])] at h
      obtain ⟨datalog, rt₁, hdatalog, h⟩ := run_bind_ok.1 h
      have hdatalog := updateObjDatalog_ok hdatalog
      cases datalog with
      | rejected errors =>
        cases h
        exact .rejected htargets hlimbo hconsistent hdatalog
      | permitted changes =>
        cases h
        exact .permitted htargets hlimbo hconsistent hdatalog
    · rw [if_pos (by simpa using hconsistent)] at h
      cases h
      exact .inconsistent htargets hlimbo hconsistent
  · rw [if_pos (by simpa using herrors)] at h
    cases h
    exact .unresolved htargets herrors

/-- Events for one policy stay events for it. -/
theorem target_of_resolveTargets {name : String} : ∀ {events resolved : List (AnnotatedEvent V A)}
    {target : Option String}, rt.resolveTargets target events = (resolved, []) →
      (∀ e ∈ events, e.target = some name) → ∀ e ∈ resolved, e.target = some name
  | [], _, _, h, _ => by
    cases h
    simp
  | e :: events, resolved, target, h, htarget => by
    obtain ⟨he, hevents⟩ := List.forall_mem_cons.1 htarget
    unfold resolveTargets at h
    rcases hrest : rt.resolveTargets target events with ⟨rest, errors⟩
    rw [hrest] at h
    dsimp only at h
    split at h
    · rename_i name' hname
      obtain ⟨rfl, rfl⟩ := Prod.mk.inj h
      refine List.forall_mem_cons.2 ⟨?_, target_of_resolveTargets hrest hevents⟩
      rw [he, Option.some_or] at hname
      unfold getTargetName at hname
      dsimp only at hname
      split_ifs at hname
      exact congrArg some (Except.ok.inj hname).symm
    · simp at h

end Runtime

/-! ## Checks -/

namespace PolicyMap

variable {ps ps' : PolicyMap V A} {reg : BuiltinRegistry V} {pf : Platform V} {name : String}
  {names : List String} {e : AnnotatedEvent V A}

/-- What passes the check of a policy is datalog. -/
theorem isDatalog_of_formulaErrors {schemas : Schemas} {p : Policy V A} {formula : Formula V}
    (h : p.formulaErrors reg schemas name formula = .ok []) : formula.isDatalog = true := by
  by_contra hf
  have hneg : ∀ l, formula = .atom l → l.negated = true := by
    rintro l rfl
    simpa [Formula.isDatalog] using hf
  unfold Policy.formulaErrors at h
  split at h
  · rw [if_pos (hneg _ rfl)] at h
    cases h
  · cases h
  · rw [if_pos (hneg _ rfl)] at h
    cases h
  · rw [if_neg hf] at h
    cases h
  · rw [if_pos (by simpa using hf)] at h
    cases h

/-- A check that finds nothing has found nothing in any formula. -/
theorem formulaErrors_of_checked {schemas : Schemas} {p : Policy V A} : ∀ {formulas : List (Formula V)},
    p.updateWouldCauseErrors reg schemas name formulas = .ok [] →
      ∀ f ∈ formulas, p.formulaErrors reg schemas name f = .ok []
  | [], _ => by simp
  | formula :: formulas, h => by
    unfold Policy.updateWouldCauseErrors at h
    obtain ⟨errors, herrors, h⟩ := bind_ok.1 h
    obtain ⟨rest, hrest, h⟩ := bind_ok.1 h
    obtain ⟨rfl, rfl⟩ := List.append_eq_nil_iff.1 (Except.ok.inj h)
    exact List.forall_mem_cons.2 ⟨herrors, formulaErrors_of_checked hrest⟩

/-- Checks of all targets that find nothing have found nothing in any event. -/
theorem formulaErrors_of_errors : ∀ {names : List String}, ps.errors reg events names = .ok [] →
    ∀ e ∈ events, ∀ name ∈ names, e.target = some name →
      ∃ p, ps.lookup name = some p ∧ p.formulaErrors reg ps.schemas name e.formula = .ok []
  | [], _ => by simp
  | name :: names, h => by
    unfold PolicyMap.errors at h
    split at h
    · cases h
    · rename_i p hp
      obtain ⟨errors, herrors, h⟩ := bind_ok.1 h
      obtain ⟨rest, hrest, h⟩ := bind_ok.1 h
      obtain ⟨rfl, rfl⟩ := List.append_eq_nil_iff.1 (Except.ok.inj h)
      intro e he name' hname' htarget
      rcases List.mem_cons.1 hname' with rfl | hname'
      · exact ⟨p, hp, formulaErrors_of_checked herrors _ (List.mem_map_of_mem
          (List.mem_filter.2 ⟨he, by simpa using htarget⟩))⟩
      · exact formulaErrors_of_errors hrest e he name' hname' htarget

/-- An event that is no noop in its own policy. -/
def Effective (pf : Platform V) (ps : PolicyMap V A) (e : AnnotatedEvent V A) : Prop :=
  ∃ name p b, e.target = some name ∧ ps.lookup name = some p ∧ p.contains pf e.formula = .ok b
    ∧ e.insert ≠ b

open scoped Classical in
/-- The events that are left are those that are no noops. -/
theorem actualEvents_ok : ∀ {events effective : List (AnnotatedEvent V A)},
    ps.actualEvents pf events = .ok effective →
      effective = events.filter (fun e => Effective pf ps e)
  | [], effective, h => by
    cases h
    rfl
  | e :: events, effective, h => by
    unfold actualEvents at h
    split at h
    · cases h
    · rename_i p hp
      obtain ⟨b, hb, h⟩ := bind_ok.1 h
      obtain ⟨rest, hrest, h⟩ := bind_ok.1 h
      obtain ⟨name, hname, hp⟩ := Option.bind_eq_some_iff.1 hp
      have heff : Effective pf ps e ↔ (e.insert != b) = true := by
        rw [bne_iff_ne]
        constructor
        · rintro ⟨name', p', b', hname', hp', hb', hne⟩
          rw [hname, Option.some.injEq] at hname'
          subst hname'
          rw [hp, Option.some.injEq] at hp'
          subst hp'
          rw [hb, Except.ok.injEq] at hb'
          exact hb' ▸ hne
        · exact fun hne => ⟨name, p, b, hname, hp, hb, hne⟩
      rw [List.filter_cons, ← actualEvents_ok hrest, ← Except.ok.inj h]
      simp only [heff, decide_eq_true_eq]

theorem mem_actualEvents (h : ps.actualEvents pf events = .ok effective) :
    e ∈ effective ↔ e ∈ events ∧ Effective pf ps e := by
  classical
  rw [actualEvents_ok h, List.mem_filter, decide_eq_true_eq]

/-- Every event that is looked at has a target. -/
theorem contained_of_actualEvents : ∀ {events effective : List (AnnotatedEvent V A)},
    ps.actualEvents pf events = .ok effective → ∀ e ∈ events, ∃ name p b, e.target = some name
      ∧ ps.lookup name = some p ∧ p.contains pf e.formula = .ok b
  | [], _, _ => by simp
  | e :: events, effective, h => by
    unfold actualEvents at h
    split at h
    · cases h
    · rename_i p hp
      obtain ⟨b, hb, h⟩ := bind_ok.1 h
      obtain ⟨rest, hrest, h⟩ := bind_ok.1 h
      obtain ⟨name, hname, hp⟩ := Option.bind_eq_some_iff.1 hp
      exact List.forall_mem_cons.2 ⟨⟨name, p, b, hname, hp, hb⟩, contained_of_actualEvents hrest⟩

/-- What passes the checks of all targets is datalog. -/
theorem isDatalog_of_errors
    (hactual : ps.actualEvents pf events = .ok effective)
    (h : ps.errors reg effective (AnnotatedEvent.targets effective) = .ok []) :
    ∀ e ∈ effective, e.formula.isDatalog = true := by
  intro e he
  obtain ⟨-, name, p, b, hname, -⟩ := (mem_actualEvents hactual).1 he
  have htarget : name ∈ AnnotatedEvent.targets effective := by
    unfold AnnotatedEvent.targets
    rw [List.mem_reverse, List.mem_dedup, List.mem_reverse, List.mem_filterMap]
    exact ⟨e, he, hname⟩
  obtain ⟨p', -, hp'⟩ := formulaErrors_of_errors h e he name htarget hname
  exact isDatalog_of_formulaErrors hp'

end PolicyMap

end Congress
