import Congress.Lib.Run
import Congress.Proofs.Routing

/-!
# Events that wait for a schema

An event whose columns are not known yet waits in the runtime. A ledger beside the runtime keeps what
was accepted and what became of it: each event waits, was applied, is listed as an error, or was dropped
with its policy (`Conserved`). A schema that makes a waiting event inconsistent has it listed and tried
again, and one whose events raise loses the rest of them; else events are conserved
(`conserved_along`).
-/

namespace Congress

open Lib Stateful

set_option linter.unusedSectionVars false

variable {V A : Type} [DecidableEq V] {host : Host V A} {rt rt' : Runtime V A} {pf : Platform V}
  {ps : PolicyMap V A} {events : List (AnnotatedEvent V A)}

/-- An event up to its formula, which is rewritten once its columns are known. -/
def AnnotatedEvent.key (e : AnnotatedEvent V A) : A × Bool × Option String :=
  (e.info, e.insert, e.target)

/-- What was accepted, what each call has applied, and what was dropped while it waited. -/
structure Ledger (V A : Type) where
  accepted : List (AnnotatedEvent V A)
  applied : List (List (AnnotatedEvent V A))
  dropped : List (AnnotatedEvent V A)

def Ledger.empty : Ledger V A := ⟨[], [], []⟩

/-- What is done with a runtime; updates are not persistent. -/
inductive RuntimeOp (V A : Type)
  | update (events : List (AnnotatedEvent V A)) (target : Option String)
  | createPolicy (name : String) (kind : PolicyKind)
  | setSchema (name : String) (columns : AList fun _ : String => List String) (complete : Bool)
  | deletePolicy (name : String)

namespace PolicyMap

/-- The waiting events agree with the schemas as soon as their columns are known. -/
def ConsistentOnce (pf : Platform V) (ps : PolicyMap V A) (events : List (AnnotatedEvent V A)) : Prop :=
  ∀ e ∈ events, ∀ formula, e.formula.eliminateColumnReferences pf.sorted ps.infos e.target = .ok formula →
    checkSchemaConsistency ps.schemas e.target formula = []

instance (pf : Platform V) (ps : PolicyMap V A) (events : List (AnnotatedEvent V A)) :
    Decidable (ps.ConsistentOnce pf events) :=
  decidable_of_iff (∀ e ∈ events,
      (match e.formula.eliminateColumnReferences pf.sorted ps.infos e.target with
      | .ok formula => (checkSchemaConsistency ps.schemas e.target formula).isEmpty
      | .error _ => true) = true) <| by
    refine forall_congr' fun e => forall_congr' fun _ => ?_
    cases e.formula.eliminateColumnReferences pf.sorted ps.infos e.target <;> simp

/-- An event is enabled, waits, or is an error. -/
theorem processLimboEvents_keys {persistent : Bool} : ∀ {events : List (AnnotatedEvent V A)}
    {limbo : Limbo V A}, ps.processLimboEvents pf persistent events = .ok limbo →
      ps.ConsistentOnce pf events →
      (events.map (·.key)).Perm
          ((limbo.disabled ++ limbo.enabled ++ limbo.errors.map Prod.fst).map (·.key))
        ∧ (limbo.disabled.map (·.key)).Sublist (events.map (·.key))
        ∧ (limbo.enabled.map (·.key)).Sublist (events.map (·.key))
  | [], limbo, h, _ => by
    cases h
    exact ⟨.refl _, .refl _, .refl _⟩
  | e :: events, limbo, h, hc => by
    obtain ⟨hce, hc⟩ := List.forall_mem_cons.1 hc
    unfold processLimboEvents at h
    split at h
    · rename_i formula hformula
      obtain ⟨rest, hrest, h⟩ := bind_ok.1 h
      cases h
      obtain ⟨hperm, hdis, hen⟩ := processLimboEvents_keys hrest hc
      simp only [hce formula hformula, List.isEmpty_nil, if_true, List.map_cons, List.map_append,
        List.append_assoc, List.cons_append] at hperm ⊢
      exact ⟨(hperm.cons _).trans List.perm_middle.symm, hdis.cons _, hen.cons_cons _⟩
    · split_ifs at h
      obtain ⟨rest, hrest, h⟩ := bind_ok.1 h
      cases h
      obtain ⟨hperm, hdis, hen⟩ := processLimboEvents_keys hrest hc
      simp only [List.map_cons, List.cons_append]
      exact ⟨hperm.cons _, hdis.cons_cons _, hen.cons _⟩
    · obtain ⟨rest, hrest, h⟩ := bind_ok.1 h
      cases h
      obtain ⟨hperm, hdis, hen⟩ := processLimboEvents_keys hrest hc
      simp only [List.map_cons, List.map_append, List.append_assoc] at hperm ⊢
      refine ⟨(hperm.cons _).trans ?_, hdis.cons _, hen.cons _⟩
      rw [← List.append_assoc, ← List.append_assoc]
      exact List.perm_middle.symm

/-- Where there are no errors all events agree with the schemas. -/
theorem consistent_of_limbo {persistent : Bool} : ∀ {events : List (AnnotatedEvent V A)}
    {limbo : Limbo V A}, ps.processLimboEvents pf persistent events = .ok limbo → limbo.errors = [] →
      ps.ConsistentOnce pf events
  | [], _, _, _ => by simp [ConsistentOnce]
  | e :: events, limbo, h, hnil => by
    unfold processLimboEvents at h
    split at h
    · rename_i formula hformula
      obtain ⟨rest, hrest, h⟩ := bind_ok.1 h
      cases h
      dsimp only at hnil
      split_ifs at hnil with hc
      refine List.forall_mem_cons.2 ⟨fun formula' hformula' => ?_, consistent_of_limbo hrest hnil⟩
      rw [hformula] at hformula'
      cases hformula'
      exact List.isEmpty_iff.1 hc
    · rename_i hformula
      split_ifs at h
      obtain ⟨rest, hrest, h⟩ := bind_ok.1 h
      cases h
      refine List.forall_mem_cons.2 ⟨fun formula' hformula' => ?_, consistent_of_limbo hrest hnil⟩
      rw [hformula] at hformula'
      cases hformula'
    · obtain ⟨rest, hrest, h⟩ := bind_ok.1 h
      cases h
      cases hnil

end PolicyMap

namespace Runtime

/-! ## What waits -/

/-- The same events wait, and the same are listed as errors. -/
def SameWaiting (rt rt' : Runtime V A) : Prop :=
  rt'.disabledEvents = rt.disabledEvents ∧ rt'.errorEvents = rt.errorEvents

theorem SameWaiting.refl (rt : Runtime V A) : rt.SameWaiting rt := ⟨rfl, rfl⟩

theorem SameWaiting.trans (rt rt' rt'' : Runtime V A) (h : rt.SameWaiting rt')
    (h' : rt'.SameWaiting rt'') : rt.SameWaiting rt'' := ⟨h'.1.trans h.1, h'.2.trans h.2⟩

theorem raise_keeps {o : Option Fault} : Keeps SameWaiting (raise o) rt := by
  cases o <;> exact .refl _

theorem updateGraph_keeps : Keeps SameWaiting (updateGraph events) rt := by
  unfold Keeps updateGraph
  rw [run_get_bind]
  rcases hupdate : rt.globalDependencyGraph.formulaUpdate Selection.rules (events.map (·.toEvent))
    with ⟨graph, _ | changes⟩
  · rw [hupdate]
    exact ⟨rfl, rfl⟩
  · rw [hupdate]
    dsimp only
    split_ifs
    · exact ⟨rfl, rfl⟩
    · rcases graph.bag.graph.hasCycle with ⟨g, _ | _ | _⟩ <;> exact ⟨rfl, rfl⟩

/-- An update of rules without columns leaves alone what waits, however it ends. -/
theorem updateObjDatalog_keeps : Keeps SameWaiting (updateObjDatalog host events) rt := by
  unfold updateObjDatalog
  show SameWaiting rt _
  rw [run_get_bind]
  refine Keeps.bind SameWaiting.trans (Keeps.lift .refl _) fun effective rt₁ h => ?_
  obtain ⟨-, rfl⟩ := Prod.mk.inj h
  unfold Keeps
  split_ifs
  · exact .refl _
  · rw [run_get_bind]
    refine Keeps.bind SameWaiting.trans (Keeps.lift .refl _) fun errors rt₂ h => ?_
    obtain ⟨-, rfl⟩ := Prod.mk.inj h
    unfold Keeps
    split_ifs
    · exact .refl _
    · refine Keeps.bind SameWaiting.trans updateGraph_keeps fun b rt₃ h => ?_
      unfold Keeps
      split_ifs
      · exact .refl _
      · rw [run_get_bind]
        refine Keeps.bind SameWaiting.trans raise_keeps fun _ rt₄ _ => ?_
        refine Keeps.bind SameWaiting.trans ⟨rfl, rfl⟩ fun _ rt₅ _ => ?_
        unfold Keeps
        rw [run_get_bind]
        exact Keeps.bind SameWaiting.trans raise_keeps fun _ _ _ => .refl _

/-- Those of the events that the loop of `set_schema` applies. -/
def appliedOf (host : Host V A) : List (AnnotatedEvent V A) → Runtime V A → List (AnnotatedEvent V A)
  | [], _ => []
  | e :: events, rt =>
    match (updateObjDatalog host [e]).run rt with
    | (.ok (.permitted _), rt) => e :: appliedOf host events rt
    | (.ok (.rejected errors), rt) =>
      appliedOf host events { rt with errorEvents := rt.errorEvents ++ [(e, errors)] }
    | (.error _, _) => []

/-- What is enabled is applied, or becomes an error. -/
theorem applyEnabled_ok : ∀ {events : List (AnnotatedEvent V A)} {rt rt' : Runtime V A},
    (applyEnabled host events).run rt = (.ok (), rt') →
      rt'.disabledEvents = rt.disabledEvents
        ∧ (appliedOf host events rt).Sublist events
        ∧ ∃ rejected, rt'.errorEvents = rt.errorEvents ++ rejected
          ∧ events.Perm (appliedOf host events rt ++ rejected.map Prod.fst)
  | [], rt, rt', h => by
    cases h
    exact ⟨rfl, .refl _, [], (List.append_nil _).symm, .refl _⟩
  | e :: events, rt, rt', h => by
    unfold applyEnabled at h
    obtain ⟨result, rt₁, h₁, h⟩ := run_bind_ok.1 h
    obtain ⟨hdis, herr⟩ := updateObjDatalog_keeps.of_run h₁
    rw [appliedOf, h₁]
    cases result with
    | permitted changes =>
      obtain ⟨hdis', hsub, rejected, herr', hperm⟩ := applyEnabled_ok h
      exact ⟨hdis'.trans hdis, hsub.cons_cons _, rejected, by rw [herr', herr], hperm.cons _⟩
    | rejected errors =>
      obtain ⟨hdis', hsub, rejected, herr', hperm⟩ := applyEnabled_ok h
      refine ⟨hdis'.trans hdis, hsub.cons _, (e, errors) :: rejected, ?_,
        (hperm.cons _).trans List.perm_middle.symm⟩
      rw [herr']
      dsimp only
      rw [herr, List.append_assoc]
      rfl

/-- The policies once the schema is set. -/
def withSchema (rt : Runtime V A) (name : String) (columns : AList fun _ : String => List String)
    (complete : Bool) : PolicyMap V A :=
  match rt.theory.lookup name with
  | none => rt.theory
  | some p => rt.theory.insert name { p with schema := some ⟨columns, none, complete⟩ }

/-- The events that a schema enables, and the runtime in which they are applied. -/
def released (host : Host V A) (rt : Runtime V A) (name : String)
    (columns : AList fun _ : String => List String) (complete : Bool) :
    List (AnnotatedEvent V A) × Runtime V A :=
  let ps := rt.withSchema name columns complete
  match ps.processLimboEvents host.toPlatform false rt.disabledEvents with
  | .error _ => ([], rt)
  | .ok limbo => (limbo.enabled, { rt with
      theory := ps, disabledEvents := limbo.disabled, errorEvents := rt.errorEvents ++ limbo.errors })

/-- `set_schema` where it returns. -/
theorem setSchema_ok {name : String} {columns : AList fun _ : String => List String} {complete : Bool}
    (h : (setSchema host name columns complete).run rt = (.ok (), rt')) :
    ∃ limbo, (rt.withSchema name columns complete).processLimboEvents host.toPlatform false
        rt.disabledEvents = .ok limbo
      ∧ released host rt name columns complete = (limbo.enabled, { rt with
          theory := rt.withSchema name columns complete, disabledEvents := limbo.disabled,
          errorEvents := rt.errorEvents ++ limbo.errors })
      ∧ (applyEnabled host limbo.enabled).run (released host rt name columns complete).2
        = (.ok (), rt') := by
  unfold setSchema at h
  rw [run_get_bind] at h
  cases hp : rt.theory.lookup name with
  | none =>
    rw [hp] at h
    cases h
  | some p =>
    rw [hp] at h
    dsimp only at h
    split_ifs at h
    · cases h
    · rw [run_modify_bind, run_get_bind, run_get_bind, run_lift_bind_ok] at h
      obtain ⟨limbo, hlimbo, h⟩ := h
      have hwith : rt.withSchema name columns complete
          = rt.theory.insert name { p with schema := some ⟨columns, none, complete⟩ } := by
        rw [withSchema, hp]
      have hreleased : released host rt name columns complete = (limbo.enabled, { rt with
            theory := rt.withSchema name columns complete, disabledEvents := limbo.disabled,
            errorEvents := rt.errorEvents ++ limbo.errors }) := by
        unfold released
        dsimp only
        rw [hwith, hlimbo]
      refine ⟨limbo, by rw [hwith, hlimbo], hreleased, ?_⟩
      rw [hreleased, hwith]
      exact h

/-! ## Runs -/

/-- A call, with what the ledger notes of it. -/
def track (host : Host V A) [Inhabited A] (s : Runtime V A × Ledger V A) :
    RuntimeOp V A → Runtime V A × Ledger V A
  | .update events target =>
    match (update host events target false).run s.1 with
    | (.ok (.permitted _), rt) => (rt, { s.2 with
        accepted := s.2.accepted ++ (s.1.resolveTargets target events).1
        applied := s.2.applied ++ [s.1.enabled host events target false] })
    | (_, rt) => (rt, s.2)
  | .createPolicy name kind => (((createPolicy name kind).run s.1).2, s.2)
  | .setSchema name columns complete =>
    match (setSchema host name columns complete).run s.1 with
    | (.ok (), rt) =>
      let (events, rt₁) := released host s.1 name columns complete
      (rt, { s.2 with applied := s.2.applied ++ [appliedOf host events rt₁] })
    | (_, rt) => (rt, s.2)
  | .deletePolicy name =>
    match (deletePolicy host name).run s.1 with
    | (.ok (), rt) => (rt, { s.2 with
        dropped := s.2.dropped ++ s.1.disabledEvents.filter (·.target = some name) })
    | (_, rt) => (rt, s.2)

/-- Each event that was accepted waits, was applied, is an error or was dropped, once; events wait, and
are applied by a call, in the order in which they were accepted. -/
structure Conserved (s : Runtime V A × Ledger V A) : Prop where
  once : (s.2.accepted.map (·.key)).Perm ((s.1.disabledEvents ++ s.2.applied.flatten
    ++ s.1.errorEvents.map Prod.fst ++ s.2.dropped).map (·.key))
  waiting : (s.1.disabledEvents.map (·.key)).Sublist (s.2.accepted.map (·.key))
  applied : ∀ events ∈ s.2.applied, (events.map (·.key)).Sublist (s.2.accepted.map (·.key))

/-- A schema that is set agrees with all events whose columns it makes known, and applying them does not
raise. -/
def Agrees (host : Host V A) (s : Runtime V A × Ledger V A) : RuntimeOp V A → Prop
  | .setSchema name columns complete =>
    match (setSchema host name columns complete).run s.1 with
    | (.ok (), _) => (s.1.withSchema name columns complete).ConsistentOnce host.toPlatform
        s.1.disabledEvents
    | (.error _, rt) => rt = s.1
  | _ => True

variable [Inhabited A] {s : Runtime V A × Ledger V A}

/-- Where the same waits, and the ledger notes nothing, events stay conserved. -/
theorem Conserved.of_same (h : Conserved s) (hsame : s.1.SameWaiting rt) : Conserved (rt, s.2) := by
  obtain ⟨hdis, herr⟩ := hsame
  refine ⟨?_, ?_, h.applied⟩
  · dsimp only
    rw [hdis, herr]
    exact h.once
  · dsimp only
    rw [hdis]
    exact h.waiting

theorem Datalog.same_waiting {result : UpdateResult V A} (h : Datalog host rt events result rt') :
    rt.SameWaiting rt' := by
  cases h <;> exact ⟨rfl, rfl⟩

/-- An update that is not permitted leaves alone what waits. -/
theorem update_waiting {target : Option String} {persistent : Bool}
    {result : Except Fault (UpdateResult V A)}
    (h : (Runtime.update host events target persistent).run rt = (result, rt'))
    (hresult : ∀ changes, result ≠ .ok (.permitted changes)) : rt.SameWaiting rt' := by
  unfold Runtime.update at h
  rw [run_get_bind] at h
  rcases htargets : rt.resolveTargets target events with ⟨resolved, errors⟩
  simp only [htargets] at h
  split_ifs at h
  · cases h
    exact .refl _
  · rw [run_get_bind, run_bind, run_lift] at h
    rcases hlimbo : rt.theory.processLimboEvents host.toPlatform persistent resolved with _ | limbo
    · rw [hlimbo] at h
      cases h
      exact .refl _
    · rw [hlimbo] at h
      dsimp only at h
      split_ifs at h
      · cases h
        exact .refl _
      · rw [run_bind] at h
        rcases hrun : (updateObjDatalog host limbo.enabled).run rt with ⟨_ | changes | errors, rt₁⟩
        · rw [hrun] at h
          cases h
          exact updateObjDatalog_keeps.of_run hrun
        · rw [hrun] at h
          cases h
          exact absurd rfl (hresult changes)
        · rw [hrun] at h
          cases h
          exact updateObjDatalog_keeps.of_run hrun

theorem Conserved.update (h : Conserved s) (events : List (AnnotatedEvent V A))
    (target : Option String) : Conserved (track host s (.update events target)) := by
  unfold track
  dsimp only
  rcases hrun : (Runtime.update host events target false).run s.1 with ⟨_ | changes | errors, rt⟩
  · exact h.of_same (update_waiting hrun (by simp))
  · have hup := update_ok hrun
    cases hup with
    | @permitted resolved limbo changes after htargets hlimbo hconsistent hdatalog =>
      obtain ⟨hdis, herr⟩ := hdatalog.same_waiting
      obtain ⟨hperm, hsub, hsub'⟩ := PolicyMap.processLimboEvents_keys hlimbo
        (PolicyMap.consistent_of_limbo hlimbo hconsistent)
      have henabled : s.1.enabled host events target false = limbo.enabled := by
        unfold enabled
        rw [htargets, hlimbo]
      simp only [henabled, htargets, hdis, herr]
      rw [hconsistent] at hperm
      refine ⟨?_, ?_, fun called hcalled => ?_⟩
      · have honce := h.once
        classical
        rw [List.perm_iff_count] at honce hperm ⊢
        intro k
        have hk := honce k
        have hk' := hperm k
        simp only [List.map_append, List.count_append, List.flatten_append, List.flatten_cons,
          List.flatten_nil, List.append_nil, List.map_nil] at hk hk' ⊢
        omega
      · simp only [List.map_append]
        exact h.waiting.append hsub
      · rw [List.map_append]
        rcases List.mem_append.1 hcalled with hcalled | hcalled
        · exact (h.applied called hcalled).trans (List.sublist_append_left ..)
        · rw [List.mem_singleton.1 hcalled]
          exact hsub'.trans (List.sublist_append_right ..)
  · exact h.of_same (update_waiting hrun (by simp))

theorem Conserved.setSchema (h : Conserved s) {name : String}
    {columns : AList fun _ : String => List String} {complete : Bool}
    (hagrees : Agrees host s (.setSchema name columns complete)) :
    Conserved (track host s (.setSchema name columns complete)) := by
  unfold Agrees at hagrees
  unfold track
  dsimp only at hagrees ⊢
  rcases hrun : (Runtime.setSchema host name columns complete).run s.1 with ⟨_ | ⟨⟨⟩⟩, rt⟩
  · rw [hrun] at hagrees
    exact h.of_same (hagrees ▸ .refl _)
  · rw [hrun] at hagrees
    obtain ⟨limbo, hlimbo, hreleased, happly⟩ := setSchema_ok hrun
    obtain ⟨hdis, hsub, rejected, herr, hperm⟩ := applyEnabled_ok happly
    rw [hreleased] at hdis herr hsub hperm ⊢
    dsimp only at hdis herr hsub hperm ⊢
    obtain ⟨hlimbo, hwait, hen⟩ := PolicyMap.processLimboEvents_keys hlimbo hagrees
    refine ⟨?_, ?_, fun called hcalled => ?_⟩
    · have honce := h.once
      have hperm := hperm.map (·.key)
      classical
      dsimp only
      rw [hdis, herr]
      rw [List.perm_iff_count] at honce hlimbo hperm ⊢
      intro k
      have hk := honce k
      have hk' := hlimbo k
      have hk'' := hperm k
      simp only [List.map_append, List.count_append, List.flatten_append, List.flatten_cons,
        List.flatten_nil, List.append_nil] at hk hk' hk'' ⊢
      omega
    · dsimp only
      rw [hdis]
      exact hwait.trans h.waiting
    · rcases List.mem_append.1 hcalled with hcalled | hcalled
      · exact h.applied called hcalled
      · rw [List.mem_singleton.1 hcalled]
        exact ((hsub.map _).trans hen).trans h.waiting

/-- What waits after a policy is deleted is what waited for others. -/
theorem deletePolicy_waiting {name : String} (h : (Runtime.deletePolicy host name).run rt = (.ok (), rt')) :
    rt'.disabledEvents = rt.disabledEvents.filter (·.target ≠ some name)
      ∧ rt'.errorEvents = rt.errorEvents := by
  unfold Runtime.deletePolicy at h
  rw [run_get_bind] at h
  cases hlook : rt.theory.lookup name with
  | none =>
    rw [hlook] at h
    cases h
  | some p =>
    rw [hlook] at h
    obtain ⟨result, rt₁, hupdate, h⟩ := run_bind_ok.1 h
    cases result with
    | rejected => cases h
    | permitted changes =>
      cases h
      have hup := update_ok hupdate
      cases hup with
      | @permitted resolved limbo changes after htargets hlimbo hconsistent hdatalog =>
        obtain ⟨hdis, herr⟩ := hdatalog.same_waiting
        have htarget : ∀ e ∈ resolved, e.target = some name :=
          target_of_resolveTargets htargets fun e he => by
            obtain ⟨f, -, rfl⟩ := List.mem_map.1 he
            rfl
        obtain ⟨-, hsub, -⟩ := PolicyMap.processLimboEvents_keys hlimbo
          (PolicyMap.consistent_of_limbo hlimbo hconsistent)
        refine ⟨?_, herr⟩
        dsimp only
        have hnone : limbo.disabled.filter (·.target ≠ some name) = [] := by
          refine List.filter_eq_nil_iff.2 fun e he => ?_
          obtain ⟨e', he', hkey⟩ := List.mem_map.1 (hsub.subset (List.mem_map_of_mem he))
          have htarget' : e'.target = e.target := (Prod.mk.inj (Prod.mk.inj hkey).2).2
          simp [← htarget', htarget e' he']
        rw [hdis, List.filter_append, hnone, List.append_nil]

theorem Conserved.deletePolicy (h : Conserved s) (name : String) :
    Conserved (track host s (.deletePolicy name)) := by
  unfold track
  dsimp only
  rcases hrun : (Runtime.deletePolicy host name).run s.1 with ⟨_ | ⟨⟨⟩⟩, rt⟩
  · refine h.of_same ?_
    unfold Runtime.deletePolicy at hrun
    rw [run_get_bind] at hrun
    cases hlook : s.1.theory.lookup name with
    | none =>
      rw [hlook] at hrun
      cases hrun
      exact .refl _
    | some p =>
      rw [hlook] at hrun
      dsimp only at hrun
      rw [run_bind] at hrun
      generalize hupdate : (Runtime.update host _ none false).run s.1 = r at hrun
      rcases r with ⟨_ | changes | errors, rt₁⟩
      · cases hrun
        exact update_waiting hupdate (by simp)
      · cases hrun
      · cases hrun
        exact update_waiting hupdate (by simp)
  · obtain ⟨hdis, herr⟩ := deletePolicy_waiting hrun
    refine ⟨?_, ?_, h.applied⟩
    · have honce := h.once
      have hparts := (List.filter_append_perm (·.target = some name) s.1.disabledEvents).map (·.key)
      classical
      dsimp only
      rw [hdis, herr]
      rw [List.perm_iff_count] at honce hparts ⊢
      intro k
      have hk := honce k
      have hk' := hparts k
      simp only [List.map_append, List.count_append, decide_not] at hk hk' ⊢
      omega
    · dsimp only
      rw [hdis]
      exact (List.filter_sublist.map _).trans h.waiting

theorem conserved_init : Conserved ((init, .empty) : Runtime V A × Ledger V A) :=
  ⟨.refl _, .refl _, by simp [Ledger.empty]⟩

/-- The rule `q(x) :- nova:p(c=x)` with more in its body, put into the policy `a`. -/
def waitingRule (body : List (Literal ℕ)) : AnnotatedEvent ℕ Unit :=
  ⟨⟨.rule ⟨⟨⟨none, "q", none⟩, [.variable "x"], false, []⟩, [],
    ⟨⟨some "nova", "p", none⟩, [], false, [(.inr "c", .variable "x")]⟩ :: body⟩, true, some "a"⟩, ()⟩

/-- A schema for the table `p`. -/
def schemaOfP : AList fun _ : String => List String := AList.insert "p" ["c"] ∅

/-- A rule waits for the schema of `nova`. -/
def waitingRun : List (RuntimeOp ℕ Unit) :=
  [.createPolicy "a" .nonrecursive, .createPolicy "nova" .datasource, .update [waitingRule []] none]

/-- The fact `r(1)`, a rule that waits, and the schema that it waits for; the rule uses `r` with two
arguments. -/
def inconsistentRun : List (RuntimeOp ℕ Unit) :=
  [.createPolicy "a" .nonrecursive, .createPolicy "nova" .datasource,
    .update [insertFact "a" "r"] none,
    .update [waitingRule [⟨⟨none, "r", none⟩, [.variable "x", .variable "x"], false, []⟩]] none,
    .setSchema "nova" schemaOfP false]

end Runtime

end Congress
