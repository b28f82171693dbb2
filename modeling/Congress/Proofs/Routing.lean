import Congress.Proofs.RuntimeCalls

/-!
# Where the events of a batch go

All events that are no noops go to every policy that one of them is for, so what a policy states
after an update is what all of these events leave (`updateTargets_statements`).
-/

namespace Congress

open Lib Stateful

set_option linter.unusedSectionVars false

variable {V A : Type} [DecidableEq V] {pf : Platform V} {host : Host V A} {rt rt' : Runtime V A}
  {ps ps' : PolicyMap V A} {names : List String} {name : String} {e : AnnotatedEvent V A}
  {events received : List (AnnotatedEvent V A)} {target : Option String} {persistent : Bool}

theorem AnnotatedEvent.isDatalog_withoutSelfJoins :
    e.withoutSelfJoins.formula.isDatalog = e.formula.isDatalog := by
  unfold withoutSelfJoins
  dsimp only
  cases e.formula <;> rfl

theorem AnnotatedEvent.isDatalog_leftBy {d : Option (PolicyData V A)}
    (h : ∀ e ∈ events, e.formula.isDatalog = true) :
    ∀ e ∈ leftBy d events, e.formula.isDatalog = true := by
  unfold leftBy
  split
  · intro e he
    obtain ⟨e', he', rfl⟩ := List.mem_map.1 he
    rw [isDatalog_withoutSelfJoins]
    exact h e' he'
  · exact h

theorem AnnotatedEvent.nodup_targets : (targets events).Nodup :=
  List.nodup_reverse.2 (List.nodup_dedup _)

namespace PolicyMap

/-- What comes to a target depends on what kind of policies the targets before it are. -/
theorem received_congr : ∀ {names : List String} {events : List (AnnotatedEvent V A)},
    (∀ name ∈ names, ps'.data name = ps.data name) → ps'.received names events = ps.received names events
  | [], _, _ => rfl
  | name :: names, events, h => by
    obtain ⟨hname, hnames⟩ := List.forall_mem_cons.1 h
    rw [received, received, hname, received_congr hnames]

theorem received_names : ∀ {names : List String} {events : List (AnnotatedEvent V A)},
    (ps.received names events).map Prod.fst = names
  | [], _ => rfl
  | name :: names, events => by rw [received, List.map_cons, received_names]

/-- Only a policy that there is can be updated. -/
theorem data_of_update {changes : List (Changed V A)}
    (h : (PolicyMap.update pf name events).run ps = (.ok changes, ps')) : ∃ d, ps.data name = some d := by
  unfold PolicyMap.update at h
  rw [run_get_bind] at h
  cases hp : ps.lookup name with
  | none =>
    rw [hp] at h
    cases h
  | some p => exact ⟨_, data_of_lookup hp⟩

/-- The events come to every target, so each policy states what they leave. -/
theorem updateTargets_statements : ∀ {names : List String} {events : List (AnnotatedEvent V A)}
    {ps ps' : PolicyMap V A} {changes : List (Changed V A)},
    (updateTargets pf names events).run ps = (.ok changes, ps') → names.Nodup →
      (∀ e ∈ events, e.formula.isDatalog = true) →
      (∀ name ∉ names, ps'.data name = ps.data name)
        ∧ ∀ name received, (name, received) ∈ ps.received names events →
          ∃ d d', ps.data name = some d ∧ ps'.data name = some d' ∧ ∀ D, d.defined received ⊆ D →
            d'.statements D = applyAll (d.statements D)
              ((d.pending ++ received.flatMap (d.changes pf)).map (·.sparing (d.fixed D)))
  | [], events, ps, ps', changes, h, _, _ => by
    cases h
    exact ⟨fun _ _ => rfl, by simp [received]⟩
  | name :: names, events, ps, ps', changes, h, hnodup, hdatalog => by
    obtain ⟨hname, hnodup⟩ := List.nodup_cons.1 hnodup
    unfold updateTargets at h
    rw [run_get_bind] at h
    obtain ⟨changes₁, ps₁, h₁, h⟩ := run_bind_ok.1 h
    obtain ⟨rest, ps₂, h₂, h⟩ := run_bind_ok.1 h
    cases h
    obtain ⟨d, hd⟩ := data_of_update h₁
    obtain ⟨d', hdata, hst⟩ := update_statements h₁ hdatalog hd
    obtain ⟨hother, hreceived⟩ := updateTargets_statements h₂ hnodup
      (AnnotatedEvent.isDatalog_leftBy hdatalog)
    have hsame : ∀ n, n ≠ name → ps₁.data n = ps.data n := fun n hn => by
      rw [hdata, Function.update_of_ne hn]
    refine ⟨fun n hn => ?_, fun n received hmem => ?_⟩
    · obtain ⟨hne, hn⟩ := not_or.1 (List.mem_cons.not.1 hn)
      rw [hother n hn, hsame n hne]
    · rw [PolicyMap.received] at hmem
      rcases List.mem_cons.1 hmem with heq | hmem
      · cases heq
        exact ⟨d, d', hd, by rw [hother name hname, hdata, Function.update_self], hst⟩
      · have hn : n ∈ names := by
          have := List.mem_map_of_mem (f := Prod.fst) hmem
          rwa [received_names] at this
        have hne : n ≠ name := fun h => hname (h ▸ hn)
        rw [← received_congr fun n hn => hsame n fun h => hname (h ▸ hn)] at hmem
        obtain ⟨d₁, d₁', hd₁, hd₁', hst₁⟩ := hreceived n received hmem
        exact ⟨d₁, d₁', by rw [← hsame n hne, hd₁], hd₁', hst₁⟩

end PolicyMap

theorem PolicyData.defined_mono {d : PolicyData V A} {events' : List (AnnotatedEvent V A)}
    (h : ∀ e ∈ events, e ∈ events') : d.defined events ⊆ d.defined events' := by
  unfold defined
  split
  · refine Set.union_subset_union_right _ ?_
    rintro table ⟨e, he, r, hr, r', hr', rfl⟩
    exact ⟨e, h e he, r, hr, r', hr', rfl⟩
  · exact subset_rfl

namespace PolicyMap

/-- The events that are no noops. -/
def effective (pf : Platform V) (ps : PolicyMap V A) (events : List (AnnotatedEvent V A)) :
    List (AnnotatedEvent V A) :=
  match ps.actualEvents pf events with
  | .ok effective => effective
  | .error _ => []

/-- All that comes to some policy. -/
def arrivals (pf : Platform V) (ps : PolicyMap V A) (events : List (AnnotatedEvent V A)) :
    List (String × List (AnnotatedEvent V A)) :=
  ps.received (AnnotatedEvent.targets (ps.effective pf events)) (ps.effective pf events)

/-- The tables that rules define, before the events or by one of them. -/
def definedBy (pf : Platform V) (ps : PolicyMap V A) (events : List (AnnotatedEvent V A))
    (d : PolicyData V A) : Set String :=
  d.defined (events ++ (ps.arrivals pf events).flatMap (·.2))

/-- What the events for a policy say of it. -/
def own (pf : Platform V) (ps : PolicyMap V A) (events : List (AnnotatedEvent V A)) (name : String)
    (d : PolicyData V A) : List (Lib.Change (Statement V)) :=
  ((events.filter (·.target = some name)).flatMap (d.changes pf)).map
    (·.sparing (factsIn (ps.definedBy pf events d)))

/-- What all that comes to a policy says of it, as far as it can be done. -/
def arriving (pf : Platform V) (ps : PolicyMap V A) (events : List (AnnotatedEvent V A)) (name : String)
    (d : PolicyData V A) : List (Lib.Change (Statement V)) :=
  match (ps.arrivals pf events).lookup name with
  | none => []
  | some received => (d.pending ++ received.flatMap (d.changes pf)).map
      (·.sparing (d.fixed (ps.definedBy pf events d)))

/-- Every policy states what it stated before, changed by the events for it, in order. -/
def Routed (pf : Platform V) (ps ps' : PolicyMap V A) (events : List (AnnotatedEvent V A)) : Prop :=
  ∀ name d, ps.data name = some d → ∃ d', ps'.data name = some d'
    ∧ d'.statements (ps.definedBy pf events d)
      = applyAll (d.statements (ps.definedBy pf events d)) (ps.own pf events name d)

end PolicyMap

namespace Runtime

/-- The events of a batch whose columns are known. -/
def enabled (host : Host V A) (rt : Runtime V A) (events : List (AnnotatedEvent V A))
    (target : Option String) (persistent : Bool) : List (AnnotatedEvent V A) :=
  match rt.theory.processLimboEvents host.toPlatform persistent (rt.resolveTargets target events).1 with
  | .ok limbo => limbo.enabled
  | .error _ => []

/-- What a policy states after an update that was permitted. -/
theorem arriving_statements {changes : List (PolicyMap.Changed V A)}
    (h : Datalog host rt events (.permitted changes) rt') {d : PolicyData V A}
    (hd : rt.theory.data name = some d) :
    ∃ d', rt'.theory.data name = some d'
      ∧ d'.statements (rt.theory.definedBy host.toPlatform events d)
        = applyAll (d.statements (rt.theory.definedBy host.toPlatform events d))
          (rt.theory.arriving host.toPlatform events name d) := by
  have hnone : ∀ effective, rt.theory.actualEvents host.toPlatform events = .ok effective →
      rt.theory.arrivals host.toPlatform events
        = rt.theory.received (AnnotatedEvent.targets effective) effective := by
    intro effective heff
    rw [PolicyMap.arrivals, PolicyMap.effective, heff]
  have hrefl : rt.theory.arriving host.toPlatform events name d = [] →
      d.statements (rt.theory.definedBy host.toPlatform events d)
        = applyAll (d.statements (rt.theory.definedBy host.toPlatform events d))
          (rt.theory.arriving host.toPlatform events name d) := by
    intro hnil
    rw [hnil]
    rfl
  cases h with
  | noop hactual =>
    refine ⟨d, hd, hrefl ?_⟩
    rw [PolicyMap.arriving, hnone _ hactual]
    rfl
  | @permitted effective graph changes ps hactual hnil hchecks hstep happlied =>
    obtain ⟨hother, hreceived⟩ := PolicyMap.updateTargets_statements happlied
      AnnotatedEvent.nodup_targets (PolicyMap.isDatalog_of_errors hactual hchecks)
    cases hlook : (rt.theory.arrivals host.toPlatform events).lookup name with
    | none =>
      have hname : name ∉ AnnotatedEvent.targets effective := by
        intro hmem
        have hnames : ((rt.theory.arrivals host.toPlatform events).map Prod.fst)
            = AnnotatedEvent.targets effective := by
          rw [hnone _ hactual, PolicyMap.received_names]
        rw [List.lookup_eq_none_iff] at hlook
        obtain ⟨p, hp, hpn⟩ := List.mem_map.1 (hnames ▸ hmem)
        simpa [hpn] using hlook p hp
      refine ⟨d, by rw [hother name hname, hd], hrefl ?_⟩
      rw [PolicyMap.arriving, hlook]
    | some received =>
      have hmem : (name, received) ∈ rt.theory.arrivals host.toPlatform events := by
        obtain ⟨l₁, l₂, hl, -⟩ := List.lookup_eq_some_iff.1 hlook
        rw [hl]
        simp
      obtain ⟨d₁, d', hd₁, hd', hst⟩ := hreceived name received (hnone _ hactual ▸ hmem)
      obtain rfl : d = d₁ := Option.some.inj (hd.symm.trans hd₁)
      refine ⟨d', hd', ?_⟩
      rw [PolicyMap.arriving, hlook]
      refine hst _ (PolicyData.defined_mono fun e he => List.mem_append_right _ ?_)
      exact List.mem_flatMap.2 ⟨_, hmem, he⟩

/-- Two policies without rules. -/
def twoPolicies : Runtime ℕ Unit :=
  { init with theory := (AList.insert "a" (newPolicy "a" .nonrecursive)
      (AList.insert "b" (newPolicy "b" .nonrecursive) ∅)) }

def insertFact (target table : String) : AnnotatedEvent ℕ Unit :=
  ⟨⟨.atom ⟨⟨none, table, none⟩, [.object 1], false, []⟩, true, some target⟩, ()⟩

theorem lookup_twoPolicies {d : PolicyData ℕ Unit} (h : twoPolicies.theory.data name = some d) :
    (name = "a" ∨ name = "b") ∧ d = .rules .nonrecursive .empty := by
  by_cases ha : name = "a"
  · subst ha
    cases h
    exact ⟨.inl rfl, rfl⟩
  · by_cases hb : name = "b"
    · subst hb
      cases h
      exact ⟨.inr rfl, rfl⟩
    · have hnone : twoPolicies.theory.lookup name = none := by
        show AList.lookup name (AList.insert "a" _ (AList.insert "b" _ ∅)) = none
        rw [AList.lookup_insert_ne ha, AList.lookup_insert_ne hb]
        rfl
      rw [PolicyMap.data, hnone] at h
      cases h

end Runtime

end Congress
