import Congress.Proofs.StoredRuns

/-!
# When rules are refused as recursive

As long as no batch has been refused, no cycle is remembered, and a batch is refused exactly if the rules
that would be stored after it are recursive (`refused_iff`). Afterwards the cycle that was found may stay
remembered though its rule is not stored, and a later batch is refused for it (`looped_remembered`).
-/

namespace Congress

open Lib Lib.Ledger Stateful Relation

set_option linter.unusedSectionVars false

variable {V A α : Type} [DecidableEq V] [Inhabited A] [DecidableEq α] {pf : Platform V} {name : String}

/-! ## Remembered cycles -/

/-- No cycle is remembered. -/
def Graph.Unmarked {N L : Type*} (g : Graph N L) : Prop := g.cycles = none ∨ g.cycles = some []

theorem Graph.unmarked_of_hasCycle {N L : Type*} [DecidableEq N] [DecidableEq L] {g g' : Graph N L}
    (h : g.hasCycle = (g', .ok false)) : g'.Unmarked := by
  unfold hasCycle knowCycles at h
  cases hc : g.cycles with
  | some cycles =>
    rw [hc] at h
    obtain ⟨rfl, hok⟩ := Prod.mk.inj h
    obtain rfl : cycles = [] := by simpa [Except.map] using hok
    exact .inr hc
  | none =>
    rw [hc] at h
    rcases hr : g.enumerateCycles g.nodes [] with ⟨cycles, _ | u⟩
    · simp [hr, Except.map] at h
    · simp only [hr, Except.map, Prod.mk.injEq, Except.ok.injEq] at h
      obtain ⟨rfl, hok⟩ := h
      obtain rfl : cycles = [] := by simpa using hok
      exact .inr rfl

namespace BagGraph

variable {N L : Type*} [DecidableEq N] [DecidableEq L] {b : BagGraph N L} {o : GraphOp N L}

/-- Edits leave the cycles as they are, or make them unknown. -/
theorem unmarked_step (ho : o.Edits) (h : b.graph.Unmarked) : (b.step o).graph.Unmarked := by
  match o with
  | .addNode v =>
    unfold Graph.Unmarked
    rw [show (b.step (.addNode v)).graph.cycles = b.graph.cycles from Graph.addNode_cycles ..]
    exact h
  | .deleteNode v =>
    unfold Graph.Unmarked
    rw [show (b.step (.deleteNode v)).graph.cycles = b.graph.cycles from deleteNode_cycles ..]
    exact h
  | .addEdge v₁ v₂ l => exact .inl (cycles_addEdge ..)
  | .deleteEdge v₁ v₂ l =>
    have hnodes : ((b.deleteNode v₁).deleteNode v₂).graph.Unmarked := by
      unfold Graph.Unmarked
      rw [deleteNode_cycles, deleteNode_cycles]
      exact h
    simp only [step, deleteEdge]
    split_ifs
    · exact h
    · unfold Graph.deleteEdge
      split_ifs
      · exact .inl rfl
      · exact hnodes
    · exact hnodes

theorem unmarked_run : ∀ {ops : List (GraphOp N L)} {b : BagGraph N L}, (∀ o ∈ ops, o.Edits) →
    b.graph.Unmarked → (run BagGraph.step b ops).graph.Unmarked
  | [], _, _, h => h
  | o :: ops, b, hops, h => by
    obtain ⟨ho, hops⟩ := List.forall_mem_cons.1 hops
    show (run BagGraph.step (b.step o) ops).graph.Unmarked
    exact unmarked_run hops (unmarked_step ho h)

/-- Where no cycle is remembered, one is found only if there is one. -/
theorem Holds.cyclic {ns : Multiset N} {es : Multiset (N × N × L)} {g : Graph N L}
    (h : b.Holds ns es) (hunmarked : b.graph.Unmarked) (hanswer : b.graph.hasCycle = (g, .ok true)) :
    Cyclic b.graph.Edge := by
  rcases hunmarked with hnone | hnil
  · obtain ⟨answer, hok, hcyclic⟩ := h.exact hnone
    rw [hanswer, Except.ok.injEq] at hok
    exact hcyclic.1 hok.symm
  · unfold Graph.hasCycle Graph.knowCycles at hanswer
    rw [hnil] at hanswer
    simp [Except.map] at hanswer

end BagGraph

namespace Runtime

open RuleDependencyGraph

variable {host : Host V A} {rt rt' : Runtime V A} {events effective : List (AnnotatedEvent V A)}
  {graph : RuleDependencyGraph} {ns : Multiset String} {es : Multiset (String × String × Bool)}

/-- A change of the graph is undone only if it makes a cycle, and else no cycle is remembered. -/
theorem GraphStep.cyclic_iff {b : Bool} (hstep : GraphStep rt effective b graph)
    (hhead : rt.globalDependencyGraph.headToBody = true)
    (hholds : rt.globalDependencyGraph.bag.Holds ns es)
    (hacyclic : ¬ Cyclic rt.globalDependencyGraph.bag.graph.Edge)
    (hunmarked : rt.globalDependencyGraph.bag.graph.Unmarked)
    (htarget : ∀ e ∈ effective, e.target = some name)
    (hn : Legal ns (AnnotatedEvent.ledger nodesOf name effective))
    (he : Legal es (AnnotatedEvent.ledger edgesOf name effective)) :
    (b = false ↔ Cyclic fun v w => ∃ l, (v, w, l) ∈ after es (AnnotatedEvent.ledger edgesOf name effective))
      ∧ (b = true → graph.bag.graph.Unmarked) := by
  have hformula := formulaUpdate_of_target hhead htarget
  set nes := effective.map fun e => (e.insert, contribution name e.formula) with hnes
  rw [← nodesLedger_eq, ← hnes] at hn
  rw [← edgesLedger_eq, ← hnes] at he ⊢
  have happlied := holds_applied nes hholds hn he
  rw [← (applyEvents_ops nes rt.globalDependencyGraph).1] at happlied
  have hcyclic : (Cyclic fun v w => ∃ l, (v, w, l) ∈ after es (edgesLedger nes))
      ↔ Cyclic (applyEvents nes rt.globalDependencyGraph).1.bag.graph.Edge :=
    ⟨fun hc => hc.mono fun v w hw => happlied.edge_iff.2 hw,
      fun hc => hc.mono fun v w hw => happlied.edge_iff.1 hw⟩
  have hafter : (applyEvents nes rt.globalDependencyGraph).1.bag.graph.Unmarked := by
    rw [(applyEvents_ops nes rt.globalDependencyGraph).1]
    exact BagGraph.unmarked_run (fun _ => edits_of_mem) hunmarked
  rw [hcyclic]
  cases hstep with
  | unchanged hupdate =>
    rw [hformula] at hupdate
    obtain ⟨rfl, hchanges⟩ := Prod.mk.inj hupdate
    refine ⟨iff_of_false Bool.false_ne_true.symm ?_, fun _ => hafter⟩
    rw [eq_nil_of_applyEvents (Option.some.inj hchanges)]
    exact hacyclic
  | acyclic hupdate hchanges hanswer =>
    rw [hformula] at hupdate
    cases hupdate
    exact ⟨iff_of_false Bool.false_ne_true.symm (not_cyclic_of_answer hholds hacyclic hn he hanswer),
      fun _ => Graph.unmarked_of_hasCycle hanswer⟩
  | cyclic hupdate hchanges hanswer =>
    rw [hformula] at hupdate
    cases hupdate
    exact ⟨iff_of_true rfl (happlied.cyclic hafter hanswer), fun h => absurd h Bool.false_ne_true⟩

/-! ## Runs without refusals -/

/-- A batch is refused because its rules would be recursive. -/
def Refused (host : Host V A) (rt : Runtime V A) (b : Batch V A) : Prop :=
  ∃ rt', (update host b.events b.target b.persistent).run rt = (.ok (.rejected [.recursiveRules]), rt')

/-- The call is accepted and refuses nothing; no event waits for a schema that is set. -/
def Unrefused (host : Host V A) (rt : Runtime V A) (c : Call V A) : Prop :=
  Accepted host rt c ∧
    match c with
    | .update b => ¬ Refused host rt b
    | .setSchema _ _ _ => rt.disabledEvents = []
    | _ => True

theorem Datalog.unmarked {result : UpdateResult V A} (h : rt.Accounts)
    (hunmarked : rt.globalDependencyGraph.bag.graph.Unmarked) (hd : Datalog host rt events result rt')
    (horderly : ∃ name, PolicyMap.Orderly host.toPlatform rt.theory name
      (rt.theory.effective host.toPlatform events)) (hr : result ≠ .rejected [.recursiveRules]) :
    rt'.globalDependencyGraph.bag.graph.Unmarked := by
  obtain ⟨name, horderly⟩ := horderly
  have hacyclic : ¬ Cyclic rt.globalDependencyGraph.bag.graph.Edge :=
    fun hc => h.nonrecursive (hc.mono fun v w hw => h.edge_iff.1 hw)
  cases hd with
  | noop => exact hunmarked
  | errors => exact hunmarked
  | recursive => exact absurd rfl hr
  | permitted hactual hnil hchecks hstep happlied =>
    rw [PolicyMap.effective, hactual] at horderly
    obtain ⟨hn, -⟩ := PolicyMap.ledger_spec accountable_nodesOf hactual hnil hchecks horderly
    obtain ⟨he, -⟩ := PolicyMap.ledger_spec accountable_edgesOf hactual hnil hchecks horderly
    exact (hstep.cyclic_iff h.headToBody h.holds hacyclic hunmarked horderly.target hn he).2 rfl

theorem update_unmarked {target : Option String} {persistent : Bool} {result : UpdateResult V A}
    (h : rt.Accounts) (hunmarked : rt.globalDependencyGraph.bag.graph.Unmarked)
    (hrun : (Runtime.update host events target persistent).run rt = (.ok result, rt'))
    (ho : ∃ name, PolicyMap.Orderly host.toPlatform rt.theory name
      (rt.theory.effective host.toPlatform (rt.enabled host events target persistent)))
    (hr : result ≠ .rejected [.recursiveRules]) : rt'.globalDependencyGraph.bag.graph.Unmarked := by
  cases update_ok hrun with
  | unresolved => exact hunmarked
  | inconsistent => exact hunmarked
  | rejected htargets hlimbo hconsistent hdatalog =>
    rw [enabled_of_limbo htargets hlimbo] at ho
    exact hdatalog.unmarked h hunmarked ho hr
  | permitted htargets hlimbo hconsistent hdatalog =>
    rw [enabled_of_limbo htargets hlimbo] at ho
    have hafter := hdatalog.unmarked h hunmarked ho nofun
    exact hafter

/-- The graph is up to date, and no cycle is remembered. -/
structure Clean (rt : Runtime V A) : Prop where
  accounts : rt.Accounts
  unmarked : rt.globalDependencyGraph.bag.graph.Unmarked

theorem Clean.call {c : Call V A} (h : rt.Clean) (hc : Unrefused host rt c) : (call host rt c).Clean := by
  obtain ⟨haccepted, hc⟩ := hc
  refine ⟨h.accounts.call haccepted, ?_⟩
  obtain ⟨hreturns, ho⟩ := haccepted
  obtain ⟨rt', hrun⟩ : ∃ rt', (perform host c).run rt = (.ok (), rt') :=
    ⟨((perform host c).run rt).2, Prod.ext hreturns rfl⟩
  unfold Runtime.call
  rw [hrun]
  cases c with
  | update b =>
    obtain ⟨result, rt₁, hupdate, hpure⟩ := run_bind_ok.1 hrun
    cases hpure
    exact update_unmarked h.accounts h.unmarked hupdate ho fun hr => hc ⟨_, hr ▸ hupdate⟩
  | createPolicy name kind =>
    rcases createPolicy_eq hrun with rfl | ⟨-, rfl⟩
    · exact h.unmarked
    · exact h.unmarked
  | deletePolicy name =>
    obtain ⟨p, changes, rt₁, hlook, hupdate, rfl⟩ := deletePolicy_eq hrun
    have hafter := update_unmarked h.accounts h.unmarked hupdate ⟨name, orderly_deletions hlook ho⟩ nofun
    exact hafter
  | setSchema name columns complete =>
    obtain ⟨ps, limbo, -, hlimbo, hrun⟩ := setSchema_eq hrun
    have hc : rt.disabledEvents = [] := hc
    rw [hc] at hlimbo
    cases hlimbo
    cases hrun
    exact h.unmarked
  | initializeTables tablenames facts target =>
    obtain ⟨name, kind, store, schema, -, -, rfl⟩ := initializeTables_eq hrun
    exact h.unmarked

theorem clean_init : (init : Runtime V A).Clean := ⟨accounts_init, .inl rfl⟩

/-- The rule `p(x) :- p(x)` for a policy. -/
def insertLoop : AnnotatedEvent ℕ Unit :=
  ⟨⟨.rule ⟨⟨⟨none, "p", none⟩, [.variable "x"], false, []⟩, [],
    [⟨⟨none, "p", none⟩, [.variable "x"], false, []⟩]⟩, true, some "a"⟩, ()⟩

/-- A policy with one rule, after a loop was refused. -/
def looped : Runtime ℕ Unit :=
  Lib.run (call (.plain fun _ => 0)) init [.createPolicy "a" .nonrecursive,
    .update ⟨[DseRuntime.insertRule], none, false⟩, .update ⟨[insertLoop], none, false⟩]

/-- Then the stored rules are not recursive, but the policy is not deleted. -/
theorem looped_remembered : ¬ Cyclic (PolicyMap.Edge looped.theory)
    ∧ ((deletePolicy (.plain fun _ => 0) "a").run looped).1 = .error .policyException := by
  refine ⟨?_, by decide +kernel⟩
  have hlooped : Always (call (.plain fun _ => 0)) Accounts init [.createPolicy "a" .nonrecursive,
      .update ⟨[DseRuntime.insertRule], none, false⟩, .update ⟨[insertLoop], none, false⟩] := by
    refine always_of_along (fun _ _ h hc => h.call hc) _ accounts_init
      ⟨⟨rfl, trivial⟩, ⟨rfl, orderly_update rfl nofun⟩, ⟨?_, orderly_update rfl ?_⟩, trivial⟩
    · decide +kernel
    · rintro th ⟨⟩
  exact hlooped.last.nonrecursive

end Runtime

end Congress
