import Congress.Proofs.Arity
import Congress.Proofs.Undo

/-!
# The dependency graph of what is stored

A rule that is put into a rule set, or taken out of it, is put into the dependency graph or taken out of
it before, and the changes of the graph are undone if there is a cycle then. So in a run of calls whose
events are about different rules the graph always holds exactly what the stored rules account for, and
these are never recursive (`accounts_along`).
-/

namespace Congress

open Lib Lib.Ledger Stateful Relation

set_option linter.unusedSectionVars false

variable {V A α : Type} [DecidableEq V] [DecidableEq α] {pf : Platform V} {r r' : Rule V}
  {name : String}

namespace RuleDependencyGraph

/-- What a formula of a policy accounts for. -/
def contribution (name : String) (formula : Formula V) : NodesEdges :=
  (formulaNodesEdges true Selection.rules formula (some name)).getD ⟨[], [], fun _ => 0⟩

theorem formulaNodesEdges_rules (name : String) (formula : Formula V) :
    formulaNodesEdges true Selection.rules formula (some name) = some (contribution name formula) := by
  cases hatom : formula.isAtomLike <;>
    simp [contribution, formulaNodesEdges, Selection.rules, hatom]

theorem contribution_of_isAtomLike {formula : Formula V} (h : formula.isAtomLike = true) :
    contribution name formula = ⟨[], [], fun _ => 0⟩ := by
  unfold contribution formulaNodesEdges
  dsimp only [Selection.rules]
  rw [if_pos h]
  rfl

theorem contribution_of_rule (h : (Formula.rule r).isAtomLike = false) :
    (contribution name (.rule r)).nodes = (r.heads.flatMap fun head =>
        head.table.globalTablename (some name) :: r.body.map (·.tablename (some name))).dedup
      ∧ (contribution name (.rule r)).edges = (r.heads.flatMap fun head => r.body.map fun l =>
        (head.table.globalTablename (some name), l.tablename (some name), l.negated)).dedup := by
  unfold contribution formulaNodesEdges
  dsimp only [Selection.rules]
  rw [h, if_neg Bool.false_ne_true]
  simp [Formula.heads, Formula.body]

theorem contribution_asRule (name : String) (formula : Formula V) :
    contribution name (.rule formula.asRule) = contribution name formula := by
  cases formula with
  | atom l => rw [contribution_of_isAtomLike rfl, contribution_of_isAtomLike rfl]
  | rule r => rfl

theorem isAtomLike_congr (h : r'.same r = true) :
    (Formula.rule r').isAtomLike = (Formula.rule r).isAtomLike := by
  obtain ⟨hheads, hbody⟩ := Rule.same_iff.1 h
  have hlen := hheads.length_eq
  simp only [Rule.heads, List.length_cons, Nat.add_right_cancel_iff] at hlen
  simp only [Formula.isAtomLike, hbody.isEmpty_eq]
  cases hr : r.moreHeads <;> cases hr' : r'.moreHeads <;> simp_all

/-- Rules that are the same account for the same. -/
theorem contribution_congr (name : String) (h : r'.same r = true) :
    ((contribution name (.rule r')).nodes).Perm (contribution name (.rule r)).nodes
      ∧ ((contribution name (.rule r')).edges).Perm (contribution name (.rule r)).edges := by
  obtain ⟨hheads, hbody⟩ := Rule.same_iff.1 h
  cases hatom : (Formula.rule r).isAtomLike with
  | true =>
    rw [contribution_of_isAtomLike hatom, contribution_of_isAtomLike ((isAtomLike_congr h).trans hatom)]
    exact ⟨.refl _, .refl _⟩
  | false =>
    have hatom' := (isAtomLike_congr h).trans hatom
    rw [(contribution_of_rule hatom).1, (contribution_of_rule hatom).2, (contribution_of_rule hatom').1,
      (contribution_of_rule hatom').2]
    exact ⟨(hheads.flatMap fun head _ => (hbody.map _).cons _).dedup,
      (hheads.flatMap fun head _ => hbody.map _).dedup⟩

/-- The nodes that a rule accounts for. -/
def nodesOf (name : String) (r : Rule V) : Multiset String := (contribution name (.rule r)).nodes

/-- The edges that a rule accounts for. -/
def edgesOf (name : String) (r : Rule V) : Multiset (String × String × Bool) :=
  (contribution name (.rule r)).edges

end RuleDependencyGraph

/-! ## What is put into a rule set -/

/-- What rules account for does not depend on the order of their literals, and a fact accounts for
nothing. -/
structure Accountable (w : String → Rule V → Multiset α) : Prop where
  same : ∀ name (r r' : Rule V), r'.same r = true → w name r' = w name r
  fact : ∀ name (r : Rule V), r.moreHeads = [] → r.body = [] → w name r = 0

namespace RuleDependencyGraph

theorem contribution_fact (h : r.moreHeads = []) (h' : r.body = []) :
    contribution name (.rule r) = ⟨[], [], fun _ => 0⟩ :=
  contribution_of_isAtomLike (by simp [Formula.isAtomLike, h, h'])

theorem accountable_nodesOf : Accountable (V := V) nodesOf where
  same name r r' h := Multiset.coe_eq_coe.2 (contribution_congr name h).1
  fact name r h h' := by
    rw [nodesOf, contribution_fact h h']
    rfl

theorem accountable_edgesOf : Accountable (V := V) edgesOf where
  same name r r' h := Multiset.coe_eq_coe.2 (contribution_congr name h).2
  fact name r h h' := by
    rw [edgesOf, contribution_fact h h']
    rfl

end RuleDependencyGraph

namespace AnnotatedEvent

variable {e e' : AnnotatedEvent V A} {events events' : List (AnnotatedEvent V A)}

/-- What an event says. -/
def statement (pf : Platform V) (e : AnnotatedEvent V A) : Statement V := e.formula.asRule.statement pf

/-- What the events put in and take out. -/
def ledger (w : String → Rule V → Multiset α) (name : String) (events : List (AnnotatedEvent V A)) :
    Lib.Ledger α :=
  events.map fun e => (e.insert, w name e.formula.asRule)

/-- The event as a rule set gets it. -/
def Reordered (reg : BuiltinRegistry V) (e e' : AnnotatedEvent V A) : Prop :=
  ∃ formula, e.formula.reorderForSafety reg = some formula ∧ e' = { e with formula := formula }

theorem Reordered.statement (h : Reordered pf.registry e e') :
    (e'.statement pf).Same (e.statement pf) ∧ e'.insert = e.insert
      ∧ (e.formula.isDatalog = true → e'.formula.isDatalog = true) := by
  obtain ⟨formula, hformula, rfl⟩ := h
  obtain ⟨hchange, hdatalog⟩ := PolicyMap.change_of_reordered pf true hformula
  refine ⟨?_, rfl, hdatalog⟩
  have hon : (e.statement pf) ∈ ((formula.asRule.statement pf).change true).on :=
    hchange ▸ Statement.Same.refl _
  exact hon

theorem Reordered.same (h : Reordered pf.registry e e') :
    e'.formula.asRule.same e.formula.asRule = true := by
  obtain ⟨formula, hformula, rfl⟩ := h
  obtain ⟨hhead, hmore, hbody⟩ := reordered_uses hformula
  rw [Rule.same_iff, Rule.heads, Rule.heads, hhead, hmore]
  exact ⟨.refl _, hbody⟩

theorem exists_of_reordered {reg : BuiltinRegistry V} (h : List.Forall₂ (Reordered reg) events events')
    (he : e' ∈ events') : ∃ e ∈ events, Reordered reg e e' := by
  obtain ⟨i, hi, rfl⟩ := List.mem_iff_getElem.1 he
  have hi' : i < events.length := h.length_eq ▸ hi
  exact ⟨events[i], List.getElem_mem hi', h.get hi' hi⟩

theorem exists_of_reordered_left {reg : BuiltinRegistry V}
    (h : List.Forall₂ (Reordered reg) events events') (he : e ∈ events) :
    ∃ e' ∈ events', Reordered reg e e' := by
  obtain ⟨i, hi, rfl⟩ := List.mem_iff_getElem.1 he
  have hi' : i < events'.length := h.length_eq ▸ hi
  exact ⟨events'[i], List.getElem_mem hi', h.get hi hi'⟩

/-- Reordering leaves the ledger as it is. -/
theorem ledger_congr {w : String → Rule V → Multiset α} (hw : Accountable w)
    (h : List.Forall₂ (Reordered pf.registry) events events') :
    ledger w name events' = ledger w name events := by
  induction h with
  | nil => rfl
  | cons he _ ih =>
    rw [ledger, List.map_cons, he.statement.2.1, hw.same _ _ _ he.same]
    exact congrArg (_ :: ·) ih

end AnnotatedEvent

theorem Formula.moreHeads_of_isDatalog {formula : Formula V} (h : formula.isDatalog = true) :
    formula.asRule.moreHeads = [] := by
  cases formula with
  | atom l => rfl
  | rule r =>
    simp only [Formula.isDatalog, Bool.and_eq_true] at h
    exact List.isEmpty_iff.1 h.1

namespace RuleStore

variable {s : RuleStore V A} {e : AnnotatedEvent V A} {events events' : List (AnnotatedEvent V A)}

def putEvent (pf : Platform V) (s : RuleStore V A) (e : AnnotatedEvent V A) : RuleStore V A :=
  (s.put pf e.formula.asRule e.info e.insert).1

def putAll (pf : Platform V) (s : RuleStore V A) (events : List (AnnotatedEvent V A)) : RuleStore V A :=
  events.foldl (putEvent pf) s

/-- Events none of which is a noop, about different facts and rules. -/
structure Changes (pf : Platform V) (s : RuleStore V A) (events : List (AnnotatedEvent V A)) : Prop where
  datalog : ∀ e ∈ events, e.formula.isDatalog = true
  effective : ∀ e ∈ events, e.insert = true ↔ e.statement pf ∉ s.statements
  distinct : events.Pairwise fun e e' => ¬ (e.statement pf).Same (e'.statement pf)

theorem Changes.tail (h : s.Changes pf (e :: events)) : (s.putEvent pf e).Changes pf events := by
  obtain ⟨he, hevents⟩ := List.forall_mem_cons.1 h.datalog
  obtain ⟨hdistinct, hpairwise⟩ := List.pairwise_cons.1 h.distinct
  refine ⟨hevents, fun e' he' => ?_, hpairwise⟩
  rw [h.effective e' (List.mem_cons_of_mem _ he'), putEvent,
    statements_put fun _ => PolicyMap.negated_of_isDatalog he, Lib.Change.mem_apply]
  have hoff : e'.statement pf ∉ ((e.formula.asRule.statement pf).change e.insert).on := hdistinct e' he'
  simp [hoff]

theorem Changes.reordered (h : s.Changes pf events)
    (hr : List.Forall₂ (AnnotatedEvent.Reordered pf.registry) events events') :
    s.Changes pf events' := by
  refine ⟨fun e' he' => ?_, fun e' he' => ?_, ?_⟩
  · obtain ⟨e, he, hreordered⟩ := AnnotatedEvent.exists_of_reordered hr he'
    exact hreordered.statement.2.2 (h.datalog e he)
  · obtain ⟨e, he, hreordered⟩ := AnnotatedEvent.exists_of_reordered hr he'
    obtain ⟨hsame, hins, -⟩ := hreordered.statement
    rw [hins, h.effective e he, mem_statements_congr hsame]
  · refine List.pairwise_iff_getElem.2 fun i j hi hj hij hsame => ?_
    have hi' : i < events.length := hr.length_eq ▸ hi
    have hj' : j < events.length := hr.length_eq ▸ hj
    obtain ⟨hsi, -⟩ := (hr.get hi' hi).statement
    obtain ⟨hsj, -⟩ := (hr.get hj' hj).statement
    exact List.pairwise_iff_getElem.1 h.distinct i j hi' hj' hij ((hsi.symm.trans hsame).trans hsj)

theorem Changes.filter (h : s.Changes pf events) (p : AnnotatedEvent V A → Bool) :
    s.Changes pf (events.filter p) :=
  ⟨fun e he => h.datalog e (List.mem_of_mem_filter he),
    fun e he => h.effective e (List.mem_of_mem_filter he), h.distinct.filter p⟩

/-- Each event puts in what its rule accounts for, or takes it out. -/
theorem Changes.legal {w : String → Rule V → Multiset α} (hw : Accountable w) :
    ∀ {events : List (AnnotatedEvent V A)} {s : RuleStore V A}, s.Changes pf events →
      Legal (s.weight fun _ => w name) (AnnotatedEvent.ledger w name events)
        ∧ after (s.weight fun _ => w name) (AnnotatedEvent.ledger w name events)
          = (s.putAll pf events).weight fun _ => w name
  | [], _, _ => ⟨trivial, rfl⟩
  | e :: events, s, h => by
    obtain ⟨he, -⟩ := List.forall_mem_cons.1 h.datalog
    have hput : (s.put pf e.formula.asRule e.info e.insert).2 = true :=
      (changed_put pf s e.info e.insert fun _ => PolicyMap.negated_of_isDatalog he).2
        (h.effective e List.mem_cons_self)
    have hweight := weight_put pf s e.info e.insert (r := e.formula.asRule) (w := fun _ => w name)
      (fun r' hr' => hw.same _ _ _ hr') fun hnil => by
        rw [hw.fact _ _ rfl rfl, hw.fact _ _ (Formula.moreHeads_of_isDatalog he) hnil]
    rw [if_pos hput] at hweight
    have ih := Changes.legal hw h.tail
    have hledger : AnnotatedEvent.ledger w name (e :: events)
        = (e.insert, w name e.formula.asRule) :: AnnotatedEvent.ledger w name events := rfl
    rw [hledger]
    cases hins : e.insert with
    | true =>
      rw [hins, if_pos rfl] at hweight
      have hstep : (s.putEvent pf e).weight (fun _ => w name)
          = s.weight (fun _ => w name) + w name e.formula.asRule := by
        rw [putEvent, hins, hweight]
      rw [hstep] at ih
      exact ih
    | false =>
      rw [hins, if_neg Bool.false_ne_true] at hweight
      have hstep : s.weight (fun _ => w name)
          = (s.putEvent pf e).weight (fun _ => w name) + w name e.formula.asRule := by
        rw [putEvent, hins, hweight]
      rw [Legal, after, hstep, add_tsub_cancel_right]
      exact ⟨⟨Multiset.le_add_left .., ih.1⟩, ih.2⟩

/-- What the events take out was there at first. -/
theorem Changes.undoable {w : String → Rule V → Multiset α} (hw : Accountable w)
    (h : s.Changes pf events) :
    Undoable (s.weight fun _ => w name) (AnnotatedEvent.ledger w name events) := by
  refine undoable_of_deletions ?_
  have hdel : (AnnotatedEvent.ledger w name events).deletions
      = AnnotatedEvent.ledger w name (events.filter fun e => !e.insert) := by
    unfold Lib.Ledger.deletions AnnotatedEvent.ledger
    rw [List.filter_map]
    rfl
  rw [hdel]
  exact ((h.filter _).legal hw).1

end RuleStore

/-! ## Where rules are kept -/

namespace RuleStore

variable {s : RuleStore V A} {e : AnnotatedEvent V A} {events : List (AnnotatedEvent V A)}

/-- Each rule is kept at the table of its head, which is its only one, and has a body. -/
def Proper (s : RuleStore V A) : Prop :=
  ∀ key, ∀ r ∈ s.rulesOf key, r.1.head.table.table = key ∧ r.1.body ≠ []
    ∧ (Formula.rule r.1).isDatalog = true

theorem proper_empty : (empty : RuleStore V A).Proper := by
  intro key r hr
  exact absurd hr List.not_mem_nil

theorem asRule_isDatalog {formula : Formula V} (h : formula.isDatalog = true) :
    (Formula.rule formula.asRule).isDatalog = true := by
  cases formula with
  | atom l => simpa [Formula.isDatalog, Formula.asRule] using h
  | rule r => exact h

/-- A rule that is kept after an event was kept before, or is the one that the event puts in. -/
theorem forall_putEvent {P : String → Rule V → Prop} (h : ∀ key, ∀ r ∈ s.rulesOf key, P key r.1)
    (he : e.formula.isDatalog = true)
    (hnew : e.formula.asRule.body ≠ [] → P e.formula.asRule.head.table.table e.formula.asRule) :
    ∀ key, ∀ r ∈ (s.putEvent pf e).rulesOf key, P key r.1 := by
  intro key r hr
  unfold RuleStore.putEvent put at hr
  by_cases hbody : e.formula.asRule.body = []
  · have hsame : ∀ k, (s.putEvent pf e).rulesOf k = s.rulesOf k := by
      intro k
      unfold RuleStore.putEvent put
      cases e.insert with
      | true =>
        simp only [if_true]
        rw [addRule_fact hbody (PolicyMap.negated_of_isDatalog he)]
        exact (addFact_spec ..).1 k
      | false => exact (discardRule_fact pf s _ hbody).1 k
    exact h key r (hsame key ▸ hr)
  · cases hins : e.insert with
    | true =>
      simp only [hins, if_true] at hr
      rw [(addRule_rule pf s _ e.info hbody).2.1] at hr
      split_ifs at hr with hkey
      · rcases List.mem_append.1 hr with hr | hr
        · exact h key r (hkey.1 ▸ hr)
        · obtain rfl := List.mem_singleton.1 hr
          exact hkey.1 ▸ hnew hbody
      · exact h key r hr
    | false =>
      simp only [hins, Bool.false_eq_true, if_false] at hr
      rw [(discardRule_rule pf s _ hbody).2.1] at hr
      split_ifs at hr with hkey
      · exact h key r (hkey ▸ List.mem_of_mem_eraseP hr)
      · exact h key r hr

theorem forall_putAll {P : String → Rule V → Prop} : ∀ {events : List (AnnotatedEvent V A)}
    {s : RuleStore V A}, (∀ key, ∀ r ∈ s.rulesOf key, P key r.1) →
      (∀ e ∈ events, e.formula.isDatalog = true) →
      (∀ e ∈ events, e.formula.asRule.body ≠ [] → P e.formula.asRule.head.table.table e.formula.asRule) →
      ∀ key, ∀ r ∈ (s.putAll pf events).rulesOf key, P key r.1
  | [], _, h, _, _ => h
  | e :: events, s, h, he, hnew => by
    obtain ⟨he, hevents⟩ := List.forall_mem_cons.1 he
    obtain ⟨hnew, hnews⟩ := List.forall_mem_cons.1 hnew
    exact forall_putAll (s := s.putEvent pf e) (forall_putEvent h he hnew) hevents hnews

theorem Proper.putAll (h : s.Proper) (he : ∀ e ∈ events, e.formula.isDatalog = true) :
    (s.putAll pf events).Proper := by
  refine forall_putAll (P := fun key r => r.head.table.table = key ∧ r.body ≠ []
    ∧ (Formula.rule r).isDatalog = true) h he fun e hmem hbody => ?_
  exact ⟨rfl, hbody, asRule_isDatalog (he e hmem)⟩

end RuleStore

namespace PolicyMap

variable {ps ps' : PolicyMap V A} {events events' : List (AnnotatedEvent V A)} {kind : RuleKind}
  {store : RuleStore V A}

/-- An update of a rule set puts in each event as it is reordered. -/
theorem updateRules_putAll : ∀ {events changes : List (AnnotatedEvent V A)} {ps ps' : PolicyMap V A}
    {store : RuleStore V A}, (updateRules pf name events).run ps = (.ok changes, ps') →
      ps.data name = some (.rules kind store) →
      ∃ events', List.Forall₂ (AnnotatedEvent.Reordered pf.registry) events events'
        ∧ ps'.data = Function.update ps.data name (some (.rules kind (store.putAll pf events')))
  | [], _, ps, ps', store, h, hd => by
    cases h
    exact ⟨[], .nil, by rw [RuleStore.putAll, List.foldl_nil, ← hd, Function.update_eq_self]⟩
  | e :: events, changes, ps, ps', store, h, hd => by
    obtain ⟨changed, ps₁, changes', hstep, h', -⟩ := updateRules_cons h
    obtain ⟨kind', store₀, formula, hd', hformula, hdata⟩ := hstep.data
    rw [hd, Option.some.injEq, PolicyData.rules.injEq] at hd'
    obtain ⟨rfl, rfl⟩ := hd'
    obtain ⟨events', hreordered, hdata'⟩ := updateRules_putAll h'
      (by rw [hdata]; exact Function.update_self ..)
    refine ⟨{ e with formula := formula } :: events', .cons ⟨formula, hformula, rfl⟩ hreordered, ?_⟩
    rw [hdata', hdata, Function.update_idem]
    rfl

/-- What all policies account for changes with the rule set of one of them. -/
theorem ledger_putAll {w : String → Rule V → Multiset α} (hw : Accountable w)
    (hd : ps.data name = some (.rules kind store)) (h : store.Changes pf events) :
    Legal (ps.weight fun name _ => w name) (AnnotatedEvent.ledger w name events)
      ∧ Undoable (ps.weight fun name _ => w name) (AnnotatedEvent.ledger w name events)
      ∧ ∀ events' (ps' : PolicyMap V A), store.Changes pf events' →
        AnnotatedEvent.ledger w name events' = AnnotatedEvent.ledger w name events →
        ps'.data = Function.update ps.data name (some (.rules kind (store.putAll pf events'))) →
        after (ps.weight fun name _ => w name) (AnnotatedEvent.ledger w name events)
          = ps'.weight fun name _ => w name := by
  have hle : store.weight (fun _ => w name) ≤ ps.weight fun name _ => w name :=
    le_weight (w := fun name _ => w name) hd
  obtain ⟨rest, hrest⟩ := le_iff_exists_add.1 hle
  obtain ⟨hlegal, hafter⟩ := (h.legal hw).1.add rest
  refine ⟨hrest ▸ hlegal, fun s hs => ?_, fun events' ps' h' hledger hdata => ?_⟩
  · exact (h.undoable hw s hs).trans (Multiset.add_le_add_right hle)
  · have hupdate : (ps'.weight fun name _ => w name) + store.weight (fun _ => w name)
        = (ps.weight fun name _ => w name) + (store.putAll pf events').weight fun _ => w name :=
      weight_update (w := fun name _ => w name) hd hdata
    have hstore : after (store.weight fun _ => w name) (AnnotatedEvent.ledger w name events')
        = (store.putAll pf events').weight fun _ => w name := (h'.legal hw).2
    rw [hledger] at hstore
    rw [hrest, hafter, hstore]
    rw [hrest, add_assoc, add_comm] at hupdate
    rw [add_left_cancel hupdate, add_comm]

end PolicyMap

/-! ## Cycles -/

/-- Whether an operation changes nodes or edges. -/
def GraphOp.Edits {N L : Type*} : GraphOp N L → Prop
  | .addNode _ => True
  | .deleteNode _ => True
  | .addEdge .. => True
  | .deleteEdge .. => True
  | _ => False

theorem NodesEdges.edits_of_mem_ops {ne : NodesEdges} {insert : Bool} {o : GraphOp String Bool}
    (h : o ∈ ne.ops insert) : o.Edits := by
  cases insert with
  | true =>
    rcases List.mem_append.1 h with h | h
    · obtain ⟨v, -, rfl⟩ := List.mem_map.1 h
      trivial
    · obtain ⟨⟨src, dst, label⟩, -, rfl⟩ := List.mem_map.1 h
      trivial
  | false =>
    rcases List.mem_append.1 h with h | h
    · obtain ⟨v, -, rfl⟩ := List.mem_map.1 h
      trivial
    · obtain ⟨⟨src, dst, label⟩, -, rfl⟩ := List.mem_map.1 h
      trivial

namespace BagGraph

variable {N L : Type*} [DecidableEq N] [DecidableEq L] {b : BagGraph N L} {o : GraphOp N L}

theorem cycles_addEdge (b : BagGraph N L) (v₁ v₂ : N) (l : L) :
    (b.step (.addEdge v₁ v₂ l)).graph.cycles = none := by
  show (Graph.addNode (Graph.addNode _ v₁) v₂).cycles = none
  rw [Graph.addNode_cycles, Graph.addNode_cycles]
  rfl

/-- Edits do not make cycles known. -/
theorem cycles_step (ho : o.Edits) (h : b.graph.cycles = none) : (b.step o).graph.cycles = none := by
  match o with
  | .addNode v => exact (Graph.addNode_cycles ..).trans h
  | .deleteNode v => exact (deleteNode_cycles ..).trans h
  | .addEdge v₁ v₂ l => exact cycles_addEdge ..
  | .deleteEdge v₁ v₂ l =>
    simp only [step, deleteEdge]
    have hnodes : ((b.deleteNode v₁).deleteNode v₂).graph.cycles = none := by
      rw [deleteNode_cycles, deleteNode_cycles, h]
    split_ifs
    · exact h
    · unfold Graph.deleteEdge
      split_ifs
      · rfl
      · exact hnodes
    · exact hnodes

/-- After an edge was added, the cycles are not known. -/
theorem cycles_run : ∀ {ops : List (GraphOp N L)} {b : BagGraph N L}, (∀ o ∈ ops, o.Edits) →
    (b.graph.cycles = none ∨ ∃ v₁ v₂ l, .addEdge v₁ v₂ l ∈ ops) →
    (run BagGraph.step b ops).graph.cycles = none
  | [], b, _, h => by simpa using h
  | o :: ops, b, hops, h => by
    obtain ⟨ho, hops⟩ := List.forall_mem_cons.1 hops
    show (run BagGraph.step (b.step o) ops).graph.cycles = none
    refine cycles_run hops ?_
    rcases h with h | ⟨v₁, v₂, l, h⟩
    · exact .inl (cycles_step ho h)
    · rcases List.mem_cons.1 h with rfl | h
      · exact .inl (cycles_addEdge ..)
      · exact .inr ⟨v₁, v₂, l, h⟩

/-- Where the cycles are not known, the answer tells whether there is one. -/
theorem Holds.exact {ns : Multiset N} {es : Multiset (N × N × L)} (h : b.Holds ns es)
    (hcycles : b.graph.cycles = none) : b.graph.Exact := by
  have hsound : b.graph.Sound := by
    refine ⟨fun v w l hw => .inl (h.edge_target (Graph.edge_iff.2 ⟨l, hw⟩)), fun cycles hsome => ?_⟩
    rw [hcycles] at hsome
    cases hsome
  exact hsound.exact

end BagGraph

namespace RuleDependencyGraph

variable {g : RuleDependencyGraph} {ns : Multiset String} {es : Multiset (String × String × Bool)}
  {nes : List (Bool × NodesEdges)}

theorem edits_of_mem {o : GraphOp String Bool} (h : o ∈ nes.flatMap fun c => c.2.ops c.1) : o.Edits := by
  obtain ⟨c, -, ho⟩ := List.mem_flatMap.1 h
  exact NodesEdges.edits_of_mem_ops ho

/-- A batch that accounts for new edges adds one to the graph. -/
theorem exists_addEdge (h : inserted (edgesLedger nes) ≠ 0) :
    ∃ v₁ v₂ l, GraphOp.addEdge v₁ v₂ l ∈ nes.flatMap fun c => c.2.ops c.1 := by
  induction nes with
  | nil => exact absurd rfl h
  | cons c nes ih =>
    obtain ⟨insert, ne⟩ := c
    have hrest : inserted (edgesLedger nes) ≠ 0 → ∃ v₁ v₂ l,
        GraphOp.addEdge v₁ v₂ l ∈ ((insert, ne) :: nes).flatMap fun c => c.2.ops c.1 := by
      intro h
      obtain ⟨v₁, v₂, l, hmem⟩ := ih h
      exact ⟨v₁, v₂, l, List.mem_append_right _ hmem⟩
    cases insert with
    | false => exact hrest h
    | true =>
      by_cases hne : ne.edges = []
      · refine hrest fun h0 => h ?_
        show (ne.edges : Multiset (String × String × Bool)) + inserted (edgesLedger nes) = 0
        rw [hne, h0]
        rfl
      · obtain ⟨⟨v₁, v₂, l⟩, hmem⟩ := List.exists_mem_of_ne_nil _ hne
        refine ⟨v₁, v₂, l, List.mem_append_left _ (List.mem_append_right _ ?_)⟩
        exact List.mem_map.2 ⟨_, hmem, rfl⟩

/-- A batch after which no cycle is found has made none. -/
theorem not_cyclic_of_answer {g' : Graph String Bool} (h : g.bag.Holds ns es)
    (hacyclic : ¬ Cyclic g.bag.graph.Edge) (hn : Legal ns (nodesLedger nes))
    (he : Legal es (edgesLedger nes))
    (hanswer : (applyEvents nes g).1.bag.graph.hasCycle = (g', .ok false)) :
    ¬ Cyclic (applyEvents nes g).1.bag.graph.Edge := by
  have hholds := holds_applied nes h hn he
  rw [← (applyEvents_ops nes g).1] at hholds
  by_cases hins : inserted (edgesLedger nes) = 0
  · refine fun hcyclic => hacyclic (hcyclic.mono fun v w hw => ?_)
    obtain ⟨l, hl⟩ := hholds.edge_iff.1 hw
    exact h.edge_iff.2 ⟨l, Multiset.mem_of_le (after_le hins) hl⟩
  · have hcycles : (applyEvents nes g).1.bag.graph.cycles = none := by
      rw [(applyEvents_ops nes g).1]
      exact BagGraph.cycles_run (fun _ => edits_of_mem) (.inr (exists_addEdge hins))
    obtain ⟨answer, hok, hcyclic⟩ := hholds.exact hcycles
    rw [hanswer, Except.ok.injEq] at hok
    rw [← hcyclic, ← hok]
    exact Bool.false_ne_true

end RuleDependencyGraph

/-! ## Stored rules -/

/-- The contributions to a sum of bags. -/
theorem mem_list_sum {x : α} : ∀ {l : List (Multiset α)}, x ∈ l.sum ↔ ∃ m ∈ l, x ∈ m
  | [] => by simp
  | m :: l => by
    rw [List.sum_cons, Multiset.mem_add, mem_list_sum]
    simp

theorem RuleStore.mem_weight {w : String → Rule V → Multiset α} (hw : Accountable w)
    {s : RuleStore V A} {x : α} : x ∈ s.weight (fun _ => w name)
      ↔ ∃ key, ∃ r ∈ s.rulesOf key, x ∈ w name r.1 := by
  have hfacts : total (fun key fs => (fs.map fun f => w name (factRule key f)).sum) s.facts = 0 := by
    refine List.sum_eq_zero fun m hm => ?_
    obtain ⟨e, -, rfl⟩ := List.mem_map.1 hm
    refine List.sum_eq_zero fun m hm => ?_
    obtain ⟨f, -, rfl⟩ := List.mem_map.1 hm
    exact hw.fact _ _ rfl rfl
  rw [weight, hfacts, zero_add, total, mem_list_sum]
  constructor
  · rintro ⟨m, hm, hx⟩
    obtain ⟨e, he, rfl⟩ := List.mem_map.1 hm
    obtain ⟨m, hm, hx⟩ := mem_list_sum.1 hx
    obtain ⟨r, hr, rfl⟩ := List.mem_map.1 hm
    refine ⟨e.1, r, ?_, hx⟩
    rw [rulesOf, Option.mem_def.1 (AList.mem_lookup_iff.2 he)]
    exact hr
  · rintro ⟨key, r, hr, hx⟩
    unfold rulesOf at hr
    cases hlook : s.rules.lookup key with
    | none =>
      rw [hlook] at hr
      exact absurd hr List.not_mem_nil
    | some rs =>
      rw [hlook] at hr
      exact ⟨_, List.mem_map.2 ⟨_, AList.mem_lookup_iff.1 hlook, rfl⟩,
        mem_list_sum.2 ⟨_, List.mem_map_of_mem hr, hx⟩⟩

namespace PolicyMap

variable {ps ps' : PolicyMap V A} {events effective : List (AnnotatedEvent V A)} {kind : RuleKind}
  {store : RuleStore V A} {a b : String}

/-- A stored rule of a policy. -/
def HasRule (ps : PolicyMap V A) (name : String) (r : Rule V) : Prop :=
  ∃ kind store key info, ps.data name = some (.rules kind store) ∧ (r, info) ∈ store.rulesOf key

theorem mem_weight {w : String → Rule V → Multiset α} (hw : Accountable w) {x : α} :
    x ∈ (ps.weight fun name _ => w name) ↔ ∃ name r, ps.HasRule name r ∧ x ∈ w name r := by
  unfold weight
  rw [Multiset.mem_sum]
  constructor
  · rintro ⟨name, -, hx⟩
    cases hd : ps.data name with
    | none =>
      rw [hd] at hx
      exact absurd hx (Multiset.notMem_zero x)
    | some d =>
      rw [hd] at hx
      cases d with
      | rules kind store =>
        obtain ⟨key, ⟨r, info⟩, hr, hx⟩ := (RuleStore.mem_weight hw).1 hx
        exact ⟨name, r, ⟨kind, store, key, info, hd, hr⟩, hx⟩
      | database => exact absurd hx (Multiset.notMem_zero x)
      | materialized => exact absurd hx (Multiset.notMem_zero x)
  · rintro ⟨name, r, ⟨kind, store, key, info, hd, hr⟩, hx⟩
    refine ⟨name, mem_keys_iff.2 (by rw [hd]; rfl), ?_⟩
    rw [hd]
    exact (RuleStore.mem_weight hw).2 ⟨key, _, hr, hx⟩

/-- The edges of the stored rules. -/
def Edge (ps : PolicyMap V A) (a b : String) : Prop :=
  ∃ name r, ps.HasRule name r ∧ ∃ label, (a, b, label) ∈ RuleDependencyGraph.edgesOf name r

theorem mem_edges_iff : (∃ label, (a, b, label) ∈ ps.weight fun name _ => RuleDependencyGraph.edgesOf name)
    ↔ ps.Edge a b := by
  constructor
  · rintro ⟨label, hl⟩
    obtain ⟨name, r, hr, hl⟩ := (mem_weight RuleDependencyGraph.accountable_edgesOf).1 hl
    exact ⟨name, r, hr, label, hl⟩
  · rintro ⟨name, r, hr, label, hl⟩
    exact ⟨label, (mem_weight RuleDependencyGraph.accountable_edgesOf).2 ⟨name, r, hr, hl⟩⟩

/-- A graph that holds what the stored rules account for has their edges. -/
theorem edge_iff_of_holds {bag : BagGraph String Bool} {ns : Multiset String}
    (h : bag.Holds ns (ps.weight fun name _ => RuleDependencyGraph.edgesOf name)) :
    bag.graph.Edge a b ↔ ps.Edge a b := h.edge_iff.trans mem_edges_iff

/-! ## Events for one policy -/

/-- Events about different facts and rules of one policy, which is no materialized view. -/
structure Orderly (pf : Platform V) (ps : PolicyMap V A) (name : String)
    (events : List (AnnotatedEvent V A)) : Prop where
  target : ∀ e ∈ events, e.target = some name
  stored : ∀ th, ps.data name ≠ some (.materialized th)
  distinct : events.Pairwise fun e e' => ¬ (e.statement pf).Same (e'.statement pf)

theorem targets_eq (hnil : events ≠ []) (h : ∀ e ∈ events, e.target = some name) :
    AnnotatedEvent.targets events = [name] := by
  have hall : ∀ n ∈ AnnotatedEvent.targets events, n = name := by
    intro n hn
    unfold AnnotatedEvent.targets at hn
    rw [List.mem_reverse, List.mem_dedup, List.mem_reverse, List.mem_filterMap] at hn
    obtain ⟨e, he, hn⟩ := hn
    rw [h e he, Option.some.injEq] at hn
    exact hn.symm
  have hmem : name ∈ AnnotatedEvent.targets events := by
    obtain ⟨e, he⟩ := List.exists_mem_of_ne_nil _ hnil
    unfold AnnotatedEvent.targets
    rw [List.mem_reverse, List.mem_dedup, List.mem_reverse, List.mem_filterMap]
    exact ⟨e, he, h e he⟩
  have hnodup : (AnnotatedEvent.targets events).Nodup := AnnotatedEvent.nodup_targets
  cases htargets : AnnotatedEvent.targets events with
  | nil =>
    rw [htargets] at hmem
    exact absurd hmem List.not_mem_nil
  | cons n rest =>
    rw [htargets] at hall hnodup
    obtain ⟨rfl, hrest⟩ := List.forall_mem_cons.1 hall
    cases rest with
    | nil => rfl
    | cons n' rest =>
      obtain rfl := hrest n' List.mem_cons_self
      exact absurd List.mem_cons_self (List.nodup_cons.1 hnodup).1

/-- What comes of one target. -/
theorem updateTargets_one {changes : List (Changed V A)}
    (h : (updateTargets pf [name] events).run ps = (.ok changes, ps')) :
    ∃ changes', (PolicyMap.update pf name events).run ps = (.ok changes', ps') := by
  unfold updateTargets at h
  rw [run_get_bind] at h
  obtain ⟨changes₁, ps₁, h₁, h⟩ := run_bind_ok.1 h
  obtain ⟨rest, ps₂, h₂, h⟩ := run_bind_ok.1 h
  cases h
  cases h₂
  exact ⟨changes₁, h₁⟩

/-- The events that are no noops are changes of the rule set. -/
theorem changes_of_actualEvents (hactual : ps.actualEvents pf events = .ok effective)
    (hdatalog : ∀ e ∈ effective, e.formula.isDatalog = true) (h : Orderly pf ps name effective)
    (hd : ps.data name = some (.rules kind store)) : store.Changes pf effective := by
  refine ⟨hdatalog, fun e he => ?_, h.distinct⟩
  obtain ⟨-, name', p, b, hname, hp, hb, hne⟩ := (mem_actualEvents hactual).1 he
  obtain rfl : name = name' := Option.some.inj ((h.target e he).symm.trans hname)
  have hdata : p.data = .rules kind store := Option.some.inj ((data_of_lookup hp).symm.trans hd)
  have hcontains : store.contains pf e.formula.asRule = b := by
    unfold Policy.contains at hb
    rw [hdata] at hb
    cases hf : e.formula with
    | atom l =>
      rw [hf] at hb
      dsimp only at hb
      split_ifs at hb
      exact Except.ok.inj hb
    | rule r =>
      rw [hf] at hb
      exact Except.ok.inj hb
  have hstated : b = true ↔ e.statement pf ∈ store.statements := by
    rw [← hcontains, RuleStore.contains_iff]
    rfl
  rw [← hstated]
  cases hi : e.insert <;> cases hb' : b <;> simp_all

/-- Events for a database are about atoms. -/
theorem atom_of_checked {db : Database V} (hd : ps.data name = some (.database db))
    (hchecks : ps.errors pf.registry effective (AnnotatedEvent.targets effective) = .ok [])
    (h : Orderly pf ps name effective) : ∀ e ∈ effective, ∃ l, e.formula = .atom l := by
  intro e he
  obtain ⟨p, hp, herrors⟩ := formulaErrors_of_errors hchecks e he name
    (by rw [targets_eq (List.ne_nil_of_mem he) h.target]; exact List.mem_singleton_self _)
    (h.target e he)
  have hdata : p.data = .database db := Option.some.inj ((data_of_lookup hp).symm.trans hd)
  cases hf : e.formula with
  | atom l => exact ⟨l, rfl⟩
  | rule r =>
    unfold Policy.formulaErrors at herrors
    rw [hdata, hf] at herrors
    cases herrors

theorem tuples_modify {db db' : Database V} {e : ProofEvent V} {changes : List (ProofEvent V)}
    {table : String} (h : db.modify e = .ok (db', changes)) (htable : e.formula.asRule.head.table.table ≠ table) :
    db'.tuples table = db.tuples table := by
  unfold Database.modify at h
  cases hf : e.formula with
  | rule r =>
    rw [hf] at h
    cases h
  | atom l =>
    rw [hf] at h htable
    have hne : ¬ table = l.table.table := fun h => htable h.symm
    dsimp only at h
    split_ifs at h
    · cases h
      rfl
    · cases h
      rw [Database.tuples_insertActual, if_neg hne]
    · cases h
      rw [Database.tuples_deleteActual, if_neg hne]

/-- An update of a database leaves the tables that its events are not about. -/
theorem updateDatabase_tuples : ∀ {events changes : List (AnnotatedEvent V A)} {ps ps' : PolicyMap V A}
    {schema : Option Schema} {db : Database V},
    (updateDatabase name schema db events).run ps = (.ok changes, ps') →
      ps.data name = some (.database db) →
      ∃ db', ps'.data = Function.update ps.data name (some (.database db'))
        ∧ ∀ table, (∀ e ∈ events, e.formula.asRule.head.table.table ≠ table) → db'.tuples table = db.tuples table
  | [], _, ps, ps', schema, db, h, hd => by
    cases h
    exact ⟨db, by rw [← hd, Function.update_eq_self], fun _ _ => rfl⟩
  | e :: events, changes, ps, ps', schema, db, h, hd => by
    unfold updateDatabase at h
    rw [run_lift_bind_ok] at h
    obtain ⟨⟨db₁, changes₁⟩, hmod, h⟩ := h
    simp only [run_modify_bind] at h
    obtain ⟨rest, ps₁, h₁, h⟩ := run_bind_ok.1 h
    cases h
    have hdata : data (ps.insert name ⟨.database db₁, schema⟩)
        = Function.update ps.data name (some (.database db₁)) := by
      funext other
      rw [data_insert, Function.update_apply]
    obtain ⟨db', hdata', htuples⟩ := updateDatabase_tuples h₁ (by rw [hdata]; exact Function.update_self ..)
    refine ⟨db', by rw [hdata', hdata, Function.update_idem], fun table htable => ?_⟩
    obtain ⟨he, hevents⟩ := List.forall_mem_cons.1 htable
    rw [htuples table hevents, tuples_modify hmod he]

/-- What an update of one policy does: it puts the events into a rule set, or changes a database. -/
inductive Applied (pf : Platform V) (name : String) (events : List (AnnotatedEvent V A))
    (ps ps' : PolicyMap V A) : Prop
  | rules {kind : RuleKind} {store : RuleStore V A} {events' : List (AnnotatedEvent V A)}
      (before : ps.data name = some (.rules kind store))
      (reordered : List.Forall₂ (AnnotatedEvent.Reordered pf.registry) events events')
      (after : ps'.data = Function.update ps.data name (some (.rules kind (store.putAll pf events'))))
  | database {db db' : Database V} (before : ps.data name = some (.database db))
      (after : ps'.data = Function.update ps.data name (some (.database db')))
      (within : ∀ table, (∀ e ∈ events, e.formula.asRule.head.table.table ≠ table) →
        db'.tuples table = db.tuples table)

theorem applied_of_updateTargets {changes : List (Changed V A)} (hnil : events ≠ []) (h : Orderly pf ps name events)
    (hrun : (updateTargets pf (AnnotatedEvent.targets events) events).run ps = (.ok changes, ps')) :
    Applied pf name events ps ps' := by
  rw [targets_eq hnil h.target] at hrun
  obtain ⟨changes, hrun⟩ := updateTargets_one hrun
  obtain ⟨d, hd⟩ := data_of_update hrun
  obtain ⟨p, hp, rfl⟩ := Option.map_eq_some_iff.1 hd
  unfold PolicyMap.update at hrun
  rw [run_get_bind, hp] at hrun
  dsimp only at hrun
  cases hkind : p.data with
  | rules kind store =>
    simp only [hkind] at hrun
    obtain ⟨changes', ps₁, hrun, hpure⟩ := run_bind_ok.1 hrun
    cases hpure
    obtain ⟨events', hreordered, hdata⟩ := updateRules_putAll hrun (hkind ▸ hd)
    exact .rules (hkind ▸ hd) hreordered hdata
  | database db =>
    simp only [hkind] at hrun
    obtain ⟨changes', ps₁, hrun, hpure⟩ := run_bind_ok.1 hrun
    cases hpure
    obtain ⟨db', hdata, hwithin⟩ := updateDatabase_tuples hrun (hkind ▸ hd)
    exact .database (hkind ▸ hd) hdata hwithin
  | materialized th => exact absurd (hkind ▸ hd) (h.stored th)

/-- What all policies account for after an update is what the ledger of its events says; and the ledger
can be undone. -/
theorem ledger_spec {w : String → Rule V → Multiset α} (hw : Accountable w)
    (hactual : ps.actualEvents pf events = .ok effective) (hnil : effective ≠ [])
    (hchecks : ps.errors pf.registry effective (AnnotatedEvent.targets effective) = .ok [])
    (h : Orderly pf ps name effective) :
    Legal (ps.weight fun name _ => w name) (AnnotatedEvent.ledger w name effective)
      ∧ Undoable (ps.weight fun name _ => w name) (AnnotatedEvent.ledger w name effective)
      ∧ ∀ ps', Applied pf name effective ps ps' →
        after (ps.weight fun name _ => w name) (AnnotatedEvent.ledger w name effective)
          = ps'.weight fun name _ => w name := by
  have hdatalog := isDatalog_of_errors hactual hchecks
  obtain ⟨e, he⟩ := List.exists_mem_of_ne_nil _ hnil
  obtain ⟨-, name', p, b, hname, hp, -⟩ := (mem_actualEvents hactual).1 he
  obtain rfl : name = name' := Option.some.inj ((h.target e he).symm.trans hname)
  have hd : ps.data name = some p.data := data_of_lookup hp
  cases hkind : p.data with
  | rules kind store =>
    rw [hkind] at hd
    have hchanges := changes_of_actualEvents hactual hdatalog h hd
    obtain ⟨hlegal, hundo, hafter⟩ := ledger_putAll hw hd hchanges
    refine ⟨hlegal, hundo, fun ps' happlied => ?_⟩
    cases happlied with
    | rules hbefore hreordered hdata =>
      rw [hd] at hbefore
      cases hbefore
      exact hafter _ _ (hchanges.reordered hreordered) (AnnotatedEvent.ledger_congr hw hreordered) hdata
    | database hbefore =>
      rw [hd] at hbefore
      cases hbefore
  | database db =>
    rw [hkind] at hd
    have hzero : ∀ c ∈ AnnotatedEvent.ledger w name effective, c.2 = 0 := by
      intro c hc
      obtain ⟨e, he, rfl⟩ := List.mem_map.1 hc
      obtain ⟨l, hl⟩ := atom_of_checked hd hchecks h e he
      rw [hl]
      exact hw.fact _ _ rfl rfl
    obtain ⟨hlegal, hafter⟩ := after_of_zero (t := ps.weight fun name _ => w name) hzero
    refine ⟨hlegal, undoable_of_deletions
      (after_of_zero fun c hc => hzero c (List.mem_of_mem_filter hc)).1, fun ps' happlied => ?_⟩
    cases happlied with
    | rules hbefore =>
      rw [hd] at hbefore
      cases hbefore
    | database hbefore hdata =>
      have hweight : (ps'.weight fun name _ => w name) + 0 = (ps.weight fun name _ => w name) + 0 :=
        (weight_update (w := fun name _ => w name) hbefore hdata)
      rw [hafter]
      exact (add_right_cancel hweight).symm
  | materialized th => exact absurd (hkind ▸ hd) (h.stored th)

/-- Every rule set is a proper one. -/
def Proper (ps : PolicyMap V A) : Prop :=
  ∀ name kind store, ps.data name = some (.rules kind store) → store.Proper

theorem Proper.applied (h : ps.Proper) (happlied : Applied pf name events ps ps')
    (hdatalog : ∀ e ∈ events, e.formula.isDatalog = true) : ps'.Proper := by
  intro other kind store hd
  cases happlied with
  | @rules kind' store' events' hbefore hreordered hdata =>
    rw [hdata] at hd
    by_cases ho : other = name
    · subst ho
      rw [Function.update_self] at hd
      cases hd
      refine (h _ _ _ hbefore).putAll fun e' he' => ?_
      obtain ⟨e, he, hre⟩ := AnnotatedEvent.exists_of_reordered hreordered he'
      exact hre.statement.2.2 (hdatalog e he)
    · rw [Function.update_of_ne ho] at hd
      exact h _ _ _ hd
  | database hbefore hdata =>
    rw [hdata] at hd
    by_cases ho : other = name
    · subst ho
      rw [Function.update_self] at hd
      cases hd
    · rw [Function.update_of_ne ho] at hd
      exact h _ _ _ hd

/-- An update of one policy leaves those that keep materialized views. -/
theorem Applied.materialized (h : Applied pf name events ps ps') {other : String}
    {th : MaterializedViewTheory V} (hd : ps'.data other = some (.materialized th)) :
    ps.data other = some (.materialized th) := by
  cases h with
  | rules hbefore hreordered hdata =>
    rw [hdata] at hd
    by_cases ho : other = name
    · subst ho
      rw [Function.update_self] at hd
      cases hd
    · rwa [Function.update_of_ne ho] at hd
  | database hbefore hdata =>
    rw [hdata] at hd
    by_cases ho : other = name
    · subst ho
      rw [Function.update_self] at hd
      cases hd
    · rwa [Function.update_of_ne ho] at hd

end PolicyMap

/-! ## Updates -/

namespace RuleDependencyGraph

theorem contributions_eq {events : List (AnnotatedEvent V A)} (h : ∀ e ∈ events, e.target = some name) :
    contributions true Selection.rules (events.map (·.toEvent))
      = some (events.map fun e => (e.insert, contribution name e.formula)) := by
  induction events with
  | nil => rfl
  | cons e events ih =>
    obtain ⟨he, hevents⟩ := List.forall_mem_cons.1 h
    have hrest := ih hevents
    unfold contributions at hrest ⊢
    rw [List.map_cons, List.mapM_cons, hrest, he, formulaNodesEdges_rules]
    rfl

theorem formulaUpdate_of_target {g : RuleDependencyGraph} {events : List (AnnotatedEvent V A)}
    (hhead : g.headToBody = true) (h : ∀ e ∈ events, e.target = some name) :
    g.formulaUpdate Selection.rules (events.map (·.toEvent))
      = ((applyEvents (events.map fun e => (e.insert, contribution name e.formula)) g).1,
        some (applyEvents (events.map fun e => (e.insert, contribution name e.formula)) g).2) :=
  formulaUpdate_eq _ _ (hhead ▸ contributions_eq h)

theorem nodesLedger_eq (events : List (AnnotatedEvent V A)) :
    nodesLedger (events.map fun e => (e.insert, contribution name e.formula))
      = AnnotatedEvent.ledger nodesOf name events := by
  unfold nodesLedger AnnotatedEvent.ledger nodesOf
  rw [List.map_map]
  exact List.map_congr_left fun e _ => by rw [contribution_asRule]; rfl

theorem edgesLedger_eq (events : List (AnnotatedEvent V A)) :
    edgesLedger (events.map fun e => (e.insert, contribution name e.formula))
      = AnnotatedEvent.ledger edgesOf name events := by
  unfold edgesLedger AnnotatedEvent.ledger edgesOf
  rw [List.map_map]
  exact List.map_congr_left fun e _ => by rw [contribution_asRule]; rfl

end RuleDependencyGraph

namespace Runtime

open RuleDependencyGraph

variable {host : Host V A} {rt rt' : Runtime V A} {events : List (AnnotatedEvent V A)}

/-- The dependency graph holds what the stored rules account for, and these are not recursive. -/
structure Accounts (rt : Runtime V A) : Prop where
  headToBody : rt.globalDependencyGraph.headToBody = true
  holds : rt.globalDependencyGraph.bag.Holds (rt.theory.weight fun name _ => nodesOf name)
    (rt.theory.weight fun name _ => edgesOf name)
  nonrecursive : ¬ Cyclic rt.theory.Edge
  proper : rt.theory.Proper

theorem Accounts.edge_iff (h : rt.Accounts) {a b : String} :
    rt.globalDependencyGraph.bag.graph.Edge a b ↔ rt.theory.Edge a b :=
  PolicyMap.edge_iff_of_holds h.holds

/-- Asking for cycles leaves what the graph holds. -/
theorem holds_of_hasCycle {b : BagGraph String Bool} {ns : Multiset String}
    {es : Multiset (String × String × Bool)} {g : Graph String Bool} {answer : Bool}
    (h : b.Holds ns es) (hanswer : b.graph.hasCycle = (g, .ok answer)) :
    ({ b with graph := g } : BagGraph String Bool).Holds ns es := by
  have hg : g = b.graph.knowCycles.1 := (congrArg Prod.fst hanswer).symm
  subst hg
  exact h.of_graph (Graph.knowCycles_nodes _) (Graph.knowCycles_edges _)

theorem undoChanges_headToBody : ∀ (changes : List Change) (g : RuleDependencyGraph),
    (g.undoChanges changes).headToBody = g.headToBody
  | [], _ => rfl
  | c :: changes, g => by
    refine (undoChanges_headToBody changes (g.undoChange c)).trans ?_
    rcases c with ⟨n, _ | _⟩ | ⟨src, dst, label, _ | _⟩ | ⟨modals, _ | _⟩ <;> rfl

/-- A batch without changes is empty. -/
theorem eq_nil_of_applyEvents {nes : List (Bool × NodesEdges)} {g : RuleDependencyGraph}
    (h : (applyEvents nes g).2 = []) : nes = [] := by
  cases nes with
  | nil => rfl
  | cons c nes =>
    obtain ⟨cs, -, -, hcs⟩ := applyEvent_changes g c.2 c.1
    have hfirst : (g.applyEvent c.2 c.1).2 = [] := (List.append_eq_nil_iff.1 h).1
    rw [hcs] at hfirst
    simp at hfirst

variable {ns : Multiset String} {es : Multiset (String × String × Bool)} {graph : RuleDependencyGraph}
  {effective : List (AnnotatedEvent V A)}

/-- A change of the graph that is kept makes no cycle, and one that is not is undone. -/
theorem GraphStep.holds {b : Bool} (hstep : GraphStep rt effective b graph)
    (hhead : rt.globalDependencyGraph.headToBody = true)
    (hholds : rt.globalDependencyGraph.bag.Holds ns es)
    (hacyclic : ¬ Cyclic rt.globalDependencyGraph.bag.graph.Edge)
    (htarget : ∀ e ∈ effective, e.target = some name)
    (hn : Legal ns (AnnotatedEvent.ledger nodesOf name effective)
      ∧ Undoable ns (AnnotatedEvent.ledger nodesOf name effective))
    (he : Legal es (AnnotatedEvent.ledger edgesOf name effective)
      ∧ Undoable es (AnnotatedEvent.ledger edgesOf name effective)) :
    graph.headToBody = true ∧
      if b then graph.bag.Holds (after ns (AnnotatedEvent.ledger nodesOf name effective))
          (after es (AnnotatedEvent.ledger edgesOf name effective)) ∧ ¬ Cyclic graph.bag.graph.Edge
      else graph.bag.Holds ns es := by
  have hformula := formulaUpdate_of_target hhead htarget
  set nes := effective.map fun e => (e.insert, contribution name e.formula) with hnes
  rw [← nodesLedger_eq, ← hnes] at hn ⊢
  rw [← edgesLedger_eq, ← hnes] at he ⊢
  obtain ⟨hops, hhead'⟩ := applyEvents_ops nes rt.globalDependencyGraph
  rw [hhead] at hhead'
  have happlied := holds_applied nes hholds hn.1 he.1
  rw [← hops] at happlied
  cases hstep with
  | unchanged hupdate =>
    rw [hformula] at hupdate
    obtain ⟨rfl, hchanges⟩ := Prod.mk.inj hupdate
    refine ⟨hhead', happlied, ?_⟩
    rw [eq_nil_of_applyEvents (Option.some.inj hchanges)]
    exact hacyclic
  | acyclic hupdate hchanges hanswer =>
    rw [hformula] at hupdate
    cases hupdate
    have hcyclic := not_cyclic_of_answer hholds hacyclic hn.1 he.1 hanswer
    have hasked := holds_of_hasCycle happlied hanswer
    refine ⟨hhead', hasked, fun hc => hcyclic (hc.mono fun v w hw => ?_)⟩
    obtain ⟨l, hl⟩ := hasked.edge_iff.1 hw
    exact happlied.edge_iff.2 ⟨l, hl⟩
  | cyclic hupdate hchanges hanswer =>
    rw [hformula] at hupdate
    cases hupdate
    refine ⟨(undoChanges_headToBody _ _).trans hhead', ?_⟩
    rw [if_neg Bool.false_ne_true, undoChanges_ops]
    exact holds_undone nes (holds_of_hasCycle happlied hanswer) hn.2 he.2
      (after_add_deleted _ hn.1) (after_add_deleted _ he.1)

/-- An update whose events are about different rules of one policy keeps the graph up to date. -/
theorem Accounts.datalog {result : UpdateResult V A} (h : rt.Accounts)
    (hd : Datalog host rt events result rt')
    (horderly : ∃ name, PolicyMap.Orderly host.toPlatform rt.theory name
      (rt.theory.effective host.toPlatform events)) : rt'.Accounts := by
  obtain ⟨name, horderly⟩ := horderly
  have hacyclic : ¬ Cyclic rt.globalDependencyGraph.bag.graph.Edge :=
    fun hc => h.nonrecursive (hc.mono fun v w hw => h.edge_iff.1 hw)
  have heffective : ∀ effective, rt.theory.actualEvents host.toPlatform events = .ok effective →
      rt.theory.effective host.toPlatform events = effective := by
    intro effective hactual
    rw [PolicyMap.effective, hactual]
  cases hd with
  | noop => exact h
  | errors => exact h
  | @recursive effective graph hactual hchecks hstep =>
    rw [heffective _ hactual] at horderly
    have hnil : effective ≠ [] := by
      rintro rfl
      cases hstep with
      | cyclic hupdate hchanges =>
        cases hupdate
        exact hchanges rfl
    obtain ⟨hn, hnu, -⟩ := PolicyMap.ledger_spec accountable_nodesOf hactual hnil hchecks horderly
    obtain ⟨he, heu, -⟩ := PolicyMap.ledger_spec accountable_edgesOf hactual hnil hchecks horderly
    obtain ⟨hhead, hholds⟩ := hstep.holds h.headToBody h.holds hacyclic horderly.target ⟨hn, hnu⟩ ⟨he, heu⟩
    exact ⟨hhead, hholds, h.nonrecursive, h.proper⟩
  | @permitted effective graph changes ps hactual hnil hchecks hstep happlied =>
    rw [heffective _ hactual] at horderly
    obtain ⟨hn, hnu, hna⟩ := PolicyMap.ledger_spec accountable_nodesOf hactual hnil hchecks horderly
    obtain ⟨he, heu, hea⟩ := PolicyMap.ledger_spec accountable_edgesOf hactual hnil hchecks horderly
    obtain ⟨hhead, hholds, hcyclic⟩ :=
      hstep.holds h.headToBody h.holds hacyclic horderly.target ⟨hn, hnu⟩ ⟨he, heu⟩
    have hdatalog := PolicyMap.isDatalog_of_errors hactual hchecks
    have happlied := PolicyMap.applied_of_updateTargets hnil horderly happlied
    rw [hna _ happlied, hea _ happlied] at hholds
    exact ⟨hhead, hholds, fun hc => hcyclic (hc.mono fun v w hw =>
      (PolicyMap.edge_iff_of_holds hholds).2 hw), h.proper.applied happlied hdatalog⟩

end Runtime

end Congress
