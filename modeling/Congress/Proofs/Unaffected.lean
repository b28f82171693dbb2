import Congress.Proofs.Locality
import Congress.Proofs.StoredGraph

/-!
# Queries that an update does not affect

An update changes the facts of some tables of one policy and puts rules with some heads into it. For other
tables and heads the policy has the same clauses (`SameFor`), and a query that never comes to them returns
the same (`Unaffected.select`).
-/

namespace Congress

open Lib Stateful

set_option linter.unusedSectionVars false

variable {V A : Type} [DecidableEq V] {pf : Platform V} {name : String} {t : Tablename}

/-! ## Rule sets -/

/-- The event is not about the clauses that a literal of policy `name` may be unified with. -/
structure AnnotatedEvent.Misses (name : String) (t : Tablename) (e : AnnotatedEvent V A) : Prop where
  fact : e.formula.asRule.body = [] → e.formula.asRule.head.table.table ≠ t.table
  rule : e.formula.asRule.body ≠ [] → e.formula.asRule.head.table.same t (some name) = false

theorem AnnotatedEvent.Misses.reordered {e e' : AnnotatedEvent V A} (h : e.Misses name t)
    (he : e.Reordered pf.registry e') : e'.Misses name t := by
  obtain ⟨formula, hformula, rfl⟩ := he
  obtain ⟨hhead, -, hbody⟩ := reordered_uses hformula
  have hnil : formula.asRule.body = [] ↔ e.formula.asRule.body = [] :=
    ⟨fun h => List.nil_perm.1 (h ▸ hbody), fun h => List.perm_nil.1 (h ▸ hbody)⟩
  refine ⟨fun hfact => ?_, fun hrule => ?_⟩
  · show formula.asRule.head.table.table ≠ _
    rw [hhead]
    exact h.fact (hnil.1 hfact)
  · show formula.asRule.head.table.same _ _ = _
    rw [hhead]
    exact h.rule (mt hnil.2 hrule)

theorem filter_eraseP_of_false {α : Type*} {p q : α → Bool} (h : ∀ a, p a = true → q a = false) :
    ∀ l : List α, (l.eraseP p).filter q = l.filter q
  | [] => rfl
  | a :: l => by
    rw [List.eraseP_cons]
    cases hp : p a with
    | true =>
      rw [cond_true, List.filter_cons_of_neg (by simp [h a hp])]
    | false =>
      rw [cond_false, List.filter_cons, List.filter_cons, filter_eraseP_of_false h l]

theorem Rule.head_of_same {r r' : Rule V} (h : r'.same r = true) (hr : r.moreHeads = []) :
    r'.head = r.head := by
  obtain ⟨hheads, -⟩ := Rule.same_iff.1 h
  rw [Rule.heads, Rule.heads, hr] at hheads
  exact (List.cons.inj (List.perm_singleton.1 hheads)).1

namespace RuleStore

variable {s s' : RuleStore V A} {e : AnnotatedEvent V A} {events : List (AnnotatedEvent V A)}

/-- The table has the same facts, and the same rules that a literal of policy `name` may be unified with. -/
structure SameFor (name : String) (t : Tablename) (s s' : RuleStore V A) : Prop where
  facts : s'.factsOf t.table = s.factsOf t.table
  rules : ∀ n, (s'.rulesOf t.table).filter (fun r => Clause.matches name t n (.rule r.1))
    = (s.rulesOf t.table).filter fun r => Clause.matches name t n (.rule r.1)

theorem SameFor.refl (s : RuleStore V A) : SameFor name t s s := ⟨rfl, fun _ => rfl⟩

theorem SameFor.trans {s'' : RuleStore V A} (h : SameFor name t s s') (h' : SameFor name t s' s'') :
    SameFor name t s s'' := ⟨h'.facts.trans h.facts, fun n => (h'.rules n).trans (h.rules n)⟩

theorem matches_eq_false {r : Rule V} (n : ℕ) (h : r.head.table.same t (some name) = false) :
    Clause.matches name t n (.rule r) = false := by
  show (r.head.table.same t (some name) && _) = false
  rw [h, Bool.false_and]

theorem sameFor_putEvent (h : e.Misses name t) (he : e.formula.isDatalog = true) :
    SameFor name t s (s.putEvent pf e) := by
  unfold RuleStore.putEvent put
  by_cases hbody : e.formula.asRule.body = []
  · have hkey := (h.fact hbody).symm
    cases e.insert with
    | true =>
      simp only [if_true]
      rw [addRule_fact hbody (PolicyMap.negated_of_isDatalog he)]
      obtain ⟨hrules, hfacts, -⟩ := addFact_spec s e.formula.asRule.head.table.table
        (pf.factValues e.formula.asRule.head)
      exact ⟨by rw [hfacts, if_neg fun h => hkey h.1], fun n => by rw [hrules]⟩
    | false =>
      obtain ⟨hrules, hfacts, -⟩ := discardRule_fact pf s e.formula.asRule.head.table.table hbody
      simp only [Bool.false_eq_true, if_false]
      exact ⟨by rw [hfacts, if_neg hkey], fun n => by rw [hrules]⟩
  · have hmatches := fun n => matches_eq_false n (h.rule hbody)
    cases e.insert with
    | true =>
      obtain ⟨hfacts, hrules, -⟩ := addRule_rule pf s e.formula.asRule.head.table.table e.info hbody
      simp only [if_true]
      refine ⟨hfacts _, fun n => ?_⟩
      rw [hrules]
      split_ifs with hkey
      · rw [List.filter_append, List.filter_singleton, hmatches, hkey.1]
        simp
      · rfl
    | false =>
      obtain ⟨hfacts, hrules, -⟩ := discardRule_rule pf s e.formula.asRule.head.table.table hbody
      simp only [Bool.false_eq_true, if_false]
      refine ⟨hfacts _, fun n => ?_⟩
      rw [hrules]
      split_ifs with hkey
      · rw [hkey]
        refine filter_eraseP_of_false (fun r hr => ?_) _
        refine matches_eq_false n ?_
        rw [Rule.head_of_same hr (Formula.moreHeads_of_isDatalog he)]
        exact h.rule hbody
      · rfl

theorem sameFor_putAll : ∀ {events : List (AnnotatedEvent V A)} {s : RuleStore V A},
    (∀ e ∈ events, e.Misses name t) → (∀ e ∈ events, e.formula.isDatalog = true) →
      SameFor name t s (s.putAll pf events)
  | [], s, _, _ => .refl s
  | e :: events, s, h, hdatalog => by
    obtain ⟨he, hevents⟩ := List.forall_mem_cons.1 h
    obtain ⟨hed, heventsd⟩ := List.forall_mem_cons.1 hdatalog
    exact (sameFor_putEvent he hed).trans (sameFor_putAll hevents heventsd)

theorem lookup_toRuleSet (s : RuleStore V A) (key : String) :
    (s.toRuleSet.rules.lookup key).getD [] = (s.rulesOf key).map Prod.fst := by
  have hmap : ∀ l : List (Σ _ : String, List (Rule V × A)),
      List.dlookup key (l.map fun e => (⟨e.1, e.2.map Prod.fst⟩ : Σ _ : String, List (Rule V)))
        = (l.dlookup key).map (List.map Prod.fst) := by
    intro l
    induction l with
    | nil => rfl
    | cons e l ih =>
      obtain ⟨k, rs⟩ := e
      by_cases hk : k = key
      · subst hk
        simp
      · rw [List.map_cons, List.dlookup_cons_ne _ _ (Ne.symm hk), List.dlookup_cons_ne _ _ (Ne.symm hk), ih]
  rw [rulesOf, AList.lookup, AList.lookup, toRuleSet, hmap]
  cases s.rules.entries.dlookup key with
  | none => rfl
  | some => rfl

/-- For such a table, `head_index` gives clauses that only differ in some that are not unified. -/
theorem SameFor.headIndex {lit : Literal V} (h : SameFor name lit.table s s') :
    Option.Rel (fun cs cs' => cs.filter (Clause.matches name lit.table lit.arguments.length)
        = cs'.filter (Clause.matches name lit.table lit.arguments.length))
      ((s.toRuleSet.toTopDown name).headIndex lit.table.table lit)
      ((s'.toRuleSet.toTopDown name).headIndex lit.table.table lit) := by
  have hfacts : (s'.toRuleSet.facts.lookup lit.table.table).getD []
      = (s.toRuleSet.facts.lookup lit.table.table).getD [] := h.facts
  unfold RuleSet.toTopDown RuleSet.getRules
  dsimp only
  rw [hfacts, lookup_toRuleSet, lookup_toRuleSet]
  generalize (if lit.negated = true then _ else _ : Option (List (List V))) = facts
  cases facts with
  | none => exact .none
  | some facts =>
    refine .some ?_
    have hrules := h.rules lit.arguments.length
    simp only [List.map_append, List.filter_append, List.map_map]
    congr 1
    rw [List.filter_map, List.filter_map]
    exact congrArg _ hrules.symm

end RuleStore

/-! ## Policies -/

/-- The policy as evaluation sees it. -/
def PolicyData.topDown (d : PolicyData V A) (name : String) : TopDownTheory V :=
  (⟨d, none⟩ : Policy V A).topDown name

/-- The table has the same clauses, but for some that are not unified with a literal of policy `name`. -/
inductive PolicyData.SameFor (name : String) (t : Tablename) : PolicyData V A → PolicyData V A → Prop
  | rules {kind : RuleKind} {store store' : RuleStore V A} (h : store.SameFor name t store') :
      SameFor name t (.rules kind store) (.rules kind store')
  | database {db db' : Database V} (h : db'.tuples t.table = db.tuples t.table) :
      SameFor name t (.database db) (.database db')

theorem PolicyData.SameFor.headIndex {d d' : PolicyData V A} {lit : Literal V}
    (h : d.SameFor name lit.table d') :
    Option.Rel (fun cs cs' => cs.filter (Clause.matches name lit.table lit.arguments.length)
        = cs'.filter (Clause.matches name lit.table lit.arguments.length))
      ((d.topDown name).headIndex lit.table.table lit) ((d'.topDown name).headIndex lit.table.table lit) := by
  cases h with
  | rules h => exact h.headIndex
  | @database db db' h =>
    show Option.Rel _ (some ((db.tuples lit.table.table).map _)) (some ((db'.tuples lit.table.table).map _))
    rw [h]
    exact .some rfl

namespace PolicyMap

variable {ps ps' : PolicyMap V A} {events : List (AnnotatedEvent V A)}

theorem topDown_eq (ps : PolicyMap V A) (name : String) :
    ps.topDown name = (ps.data name).map (·.topDown name) := by
  unfold topDown data
  rw [Option.map_map]
  rfl

/-- Materialized views know the name of their policy. -/
def Named (ps : PolicyMap V A) : Prop :=
  ∀ name th, ps.data name = some (.materialized th) → th.name = name

theorem Named.topDown_name (h : ps.Named) {d : PolicyData V A} (hd : ps.data name = some d) :
    (d.topDown name).name = name := by
  cases d with
  | rules kind store => rfl
  | database db => rfl
  | materialized th => exact h name th hd

theorem includes_topDown (d : PolicyData V A) (name : String) : (d.topDown name).includes = [] := by
  cases d with
  | rules kind store => rfl
  | database db => rfl
  | materialized th => rfl

/-- What `head_index` gives is facts, without a body, and stored rules. -/
theorem mem_headIndex {d : PolicyData V A} {lit : Literal V} {cs : List (Clause V)} {c : Clause V}
    (h : (d.topDown name).headIndex lit.table.table lit = some cs) (hc : c ∈ cs) :
    c.body = [] ∨ ∃ kind store r info, d = .rules kind store ∧ (r, info) ∈ store.rulesOf lit.table.table
      ∧ c = .rule r := by
  cases d with
  | rules kind store =>
    obtain ⟨rs, hrs, rfl⟩ := Option.map_eq_some_iff.1 h
    obtain ⟨r, hr, rfl⟩ := List.mem_map.1 hc
    obtain ⟨facts, -, rfl⟩ := Option.map_eq_some_iff.1 hrs
    rcases List.mem_append.1 hr with hr | hr
    · obtain ⟨fact, -, rfl⟩ := List.mem_map.1 hr
      exact .inl rfl
    · rw [RuleStore.lookup_toRuleSet] at hr
      obtain ⟨⟨r', info⟩, hr', rfl⟩ := List.mem_map.1 hr
      exact .inr ⟨kind, store, r', info, rfl, hr', rfl⟩
  | database db =>
    cases h
    obtain ⟨t, -, rfl⟩ := List.mem_map.1 hc
    exact .inl rfl
  | materialized th =>
    cases h
    obtain ⟨t, -, rfl⟩ := List.mem_map.1 hc
    exact .inl rfl

/-- One policy changes, the tables that are read have the same clauses, and the bodies of their rules read only
such tables. -/
structure Unaffected (reads : String → Tablename → Prop) (name : String) (d d' : PolicyData V A)
    (ps ps' : PolicyMap V A) : Prop where
  named : ps.Named
  named' : ps'.Named
  before : ps.data name = some d
  after : ps'.data = Function.update ps.data name (some d')
  same : ∀ lit : Literal V, reads name lit.table → TopDown.movesTo (d.topDown name) lit = none →
    d.SameFor name lit.table d'
  moved : ∀ (th : TopDownTheory V) (l : Literal V) service, reads th.name l.table →
    TopDown.movesTo th l = some service → reads service l.table
  bodies : ∀ (th : TopDownTheory V) r (lit : Literal V), ps.HasRule th.name r → reads th.name lit.table →
    TopDown.movesTo th lit = none → r.head.table.same lit.table (some th.name) →
    ∀ l ∈ r.body, reads th.name l.table

namespace Unaffected

variable {reads : String → Tablename → Prop} {d d' : PolicyData V A}

theorem agree (h : Unaffected reads name d d' ps ps') {other : String} {e : PolicyData V A}
    (he : ps.data other = some e) : ∃ e', ps'.data other = some e'
      ∧ (e.topDown other).Agree reads (e'.topDown other) := by
  have hname := h.named.topDown_name he
  have hbodies : ∀ (lit : Literal V) cs, reads (e.topDown other).name lit.table →
      TopDown.movesTo (e.topDown other) lit = none →
      (e.topDown other).headIndex lit.table.table lit = some cs →
      ∀ c ∈ cs, c.matches (e.topDown other).name lit.table lit.arguments.length →
        ∀ l ∈ c.body, reads (e.topDown other).name l.table := by
    intro lit cs hread hmoves hcs c hc hmatches l hl
    rcases mem_headIndex hcs hc with hnil | ⟨kind, store, r, info, rfl, hr, rfl⟩
    · rw [hnil] at hl
      exact absurd hl List.not_mem_nil
    · refine h.bodies _ r lit ?_ hread hmoves (Bool.and_eq_true _ _ ▸ hmatches).1 l hl
      exact ⟨kind, store, _, info, he, hr⟩
  by_cases ho : other = name
  · subst ho
    obtain rfl : d = e := Option.some.inj (h.before.symm.trans he)
    have hd' : ps'.data other = some d' := by rw [h.after, Function.update_self]
    have hname' := h.named'.topDown_name hd'
    refine ⟨d', hd', hname.trans hname'.symm, includes_topDown _ _,
      includes_topDown _ _, fun lit hread hmoves => ?_, hbodies⟩
    rw [hname] at hread ⊢
    exact (h.same lit hread hmoves).headIndex
  · refine ⟨e, by rw [h.after, Function.update_of_ne ho, he], rfl, includes_topDown _ _,
      includes_topDown _ _, fun lit _ _ => ?_, hbodies⟩
    cases (e.topDown other).headIndex lit.table.table lit with
    | none => exact .none
    | some => exact .some rfl

theorem theories (h : Unaffected reads name d d' ps ps') : Theories.Agree reads ps.topDown ps'.topDown where
  theory other := by
    rw [topDown_eq, topDown_eq]
    cases he : ps.data other with
    | none =>
      have ho : other ≠ name := fun ho => by
        subst ho
        rw [h.before] at he
        cases he
      rw [h.after, Function.update_of_ne ho, he]
      exact .none
    | some e =>
      obtain ⟨e', he', hagree⟩ := h.agree he
      rw [he']
      exact .some ⟨h.named.topDown_name he, hagree⟩
  moved := h.moved

/-- Such a change leaves what a query returns that comes only to tables that are read. -/
theorem select (h : Unaffected reads name d d' ps ps') {other : String} {p : Policy V A}
    (hp : ps.lookup other = some p) {query : Formula V} (hread : ∀ l ∈ query.literals, reads other l.table)
    (findAll : Bool) : ∃ p', ps'.lookup other = some p'
      ∧ (p'.topDown other).select pf.registry ps'.topDown pf.evalFuel query findAll
        = (p.topDown other).select pf.registry ps.topDown pf.evalFuel query findAll := by
  obtain ⟨e', he', hagree⟩ := h.agree (data_of_lookup hp)
  obtain ⟨p', hp', rfl⟩ := Option.map_eq_some_iff.1 he'
  refine ⟨p', hp', (select_congr h.theories hagree fun l hl => ?_).symm⟩
  rw [h.named.topDown_name (data_of_lookup hp)]
  exact hread l hl

end Unaffected

end PolicyMap

end Congress
