import Congress.Lib.Totals
import Congress.Proofs.Reordering
import Congress.Statements

/-!
# What events do to a rule set

Adding a rule or a fact, or discarding one, changes what a rule set states as the event says
(`statements_put`), and it changes the set exactly if that is a change (`changed_put`).
-/

namespace Congress

open Lib

set_option linter.unusedSectionVars false

variable {V A M : Type} [DecidableEq V] {pf : Platform V} {s : RuleStore V A} {r : Rule V} {info : A}
  {key k : String} {rs : List (Rule V × A)} {fs : List (List V)} {x : Statement V} {insert : Bool}

/-- Once a rule is taken out of an ordered set, no rule in it is the same. -/
theorem Rule.exists_eraseP_same {α : Type} (f : α → Rule V) {r' : Rule V} : ∀ {rs : List α},
    rs.Pairwise (fun p q => (f p).same (f q) = false) →
      ((∃ p ∈ rs.eraseP fun p => (f p).same r, (f p).same r' = true)
        ↔ (∃ p ∈ rs, (f p).same r' = true) ∧ r.same r' = false)
  | [], _ => by simp
  | p :: rs, hd => by
    obtain ⟨hp, hd⟩ := List.pairwise_cons.1 hd
    rw [List.eraseP_cons]
    cases hpr : (f p).same r with
    | true =>
      simp only [cond_true, List.mem_cons, exists_eq_or_imp]
      have hcongr : (f p).same r' = r.same r' := Bool.eq_iff_iff.2
        ⟨Rule.same_trans (Rule.same_symm hpr), Rule.same_trans hpr⟩
      rw [hcongr]
      cases hrr : r.same r' with
      | true =>
        simp only [Bool.true_eq_false, and_false, iff_false]
        rintro ⟨q, hq, hqr⟩
        have hpq := Rule.same_trans hpr (Rule.same_trans hrr (Rule.same_symm hqr))
        rw [hp q hq] at hpq
        exact Bool.false_ne_true hpq
      | false => simp
    | false =>
      simp only [cond_false, List.mem_cons, exists_eq_or_imp, Rule.exists_eraseP_same f hd]
      constructor
      · rintro (h | ⟨h, hrr⟩)
        · refine ⟨.inl h, Bool.eq_false_iff.2 fun hrr => ?_⟩
          rw [Rule.same_trans h (Rule.same_symm hrr)] at hpr
          exact Bool.false_ne_true hpr.symm
        · exact ⟨.inr h, hrr⟩
      · rintro ⟨h | h, hrr⟩
        · exact .inl h
        · exact .inr ⟨h, hrr⟩

namespace RuleStore

/-! ## Tables -/

theorem rulesOf_setRules (h) :
    (s.setRules key rs h).rulesOf k = if k = key then rs else s.rulesOf k := by
  rw [rulesOf, setRules]
  split_ifs with hk
  · subst hk
    simp
  · rw [AList.lookup_insert_ne hk]
    rfl

theorem rulesOf_eraseRules :
    (s.eraseRules key).rulesOf k = if k = key then [] else s.rulesOf k := by
  rw [rulesOf, eraseRules]
  split_ifs with hk
  · subst hk
    simp
  · rw [AList.lookup_erase_ne hk]
    rfl

theorem factsOf_setFacts (h) :
    (s.setFacts key fs h).factsOf k = if k = key then fs else s.factsOf k := by
  rw [factsOf, setFacts]
  split_ifs with hk
  · subst hk
    simp
  · rw [AList.lookup_insert_ne hk]
    rfl

theorem factsOf_eraseFacts :
    (s.eraseFacts key).factsOf k = if k = key then [] else s.factsOf k := by
  rw [factsOf, eraseFacts]
  split_ifs with hk
  · subst hk
    simp
  · rw [AList.lookup_erase_ne hk]
    rfl

@[simp] theorem factsOf_setRules {h} : (s.setRules key rs h).factsOf k = s.factsOf k := rfl

@[simp] theorem factsOf_eraseRules : (s.eraseRules key).factsOf k = s.factsOf k := rfl

@[simp] theorem rulesOf_setFacts {h} : (s.setFacts key fs h).rulesOf k = s.rulesOf k := rfl

@[simp] theorem rulesOf_eraseFacts : (s.eraseFacts key).rulesOf k = s.rulesOf k := rfl

theorem factsOf_of_notMem (h : key ∉ s.facts) : s.factsOf key = [] := by
  rw [factsOf, AList.lookup_eq_none.2 h]
  rfl

theorem rulesOf_of_notMem (h : key ∉ s.rules) : s.rulesOf key = [] := by
  rw [rulesOf, AList.lookup_eq_none.2 h]
  rfl

/-- The two tables after `add_rule` of a fact. -/
theorem addFact_spec (s : RuleStore V A) (key : String) (fact : List V) :
    (∀ k, (s.addFact key fact).1.rulesOf k = s.rulesOf k)
      ∧ (∀ k, (s.addFact key fact).1.factsOf k = if k = key ∧ fact ∉ s.factsOf key
          then s.factsOf key ++ [fact] else s.factsOf k)
      ∧ ((s.addFact key fact).2 = true ↔ fact ∉ s.factsOf key) := by
  unfold addFact
  split_ifs with h
  · simp [h]
  · refine ⟨fun k => rfl, fun k => ?_, by simp [h]⟩
    rw [factsOf_setFacts]
    simp [h]

/-- The two tables after `discard_rule` of a fact. -/
theorem discardRule_fact (pf : Platform V) (s : RuleStore V A) (key : String) (hr : r.body = []) :
    (∀ k, (s.discardRule pf key r).1.rulesOf k = s.rulesOf k)
      ∧ (∀ k, (s.discardRule pf key r).1.factsOf k = if k = key
          then (s.factsOf key).erase (pf.factValues r.head) else s.factsOf k)
      ∧ ((s.discardRule pf key r).2 = true ↔ pf.factValues r.head ∈ s.factsOf key) := by
  simp only [discardRule, hr, List.isEmpty_nil, if_true]
  split_ifs with hkey he
  · refine ⟨fun k => rfl, fun k => ?_, by simp⟩
    rw [factsOf_eraseFacts, List.isEmpty_iff.1 he]
  · exact ⟨fun k => rfl, fun k => by rw [factsOf_setFacts], by simp⟩
  · refine ⟨fun k => rfl, fun k => ?_, by simp [factsOf_of_notMem hkey]⟩
    split_ifs with hk
    · subst hk
      simp [factsOf_of_notMem hkey]
    · rfl

/-- The two tables after `discard_rule` of a rule. -/
theorem discardRule_rule (pf : Platform V) (s : RuleStore V A) (key : String) (hr : r.body ≠ []) :
    (∀ k, (s.discardRule pf key r).1.factsOf k = s.factsOf k)
      ∧ (∀ k, (s.discardRule pf key r).1.rulesOf k = if k = key
          then (s.rulesOf key).eraseP (·.1.same r) else s.rulesOf k)
      ∧ ((s.discardRule pf key r).2 = true ↔ ∃ r' ∈ s.rulesOf key, r'.1.same r = true) := by
  simp only [discardRule, List.isEmpty_iff, hr, if_false]
  split_ifs with hkey he
  · refine ⟨fun k => rfl, fun k => ?_, by simp⟩
    rw [rulesOf_eraseRules, he]
  · exact ⟨fun k => rfl, fun k => by rw [rulesOf_setRules], by simp⟩
  · refine ⟨fun k => rfl, fun k => ?_, by simp [rulesOf_of_notMem hkey]⟩
    split_ifs with hk
    · subst hk
      simp [rulesOf_of_notMem hkey]
    · rfl

/-- The two tables after `add_rule` of a rule. -/
theorem addRule_rule (pf : Platform V) (s : RuleStore V A) (key : String) (info : A) (hr : r.body ≠ []) :
    (∀ k, (s.addRule pf key r info).1.factsOf k = s.factsOf k)
      ∧ (∀ k, (s.addRule pf key r info).1.rulesOf k
          = if k = key ∧ ¬ ∃ r' ∈ s.rulesOf key, r'.1.same r = true
            then s.rulesOf key ++ [(r, info)] else s.rulesOf k)
      ∧ ((s.addRule pf key r info).2 = true ↔ ¬ ∃ r' ∈ s.rulesOf key, r'.1.same r = true) := by
  have hany : ((s.rulesOf key).any (·.1.same r) = true) = ∃ r' ∈ s.rulesOf key, r'.1.same r = true := by
    simp
  have hbody : (r.body.isEmpty && !r.head.negated) = false := by simp [hr]
  simp only [addRule, hbody, Bool.false_eq_true, if_false]
  split_ifs with h
  · rw [hany] at h
    simp [h]
  · rw [hany] at h
    refine ⟨fun k => rfl, fun k => ?_, by simp [h]⟩
    rw [rulesOf_setRules]
    simp [h]

/-- `add_rule` of a rule that is a fact. -/
theorem addRule_fact (hr : r.body = []) (hneg : r.head.negated = false) :
    s.addRule pf key r info = s.addFact key (pf.factValues r.head) := by
  simp [addRule, hr, hneg]

/-! ## Statements -/

theorem mem_statements_fact {table : String} {values : List V} :
    Statement.fact table values ∈ s.statements ↔ values ∈ s.factsOf table := .rfl

theorem mem_statements_rule {table : String} :
    Statement.rule table r ∈ s.statements ↔ ∃ r' ∈ s.rulesOf table, r'.1.same r = true := .rfl

theorem Statement.mem_change {y : Statement V} :
    y ∈ (x.change insert).on ↔ x.Same y := .rfl

theorem statement_of_nil (hr : r.body = []) :
    r.statement pf = .fact r.head.table.table (pf.factValues r.head) := by
  simp [Rule.statement, hr]

theorem statement_of_ne_nil (hr : r.body ≠ []) : r.statement pf = .rule r.head.table.table r := by
  simp [Rule.statement, hr]

theorem mem_statements_congr {y : Statement V} (h : x.Same y) : x ∈ s.statements ↔ y ∈ s.statements := by
  rcases x with ⟨table, values⟩ | ⟨table, r⟩ <;> rcases y with ⟨table', values'⟩ | ⟨table', r'⟩
  · obtain ⟨rfl, rfl⟩ := h
    rfl
  · cases h
  · cases h
  · obtain ⟨rfl, hr⟩ := h
    rw [mem_statements_rule, mem_statements_rule]
    exact exists_congr fun p => and_congr_right fun _ =>
      ⟨fun hp => Rule.same_trans hp hr, fun hp => Rule.same_trans hp (Rule.same_symm hr)⟩

theorem contains_iff : s.contains pf r = true ↔ r.statement pf ∈ s.statements := by
  by_cases hr : r.body = []
  · rw [statement_of_nil hr, mem_statements_fact]
    simp [contains, hr]
  · rw [statement_of_ne_nil hr, mem_statements_rule]
    simp [contains, hr]

theorem statements_add_fact (hr : r.body = []) (hneg : r.head.negated = false) :
    (s.addRule pf r.head.table.table r info).1.statements
      = ((r.statement pf).change true).apply s.statements := by
  obtain ⟨hrules, hfacts, -⟩ :=
    addFact_spec s r.head.table.table (pf.factValues r.head)
  rw [addRule_fact hr hneg, statement_of_nil hr]
  ext (⟨table, values⟩ | ⟨table, r'⟩)
  · rw [Change.mem_apply, Statement.mem_change, mem_statements_fact, mem_statements_fact, hfacts]
    simp only [Statement.change, Statement.Same, and_true]
    by_cases ht : r.head.table.table = table
    · subst ht
      by_cases hv : pf.factValues r.head = values
      · subst hv
        by_cases hmem : pf.factValues r.head ∈ s.factsOf r.head.table.table <;> simp [hmem]
      · split_ifs <;> simp [hv, Ne.symm hv]
    · simp [ht, Ne.symm ht]
  · simp [Change.mem_apply, Statement.mem_change, Statement.Same, mem_statements_rule, hrules]

theorem statements_discard_fact (hr : r.body = []) :
    (s.discardRule pf r.head.table.table r).1.statements
      = ((r.statement pf).change false).apply s.statements := by
  obtain ⟨hrules, hfacts, -⟩ := discardRule_fact pf s r.head.table.table hr
  rw [statement_of_nil hr]
  ext (⟨table, values⟩ | ⟨table, r'⟩)
  · rw [Change.mem_apply, Statement.mem_change, mem_statements_fact, mem_statements_fact, hfacts]
    simp only [Statement.change, Statement.Same, Bool.false_eq_true, and_false, false_or]
    by_cases ht : r.head.table.table = table
    · subst ht
      rw [if_pos rfl, (s.nodup_factsOf _).mem_erase_iff]
      simp [eq_comm]
    · simp [ht, Ne.symm ht]
  · simp [Change.mem_apply, Statement.mem_change, Statement.Same, mem_statements_rule, hrules]

theorem statements_add_rule (hr : r.body ≠ []) :
    (s.addRule pf r.head.table.table r info).1.statements
      = ((r.statement pf).change true).apply s.statements := by
  obtain ⟨hfacts, hrules, -⟩ :=
    addRule_rule pf s r.head.table.table info hr
  rw [statement_of_ne_nil hr]
  ext (⟨table, values⟩ | ⟨table, r'⟩)
  · simp [Change.mem_apply, Statement.mem_change, Statement.Same, mem_statements_fact, hfacts]
  · rw [Change.mem_apply, Statement.mem_change, mem_statements_rule, mem_statements_rule, hrules]
    simp only [Statement.change, Statement.Same, and_true]
    by_cases ht : r.head.table.table = table
    · subst ht
      by_cases hmem : ∃ q ∈ s.rulesOf r.head.table.table, q.1.same r = true
      · rw [if_neg fun h => h.2 hmem]
        obtain ⟨q, hq, hqr⟩ := hmem
        cases hrr : r.same r' with
        | true => exact iff_of_true ⟨q, hq, Rule.same_trans hqr hrr⟩ (.inl ⟨rfl, rfl⟩)
        | false => simp
      · rw [if_pos ⟨rfl, hmem⟩]
        cases hrr : r.same r' with
        | true => simp [or_and_right, exists_or, hrr]
        | false => simp [or_and_right, exists_or, hrr]
    · simp [ht, Ne.symm ht]

theorem statements_discard_rule (hr : r.body ≠ []) :
    (s.discardRule pf r.head.table.table r).1.statements
      = ((r.statement pf).change false).apply s.statements := by
  obtain ⟨hfacts, hrules, -⟩ := discardRule_rule pf s r.head.table.table hr
  rw [statement_of_ne_nil hr]
  ext (⟨table, values⟩ | ⟨table, r'⟩)
  · simp [Change.mem_apply, Statement.mem_change, Statement.Same, mem_statements_fact, hfacts]
  · rw [Change.mem_apply, Statement.mem_change, mem_statements_rule, mem_statements_rule, hrules]
    simp only [Statement.change, Statement.Same, Bool.false_eq_true, and_false, false_or]
    by_cases ht : r.head.table.table = table
    · subst ht
      rw [if_pos rfl, Rule.exists_eraseP_same Prod.fst (s.distinct_rulesOf _), and_comm]
      simp
    · simp [ht, Ne.symm ht]

/-- An event does what it says to what is stated. -/
theorem statements_put (hneg : r.body = [] → r.head.negated = false) :
    (s.put pf r info insert).1.statements
      = ((r.statement pf).change insert).apply s.statements := by
  unfold put
  by_cases hr : r.body = []
  · cases insert with
    | true => exact statements_add_fact hr (hneg hr)
    | false => exact statements_discard_fact hr
  · cases insert with
    | true => exact statements_add_rule hr
    | false => exact statements_discard_rule hr

/-- An event changes a rule set exactly if what it says is not so already. -/
theorem changed_put (pf : Platform V) (s : RuleStore V A) (info : A) (insert : Bool)
    (hneg : r.body = [] → r.head.negated = false) :
    (s.put pf r info insert).2 = true ↔ (insert = true ↔ r.statement pf ∉ s.statements) := by
  unfold put
  by_cases hr : r.body = []
  · rw [statement_of_nil hr, mem_statements_fact]
    cases insert with
    | true =>
      rw [if_pos rfl, addRule_fact hr (hneg hr), (addFact_spec s _ _).2.2]
      simp
    | false =>
      rw [if_neg Bool.false_ne_true, (discardRule_fact pf s _ hr).2.2]
      simp
  · rw [statement_of_ne_nil hr, mem_statements_rule]
    cases insert with
    | true =>
      rw [if_pos rfl, (addRule_rule pf s _ info hr).2.2]
      simp
    | false =>
      rw [if_neg Bool.false_ne_true, (discardRule_rule pf s _ hr).2.2]
      simp

end RuleStore

end Congress
