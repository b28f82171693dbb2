import Congress.Proofs.RuleStores
import Congress.Proofs.Tuples

/-!
# What updates of materialized views do

Every event of the queue does what it says (`processEvent_step`), and what it adds to the queue is
about tables that rules define. So when the queue is empty, the rules are those that the events of
the queue leave, and so are the facts of all other tables (`processQueue_statements`).
-/

namespace Congress

open Lib Stateful

set_option linter.unusedSectionVars false

variable {V : Type} [DecidableEq V] {reg : BuiltinRegistry V} {theories : Theories V}
  {setOrder : List (TopDownResult V) → List (TopDownResult V)} {fuel n : ℕ} {r rule rule' : Rule V}
  {D : Set String} {table : String} {x : Statement V} {insert : Bool}

namespace DeltaRuleTheory

variable {th th' : DeltaRuleTheory V} {d delta : DeltaRule V}

theorem mem_insertDelta (h : d ∈ (th.insertDelta delta).rulesWithTrigger table) :
    d ∈ th.rulesWithTrigger table ∨ d = delta := by
  unfold insertDelta rulesWithTrigger at h
  by_cases ht : table = delta.trigger.table.table
  · subst ht
    rw [AList.lookup_insert] at h
    simp only [Option.getD_some] at h
    split_ifs at h
    · exact .inl h
    · exact (List.mem_append.1 h).imp_right List.mem_singleton.1
  · rw [AList.lookup_insert_ne ht] at h
    exact .inl h

theorem mem_deleteDelta (h : d ∈ (th.deleteDelta delta).rulesWithTrigger table) :
    d ∈ th.rulesWithTrigger table := by
  unfold deleteDelta rulesWithTrigger at h
  by_cases ht : table = delta.trigger.table.table
  · subst ht
    simp only at h
    split_ifs at h
    · simp at h
    · rw [AList.lookup_insert] at h
      exact List.mem_of_mem_eraseP h
  · simp only at h
    split_ifs at h
    · rw [AList.lookup_erase_ne ht] at h
      exact h
    · rw [AList.lookup_insert_ne ht] at h
      exact h

theorem mem_foldl_insertDelta : ∀ {deltas : List (DeltaRule V)} {th : DeltaRuleTheory V},
    d ∈ (deltas.foldl insertDelta th).rulesWithTrigger table →
      d ∈ th.rulesWithTrigger table ∨ d ∈ deltas
  | [], _, h => .inl h
  | delta :: deltas, th, h => by
    rcases @mem_foldl_insertDelta deltas _ h with h | h
    · exact (mem_insertDelta h).imp_right fun h => List.mem_cons.2 (.inl h)
    · exact .inr (List.mem_cons_of_mem _ h)

theorem mem_foldl_deleteDelta : ∀ {deltas : List (DeltaRule V)} {th : DeltaRuleTheory V},
    d ∈ (deltas.foldl deleteDelta th).rulesWithTrigger table → d ∈ th.rulesWithTrigger table
  | [], _, h => h
  | _ :: deltas, _, h => mem_deleteDelta (@mem_foldl_deleteDelta deltas _ h)

theorem head_of_mem_deltaRules (h : d ∈ rule.deltaRules reg) : d.head = rule.head := by
  unfold Rule.deltaRules at h
  obtain ⟨⟨l, i⟩, -, h⟩ := List.mem_filterMap.1 h
  dsimp only at h
  split_ifs at h
  cases h
  rfl

/-- What `modify` does: nothing if the rule is there already, or else is not. -/
inductive Modified (reg : BuiltinRegistry V) (th : DeltaRuleTheory V) (rule : Rule V) (insert : Bool) :
    Option (DeltaRuleTheory V × Rule V) → Prop
  | noop (h : insert = th.contains rule) : Modified reg th rule insert none
  | changed {th' : DeltaRuleTheory V} {rule' : Rule V} (h : insert ≠ th.contains rule)
      (reordered : reorderForSafety reg rule = some rule')
      (originals : th'.originals = if insert then th.originals ++ [rule']
        else th.originals.eraseP (·.same rule'))
      (triggers : ∀ table, ∀ d ∈ th'.rulesWithTrigger table,
        d ∈ th.rulesWithTrigger table ∨ d.head = rule.head) :
      Modified reg th rule insert (some (th', rule'))

theorem modify_modified {o : Option (DeltaRuleTheory V × Rule V)}
    (h : th.modify reg rule insert = .ok o) : Modified reg th rule insert o := by
  unfold modify at h
  by_cases hnoop : insert = th.contains rule
  · rw [dif_pos hnoop] at h
    cases h
    exact .noop hnoop
  · rw [dif_neg hnoop] at h
    split at h
    · cases h
    · rename_i rule' hr
      have hhead : rule'.head = rule.head := (reorderForSafety_safe hr).1
      dsimp only at h
      split_ifs at h with hins
      · cases h
        refine .changed hnoop hr (if_pos hins).symm fun table d hd => ?_
        exact (mem_foldl_insertDelta hd).imp_right fun h => (head_of_mem_deltaRules h).trans hhead
      · cases h
        refine .changed hnoop hr (if_neg hins).symm fun table d hd => ?_
        exact .inl (mem_foldl_deleteDelta hd)

/-- The rules change as the event says. -/
theorem Modified.originals {o : Option (DeltaRuleTheory V × Rule V)}
    (h : Modified reg th rule insert o) :
    (∃ r' ∈ (o.map (·.1.originals)).getD th.originals, r'.same r = true)
      ↔ rule.same r = true ∧ insert = true
        ∨ ¬ rule.same r = true ∧ ∃ r' ∈ th.originals, r'.same r = true := by
  cases h with
  | noop h =>
    simp only [Option.map_none, Option.getD_none]
    cases hr : rule.same r with
    | true =>
      simp only [true_and, not_true_eq_false, false_and, or_false]
      rw [h, contains, List.any_eq_true]
      exact exists_congr fun p => and_congr_right fun _ =>
        ⟨fun hpr => Rule.same_trans hpr (Rule.same_symm hr), fun hpr => Rule.same_trans hpr hr⟩
    | false => simp
  | @changed th' rule' h hr horig _ =>
    have hsame := reorderForSafety_same hr
    have hrule' : rule'.same r = rule.same r := Bool.eq_iff_iff.2
      ⟨Rule.same_trans hsame, Rule.same_trans (Rule.same_symm hsame)⟩
    simp only [Option.map_some, Option.getD_some, horig]
    cases insert with
    | true =>
      simp only [if_true, List.mem_append, List.mem_singleton, or_and_right, exists_or,
        exists_eq_left, hrule', and_true]
      by_cases hrr : rule.same r = true <;> simp [hrr]
    | false =>
      have herase : (∃ p ∈ th.originals.eraseP (·.same rule'), p.same r = true)
          ↔ (∃ p ∈ th.originals, p.same r = true) ∧ rule'.same r = false :=
        Rule.exists_eraseP_same id th.distinct
      rw [hrule'] at herase
      simp only [Bool.false_eq_true, if_false, and_false, false_or, herase, Bool.not_eq_true]
      exact and_comm

end DeltaRuleTheory

namespace MaterializedViewTheory

variable {th th' : MaterializedViewTheory V} {e : ProofEvent V} {changes : List (ProofEvent V)}

/-- An event that was derived for a table: an atom with proofs. -/
def DerivedFor (table : String) (e : ProofEvent V) : Prop :=
  e.proofs ≠ [] ∧ ∃ l, e.formula = .atom l ∧ l.table.table = table

theorem mem_addProof {atom : Literal V} {p : Proof V} {q : Literal V × ProofCollection V} :
    ∀ {atoms : List (Literal V × ProofCollection V)}, q ∈ addProof atom p atoms →
      q.2 ≠ [] ∧ q.1 = atom ∨ q ∈ atoms
  | [], h => by
    rw [addProof, List.mem_singleton] at h
    subst h
    simp
  | (atom', ps) :: rest, h => by
    rw [addProof] at h
    split_ifs at h with ha
    · rcases List.mem_cons.1 h with rfl | h
      · simp [ha]
      · exact .inr (List.mem_cons_of_mem _ h)
    · rcases List.mem_cons.1 h with rfl | h
      · exact .inr List.mem_cons_self
      · exact (mem_addProof h).imp_right (List.mem_cons_of_mem _)

theorem processNewBindings_derived {bindings : List (List (String × Term V))} {atom : Literal V}
    (h : e ∈ processNewBindings bindings atom insert rule) : DerivedFor atom.table.table e := by
  have key : ∀ (bindings : List (List (String × Term V))) (atoms : List (Literal V × ProofCollection V)),
      (∀ q ∈ atoms, q.2 ≠ [] ∧ q.1.table = atom.table) →
      ∀ q ∈ bindings.foldl (fun atoms b => addProof (atom.plugDict b) ⟨b, rule⟩ atoms) atoms,
        q.2 ≠ [] ∧ q.1.table = atom.table := by
    intro bindings
    induction bindings with
    | nil => exact fun _ h => h
    | cons b bindings ih =>
      refine fun atoms h => ih _ fun q hq => ?_
      rcases mem_addProof hq with ⟨hne, heq⟩ | hq
      · exact ⟨hne, by rw [heq]; rfl⟩
      · exact h q hq
  unfold processNewBindings at h
  obtain ⟨q, hq, rfl⟩ := List.mem_map.1 h
  obtain ⟨hne, htable⟩ := key bindings [] (by simp) q hq
  exact ⟨hne, q.1, rfl, by rw [htable]⟩

theorem propagateRule_derived {atom : Literal V} {delta : DeltaRule V} {new : List (ProofEvent V)}
    (h : propagateRule reg theories setOrder fuel th atom insert delta = .ok new) :
    ∀ e ∈ new, DerivedFor delta.head.table.table e := by
  unfold propagateRule at h
  split at h
  · cases h
    simp
  · obtain ⟨bindings, -, h⟩ := bind_ok.1 h
    cases h
    exact fun e he => processNewBindings_derived he

/-- `propagate` adds events to the queue, for the heads of the delta rules. -/
theorem propagate_ok {atom : Literal V} : ∀ {deltas : List (DeltaRule V)}
    {th th' : MaterializedViewTheory V},
    (propagate reg theories setOrder fuel atom insert deltas).run th = (.ok (), th') →
      ∃ new, th' = { th with queue := th.queue ++ new }
        ∧ ∀ e ∈ new, ∃ d ∈ deltas, DerivedFor d.head.table.table e
  | [], th, th', h => by
    cases h
    exact ⟨[], by simp, by simp⟩
  | delta :: deltas, th, th', h => by
    unfold propagate at h
    rw [run_get_bind, run_lift_bind_ok] at h
    obtain ⟨new, hnew, h⟩ := h
    obtain ⟨⟨⟩, th₁, h₁, h⟩ := run_bind_ok.1 h
    cases h₁
    obtain ⟨new', rfl, hnew'⟩ := propagate_ok h
    refine ⟨new ++ new', by simp, fun e he => ?_⟩
    rcases List.mem_append.1 he with he | he
    · exact ⟨delta, List.mem_cons_self, propagateRule_derived hnew e he⟩
    · obtain ⟨d, hd, he⟩ := hnew' e he
      exact ⟨d, List.mem_cons_of_mem _ hd, he⟩

/-- An event of the queue: what it changes, and what it adds to the queue. -/
inductive Processed (reg : BuiltinRegistry V) (th : MaterializedViewTheory V) (e : ProofEvent V) :
    MaterializedViewTheory V → Prop
  | noop {rule : Rule V} (formula : e.formula = .rule rule)
      (modified : th.deltaRules.Modified reg rule e.insert none) : Processed reg th e th
  | rule {rule rule' : Rule V} {deltaRules : DeltaRuleTheory V} {new : List (ProofEvent V)}
      (formula : e.formula = .rule rule)
      (modified : th.deltaRules.Modified reg rule e.insert (some (deltaRules, rule')))
      (derived : ∀ e' ∈ new, DerivedFor rule.head.table.table e') :
      Processed reg th e { th with queue := th.queue ++ new, deltaRules := deltaRules }
  | atom {l : Literal V} {database : Database V} {changes new : List (ProofEvent V)}
      (formula : e.formula = .atom l) (modified : th.database.modify e = .ok (database, changes))
      (derived : ∀ e' ∈ new, ∃ d ∈ th.deltaRules.rulesWithTrigger l.table.table,
        DerivedFor d.head.table.table e') :
      Processed reg th e { th with queue := th.queue ++ new, database := database }

theorem processEvent_ok (h : (processEvent reg theories setOrder fuel e).run th = (.ok changes, th')) :
    Processed reg th e th' := by
  unfold processEvent at h
  rw [run_get_bind] at h
  cases hf : e.formula with
  | rule rule =>
    simp only [hf] at h
    rw [run_lift_bind_ok] at h
    obtain ⟨o, ho, h⟩ := h
    have hmod := DeltaRuleTheory.modify_modified ho
    rcases o with _ | ⟨deltaRules, rule'⟩
    · cases h
      exact .noop hf hmod
    · simp only [run_modify_bind] at h
      rw [run_lift_bind_ok] at h
      obtain ⟨bindings, -, h⟩ := h
      obtain ⟨⟨⟩, th₁, h₁, h⟩ := run_bind_ok.1 h
      cases h₁
      cases h
      have hhead : rule'.head = rule.head := by
        cases hmod with
        | changed _ hr _ _ => exact (reorderForSafety_safe hr).1
      exact .rule hf hmod fun e' he' => hhead ▸ processNewBindings_derived he'
  | atom l =>
    simp only [hf] at h
    obtain ⟨⟨⟩, th₁, h₁, h⟩ := run_bind_ok.1 h
    obtain ⟨new, rfl, hnew⟩ := propagate_ok h₁
    rw [run_lift_bind_ok] at h
    obtain ⟨⟨database, changes'⟩, hmod, h⟩ := h
    cases h
    exact .atom hf hmod hnew

/-- An event that comes to the queue by itself, or that was derived for a table in `D`. -/
structure Within (D : Set String) (e : ProofEvent V) : Prop where
  rule : ∀ r, e.formula = .rule r → r.head.table.table ∈ D
  atom : ∀ l, e.formula = .atom l → e.proofs = [] ∨ l.table.table ∈ D

/-- The rules define tables in `D` only. -/
def DefinesWithin (D : Set String) (th : MaterializedViewTheory V) : Prop :=
  ∀ table, ∀ d ∈ th.deltaRules.rulesWithTrigger table, d.head.table.table ∈ D

theorem mem_statements_fact {values : List V} : .fact table values ∈ th.statements D
    ↔ table ∉ D ∧ .fact table values ∈ th.database.statements := .rfl

theorem mem_statements_rule : .rule table r ∈ th.statements D
    ↔ ∃ r' ∈ th.deltaRules.originals, r'.same r = true := .rfl

/-- What is derived for a table in `D` says nothing about statements. -/
theorem derived_apply {F : Set (Statement V)} {D : Set String} (h : DerivedFor table e)
    (ht : table ∈ D) : ((change e).sparing (th.fixed D)).apply F = F := by
  obtain ⟨-, l, hl, rfl⟩ := h
  ext x
  rw [Change.mem_apply_sparing]
  have hon : ¬ (x ∈ (change e).on ∧ x ∉ th.fixed D) := by
    rintro ⟨hx, hfixed⟩
    rw [change, hl] at hx
    cases x with
    | fact table values => exact hfixed (.inr (show table ∈ D from hx.1 ▸ ht))
    | rule table r => exact hx
  exact ⟨fun h => h.elim (fun h => absurd ⟨h.1, h.2.1⟩ hon) And.right, fun h => .inr ⟨hon, h⟩⟩

theorem mem_change_rule {rule : Rule V} (hf : e.formula = .rule rule) :
    .rule table r ∈ (change e).on ↔ rule.same r = true := by
  rw [change, hf]
  exact ⟨fun ⟨_, _, h, hr⟩ => by cases h; exact hr, fun hr => ⟨_, _, rfl, hr⟩⟩

theorem Processed.rule_statements {rule : Rule V} {o : Option (DeltaRuleTheory V × Rule V)}
    (hf : e.formula = .rule rule) (hmod : th.deltaRules.Modified reg rule e.insert o)
    (hdb : th'.database = th.database)
    (horig : th'.deltaRules.originals = (o.map (·.1.originals)).getD th.deltaRules.originals) :
    th'.statements D = ((change e).sparing (th.fixed D)).apply (th.statements D) := by
  ext (⟨table, values⟩ | ⟨table, r⟩)
  · have hon : .fact table values ∉ (change e).on := by
      rw [change, hf]
      rintro ⟨_, _, h, -⟩
      cases h
    rw [Change.mem_apply_sparing, mem_statements_fact, mem_statements_fact, hdb]
    simp [hon]
  · have hfixed : .rule table r ∉ th.fixed D := fun h => h.elim id id
    have hins : (change e).insert = e.insert := by rw [change, hf]
    rw [Change.mem_apply_sparing, mem_change_rule hf, mem_statements_rule, mem_statements_rule, horig,
      hmod.originals, hins]
    simp only [hfixed, not_false_eq_true, and_true, true_and]

/-- An event about an atom changes the facts of other tables as it says, and what has proofs there
stays. -/
theorem Processed.atom_facts {l : Literal V} {database : Database V} (hf : e.formula = .atom l)
    (hmod : th.database.modify e = .ok (database, changes)) (he : Within D e) (ht : table ∉ D)
    {values : List V} :
    (.fact table values ∈ database.statements
        ↔ .fact table values ∈ ((change e).sparing (th.fixed D)).apply th.database.statements)
      ∧ (.fact table values ∈ database.proved ↔ .fact table values ∈ th.database.proved) := by
  have hfixed : .fact table values ∈ th.fixed D ↔ .fact table values ∈ th.database.proved :=
    ⟨fun h => h.resolve_right ht, .inl⟩
  have hchange : change e = l.statement.change e.insert := by rw [change, hf]
  rw [Change.mem_apply_sparing, hfixed, ← Change.mem_apply_sparing, hchange]
  rcases he.atom l hf with hps | hl
  · obtain ⟨formula, insert, proofs⟩ := e
    subst hps
    obtain ⟨l', hl', hstatements, hproved⟩ := Database.modify_base hmod
    obtain rfl : l = l' := Formula.atom.inj (hf.symm.trans hl')
    rw [hstatements, hproved]
    exact ⟨.rfl, .rfl⟩
  · obtain ⟨l', hl', hother⟩ := Database.modify_other hmod
    obtain rfl : l = l' := Formula.atom.inj (hf.symm.trans hl')
    have hne : table ≠ l.table.table := fun h => ht (h ▸ hl)
    have hon : .fact table values ∉ (l.statement.change e.insert).on := fun h => hne h.1.symm
    rw [Change.mem_apply_sparing]
    simpa [hon] using hother table values hne

/-- An event of the queue does what it says. -/
theorem Processed.statements (h : Processed reg th e th') (he : Within D e) :
    th'.statements D = ((change e).sparing (th.fixed D)).apply (th.statements D) := by
  cases h with
  | noop hf hmod => exact Processed.rule_statements hf hmod rfl rfl
  | rule hf hmod _ => exact Processed.rule_statements hf hmod rfl rfl
  | @atom l database changes new hf hmod _ =>
    ext (⟨table, values⟩ | ⟨table, r⟩)
    · rw [Change.mem_apply_sparing, mem_statements_fact, mem_statements_fact]
      by_cases ht : table ∈ D
      · have hfixed : Statement.fact table values ∈ th.fixed D := .inr ht
        simp [ht, hfixed]
      · rw [(Processed.atom_facts hf hmod he ht).1, Change.mem_apply_sparing]
        simp [ht]
    · have hon : .rule table r ∉ (change e).on := by
        rw [change, hf]
        exact id
      rw [Change.mem_apply_sparing]
      simp only [hon, false_and, not_false_eq_true, true_and, false_or]
      rfl

theorem Processed.fixed_eq (h : Processed reg th e th') (he : Within D e) : th'.fixed D = th.fixed D := by
  cases h with
  | noop => rfl
  | rule => rfl
  | @atom l database changes new hf hmod _ =>
    ext (⟨table, values⟩ | ⟨table, r⟩)
    · by_cases ht : table ∈ D
      · exact iff_of_true (.inr ht) (.inr ht)
      · exact or_congr_left (Processed.atom_facts hf hmod he ht).2
    · exact .rfl

theorem Processed.definesWithin (h : Processed reg th e th') (he : Within D e)
    (hth : DefinesWithin D th) : DefinesWithin D th' := by
  cases h with
  | noop => exact hth
  | atom => exact hth
  | rule hf hmod _ =>
    cases hmod with
    | changed _ _ _ htriggers =>
      intro table d hd
      rcases htriggers table d hd with hd | hd
      · exact hth table d hd
      · rw [hd]
        exact he.rule _ hf

theorem Processed.queue (h : Processed reg th e th') (he : Within D e) (hth : DefinesWithin D th) :
    ∃ new, th'.queue = th.queue ++ new ∧ ∀ e' ∈ new, ∃ table ∈ D, DerivedFor table e' := by
  cases h with
  | noop => exact ⟨[], by simp, by simp⟩
  | rule hf _ hnew => exact ⟨_, rfl, fun e' he' => ⟨_, he.rule _ hf, hnew e' he'⟩⟩
  | atom _ _ hnew =>
    refine ⟨_, rfl, fun e' he' => ?_⟩
    obtain ⟨d, hd, he'⟩ := hnew e' he'
    exact ⟨_, hth _ d hd, he'⟩

theorem DerivedFor.within (h : DerivedFor table e) (ht : table ∈ D) : Within D e := by
  obtain ⟨-, l, hl, rfl⟩ := h
  refine ⟨fun r hr => ?_, fun l' hl' => .inr ?_⟩
  · rw [hl] at hr
    cases hr
  · rw [hl] at hl'
    cases hl'
    exact ht

/-- What is derived for tables in `D` does not count. -/
theorem applyAll_derived {F : Set (Statement V)} : ∀ {new : List (ProofEvent V)},
    (∀ e ∈ new, ∃ table ∈ D, DerivedFor table e) →
      applyAll F (new.map fun e => (change e).sparing (th.fixed D)) = F
  | [], _ => rfl
  | e :: new, h => by
    obtain ⟨⟨table, ht, he⟩, hnew⟩ := List.forall_mem_cons.1 h
    rw [List.map_cons, applyAll_cons, derived_apply he ht, applyAll_derived hnew]

/-- When the queue is empty, its events have done what they say. -/
theorem processQueue_statements : ∀ {n : ℕ} {th th' : MaterializedViewTheory V}
    {changes : List (ProofEvent V)},
    (processQueue reg theories setOrder fuel n).run th = (.ok changes, th') → DefinesWithin D th →
      (∀ e ∈ th.queue, Within D e) → th'.queue = []
        ∧ th'.statements D = applyAll (th.statements D)
          (th.queue.map fun e => (change e).sparing (th.fixed D))
  | 0, _, _, _, h, _, _ => by cases h
  | n + 1, th, th', changes, h, hth, hqueue => by
    unfold processQueue at h
    rw [run_get_bind] at h
    cases hq : th.queue with
    | nil =>
      rw [hq] at h
      cases h
      exact ⟨hq, rfl⟩
    | cons e queue =>
      simp only [hq, run_modify_bind] at h
      obtain ⟨changes₁, th₁, h₁, h⟩ := run_bind_ok.1 h
      obtain ⟨history, th₂, h₂, h⟩ := run_bind_ok.1 h
      cases h
      obtain ⟨he, hrest⟩ := List.forall_mem_cons.1 (hq ▸ hqueue)
      have hp := processEvent_ok h₁
      obtain ⟨new, hnew, hderived⟩ := hp.queue he hth
      obtain ⟨hnil, hst⟩ := processQueue_statements h₂ (hp.definesWithin he hth) fun e' he' => by
        rw [hnew] at he'
        rcases List.mem_append.1 he' with he' | he'
        · exact hrest e' he'
        · obtain ⟨table, ht, hd⟩ := hderived e' he'
          exact hd.within ht
      refine ⟨hnil, ?_⟩
      rw [hst, hp.fixed_eq he, hnew, List.map_append, applyAll_append, applyAll_derived hderived,
        hp.statements he]
      rfl

theorem enqueueAny_ok {formula : Formula V}
    (h : (enqueueAny formula insert).run th = (.ok (), th')) :
    formula.isDatalog = true ∧ th' = { th with queue := th.queue ++ expand formula insert } := by
  unfold enqueueAny at h
  cases hd : formula.isDatalog with
  | false =>
    simp only [hd, Bool.not_false, if_true] at h
    cases h
  | true =>
    simp only [hd, Bool.not_true, Bool.false_eq_true, if_false] at h
    refine ⟨rfl, ?_⟩
    cases formula with
    | atom l =>
      simp only [run_get_bind] at h
      split_ifs at h
      · cases h
      · cases h
        rfl
    | rule r =>
      cases h
      rfl

theorem enqueueAll_ok : ∀ {events : List (Formula V × Bool)} {th th' : MaterializedViewTheory V},
    (enqueueAll events).run th = (.ok (), th') →
      th' = { th with queue := th.queue ++ events.flatMap fun p => expand p.1 p.2 }
  | [], th, th', h => by
    cases h
    simp
  | (formula, insert) :: events, th, th', h => by
    unfold enqueueAll at h
    obtain ⟨⟨⟩, th₁, h₁, h⟩ := run_bind_ok.1 h
    obtain ⟨-, rfl⟩ := enqueueAny_ok h₁
    rw [enqueueAll_ok h]
    simp

/-- An update that returns has done what the events in the queue say, and then the new ones. -/
theorem update_statements {events : List (Formula V × Bool)}
    (h : (update reg theories setOrder fuel n events).run th = (.ok changes, th'))
    (hth : DefinesWithin D th) (hqueue : ∀ e ∈ th.queue, Within D e)
    (hevents : ∀ p ∈ events, ∀ e ∈ expand p.1 p.2, Within D e) :
    th'.queue = [] ∧ th'.statements D = applyAll (th.statements D)
      ((th.queue ++ events.flatMap fun p => expand p.1 p.2).map
        fun e => (change e).sparing (th.fixed D)) := by
  unfold update at h
  obtain ⟨⟨⟩, th₁, h₁, h⟩ := run_bind_ok.1 h
  rw [enqueueAll_ok h₁] at h
  refine processQueue_statements h hth fun e he => ?_
  rcases List.mem_append.1 he with he | he
  · exact hqueue e he
  · obtain ⟨p, hp, he⟩ := List.mem_flatMap.1 he
    exact hevents p hp e he

end MaterializedViewTheory

end Congress
