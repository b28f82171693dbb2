import Congress.Constants
import Congress.Lib.Run
import Congress.Proofs.FactSets
import Congress.Proofs.RuleStores

/-!
# Rule sets as sets of rules

A rule set keeps its facts as native tuples, and the rest as rules. It is the set of what was added and not
discarded or cleared since exactly as long as facts are ground atoms of their own table, no fact is there
that Python finds equal to another one, and no table has both facts and rules
(`ruleSet_is_set`).
-/

namespace Congress

open Lib Stateful

set_option linter.unusedSectionVars false

variable {V K : Type} [DecidableEq K] [DecidableEq V] {nat : Natives V K}

namespace Stored

/-- What is stated. -/
def formula : Stored V → Rule V
  | .fact f => factRule f.table f.values
  | .rule r => r

variable (nat) in
/-- What is put into the facts, or looked for there. -/
def converted (key : String) : Stored V → Fact V
  | .fact f => f
  | .rule r => ⟨key, nat.factValues r.head⟩

/-- `add_rule` puts it into the facts. -/
def addedAsFact : Stored V → Bool
  | .fact _ => true
  | .rule r => r.body.isEmpty && !r.head.negated

/-- `discard_rule` and `contains` look for it in the facts. -/
def soughtAsFact : Stored V → Bool
  | .fact _ => true
  | .rule r => r.body.isEmpty

end Stored

/-- Which rules were added under which keys, and not discarded or cleared since. -/
abbrev Members (V : Type) := String → Rule V → Prop

/-- The calls that change a rule set, and the question whether it contains something. -/
inductive SetOp (V : Type)
  | add (key : String) (item : Stored V)
  | discard (key : String) (item : Stored V)
  | clearTable (key : String)
  | contains (key : String) (item : Stored V)

namespace SetOp

variable (nat)

def apply (s : IndexedRuleSet V K) : SetOp V → IndexedRuleSet V K
  | .add key item => ((IndexedRuleSet.addRule nat key item).run s).2
  | .discard key item => ((IndexedRuleSet.discardRule nat key item).run s).2
  | .clearTable key => s.clearTable key
  | .contains _ _ => s

/-- What the call does to a set of rules, where rules that are equal are one rule. -/
def applyMembers (m : Members V) : SetOp V → Members V
  | .add key item => fun k r => m k r ∨ k = key ∧ item.formula.same r = true
  | .discard key item => fun k r => m k r ∧ ¬(k = key ∧ item.formula.same r = true)
  | .clearTable key => fun k r => m k r ∧ k ≠ key
  | .contains _ _ => m

/-- The call returns whether the set changes, or whether it has the rule. -/
def Returns (s : IndexedRuleSet V K) (m : Members V) : SetOp V → Prop
  | .add key item => ∃ changed, ((IndexedRuleSet.addRule nat key item).run s).1 = .ok changed
    ∧ (changed = true ↔ ¬m key item.formula)
  | .discard key item => ∃ changed, ((IndexedRuleSet.discardRule nat key item).run s).1 = .ok changed
    ∧ (changed = true ↔ m key item.formula)
  | .clearTable _ => True
  | .contains key item => s.contains nat key item = true ↔ m key item.formula

end SetOp

namespace IndexedRuleSet

/-- `get_rules` gives the members under a key, and the rules of all keys list each of them once. -/
structure Lists (s : IndexedRuleSet V K) (m : Members V) : Prop where
  yields : ∀ k r, (∃ r' ∈ s.allRules k, r'.same r = true) ↔ m k r
  all : ∀ k r, m k r → ∃ x ∈ s.content, x.1 = k ∧ x.2.same r = true
  once : s.content.Pairwise fun x y => ¬(x.1 = y.1 ∧ x.2.same y.2 = true)

variable (nat)

/-- Only what is stated is found among the facts, and it is not among the rules. -/
def Sought (s : IndexedRuleSet V K) (key : String) (item : Stored V) : Prop :=
  (∀ g ∈ (s.factsOf key).facts, (item.converted nat key).same nat g = true →
    factRule key g.values = item.formula)
  ∧ ∀ r ∈ s.rulesOf key, r.same item.formula = false

/-- A fact that is added is a ground atom of the table that keeps its meaning, and no other fact is found equal
to it; and facts are not added to a table that has rules, nor rules to one that has facts. -/
def MayAdd (s : IndexedRuleSet V K) (key : String) (item : Stored V) : Prop :=
  if item.addedAsFact then
    factRule key (item.converted nat key).values = item.formula
    ∧ (∀ g ∈ (s.factsOf key).facts, (item.converted nat key).same nat g = true →
      g.values = (item.converted nat key).values)
    ∧ key ∉ s.rules
  else key ∉ s.facts

end IndexedRuleSet

namespace SetOp

variable (nat)

/-- The call and the set reached are as they are for a set of rules. -/
def Right (p : IndexedRuleSet V K × Members V) (op : SetOp V) : Prop :=
  op.Returns nat p.1 p.2 ∧ (op.apply nat p.1).Lists (op.applyMembers p.2)

/-- The condition on a call. -/
def Meets (p : IndexedRuleSet V K × Members V) : SetOp V → Prop
  | .add key item => p.1.MayAdd nat key item
  | .discard key item => item.soughtAsFact = true → p.1.Sought nat key item
  | .clearTable _ => True
  | .contains key item => item.soughtAsFact = true → p.1.Sought nat key item

/-- A rule set and the set of rules that it should be. -/
def step (p : IndexedRuleSet V K × Members V) (op : SetOp V) : IndexedRuleSet V K × Members V :=
  (op.apply nat p.1, op.applyMembers p.2)

end SetOp

/-! ## Facts and rules -/

variable {key k : String} {item : Stored V} {r r' : Rule V} {f g : Fact V} {vs : List V}
  {s s' : IndexedRuleSet V K} {m : Members V}

theorem factRule_same_iff : (factRule key vs).same r = true ↔ factRule key vs = r := by
  constructor
  · intro h
    obtain ⟨hheads, hbody⟩ := Rule.same_iff.1 h
    obtain ⟨hhead, hmore⟩ := List.cons.inj (List.singleton_perm.1 hheads)
    rcases r with ⟨head, moreHeads, body⟩
    cases hhead
    cases hmore
    cases List.nil_perm.1 hbody
    rfl
  · rintro rfl
    exact Rule.same_refl _

theorem converted_of_formula (h : factRule key vs = item.formula) : item.converted nat key = ⟨key, vs⟩ := by
  rcases item with f | r
  · obtain ⟨table, values⟩ := f
    simp only [Stored.formula, factRule, Rule.mk.injEq, Literal.mk.injEq, Tablename.mk.injEq] at h
    obtain ⟨⟨⟨-, rfl, -⟩, hargs, -⟩, -⟩ := h
    rw [Stored.converted, List.map_injective_iff.2 (fun _ _ => Term.object.inj) hargs]
  · have hr : r = factRule key vs := h.symm
    subst hr
    rw [Stored.converted, Natives.factValues, factRule, List.map_map]
    exact congrArg (Fact.mk key) (List.map_id vs)

theorem soughtAsFact_of_formula (h : factRule key vs = item.formula) : item.soughtAsFact = true := by
  rcases item with f | r
  · rfl
  · rw [Stored.soughtAsFact, show r = factRule key vs from h.symm]
    rfl

theorem addedAsFact_of_formula (h : factRule key vs = item.formula) : item.addedAsFact = true := by
  rcases item with f | r
  · rfl
  · rw [Stored.addedAsFact, show r = factRule key vs from h.symm]
    rfl

namespace IndexedRuleSet

theorem mem_allRules : r ∈ s.allRules k ↔ (∃ f ∈ (s.factsOf k).facts, factRule k f.values = r) ∨ r ∈ s.rulesOf k := by
  simp [allRules]

theorem yields_iff : (∃ r' ∈ s.allRules k, r'.same r = true)
    ↔ (∃ f ∈ (s.factsOf k).facts, factRule k f.values = r) ∨ ∃ r' ∈ s.rulesOf k, r'.same r = true := by
  simp only [mem_allRules, or_and_right, exists_or]
  refine or_congr_left ⟨?_, ?_⟩
  · rintro ⟨_, ⟨f, hf, rfl⟩, hsame⟩
    exact ⟨f, hf, factRule_same_iff.1 hsame⟩
  · rintro ⟨f, hf, rfl⟩
    exact ⟨_, ⟨f, hf, rfl⟩, Rule.same_refl _⟩

variable (nat) in
/-- Facts are of their own table and told apart, and so are rules, which are no facts; nothing has an index. -/
structure Tidy (s : IndexedRuleSet V K) : Prop where
  plain : ∀ k, (s.factsOf k).indicies = ∅
  tables : ∀ k, ∀ f ∈ (s.factsOf k).facts, f.table = k
  facts : ∀ k, (s.factsOf k).facts.Pairwise fun f g => f.same nat g = false
  bodies : ∀ k, ∀ r ∈ s.rulesOf k, (Stored.rule r).addedAsFact = false
  rules : ∀ k, (s.rulesOf k).Pairwise fun r r' => r.same r' = false

/-- A table that is in both dictionaries is empty. -/
def Apart (s : IndexedRuleSet V K) : Prop := ∀ k ∈ s.facts, k ∈ s.rules → s.allRules k = []

/-- No rule among the rules is a fact. -/
theorem Tidy.not_fact (h : Tidy nat s) (hr : r ∈ s.rulesOf k) : r.same (factRule key vs) = false := by
  refine Bool.eq_false_iff.2 fun hsame => ?_
  have heq : factRule key vs = (Stored.rule r).formula := factRule_same_iff.1 (Rule.same_symm hsame)
  have hfact := addedAsFact_of_formula heq
  rw [h.bodies k r hr] at hfact
  exact Bool.false_ne_true hfact

theorem mem_facts_of_mem (h : f ∈ (s.factsOf k).facts) : k ∈ s.facts := by
  by_contra hk
  rw [factsOf_of_notMem hk] at h
  cases h

theorem mem_rules_of_mem (h : r ∈ s.rulesOf k) : k ∈ s.rules := by
  by_contra hk
  rw [rulesOf, AList.lookup_eq_none.2 hk] at h
  cases h

theorem mem_keys (h : r ∈ s.allRules k) : k ∈ s.facts ∨ k ∈ s.rules := by
  rcases mem_allRules.1 h with ⟨f, hf, -⟩ | hr
  · exact .inl (mem_facts_of_mem hf)
  · exact .inr (mem_rules_of_mem hr)

theorem mem_content {x : String × Rule V} : x ∈ s.content ↔ x.2 ∈ s.allRules x.1 := by
  obtain ⟨k, r⟩ := x
  simp only [content, List.mem_flatMap, List.mem_map, Prod.mk.injEq, keys, List.mem_append]
  constructor
  · rintro ⟨_, -, r', hr', rfl, rfl⟩
    exact hr'
  · exact fun h => ⟨k, mem_keys h, r, h, rfl, rfl⟩

theorem apart_of_once (h : s.content.Pairwise fun x y => ¬(x.1 = y.1 ∧ x.2.same y.2 = true)) : s.Apart := by
  intro k hfacts hrules
  rw [content, List.pairwise_flatMap, keys, List.pairwise_append] at h
  refine List.eq_nil_iff_forall_not_mem.2 fun r hr => ?_
  exact h.2.2.2 k hfacts k hrules _ (List.mem_map_of_mem hr) _ (List.mem_map_of_mem hr)
    ⟨rfl, Rule.same_refl r⟩

/-- What is kept under a key is told apart. -/
theorem Tidy.allRules (h : Tidy nat s) (k : String) :
    (s.allRules k).Pairwise fun r r' => r.same r' = false := by
  refine List.pairwise_append.2 ⟨List.pairwise_map.2 ?_, h.rules k, ?_⟩
  · refine (h.facts k).imp_of_mem fun {f g} hf hg hne => Bool.eq_false_iff.2 fun hsame => ?_
    have hvalues : (factRule k g.values).head.arguments = f.values.map .object := by
      rw [← factRule_same_iff.1 hsame]
      rfl
    have hfg : f.same nat g = true := Fact.same_iff.2 ⟨(h.tables k f hf).trans (h.tables k g hg).symm, by
      rw [List.map_injective_iff.2 (fun _ _ => Term.object.inj) hvalues]⟩
    rw [hne] at hfg
    exact Bool.false_ne_true hfg
  · intro r hr r' hr'
    obtain ⟨f, -, rfl⟩ := List.mem_map.1 hr
    rw [Rule.same_comm]
    exact h.not_fact hr'

theorem Tidy.once (h : Tidy nat s) (ha : s.Apart) :
    s.content.Pairwise fun x y => ¬(x.1 = y.1 ∧ x.2.same y.2 = true) := by
  refine List.pairwise_flatMap.2 ⟨fun k _ => List.pairwise_map.2 ?_, ?_⟩
  · exact (h.allRules k).imp fun hne hsame => by simp [hne] at hsame
  · have hkeys : s.keys.Pairwise fun k k' => k = k' → s.allRules k = [] := by
      refine List.pairwise_append.2 ⟨?_, ?_, ?_⟩
      · exact s.facts.nodupKeys.imp fun hne heq => absurd heq hne
      · exact s.rules.nodupKeys.imp fun hne heq => absurd heq hne
      · rintro k hk _ hk' rfl
        exact ha k hk hk'
    refine hkeys.imp fun {k k'} hempty x hx y hy hxy => ?_
    obtain ⟨r, hr, rfl⟩ := List.mem_map.1 hx
    obtain ⟨r', -, rfl⟩ := List.mem_map.1 hy
    rw [hempty hxy.1] at hr
    cases hr

/-- What is left to see of a set that is tidy. -/
theorem Tidy.lists_iff (h : Tidy nat s) :
    s.Lists m ↔ (∀ k r, (∃ r' ∈ s.allRules k, r'.same r = true) ↔ m k r) ∧ s.Apart := by
  refine ⟨fun hl => ⟨hl.yields, apart_of_once hl.once⟩, fun ⟨hyields, ha⟩ => ⟨hyields, fun k r hm => ?_, h.once ha⟩⟩
  obtain ⟨r', hr', hsame⟩ := (hyields k r).2 hm
  exact ⟨(k, r'), mem_content.2 hr', rfl, hsame⟩

/-! ## What is looked for among the facts -/

/-- Two facts that are found equal are one. -/
theorem Tidy.eq_of_same (h : Tidy nat s) (hf : f ∈ (s.factsOf k).facts) (hg : g ∈ (s.factsOf k).facts)
    (hsame : f.same nat g = true) : f = g := by
  by_contra hne
  have hsymm : Std.Symm fun f g : Fact V => f.same nat g = false := ⟨fun _ _ h => Fact.same_comm.trans h⟩
  have hfalse := (h.facts k).forall hf hg hne
  rw [hfalse] at hsame
  exact Bool.false_ne_true hsame

theorem fact_same_trans {f' : Fact V} (h : f.same nat g = true) (h' : g.same nat f' = true) :
    f.same nat f' = true := by
  obtain ⟨htable, hvalues⟩ := Fact.same_iff.1 h
  obtain ⟨htable', hvalues'⟩ := Fact.same_iff.1 h'
  exact Fact.same_iff.2 ⟨htable.trans htable', hvalues.trans hvalues'⟩

/-- A stated fact is the one that its statement is converted to. -/
theorem Tidy.converted_eq (h : Tidy nat s) (hf : f ∈ (s.factsOf key).facts)
    (heq : factRule key f.values = item.formula) : item.converted nat key = f := by
  rw [converted_of_formula heq, ← h.tables key f hf]

/-- What is sought is found among the facts exactly if it is stated, under the condition for that. -/
theorem Tidy.sought_iff (h : Tidy nat s) (ha : s.Apart) (key : String) (item : Stored V) :
    ((s.factsOf key).facts.any ((item.converted nat key).same nat) = true
      ↔ ∃ r ∈ s.allRules key, r.same item.formula = true) ↔ s.Sought nat key item := by
  rw [yields_iff, List.any_eq_true]
  constructor
  · refine fun hiff => ⟨fun g hg hsame => ?_, fun r hr => Bool.eq_false_iff.2 fun hsame => ?_⟩
    · rcases hiff.1 ⟨g, hg, hsame⟩ with ⟨f, hf, heq⟩ | ⟨r, hr, -⟩
      · rw [h.converted_eq hf heq] at hsame
        rwa [← h.eq_of_same hf hg hsame]
      · have hempty := ha key (mem_facts_of_mem hg) (mem_rules_of_mem hr)
        cases hempty ▸ mem_allRules.2 (.inr hr)
    · obtain ⟨g, hg, -⟩ := hiff.2 (.inr ⟨r, hr, hsame⟩)
      have hempty := ha key (mem_facts_of_mem hg) (mem_rules_of_mem hr)
      cases hempty ▸ mem_allRules.2 (.inr hr)
  · rintro ⟨hfacts, hrules⟩
    constructor
    · exact fun ⟨g, hg, hsame⟩ => .inl ⟨g, hg, hfacts g hg hsame⟩
    · rintro (⟨f, hf, heq⟩ | ⟨r, hr, hsame⟩)
      · exact ⟨f, hf, by rw [h.converted_eq hf heq]; exact Fact.same_refl f⟩
      · rw [hrules r hr] at hsame
        cases hsame

/-! ## Steps -/

/-- Sets of facts without an index. -/
theorem Tidy.of_facts {fs : List (Fact V)} (h : Tidy nat s) (hrules : s'.rules = s.rules)
    (hfacts : ∀ k, s'.factsOf k = if k = key then ⟨fs, ∅⟩ else s.factsOf k) (htables : ∀ f ∈ fs, f.table = key)
    (hdistinct : fs.Pairwise fun f g => f.same nat g = false) : Tidy nat s' where
  plain k := by
    rw [hfacts]
    split_ifs
    · rfl
    · exact h.plain k
  tables k := by
    rw [hfacts]
    split_ifs with hk
    · exact hk ▸ htables
    · exact h.tables k
  facts k := by
    rw [hfacts]
    split_ifs
    · exact hdistinct
    · exact h.facts k
  bodies k := by
    rw [rulesOf, hrules]
    exact h.bodies k
  rules k := by
    rw [rulesOf, hrules]
    exact h.rules k

theorem run_add_plain {fs : FactSet V K} (h : fs.indicies = ∅) (f : Fact V) : (FactSet.add nat f).run fs
    = (.ok (!fs.facts.any (f.same nat)),
      ⟨if fs.facts.any (f.same nat) then fs.facts else fs.facts ++ [f], ∅⟩) := by
  obtain ⟨facts, indicies⟩ := fs
  cases h
  rw [FactSet.add, run_get_bind]
  rcases hany : facts.any (f.same nat) with _ | _
  · rfl
  · rfl

theorem run_remove_plain {fs : FactSet V K} (h : fs.indicies = ∅) (f : Fact V) : (FactSet.remove nat f).run fs
    = (.ok (fs.facts.any (f.same nat)), ⟨fs.facts.eraseP (f.same nat), ∅⟩) := by
  obtain ⟨facts, indicies⟩ := fs
  cases h
  rw [FactSet.remove, run_get_bind]
  rcases hany : facts.any (f.same nat) with _ | _
  · rw [List.eraseP_of_forall_not (List.any_eq_false.1 hany)]
    rfl
  · rfl

theorem Tidy.run_addFact (h : Tidy nat s) (key : String) (f : Fact V) : ∃ s',
    (addFact nat key f).run s = (.ok (!(s.factsOf key).facts.any (f.same nat)), s') ∧ s'.rules = s.rules
      ∧ (∀ k, s'.factsOf k = if k = key then
        ⟨if (s.factsOf key).facts.any (f.same nat) then (s.factsOf key).facts
          else (s.factsOf key).facts ++ [f], ∅⟩ else s.factsOf k)
      ∧ ∀ k, k ∈ s'.facts ↔ k = key ∨ k ∈ s.facts := by
  have hrun := addFact_run nat key s f
  rw [run_add_plain (h.plain key)] at hrun
  exact ⟨_, Prod.ext hrun.1 hrun.2, rfl, fun k => factsOf_insert, fun k => AList.mem_insert _⟩

theorem Tidy.run_discardFact (h : Tidy nat s) (key : String) (f : Fact V) : ∃ s',
    (discardFact nat key f).run s = (.ok ((s.factsOf key).facts.any (f.same nat)), s') ∧ s'.rules = s.rules
      ∧ (∀ k, s'.factsOf k = if k = key then ⟨(s.factsOf key).facts.eraseP (f.same nat), ∅⟩
        else s.factsOf k)
      ∧ ∀ k, k ∈ s'.facts → k ∈ s.facts := by
  unfold discardFact
  rw [run_get_bind]
  split_ifs with hkey
  · rw [run_bind, run_onFacts, run_remove_plain (h.plain key)]
    refine ⟨_, rfl, ?_⟩
    dsimp only
    rw [factsOf_insert, if_pos rfl]
    by_cases hempty : ((s.factsOf key).facts.eraseP (f.same nat)).isEmpty = true
    · rw [if_pos hempty]
      refine ⟨rfl, fun k => ?_, fun k hk => ?_⟩
      · rw [factsOf_erase (s := ⟨s.rules, s.facts.insert key _⟩), factsOf_insert, List.isEmpty_iff.1 hempty]
        split_ifs
        · rfl
        · rfl
      · obtain ⟨hne, hk⟩ := AList.mem_erase.1 hk
        exact ((AList.mem_insert _).1 hk).resolve_left hne
    · rw [if_neg hempty]
      refine ⟨rfl, fun k => factsOf_insert, fun k hk => ?_⟩
      rcases (AList.mem_insert _).1 hk with rfl | hk
      · exact hkey
      · exact hk
  · refine ⟨s, by rw [factsOf_of_notMem hkey]; rfl, rfl, fun k => ?_, fun _ => id⟩
    split_ifs with hk
    · rw [hk, factsOf_of_notMem hkey]
      rfl
    · rfl

theorem addRule_fact (h : item.addedAsFact = true) :
    addRule nat key item = addFact nat key (item.converted nat key) := by
  rcases item with f | r
  · rfl
  · exact if_pos h

theorem discardRule_fact (h : item.soughtAsFact = true) :
    discardRule nat key item = discardFact nat key (item.converted nat key) := by
  rcases item with f | r
  · rfl
  · exact if_pos h

theorem contains_fact (h : item.soughtAsFact = true) :
    s.contains nat key item = (s.factsOf key).facts.any ((item.converted nat key).same nat) := by
  rcases item with f | r
  · rfl
  · exact if_pos h

theorem rulesOf_insert {rs : List (Rule V)} {facts : AList fun _ : String => FactSet V K} :
    rulesOf ⟨s.rules.insert key rs, facts⟩ k = if k = key then rs else s.rulesOf k := by
  unfold rulesOf
  split_ifs with hk
  · rw [hk, AList.lookup_insert]
    rfl
  · rw [AList.lookup_insert_ne hk]

theorem rulesOf_erase {facts : AList fun _ : String => FactSet V K} :
    rulesOf ⟨s.rules.erase key, facts⟩ k = if k = key then [] else s.rulesOf k := by
  unfold rulesOf
  split_ifs with hk
  · rw [hk, AList.lookup_erase]
    rfl
  · rw [AList.lookup_erase_ne hk]

variable (nat key s) in
theorem run_addRule_rule (h : (Stored.rule r).addedAsFact = false) : ∃ s',
    (addRule nat key (.rule r)).run s = (.ok (!(s.rulesOf key).any (·.same r)), s') ∧ s'.facts = s.facts
      ∧ (∀ k, s'.rulesOf k = if k = key then
        (if (s.rulesOf key).any (·.same r) then s.rulesOf key else s.rulesOf key ++ [r]) else s.rulesOf k)
      ∧ ∀ k, k ∈ s'.rules ↔ k = key ∨ k ∈ s.rules := by
  have hrule : ¬(r.body.isEmpty && !r.head.negated) = true := Bool.eq_false_iff.1 h
  rw [addRule, if_neg hrule, run_get_bind]
  dsimp only
  rcases hany : (s.rulesOf key).any (·.same r) with _ | _
  · exact ⟨_, rfl, rfl, fun k => rulesOf_insert, fun k => AList.mem_insert _⟩
  · obtain ⟨r', hr', -⟩ := List.any_eq_true.1 hany
    refine ⟨s, rfl, rfl, fun k => ?_, fun k => ⟨.inr, ?_⟩⟩
    · rw [if_pos rfl]
      split_ifs with hk
      · rw [hk]
      · rfl
    · rintro (rfl | hk)
      · exact mem_rules_of_mem hr'
      · exact hk

variable (nat key s) in
theorem run_discardRule_rule (h : (Stored.rule r).soughtAsFact = false) : ∃ s',
    (discardRule nat key (.rule r)).run s = (.ok ((s.rulesOf key).any (·.same r)), s') ∧ s'.facts = s.facts
      ∧ (∀ k, s'.rulesOf k = if k = key then (s.rulesOf key).eraseP (·.same r) else s.rulesOf k)
      ∧ ∀ k, k ∈ s'.rules → k ∈ s.rules := by
  have hrule : ¬r.body.isEmpty = true := Bool.eq_false_iff.1 h
  rw [discardRule, if_neg hrule, run_get_bind]
  dsimp only
  by_cases hkey : key ∈ s.rules
  · rw [if_pos hkey]
    refine ⟨_, rfl, rfl, ?_⟩
    by_cases hempty : ((s.rulesOf key).eraseP (·.same r)).isEmpty = true
    · dsimp only
      rw [if_pos hempty, List.isEmpty_iff.1 hempty]
      exact ⟨fun k => rulesOf_erase, fun k hk => (AList.mem_erase.1 hk).2⟩
    · dsimp only
      rw [if_neg hempty]
      refine ⟨fun k => rulesOf_insert, fun k hk => ?_⟩
      rcases (AList.mem_insert _).1 hk with rfl | hk
      · exact hkey
      · exact hk
  · have hnil : s.rulesOf key = [] := by
      rw [rulesOf, AList.lookup_eq_none.2 hkey]
      rfl
    rw [if_neg hkey, hnil]
    refine ⟨s, rfl, rfl, fun k => ?_, fun _ => id⟩
    split_ifs with hk
    · rw [hk, hnil]
      rfl
    · rfl

variable (nat) in
/-- The rule set is tidy and holds the members. -/
structure Holds (s : IndexedRuleSet V K) (m : Members V) : Prop where
  tidy : Tidy nat s
  apart : s.Apart
  yields : ∀ k r, (∃ r' ∈ s.allRules k, r'.same r = true) ↔ m k r

theorem rulesOf_of_notMem (h : key ∉ s.rules) : s.rulesOf key = [] := by
  rw [rulesOf, AList.lookup_eq_none.2 h]
  rfl

theorem Holds.member_fact (h : Holds nat s m) (hm : m key item.formula) (hrules : key ∉ s.rules) :
    ∃ f ∈ (s.factsOf key).facts, factRule key f.values = item.formula := by
  rcases yields_iff.1 ((h.yields key item.formula).2 hm) with hfact | ⟨r, hr, -⟩
  · exact hfact
  · rw [rulesOf_of_notMem hrules] at hr
    cases hr

theorem allRules_congr (hfacts : s'.factsOf k = s.factsOf k) (hrules : s'.rulesOf k = s.rulesOf k) :
    s'.allRules k = s.allRules k := by
  rw [allRules, allRules, hfacts, hrules]

/-- The members after a fact was added. -/
theorem Holds.addFact_right (h : Holds nat s m) (hfact : item.addedAsFact = true)
    (hmay : s.MayAdd nat key item) :
    Tidy nat ((SetOp.add key item).apply nat s) ∧ (SetOp.add key item).Right nat (s, m) := by
  rw [MayAdd, if_pos hfact] at hmay
  obtain ⟨hfaithful, hclear, hnot⟩ := hmay
  obtain ⟨s', hrun, hrules, hfacts, hmem⟩ := h.tidy.run_addFact key (item.converted nat key)
  have happly : (SetOp.add key item).apply nat s = s' := by rw [SetOp.apply, addRule_fact hfact, hrun]
  have hsought : s.Sought nat key item := ⟨fun g hg hsame => by rw [hclear g hg hsame, hfaithful],
    fun r hr => by
      rw [rulesOf_of_notMem hnot] at hr
      cases hr⟩
  have hany := (h.tidy.sought_iff h.apart key item).2 hsought
  rw [h.yields] at hany
  have htidy : Tidy nat s' := by
    refine h.tidy.of_facts hrules hfacts ?_ ?_
    · split_ifs
      · exact h.tidy.tables key
      · refine List.forall_mem_append.2 ⟨h.tidy.tables key, List.forall_mem_singleton.2 ?_⟩
        rw [converted_of_formula hfaithful]
    · split_ifs with hold
      · exact h.tidy.facts key
      · refine List.pairwise_append.2 ⟨h.tidy.facts key, List.pairwise_singleton .., fun g hg f hf => ?_⟩
        rw [List.mem_singleton.1 hf, Fact.same_comm]
        exact Bool.eq_false_iff.2 fun hsame => hold (List.any_eq_true.2 ⟨g, hg, hsame⟩)
  rw [happly]
  refine ⟨htidy, ⟨_, by rw [addRule_fact hfact, hrun], ?_⟩, ?_⟩
  · show _ ↔ ¬m key item.formula
    rw [← hany, Bool.not_eq_true']
    exact (Bool.not_eq_true _).symm.to_iff
  rw [happly, htidy.lists_iff]
  refine ⟨fun k r => ?_, fun k hk hk' => ?_⟩
  · rw [yields_iff, hfacts, rulesOf, hrules, ← rulesOf]
    show _ ↔ m k r ∨ k = key ∧ item.formula.same r = true
    rw [← h.yields, yields_iff, ← hfaithful, factRule_same_iff]
    by_cases hkey : k = key
    · subst hkey
      rw [if_pos rfl, rulesOf_of_notMem hnot]
      split_ifs with hold
      · obtain ⟨g, hg, hsame⟩ := List.any_eq_true.1 hold
        have hvalues := hclear g hg hsame
        constructor
        · exact .inl
        · rintro (hr | ⟨-, rfl⟩)
          · exact hr
          · exact .inl ⟨g, hg, by rw [hvalues]⟩
      · simp [or_and_right, exists_or]
    · rw [if_neg hkey]
      simp [hkey]
  · rw [hrules] at hk'
    have hkey : k ≠ key := fun he => hnot (he ▸ hk')
    rw [allRules_congr (s := s) (by rw [hfacts, if_neg hkey]) (by rw [rulesOf, hrules, rulesOf])]
    exact h.apart k (((hmem k).1 hk).resolve_left hkey) hk'

/-- A fact may be added if the call is right. -/
theorem Holds.addFact_meets (h : Holds nat s m) (hfact : item.addedAsFact = true)
    (hright : (SetOp.add key item).Right nat (s, m)) : s.MayAdd nat key item := by
  obtain ⟨s', hrun, hrules, hfacts, hmem⟩ := h.tidy.run_addFact key (item.converted nat key)
  have happly : (SetOp.add key item).apply nat s = s' := by rw [SetOp.apply, addRule_fact hfact, hrun]
  obtain ⟨⟨changed, hchanged, hiff⟩, hlists⟩ := hright
  rw [addRule_fact hfact, hrun, Except.ok.injEq] at hchanged
  rw [happly] at hlists
  obtain ⟨g, hg, -⟩ : ∃ g ∈ (s'.factsOf key).facts, (item.converted nat key).same nat g = true := by
    rw [hfacts, if_pos rfl]
    rcases hany : (s.factsOf key).facts.any ((item.converted nat key).same nat) with _ | _
    · exact ⟨_, List.mem_append_right _ (List.mem_singleton_self _), Fact.same_refl _⟩
    · exact List.any_eq_true.1 hany
  have hnot : key ∉ s.rules := fun hkey => by
    have hempty := apart_of_once hlists.once key ((hmem key).2 (.inl rfl)) (hrules ▸ hkey)
    cases hempty ▸ mem_allRules.2 (.inl ⟨g, hg, rfl⟩)
  rw [MayAdd, if_pos hfact]
  refine ⟨?_, fun g hg hsame => ?_, hnot⟩
  · have hmember : (SetOp.add key item).applyMembers m key item.formula := .inr ⟨rfl, Rule.same_refl _⟩
    rcases yields_iff.1 ((hlists.yields key item.formula).2 hmember) with ⟨f, -, heq⟩ | ⟨r, hr, -⟩
    · rw [converted_of_formula heq, heq]
    · rw [rulesOf, hrules, ← rulesOf, rulesOf_of_notMem hnot] at hr
      cases hr
  · have hm : m key item.formula := by
      by_contra hm
      have hnew := hiff.2 hm
      rw [← hchanged, List.any_eq_true.2 ⟨g, hg, hsame⟩] at hnew
      cases hnew
    obtain ⟨f, hf, heq⟩ := h.member_fact hm hnot
    rw [h.tidy.converted_eq hf heq] at hsame ⊢
    rw [h.tidy.eq_of_same hf hg hsame]

/-- Adding a rule is right exactly if the table has no facts. -/
theorem Holds.addRule_iff (h : Holds nat s m) (key : String) (hrule : (Stored.rule r).addedAsFact = false) :
    ((SetOp.add key (.rule r)).Right nat (s, m) ↔ key ∉ s.facts)
      ∧ (key ∉ s.facts → Tidy nat ((SetOp.add key (.rule r)).apply nat s)) := by
  obtain ⟨s', hrun, hfacts, hrules, hmem⟩ := run_addRule_rule nat key s hrule
  have happly : (SetOp.add key (.rule r)).apply nat s = s' := by rw [SetOp.apply, hrun]
  have hfactsOf : ∀ k, s'.factsOf k = s.factsOf k := fun k => by rw [factsOf, hfacts, factsOf]
  have htidy : Tidy nat s' := by
    refine ⟨fun k => ?_, fun k => ?_, fun k => ?_, fun k => ?_, fun k => ?_⟩
    · rw [hfactsOf]
      exact h.tidy.plain k
    · rw [hfactsOf]
      exact h.tidy.tables k
    · rw [hfactsOf]
      exact h.tidy.facts k
    · rw [hrules]
      split_ifs
      · exact h.tidy.bodies key
      · exact List.forall_mem_append.2 ⟨h.tidy.bodies key, List.forall_mem_singleton.2 hrule⟩
      · exact h.tidy.bodies k
    · rw [hrules]
      split_ifs with _ hold
      · exact h.tidy.rules key
      · refine List.pairwise_append.2 ⟨h.tidy.rules key, List.pairwise_singleton .., fun r' hr' x hx => ?_⟩
        rw [List.mem_singleton.1 hx]
        exact Bool.eq_false_iff.2 fun hsame => hold (List.any_eq_true.2 ⟨r', hr', hsame⟩)
      · exact h.tidy.rules k
  refine ⟨⟨fun hright hkey => ?_, fun hnot => ⟨⟨_, by rw [hrun], ?_⟩, ?_⟩⟩, fun _ => happly ▸ htidy⟩
  · have hlists := hright.2
    rw [happly] at hlists
    have hempty := apart_of_once hlists.once key (hfacts ▸ hkey) ((hmem key).2 (.inl rfl))
    have hnil : s'.rulesOf key = [] := (List.append_eq_nil_iff.1 hempty).2
    rw [hrules, if_pos rfl] at hnil
    split_ifs at hnil with hold
    · rw [hnil] at hold
      cases hold
    · simp at hnil
  · show _ ↔ ¬m key r
    rw [← h.yields, yields_iff, factsOf_of_notMem hnot]
    simp [FactSet.empty]
  · rw [happly, htidy.lists_iff]
    refine ⟨fun k x => ?_, fun k hk hk' => ?_⟩
    · show _ ↔ m k x ∨ k = key ∧ r.same x = true
      rw [yields_iff, hfactsOf, hrules, ← h.yields, yields_iff]
      by_cases hkey : k = key
      · subst hkey
        rw [if_pos rfl]
        split_ifs with hold
        · obtain ⟨r', hr', hsame⟩ := List.any_eq_true.1 hold
          constructor
          · exact .inl
          · rintro (hx | ⟨-, hx⟩)
            · exact hx
            · exact .inr ⟨r', hr', Rule.same_trans hsame hx⟩
        · simp [or_and_right, exists_or, or_assoc]
      · rw [if_neg hkey]
        simp [hkey]
    · rw [hfacts] at hk
      have hkey : k ≠ key := fun he => hnot (he ▸ hk)
      rw [allRules_congr (hfactsOf k) (by rw [hrules, if_neg hkey])]
      exact h.apart k hk (((hmem k).1 hk').resolve_left hkey)

/-- A fact that is taken out is not found any more. -/
theorem not_same_of_mem_eraseP {fs : List (Fact V)} (h : fs.Pairwise fun f g => f.same nat g = false)
    (hg : g ∈ fs.eraseP (f.same nat)) : f.same nat g = false := by
  induction fs with
  | nil => cases hg
  | cons a fs ih =>
    obtain ⟨ha, h⟩ := List.pairwise_cons.1 h
    rcases hfa : f.same nat a with _ | _
    · rw [List.eraseP_cons_of_neg (by simp [hfa])] at hg
      rcases List.mem_cons.1 hg with rfl | hg
      · exact hfa
      · exact ih h hg
    · rw [List.eraseP_cons_of_pos hfa] at hg
      refine Bool.eq_false_iff.2 fun hfg => ?_
      rw [Fact.same_comm] at hfa
      exact Bool.eq_false_iff.1 (ha g hg) (fact_same_trans hfa hfg)

/-- Discarding a fact is right exactly if it is sought. -/
theorem Holds.discardFact_iff (h : Holds nat s m) (key : String) (hfact : item.soughtAsFact = true) :
    ((SetOp.discard key item).Right nat (s, m) ↔ s.Sought nat key item)
      ∧ Tidy nat ((SetOp.discard key item).apply nat s) := by
  obtain ⟨s', hrun, hrules, hfacts, hmem⟩ := h.tidy.run_discardFact key (item.converted nat key)
  have happly : (SetOp.discard key item).apply nat s = s' := by rw [SetOp.apply, discardRule_fact hfact, hrun]
  have htidy : Tidy nat s' := h.tidy.of_facts hrules hfacts
    (fun f hf => h.tidy.tables key f (List.mem_of_mem_eraseP hf))
    ((h.tidy.facts key).sublist List.eraseP_sublist)
  have hany := h.tidy.sought_iff h.apart key item
  rw [h.yields] at hany
  refine ⟨⟨fun hright => ?_, fun hsought => ⟨⟨_, by rw [discardRule_fact hfact, hrun],
    hany.2 hsought⟩, ?_⟩⟩, happly ▸ htidy⟩
  · obtain ⟨changed, hchanged, hiff⟩ := hright.1
    rw [discardRule_fact hfact, hrun, Except.ok.injEq] at hchanged
    exact hany.1 (hchanged ▸ hiff)
  rw [happly, htidy.lists_iff]
  have hR : ∀ k, s'.rulesOf k = s.rulesOf k := fun k => by rw [rulesOf, hrules, rulesOf]
  refine ⟨fun k r => ?_, fun k hk hk' => ?_⟩
  · show _ ↔ m k r ∧ ¬(k = key ∧ item.formula.same r = true)
    rw [yields_iff, hfacts, hR, ← h.yields, yields_iff]
    by_cases hkey : k = key
    · subst hkey
      rw [if_pos rfl]
      constructor
      · rintro (⟨f, hf, rfl⟩ | ⟨r', hr', hsame⟩)
        · refine ⟨.inl ⟨f, List.mem_of_mem_eraseP hf, rfl⟩, fun hboth => ?_⟩
          have heq := factRule_same_iff.1 (Rule.same_symm hboth.2)
          have hnot := not_same_of_mem_eraseP (h.tidy.facts k) hf
          rw [h.tidy.converted_eq (List.mem_of_mem_eraseP hf) heq, Fact.same_refl] at hnot
          cases hnot
        · refine ⟨.inr ⟨r', hr', hsame⟩, fun hboth => ?_⟩
          have hnot := hsought.2 r' hr'
          rw [Rule.same_trans hsame (Rule.same_symm hboth.2)] at hnot
          cases hnot
      · rintro ⟨⟨f, hf, rfl⟩ | hr, hnot⟩
        · refine .inl ⟨f, (List.mem_eraseP_of_neg fun hsame => hnot ⟨rfl, ?_⟩).2 hf, rfl⟩
          rw [← hsought.1 f hf hsame]
          exact Rule.same_refl _
        · exact .inr hr
    · rw [if_neg hkey]
      simp [hkey]
  · rw [hrules] at hk'
    have hempty := h.apart k (hmem k hk) hk'
    refine List.eq_nil_iff_forall_not_mem.2 fun r hr => ?_
    have hold : r ∈ s.allRules k := by
      rw [mem_allRules, hfacts, hR] at hr
      refine mem_allRules.2 (hr.imp_left fun hstored => ?_)
      obtain ⟨f, hf, heq⟩ := hstored
      refine ⟨f, ?_, heq⟩
      split_ifs at hf with hkey
      · rw [hkey]
        exact List.mem_of_mem_eraseP hf
      · exact hf
    rw [hempty] at hold
    cases hold

/-- Discarding a rule with a body is right. -/
theorem Holds.discardRule_right (h : Holds nat s m) (key : String) (hrule : (Stored.rule r).soughtAsFact = false) :
    (SetOp.discard key (.rule r)).Right nat (s, m)
      ∧ Tidy nat ((SetOp.discard key (.rule r)).apply nat s) := by
  obtain ⟨s', hrun, hfacts, hrules, hmem⟩ := run_discardRule_rule nat key s hrule
  have happly : (SetOp.discard key (.rule r)).apply nat s = s' := by rw [SetOp.apply, hrun]
  have hfactsOf : ∀ k, s'.factsOf k = s.factsOf k := fun k => by rw [factsOf, hfacts, factsOf]
  have hsub : ∀ k, (s'.rulesOf k).Sublist (s.rulesOf k) := fun k => by
    rw [hrules]
    split_ifs with hk
    · rw [hk]
      exact List.eraseP_sublist
    · exact List.Sublist.refl _
  have htidy : Tidy nat s' := by
    refine ⟨fun k => ?_, fun k => ?_, fun k => ?_, fun k r' hr' => h.tidy.bodies k r' ((hsub k).subset hr'),
      fun k => (h.tidy.rules k).sublist (hsub k)⟩
    · rw [hfactsOf]
      exact h.tidy.plain k
    · rw [hfactsOf]
      exact h.tidy.tables k
    · rw [hfactsOf]
      exact h.tidy.facts k
  have hfact : ∀ vs, factRule key vs ≠ r := fun vs heq => by
    rw [soughtAsFact_of_formula (show factRule key vs = (Stored.rule r).formula from heq)] at hrule
    cases hrule
  refine ⟨⟨⟨_, by rw [hrun], ?_⟩, ?_⟩, happly ▸ htidy⟩
  · show _ ↔ m key r
    rw [← h.yields, yields_iff]
    simp [hfact]
  rw [happly, htidy.lists_iff]
  refine ⟨fun k x => ?_, fun k hk hk' => ?_⟩
  · show _ ↔ m k x ∧ ¬(k = key ∧ r.same x = true)
    rw [yields_iff, hfactsOf, hrules, ← h.yields, yields_iff]
    by_cases hkey : k = key
    · subst hkey
      have herase : (∃ p ∈ (s.rulesOf k).eraseP (·.same r), p.same x = true)
          ↔ (∃ p ∈ s.rulesOf k, p.same x = true) ∧ r.same x = false :=
        Rule.exists_eraseP_same id (h.tidy.rules k)
      rw [if_pos rfl, herase, or_and_right]
      refine or_congr ⟨fun hstored => ⟨hstored, fun hboth => ?_⟩, And.left⟩ (by simp)
      obtain ⟨f, hf, heq⟩ := hstored
      have hsame := hboth.2
      rw [← heq] at hsame
      exact hfact _ (factRule_same_iff.1 (Rule.same_symm hsame))
    · rw [if_neg hkey]
      simp [hkey]
  · rw [hfacts] at hk
    have hempty := List.append_eq_nil_iff.1 (h.apart k hk (hmem k hk'))
    have hnil : s'.rulesOf k = [] := List.sublist_nil.1 (hempty.2 ▸ hsub k)
    rw [allRules, hfactsOf, hempty.1, hnil]
    rfl

/-- Clearing a table is right. -/
theorem Holds.clearTable_right (h : Holds nat s m) (key : String) :
    (SetOp.clearTable key).Right nat (s, m) ∧ Tidy nat (s.clearTable key) := by
  have hfacts : ∀ k, (s.clearTable key).factsOf k = if k = key then ⟨[], ∅⟩ else s.factsOf k := fun k =>
    factsOf_insert
  have hrules : ∀ k, (s.clearTable key).rulesOf k = if k = key then [] else s.rulesOf k := fun k =>
    rulesOf_insert
  have htidy : Tidy nat (s.clearTable key) := by
    refine ⟨fun k => ?_, fun k => ?_, fun k => ?_, fun k => ?_, fun k => ?_⟩
    · rw [hfacts]
      split_ifs
      · rfl
      · exact h.tidy.plain k
    · rw [hfacts]
      split_ifs
      · exact fun f hf => by cases hf
      · exact h.tidy.tables k
    · rw [hfacts]
      split_ifs
      · exact .nil
      · exact h.tidy.facts k
    · rw [hrules]
      split_ifs
      · exact fun r hr => by cases hr
      · exact h.tidy.bodies k
    · rw [hrules]
      split_ifs
      · exact .nil
      · exact h.tidy.rules k
  have hall : ∀ k, (s.clearTable key).allRules k = if k = key then [] else s.allRules k := fun k => by
    rw [allRules, hfacts, hrules]
    split_ifs
    · rfl
    · rfl
  refine ⟨⟨trivial, htidy.lists_iff.2 ⟨fun k r => ?_, fun k hk hk' => ?_⟩⟩, htidy⟩
  · show _ ↔ m k r ∧ k ≠ key
    rw [hall, ← h.yields]
    split_ifs with hkey
    · simp [hkey]
    · simp [hkey]
  · rw [hall]
    split_ifs with hkey
    · rfl
    · exact h.apart k (((AList.mem_insert _).1 hk).resolve_left hkey)
        (((AList.mem_insert _).1 hk').resolve_left hkey)

/-- The answer to the question is right exactly if what is asked for is sought, as far as it is a fact. -/
theorem Holds.contains_iff (h : Holds nat s m) : (SetOp.contains key item).Right nat (s, m)
    ↔ (item.soughtAsFact = true → s.Sought nat key item) := by
  have hlists : s.Lists m := h.tidy.lists_iff.2 ⟨h.yields, h.apart⟩
  refine (and_iff_left hlists).trans ?_
  show (s.contains nat key item = true ↔ m key item.formula) ↔ _
  rcases hfact : item.soughtAsFact with _ | _
  · rcases item with f | r
    · cases hfact
    have hrule : ¬r.body.isEmpty = true := Bool.eq_false_iff.1 hfact
    have hne : ∀ vs, factRule key vs ≠ r := fun vs heq => by
      rw [soughtAsFact_of_formula (show factRule key vs = (Stored.rule r).formula from heq)] at hfact
      cases hfact
    refine iff_of_true ?_ fun hf => by cases hf
    rw [contains, if_neg hrule, Stored.formula, ← h.yields, yields_iff]
    simp [hne]
  · rw [contains_fact hfact, ← h.yields, h.tidy.sought_iff h.apart key item]
    exact ⟨fun hs _ => hs, fun hs => hs rfl⟩

/-- A call is right exactly if it meets the condition, and then the rule set stays tidy. -/
theorem Holds.right_iff (h : Holds nat s m) (op : SetOp V) :
    (op.Right nat (s, m) ↔ op.Meets nat (s, m)) ∧ (op.Right nat (s, m) → Tidy nat (op.apply nat s)) := by
  cases op with
  | add key item =>
    rcases hfact : item.addedAsFact with _ | _
    · rcases item with f | r
      · cases hfact
      have hiff : s.MayAdd nat key (.rule r) ↔ key ∉ s.facts := by
        rw [MayAdd, if_neg (Bool.eq_false_iff.1 hfact)]
      obtain ⟨hright, htidy⟩ := h.addRule_iff key hfact
      exact ⟨hright.trans hiff.symm, fun hr => htidy (hright.1 hr)⟩
    · exact ⟨⟨h.addFact_meets hfact, fun hmay => (h.addFact_right hfact hmay).2⟩,
        fun hr => (h.addFact_right hfact (h.addFact_meets hfact hr)).1⟩
  | discard key item =>
    rcases hfact : item.soughtAsFact with _ | _
    · rcases item with f | r
      · cases hfact
      obtain ⟨hright, htidy⟩ := h.discardRule_right key hfact
      exact ⟨iff_of_true hright fun hf => absurd (hfact.symm.trans hf) Bool.false_ne_true, fun _ => htidy⟩
    · obtain ⟨hiff, htidy⟩ := h.discardFact_iff key hfact
      exact ⟨hiff.trans ⟨fun hs _ => hs, fun hs => hs hfact⟩, fun _ => htidy⟩
  | clearTable key =>
    obtain ⟨hright, htidy⟩ := h.clearTable_right key
    exact ⟨iff_of_true hright trivial, fun _ => htidy⟩
  | contains key item => exact ⟨h.contains_iff, fun _ => h.tidy⟩

theorem Holds.step {p : IndexedRuleSet V K × Members V} {op : SetOp V} (h : Holds nat p.1 p.2)
    (hright : op.Right nat p) : Holds nat (op.step nat p).1 (op.step nat p).2 :=
  ⟨(h.right_iff op).2 hright, apart_of_once hright.2.once, hright.2.yields⟩

theorem holds_empty : Holds nat (.empty : IndexedRuleSet V K) fun _ _ => False where
  tidy := ⟨fun _ => rfl, by simp [factsOf, empty, FactSet.empty], by simp [factsOf, empty, FactSet.empty],
    by simp [rulesOf, empty], by simp [rulesOf, empty]⟩
  apart k hk := absurd hk (AList.notMem_empty k)
  yields k r := by simp [allRules, factsOf, rulesOf, empty, FactSet.empty]

end IndexedRuleSet

end Congress
