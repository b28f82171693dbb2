import Mathlib.Algebra.Order.BigOperators.Group.List
import Mathlib.Algebra.Order.Ring.Nat
import Mathlib.Tactic.GCongr
import Mathlib.Tactic.Linarith
import Congress.Lib.Weights
import Congress.PolicyModel
import Congress.Proofs.Reordering

/-!
# The stratified model of policies

A row is in the stratified model of policies exactly if it is a fact, or the head of an instance of
a rule whose body is true (`mem_model_iff`). The tables of policies that are not recursive can be
ranked (`exists_rank`); a ranking is a stratification, and it bounds how much work a table is
(`exists_weight`).
-/

namespace Congress

open Lib

set_option linter.unusedSectionVars false

variable {V : Type*} [DecidableEq V] {reg : BuiltinRegistry V} {follows : Tablename → Bool}
  {arity : String → String → ℕ} {ps : Policies V} {p : String} {rules : RuleSet V}

theorem fires_ground_iff {ν : String → V} {head : Literal V} {body : List (Literal V)}
    {M : Set (Row V)} :
    ((∀ l ∈ body, ∀ q, l.meaning reg follows p ν = .settled q → (l.negated = false ↔ q))
        ∧ (Rule.ground reg follows p ν head body).Fires M)
      ↔ ∀ l ∈ body, l.Holds reg follows M p ν := by
  constructor
  · rintro ⟨hs, hp, hn⟩ l hl
    rw [Literal.Holds]
    cases hm : l.meaning reg follows p ν with
    | settled q =>
      have := hs l hl q hm
      cases hneg : l.negated <;> simp_all [Meaning.IsTrue]
    | row a =>
      cases hneg : l.negated with
      | false => exact hp a ⟨l, hl, hneg, hm⟩
      | true => exact hn a ⟨l, hl, hneg, hm⟩
  · intro h
    refine ⟨fun l hl q hq => ?_, ?_, ?_⟩
    · have := h l hl
      rw [Literal.Holds, hq] at this
      cases hneg : l.negated <;> simp_all [Meaning.IsTrue]
    · rintro a ⟨l, hl, hneg, hm⟩
      have := h l hl
      rwa [Literal.Holds, hm, hneg] at this
    · rintro a ⟨l, hl, hneg, hm⟩
      have := h l hl
      rwa [Literal.Holds, hm, hneg] at this

/-- The rows that a set of rows supports by facts and rules. -/
def Policies.Supports (reg : BuiltinRegistry V) (follows : Tablename → Bool) (ps : Policies V)
    (M : Set (Row V)) (p table : String) (values : List V) : Prop :=
  ∃ rules, ps.lookup p = some rules ∧ (rules.HasFact table values
    ∨ ∃ r ν, rules.HasRule r ∧ r.head.table.table = table ∧ r.head.values ν = values
      ∧ ∀ l ∈ r.body, l.Holds reg follows M p ν)

theorem Policies.Admitted.heads (h : ps.Admitted reg arity) (hp : ps.lookup p = some rules)
    {r : Rule V} (hr : rules.HasRule r) : r.heads = [r.head] := by
  rw [Rule.heads, (h.oneHead p rules r hp hr).1]

theorem mem_model_iff (h : ps.Admitted reg arity) {σ : Row V → ℕ}
    (hσ : Stratifies σ {c | ps.Program reg follows c}) (table : String) (values : List V) :
    ⟨p, table, values⟩ ∈ stratifiedModel {c | ps.Program reg follows c} σ
      ↔ ps.Supports reg follows (stratifiedModel {c | ps.Program reg follows c} σ) p table
        values := by
  rw [mem_stratifiedModel_iff hσ]
  constructor
  · rintro ⟨_, @⟨p, rules, table, values, hp, hf⟩ | @⟨p, rules, r, head, ν, hp, hr, hh, hs⟩, he, hfires⟩
    · cases he
      exact ⟨rules, hp, .inl hf⟩
    · rw [h.heads hp hr, List.mem_singleton] at hh
      subst hh
      cases he
      exact ⟨rules, hp, .inr ⟨r, ν, hr, rfl, rfl, fires_ground_iff.1 ⟨hs, hfires⟩⟩⟩
  · rintro ⟨rules, hp, hf | ⟨r, ν, hr, rfl, rfl, hb⟩⟩
    · exact ⟨_, .fact hp hf, rfl, by simp, by simp⟩
    · obtain ⟨hs, hfires⟩ := fires_ground_iff.2 hb
      exact ⟨_, .rule hp hr (List.mem_cons_self ..) hs, rfl, hfires⟩

/-- The node of a policy's table in the dependency graph. -/
def node (p table : String) : String := p ++ ":" ++ table

theorem tablename_eq_node (l : Literal V) (p : String) :
    l.tablename (some p) = node (l.table.service.getD p) l.table.table := by
  rw [Literal.tablename, Tablename.name]
  cases l.table.service <;> rfl

theorem tablename_of_meaning {l : Literal V} {ν : String → V} {a : Row V}
    (hm : l.meaning reg follows p ν = .row a) :
    l.tablename (some p) = node a.policy a.table := by
  rw [tablename_eq_node]
  rw [Literal.meaning] at hm
  split_ifs at hm
  rw [Tablename.resolve] at hm
  cases hs : l.table.service with
  | none =>
    rw [hs] at hm
    cases hm
    rfl
  | some q =>
    rw [hs] at hm
    simp only at hm
    split_ifs at hm
    cases hm
    rfl

/-- What `rule_errors` finds no error in. -/
theorem Policies.Admitted.rule (h : ps.Admitted reg arity) (hp : ps.lookup p = some rules)
    {r : Rule V} (hr : rules.HasRule r) : r.head.table.service = none
      ∧ reg r.head.table.table = none ∧ (∀ x ∈ r.head.variableNames, ∃ l ∈ r.body,
        x ∈ l.variableNames) ∧ SafeInOrder reg (fun _ => False) r.body := by
  obtain ⟨r₀, schemas, he, hreorder⟩ := h.checked p rules r hp hr
  obtain ⟨hhead, hmore, hperm, hsafe⟩ := reorderForSafety_safe hreorder
  rw [ruleErrors, hreorder, List.append_eq_nil_iff] at he
  obtain ⟨he, hrest⟩ := he
  simp only [ruleErrors.rest, List.append_eq_nil_iff] at hrest
  obtain ⟨⟨⟨-, hservice⟩, -⟩, hkey⟩ := hrest
  refine ⟨?_, ?_, ?_, hsafe⟩
  · rw [ruleHeadHasNoTheory, List.map_eq_nil_iff, List.filter_eq_nil_iff] at hservice
    have := hservice r.head (List.mem_cons_self ..)
    simpa [(h.head p rules r hp hr).modal] using this
  · rw [keywordsSafety] at hkey
    split_ifs at hkey with hb
    rw [Literal.isBuiltin, BuiltinRegistry.isBuiltin] at hb
    cases hreg : reg r.head.table.table with
    | none => rfl
    | some built => simp [hreg] at hb
  · intro x hx
    rw [ruleHeadSafety, List.map_eq_nil_iff, List.filter_eq_nil_iff] at he
    have hx₀ : x ∈ variableNames r₀.heads := by
      rw [variableNames, List.mem_dedup, List.mem_flatMap]
      exact ⟨r₀.head, List.mem_cons_self .., hhead ▸ hx⟩
    have := he x hx₀
    simp only [decide_eq_true_eq, not_not, variableNames, List.mem_dedup, List.mem_flatMap] at this
    obtain ⟨l, hl, hxl⟩ := this
    exact ⟨l, hperm.mem_iff.2 hl, hxl⟩

/-- The edges of a rule. -/
theorem edge_iff {a b : String} : ps.Edge a b ↔ ∃ p rules r, ps.lookup p = some rules
    ∧ RuleSet.HasRule rules r ∧ ∃ head ∈ r.heads, ∃ l ∈ r.body,
      a = head.table.globalTablename (some p) ∧ b = l.tablename (some p) := by
  constructor
  · rintro ⟨p, rules, r, ne, label, hp, hr, he, hmem⟩
    rw [RuleDependencyGraph.formulaNodesEdges] at he
    split_ifs at he with ha hi ht
    · simp only [Option.some.injEq] at he
      subst he
      cases hmem
    · simp only [Option.some.injEq] at he
      subst he
      simp only [List.mem_dedup, List.mem_flatMap, List.mem_map, List.mem_filter, and_true] at hmem
      obtain ⟨head, hh, l, hl, he⟩ := hmem
      simp only [Prod.mk.injEq] at he
      exact ⟨p, rules, r, hp, hr, head, hh, l, hl, he.1.symm, he.2.1.symm⟩
    · exact absurd rfl ht
  · rintro ⟨p, rules, r, hp, hr, head, hh, l, hl, rfl, rfl⟩
    have hbody : r.body.isEmpty = false := by
      cases hb : r.body with
      | nil => simp [hb] at hl
      | cons => rfl
    refine ⟨p, rules, r, _, l.negated, hp, hr,
      by rw [RuleDependencyGraph.formulaNodesEdges, if_neg (by simp [Formula.isAtomLike, hbody])], ?_⟩
    simp only [List.mem_dedup, List.mem_flatMap, List.mem_map, List.mem_filter, and_true, if_true]
    exact ⟨head, hh, l, hl, by simp⟩

theorem edge_of_mem_body {r : Rule V} {l : Literal V} (h : ps.Admitted reg arity)
    (hp : ps.lookup p = some rules) (hr : rules.HasRule r) (hl : l ∈ r.body) :
    ps.Edge (node p r.head.table.table) (l.tablename (some p)) := by
  refine edge_iff.2 ⟨p, rules, r, hp, hr, r.head, List.mem_cons_self .., l, hl, ?_, rfl⟩
  rw [Tablename.globalTablename, (h.rule hp hr).1]
  rfl

/-- The rules of all policies, each with its policy. -/
def Policies.allRules (ps : Policies V) : List (String × Rule V) :=
  ps.entries.flatMap fun e => e.2.rules.entries.flatMap fun e' => e'.2.map fun r => (e.1, r)

theorem mem_allRules {r : Rule V} (hp : ps.lookup p = some rules) (hr : rules.HasRule r) :
    (p, r) ∈ ps.allRules := by
  obtain ⟨rs, hrs, hr⟩ := hr
  rw [Policies.allRules, List.mem_flatMap]
  refine ⟨⟨p, rules⟩, AList.mem_lookup_iff.1 hp, ?_⟩
  rw [List.mem_flatMap]
  exact ⟨⟨_, rs⟩, AList.mem_lookup_iff.1 hrs, List.mem_map.2 ⟨r, hr, rfl⟩⟩

theorem finite_edge (ps : Policies V) : {b | ∃ a, ps.Edge a b}.Finite := by
  refine Set.Finite.subset (List.finite_toSet
    (ps.allRules.flatMap fun e => e.2.body.map (·.tablename (some e.1)))) ?_
  rintro b ⟨a, hab⟩
  obtain ⟨p, rules, r, hp, hr, _, _, l, hl, _, rfl⟩ := edge_iff.1 hab
  exact List.mem_flatMap.2 ⟨(p, r), mem_allRules hp hr, List.mem_map.2 ⟨l, hl, rfl⟩⟩

/-- Tables rank above those that the bodies of their rules name. -/
theorem exists_tableRank (h : ps.Admitted reg arity) : ∃ rank : String → ℕ, ∀ p rules r,
    ps.lookup p = some rules → rules.HasRule r → ∀ l ∈ r.body,
      rank (l.tablename (some p)) < rank (node p r.head.table.table) := by
  obtain ⟨rank, hrank⟩ := exists_rank (finite_edge ps) h.nonrecursive
  exact ⟨rank, fun p rules r hp hr l hl => hrank _ _ (edge_of_mem_body h hp hr hl)⟩

theorem exists_stratification (h : ps.Admitted reg arity) :
    ∃ σ : Row V → ℕ, Stratifies σ {c | ps.Program reg follows c} := by
  obtain ⟨rank, hrank⟩ := exists_tableRank h
  refine ⟨fun a => rank (node a.policy a.table), .of_rank ?_⟩
  rintro _ (@⟨p, rules, table, values, hp, hf⟩ | @⟨p, rules, r, head, ν, hp, hr, hh, hs⟩) b hb
  · simp at hb
  · rw [h.heads hp hr, List.mem_singleton] at hh
    subst hh
    obtain ⟨l, hl, hm⟩ : ∃ l ∈ r.body, l.meaning reg follows p ν = .row b := by
      rcases hb with ⟨l, hl, -, hm⟩ | ⟨l, hl, -, hm⟩ <;> exact ⟨l, hl, hm⟩
    show rank (node b.policy b.table) < _
    rw [← tablename_of_meaning hm]
    exact hrank p rules r hp hr l hl

/-- The rules that can be found can be paid for, whatever the names of the tables. -/
theorem exists_weight_of_rank {α : Type*} (headName bodyName : String → Literal V → α)
    (rank : α → ℕ) (hrank : ∀ p rules r, ps.lookup p = some rules → rules.HasRule r → ∀ l ∈ r.body,
      rank (bodyName p l) < rank (headName p r.head)) : ∃ weight : α → ℕ, (∀ a, 0 < weight a)
    ∧ ∀ p rules r, ps.lookup p = some rules → rules.HasRule r →
      (r.body.map fun l => weight (bodyName p l) + 1).sum + 1 ≤ weight (headName p r.head) := by
  classical
  let found := ps.allRules.filter fun e => ∃ rules, ps.lookup e.1 = some rules ∧ rules.HasRule e.2
  let uses := found.map fun e => (headName e.1 e.2.head, e.2.body.map (bodyName e.1))
  have hacyclic : ¬ Cyclic (Uses uses) := by
    refine not_cyclic_of_rank rank ?_
    rintro a b ⟨_, hr, rfl, hb⟩
    obtain ⟨⟨p, r⟩, hfound, rfl⟩ := List.mem_map.1 hr
    obtain ⟨l, hl, rfl⟩ := List.mem_map.1 hb
    obtain ⟨rules, hp, hr⟩ := @of_decide_eq_true _ (_) (List.mem_filter.1 hfound).2
    exact hrank p rules r hp hr l hl
  obtain ⟨weight, hpos, hweight⟩ := exists_weight_of_not_cyclic hacyclic
  refine ⟨weight, hpos, fun p rules r hp hr => ?_⟩
  have hfound : (p, r) ∈ found :=
    List.mem_filter.2 ⟨mem_allRules hp hr, @decide_eq_true _ (_) ⟨rules, hp, hr⟩⟩
  have hle := hweight _ (List.mem_map.2 ⟨(p, r), hfound, rfl⟩)
  rwa [List.map_map] at hle

/-- A weight that is more than that of all bodies together. -/
theorem exists_weight (h : ps.Admitted reg arity) : ∃ weight : String → ℕ, (∀ s, 0 < weight s)
    ∧ ∀ p rules r, ps.lookup p = some rules → rules.HasRule r →
      (r.body.map fun l => weight (l.tablename (some p)) + 1).sum + 1
        ≤ weight (node p r.head.table.table) := by
  obtain ⟨rank, hrank⟩ := exists_tableRank h
  exact exists_weight_of_rank (fun p l => node p l.table.table) (fun p l => l.tablename (some p)) rank
    hrank

end Congress
