import Congress.Proofs.HeadIndex

/-!
# Selection is exact

`select` on admitted policies gives exactly the instances of a query that are true in the stratified
model, or one of them if one is enough (`select_exact`). For this a literal that names the table of
another policy is about that policy's table, unless the table is a pseudo-modal: then no policy is
moved to, and the literal is false. If it were about the other policy's table too, selection would
not be complete (`not_select_exact`).
-/

namespace Congress

open Lib Bindings TopDown

set_option linter.unusedSectionVars false

variable {V : Type*} [DecidableEq V] [Inhabited V] {reg : BuiltinRegistry V}
  {arity : String → String → ℕ}
  {ps : Policies V} {p : String} {rules : RuleSet V} {query : Formula V}

/-- A query to a policy: an atom, or a rule whose body can be evaluated in its order. -/
structure Policies.Asked (reg : BuiltinRegistry V) (arity : String → String → ℕ) (ps : Policies V)
    (p : String) (rules : RuleSet V) (query : Formula V) : Prop where
  policies : ps.Admitted reg arity
  policy : ps.lookup p = some rules
  datalog : query.isDatalog = true
  literals : ∀ l ∈ query.literals, l.Admitted reg arity p
  safe : SafeInOrder reg (fun _ => False) query.literals

/-- The answers are those of the stratified model, whatever the stratification. -/
def SelectExact (reg : BuiltinRegistry V) (follows : Tablename → Bool) (ps : Policies V) (p : String)
    (rules : RuleSet V) (query : Formula V) : Prop :=
  ∀ σ : Row V → ℕ, Stratifies σ {c | ps.Program reg follows c} →
    ∃ n, ∀ fuel, n ≤ fuel →
      (∃ answers, (rules.toTopDown p).select reg ps.theories fuel query true = .ok answers
        ∧ ∀ f, f ∈ answers
          ↔ f ∈ query.Answers reg follows (stratifiedModel {c | ps.Program reg follows c} σ) p)
      ∧ ∃ answers, (rules.toTopDown p).select reg ps.theories fuel query false = .ok answers
        ∧ answers.length ≤ 1
        ∧ (∀ f ∈ answers,
          f ∈ query.Answers reg follows (stratifiedModel {c | ps.Program reg follows c} σ) p)
        ∧ ((query.Answers reg follows
          (stratifiedModel {c | ps.Program reg follows c} σ) p).Nonempty → answers ≠ [])

theorem Literal.plugDict_congr {l : Literal V} {b b' : List (String × Term V)}
    (h : ∀ x ∈ l.variableNames, (b.lookup x).getD (.variable x) = (b'.lookup x).getD (.variable x)) :
    l.plugDict b = l.plugDict b' := by
  rw [plugDict, plugDict]
  congr 1
  refine List.map_congr_left fun t ht => ?_
  cases t with
  | object => rfl
  | «variable» x => exact h x (mem_names.2 ht)

theorem Formula.plugDict_congr {b b' : List (String × Term V)}
    (h : ∀ x ∈ query.variableNames,
      (b.lookup x).getD (.variable x) = (b'.lookup x).getD (.variable x)) :
    query.plugDict b = query.plugDict b' := by
  have hlit : ∀ l ∈ query.heads ++ query.body, l.plugDict b = l.plugDict b' :=
    fun l hl => Literal.plugDict_congr fun x hx => h x (by
      rw [Formula.variableNames, Congress.variableNames, List.mem_dedup, List.mem_flatMap]
      exact ⟨l, hl, hx⟩)
  cases query with
  | atom l => exact congrArg Formula.atom (hlit l (by simp [Formula.heads]))
  | rule r =>
    simp only [Formula.plugDict, Formula.rule.injEq, Rule.mk.injEq]
    refine ⟨hlit _ (by simp [Formula.heads, Rule.heads]), List.map_congr_left fun l hl => hlit l ?_,
      List.map_congr_left fun l hl => hlit l ?_⟩
    · simp [Formula.heads, Rule.heads, hl]
    · simp [Formula.body, hl]

/-- A result is an instance of the query under a valuation that it agrees with. -/
theorem plugDict_result {r : TopDownResult V} {ground : ℕ × String → Prop} {ρ : ℕ × String → V}
    (hfits : r.Fits query.variableNames (variableNames query.literals) ground)
    (hground : ∀ x ∈ variableNames query.literals, ground (0, x)) (hagrees : r.Agrees ρ) :
    query.plugDict r.binding = query.plugDict
      ((variableNames query.literals).map fun x => (x, .object (ρ (0, x)))) := by
  refine Formula.plugDict_congr fun x hx => ?_
  rw [lookup_map]
  cases hlook : r.binding.lookup x with
  | none =>
    rw [List.lookup_eq_none_iff] at hlook
    rw [← hfits.names, List.mem_map] at hx
    obtain ⟨e, he, rfl⟩ := hx
    simpa using hlook e he
  | some t =>
    have hmem : (x, t) ∈ r.binding := by
      obtain ⟨l₁, l₂, hl, -⟩ := List.lookup_eq_some_iff.1 hlook
      simp [hl]
    rw [Option.getD_some]
    split_ifs with hX
    · obtain ⟨c, rfl⟩ := hfits.ground _ hmem (hground x hX)
      rw [hagrees x c hmem, Option.getD_some]
    · exact hfits.other _ hmem hX

/-- What selection returns, with fuel for the literals of the query. -/
theorem select_spec {M : Set (Row V)} {weight : String → ℕ} (hset : ps.Weighed reg arity M weight)
    (hq : ps.Asked reg arity p rules query) {fuel : ℕ}
    (hfuel : (query.literals.map (litCost weight (rules.toTopDown p))).sum ≤ fuel) (findAll : Bool) :
    ∃ answers done, (rules.toTopDown p).select reg ps.theories fuel query findAll = .ok answers
      ∧ (∀ f ∈ answers, f ∈ query.Answers reg evaluationFollows M p)
      ∧ (findAll = true ∨ done = false →
        ∀ f ∈ query.Answers reg evaluationFollows M p, f ∈ answers)
      ∧ (findAll = false → answers.length = if done then 1 else 0) := by
  have hready : Search.Ready (variableNames query.literals) (⟨[], 1, [], []⟩ : Search V) :=
    ⟨trivial, by simp [Over], Nat.one_pos⟩
  have hp : Prepared reg (ps.scope reg arity) (variableNames query.literals) (keys 0 query.literals) []
      (⟨[], 1, [], []⟩ : Search V) := ⟨by simp, hready, trivial⟩
  have hself : ps.IsTheory (rules.toTopDown p) := ⟨rules, hq.policy, rfl⟩
  have hX : ∀ l ∈ query.literals, ∀ x ∈ l.variableNames, x ∈ variableNames query.literals :=
    fun l hl x hx => List.mem_dedup.2 (List.mem_flatMap.2 ⟨l, hl, hx⟩)
  obtain ⟨done, s', new, ho, -, -, -, hres, hfound⟩ :
      Evaluates (⟨query.variableNames, 0, findAll, none⟩ : Caller V) _ _ _ _ _ :=
    body_spec (evalOk (Policies.setting hset) fuel) rfl rfl (fun l hl => ⟨hself, hq.literals l hl⟩)
      (hq.safe.mono fun _ => False.elim) Nat.one_pos
      (fun l hl x hx _ => hX l hl x hx) hp (by simpa [pendingCost] using hfuel)
  have hground : ∀ x ∈ variableNames query.literals,
      Det ([] : Bindings V) (keys 0 query.literals ∪ pendingKeys ([] : List (Frame V))) (0, x) := by
    intro x hx
    obtain ⟨l, hl, hx⟩ := List.mem_flatMap.1 (List.mem_dedup.1 hx)
    exact .of_mem (.inl ⟨rfl, l, hl, hx⟩)
  refine ⟨new.map fun r => query.plugDict r.binding, done, ?_, fun f hf => ?_, ?_, fun hall => ?_⟩
  · rw [TopDownTheory.select, if_pos hq.datalog, abduction, ho]
    simp only [bind, Except.bind, hres]
    rfl
  · obtain ⟨r, hr, rfl⟩ := List.mem_map.1 hf
    obtain ⟨hfits, ρ, -, hgoal, hagrees⟩ := hfound.sound r hr
    exact ⟨fun x => ρ (0, x), hgoal.1, plugDict_result hfits hground hagrees⟩
  · rintro hd f ⟨ν, hν, rfl⟩
    obtain ⟨r, hr, hagrees⟩ := hfound.complete hd (fun k => ν k.2) (by simp [Models])
      ⟨hν, by simp [Pending]⟩
    exact List.mem_map.2 ⟨r, hr, plugDict_result (hfound.sound r hr).1 hground hagrees⟩
  · rw [List.length_map, hfound.one hall]

/-- Selection is sound and complete, for any stratification, of which there is one. -/
theorem select_exact (hq : ps.Asked reg arity p rules query) :
    (∃ σ : Row V → ℕ, Stratifies σ {c | ps.Program reg evaluationFollows c})
      ∧ SelectExact reg evaluationFollows ps p rules query := by
  refine ⟨exists_stratification hq.policies, fun σ hσ => ?_⟩
  obtain ⟨weight, hpos, hweight⟩ := exists_weight hq.policies
  have hset : ps.Weighed reg arity _ weight :=
    ⟨hq.policies, fun p table values => mem_model_iff hq.policies hσ table values, hpos, hweight⟩
  refine ⟨(query.literals.map (litCost weight (rules.toTopDown p))).sum, fun fuel hfuel => ?_⟩
  obtain ⟨answers, done, ho, hsound, hcomplete, -⟩ := select_spec hset hq hfuel true
  obtain ⟨answers', done', ho', hsound', hcomplete', hone⟩ := select_spec hset hq hfuel false
  refine ⟨⟨answers, ho, fun f => ⟨hsound f, hcomplete (.inl rfl) f⟩⟩, answers', ho', ?_, hsound', ?_⟩
  · rw [hone rfl]
    split_ifs <;> omega
  · rintro ⟨f, hf⟩ rfl
    have hd : done' = false := by
      cases done' with
      | false => rfl
      | true => exact absurd (hone rfl) (by simp)
    exact absurd (hcomplete' (.inr hd) f hf) (by simp)

theorem Policies.forall_rules {Q : String → Rule V → Prop}
    (h : ∀ e ∈ ps.entries, ∀ e' ∈ e.2.rules.entries, ∀ r ∈ e'.2, Q e.1 r) (p : String)
    (rules : RuleSet V) (r : Rule V) (hp : ps.lookup p = some rules) (hr : rules.HasRule r) :
    Q p r := by
  obtain ⟨rs, hrs, hmem⟩ := hr
  exact h _ (AList.mem_lookup_iff.1 hp) _ (AList.mem_lookup_iff.1 hrs) r hmem

theorem Policies.forall_facts {Q : String → String → List V → Prop}
    (h : ∀ e ∈ ps.entries, ∀ e' ∈ e.2.facts.entries, ∀ f ∈ e'.2, Q e.1 e'.1 f) (p : String)
    (rules : RuleSet V) (table : String) (values : List V) (hp : ps.lookup p = some rules)
    (hf : rules.HasFact table values) : Q p table values := by
  obtain ⟨fs, hfs, hmem⟩ := hf
  exact h _ (AList.mem_lookup_iff.1 hp) _ (AList.mem_lookup_iff.1 hfs) values hmem

/-- The rule `p(x) :- a:q(x), not s(x)`. -/
def negationRule : Rule ℕ :=
  ⟨⟨⟨none, "p", none⟩, [.variable "x"], false, []⟩, [],
    [⟨⟨some "a", "q", none⟩, [.variable "x"], false, []⟩,
      ⟨⟨none, "s", none⟩, [.variable "x"], true, []⟩]⟩

def negationRules : RuleSet ℕ := ⟨AList.insert "p" [negationRule] ∅, AList.insert "s" [[2]] ∅⟩

def negationPolicies : Policies ℕ :=
  AList.insert "a" ⟨∅, AList.insert "q" [[1], [2]] ∅⟩ (AList.insert "b" negationRules ∅)

theorem negation_rules {p : String} {rules : RuleSet ℕ} {r : Rule ℕ}
    (hp : negationPolicies.lookup p = some rules) (hr : rules.HasRule r) :
    p = "b" ∧ r = negationRule :=
  Policies.forall_rules (Q := fun p r => p = "b" ∧ r = negationRule) (by decide) p rules r hp hr

theorem negation_asked : negationPolicies.Asked (fun _ => none) (fun _ _ => 1) "b" negationRules
    (.atom ⟨⟨none, "p", none⟩, [.variable "x"], false, []⟩) := by
  have hlit : ∀ (l : Literal ℕ), l.table.modal = none ∧ l.arguments.length = 1
      ∧ l.table.name none ≠ "true" ∧ l.table.name none ≠ "false" →
      l.Admitted (fun _ => none) (fun _ _ => 1) "b" :=
    fun l ⟨hm, ha, ht, hf⟩ => ⟨hm, by simp, fun h => (h.elim ht hf).elim, fun _ => ha, ha⟩
  refine ⟨⟨?_, ?_, ?_, ?_, ?_, ?_⟩, rfl, rfl, ?_, ⟨?_, trivial⟩⟩
  · intro p rules r hp hr
    obtain ⟨rfl, rfl⟩ := negation_rules hp hr
    exact ⟨negationRule, fun _ => none, by decide, by decide⟩
  · intro p rules r hp hr
    obtain ⟨rfl, rfl⟩ := negation_rules hp hr
    exact ⟨rfl, rfl⟩
  · intro p rules r hp hr
    obtain ⟨rfl, rfl⟩ := negation_rules hp hr
    exact hlit _ (by decide)
  · intro p rules r hp hr l hl
    obtain ⟨rfl, rfl⟩ := negation_rules hp hr
    exact hlit _ (by revert l; decide)
  · exact Policies.forall_facts (by decide)
  · rintro ⟨a, hcycle⟩
    have hedge : ∀ {a b}, negationPolicies.Edge a b → a = "b:p" ∧ b ≠ "b:p" := by
      intro a b he
      obtain ⟨p, rules, r, hp, hr, head, hhead, l, hl, rfl, rfl⟩ := edge_iff.1 he
      obtain ⟨rfl, rfl⟩ := negation_rules hp hr
      exact (by decide : ∀ head ∈ negationRule.heads, ∀ l ∈ negationRule.body,
        head.table.globalTablename (some "b") = "b:p" ∧ l.tablename (some "b") ≠ "b:p")
        head hhead l hl
    cases hcycle with
    | single he => exact (hedge he).2 (hedge he).1
    | tail hpath he =>
      obtain ⟨_, hfirst, -⟩ := Relation.TransGen.head'_iff.1 hpath
      exact (hedge he).2 (hedge hfirst).1
  · rw [Formula.literals, List.forall_mem_singleton]
    exact hlit _ (by decide)
  · trivial

theorem select_exact_negation :
    (∃ σ : Row ℕ → ℕ, Stratifies σ
        {c | negationPolicies.Program (fun _ => none) evaluationFollows c})
      ∧ SelectExact (fun _ => none) evaluationFollows negationPolicies "b" negationRules
        (.atom ⟨⟨none, "p", none⟩, [.variable "x"], false, []⟩) :=
  select_exact negation_asked

/-- A policy with a fact for a pseudo-modal, next to an empty one. -/
def pseudoModals : Policies ℕ :=
  AList.insert "a" ⟨∅, AList.insert "p+" [[5]] ∅⟩ (AList.insert "b" .empty ∅)

/-- The atom `a:p+(x)`. -/
def pseudoModalQuery : Formula ℕ := .atom ⟨⟨some "a", "p+", none⟩, [.variable "x"], false, []⟩

/-- The builtin `lt`. -/
def lessThan : BuiltinRegistry ℕ
  | "lt" => some (.test 2 fun args => some (args[0]! < args[1]!))
  | _ => none

/-- If names of pseudo-modals too were about the other policy, an answer would be missing; and for
`lt(x, 1)` and for `p(x), q(x) :- s(x)` there is an exception instead of answers. -/
theorem not_select_exact : (¬ ∀ (ps : Policies ℕ) (p : String) (rules : RuleSet ℕ)
    (query : Formula ℕ), ps.Asked (fun _ => none) (fun _ _ => 1) p rules query →
      SelectExact (fun _ => none) (fun _ => true) ps p rules query)
    ∧ ∀ fuel, (RuleSet.empty.toTopDown "b").select lessThan pseudoModals.theories (fuel + 1)
        (.atom ⟨⟨none, "lt", none⟩, [.variable "x", .object 1], false, []⟩) true
          = .error .assertionError
      ∧ (RuleSet.empty.toTopDown "b").select lessThan pseudoModals.theories fuel
        (.rule ⟨⟨⟨none, "p", none⟩, [.variable "x"], false, []⟩,
          [⟨⟨none, "q", none⟩, [.variable "x"], false, []⟩],
          [⟨⟨none, "s", none⟩, [.variable "x"], false, []⟩]⟩) true = .error .assertionError := by
  refine ⟨fun h => ?_, fun fuel => ⟨rfl, rfl⟩⟩
  have hrules : ∀ p rules r, pseudoModals.lookup p = some rules → ¬ rules.HasRule r :=
    Policies.forall_rules (Q := fun _ _ => False) (by decide)
  have hasked : pseudoModals.Asked (fun _ => none) (fun _ _ => 1) "b" .empty pseudoModalQuery := by
    refine ⟨⟨?_, ?_, ?_, ?_, ?_, ?_⟩, rfl, rfl, ?_, ⟨?_, trivial⟩⟩
    · exact fun p rules r hp hr => absurd hr (hrules p rules r hp)
    · exact fun p rules r hp hr => absurd hr (hrules p rules r hp)
    · exact fun p rules r hp hr => absurd hr (hrules p rules r hp)
    · exact fun p rules r hp hr => absurd hr (hrules p rules r hp)
    · exact Policies.forall_facts (by decide)
    · rintro ⟨a, hcycle⟩
      cases hcycle with
      | single he =>
        obtain ⟨p, rules, r, hp, hr, -⟩ := edge_iff.1 he
        exact hrules p rules r hp hr
      | tail _ he =>
        obtain ⟨p, rules, r, hp, hr, -⟩ := edge_iff.1 he
        exact hrules p rules r hp hr
    · rw [pseudoModalQuery, Formula.literals, List.forall_mem_singleton]
      exact ⟨rfl, by simp, by decide, fun _ => rfl, rfl⟩
    · trivial
  have hstrat : Stratifies (fun _ => 0)
      {c | pseudoModals.Program (fun _ => none) (fun _ => true) c} := by
    refine ⟨fun _ _ _ _ => le_rfl, fun c hc b hb => ?_⟩
    cases hc with
    | fact => exact hb.elim
    | rule hp hr => exact absurd hr (hrules _ _ _ hp)
  obtain ⟨n, hn⟩ := h pseudoModals "b" .empty pseudoModalQuery hasked _ hstrat
  obtain ⟨⟨answers, hanswers, hmem⟩, -⟩ := hn (n + 3) (by omega)
  have hnone : (RuleSet.empty.toTopDown "b").select (fun _ => none) pseudoModals.theories (n + 3)
      pseudoModalQuery true = .ok [] := rfl
  rw [hnone, Except.ok.injEq] at hanswers
  subst hanswers
  have hfact : RuleSet.HasFact ⟨∅, AList.insert "p+" [[5]] ∅⟩ "p+" [5] := ⟨[[5]], rfl, by simp⟩
  have hrow : (⟨"a", "p+", [5]⟩ : Row ℕ) ∈ stratifiedModel
      {c | pseudoModals.Program (fun _ => none) (fun _ => true) c} fun _ => 0 :=
    (mem_stratifiedModel_iff hstrat).2
      ⟨_, .fact (p := "a") rfl hfact, rfl, by simp, by simp⟩
  refine List.not_mem_nil ((hmem _).2 ⟨fun _ => 5, ?_, rfl⟩)
  rw [pseudoModalQuery, Formula.literals, List.forall_mem_singleton]
  exact hrow

end Congress
