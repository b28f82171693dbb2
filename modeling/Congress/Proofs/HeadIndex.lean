import Congress.Proofs.EvalOk

/-!
# What `head_index` gives

The clauses that a policy tries for a literal are rules that are fit for the search, and the literal
is true exactly if one of them gives it (`headIndex_spec`). So policies are exact for the rows that
they support (`Policies.setting`).
-/

namespace Congress

open Lib Bindings TopDown

set_option linter.unusedSectionVars false

variable {V : Type*} [DecidableEq V] [Inhabited V] {reg : BuiltinRegistry V}
  {arity : String → String → ℕ} {ps : Policies V} {M : Set (Row V)} {weight : String → ℕ} {self : TopDownTheory V}
  {lit : Literal V} {h : Bindings V} {u : ℕ} {ρ : ℕ × String → V}

/-- A theory is that of a policy. -/
def Policies.IsTheory (ps : Policies V) (th : TopDownTheory V) : Prop :=
  ∃ rules, ps.lookup th.name = some rules ∧ th = rules.toTopDown th.name

/-- The theories of policies, with the literals that are admitted there. -/
def Policies.scope (reg : BuiltinRegistry V) (arity : String → String → ℕ) (ps : Policies V) :
    Scope V :=
  fun th l => ps.IsTheory th ∧ l.Admitted reg arity th.name

/-- Rows that the policies support, and weights of their tables. -/
structure Policies.Weighed (reg : BuiltinRegistry V) (arity : String → String → ℕ) (ps : Policies V)
    (M : Set (Row V)) (weight : String → ℕ) : Prop where
  admitted : ps.Admitted reg arity
  model : ∀ p table values, ⟨p, table, values⟩ ∈ M
    ↔ ps.Supports reg evaluationFollows M p table values
  pos : ∀ s, 0 < weight s
  weight : ∀ p rules r, ps.lookup p = some rules → rules.HasRule r →
    (r.body.map fun l => weight (l.tablename (some p)) + 1).sum + 1
      ≤ weight (node p r.head.table.table)

theorem movesTo_eq_none (hm : lit.table.modal = none) (hmove : movesTo self lit = none) :
    lit.table.service.getD self.name = self.name ∨ lit.table.isUpdate = true := by
  cases hs : lit.table.service with
  | none => exact .inl rfl
  | some q =>
    by_contra hc
    rw [not_or, Option.getD_some, Bool.not_eq_true] at hc
    rw [(movesTo_eq_some hm).2 ⟨hs, hc⟩] at hmove
    cases hmove

theorem Literal.Admitted.length (hl : lit.Admitted reg arity self.name)
    (hmove : movesTo self lit = none) :
    lit.arguments.length = arity self.name lit.table.table := by
  rcases movesTo_eq_none hl.modal hmove with hs | hup
  · exact hs ▸ hl.arity
  · exact hl.pseudoModal hup

/-- The rules that `get_rules` gives for a literal under the unifiers `h`. -/
theorem getRules_spec (hps : ps.Admitted reg arity) {rules : RuleSet V}
    (hp : ps.lookup self.name = some rules) (hl : lit.Admitted reg arity self.name)
    (hmove : movesTo self lit = none) (hneg : lit.negated = false) :
    rules.getRules lit.table.table (some (lit.plug h u))
      = some ((((rules.facts.lookup lit.table.table).getD []).filter fun f =>
          (RuleSet.partialFact (lit.plug h u)).all fun (i, v) => f[i]? = some v).map
            (factRule lit.table.table) ++ (rules.rules.lookup lit.table.table).getD []) := by
  have hfacts : ∀ fact ∈ (rules.facts.lookup lit.table.table).getD [],
      fact.length = (lit.plug h u).arguments.length := by
    intro fact hfact
    cases hlook : rules.facts.lookup lit.table.table with
    | none => simp [hlook] at hfact
    | some fs =>
      rw [hlook] at hfact
      rw [hps.facts _ rules _ fact hp ⟨fs, hlook, hfact⟩, ← hl.length hmove]
      simp [Literal.plug]
  have hneg : (lit.plug h u).negated = false := hneg
  simp only [RuleSet.getRules, hneg, findFacts_eq_some hfacts]
  rfl

theorem resolve_self {p : String} (hs : lit.table.service.getD p = p) :
    lit.table.resolve evaluationFollows p = some (p, lit.table.table) := by
  rw [Tablename.resolve]
  cases hq : lit.table.service with
  | none => rfl
  | some q =>
    rw [hq, Option.getD_some] at hs
    simp [hs]

theorem resolve_pseudoModal {p : String} (hs : lit.table.service.getD p ≠ p)
    (hup : lit.table.isUpdate = true) : lit.table.resolve evaluationFollows p = none := by
  rw [Tablename.resolve]
  cases hq : lit.table.service with
  | none => exact absurd (by rw [hq]; rfl) hs
  | some q =>
    rw [hq, Option.getD_some] at hs
    simp [hs, evaluationFollows, hup]

theorem headIndex_spec (hset : ps.Weighed reg arity M weight) (hself : ps.IsTheory self)
    (hl : lit.Admitted reg arity self.name) (hlook : LooksUp reg self lit) (ht : h.Trail) :
    ∃ rs, self.headIndex lit.table.table (lit.plug h u) = some (rs.map .rule)
      ∧ (∀ r ∈ rs, r.head.sameSchema lit (some self.name) = true →
        RuleOk reg (ps.scope reg arity) weight self r
          ∧ lit.tablename (some self.name) = node self.name r.head.table.table)
      ∧ ∀ ρ, Models ρ h → (lit.Holds reg evaluationFollows M self.name (fun x => ρ (u, x))
        ↔ GivenBy reg M self.name rs lit (lit.values fun x => ρ (u, x))) := by
  obtain ⟨hneg, htrue, hfalse, hbuiltin, hmove⟩ := hlook
  have hself' := hself
  obtain ⟨rules, hp, hth⟩ := hself
  have hps := hset.admitted
  have hrule : ∀ r ∈ (rules.rules.lookup lit.table.table).getD [],
      r.head.table.table = lit.table.table → rules.HasRule r := by
    intro r hr htable
    cases hlook : rules.rules.lookup lit.table.table with
    | none => simp [hlook] at hr
    | some rs => exact ⟨rs, htable ▸ hlook, by rwa [hlook] at hr⟩
  have hnode : lit.table.service.getD self.name = self.name →
      lit.tablename (some self.name) = node self.name lit.table.table := fun hs => by
    rw [tablename_eq_node, hs]
  refine ⟨_, by rw [hth]; simp only [RuleSet.toTopDown, getRules_spec hps hp hl hmove hneg]; rfl,
    fun r hr hsame => ?_, fun ρ hm => ?_⟩
  · rw [sameSchema_iff] at hsame
    obtain ⟨⟨htable, -, hs⟩, -⟩ := hsame
    rcases List.mem_append.1 hr with hr | hr
    · obtain ⟨fact, -, rfl⟩ := List.mem_map.1 hr
      refine ⟨⟨?_, trivial, by simp [factRule], hset.pos _⟩, hnode hs.symm⟩
      simp [factRule, Literal.variableNames, Term.names]
    · have hr := hrule r hr htable
      obtain ⟨hservice, -, hhead, hsafe⟩ := hps.rule hp hr
      rw [hservice] at hs
      exact ⟨⟨hhead, hsafe, fun l hl => ⟨hself', hps.body _ _ r hp hr l hl⟩, hset.weight _ _ r hp hr⟩, htable ▸ hnode hs.symm⟩
  · rw [holds_iff_row hneg htrue hfalse hbuiltin]
    constructor
    · rintro ⟨q, table, hres, hmem⟩
      have hs : lit.table.service.getD self.name = self.name := by
        by_contra hs
        rw [resolve_pseudoModal hs ((movesTo_eq_none hl.modal hmove).resolve_left hs)] at hres
        cases hres
      rw [resolve_self hs] at hres
      cases hres
      obtain ⟨rules', hp', hsup⟩ := (hset.model _ _ _).1 hmem
      rw [hp] at hp'
      cases hp'
      rcases hsup with ⟨fs, hfs, hmem⟩ | ⟨r, ν, hr, htable, hν, hbody⟩
      · refine ⟨factRule lit.table.table (lit.values fun x => ρ (u, x)), List.mem_append_left _
          (List.mem_map.2 ⟨_, List.mem_filter.2 ⟨by rw [hfs]; exact hmem, ?_⟩, rfl⟩),
          sameSchema_iff.2 ⟨⟨rfl, hl.modal.symm, hs.symm⟩, ?_⟩, fun _ => default, ?_, by simp [factRule]⟩
        · rw [List.all_eq_true]
          rintro ⟨i, v⟩ hiv
          rw [RuleSet.mem_partialFact, Literal.plug, List.getElem?_map, Option.map_eq_some_iff] at hiv
          obtain ⟨t, hti, hv⟩ := hiv
          simp only [Literal.values, List.getElem?_map, hti, Option.map_some,
            value_of_apply ht hm hv, decide_true]
        · simp [factRule, Literal.values]
        · simp [factRule, Literal.values, Function.comp_def, Term.value]
      · have hr' := hr
        obtain ⟨rs, hrs, hmem⟩ := hr
        obtain ⟨hservice, -⟩ := hps.rule hp hr'
        refine ⟨r, List.mem_append_right _ (by rw [← htable, hrs]; exact hmem),
          sameSchema_iff.2 ⟨⟨htable, ?_, by rw [hservice, hs]; rfl⟩, ?_⟩, ν, hν, hbody⟩
        · rw [(hps.head _ _ r hp hr').modal, hl.modal]
        · simpa [Literal.values] using congrArg List.length hν
    · rintro ⟨r, hr, hsame, ν, hν, hbody⟩
      rw [sameSchema_iff] at hsame
      obtain ⟨⟨htable, -, hs⟩, -⟩ := hsame
      rcases List.mem_append.1 hr with hr | hr
      · obtain ⟨fact, hfact, rfl⟩ := List.mem_map.1 hr
        have hfact := (List.mem_filter.1 hfact).1
        refine ⟨_, _, resolve_self hs.symm, (hset.model _ _ _).2 ⟨rules, hp, .inl ?_⟩⟩
        rw [← hν]
        cases hlook : rules.facts.lookup lit.table.table with
        | none => simp [hlook] at hfact
        | some fs =>
          refine ⟨fs, hlook, ?_⟩
          rw [hlook] at hfact
          simpa [factRule, Literal.values, Function.comp_def, Term.value] using hfact
      · have hr := hrule r hr htable
        obtain ⟨hservice, -⟩ := hps.rule hp hr
        rw [hservice] at hs
        exact ⟨_, _, resolve_self hs.symm, (hset.model _ _ _).2
          ⟨rules, hp, .inr ⟨r, ν, hr, htable, hν, hbody⟩⟩⟩

theorem Policies.setting (hset : ps.Weighed reg arity M weight) :
    Setting reg ps.theories (ps.scope reg arity) M weight where
  pos := hset.pos
  proper _ _ hl := ⟨hl.2.modal, fun _ => hl.2.builtin, hl.2.reserved⟩
  complement _ _ hl :=
    ⟨hl.1, hl.2.modal, hl.2.builtin, hl.2.reserved, hl.2.pseudoModal, hl.2.arity⟩
  includes th l hl := by
    obtain ⟨⟨rules, -, hth⟩, -⟩ := hl
    rw [hth]
    rfl
  moves th l q hl hmove := by
    obtain ⟨hs, -, hup⟩ := (movesTo_eq_some hl.2.modal).1 hmove
    rw [Policies.theories]
    cases hlook : ps.lookup q with
    | none =>
      refine .inl ⟨rfl, fun values hM => ?_⟩
      obtain ⟨rules, hq, -⟩ := (hset.model _ _ _).1 hM
      rw [hlook] at hq
      cases hq
    | some rules =>
      refine .inr ⟨_, rfl, rfl, ⟨rules, hlook, rfl⟩, hl.2.modal, hl.2.builtin, hl.2.reserved,
        by simp [hup], ?_⟩
      have := hl.2.arity
      rwa [hs] at this ⊢
  index th l hl hlook h u ht := by
    obtain ⟨rs, hindex, hok, hholds⟩ := headIndex_spec hset hl.1 hl.2 hlook ht (u := u)
    have hrules : (rs.map Clause.rule).map (·.asRule l.table.table) = rs := by
      simp [Function.comp_def, Clause.asRule]
    exact ⟨rs.map .rule, hindex, by simp, by rwa [hrules], by rwa [hrules]⟩

end Congress
