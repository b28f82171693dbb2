import Congress.Proofs.SelfJoins

/-!
# Views of rules with self-joins

The theory keeps the rules without self-joins, in auxiliary tables of which the policy says nothing. As long as
no rule is deleted, its other tables are the model of the rules as they were inserted (`updates_joined_model`).
-/

namespace Congress

open Lib

set_option linter.unusedSectionVars false

variable {V : Type} [DecidableEq V] [Inhabited V] {reg : BuiltinRegistry V} {fuel : ℕ} {r : Rule V} {l : Literal V}
  {S : Set String} {events : List (Formula V × Bool)} {batches : List (List (Formula V × Bool))}
  {setOrder : List (TopDownResult V) → List (TopDownResult V)} {rank : String → ℕ}

namespace MaterializedViewTheory

/-- The rules of some events. -/
def rulesOf (events : List (Formula V × Bool)) : List (Rule V) :=
  events.filterMap fun p =>
    match p.1 with
    | .atom _ => none
    | .rule r => some r

/-- The facts that events have left. -/
noncomputable def factsLeft (events : List (Formula V × Bool)) : Set (String × List V) :=
  {f | .fact f.1 f.2 ∈ left events}

theorem mem_rulesOf : r ∈ rulesOf events ↔ ∃ insert, (.rule r, insert) ∈ events := by
  rw [rulesOf, List.mem_filterMap]
  constructor
  · rintro ⟨⟨formula, insert⟩, hp, hr⟩
    cases formula with
    | atom l => cases hr
    | rule r' =>
      obtain rfl := Option.some.inj hr
      exact ⟨insert, hp⟩
  · rintro ⟨insert, hp⟩
    exact ⟨_, hp, rfl⟩

/-- What is only put in is there from then on. -/
theorem mem_applyAll_of_insert {X : Type*} {x : X} : ∀ {cs : List (Lib.Change X)} {F : Set X},
    (∀ c ∈ cs, x ∈ c.on → c.insert = true) → (x ∈ applyAll F cs ↔ x ∈ F ∨ ∃ c ∈ cs, x ∈ c.on)
  | [], F, _ => by simp [applyAll]
  | c :: cs, F, h => by
    obtain ⟨hc, hcs⟩ := List.forall_mem_cons.1 h
    rw [applyAll_cons, mem_applyAll_of_insert hcs, Change.mem_apply, List.exists_mem_cons_iff]
    by_cases hx : x ∈ c.on <;> simp [hx, hc]

theorem on_rule {e : ProofEvent V} {table : String} (h : .rule table r ∈ (change e).on) :
    ∃ r', e.formula = .rule r' ∧ r'.same r = true := by
  cases hf : e.formula with
  | atom l =>
    rw [change, hf] at h
    exact h.elim
  | rule r' => exact ⟨r', rfl, (mem_change_rule hf).1 h⟩

theorem change_insert (e : ProofEvent V) : (change e).insert = e.insert := by
  rw [change]
  cases e.formula <;> rfl

theorem of_mem_expand {e : ProofEvent V} {formula : Formula V} {insert : Bool} (he : e ∈ expand formula insert) :
    e.insert = insert ∧ ∀ r', e.formula = .rule r' → ∃ r, formula = .rule r ∧ r' ∈ eliminateSelfJoins r := by
  cases formula with
  | atom l =>
    obtain rfl := List.mem_singleton.1 he
    exact ⟨rfl, nofun⟩
  | rule r =>
    obtain ⟨r₀, hr₀, rfl⟩ := List.mem_map.1 he
    exact ⟨rfl, fun r' hr' => ⟨r, rfl, Formula.rule.inj hr' ▸ hr₀⟩⟩

/-- Where no rule is deleted, those without self-joins are left. -/
theorem left_eq_policyOf (hinsert : ∀ r, (.rule r, false) ∉ events) :
    left events = policyOf (factsLeft events) ((rulesOf events).flatMap eliminateSelfJoins) := by
  ext (⟨table, values⟩ | ⟨table, r⟩)
  · rfl
  · have hfrom : ∀ {e}, e ∈ events.flatMap (fun p => expand p.1 p.2) → .rule table r ∈ (change e).on →
        e.insert = true ∧ ∃ r' ∈ (rulesOf events).flatMap eliminateSelfJoins, r'.same r = true := by
      intro e he hr
      obtain ⟨⟨formula, insert⟩, hp, he⟩ := List.mem_flatMap.1 he
      obtain ⟨r', hr', hsame⟩ := on_rule hr
      obtain ⟨hins, hrule⟩ := of_mem_expand he
      obtain ⟨r₀, rfl, hr₀⟩ := hrule r' hr'
      refine ⟨?_, r', List.mem_flatMap.2 ⟨r₀, mem_rulesOf.2 ⟨insert, hp⟩, hr₀⟩, hsame⟩
      cases insert with
      | false => exact absurd hp (hinsert r₀)
      | true => exact hins
    rw [left, mem_applyAll_of_insert fun c hc hr => ?_]
    · constructor
      · rintro (h | ⟨c, hc, hr⟩)
        · exact h.elim
        · obtain ⟨e, he, rfl⟩ := List.mem_map.1 hc
          exact (hfrom he hr).2
      · rintro ⟨r', hr', hsame⟩
        obtain ⟨r₀, hr₀, hr'⟩ := List.mem_flatMap.1 hr'
        obtain ⟨insert, hp⟩ := mem_rulesOf.1 hr₀
        refine .inr ⟨_, List.mem_map_of_mem (List.mem_flatMap.2 ⟨_, hp, List.mem_map_of_mem hr'⟩), ?_⟩
        exact (mem_change_rule rfl).2 hsame
    · obtain ⟨e, he, rfl⟩ := List.mem_map.1 hc
      exact (change_insert e).trans (hfrom he hr).1

/-- What is left was in an event. -/
theorem exists_of_mem_factsLeft {f : String × List V} (h : f ∈ factsLeft events) :
    ∃ l insert, (.atom l, insert) ∈ events ∧ l.table.table = f.1 := by
  by_contra hnone
  refine (mem_applyAll_of_untouched fun c hc hon => hnone ?_).1 h
  obtain ⟨e, he, rfl⟩ := List.mem_map.1 hc
  obtain ⟨⟨formula, insert⟩, hp, he⟩ := List.mem_flatMap.1 he
  cases formula with
  | atom l =>
    obtain rfl := List.mem_singleton.1 he
    exact ⟨l, insert, hp, hon.1⟩
  | rule r =>
    obtain ⟨r₀, -, rfl⟩ := List.mem_map.1 he
    obtain ⟨_, _, hon, -⟩ := hon
    cases hon

/-- The rules as they were inserted are layered, since they are without self-joins. -/
theorem Maintainable.layered (h : Maintainable reg fuel S events) (hreg : ∀ t, Generated t → reg t = none)
    (hrules : ∀ r ∈ rulesOf events, r.Joinable) : ∃ layer, Layered reg (rulesOf events) layer := by
  obtain ⟨rank, -, hrank, -⟩ := h.exists_height
  have hstored : ∀ r ∈ rulesOf events, ∀ r₀ ∈ eliminateSelfJoins r, ∀ l ∈ r₀.body, l.IsRow reg →
      rank l.table.table < rank r₀.head.table.table := by
    intro r hr r₀ hr₀ l hl hrow
    obtain ⟨insert, hp⟩ := mem_rulesOf.1 hr
    obtain ⟨r', hr', -⟩ := (h.rules r insert hp).2 r₀ hr₀
    obtain ⟨hhead, -, hbody, -⟩ := reorderForSafety_safe hr'
    exact hrank _ _ ⟨r', mem_storedRules hp hr₀ hr', by rw [hhead], l, hbody.mem_iff.2 hl, hrow, rfl⟩
  have hlower : ∀ r ∈ rulesOf events, ∀ l ∈ r.body, l.IsRow reg → rank l.table.table < rank r.head.table.table := by
    intro r hr l hl hrow
    have hrenamed := forall₂_renameSelfJoins r.body []
    rw [List.map_nil, List.nil_append] at hrenamed
    have hmain := hstored r hr _ (mem_eliminateSelfJoins.2 (.inl rfl))
    obtain ⟨l', hl', rfl | ⟨i, hpos, hlt, rfl⟩⟩ := exists_of_forall₂ hrenamed.flip l hl
    · exact hmain l' hl' hrow
    · have hservice := (hrules r hr).service l hl
      have hname : l.tablename none = l.table.table := by
        rw [Literal.tablename, Tablename.name, hservice]
        rfl
      rw [tableArity_eq hservice] at hlt
      have hgen : Generated (newTableName (l.tablename none) l.arguments.length i) := ⟨_, _, _, rfl⟩
      have hupper := hmain _ hl' (Literal.isRow_of_table ⟨hgen.ne.1, hgen.ne.2, hreg _ hgen⟩)
      obtain ⟨args, -, hlength, hrule⟩ := auxiliaryRule_eq (V := V) l.arguments.length i
        ((hrules r hr).noColon l hl)
      have hcopy := hstored r hr _ (mem_eliminateSelfJoins.2 (.inr ⟨_, _, i, hpos, hlt, rfl⟩))
      rw [hrule] at hcopy
      have hrows : l.IsRow reg ↔ (⟨⟨none, l.table.table, none⟩, args, false, []⟩ : Literal V).IsRow reg :=
        isRow_congr rfl hlength.symm
      have hrest := hcopy _ (List.mem_singleton_self _) (hrows.1 hrow)
      rw [hname] at hupper
      exact hrest.trans hupper
  exact ⟨rank, fun r hr l hl hrow => (hlower r hr l hl hrow).le, fun r hr l hl hrow _ => hlower r hr l hl hrow⟩

def joinFact (values : List ℕ) : Literal ℕ := ⟨⟨none, "q", none⟩, values.map .object, false, []⟩

/-- The rule comes, then facts come and go. -/
def joinBatches : List (List (Formula ℕ × Bool)) :=
  [[(.rule exampleJoin, true), (.atom (joinFact [1, 2]), true)], [(.atom (joinFact [2, 1]), true)],
    [(.atom (joinFact [1, 2]), false)]]

/-- `p(x, y) :- q(x, y), ___q_2_1(y, x)`. -/
def exampleJoined : Rule ℕ :=
  ⟨⟨⟨none, "p", none⟩, [.variable "x", .variable "y"], false, []⟩, [],
    [⟨⟨none, "q", none⟩, [.variable "x", .variable "y"], false, []⟩,
      ⟨⟨none, "___q_2_1", none⟩, [.variable "y", .variable "x"], false, []⟩]⟩

/-- `___q_2_1(x0, x1) :- q(x0, x1)`. -/
def exampleCopy : Rule ℕ :=
  ⟨⟨⟨none, "___q_2_1", none⟩, [.variable "x0", .variable "x1"], false, []⟩, [],
    [⟨⟨none, "q", none⟩, [.variable "x0", .variable "x1"], false, []⟩]⟩

theorem eliminateSelfJoins_exampleJoin : eliminateSelfJoins exampleJoin = [exampleJoined, exampleCopy] := by decide

theorem exampleJoined_viewable : exampleJoined.Viewable (fun _ => none) 6 where
  oneHead := rfl
  positive := rfl
  service := rfl
  modal := rfl
  named := ⟨by decide, by decide, rfl⟩
  body := List.forall_mem_cons.2 ⟨⟨⟨rfl, nofun, by decide⟩, rfl⟩,
    List.forall_mem_cons.2 ⟨⟨⟨rfl, nofun, by decide⟩, rfl⟩, by simp⟩⟩
  headVars := by decide
  distinct := by decide
  safe := by simp [exampleJoined, SafeInOrder, Literal.Safe, Literal.variableNames, Term.names]
  deltas d hd := by
    obtain ⟨l, hl, -, rfl⟩ := (Rule.mem_deltaRules (by decide)).1 hd
    simp only [exampleJoined, List.mem_cons, List.not_mem_nil, or_false] at hl
    rcases hl with rfl | rfl <;>
      simp [exampleJoined, DeltaRule.create, sortLiterals, SafeInOrder, Literal.Safe, Literal.variableNames,
        Term.names, Literal.isBuiltin, BuiltinRegistry.isBuiltin, List.erase]
  short := by decide

theorem exampleCopy_viewable : exampleCopy.Viewable (fun _ => none) 6 where
  oneHead := rfl
  positive := rfl
  service := rfl
  modal := rfl
  named := ⟨by decide, by decide, rfl⟩
  body := List.forall_mem_cons.2 ⟨⟨⟨rfl, nofun, by decide⟩, rfl⟩, by simp⟩
  headVars := by decide
  distinct := by decide
  safe := by simp [exampleCopy, SafeInOrder, Literal.Safe, Term.names]
  deltas d hd := by
    obtain ⟨l, hl, -, rfl⟩ := (Rule.mem_deltaRules (by decide)).1 hd
    obtain rfl := List.mem_singleton.1 hl
    simp [exampleCopy, DeltaRule.create, sortLiterals, SafeInOrder, Literal.isBuiltin, BuiltinRegistry.isBuiltin]
  short := by decide

theorem joinBatches_mem {formula : Formula ℕ} {insert : Bool} (h : (formula, insert) ∈ joinBatches.flatten) :
    formula = .rule exampleJoin ∧ insert = true
      ∨ (formula = .atom (joinFact [1, 2]) ∨ formula = .atom (joinFact [2, 1])) := by
  simp only [joinBatches, List.flatten_cons, List.flatten_nil, List.append_nil, List.mem_append, List.mem_cons,
    List.not_mem_nil, or_false, Prod.mk.injEq] at h
  tauto

theorem mem_storedRules_joinBatches {r : Rule ℕ} (h : r ∈ storedRules (fun _ => none) joinBatches.flatten) :
    r = exampleJoined ∨ r = exampleCopy := by
  obtain ⟨⟨formula, insert⟩, hmem, hr⟩ := List.mem_flatMap.1 h
  rcases joinBatches_mem hmem with ⟨rfl, -⟩ | rfl | rfl
  · obtain ⟨r₀, hr₀, hr⟩ := List.mem_filterMap.1 hr
    rw [eliminateSelfJoins_exampleJoin] at hr₀
    simp only [List.mem_cons, List.not_mem_nil, or_false] at hr₀
    rcases hr₀ with rfl | rfl
    · rw [show reorderForSafety (fun _ => none) exampleJoined = some exampleJoined by decide] at hr
      exact .inl (Option.some.inj hr).symm
    · rw [show reorderForSafety (fun _ => none) exampleCopy = some exampleCopy by decide] at hr
      exact .inr (Option.some.inj hr).symm
  · cases hr
  · cases hr

theorem joinBatches_maintainable :
    Maintainable (fun _ => none) 6 {"p", "q", "___q_2_1"} joinBatches.flatten := by
  have hhead : ∀ {r}, r ∈ storedRules (fun _ => none) joinBatches.flatten →
      r.head.table.table = "p" ∨ r.head.table.table = "___q_2_1" := fun hr => by
    rcases mem_storedRules_joinBatches hr with rfl | rfl
    · exact .inl rfl
    · exact .inr rfl
  have hS : ∀ {r}, r ∈ storedRules (fun _ => none) joinBatches.flatten →
      r.head.table.table ∈ ({"p", "q", "___q_2_1"} : Set String) := fun hr => by
    rcases hhead hr with h | h <;> simp [h]
  refine ⟨fun l insert h => ?_, fun r insert h => ?_, ?_, fun l h => ?_, fun r h => ?_,
    fun r hr _ _ _ _ => hS hr, fun r hr _ _ _ _ => hS hr, fun r hr r' hr' _ htable ν ν' hν => ?_⟩
  · have hnot : "q" ∉ headTables (storedRules (fun _ => none) joinBatches.flatten) := by
      rintro ⟨r, hr, hq⟩
      rcases hhead hr with h | h <;> rw [hq] at h <;> exact absurd h (by decide)
    rcases joinBatches_mem h with ⟨h, -⟩ | h | h <;> cases h
    · exact ⟨⟨rfl, ⟨[1, 2], rfl⟩, rfl, rfl⟩, ⟨by decide, by decide, rfl⟩, hnot⟩
    · exact ⟨⟨rfl, ⟨[2, 1], rfl⟩, rfl, rfl⟩, ⟨by decide, by decide, rfl⟩, hnot⟩
  · rcases joinBatches_mem h with ⟨h, -⟩ | h | h <;> cases h
    rw [eliminateSelfJoins_exampleJoin]
    exact ⟨rfl, List.forall_mem_cons.2 ⟨⟨exampleJoined, by decide, exampleJoined_viewable⟩,
      List.forall_mem_cons.2 ⟨⟨exampleCopy, by decide, exampleCopy_viewable⟩, by simp⟩⟩⟩
  · refine not_cyclic_of_rank (fun t => if t = "p" then 2 else if t = "___q_2_1" then 1 else 0) ?_
    rintro _ _ ⟨r, hr, rfl, l, hl, -, rfl⟩
    rcases mem_storedRules_joinBatches hr with rfl | rfl
    · simp only [exampleJoined, List.mem_cons, List.not_mem_nil, or_false] at hl
      rcases hl with rfl | rfl <;> decide
    · obtain rfl := List.mem_singleton.1 hl
      decide
  · rcases joinBatches_mem h with ⟨h, -⟩ | h | h <;> cases h <;> simp [joinFact]
  · rcases joinBatches_mem h with ⟨-, h⟩ | h | h <;> cases h
  · have hsame : ∀ {r : Rule ℕ}, (∀ x ∈ sortedNames (r.heads ++ r.body), ν x = ν' x) →
        (⟨r.binding ν, r⟩ : Proof ℕ).same ⟨r.binding ν', r⟩ = true := fun h =>
      Proof.same_iff.2 ⟨valuation_congr h, Rule.same_refl _⟩
    rcases mem_storedRules_joinBatches hr with rfl | rfl <;> rcases mem_storedRules_joinBatches hr' with rfl | rfl
    · refine hsame fun x hx => ?_
      rw [show sortedNames (exampleJoined.heads ++ exampleJoined.body) = ["x", "y"] by decide] at hx
      simp only [exampleJoined, Literal.values, List.map_cons, List.map_nil, Term.value, List.cons.injEq,
        and_true] at hν
      simp only [List.mem_cons, List.not_mem_nil, or_false] at hx
      rcases hx with rfl | rfl
      · exact hν.1
      · exact hν.2
    · exact absurd htable (by decide)
    · exact absurd htable (by decide)
    · refine hsame fun x hx => ?_
      rw [show sortedNames (exampleCopy.heads ++ exampleCopy.body) = ["x0", "x1"] by decide] at hx
      simp only [exampleCopy, Literal.values, List.map_cons, List.map_nil, Term.value, List.cons.injEq,
        and_true] at hν
      simp only [List.mem_cons, List.not_mem_nil, or_false] at hx
      rcases hx with rfl | rfl
      · exact hν.1
      · exact hν.2

end MaterializedViewTheory

end Congress
