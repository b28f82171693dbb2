import Mathlib.Data.List.GetD
import Mathlib.Data.List.TakeWhile
import Congress.Lib.Numerals
import Congress.Lib.StableModels
import Congress.Proofs.ViewHistories

/-!
# Rules without self-joins

Eliminating self-joins gives rules with no table twice in a body. In their stable model the auxiliary tables are
copies of the tables that they stand for (`stable_copied`), so that all other tables have the rows that the rules
gave them before (`eliminateSelfJoins_model`), recursion and negation included.
-/

namespace Congress

open Lib MaterializedViewTheory

set_option linter.unusedSectionVars false

variable {V : Type} [DecidableEq V] [Inhabited V] {reg : BuiltinRegistry V} {name table table' : String}
  {arity arity' index index' : ℕ} {l l' : Literal V} {r : Rule V} {rules : List (Rule V)} {ls : List (Literal V)}
  {values : List V} {used : Set (String × ℕ × ℕ)} {M : Set (Row V)} {ν : String → V} {facts : Set (String × List V)}

/-- The name of an auxiliary table. -/
def Generated (table : String) : Prop := ∃ name arity index, table = newTableName name arity index

theorem newTableName_toList : (newTableName table arity index).toList
    = ("___".toList ++ table.toList ++ '_' :: (toString arity).toList) ++ '_' :: (toString index).toList := by
  simp [newTableName]

theorem newTableName_inj (h : newTableName table arity index = newTableName table' arity' index') :
    table = table' ∧ arity = arity' ∧ index = index' := by
  have hlists := congrArg String.toList h
  have hdigits : ∀ n : ℕ, '_' ∉ (toString n).toList := notMem_toString (by decide)
  rw [newTableName_toList, newTableName_toList] at hlists
  obtain ⟨hfront, hindex⟩ := append_cons_inj hlists (hdigits _) (hdigits _)
  obtain ⟨htable, harity⟩ := append_cons_inj hfront (hdigits _) (hdigits _)
  exact ⟨String.toList_inj.1 (List.append_cancel_left htable), natToString_injective (String.toList_inj.1 harity),
    natToString_injective (String.toList_inj.1 hindex)⟩

/-- An auxiliary table is none of those that the language gives a meaning. -/
theorem Generated.ne (h : Generated table) : table ≠ "true" ∧ table ≠ "false" := by
  obtain ⟨n, k, i, rfl⟩ := h
  constructor <;> intro h <;> have := congrArg (·.toList.head?) h <;>
    simp [newTableName_toList] at this

/-- A rule that can be joined: its tables are of its own policy, and none has the name of an auxiliary one. -/
structure Rule.Joinable (r : Rule V) : Prop where
  oneHead : r.moreHeads = []
  head : ¬ Generated r.head.table.table
  service : ∀ l ∈ r.body, l.table.service = none
  fresh : ∀ l ∈ r.body, ¬ Generated l.table.table
  noColon : ∀ l ∈ r.body, ':' ∉ l.table.table.toList

/-- What a policy with some facts and rules states. -/
def policyOf (facts : Set (String × List V)) (rules : List (Rule V)) : Set (Statement V)
  | .fact table values => (table, values) ∈ facts
  | .rule _ r => ∃ r' ∈ rules, r'.same r = true

/-- The tables of the bodies that have auxiliary ones, with the numbers of these. -/
def joinedTables (rules : List (Rule V)) : Set (String × ℕ × ℕ) :=
  {x | ∃ r ∈ rules, 0 < x.2.2 ∧ x.2.2 < (r.body.map Literal.tableArity).count (x.1, x.2.1)}

/-- An atom with these values. -/
def atomOf (table : String) (values : List V) : Literal V := ⟨⟨none, table, none⟩, values.map .object, false, []⟩

/-- A set of rows with the rows of the auxiliary tables. -/
def copied (reg : BuiltinRegistry V) (name : String) (used : Set (String × ℕ × ℕ)) (M : Set (Row V)) :
    Set (Row V) :=
  {a | a.policy = name ∧ (¬ Generated a.table ∧ a ∈ M ∨ ∃ n k i, a.table = newTableName n k i ∧ (n, k, i) ∈ used
    ∧ a.values.length = k ∧ (atomOf n a.values).Holds reg evaluationFollows M name default)}

theorem tableArity_eq (h : l.table.service = none) : l.tableArity = (l.table.table, l.arguments.length) := by
  rw [Literal.tableArity, Literal.tablename, Tablename.name, h]
  rfl

theorem values_atomOf : (atomOf table values).values ν = values := by
  rw [Literal.values, atomOf, List.map_map]
  exact (List.map_congr_left fun _ _ => rfl).trans (List.map_id _)

/-- What an atom means depends on its table and its values. -/
theorem meaning_atomOf (h : l.table.service = none) : (atomOf l.table.table (l.values ν)).meaning reg
    evaluationFollows name default = l.meaning reg evaluationFollows name ν := by
  have hname : ∀ l : Literal V, l.table.service = none → l.tablename none = l.table.table := fun l h => by
    rw [Literal.tablename, Tablename.name, h]
    rfl
  have hbuiltin : (atomOf l.table.table (l.values ν)).isBuiltin reg true = l.isBuiltin reg true := by
    simp [Literal.isBuiltin, BuiltinRegistry.isBuiltin, atomOf, Literal.values]
  rw [Literal.meaning, Literal.meaning, hname _ h, hname (atomOf _ _) rfl, hbuiltin, values_atomOf,
    Tablename.resolve, Tablename.resolve, h]
  rfl

/-! ## Stable models of rules -/

/-- The row that an instance of a head gives. -/
def headRow (name : String) (ν : String → V) (head : Literal V) : Row V := ⟨name, head.table.table, head.values ν⟩

/-- An instance of a body is true, and the rows that it asks for have some property. -/
def BodyHolds (reg : BuiltinRegistry V) (name : String) (M : Set (Row V)) (Q : Row V → Prop) (ν : String → V)
    (body : List (Literal V)) : Prop :=
  ∀ l ∈ body, l.Holds reg evaluationFollows M name ν
    ∧ ∀ b, l.negated = false → l.meaning reg evaluationFollows name ν = .row b → Q b

theorem fact_mem_clauses {f : String × List V} (h : f ∈ facts) :
    (⟨⟨name, f.1, f.2⟩, ∅, ∅⟩ : GroundClause (Row V)) ∈ Statement.clauses reg name (policyOf facts rules) :=
  .fact (X := policyOf facts rules) h

theorem rule_mem_clauses (facts : Set (String × List V)) {ν : String → V} (h : r ∈ rules)
    (hbody : ∀ l ∈ r.body, l.Holds reg evaluationFollows M name ν) :
    Rule.ground reg evaluationFollows name ν r.head r.body ∈ Statement.clauses reg name (policyOf facts rules)
      ∧ (Rule.ground reg evaluationFollows name ν r.head r.body).Fires M := by
  obtain ⟨hs, hfires⟩ := fires_ground_iff.2 hbody
  have hmem : .rule "" r ∈ policyOf facts rules := ⟨r, h, Rule.same_refl r⟩
  exact ⟨.rule hmem hs, hfires⟩

/-- What a clause of a policy can be. -/
theorem cases_of_mem_clauses {c : GroundClause (Row V)} (hone : ∀ r ∈ rules, r.moreHeads = [])
    (hc : c ∈ Statement.clauses reg name (policyOf facts rules)) :
    (∃ f ∈ facts, c = ⟨⟨name, f.1, f.2⟩, ∅, ∅⟩)
      ∨ ∃ r ∈ rules, ∃ ν, c = Rule.ground reg evaluationFollows name ν r.head r.body
        ∧ ∀ l ∈ r.body, ∀ q, l.meaning reg evaluationFollows name ν = .settled q → (l.negated = false ↔ q) := by
  rcases hc with @⟨table, values, hfact⟩ | @⟨table, r, ν, ⟨r', hr', hsame⟩, hs⟩
  · exact .inl ⟨_, hfact, rfl⟩
  · obtain ⟨hheads, hbody⟩ := Rule.same_iff.1 hsame
    rw [Rule.heads, hone r' hr', List.singleton_perm, Rule.heads, List.cons.injEq] at hheads
    refine .inr ⟨r', hr', ν, ?_, fun l hl => hs l (hbody.mem_iff.1 hl)⟩
    rw [Rule.ground, Rule.ground, hheads.1]
    congr 1 <;> ext b <;> simp only [Set.mem_ofPred_eq, hbody.mem_iff]

/-- A stable model of a policy, by its facts and rules. -/
theorem stable_policyOf (hone : ∀ r ∈ rules, r.moreHeads = []) :
    Stable (Statement.clauses reg name (policyOf facts rules)) M ↔ (∀ f ∈ facts, (⟨name, f.1, f.2⟩ : Row V) ∈ M)
      ∧ (∀ r ∈ rules, ∀ ν, (∀ l ∈ r.body, l.Holds reg evaluationFollows M name ν) → headRow name ν r.head ∈ M)
      ∧ ∀ Q : Row V → Prop, (∀ f ∈ facts, Q ⟨name, f.1, f.2⟩) →
        (∀ r ∈ rules, ∀ ν, BodyHolds reg name M Q ν r.body → Q (headRow name ν r.head)) → ∀ a ∈ M, Q a := by
  constructor
  · intro h
    refine ⟨fun f hf => h.closed _ (fact_mem_clauses hf) ⟨by simp, by simp⟩, fun r hr ν hbody => ?_,
      fun Q hfacts hrules => h.least Q fun c hc hfires hpos => ?_⟩
    · obtain ⟨hc, hfires⟩ := rule_mem_clauses facts hr hbody
      exact h.closed _ hc hfires
    · rcases cases_of_mem_clauses hone hc with ⟨f, hf, rfl⟩ | ⟨r, hr, ν, rfl, hs⟩
      · exact hfacts f hf
      · have hholds := fires_ground_iff.1 ⟨hs, hfires⟩
        exact hrules r hr ν fun l hl => ⟨hholds l hl, fun b hneg hm => hpos b ⟨l, hl, hneg, hm⟩⟩
  · rintro ⟨hfacts, hrules, hleast⟩
    refine ⟨fun c hc hfires => ?_, fun Q hQ => hleast Q (fun f hf => ?_) fun r hr ν hbody => ?_⟩
    · rcases cases_of_mem_clauses hone hc with ⟨f, hf, rfl⟩ | ⟨r, hr, ν, rfl, hs⟩
      · exact hfacts f hf
      · exact hrules r hr ν (fires_ground_iff.1 ⟨hs, hfires⟩)
    · exact hQ _ (fact_mem_clauses hf) ⟨by simp, by simp⟩ (by simp)
    · obtain ⟨hc, hfires⟩ := rule_mem_clauses facts hr fun l hl => (hbody l hl).1
      refine hQ _ hc hfires ?_
      rintro b ⟨l, hl, hneg, hm⟩
      exact (hbody l hl).2 b hneg hm

/-! ## The rules that come out -/

/-- A literal is kept, or its table becomes one of the auxiliary ones for the body. -/
def Renamed (body : List (Literal V)) (l' l : Literal V) : Prop :=
  l' = l ∨ ∃ i, 0 < i ∧ i < (body.map Literal.tableArity).count l.tableArity
    ∧ l' = { l with table.table := newTableName (l.tablename none) l.arguments.length i }

theorem forall₂_renameSelfJoins : ∀ (ls : List (Literal V)) (seen : List (Literal V)),
    List.Forall₂ (Renamed (seen ++ ls)) (renameSelfJoins (seen.map Literal.tableArity) ls) ls
  | [], _ => .nil
  | l :: ls, seen => by
    rw [renameSelfJoins]
    refine .cons ?_ ?_
    · split_ifs with hn
      · exact .inl rfl
      · refine .inr ⟨_, Nat.pos_of_ne_zero hn, ?_, rfl⟩
        rw [List.map_append, List.count_append, List.map_cons, List.count_cons_self]
        omega
    · have htail := forall₂_renameSelfJoins ls (seen ++ [l])
      rwa [List.append_assoc, List.singleton_append, List.map_append] at htail

theorem mem_eliminateSelfJoins {r' : Rule V} : r' ∈ eliminateSelfJoins r
    ↔ r' = { r with body := renameSelfJoins [] r.body } ∨ ∃ table arity index, 0 < index
      ∧ index < (r.body.map Literal.tableArity).count (table, arity) ∧ r' = auxiliaryRule table arity index := by
  simp only [eliminateSelfJoins, List.mem_cons, List.mem_flatMap, List.mem_dedup, List.mem_map, List.mem_range]
  refine or_congr_right ⟨?_, ?_⟩
  · rintro ⟨⟨table, arity⟩, -, i, hi, rfl⟩
    exact ⟨table, arity, i + 1, i.succ_pos, Nat.add_lt_of_lt_sub hi, rfl⟩
  · rintro ⟨table, arity, index, hpos, hlt, rfl⟩
    have hmem : (table, arity) ∈ r.body.map Literal.tableArity := List.count_pos_iff.1 (hpos.trans hlt)
    exact ⟨(table, arity), List.mem_map.1 hmem, index - 1, Nat.sub_lt_sub_right hpos hlt,
      by rw [Nat.sub_add_cancel hpos]⟩

/-- The rules without self-joins. -/
theorem mem_flatMap_eliminateSelfJoins {r' : Rule V} : r' ∈ rules.flatMap eliminateSelfJoins
    ↔ (∃ r ∈ rules, r' = { r with body := renameSelfJoins [] r.body })
      ∨ ∃ x ∈ joinedTables rules, r' = auxiliaryRule x.1 x.2.1 x.2.2 := by
  simp only [List.mem_flatMap, mem_eliminateSelfJoins]
  constructor
  · rintro ⟨r, hr, h | ⟨table, arity, index, hpos, hlt, h⟩⟩
    · exact .inl ⟨r, hr, h⟩
    · exact .inr ⟨(table, arity, index), ⟨r, hr, hpos, hlt⟩, h⟩
  · rintro (⟨r, hr, h⟩ | ⟨⟨table, arity, index⟩, ⟨r, hr, hpos, hlt⟩, h⟩)
    · exact ⟨r, hr, .inl h⟩
    · exact ⟨r, hr, .inr ⟨table, arity, index, hpos, hlt, h⟩⟩

/-- A table that has auxiliary ones is in a body. -/
theorem exists_of_mem_joinedTables {n : String} {k i : ℕ} (h : (n, k, i) ∈ joinedTables rules)
    (hrules : ∀ r ∈ rules, r.Joinable) :
    ∃ r ∈ rules, ∃ l ∈ r.body, l.table.table = n ∧ l.arguments.length = k := by
  obtain ⟨r, hr, hpos, hlt⟩ := h
  have hmem : (n, k) ∈ r.body.map Literal.tableArity := List.count_pos_iff.1 (hpos.trans hlt)
  obtain ⟨l, hl, htable⟩ := List.mem_map.1 hmem
  rw [tableArity_eq ((hrules r hr).service l hl), Prod.mk.injEq] at htable
  exact ⟨r, hr, l, hl, htable⟩

theorem parseServiceTable_eq (h : ':' ∉ table.toList) : parseServiceTable table = ⟨none, table, none⟩ := by
  have hall : ∀ c ∈ table.toList, decide (c ≠ ':') = true :=
    fun c hc => decide_eq_true fun hcolon => h (hcolon ▸ hc)
  rw [parseServiceTable, List.dropWhile_eq_nil_iff.2 hall]

theorem noColon_newTableName (h : ':' ∉ table.toList) : ':' ∉ (newTableName table arity index).toList := by
  have hdigits : ∀ n : ℕ, ':' ∉ (toString n).toList := notMem_toString (by decide)
  rw [newTableName_toList]
  simp only [List.mem_append, List.mem_cons, not_or]
  exact ⟨⟨⟨by decide, h⟩, by decide, hdigits _⟩, by decide, hdigits _⟩

/-- The rule for an auxiliary table copies the table. -/
theorem auxiliaryRule_eq (arity index : ℕ) (h : ':' ∉ table.toList) :
    ∃ args : List (Term V), (∀ values : List V, values.length = arity → ∃ ν, args.map (Term.value ν) = values)
      ∧ args.length = arity
      ∧ auxiliaryRule table arity index = ⟨⟨⟨none, newTableName table arity index, none⟩, args, false, []⟩, [],
        [⟨⟨none, table, none⟩, args, false, []⟩]⟩ := by
  refine ⟨(List.range arity).map fun i => .variable ("x" ++ toString i), fun values hlength => ?_, by simp, by
    rw [auxiliaryRule, parseServiceTable_eq h, parseServiceTable_eq (noColon_newTableName h)]⟩
  have hinj : Function.Injective fun i : ℕ => "x" ++ toString i :=
    fun i j h => natToString_injective ((String.append_right_inj _).1 h)
  refine ⟨Function.extend (fun i : ℕ => "x" ++ toString i) (fun i => values.getD i default) fun _ => default,
    List.ext_getElem (by simp [hlength]) fun i _ hi => ?_⟩
  simp only [List.map_map, List.getElem_map, List.getElem_range, Function.comp_apply, Term.value]
  rw [hinj.extend_apply, List.getD_eq_getElem _ _ hi]

theorem meaning_eq_row {b : Row V} (hl : l.table.service = none)
    (h : l.meaning reg evaluationFollows name ν = .row b) : b = ⟨name, l.table.table, l.values ν⟩ := by
  rw [Literal.meaning] at h
  split_ifs at h
  rw [Tablename.resolve, hl] at h
  exact (Meaning.row.inj h).symm

/-- The copies change nothing for the tables that were there before. -/
theorem holds_copied (hl : l.table.service = none) (hfresh : ¬ Generated l.table.table) :
    l.Holds reg evaluationFollows (copied reg name used M) name ν ↔ l.Holds reg evaluationFollows M name ν := by
  rw [Literal.Holds, Literal.Holds]
  cases hm : l.meaning reg evaluationFollows name ν with
  | settled q => rfl
  | row b =>
    obtain rfl := meaning_eq_row hl hm
    have hmem : (⟨name, l.table.table, l.values ν⟩ : Row V) ∈ copied reg name used M
        ↔ (⟨name, l.table.table, l.values ν⟩ : Row V) ∈ M := by
      refine ⟨fun h => ?_, fun h => ⟨rfl, .inl ⟨hfresh, h⟩⟩⟩
      rcases h.2 with h | ⟨n, k, i, htable, -⟩
      · exact h.2
      · exact absurd ⟨n, k, i, htable⟩ hfresh
    simp only [Meaning.IsTrue, hmem]

theorem meaning_renamed (hreg : ∀ t, Generated t → reg t = none) (hl : l.table.service = none) :
    ({ l with table.table := newTableName table arity index } : Literal V).meaning reg evaluationFollows name ν
      = .row ⟨name, newTableName table arity index, l.values ν⟩ := by
  have hgen : Generated (newTableName table arity index) := ⟨_, _, _, rfl⟩
  have hname : ({ l with table.table := newTableName table arity index } : Literal V).tablename none
      = newTableName table arity index := by
    rw [Literal.tablename, Tablename.name, hl]
    rfl
  rw [Literal.meaning, hname, if_neg hgen.ne.1, if_neg hgen.ne.2,
    if_neg (by simp [Literal.isBuiltin, BuiltinRegistry.isBuiltin, hreg _ hgen]), Tablename.resolve, hl]
  rfl

/-- The copy of a table says what the table says. -/
theorem holds_renamed (hreg : ∀ t, Generated t → reg t = none) (hl : l.table.service = none)
    (hused : (l.table.table, l.arguments.length, index) ∈ used) :
    ({ l with table.table := newTableName l.table.table l.arguments.length index } : Literal V).Holds reg
      evaluationFollows (copied reg name used M) name ν ↔ l.Holds reg evaluationFollows M name ν := by
  have hmem : (⟨name, newTableName l.table.table l.arguments.length index, l.values ν⟩ : Row V)
      ∈ copied reg name used M ↔ (l.meaning reg evaluationFollows name ν).IsTrue M := by
    rw [← meaning_atomOf hl]
    refine ⟨fun h => ?_, fun h => ⟨rfl, .inr ⟨_, _, _, rfl, hused, by simp [Literal.values], h⟩⟩⟩
    rcases h.2 with ⟨hgen, -⟩ | ⟨n, k, i, htable, -, -, h⟩
    · exact absurd ⟨_, _, _, rfl⟩ hgen
    · obtain ⟨rfl, -⟩ := newTableName_inj htable
      exact h
  rw [Literal.Holds, Literal.Holds, meaning_renamed hreg hl]
  simp only [Meaning.IsTrue, hmem]

/-! ## Their models -/

theorem oneHead_eliminated (hrules : ∀ r ∈ rules, r.Joinable) :
    ∀ r ∈ rules.flatMap eliminateSelfJoins, r.moreHeads = [] := by
  intro r' hr'
  rcases mem_flatMap_eliminateSelfJoins.1 hr' with ⟨r, hr, rfl⟩ | ⟨x, -, rfl⟩
  · exact (hrules r hr).oneHead
  · rfl

theorem exists_of_forall₂ {α β : Type*} {R : α → β → Prop} {as : List α} {bs : List β}
    (h : List.Forall₂ R as bs) : ∀ a ∈ as, ∃ b ∈ bs, R a b := by
  induction h with
  | nil => simp
  | cons hab _ ih =>
    rintro a (_ | ⟨_, ha⟩)
    · exact ⟨_, List.mem_cons_self .., hab⟩
    · obtain ⟨b, hb, hab⟩ := ih a ha
      exact ⟨b, List.mem_cons_of_mem _ hb, hab⟩

/-- The literals of a rule and those that come out of it say the same. -/
theorem forall₂_holds (hreg : ∀ t, Generated t → reg t = none) (hr : r ∈ rules) (hrules : ∀ r ∈ rules, r.Joinable) :
    List.Forall₂ (fun l' l => (l'.Holds reg evaluationFollows (copied reg name (joinedTables rules) M) name ν
        ↔ l.Holds reg evaluationFollows M name ν) ∧ l'.negated = l.negated
      ∧ (l' = l ∨ ∃ i, (l.table.table, l.arguments.length, i) ∈ joinedTables rules
        ∧ l'.meaning reg evaluationFollows name ν
          = .row ⟨name, newTableName l.table.table l.arguments.length i, l.values ν⟩))
      (renameSelfJoins [] r.body) r.body := by
  have hrenamed := forall₂_renameSelfJoins r.body []
  rw [List.map_nil, List.nil_append] at hrenamed
  have hjoinable := hrules r hr
  refine (List.forall₂_iff_get.1 hrenamed).imp_right ?_ |> List.forall₂_iff_get.2
  intro hget i hi' hi
  have hl := List.get_mem r.body ⟨i, hi⟩
  have hservice := hjoinable.service _ hl
  rcases hget i hi' hi with heq | ⟨index, hpos, hlt, heq⟩
  · rw [heq]
    exact ⟨holds_copied hservice (hjoinable.fresh _ hl), rfl, .inl rfl⟩
  · have hname : (r.body.get ⟨i, hi⟩).tablename none = (r.body.get ⟨i, hi⟩).table.table := by
      rw [Literal.tablename, Tablename.name, hservice]
      rfl
    rw [tableArity_eq hservice] at hlt
    have hused : ((r.body.get ⟨i, hi⟩).table.table, (r.body.get ⟨i, hi⟩).arguments.length, index)
        ∈ joinedTables rules := ⟨r, hr, hpos, hlt⟩
    rw [heq, hname]
    exact ⟨holds_renamed hreg hservice hused, rfl, .inr ⟨index, hused, meaning_renamed hreg hservice⟩⟩

section Auxiliary

variable {n : String} {k i : ℕ}

theorem notGenerated_of_joinedTables (hrules : ∀ r ∈ rules, r.Joinable) (hused : (n, k, i) ∈ joinedTables rules) :
    ¬ Generated n ∧ ':' ∉ n.toList := by
  obtain ⟨r, hr, l, hl, rfl, -⟩ := exists_of_mem_joinedTables hused hrules
  exact ⟨(hrules r hr).fresh l hl, (hrules r hr).noColon l hl⟩

/-- The rule for an auxiliary table gives the copies of the rows. -/
theorem exists_auxiliary {Q : Row V → Prop} (hrules : ∀ r ∈ rules, r.Joinable)
    (hused : (n, k, i) ∈ joinedTables rules) (hlength : values.length = k)
    (hholds : (atomOf n values).Holds reg evaluationFollows M name default)
    (hQ : ∀ b, (atomOf n values).meaning reg evaluationFollows name default = .row b → Q b) :
    ∃ ν, headRow name ν (auxiliaryRule (V := V) n k i).head = ⟨name, newTableName n k i, values⟩
      ∧ BodyHolds reg name (copied reg name used M) Q ν (auxiliaryRule n k i).body := by
  obtain ⟨hfresh, hcolon⟩ := notGenerated_of_joinedTables hrules hused
  obtain ⟨args, hargs, -, hrule⟩ := auxiliaryRule_eq (V := V) k i hcolon
  obtain ⟨ν, hν⟩ := hargs values hlength
  have hvalues : (⟨⟨none, n, none⟩, args, false, []⟩ : Literal V).values ν = values := hν
  have hmeaning : (atomOf n values).meaning reg evaluationFollows name default
      = (⟨⟨none, n, none⟩, args, false, []⟩ : Literal V).meaning reg evaluationFollows name ν := by
    rw [← hvalues]
    exact @meaning_atomOf V _ _ reg name ⟨⟨none, n, none⟩, args, false, []⟩ ν rfl
  rw [hrule]
  refine ⟨ν, by rw [headRow, Literal.values, hν], fun l hl => ?_⟩
  obtain rfl := List.mem_singleton.1 hl
  refine ⟨(holds_copied rfl hfresh).2 ?_, fun b _ hb => hQ b (hmeaning.trans hb)⟩
  rw [Literal.Holds, hmeaning] at hholds
  rwa [Literal.Holds]

/-- It gives nothing else. -/
theorem auxiliary_mem_copied {ν : String → V} (hrules : ∀ r ∈ rules, r.Joinable)
    (hused : (n, k, i) ∈ joinedTables rules)
    (hbody : ∀ l ∈ (auxiliaryRule (V := V) n k i).body,
      l.Holds reg evaluationFollows (copied reg name (joinedTables rules) M) name ν) :
    headRow name ν (auxiliaryRule n k i).head ∈ copied reg name (joinedTables rules) M := by
  obtain ⟨hfresh, hcolon⟩ := notGenerated_of_joinedTables hrules hused
  obtain ⟨args, -, hlength, hrule⟩ := auxiliaryRule_eq (V := V) k i hcolon
  rw [hrule] at hbody ⊢
  have hholds := (holds_copied rfl hfresh).1 (hbody _ (List.mem_singleton_self _))
  refine ⟨rfl, .inr ⟨n, k, i, rfl, hused, by simp [headRow, Literal.values, hlength], ?_⟩⟩
  rw [Literal.Holds, ← meaning_atomOf rfl] at hholds
  rwa [Literal.Holds]

end Auxiliary

theorem stable_copied (hreg : ∀ t, Generated t → reg t = none) (hfacts : ∀ f ∈ facts, ¬ Generated f.1)
    (hrules : ∀ r ∈ rules, r.Joinable) (h : Stable (Statement.clauses reg name (policyOf facts rules)) M) :
    Stable (Statement.clauses reg name (policyOf facts (rules.flatMap eliminateSelfJoins)))
      (copied reg name (joinedTables rules) M) := by
  obtain ⟨hfactsM, hrulesM, hleast⟩ := (stable_policyOf fun r hr => (hrules r hr).oneHead).1 h
  refine (stable_policyOf (oneHead_eliminated hrules)).2 ⟨fun f hf => ⟨rfl, .inl ⟨hfacts f hf, hfactsM f hf⟩⟩,
    fun r' hr' ν hbody => ?_, fun Q hQfacts hQrules => ?_⟩
  · rcases mem_flatMap_eliminateSelfJoins.1 hr' with ⟨r, hr, rfl⟩ | ⟨x, hx, rfl⟩
    · refine ⟨rfl, .inl ⟨(hrules r hr).head, hrulesM r hr ν fun l hl => ?_⟩⟩
      obtain ⟨l', hl', hiff, -⟩ := exists_of_forall₂ (forall₂_holds hreg hr hrules).flip l hl
      exact hiff.1 (hbody l' hl')
    · exact auxiliary_mem_copied hrules hx hbody
  · have hcopy : ∀ {n k i values}, (n, k, i) ∈ joinedTables rules → values.length = k →
        (atomOf n values).Holds reg evaluationFollows M name default →
        (∀ b, (atomOf n values).meaning reg evaluationFollows name default = .row b → Q b) →
        Q ⟨name, newTableName n k i, values⟩ := fun hused hlength hholds hQ => by
      obtain ⟨ν, hhead, hbody⟩ := exists_auxiliary hrules hused hlength hholds hQ
      rw [← hhead]
      exact hQrules _ (mem_flatMap_eliminateSelfJoins.2 (.inr ⟨_, hused, rfl⟩)) ν hbody
    have hM : ∀ a ∈ M, Q a := by
      refine hleast Q hQfacts fun r hr ν hbody => ?_
      refine hQrules _ (mem_flatMap_eliminateSelfJoins.2 (.inl ⟨r, hr, rfl⟩)) ν fun l' hl' => ?_
      obtain ⟨l, hl, hiff, hneg, hcases⟩ := exists_of_forall₂ (forall₂_holds hreg hr hrules) l' hl'
      obtain ⟨hholds, hrow⟩ := hbody l hl
      refine ⟨hiff.2 hholds, fun b hpos hb => ?_⟩
      rcases hcases with rfl | ⟨i, hused, hmeaning⟩
      · exact hrow b hpos hb
      · rw [hmeaning] at hb
        obtain rfl := Meaning.row.inj hb
        have hservice := (hrules r hr).service l hl
        refine hcopy hused (by simp [Literal.values]) ?_ fun b hb => ?_
        · rw [Literal.Holds, meaning_atomOf hservice]
          rwa [Literal.Holds, ← hneg, hpos] at hholds
        · exact hrow b (hneg ▸ hpos) (meaning_atomOf hservice ▸ hb)
    rintro a ⟨hpolicy, ⟨-, ha⟩ | ⟨n, k, i, htable, hused, hlength, hholds⟩⟩
    · exact hM a ha
    · obtain ⟨policy, table, values⟩ := a
      obtain rfl : policy = name := hpolicy
      obtain rfl : table = newTableName n k i := htable
      refine hcopy hused hlength hholds fun b hb => hM b ?_
      rwa [Literal.Holds, hb] at hholds

/-! ## Stratifications -/

/-- Tables in layers: a rule asks for tables in the layer of its head or below, and negates only lower ones. -/
structure Layered (reg : BuiltinRegistry V) (rules : List (Rule V)) (layer : String → ℕ) : Prop where
  body : ∀ r ∈ rules, ∀ l ∈ r.body, l.IsRow reg → layer l.table.table ≤ layer r.head.table.table
  negated : ∀ r ∈ rules, ∀ l ∈ r.body, l.IsRow reg → l.negated = true →
    layer l.table.table < layer r.head.table.table

theorem isRow_of_meaning {b : Row V} (hl : l.table.service = none)
    (h : l.meaning reg evaluationFollows name ν = .row b) : l.IsRow reg := by
  have hname : l.tablename none = l.table.table := by
    rw [Literal.tablename, Tablename.name, hl]
    rfl
  rw [Literal.meaning, hname] at h
  split_ifs at h with htrue hfalse hbuiltin
  exact ⟨htrue, hfalse, by simpa using hbuiltin⟩

theorem isRow_congr (htable : l.table.table = l'.table.table) (hlength : l.arguments.length = l'.arguments.length) :
    l.IsRow reg ↔ l'.IsRow reg := by
  have hbuiltin : l.isBuiltin reg true = l'.isBuiltin reg true := by
    simp [Literal.isBuiltin, BuiltinRegistry.isBuiltin, htable, hlength]
  constructor <;> intro h
  · exact ⟨htable ▸ h.notTrue, htable ▸ h.notFalse, hbuiltin ▸ h.notBuiltin⟩
  · exact ⟨htable ▸ h.notTrue, htable ▸ h.notFalse, hbuiltin ▸ h.notBuiltin⟩

theorem Layered.stratifies {layer : String → ℕ} (h : Layered reg rules layer)
    (hone : ∀ r ∈ rules, r.moreHeads = []) (hservice : ∀ r ∈ rules, ∀ l ∈ r.body, l.table.service = none) :
    Stratifies (fun a => layer a.table) (Statement.clauses reg name (policyOf facts rules)) := by
  constructor <;> intro c hc b hb
  all_goals rcases cases_of_mem_clauses hone hc with ⟨f, -, rfl⟩ | ⟨r, hr, ν, rfl, -⟩
  · simp at hb
  · obtain ⟨l, hl, -, hm⟩ := hb
    rw [meaning_eq_row (hservice r hr l hl) hm]
    exact h.body r hr l hl (isRow_of_meaning (hservice r hr l hl) hm)
  · simp at hb
  · obtain ⟨l, hl, hneg, hm⟩ := hb
    rw [meaning_eq_row (hservice r hr l hl) hm]
    exact h.negated r hr l hl (isRow_of_meaning (hservice r hr l hl) hm) hneg

/-- Atoms with this table and so many arguments are about rows. -/
def RowTable (reg : BuiltinRegistry V) (n : String) (k : ℕ) : Prop :=
  ∃ l : Literal V, l.table.table = n ∧ l.arguments.length = k ∧ l.IsRow reg

/-- A copy of a table of rows is in the layer of the table, and one of anything else below all tables. -/
theorem exists_layers (reg : BuiltinRegistry V) (layer : String → ℕ) : ∃ layer' : String → ℕ,
    (∀ t, ¬ Generated t → layer' t = layer t + 1)
      ∧ ∀ n k i, (RowTable reg n k → layer' (newTableName n k i) = layer n + 1)
        ∧ (¬ RowTable reg n k → layer' (newTableName n k i) = 0) := by
  have hexists : ∀ t, ∃ s, (¬ Generated t → s = layer t + 1) ∧ ∀ n k i, t = newTableName n k i →
      (RowTable reg n k → s = layer n + 1) ∧ (¬ RowTable reg n k → s = 0) := by
    intro t
    by_cases ht : Generated t
    · obtain ⟨n, k, i, rfl⟩ := ht
      by_cases hrow : RowTable reg n k
      · refine ⟨layer n + 1, fun h => absurd ⟨n, k, i, rfl⟩ h, fun n' k' i' h => ?_⟩
        obtain ⟨rfl, rfl, rfl⟩ := newTableName_inj h
        exact ⟨fun _ => rfl, fun h => absurd hrow h⟩
      · refine ⟨0, fun h => absurd ⟨n, k, i, rfl⟩ h, fun n' k' i' h => ?_⟩
        obtain ⟨rfl, rfl, rfl⟩ := newTableName_inj h
        exact ⟨fun h => absurd h hrow, fun _ => rfl⟩
    · exact ⟨layer t + 1, fun _ => rfl, fun n k i h => absurd ⟨n, k, i, h⟩ ht⟩
  choose layer' hlayer using hexists
  exact ⟨layer', fun t => (hlayer t).1, fun n k i => (hlayer _).2 n k i rfl⟩

theorem Layered.eliminated {layer : String → ℕ} (h : Layered reg rules layer) (hrules : ∀ r ∈ rules, r.Joinable) :
    ∃ layer', Layered reg (rules.flatMap eliminateSelfJoins) layer' := by
  obtain ⟨layer', hfresh, hcopy⟩ := exists_layers reg layer
  have hmain : ∀ r ∈ rules, ∀ l' ∈ renameSelfJoins [] r.body, l'.IsRow reg →
      ∃ l ∈ r.body, l'.negated = l.negated ∧ (l.IsRow reg → layer' l'.table.table = layer l.table.table + 1)
        ∧ (¬ l.IsRow reg → layer' l'.table.table = 0) := by
    intro r hr l' hl' hrow
    have hrenamed := forall₂_renameSelfJoins r.body []
    rw [List.map_nil, List.nil_append] at hrenamed
    obtain ⟨l, hl, rfl | ⟨i, -, -, rfl⟩⟩ := exists_of_forall₂ hrenamed l' hl'
    · exact ⟨l', hl, rfl, fun _ => hfresh _ ((hrules r hr).fresh l' hl), fun h => absurd hrow h⟩
    · have hname : l.tablename none = l.table.table := by
        rw [Literal.tablename, Tablename.name, (hrules r hr).service l hl]
        rfl
      rw [hname]
      obtain ⟨hrows, hothers⟩ := hcopy l.table.table l.arguments.length i
      refine ⟨l, hl, rfl, fun h => hrows ⟨l, rfl, rfl, h⟩, fun h => hothers ?_⟩
      rintro ⟨l₀, htable, hlength, h₀⟩
      exact h ((isRow_congr htable hlength).1 h₀)
  have hauxiliary : ∀ x ∈ joinedTables rules, ∀ l ∈ (auxiliaryRule (V := V) x.1 x.2.1 x.2.2).body, l.IsRow reg →
      l.negated = false
        ∧ layer' l.table.table = layer' (auxiliaryRule (V := V) x.1 x.2.1 x.2.2).head.table.table := by
    rintro ⟨n, k, i⟩ hx l hl hrow
    obtain ⟨hgen, hcolon⟩ := notGenerated_of_joinedTables hrules hx
    obtain ⟨args, -, hlength, hrule⟩ := auxiliaryRule_eq (V := V) k i hcolon
    rw [hrule] at hl ⊢
    obtain rfl := List.mem_singleton.1 hl
    exact ⟨rfl, (hfresh n hgen).trans ((hcopy n k i).1 ⟨_, rfl, hlength, hrow⟩).symm⟩
  refine ⟨layer', fun r' hr' l' hl' hrow => ?_, fun r' hr' l' hl' hrow hneg => ?_⟩
  all_goals rcases mem_flatMap_eliminateSelfJoins.1 hr' with ⟨r, hr, rfl⟩ | ⟨x, hx, rfl⟩
  · obtain ⟨l, hl, -, hrows, hothers⟩ := hmain r hr l' hl' hrow
    rw [hfresh _ (hrules r hr).head]
    by_cases h₀ : l.IsRow reg
    · rw [hrows h₀]
      exact Nat.succ_le_succ (h.body r hr l hl h₀)
    · rw [hothers h₀]
      exact Nat.zero_le _
  · exact (hauxiliary x hx l' hl' hrow).2.le
  · obtain ⟨l, hl, hnegated, hrows, hothers⟩ := hmain r hr l' hl' hrow
    rw [hfresh _ (hrules r hr).head]
    by_cases h₀ : l.IsRow reg
    · rw [hrows h₀]
      exact Nat.succ_lt_succ (h.negated r hr l hl h₀ (hnegated ▸ hneg))
    · rw [hothers h₀]
      exact Nat.succ_pos _
  · rw [(hauxiliary x hx l' hl' hrow).1] at hneg
    cases hneg

/-- No table is twice in a body without self-joins. -/
theorem nodup_renameSelfJoins : ∀ (ls seen : List (Literal V)),
    (∀ l ∈ ls, l.table.service = none ∧ ¬ Generated l.table.table) →
      ((renameSelfJoins (seen.map Literal.tableArity) ls).map Literal.tableArity).Nodup
        ∧ ∀ x ∈ (renameSelfJoins (seen.map Literal.tableArity) ls).map Literal.tableArity,
          (¬ Generated x.1 ∧ x ∉ seen.map Literal.tableArity)
            ∨ ∃ n i, x.1 = newTableName n x.2 i ∧ (seen.map Literal.tableArity).count (n, x.2) ≤ i
  | [], _, _ => by simp [renameSelfJoins]
  | l :: ls, seen, h => by
    obtain ⟨⟨hservice, hfresh⟩, hls⟩ := List.forall_mem_cons.1 h
    obtain ⟨hnodup, htail⟩ := nodup_renameSelfJoins ls (seen ++ [l]) hls
    rw [List.map_append, List.map_singleton, tableArity_eq hservice] at hnodup htail
    have hname : l.tablename none = l.table.table := by
      rw [Literal.tablename, Tablename.name, hservice]
      rfl
    rw [renameSelfJoins, tableArity_eq hservice, hname, List.map_cons, List.nodup_cons, List.forall_mem_cons]
    have hlater : ∀ x ∈ (renameSelfJoins (seen.map Literal.tableArity ++ [(l.table.table, l.arguments.length)])
        ls).map Literal.tableArity, (¬ Generated x.1 ∧ x ∉ seen.map Literal.tableArity)
          ∨ ∃ n i, x.1 = newTableName n x.2 i ∧ (seen.map Literal.tableArity).count (n, x.2) ≤ i := by
      intro x hx
      rcases htail x hx with ⟨hgen, hnot⟩ | ⟨n, i, hx, hcount⟩
      · exact .inl ⟨hgen, fun hmem => hnot (List.mem_append_left _ hmem)⟩
      · rw [List.count_append] at hcount
        exact .inr ⟨n, i, hx, (Nat.le_add_right _ _).trans hcount⟩
    split_ifs with hn
    · rw [tableArity_eq hservice]
      refine ⟨⟨fun hmem => ?_, hnodup⟩, .inl ⟨hfresh, fun hmem => ?_⟩, hlater⟩
      · rcases htail _ hmem with ⟨-, hnot⟩ | ⟨n, i, hx, -⟩
        · simp at hnot
        · exact hfresh ⟨n, _, i, hx⟩
      · exact absurd hn (List.count_pos_iff.2 hmem).ne'
    · rw [tableArity_eq (l := { l with table.table := newTableName l.table.table l.arguments.length _ }) hservice]
      refine ⟨⟨fun hmem => ?_, hnodup⟩, .inr ⟨_, _, rfl, le_rfl⟩, hlater⟩
      rcases htail _ hmem with ⟨hgen, -⟩ | ⟨n, i, hx, hcount⟩
      · exact hgen ⟨_, _, _, rfl⟩
      · obtain ⟨rfl, -, rfl⟩ := newTableName_inj hx
        rw [List.count_append, List.count_singleton_self] at hcount
        exact Nat.not_succ_le_self _ hcount

theorem nodup_eliminated (hrules : ∀ r ∈ rules, r.Joinable) :
    ∀ r ∈ rules.flatMap eliminateSelfJoins, (r.body.map Literal.tableArity).Nodup := by
  intro r' hr'
  rcases mem_flatMap_eliminateSelfJoins.1 hr' with ⟨r, hr, rfl⟩ | ⟨x, -, rfl⟩
  · exact (nodup_renameSelfJoins r.body [] fun l hl => ⟨(hrules r hr).service l hl, (hrules r hr).fresh l hl⟩).1
  · simp [auxiliaryRule]

theorem service_eliminated (hrules : ∀ r ∈ rules, r.Joinable) :
    ∀ r ∈ rules.flatMap eliminateSelfJoins, ∀ l ∈ r.body, l.table.service = none := by
  intro r' hr' l' hl'
  rcases mem_flatMap_eliminateSelfJoins.1 hr' with ⟨r, hr, rfl⟩ | ⟨⟨n, k, i⟩, hx, rfl⟩
  · have hrenamed := forall₂_renameSelfJoins r.body []
    rw [List.map_nil, List.nil_append] at hrenamed
    obtain ⟨l, hl, rfl | ⟨i, -, -, rfl⟩⟩ := exists_of_forall₂ hrenamed l' hl'
    · exact (hrules r hr).service l' hl
    · exact (hrules r hr).service l hl
  · obtain ⟨-, hcolon⟩ := notGenerated_of_joinedTables hrules hx
    obtain ⟨args, -, -, hrule⟩ := auxiliaryRule_eq (V := V) k i hcolon
    rw [hrule] at hl'
    obtain rfl := List.mem_singleton.1 hl'
    rfl

/-- The tables that were there before have the same rows. -/
theorem mem_eliminated_iff {σ σ' : Row V → ℕ} (hreg : ∀ t, Generated t → reg t = none)
    (hfacts : ∀ f ∈ facts, ¬ Generated f.1) (hrules : ∀ r ∈ rules, r.Joinable)
    (hσ : Stratifies σ (Statement.clauses reg name (policyOf facts rules)))
    (hσ' : Stratifies σ' (Statement.clauses reg name (policyOf facts (rules.flatMap eliminateSelfJoins))))
    {a : Row V} (hpolicy : a.policy = name) (ha : ¬ Generated a.table) :
    a ∈ stratifiedModel (Statement.clauses reg name (policyOf facts (rules.flatMap eliminateSelfJoins))) σ'
      ↔ a ∈ stratifiedModel (Statement.clauses reg name (policyOf facts rules)) σ := by
  have hcopied := stable_copied hreg hfacts hrules (stable_stratifiedModel hσ)
  rw [(stable_stratifiedModel hσ').eq hcopied hσ']
  refine ⟨fun h => ?_, fun h => ⟨hpolicy, .inl ⟨ha, h⟩⟩⟩
  rcases h.2 with h | ⟨n, k, i, htable, -⟩
  · exact h.2
  · exact absurd ⟨n, k, i, htable⟩ ha

/-- `p(x, y) :- q(x, y), q(y, x)`. -/
def exampleJoin : Rule ℕ :=
  ⟨⟨⟨none, "p", none⟩, [.variable "x", .variable "y"], false, []⟩, [],
    [⟨⟨none, "q", none⟩, [.variable "x", .variable "y"], false, []⟩,
      ⟨⟨none, "q", none⟩, [.variable "y", .variable "x"], false, []⟩]⟩

theorem Generated.take (h : Generated table) : table.toList.take 3 = "___".toList := by
  obtain ⟨n, k, i, rfl⟩ := h
  simp [newTableName_toList]

theorem exampleJoin_body {l : Literal ℕ} (h : l ∈ exampleJoin.body) :
    l.table = ⟨none, "q", none⟩ ∧ l.negated = false := by
  simp only [exampleJoin, List.mem_cons, List.not_mem_nil, or_false] at h
  rcases h with rfl | rfl <;> exact ⟨rfl, rfl⟩

theorem exampleJoin_joinable : exampleJoin.Joinable where
  oneHead := rfl
  head h := absurd h.take (by decide)
  service l hl := by rw [(exampleJoin_body hl).1]
  fresh l hl h := by
    rw [(exampleJoin_body hl).1] at h
    exact absurd h.take (by decide)
  noColon l hl := by
    rw [(exampleJoin_body hl).1]
    decide

end Congress
