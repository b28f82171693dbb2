import Congress.Proofs.Arity

/-!
# Schemas count every use

A table is in a schema that is not given as long as a fact or a literal of a rule of some policy uses
it, as often as its count says (`CountsUses`). Updates and initializations of tables keep it so
(`countsUses_along`), if they take nothing out, or back, that was not counted: those that do not, and
why, are told by `Tallied` and `Refills`.
-/

namespace Congress

open Lib Stateful

set_option linter.unusedSectionVars false

variable {V A : Type} [DecidableEq V] {reg : BuiltinRegistry V} {pf : Platform V} {name key table : String}
  {info : A} {insert : Bool}

/-! ## Uses -/

/-- A literal of a rule of a policy uses a table, if it is no builtin. -/
def Literal.usesTable (reg : BuiltinRegistry V) (k : String × String) (name : String) (l : Literal V) :
    Bool :=
  !l.isBuiltin reg true && (l.table.service.getD name, l.table.table) = k

/-- Whether a rule is put in as a fact. -/
def Rule.isFact (r : Rule V) : Bool := r.body.isEmpty && !r.head.negated

/-- How often a rule of a policy uses a table: a fact uses its table, whatever that is called, and so does
each literal that is no builtin. -/
def Rule.usesOf (reg : BuiltinRegistry V) (k : String × String) (name key : String) (r : Rule V) : ℕ :=
  if r.isFact then if (name, key) = k then 1 else 0
  else (r.heads ++ r.body).countP (·.usesTable reg k name)

namespace PolicyMap

/-- How often the facts and rules of all policies use a table of one of them. -/
def uses (reg : BuiltinRegistry V) (ps : PolicyMap V A) (k : String × String) : ℕ :=
  ps.weight (Rule.usesOf reg k)

/-- A table is in a schema if it is used, and as often as its count says. -/
def CountsUses (reg : BuiltinRegistry V) (ps : PolicyMap V A) : Prop :=
  ∀ name p schema, ps.lookup name = some p → p.schema = some schema → ∀ table,
    (table ∈ schema.columns ↔ 0 < ps.uses reg (name, table))
      ∧ ((schema.count.bind (·.lookup table)).getD 0) = ps.uses reg (name, table)

/-- Policies as they are created, each with a rule set. -/
def New (ps : PolicyMap V A) : Prop :=
  ∀ name p, ps.lookup name = some p → ∃ kind, p = ⟨.rules kind .empty, some .init⟩

/-! ## Calls -/

/-- `initialize_tables` of the policy of that name. -/
def initializeTables (name : String) (tablenames : List String) (facts : List (String × List V)) :
    Run V A Unit := do
  match (← get).lookup name with
  | some ⟨.rules kind store, schema⟩ =>
    let (store, schema) :=
      Runtime.initializeFacts (tablenames.foldl .clearTable store) schema tablenames facts
    modify fun ps => ps.insert name ⟨.rules kind store, schema⟩
  | _ => fail .notImplemented

/-- A call on a policy of that name. -/
inductive Call (V A : Type)
  | update (name : String) (events : List (AnnotatedEvent V A))
  | initializeTables (name : String) (tablenames : List String) (facts : List (String × List V))

/-- What a call leaves behind, also if it raises. -/
def step (pf : Platform V) (ps : PolicyMap V A) : Call V A → PolicyMap V A
  | .update name events => ((PolicyMap.update pf name events).run ps).2
  | .initializeTables name tablenames facts => ((initializeTables name tablenames facts).run ps).2

/-- The heads of a rule use the table that it is stored under, once, and no other table of a policy. -/
def HeadsUse (reg : BuiltinRegistry V) (ps : PolicyMap V A) (name key : String) (r : Rule V) : Prop :=
  ∀ k, ps.knows k.1 = true →
    r.heads.countP (·.usesTable reg k name) = if (name, key) = k then 1 else 0

/-- An event whose uses are counted, or taken back, right. It is one of a rule that can be reordered, or
nothing was counted before that fails. The heads of a rule that is stored use the table that it is stored
under, once, and no other. What is not a change is taken back at the policy that the head names, if
anything is: that has to be the own one. An event that deletes nothing is taken back from the front: it
may not take out the last use of a table by another than its first literal of it. -/
structure Tallied (pf : Platform V) (ps : PolicyMap V A) (name : String) (e : AnnotatedEvent V A)
    (store : RuleStore V A) : Prop where
  safe : e.formula.reorderForSafety pf.registry = none → e.insert = false
    ∧ ∀ use ∈ e.formula.uses pf.registry ps.knows name, ps.uses pf.registry use.1 = 0
  stored : e.insert = true → store.finds pf e.formula.asRule true = false →
    e.formula.asRule.isFact = true
      ∨ ps.HeadsUse pf.registry name e.formula.asRule.head.table.table e.formula.asRule
  again : e.insert = true → store.finds pf e.formula.asRule true = true →
    e.formula.asRule.head.table.service.getD name = name
  absent : e.insert = false → store.finds pf e.formula.asRule false = false →
    (e.formula.asRule.head.table.service.getD name = name
      ∨ ps.uses pf.registry (name, e.formula.asRule.head.table.table) = 0)
    ∧ ∀ k, ps.uses pf.registry k ≤ 1
      ∨ useCount pf.registry ps.knows k name e.formula.asRule.head.table.table e.formula.asRule
        < ps.uses pf.registry k

/-- The events are all tallied, each in the policies that those before it leave. -/
def AllTallied (pf : Platform V) (name : String) : List (AnnotatedEvent V A) → PolicyMap V A → Prop
  | [], _ => True
  | e :: events, ps =>
    (∀ kind store, ps.data name = some (.rules kind store) → ps.Tallied pf name e store)
      ∧ ∀ changes ps', (updateRules pf name [e]).run ps = (.ok changes, ps') →
        AllTallied pf name events ps'

/-- Tables that can be initialized with their uses counted right: they hold nothing, no fact comes twice,
and the schema is not empty before the first fact. -/
structure Refills (reg : BuiltinRegistry V) (ps : PolicyMap V A) (name : String) (store : RuleStore V A)
    (tablenames : List String) (facts : List (String × List V)) : Prop where
  cleared : ∀ table ∈ tablenames, store.factsOf table = [] ∧ store.rulesOf table = []
  nodup : (facts.filter (·.1 ∈ tablenames)).Nodup
  counting : facts.filter (·.1 ∈ tablenames) = [] ∨ ∃ table, 0 < ps.uses reg (name, table)

/-- A call whose uses are all counted, or taken back, right. -/
def Exact (pf : Platform V) (ps : PolicyMap V A) : Call V A → Prop
  | .update name events => AllTallied pf name events ps
  | .initializeTables name tablenames facts => ∀ kind store, ps.data name = some (.rules kind store) →
    Refills pf.registry ps name store tablenames facts

end PolicyMap

/-! ## Uses and counts -/

variable {known : String → Bool} {k : String × String} {r r' : Rule V}

theorem length_bodyUses (hk : known k.1 = true) : ∀ ls : List (Literal V),
    (Usage.values k (bodyUses reg known name ls)).length = ls.countP (·.usesTable reg k name)
  | [] => rfl
  | l :: ls => by
    have ih := length_bodyUses hk ls
    unfold bodyUses at ih ⊢
    rw [List.filterMap_cons, List.countP_cons, Literal.usesTable]
    cases hbuiltin : l.isBuiltin reg true with
    | true => simpa using ih
    | false =>
      by_cases hl : (l.table.service.getD name, l.table.table) = k
      · subst hl
        simp only [hk, Bool.not_true, Bool.or_false, Bool.false_eq_true, if_false, Bool.not_false,
          Bool.true_and, decide_true, if_true]
        rw [← ih]
        simp [Usage.values]
      · simp only [Bool.false_or, hl, decide_false, Bool.and_false, Bool.false_eq_true, if_false,
          Nat.add_zero]
        rw [← ih]
        split_ifs
        · rfl
        · simp [Usage.values, hl]

theorem useCount_factRule {fact : List V} :
    useCount reg known k name key (factRule key fact) = if (name, key) = k then 1 else 0 := by
  unfold useCount Usage.values factRule bodyUses
  by_cases hk : (name, key) = k <;> simp [hk]

theorem usesOf_factRule {fact : List V} :
    (factRule key fact).usesOf reg k name key = if (name, key) = k then 1 else 0 := rfl

theorem useCount_eq_usesOf (hk : known k.1 = true) (hfact : r.isFact = false)
    (hheads : r.heads.countP (·.usesTable reg k name) = if (name, key) = k then 1 else 0) :
    useCount reg known k name key r = r.usesOf reg k name key := by
  unfold Rule.usesOf useCount
  rw [hfact, if_neg Bool.false_ne_true, List.countP_append, hheads, ← length_bodyUses hk]
  by_cases hhead : (name, key) = k
  · simp [Usage.values, hhead, Nat.add_comm]
  · simp [Usage.values, hhead]

/-! ## Stores -/

namespace RuleStore

variable {s : RuleStore V A}

/-- An insertion is a change if the rule is not found, a deletion if it is. -/
theorem put_eq_finds (pf : Platform V) (s : RuleStore V A) (r : Rule V) (info : A) (insert : Bool) :
    (s.put pf r info insert).2 = (insert != s.finds pf r insert) := by
  unfold put finds
  cases insert with
  | true =>
    simp only [if_true, Bool.true_and]
    cases hr : r.body.isEmpty && !r.head.negated with
    | true =>
      obtain ⟨hnil, hneg⟩ := Bool.and_eq_true_iff.1 hr
      rw [addRule_fact (List.isEmpty_iff.1 hnil) (by simpa using hneg), Bool.eq_iff_iff,
        (addFact_spec ..).2.2]
      simp
    | false =>
      rw [addRule, hr, if_neg Bool.false_ne_true, if_neg Bool.false_ne_true]
      split_ifs with hany
      · rw [hany]
        rfl
      · rw [Bool.not_eq_true] at hany
        rw [hany]
        rfl
  | false =>
    simp only [Bool.false_eq_true, if_false, Bool.false_and, Bool.not_false, Bool.and_true]
    rw [Bool.eq_iff_iff]
    by_cases hr : r.body = []
    · rw [(discardRule_fact pf s _ hr).2.2]
      simp [hr]
    · rw [(discardRule_rule pf s _ hr).2.2]
      simp [hr]

theorem finds_congr (hhead : r'.head = r.head) (hmore : r'.moreHeads = r.moreHeads)
    (hbody : r'.body.Perm r.body) : s.finds pf r' insert = s.finds pf r insert := by
  have hsame : (fun p : Rule V × A => p.1.same r') = fun p => p.1.same r := by
    funext p
    rw [Bool.eq_iff_iff, Rule.same_iff, Rule.same_iff, Rule.heads, Rule.heads, hhead, hmore]
    exact and_congr_right fun _ => ⟨fun h => h.trans hbody, fun h => h.trans hbody.symm⟩
  rw [finds, finds, hhead, hbody.isEmpty_eq, hsame]

/-- A rule that is stored after an event was stored before, or is that of the event. -/
theorem rulesOf_put {p : Rule V × A} (h : p ∈ (s.put pf r info insert).1.rulesOf key) :
    p ∈ s.rulesOf key ∨ insert = true ∧ s.finds pf r true = false ∧ r.isFact = false
      ∧ r.head.table.table = key ∧ p.1 = r := by
  unfold put at h
  cases insert with
  | true =>
    rw [if_pos rfl] at h
    cases hr : r.isFact with
    | true =>
      obtain ⟨hnil, hneg⟩ := Bool.and_eq_true_iff.1 hr
      rw [addRule_fact (List.isEmpty_iff.1 hnil) (by simpa using hneg), (addFact_spec ..).1] at h
      exact .inl h
    | false =>
      rw [Rule.isFact] at hr
      rw [addRule, hr, if_neg Bool.false_ne_true] at h
      split_ifs at h with hany
      · exact .inl h
      · rw [rulesOf_setRules] at h
        split_ifs at h with hkey
        · rcases List.mem_append.1 h with h | h
          · exact .inl (hkey ▸ h)
          · refine .inr ⟨rfl, ?_, rfl, hkey.symm, by rw [List.mem_singleton.1 h]⟩
            rw [finds, Bool.true_and, hr, if_neg Bool.false_ne_true]
            exact Bool.eq_false_iff.2 hany
        · exact .inl h
  | false =>
    rw [if_neg Bool.false_ne_true] at h
    by_cases hr : r.body = []
    · rw [(discardRule_fact pf s _ hr).1] at h
      exact .inl h
    · rw [(discardRule_rule pf s _ hr).2.1] at h
      split_ifs at h with hkey
      · exact .inl (hkey ▸ List.mem_of_mem_eraseP h)
      · exact .inl h

end RuleStore

namespace PolicyMap

variable {ps ps' : PolicyMap V A} {S : String × String → Usage ℕ} {e : AnnotatedEvent V A}
  {events : List (AnnotatedEvent V A)}

/-- The heads of the rules that are stored use the tables that these are stored under. -/
def OwnHeads (reg : BuiltinRegistry V) (ps : PolicyMap V A) : Prop :=
  ∀ name kind store, ps.data name = some (.rules kind store) → ∀ key, ∀ r ∈ store.rulesOf key,
    r.1.isFact = false ∧ ps.HeadsUse reg name key r.1

theorem OwnHeads.weight_useCount (h : ps.OwnHeads reg) (hk : ps.knows k.1 = true) :
    ps.weight (useCount reg ps.knows k) = ps.uses reg k := by
  refine weight_ext fun name d hd => ?_
  cases d with
  | rules kind store =>
    refine RuleStore.weight_ext (fun key fact _ => ?_) fun key r hr => ?_
    · rw [useCount_factRule, usesOf_factRule]
    · obtain ⟨hfact, hheads⟩ := h name kind store hd key r hr
      exact useCount_eq_usesOf hk hfact (hheads k hk)
  | database => rfl
  | materialized => rfl

/-- The schemas count the uses of what is stored, and what is stored uses its own policy first. -/
structure Kept (reg : BuiltinRegistry V) (ps : PolicyMap V A) : Prop where
  counted : ∃ S, ps.Counted reg S
  own : ps.OwnHeads reg
  rules : ps.AllRules

theorem Kept.countsUses (h : ps.Kept reg) : ps.CountsUses reg := by
  intro name p schema hlook hp table
  obtain ⟨S, hS⟩ := h.counted
  have hk : ps.knows name = true := by simp [knows, data, hlook]
  rw [← h.own.weight_useCount (k := (name, table)) hk, ← hS.exact]
  obtain ⟨-, count, hcount, htables⟩ := hS.counts.known name p schema hlook hp
  obtain ⟨hn, hcols⟩ := htables table
  dsimp only at hn hcols
  rw [hcount, Option.bind_some, hn, ← AList.lookup_isSome]
  rw [← Option.isSome_map (f := List.length), hcols]
  cases hu : S (name, table) with
  | none => simp [Usage.count]
  | some u =>
    obtain ⟨n, m⟩ := u
    have hpos := hS.proper (name, table) n m hu
    simp [Usage.count, hpos]

/-- The count of a table of a policy is the number of its uses. -/
theorem Counted.count_eq (h : ps.Counted reg S) (hown : ps.OwnHeads reg) (hk : ps.knows k.1 = true) :
    (S k).count = ps.uses reg k := by
  rw [h.exact, hown.weight_useCount hk]

theorem New.kept (h : ps.New) : ps.Kept reg := by
  have hempty : ∀ {name d}, ps.data name = some d → ∃ kind, d = .rules kind .empty := by
    intro name d hd
    obtain ⟨p, hp, rfl⟩ := Option.map_eq_some_iff.1 hd
    obtain ⟨kind, rfl⟩ := h name p hp
    exact ⟨kind, rfl⟩
  refine ⟨⟨fun _ => none, ⟨fun name p s hp hs => ?_, fun name kind store hp => ?_⟩, fun k n b hk => ?_,
    fun k => ?_⟩, fun name kind store hd key r hr => ?_, fun name d hd => ?_⟩
  · obtain ⟨kind, rfl⟩ := h name p hp
    cases hs
    exact ⟨rfl, ∅, rfl, fun _ => ⟨rfl, rfl⟩⟩
  · obtain ⟨kind', hkind⟩ := h name _ hp
    cases hkind
  · cases hk
  · refine (Finset.sum_eq_zero fun name _ => ?_).symm
    cases hd : ps.data name with
    | none => rfl
    | some d =>
      obtain ⟨kind, rfl⟩ := hempty hd
      rfl
  · obtain ⟨kind', hkind⟩ := hempty hd
    cases hkind
    cases hr
  · obtain ⟨kind, rfl⟩ := hempty hd
    exact ⟨kind, .empty, rfl⟩

/-! ## Events -/

/-- A step of an update goes on with the other events. -/
theorem RuleStep.run_cons {changed : Bool} (h : RuleStep pf name e ps changed ps')
    (events : List (AnnotatedEvent V A)) : ∃ f : List (AnnotatedEvent V A) → List (AnnotatedEvent V A),
    (updateRules pf name (e :: events)).run ps
      = (do let changes ← updateRules pf name events; pure (f changes)).run ps' := by
  cases h with
  | @changed ps₁ changes formula kind store schema hschema hformula hlook hput =>
    refine ⟨(e :: ·), ?_⟩
    rw [updateRules, run_bind, hschema]
    simp only [hformula, run_get_bind, hlook, hput, run_modify_bind, if_true]
  | @noop ps₁ _ changes formula kind store schema hschema hformula hlook hput hrevert =>
    refine ⟨id, ?_⟩
    rw [updateRules, run_bind, hschema]
    simp only [hformula, run_get_bind, hlook, hput, run_modify_bind, Bool.false_eq_true, if_false]
    rw [run_bind, hrevert]
    dsimp only
    rw [run_bind]
    rcases (updateRules pf name events).run ps' with ⟨_ | _, _⟩ <;> rfl

theorem known_of_uses {formula : Formula V} {n : ℕ} (hname : known name = true)
    (h : (k, n) ∈ formula.uses reg known name) : known k.1 = true := by
  rw [uses_asRule] at h
  rcases List.mem_cons.1 h with heq | hbody
  · obtain ⟨rfl, -⟩ := Prod.mk.inj heq
    exact hname
  · obtain ⟨l, -, -, hl, rfl, -⟩ := mem_bodyUses.1 hbody
    exact hl

theorem AllRules.put {kind : RuleKind} {store : RuleStore V A} (h : ps.AllRules)
    (hdata : ps'.data = Function.update ps.data name (some (.rules kind store))) : ps'.AllRules := by
  intro other d hother
  rw [hdata, Function.update_apply] at hother
  split_ifs at hother
  · exact ⟨kind, store, (Option.some.inj hother).symm⟩
  · exact h other d hother

/-- An event whose rule can be reordered is a step, if what it may take back can be. -/
theorem exists_ruleStep {kind : RuleKind} {store : RuleStore V A} {formula : Formula V}
    (h : ps.Counted pf.registry S) (hrules : ps.AllRules) (hd : ps.data name = some (.rules kind store))
    (hformula : e.formula.reorderForSafety pf.registry = some formula)
    (hback : (store.put pf formula.asRule e.info e.insert).2 = false →
      (e.formula.asRule.head.table.service.getD name = name
        ∨ e.insert = false ∧ S (name, e.formula.asRule.head.table.table) = none)
      ∧ (e.insert = false → ∀ k, (S k).count ≤ 1
        ∨ (Usage.values k (e.formula.uses pf.registry ps.knows name)).length < (S k).count)) :
    ∃ ps', RuleStep pf name e ps (store.put pf formula.asRule e.info e.insert).2 ps' := by
  have hname := knows_of_data hd
  obtain ⟨changes, ps₁, hschema⟩ : ∃ changes ps₁, (updateRuleSchema pf.registry name e.formula
      e.insert).run ps = (.ok changes, ps₁) := updateRuleSchema_ok e.formula e.insert h.counts hrules hname
  have hsame := updateRuleSchema_keeps.of_run hschema
  have hd₁ : ps₁.data name = some (.rules kind store) := by rw [hsame, hd]
  obtain ⟨⟨d, schema⟩, hlook, rfl⟩ := Option.map_eq_some_iff.1 hd₁
  cases hput : (store.put pf formula.asRule e.info e.insert).2 with
  | true => exact ⟨_, .changed hschema hformula hlook hput⟩
  | false =>
    obtain ⟨hwhere, hcount⟩ := hback hput
    obtain ⟨hcounts, hlogs⟩ := updateRuleSchema_counts h.counts hd hschema
    have hput₁ := hcounts.put_data kind (store.put pf formula.asRule e.info e.insert).1 hlook rfl
    have hdata : PolicyMap.data (ps₁.insert name
        ⟨.rules kind (store.put pf formula.asRule e.info e.insert).1, schema⟩)
        = Function.update ps.data name
          (some (.rules kind (store.put pf formula.asRule e.info e.insert).1)) := by
      funext other
      rw [data_insert, hsame, Function.update_apply]
    have hknows := knows_of_put hd hdata
    obtain ⟨ps', hrevert⟩ := revertSchema_ok hput₁ (hrules.put hdata) (hlogs hwhere) (fun entry hentry => by
        obtain ⟨n, hn⟩ := Usage.mem_changeEach _ hentry
        rw [hknows]
        exact known_of_uses hname hn) (Usage.revertEach_changeEach_isSome h.proper hcount)
    exact ⟨ps', .noop hschema hformula hlook hput hrevert⟩

/-- Rules that are stored with an event have such heads as those that were stored before. -/
theorem OwnHeads.put {kind : RuleKind} {store : RuleStore V A} {formula : Formula V}
    (h : ps.OwnHeads pf.registry) (hd : ps.data name = some (.rules kind store))
    (hdata : ps'.data = Function.update ps.data name
      (some (.rules kind (store.put pf formula.asRule e.info e.insert).1)))
    (hformula : e.formula.reorderForSafety pf.registry = some formula)
    (ht : ps.Tallied pf name e store) : ps'.OwnHeads pf.registry := by
  have hknows := knows_of_put hd hdata
  obtain ⟨hhead, hmore, hbody⟩ := reordered_uses hformula
  intro other kind' store' hother key r hr
  rw [HeadsUse, hknows]
  rw [hdata, Function.update_apply] at hother
  split_ifs at hother with ho
  · obtain ⟨rfl, rfl⟩ := PolicyData.rules.inj (Option.some.inj hother)
    rcases RuleStore.rulesOf_put hr with hr | ⟨hins, hfinds, hfact, rfl, hrule⟩
    · rw [ho]
      exact h name kind store hd key r hr
    · rw [RuleStore.finds_congr hhead hmore hbody] at hfinds
      have hsame : formula.asRule.isFact = e.formula.asRule.isFact := by
        rw [Rule.isFact, Rule.isFact, hhead, hbody.isEmpty_eq]
      have hheads : formula.asRule.heads = e.formula.asRule.heads := by
        rw [Rule.heads, Rule.heads, hhead, hmore]
      rw [hrule, ho]
      refine ⟨hfact, ?_⟩
      rw [hheads, hhead]
      rcases ht.stored hins hfinds with hyes | huse
      · rw [hsame, hyes] at hfact
        cases hfact
      · exact huse
  · exact h other kind' store' hother key r hr

/-- An event that is tallied keeps the counts, also if its update raises. -/
theorem Kept.event {kind : RuleKind} {store : RuleStore V A} (h : ps.Kept pf.registry)
    (hd : ps.data name = some (.rules kind store)) (ht : ps.Tallied pf name e store) :
    (∃ changed ps', RuleStep pf name e ps changed ps' ∧ ps'.Kept pf.registry)
      ∨ ∀ events, Kept pf.registry ((updateRules pf name (e :: events)).run ps).2 := by
  obtain ⟨⟨S, hS⟩, hown, hrules⟩ := h
  have hname := knows_of_data hd
  have hunused : ∀ {k}, ps.knows k.1 = true → ps.uses pf.registry k = 0 → S k = none := fun hk h0 =>
    (hS.proper _).eq_none ((hS.count_eq hown hk).trans h0)
  cases hformula : e.formula.reorderForSafety pf.registry with
  | none =>
    refine .inr fun events => ?_
    obtain ⟨hins, hnone⟩ := ht.safe hformula
    obtain ⟨changes, ps₁, hschema⟩ : ∃ changes ps₁, (updateRuleSchema pf.registry name e.formula
      e.insert).run ps = (.ok changes, ps₁) :=
      updateRuleSchema_ok e.formula e.insert hS.counts hrules hname
    have hsame := updateRuleSchema_keeps.of_run hschema
    have hrun : ((updateRules pf name (e :: events)).run ps).2 = ps₁ := by
      rw [updateRules, run_bind, hschema]
      simp only [hformula]
      rfl
    rw [hrun]
    obtain ⟨hcounts, -⟩ := updateRuleSchema_counts hS.counts hd hschema
    rw [hins, Usage.changeEach_absent _ fun use huse =>
      hunused (known_of_uses hname huse) (hnone use huse)] at hcounts
    refine ⟨⟨S, hcounts, hS.proper, fun k => ?_⟩, ?_, hrules.of_sameData hsame⟩
    · rw [knows_of_sameData hsame, weight_congr hsame, hS.exact]
    · intro other kind' store' hother key r hr
      rw [hsame] at hother
      rw [HeadsUse, knows_of_sameData hsame]
      exact hown other kind' store' hother key r hr
  | some formula =>
    left
    obtain ⟨hhead, hmore, hbody⟩ := reordered_uses hformula
    have hput := RuleStore.put_eq_finds pf store formula.asRule e.info e.insert
    rw [RuleStore.finds_congr hhead hmore hbody] at hput
    have hwhere : (store.put pf formula.asRule e.info e.insert).2 = false →
        e.formula.asRule.head.table.service.getD name = name
          ∨ e.insert = false ∧ S (name, e.formula.asRule.head.table.table) = none := by
      intro hno
      rw [hno] at hput
      cases hins : e.insert with
      | true =>
        rw [hins] at hput
        exact .inl (ht.again hins (by simpa using hput))
      | false =>
        rw [hins] at hput
        exact (ht.absent hins (by simpa using hput)).1.imp_right fun h0 => ⟨rfl, hunused hname h0⟩
    obtain ⟨ps', hstep⟩ := exists_ruleStep hS hrules hd hformula fun hno => ⟨hwhere hno, fun hins k => by
      rw [hno, hins] at hput
      by_cases hk : ps.knows k.1 = true
      · rw [hS.count_eq hown hk]
        have habs := (ht.absent hins (by simpa using hput)).2 k
        rwa [useCount, ← uses_asRule] at habs
      · have hnil : Usage.values k (e.formula.uses pf.registry ps.knows name) = [] := by
          refine List.eq_nil_iff_forall_not_mem.2 fun n hn => hk ?_
          exact known_of_uses hname (Usage.mem_values.1 hn)
        rw [hnil, List.length_nil]
        exact Nat.lt_or_ge 1 _ |>.symm.imp_right fun h1 => Nat.lt_of_succ_lt h1⟩
    obtain ⟨kind', store', formula', hd', hformula', hdata⟩ := hstep.data
    obtain ⟨rfl, rfl⟩ := PolicyData.rules.inj (Option.some.inj (hd.symm.trans hd'))
    obtain rfl := Option.some.inj (hformula.symm.trans hformula')
    exact ⟨_, ps', hstep, ⟨_, hstep.counted hS hd hwhere⟩, hown.put hd hdata hformula ht,
      hrules.put hdata⟩

/-- An update whose events are all tallied keeps the counts. -/
theorem Kept.updateRules : ∀ {events : List (AnnotatedEvent V A)} {ps : PolicyMap V A} {kind : RuleKind}
    {store : RuleStore V A}, ps.Kept pf.registry → ps.data name = some (.rules kind store) →
      AllTallied pf name events ps → Kept pf.registry ((updateRules pf name events).run ps).2
  | [], _, _, _, h, _, _ => h
  | e :: events, ps, kind, store, h, hd, ⟨ht, hrest⟩ => by
    rcases h.event hd (ht kind store hd) with ⟨changed, ps', hstep, h'⟩ | hraised
    · obtain ⟨kind', store', formula, -, -, hdata⟩ := hstep.data
      obtain ⟨f, hone⟩ := hstep.run_cons []
      obtain ⟨g, hcons⟩ := hstep.run_cons events
      have hkept := Kept.updateRules h' (by rw [hdata, Function.update_self]) (hrest _ ps' hone)
      rw [hcons, run_bind]
      rcases hrun : (PolicyMap.updateRules pf name events).run ps' with ⟨_ | _, ps''⟩
      · rwa [hrun] at hkept
      · rwa [hrun] at hkept
    · exact hraised events

/-! ## Initialization of tables -/

/-- A rule set that holds the same rules and facts, maybe of more tables, can take the place of another. -/
theorem Kept.put_same {kind : RuleKind} {store store' : RuleStore V A} {schema : Schema}
    (h : ps.Kept reg) (hlook : ps.lookup name = some ⟨.rules kind store, some schema⟩)
    (hrules : ∀ key, store'.rulesOf key = store.rulesOf key)
    (hweight : ∀ w : String → Rule V → ℕ, store'.weight w = store.weight w) :
    Kept reg (ps.insert name ⟨.rules kind store', some schema⟩) := by
  obtain ⟨⟨S, hS⟩, hown, hall⟩ := h
  have hd := data_of_lookup hlook
  have hdata : PolicyMap.data (ps.insert name ⟨.rules kind store', some schema⟩)
      = Function.update ps.data name (some (.rules kind store')) := by
    funext other
    rw [data_insert, Function.update_apply]
  have hknows := knows_of_put hd hdata
  refine ⟨⟨S, hS.counts.put_data kind store' hlook rfl, hS.proper, fun k => ?_⟩, ?_, hall.put hdata⟩
  · have hw := weight_update (w := useCount reg ps.knows k) hd hdata
    simp only [PolicyData.weight] at hw
    rw [hweight] at hw
    rw [hknows, hS.exact]
    exact (add_right_cancel hw).symm
  · intro other kind' store'' hother key r hr
    rw [HeadsUse, hknows]
    rw [hdata, Function.update_apply] at hother
    split_ifs at hother with ho
    · obtain ⟨rfl, rfl⟩ := PolicyData.rules.inj (Option.some.inj hother)
      rw [ho]
      exact hown name _ store hd key r (hrules key ▸ hr)
    · exact hown other kind' store'' hother key r hr

/-- A fact that is new counts. -/
theorem Kept.addFact {kind : RuleKind} {store : RuleStore V A} {schema : Schema} {fact : List V}
    (h : ps.Kept reg) (hlook : ps.lookup name = some ⟨.rules kind store, some schema⟩)
    (hnew : fact ∉ store.factsOf table) {l : Literal V} (hl : l.table.table = table) :
    Kept reg (ps.insert name
      ⟨.rules kind (store.addFact table fact).1, some (schema.update l true).1⟩) := by
  obtain ⟨⟨S, hS⟩, hown, hall⟩ := h
  have hd := data_of_lookup hlook
  have hdata : PolicyMap.data (ps.insert name
      ⟨.rules kind (store.addFact table fact).1, some (schema.update l true).1⟩)
      = Function.update ps.data name (some (.rules kind (store.addFact table fact).1)) := by
    funext other
    rw [data_insert, Function.update_apply]
  have hknows := knows_of_put hd hdata
  subst hl
  have hupdate : (schema.update l true).1.Counts _ :=
    (Schema.update_counts (hS.counts.known name _ schema hlook rfl) l name).1
  have hcounts : Counts (ps.insert name
      ⟨.rules kind (store.addFact l.table.table fact).1, some (schema.update l true).1⟩)
      (Function.update S (name, l.table.table)
        ((S (name, l.table.table)).change true l.arguments.length).1) :=
    hS.counts.put (by rw [update_pair]; exact hupdate) update_pair_ne
  refine ⟨⟨_, hcounts, fun k => ?_, fun k => ?_⟩, ?_, hall.put hdata⟩
  · rw [Function.update_apply]
    split_ifs
    · exact Usage.proper_change (hS.proper _)
    · exact hS.proper k
  · have hw := weight_update (w := useCount reg ps.knows k) hd hdata
    simp only [PolicyData.weight] at hw
    rw [RuleStore.weight_addFact, if_pos ((RuleStore.addFact_spec ..).2.2.2 hnew),
      useCount_factRule] at hw
    rw [hknows]
    have hk := hS.exact k
    by_cases hkey : k = (name, l.table.table)
    · subst hkey
      rw [if_pos rfl] at hw
      rw [Function.update_self, Usage.count_change, if_pos rfl, hk]
      omega
    · rw [if_neg (Ne.symm hkey)] at hw
      rw [Function.update_of_ne hkey, hk]
      omega
  · intro other kind' store' hother key r hr
    rw [HeadsUse, hknows]
    rw [hdata, Function.update_apply] at hother
    split_ifs at hother with ho
    · obtain ⟨rfl, rfl⟩ := PolicyData.rules.inj (Option.some.inj hother)
      rw [ho]
      rw [(RuleStore.addFact_spec ..).1] at hr
      exact hown name _ store hd key r hr
    · exact hown other kind' store' hother key r hr

theorem clearTables_empty : ∀ {tablenames : List String} {s : RuleStore V A},
    (∀ table ∈ tablenames, s.factsOf table = [] ∧ s.rulesOf table = []) →
      (∀ key, (tablenames.foldl RuleStore.clearTable s).factsOf key = s.factsOf key)
        ∧ (∀ key, (tablenames.foldl RuleStore.clearTable s).rulesOf key = s.rulesOf key)
        ∧ ∀ w : String → Rule V → ℕ, (tablenames.foldl RuleStore.clearTable s).weight w = s.weight w
  | [], s, _ => ⟨fun _ => rfl, fun _ => rfl, fun _ => rfl⟩
  | table :: tablenames, s, h => by
    obtain ⟨⟨hf, hr⟩, hrest⟩ := List.forall_mem_cons.1 h
    have hfacts : ∀ key, (s.clearTable table).factsOf key = s.factsOf key := by
      intro key
      show ((s.setRules table [] .nil).setFacts table [] List.nodup_nil).factsOf key = _
      rw [RuleStore.factsOf_setFacts]
      split_ifs with hkey
      · rw [hkey, hf]
      · rfl
    have hrules : ∀ key, (s.clearTable table).rulesOf key = s.rulesOf key := by
      intro key
      show (s.setRules table [] .nil).rulesOf key = _
      rw [RuleStore.rulesOf_setRules]
      split_ifs with hkey
      · rw [hkey, hr]
      · rfl
    have hweight : ∀ w : String → Rule V → ℕ, (s.clearTable table).weight w = s.weight w := by
      intro w
      have h₁ := RuleStore.weight_setRules w s table [] .nil
      have h₂ := RuleStore.weight_setFacts w (s.setRules table [] .nil) table [] List.nodup_nil
      rw [hr] at h₁
      rw [show (s.setRules table [] .nil).factsOf table = s.factsOf table from rfl, hf] at h₂
      simp only [List.map_nil, List.sum_nil, Nat.add_zero] at h₁ h₂
      exact h₂.trans h₁
    have hempty : ∀ t ∈ tablenames, (s.clearTable table).factsOf t = []
        ∧ (s.clearTable table).rulesOf t = [] := fun t ht => by
      rw [hfacts, hrules]
      exact hrest t ht
    obtain ⟨ihf, ihr, ihw⟩ := clearTables_empty hempty
    exact ⟨fun key => (ihf key).trans (hfacts key), fun key => (ihr key).trans (hrules key),
      fun w => (ihw w).trans (hweight w)⟩

theorem update_columns_ne {schema : Schema} (l : Literal V) (h : schema.columns.keys.isEmpty = false) :
    (schema.update l true).1.columns.keys.isEmpty = false := by
  unfold Schema.update
  cases schema.count with
  | none => exact h
  | some count =>
    dsimp only
    cases schema.columns.lookup l.table.table with
    | none => simp [AList.keys_insert]
    | some columns => exact h

/-- Facts that are new, each once, are counted in a schema that is not empty. -/
theorem Kept.initializeFacts (tablenames : List String) {kind : RuleKind} :
    ∀ (facts : List (String × List V)) {ps : PolicyMap V A} {store : RuleStore V A} {schema : Schema},
      ps.Kept reg → ps.lookup name = some ⟨.rules kind store, some schema⟩ →
      (facts.filter (·.1 ∈ tablenames)).Nodup →
      (∀ f ∈ facts.filter (·.1 ∈ tablenames), f.2 ∉ store.factsOf f.1) →
      (facts.filter (·.1 ∈ tablenames) = [] ∨ schema.columns.keys.isEmpty = false) →
      Kept reg (ps.insert name
        ⟨.rules kind (Runtime.initializeFacts store (some schema) tablenames facts).1,
          (Runtime.initializeFacts store (some schema) tablenames facts).2⟩)
  | [], _, _, _, h, hlook, _, _, _ => h.put_same hlook (fun _ => rfl) fun _ => rfl
  | (table, fact) :: facts, ps, store, schema, h, hlook, hnodup, hnew, hcols => by
    unfold Runtime.initializeFacts
    by_cases ht : table ∈ tablenames
    · rw [List.filter_cons_of_pos (by simpa using ht)] at hnodup hnew hcols
      obtain ⟨hnot, hnodup⟩ := List.nodup_cons.1 hnodup
      obtain ⟨hfirst, hnew⟩ := List.forall_mem_cons.1 hnew
      have hcols := hcols.resolve_left (List.cons_ne_nil _ _)
      simp only [ht, if_true, Option.map_some, hcols, Bool.false_eq_true, if_false]
      set l : Literal V := ⟨⟨none, table, none⟩, fact.map .object, false, []⟩ with hl
      have h₁ := h.addFact hlook hfirst (l := l) rfl
      have ih := Kept.initializeFacts tablenames facts h₁
        (AList.lookup_insert _) hnodup (fun f hf hmem => ?_) (.inr (update_columns_ne l hcols))
      · rwa [AList.insert_insert] at ih
      · rw [(RuleStore.addFact_spec ..).2.1] at hmem
        split_ifs at hmem with hkey
        · rcases List.mem_append.1 hmem with hmem | hmem
          · exact hnew f hf (hkey.1 ▸ hmem)
          · obtain ⟨t, f⟩ := f
            obtain ⟨rfl, -⟩ := hkey
            obtain rfl : f = fact := List.mem_singleton.1 hmem
            exact hnot hf
        · exact hnew f hf hmem
    · rw [List.filter_cons_of_neg (by simpa using ht)] at hnodup hnew hcols
      simp only [ht, if_false]
      exact Kept.initializeFacts tablenames facts h hlook hnodup hnew hcols

theorem Kept.initializeTables {tablenames : List String} {facts : List (String × List V)}
    (h : ps.Kept reg) (hr : ∀ kind store, ps.data name = some (.rules kind store) →
      ps.Refills reg name store tablenames facts) :
    Kept reg ((initializeTables name tablenames facts).run ps).2 := by
  unfold PolicyMap.initializeTables
  rw [run_get_bind]
  cases hlook : ps.lookup name with
  | none => exact h
  | some p =>
    obtain ⟨d, schema⟩ := p
    obtain ⟨kind, store, rfl⟩ := h.rules name d (data_of_lookup hlook)
    obtain ⟨S, hS⟩ := h.counted
    cases schema with
    | none => exact absurd hlook (hS.counts.schema name kind store)
    | some schema =>
      obtain ⟨hcleared, hnodup, hcounting⟩ := hr kind store (data_of_lookup hlook)
      obtain ⟨hfacts, hrules, hweight⟩ := clearTables_empty hcleared
      have h₁ := h.put_same hlook hrules hweight
      have hcols : facts.filter (·.1 ∈ tablenames) = [] ∨ schema.columns.keys.isEmpty = false := by
        refine hcounting.imp_right fun ⟨table, htable⟩ => ?_
        have hmem := ((h.countsUses name _ schema hlook rfl table).1.2 htable)
        rw [← Bool.not_eq_true, List.isEmpty_iff]
        exact List.ne_nil_of_mem (AList.mem_keys.1 hmem)
      have hdone := Kept.initializeFacts tablenames facts h₁
        (AList.lookup_insert _) hnodup (fun f hf => ?_) hcols
      · rw [AList.insert_insert] at hdone
        exact hdone
      · have hmem := (List.mem_filter.1 hf).2
        rw [hfacts, (hcleared f.1 (by simpa using hmem)).1]
        exact List.not_mem_nil

/-! ## Runs -/

theorem Kept.step {c : Call V A} (h : ps.Kept pf.registry) (hc : ps.Exact pf c) :
    Kept pf.registry (ps.step pf c) := by
  cases c with
  | update name events =>
    unfold PolicyMap.step PolicyMap.update
    dsimp only
    rw [run_get_bind]
    cases hlook : ps.lookup name with
    | none => exact h
    | some p =>
      obtain ⟨d, schema⟩ := p
      obtain ⟨kind, store, rfl⟩ := h.rules name d (data_of_lookup hlook)
      have hkept := h.updateRules (data_of_lookup hlook) hc
      dsimp only
      rw [run_bind]
      rcases hrun : (PolicyMap.updateRules pf name events).run ps with ⟨_ | _, ps'⟩
      · rwa [hrun] at hkept
      · rwa [hrun] at hkept
  | initializeTables name tablenames facts => exact h.initializeTables hc

/-- A policy as it is created. -/
def alone (name : String) : PolicyMap ℕ Unit :=
  AList.insert name ⟨.rules .nonrecursive .empty, some .init⟩ ∅

theorem alone_new (name : String) : (alone name).New := by
  intro other p hp
  unfold alone at hp
  by_cases ho : other = name
  · subst ho
    rw [AList.lookup_insert] at hp
    cases hp
    exact ⟨_, rfl⟩
  · rw [AList.lookup_insert_ne ho] at hp
    cases hp

/-- A fact and a rule come, and then a table is filled that held nothing. -/
def sampleCalls : List (Call ℕ Unit) :=
  [.update "test" [
      ⟨⟨.atom ⟨⟨none, "q", none⟩, [.object 1], false, []⟩, true, some "test"⟩, ()⟩,
      ⟨⟨.rule ⟨⟨⟨none, "p", none⟩, [.variable "x"], false, []⟩, [],
        [⟨⟨none, "q", none⟩, [.variable "x"], false, []⟩]⟩, true, some "test"⟩, ()⟩],
    .initializeTables "test" ["s"] [("s", [2])]]

end PolicyMap

end Congress
