import Congress.Lib.Run
import Congress.Proofs.Routing
import Congress.Proofs.Schemas
import Congress.Proofs.Weights

/-!
# One arity for each table

A schema counts the uses of its tables in all stored rules (`Accounted`). So a table that is in use has
a number of columns, which is the arity of what a policy itself stores of it as long as what comes to
the policy is checked against it (`singleArity_along`).
-/

namespace Congress

open Lib Stateful

set_option linter.unusedSectionVars false

variable {V A : Type} [DecidableEq V] {reg : BuiltinRegistry V} {pf : Platform V} {r r' : Rule V}
  {known : String → Bool} {name key table : String} {n m : ℕ} {info : A} {insert : Bool}

/-! ## Uses of the tables of a policy -/

/-- The tables of a policy that one of its own rules uses, with the numbers of their arguments. A head
that names another policy is none of them, unless it is a fact. -/
def Rule.ownUses (reg : BuiltinRegistry V) (name key : String) (r : Rule V) : List (String × ℕ) :=
  (if r.body.isEmpty || r.head.table.service.getD name = name then [(key, r.head.arguments.length)]
    else [])
  ++ (r.body.filter fun l => !l.isBuiltin reg true && l.table.service.getD name = name).map
    fun l => (l.table.table, l.arguments.length)

/-- A fact, a head or a literal in a body uses a table of the policy with that many arguments. -/
def RuleStore.Uses (reg : BuiltinRegistry V) (name : String) (s : RuleStore V A) (table : String)
    (n : ℕ) : Prop :=
  (∃ fact ∈ s.factsOf table, fact.length = n)
    ∨ ∃ key, ∃ r ∈ s.rulesOf key, (table, n) ∈ r.1.ownUses reg name key

/-- How often a rule that a policy keeps for a table uses a table. -/
def useCount (reg : BuiltinRegistry V) (known : String → Bool) (k : String × String)
    (name key : String) (r : Rule V) : ℕ :=
  (Usage.values k (((name, key), r.head.arguments.length) :: bodyUses reg known name r.body)).length

theorem mem_bodyUses {k : String × String} {ls : List (Literal V)} :
    (k, n) ∈ bodyUses reg known name ls ↔ ∃ l ∈ ls, l.isBuiltin reg true = false
      ∧ known (l.table.service.getD name) = true ∧ (l.table.service.getD name, l.table.table) = k
      ∧ l.arguments.length = n := by
  unfold bodyUses
  rw [List.mem_filterMap]
  refine exists_congr fun l => and_congr_right fun _ => ?_
  rw [ite_eq_iff]
  simp [and_assoc]

theorem mem_ownUses : (table, n) ∈ r.ownUses reg name key
    ↔ ((r.body = [] ∨ r.head.table.service.getD name = name) ∧ key = table
        ∧ r.head.arguments.length = n)
      ∨ ∃ l ∈ r.body, l.isBuiltin reg true = false ∧ l.table.service.getD name = name
        ∧ l.table.table = table ∧ l.arguments.length = n := by
  unfold Rule.ownUses
  rw [List.mem_append]
  refine or_congr ?_ ?_
  · split_ifs with h
    · rw [Bool.or_eq_true, List.isEmpty_iff, decide_eq_true_eq] at h
      rw [and_iff_right h, List.mem_singleton, Prod.mk.injEq, eq_comm, eq_comm (a := n)]
    · rw [Bool.or_eq_true, List.isEmpty_iff, decide_eq_true_eq] at h
      simp [h]
  · simp [and_assoc]

/-- What a policy uses of its own counts in its schema. -/
theorem uses_of_ownUses (h : (table, n) ∈ r.ownUses reg name key) (hknown : known name = true) :
    ((name, table), n)
      ∈ ((name, key), r.head.arguments.length) :: bodyUses reg known name r.body := by
  rcases mem_ownUses.1 h with ⟨-, rfl, rfl⟩ | ⟨l, hl, hbuiltin, hservice, rfl, rfl⟩
  · exact List.mem_cons_self
  · exact List.mem_cons_of_mem _ (mem_bodyUses.2
      ⟨l, hl, hbuiltin, by rwa [hservice], by rw [hservice], rfl⟩)

theorem uses_asRule (formula : Formula V) : formula.uses reg known name
    = ((name, formula.asRule.head.table.table), formula.asRule.head.arguments.length)
      :: bodyUses reg known name formula.asRule.body := by
  cases formula <;> rfl

theorem useCount_congr {k : String × String} (h : r'.body.Perm r.body) :
    useCount reg known k name key r' = useCount reg known k name key r := by
  have hperm : (bodyUses reg known name r'.body).Perm (bodyUses reg known name r.body) :=
    h.filterMap _
  have hlen := (hperm.filterMap fun o => if o.1 = k then some o.2 else none).length_eq
  unfold useCount Usage.values
  simp only [List.filterMap_cons]
  split <;> split <;> simp_all

theorem useCount_pos (h : (table, n) ∈ r.ownUses reg name key) (hknown : known name = true) :
    0 < useCount reg known (name, table) name key r :=
  List.length_pos_of_mem (Usage.mem_values.2 (uses_of_ownUses h hknown))

theorem useCount_fact (hknown : known name = true) {fact : List V} :
    0 < useCount reg known (name, table) name table (factRule table fact) :=
  useCount_pos (n := fact.length) (mem_ownUses.2 (.inl ⟨.inl rfl, rfl, by simp [factRule]⟩)) hknown

/-- Reordering a body leaves the uses of a rule as they are. -/
theorem reordered_uses {formula formula' : Formula V}
    (h : formula.reorderForSafety pf.registry = some formula') :
    formula'.asRule.head = formula.asRule.head ∧ formula'.asRule.moreHeads = formula.asRule.moreHeads
      ∧ formula'.asRule.body.Perm formula.asRule.body := by
  cases formula with
  | atom l =>
    cases h
    exact ⟨rfl, rfl, .refl _⟩
  | rule r =>
    unfold Formula.reorderForSafety at h
    dsimp only at h
    split_ifs at h
    · cases h
      exact ⟨rfl, rfl, .refl _⟩
    · obtain ⟨r', hr', rfl⟩ := Option.map_eq_some_iff.1 h
      obtain ⟨hhead, hmore, hbody, -⟩ := reorderForSafety_safe hr'
      exact ⟨hhead, hmore, hbody⟩

theorem mem_ownUses_congr (hhead : r'.head = r.head) (hbody : r'.body.Perm r.body) :
    (table, n) ∈ r'.ownUses reg name key ↔ (table, n) ∈ r.ownUses reg name key := by
  rw [mem_ownUses, mem_ownUses, hhead, ← List.isEmpty_iff, ← List.isEmpty_iff, hbody.isEmpty_eq]
  simp only [hbody.mem_iff]

namespace RuleStore

variable {s : RuleStore V A}

/-- What is used after an event was used before, or is used by its rule. -/
theorem Uses.of_put (hneg : r.body = [] → r.head.negated = false)
    (h : (s.put pf r info insert).1.Uses reg name table n) : s.Uses reg name table n
      ∨ insert = true ∧ (table, n) ∈ r.ownUses reg name r.head.table.table := by
  unfold put at h
  by_cases hr : r.body = []
  · cases insert with
    | true =>
      rw [if_pos rfl, addRule_fact hr (hneg hr)] at h
      obtain ⟨hrules, hfacts, -⟩ := addFact_spec s r.head.table.table (pf.factValues r.head)
      unfold Uses at h
      simp only [hrules, hfacts] at h
      rcases h with ⟨fact, hfact, hn⟩ | hrule
      · split_ifs at hfact with hk
        · rcases List.mem_append.1 hfact with hfact | hfact
          · exact .inl (.inl ⟨fact, hk.1 ▸ hfact, hn⟩)
          · refine .inr ⟨rfl, mem_ownUses.2 (.inl ⟨.inl hr, hk.1.symm, ?_⟩)⟩
            rw [← hn, List.mem_singleton.1 hfact, Platform.factValues, List.length_map]
        · exact .inl (.inl ⟨fact, hfact, hn⟩)
      · exact .inl (.inr hrule)
    | false =>
      rw [if_neg Bool.false_ne_true] at h
      obtain ⟨hrules, hfacts, -⟩ := discardRule_fact pf s r.head.table.table hr
      unfold Uses at h
      simp only [hrules, hfacts] at h
      rcases h with ⟨fact, hfact, hn⟩ | hrule
      · split_ifs at hfact with hk
        · exact .inl (.inl ⟨fact, hk ▸ List.mem_of_mem_erase hfact, hn⟩)
        · exact .inl (.inl ⟨fact, hfact, hn⟩)
      · exact .inl (.inr hrule)
  · cases insert with
    | true =>
      rw [if_pos rfl] at h
      obtain ⟨hfacts, hrules, -⟩ := addRule_rule pf s r.head.table.table info hr
      unfold Uses at h
      simp only [hrules, hfacts] at h
      rcases h with hfact | ⟨key, r', hmem, hown⟩
      · exact .inl (.inl hfact)
      · split_ifs at hmem with hk
        · rcases List.mem_append.1 hmem with hmem | hmem
          · exact .inl (.inr ⟨key, r', hk.1 ▸ hmem, hown⟩)
          · rw [List.mem_singleton.1 hmem] at hown
            exact .inr ⟨rfl, hk.1 ▸ hown⟩
        · exact .inl (.inr ⟨key, r', hmem, hown⟩)
    | false =>
      rw [if_neg Bool.false_ne_true] at h
      obtain ⟨hfacts, hrules, -⟩ := discardRule_rule pf s r.head.table.table hr
      unfold Uses at h
      simp only [hrules, hfacts] at h
      rcases h with hfact | ⟨key, r', hmem, hown⟩
      · exact .inl (.inl hfact)
      · split_ifs at hmem with hk
        · exact .inl (.inr ⟨key, r', hk ▸ List.mem_of_mem_eraseP hmem, hown⟩)
        · exact .inl (.inr ⟨key, r', hmem, hown⟩)

/-- What is used contributes to the number of uses. -/
theorem Uses.weight_pos (h : s.Uses reg name table n) (hknown : known name = true) :
    0 < s.weight (useCount reg known (name, table) name) := by
  rcases h with ⟨fact, hfact, -⟩ | ⟨key, r, hr, hown⟩
  · exact (useCount_fact hknown).trans_le (le_weight_fact hfact)
  · exact (useCount_pos hown hknown).trans_le (le_weight_rule hr)

end RuleStore

/-! ## Schemas account for what is stored -/

namespace PolicyMap

variable {ps ps' : PolicyMap V A} {S S' : String × String → Usage ℕ} {e : AnnotatedEvent V A}
  {events : List (AnnotatedEvent V A)} {Allowed : String × String → ℕ → Prop}

/-- The schemas count the uses in all policies, and have the arities of what a nonrecursive policy uses
of its own. -/
structure Accounted (reg : BuiltinRegistry V) (ps : PolicyMap V A) (S : String × String → Usage ℕ) :
    Prop where
  counts : ps.Counts S
  proper : ∀ k, (S k).Proper
  exact : ∀ k, (S k).count = ps.weight (useCount reg ps.knows k)
  fits : ∀ name store table n c m, ps.data name = some (.rules .nonrecursive store) →
    store.Uses reg name table n → S (name, table) = some (c, m) → m = n

theorem knows_of_data {d : PolicyData V A} (h : ps.data name = some d) : ps.knows name = true := by
  simp [knows, h]

/-- The schema knows the arity of what is used. -/
theorem Accounted.in_schema (h : Accounted reg ps S) {store : RuleStore V A}
    (hd : ps.data name = some (.rules .nonrecursive store)) (hu : store.Uses reg name table n) :
    ∃ c, S (name, table) = some (c, n) := by
  have hpos := (hu.weight_pos (knows_of_data hd)).trans_le
    (le_weight (w := useCount reg ps.knows (name, table)) hd)
  rw [← h.exact] at hpos
  cases hS : S (name, table) with
  | none =>
    rw [hS] at hpos
    exact absurd hpos (Nat.lt_irrefl 0)
  | some p =>
    obtain ⟨c, m⟩ := p
    obtain rfl := h.fits name store table n c m hd hu hS
    exact ⟨c, rfl⟩

/-- Values are those from before, or come from an insertion. -/
def Grows (S S' : String × String → Usage ℕ) (insert : Bool)
    (uses : List ((String × String) × ℕ)) : Prop :=
  ∀ k c m, S' k = some (c, m) →
    (∃ c', S k = some (c', m)) ∨ S k = none ∧ insert = true ∧ (k, m) ∈ uses

/-- What an insertion uses of its own policy has the arities that the schema has, or gets. -/
def Matches (reg : BuiltinRegistry V) (Allowed : String × String → ℕ → Prop) (name : String)
    (kind : RuleKind) (e : AnnotatedEvent V A) : Prop :=
  kind = .nonrecursive → e.insert = true → ∀ table n,
    (table, n) ∈ e.formula.asRule.ownUses reg name e.formula.asRule.head.table.table →
      ∀ m, Allowed (name, table) m → m = n

/-- The arities fit again after an event. -/
theorem Accounted.fits_put {kind : RuleKind} {store : RuleStore V A} {formula : Formula V}
    (h : Accounted reg ps S) (hd : ps.data name = some (.rules kind store))
    (hdata : ps'.data = Function.update ps.data name
      (some (.rules kind (store.put pf formula.asRule e.info e.insert).1)))
    (hneg : formula.asRule.head.negated = false) (hhead : formula.asRule.head = e.formula.asRule.head)
    (hbody : formula.asRule.body.Perm e.formula.asRule.body)
    (hmatch : Matches reg (fun k m => ∃ c, S' k = some (c, m)) name kind e)
    {uses : List ((String × String) × ℕ)} (hS : Grows S S' e.insert uses)
    (other : String) (store' : RuleStore V A) (table : String) (n c m : ℕ)
    (hother : ps'.data other = some (.rules .nonrecursive store'))
    (hu : store'.Uses reg other table n) (hm : S' (other, table) = some (c, m)) : m = n := by
  have hold : ∀ store, ps.data other = some (.rules .nonrecursive store) →
      store.Uses reg other table n → m = n := by
    intro store hd hu
    obtain ⟨c₀, hc₀⟩ := h.in_schema hd hu
    rcases hS _ _ _ hm with ⟨c', hc'⟩ | ⟨hnone, -⟩
    · rw [hc₀] at hc'
      cases hc'
      rfl
    · rw [hc₀] at hnone
      cases hnone
  rw [hdata] at hother
  by_cases ho : other = name
  · subst ho
    rw [Function.update_self] at hother
    cases hother
    rcases hu.of_put fun _ => hneg with hu | ⟨hins, hown⟩
    · exact hold store hd hu
    · rw [hhead, mem_ownUses_congr hhead hbody] at hown
      exact hmatch rfl hins table n hown m ⟨c, hm⟩
  · rw [Function.update_of_ne ho] at hother
    exact hold store' hother hu

theorem Counts.put_data {p : Policy V A} {kind : RuleKind} {store : RuleStore V A} (h : ps.Counts S)
    (kind' : RuleKind) (store' : RuleStore V A) (hp : ps.lookup name = some p)
    (hd : p.data = .rules kind store) : Counts (ps.insert name ⟨.rules kind' store', p.schema⟩) S := by
  obtain ⟨d, _ | schema⟩ := p
  · obtain rfl : d = .rules kind store := hd
    exact absurd hp (h.schema name kind store)
  · exact h.put (h.known name _ schema hp rfl) fun _ _ => rfl

/-- The uses of the rule of an event are counted from now on, or no longer, if it is a change. -/
theorem weight_of_put {kind : RuleKind} {store : RuleStore V A} {formula : Formula V}
    (hd : ps.data name = some (.rules kind store))
    (hdata : ps'.data = Function.update ps.data name
      (some (.rules kind (store.put pf formula.asRule e.info e.insert).1)))
    (hhead : formula.asRule.head = e.formula.asRule.head)
    (hbody : formula.asRule.body.Perm e.formula.asRule.body) (k : String × String) :
    let uses := (Usage.values k (e.formula.uses pf.registry ps.knows name)).length
    if (store.put pf formula.asRule e.info e.insert).2 then
      if e.insert then ps'.weight (useCount pf.registry ps.knows k)
        = ps.weight (useCount pf.registry ps.knows k) + uses
      else ps'.weight (useCount pf.registry ps.knows k) + uses
        = ps.weight (useCount pf.registry ps.knows k)
    else ps'.weight (useCount pf.registry ps.knows k) = ps.weight (useCount pf.registry ps.knows k) := by
  dsimp only
  have huses : useCount pf.registry ps.knows k name formula.asRule.head.table.table formula.asRule
      = (Usage.values k (e.formula.uses pf.registry ps.knows name)).length := by
    rw [useCount_congr hbody, uses_asRule, hhead, useCount]
  have hput := RuleStore.weight_put pf store e.info e.insert (r := formula.asRule)
    (w := useCount pf.registry ps.knows k name)
    (fun r' hr' => useCount_congr (Rule.same_iff.1 hr').2)
    (fun hnil => useCount_congr (by rw [hnil]; rfl))
  have hps := weight_update (w := useCount pf.registry ps.knows k) hd hdata
  rw [huses] at hput
  simp only [PolicyData.weight] at hps
  split_ifs at hput ⊢ <;> omega

theorem knows_of_put {d d' : PolicyData V A} (hd : ps.data name = some d)
    (hdata : ps'.data = Function.update ps.data name (some d')) : ps'.knows = ps.knows := by
  funext other
  rw [knows, knows, hdata]
  by_cases ho : other = name
  · subst ho
    rw [Function.update_self, hd]
    rfl
  · rw [Function.update_of_ne ho]

/-- The schemas count the uses in all policies. -/
structure Counted (reg : BuiltinRegistry V) (ps : PolicyMap V A) (S : String × String → Usage ℕ) :
    Prop where
  counts : ps.Counts S
  proper : ∀ k, (S k).Proper
  exact : ∀ k, (S k).count = ps.weight (useCount reg ps.knows k)

theorem Accounted.counted (h : Accounted reg ps S) : Counted reg ps S := ⟨h.counts, h.proper, h.exact⟩

/-- An event that is a change is counted, one that is none is taken back; that is done at the wrong
policy if the head names another one, unless there is nothing to take back. -/
theorem RuleStep.counted {changed : Bool} {kind : RuleKind} {store : RuleStore V A}
    (hstep : RuleStep pf name e ps changed ps') (h : Counted pf.registry ps S)
    (hd : ps.data name = some (.rules kind store))
    (hforeign : changed = false → e.formula.asRule.head.table.service.getD name = name
      ∨ e.insert = false ∧ S (name, e.formula.asRule.head.table.table) = none) :
    Counted pf.registry ps' (if changed then
      (Usage.changeEach e.insert (e.formula.uses pf.registry ps.knows name) S).1 else S) := by
  obtain ⟨kind', store', formula', hd', hformula', hdata'⟩ := hstep.data
  obtain ⟨rfl, rfl⟩ := PolicyData.rules.inj (Option.some.inj (hd.symm.trans hd'))
  obtain ⟨hhead, -, hbody⟩ := reordered_uses hformula'
  have hknows := knows_of_put hd hdata'
  have hweight := weight_of_put hd hdata' hhead hbody
  cases hstep with
  | @changed ps₁ changes formula kind₁ store₁ schema hschema hformula hlook hput =>
    obtain rfl := Option.some.inj (hformula.symm.trans hformula')
    have hd₁ := data_of_lookup hlook
    rw [updateRuleSchema_keeps.of_run hschema, hd] at hd₁
    obtain ⟨rfl, rfl⟩ := PolicyData.rules.inj (Option.some.inj hd₁)
    obtain ⟨hcounts, -⟩ := updateRuleSchema_counts h.counts hd hschema
    rw [if_pos rfl]
    refine ⟨hcounts.put_data _ _ hlook rfl, Usage.proper_changeEach _ h.proper, fun k => ?_⟩
    have hw := hweight k
    dsimp only at hw
    rw [if_pos hput] at hw
    rw [Usage.count_changeEach, h.exact, hknows]
    split_ifs at hw ⊢ <;> omega
  | @noop ps₁ _ changes formula kind₁ store₁ schema hschema hformula hlook hput hrevert =>
    obtain rfl := Option.some.inj (hformula.symm.trans hformula')
    have hd₁ := data_of_lookup hlook
    rw [updateRuleSchema_keeps.of_run hschema, hd] at hd₁
    obtain ⟨rfl, rfl⟩ := PolicyData.rules.inj (Option.some.inj hd₁)
    obtain ⟨hcounts, hlogs⟩ := updateRuleSchema_counts h.counts hd hschema
    have hput₁ := hcounts.put_data kind (store.put pf formula.asRule e.info e.insert).1 hlook rfl
    obtain ⟨S', hS', hcounts'⟩ := revertSchema_counts hput₁ (hlogs (hforeign rfl)) hrevert
    obtain rfl := Usage.revertEach_changeEach h.proper hS'
    rw [if_neg Bool.false_ne_true]
    refine ⟨hcounts', h.proper, fun k => ?_⟩
    have hw := hweight k
    dsimp only at hw
    rw [if_neg (Bool.eq_false_iff.1 hput)] at hw
    rw [h.exact, hknows, hw]

/-- What a step leaves in the schemas has the arities of what is stored then. -/
theorem RuleStep.accounted {changed : Bool} {kind : RuleKind} {store : RuleStore V A}
    (hstep : RuleStep pf name e ps changed ps') (h : Accounted pf.registry ps S)
    (hd : ps.data name = some (.rules kind store)) (hdatalog : e.formula.isDatalog = true)
    (hforeign : changed = false → e.formula.asRule.head.table.service.getD name = name)
    (hallowed : ∀ k c m, S k = some (c, m) → Allowed k m)
    (huses : e.insert = true → ∀ k m, (k, m) ∈ e.formula.uses pf.registry ps.knows name → Allowed k m)
    (hmatch : Matches pf.registry Allowed name kind e) :
    ∃ S', Accounted pf.registry ps' S' ∧ ∀ k c m, S' k = some (c, m) → Allowed k m := by
  have hcounted := hstep.counted h.counted hd fun hno => .inl (hforeign hno)
  obtain ⟨kind', store', formula, hd', hformula, hdata⟩ := hstep.data
  obtain ⟨rfl, rfl⟩ := PolicyData.rules.inj (Option.some.inj (hd.symm.trans hd'))
  have hneg := negated_of_isDatalog ((change_of_reordered pf e.insert hformula).2 hdatalog)
  obtain ⟨hhead, -, hbody⟩ := reordered_uses hformula
  set S' := if changed then
    (Usage.changeEach e.insert (e.formula.uses pf.registry ps.knows name) S).1 else S with hS'
  have hgrows : Grows S S' e.insert (e.formula.uses pf.registry ps.knows name) := by
    intro k c m hk
    rw [hS'] at hk
    split_ifs at hk
    · exact Usage.value_changeEach k _ hk
    · exact .inl ⟨c, hk⟩
  have hallowed' : ∀ k c m, S' k = some (c, m) → Allowed k m := by
    intro k c m hk
    rcases hgrows k c m hk with ⟨c', hc'⟩ | ⟨-, hins, hmem⟩
    · exact hallowed k c' m hc'
    · exact huses hins k m hmem
  have hmatch' : Matches pf.registry (fun k m => ∃ c, S' k = some (c, m)) name kind e := by
    rintro rfl hins table n hown m ⟨c, hc⟩
    exact hmatch rfl hins table n hown m (hallowed' _ c m hc)
  exact ⟨S', ⟨hcounted.counts, hcounted.proper, hcounted.exact,
    h.fits_put hd hdata hneg hhead hbody hmatch' hgrows⟩, hallowed'⟩

/-- A rule whose head names another policy is a change each time it comes: otherwise the schema of that
policy is taken back instead of this one's. -/
def ForeignChanges (pf : Platform V) (name : String) :
    Set (Statement V) → List (AnnotatedEvent V A) → Prop
  | _, [] => True
  | F, e :: events =>
    (e.formula.asRule.head.table.service.getD name ≠ name →
        (e.insert = true ↔ e.formula.asRule.statement pf ∉ F))
      ∧ ForeignChanges pf name (((e.formula.asRule.statement pf).change e.insert).apply F) events

theorem updateRules_accounted : ∀ {events changes : List (AnnotatedEvent V A)} {ps ps' : PolicyMap V A}
    {S : String × String → Usage ℕ} {kind : RuleKind} {store : RuleStore V A},
    (updateRules pf name events).run ps = (.ok changes, ps') → Accounted pf.registry ps S →
      ps.data name = some (.rules kind store) → (∀ e ∈ events, e.formula.isDatalog = true) →
      ForeignChanges pf name store.statements events →
      (∀ k c m, S k = some (c, m) → Allowed k m) →
      (∀ e ∈ events, e.insert = true →
        ∀ k m, (k, m) ∈ e.formula.uses pf.registry ps.knows name → Allowed k m) →
      (∀ e ∈ events, Matches pf.registry Allowed name kind e) →
      ∃ S', Accounted pf.registry ps' S' ∧ ∀ k c m, S' k = some (c, m) → Allowed k m
  | [], _, _, _, S, _, _, hrun, h, _, _, _, hallowed, _, _ => by
    cases hrun
    exact ⟨S, h, hallowed⟩
  | e :: events, changes, ps, ps', S, kind, store, hrun, h, hd, hdatalog, hforeign, hallowed, huses,
      hmatch => by
    obtain ⟨hdl, hdatalog⟩ := List.forall_mem_cons.1 hdatalog
    obtain ⟨hu, huses⟩ := List.forall_mem_cons.1 huses
    obtain ⟨hm, hmatch⟩ := List.forall_mem_cons.1 hmatch
    obtain ⟨changed, ps₁, changes', hstep, hrun, -⟩ := updateRules_cons hrun
    obtain ⟨kind', store', formula, hd', hformula, hdata⟩ := hstep.data
    obtain ⟨rfl, rfl⟩ := PolicyData.rules.inj (Option.some.inj (hd.symm.trans hd'))
    obtain ⟨hchange, hdl'⟩ := change_of_reordered pf e.insert hformula
    have hneg := negated_of_isDatalog (hdl' hdl)
    have hown : changed = false → e.formula.asRule.head.table.service.getD name = name := by
      intro hfalse
      by_contra hne
      have hsame : (formula.asRule.statement pf).Same (e.formula.asRule.statement pf) := by
        show _ ∈ ((formula.asRule.statement pf).change e.insert).on
        rw [hchange]
        exact Statement.Same.refl _
      have hput := RuleStore.changed_put pf store e.info e.insert fun _ => hneg
      rw [hstep.put_eq hd hformula, RuleStore.mem_statements_congr hsame, hfalse] at hput
      exact Bool.false_ne_true (hput.2 (hforeign.1 hne))
    obtain ⟨S₁, h₁, hallowed₁⟩ := hstep.accounted h hd hdl hown hallowed hu hm
    refine updateRules_accounted hrun h₁ (by rw [hdata, Function.update_self]) hdatalog ?_ hallowed₁ ?_
      hmatch
    · rw [RuleStore.statements_put fun _ => hneg, hchange]
      exact hforeign.2
    · rwa [knows_of_put hd hdata]

/-- Policies without a rule set store nothing that counts. -/
theorem Accounted.put_other {p : Policy V A} {d : PolicyData V A} (h : Accounted reg ps S)
    (hp : ps.lookup name = some p) (hold : ∀ kind store, p.data ≠ .rules kind store)
    (hnew : ∀ kind store, d ≠ .rules kind store) :
    Accounted reg (ps.insert name ⟨d, p.schema⟩) S := by
  have hdata : PolicyMap.data (ps.insert name ⟨d, p.schema⟩)
      = Function.update ps.data name (some d) := by
    funext other
    rw [data_insert, Function.update_apply]
  have hzero : ∀ {d : PolicyData V A} {w : String → Rule V → ℕ}, (∀ kind store, d ≠ .rules kind store) →
      d.weight w = 0 := by
    intro d w hd
    cases d with
    | rules kind store => exact absurd rfl (hd kind store)
    | database => rfl
    | materialized => rfl
  refine ⟨⟨fun other q s hq hs => ?_, fun other kind store hq => ?_⟩, h.proper, fun k => ?_, ?_⟩
  · by_cases ho : other = name
    · subst ho
      rw [AList.lookup_insert] at hq
      cases hq
      exact h.counts.known other p s hp hs
    · rw [AList.lookup_insert_ne ho] at hq
      exact h.counts.known other q s hq hs
  · by_cases ho : other = name
    · subst ho
      rw [AList.lookup_insert] at hq
      obtain ⟨rfl, -⟩ := Policy.mk.inj (Option.some.inj hq)
      exact hnew kind store rfl
    · rw [AList.lookup_insert_ne ho] at hq
      exact h.counts.schema other kind store hq
  · have hweight := weight_update (w := useCount reg ps.knows k) (data_of_lookup hp) hdata
    rw [hzero hold, hzero hnew] at hweight
    rw [h.exact, knows_of_put (data_of_lookup hp) hdata]
    exact hweight.symm
  · intro other store table n c m hd
    rw [hdata] at hd
    by_cases ho : other = name
    · subst ho
      rw [Function.update_self, Option.some.injEq] at hd
      exact absurd hd (hnew _ _)
    · rw [Function.update_of_ne ho] at hd
      exact h.fits other store table n c m hd

theorem updateDatabase_accounted : ∀ {events changes : List (AnnotatedEvent V A)}
    {ps ps' : PolicyMap V A} {schema : Option Schema} {db : Database V},
    (updateDatabase name schema db events).run ps = (.ok changes, ps') → Accounted reg ps S →
      ps.lookup name = some ⟨.database db, schema⟩ → Accounted reg ps' S
  | [], _, _, _, _, _, hrun, h, _ => by
    cases hrun
    exact h
  | e :: events, changes, ps, ps', schema, db, hrun, h, hp => by
    unfold updateDatabase at hrun
    rw [run_lift_bind_ok] at hrun
    obtain ⟨⟨db₁, changes₁⟩, hmod, hrun⟩ := hrun
    simp only [run_modify_bind] at hrun
    obtain ⟨rest, ps₁, h₁, hrun⟩ := run_bind_ok.1 hrun
    cases hrun
    exact updateDatabase_accounted h₁
      (h.put_other (d := .database db₁) hp (by simp) (by simp)) (AList.lookup_insert _)

/-- An update of a policy, where what it inserts into a rule set has the arities allowed. -/
theorem update_accounted {changes : List (Changed V A)}
    (hrun : (PolicyMap.update pf name events).run ps = (.ok changes, ps'))
    (h : Accounted pf.registry ps S) (hdatalog : ∀ e ∈ events, e.formula.isDatalog = true)
    (hallowed : ∀ k c m, S k = some (c, m) → Allowed k m)
    (hrules : ∀ kind store, ps.data name = some (.rules kind store) →
      ForeignChanges pf name store.statements events
      ∧ (∀ e ∈ events, e.insert = true →
        ∀ k m, (k, m) ∈ e.formula.uses pf.registry ps.knows name → Allowed k m)
      ∧ ∀ e ∈ events, Matches pf.registry Allowed name kind e) :
    ∃ S', Accounted pf.registry ps' S' ∧ ∀ k c m, S' k = some (c, m) → Allowed k m := by
  unfold PolicyMap.update at hrun
  rw [run_get_bind] at hrun
  cases hp : ps.lookup name with
  | none =>
    rw [hp] at hrun
    cases hrun
  | some p =>
    obtain ⟨d, schema⟩ := p
    rw [hp] at hrun
    cases d with
    | rules kind store =>
      obtain ⟨changes', ps₁, hrun, hpure⟩ := run_bind_ok.1 hrun
      cases hpure
      have hd := data_of_lookup hp
      obtain ⟨hforeign, huses, hmatch⟩ := hrules kind store hd
      exact updateRules_accounted hrun h hd hdatalog hforeign hallowed huses hmatch
    | database db =>
      obtain ⟨changes', ps₁, hrun, hpure⟩ := run_bind_ok.1 hrun
      cases hpure
      exact ⟨S, updateDatabase_accounted hrun h hp, hallowed⟩
    | materialized th =>
      obtain ⟨changes', ps₁, hrun, hpure⟩ := run_bind_ok.1 hrun
      cases hpure
      unfold updateMaterialized at hrun
      rw [run_get_bind, run_zoom] at hrun
      obtain ⟨-, rfl⟩ := Prod.mk.inj hrun
      exact ⟨S, h.put_other hp (by simp) (by simp), hallowed⟩

/-- What is inserted into a rule set among what comes to the policies uses the table so. -/
def Inserted (reg : BuiltinRegistry V) (ps : PolicyMap V A)
    (arrivals : List (String × List (AnnotatedEvent V A))) (k : String × String) (m : ℕ) : Prop :=
  ∃ name received kind store, (name, received) ∈ arrivals ∧ ps.data name = some (.rules kind store)
    ∧ ∃ e ∈ received, e.insert = true ∧ (k, m) ∈ e.formula.uses reg ps.knows name

theorem updateTargets_accounted (Allowed : String × String → ℕ → Prop) : ∀ {names : List String}
    {events : List (AnnotatedEvent V A)} {ps ps' : PolicyMap V A} {S : String × String → Usage ℕ}
    {changes : List (Changed V A)},
    (updateTargets pf names events).run ps = (.ok changes, ps') → Accounted pf.registry ps S →
      names.Nodup → (∀ e ∈ events, e.formula.isDatalog = true) →
      (∀ k c m, S k = some (c, m) → Allowed k m) →
      (∀ k m, ps.Inserted pf.registry (ps.received names events) k m → Allowed k m) →
      (∀ name received, (name, received) ∈ ps.received names events →
        ∀ kind store, ps.data name = some (.rules kind store) →
          ForeignChanges pf name store.statements received
            ∧ ∀ e ∈ received, Matches pf.registry Allowed name kind e) →
      ∃ S', Accounted pf.registry ps' S'
  | [], _, _, _, S, _, hrun, h, _, _, _, _, _ => by
    cases hrun
    exact ⟨S, h⟩
  | name :: names, events, ps, ps', S, changes, hrun, h, hnodup, hdatalog, hallowed, hinserted,
      hrules => by
    obtain ⟨hname, hnodup⟩ := List.nodup_cons.1 hnodup
    unfold updateTargets at hrun
    rw [run_get_bind] at hrun
    obtain ⟨changes₁, ps₁, h₁, hrun⟩ := run_bind_ok.1 hrun
    obtain ⟨rest, ps₂, h₂, hrun⟩ := run_bind_ok.1 hrun
    cases hrun
    obtain ⟨d, hd⟩ := data_of_update h₁
    obtain ⟨d', hdata, -⟩ := update_statements h₁ hdatalog hd
    have hsame : ∀ other ∈ names, ps₁.data other = ps.data other := fun other ho => by
      rw [hdata, Function.update_of_ne fun h : other = name => hname (h ▸ ho)]
    have hreceived : ps₁.received names (AnnotatedEvent.leftBy (ps.data name) events)
        = ps.received names (AnnotatedEvent.leftBy (ps.data name) events) := received_congr hsame
    have hnames : ∀ {other received},
        (other, received) ∈ ps.received names (AnnotatedEvent.leftBy (ps.data name) events) →
          other ∈ names := by
      intro other received hmem
      have := List.mem_map_of_mem (f := Prod.fst) hmem
      rwa [received_names] at this
    obtain ⟨S₁, hS₁, hallowed₁⟩ := update_accounted h₁ h hdatalog hallowed fun kind store hd => by
      obtain ⟨hforeign, hmatch⟩ := hrules name events List.mem_cons_self kind store hd
      exact ⟨hforeign, fun e he hins k m hmem =>
        hinserted k m ⟨name, events, kind, store, List.mem_cons_self, hd, e, he, hins, hmem⟩, hmatch⟩
    refine updateTargets_accounted Allowed h₂ hS₁ hnodup
      (AnnotatedEvent.isDatalog_leftBy hdatalog) hallowed₁ ?_
      fun other received hmem kind store hd' => ?_
    · rintro k m ⟨other, received, kind, store, hmem, hd', e, he, hins, huses⟩
      have hmem := hreceived ▸ (show (other, received) ∈ ps₁.received names _ from hmem)
      rw [hsame other (hnames hmem)] at hd'
      rw [knows_of_put hd hdata] at huses
      exact hinserted k m
        ⟨other, received, kind, store, List.mem_cons_of_mem _ hmem, hd', e, he, hins, huses⟩
    · have hmem := hreceived ▸ (show (other, received) ∈ ps₁.received names _ from hmem)
      rw [hsame other (hnames hmem)] at hd'
      exact hrules other received (List.mem_cons_of_mem _ hmem) kind store hd'

/-- What a nonrecursive policy stores of a table of its own has a single arity. -/
def SingleArity (reg : BuiltinRegistry V) (ps : PolicyMap V A) : Prop :=
  ∀ name store, ps.data name = some (.rules .nonrecursive store) → ∀ table n m,
    store.Uses reg name table n → store.Uses reg name table m → n = m

theorem Accounted.singleArity (h : Accounted reg ps S) : ps.SingleArity reg := by
  intro name store hd table n m hn hm
  obtain ⟨c, hc⟩ := h.in_schema hd hn
  exact h.fits name store table m c n hd hm hc

end PolicyMap

/-! ## Runs -/

namespace Runtime

variable {host : Host V A} {rt rt' : Runtime V A} {events : List (AnnotatedEvent V A)}

/-- Policies as they are created. -/
def Fresh (rt : Runtime V A) : Prop :=
  ∀ name p, rt.theory.lookup name = some p → ∃ kind, p = newPolicy name kind

/-- The arity of a table, before a batch or in one of its insertions. -/
def Arity (host : Host V A) (rt : Runtime V A) (events : List (AnnotatedEvent V A))
    (k : String × String) (m : ℕ) : Prop :=
  (∃ p schema, rt.theory.lookup k.1 = some p ∧ p.schema = some schema ∧ schema.arity k.2 = some m)
    ∨ rt.theory.Inserted host.registry (rt.theory.arrivals host.toPlatform events) k m

/-- What comes to a policy and uses a table of its own has the arity of the schema and of all other
insertions of the batch; a rule whose head names another policy is no noop where it comes. -/
def Consistent (host : Host V A) (rt : Runtime V A) (events : List (AnnotatedEvent V A)) : Prop :=
  ∀ name received, (name, received) ∈ rt.theory.arrivals host.toPlatform events →
    ∀ kind store, rt.theory.data name = some (.rules kind store) →
      PolicyMap.ForeignChanges host.toPlatform name store.statements received
        ∧ ∀ e ∈ received, PolicyMap.Matches host.registry (Arity host rt events) name kind e

/-- A batch of events for `update`. -/
structure Batch (V A : Type) where
  events : List (AnnotatedEvent V A)
  target : Option String
  persistent : Bool

def step (host : Host V A) (rt : Runtime V A) (b : Batch V A) : Runtime V A :=
  ((update host b.events b.target b.persistent).run rt).2

/-- The batch is accepted, and consistent. -/
def Accepts (host : Host V A) (rt : Runtime V A) (b : Batch V A) : Prop :=
  (∃ changes rt', (update host b.events b.target b.persistent).run rt
    = (.ok (.permitted changes), rt'))
  ∧ Consistent host rt (rt.enabled host b.events b.target b.persistent)

theorem accounted_of_fresh (h : rt.Fresh) :
    PolicyMap.Accounted reg rt.theory fun _ => none := by
  have hdata : ∀ {name d}, rt.theory.data name = some d → ∀ kind store, d = .rules kind store →
      store = .empty := by
    rintro name d hd kind store rfl
    obtain ⟨p, hp, hpd⟩ := Option.map_eq_some_iff.1 hd
    obtain ⟨kind', rfl⟩ := h name p hp
    cases kind' <;> cases hpd <;> rfl
  refine ⟨⟨fun name p s hp hs => ?_, fun name kind store hp => ?_⟩, fun k => ?_, fun k => ?_,
    fun name store table n c m hd hu hm => ?_⟩
  · obtain ⟨kind, rfl⟩ := h name p hp
    cases kind <;> cases hs <;> exact ⟨rfl, ∅, rfl, fun _ => ⟨rfl, rfl⟩⟩
  · obtain ⟨kind', hkind⟩ := h name _ hp
    cases kind' <;> cases hkind
  · rintro n b ⟨⟩
  · refine (Finset.sum_eq_zero fun name hname => ?_).symm
    cases hd : rt.theory.data name with
    | none => rfl
    | some d =>
      cases d with
      | rules kind store =>
        obtain rfl := hdata hd kind store rfl
        rfl
      | database => rfl
      | materialized => rfl
  · cases hm

theorem accounted_of_datalog {S : String × String → Usage ℕ} {changes : List (PolicyMap.Changed V A)}
    (h : Datalog host rt events (.permitted changes) rt')
    (hacc : PolicyMap.Accounted host.registry rt.theory S) (hc : Consistent host rt events) :
    ∃ S', PolicyMap.Accounted host.registry rt'.theory S' := by
  cases h with
  | noop => exact ⟨S, hacc⟩
  | @permitted effective graph changes ps hactual hnil hchecks hstep happlied =>
    have harrivals : rt.theory.arrivals host.toPlatform events
        = rt.theory.received (AnnotatedEvent.targets effective) effective := by
      rw [PolicyMap.arrivals, PolicyMap.effective, hactual]
    -- only the arities of tables of nonrecursive policies are looked at
    refine PolicyMap.updateTargets_accounted
      (fun k m => (∃ store, rt.theory.data k.1 = some (.rules .nonrecursive store))
        → Arity host rt events k m)
      happlied hacc AnnotatedEvent.nodup_targets
      (PolicyMap.isDatalog_of_errors hactual hchecks) ?_ ?_ ?_
    · rintro ⟨name, table⟩ c m hS ⟨store, hd⟩
      obtain ⟨⟨d, _ | schema⟩, hp, rfl⟩ := Option.map_eq_some_iff.1 hd
      · exact absurd hp (hacc.counts.schema name .nonrecursive store)
      · obtain ⟨-, count, -, htables⟩ := hacc.counts.known name _ schema hp rfl
        refine .inl ⟨_, schema, hp, rfl, ?_⟩
        rw [Schema.arity, (htables table).2]
        show (S (name, table)).map Prod.snd = some m
        rw [hS]
        rfl
    · exact fun k m hm _ => .inr (harrivals ▸ hm)
    · rw [← harrivals]
      intro name received hmem kind store hd
      obtain ⟨hforeign, hmatch⟩ := hc name received hmem kind store hd
      refine ⟨hforeign, fun e he hkind hins table n hown m hm => ?_⟩
      exact hmatch e he hkind hins table n hown m (hm ⟨store, hkind ▸ hd⟩)

theorem fresh_twoPolicies : twoPolicies.Fresh := by
  intro name p hp
  obtain ⟨d, hd⟩ : ∃ d, twoPolicies.theory.data name = some d := ⟨_, PolicyMap.data_of_lookup hp⟩
  obtain ⟨rfl | rfl, -⟩ := lookup_twoPolicies hd
  · cases hp
    exact ⟨.nonrecursive, rfl⟩
  · cases hp
    exact ⟨.nonrecursive, rfl⟩

/-- The facts `p(1)` and `p(1, 2)` for a policy without rules. -/
def twoArities : Batch ℕ Unit :=
  ⟨[insertFact "a" "p",
    ⟨⟨.atom ⟨⟨none, "p", none⟩, [.object 1, .object 2], false, []⟩, true, some "a"⟩, ()⟩], none, false⟩

end Runtime

end Congress
