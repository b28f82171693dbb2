import Congress.Proofs.ViewEvents

/-!
# One event of the queue of materialized views

While events wait, the proofs that the database holds are not yet those that the rules give; what keeps the
balance is that they will be once the waiting events are applied (`Balanced`). An event keeps the balance if
it is no deletion that leaves its tuple with other proofs (`ProofEvent.Exhaustive`).
-/

namespace Congress

open Lib Stateful

set_option linter.unusedSectionVars false

variable {V : Type} [DecidableEq V] [Inhabited V] {reg : BuiltinRegistry V} {fuel : ℕ} {r r' rule : Rule V}
  {d d' : DeltaRule V} {l t : Literal V} {ν ν' : String → V} {insert : Bool} {e n : ProofEvent V}
  {D : Set String} {x : (String × List V) × Proof V} {q : List (ProofEvent V)}

/-- A literal about rows: no builtin, and not `true` or `false`. -/
structure Literal.IsRow (reg : BuiltinRegistry V) (l : Literal V) : Prop where
  notTrue : l.table.table ≠ "true"
  notFalse : l.table.table ≠ "false"
  notBuiltin : l.isBuiltin reg true = false

theorem Literal.isRow_of_table (h : IsTable reg l.table.table) : l.IsRow reg :=
  ⟨h.notTrue, h.notFalse, by simp [Literal.isBuiltin, BuiltinRegistry.isBuiltin, h.notBuiltin]⟩

/-- The tuple that a literal is about. -/
def Literal.keyAt (l : Literal V) (ν : String → V) : String × List V := (l.table.table, l.values ν)

/-- A deletion takes all proofs of its tuple. -/
def ProofEvent.Exhaustive (e : ProofEvent V) (db : Database V) : Prop :=
  e.insert = false → ∀ l, e.formula = .atom l → ∀ p, (l.key, p) ∈ db.held → e.proofs.has p = true

/-- The only table that an event can add is that of its tuple. -/
theorem Database.modify_tables {db db' : Database V} {changes : List (ProofEvent V)}
    (h : db.modify e = .ok (db', changes)) (hl : e.formula = .atom l) :
    ∀ table ∈ db'.data, table ∈ db.data ∨ table = l.table.table := by
  intro table ht
  unfold Database.modify at h
  simp only [hl] at h
  split_ifs at h
  · cases h
    exact .inl ht
  · cases h
    exact ((AList.mem_insert _).1 ht).symm
  · cases h
    unfold Database.deleteActual at ht
    simp only at ht
    split_ifs at ht
    · exact ((AList.mem_insert _).1 ht).symm
    · exact .inl ht

theorem Rule.proves_congr (hr : r.Viewable reg fuel) (hr' : r'.Viewable reg fuel) (h : r.same r' = true) :
    r.Proves ν x ↔ r'.Proves ν x := by
  obtain ⟨hheads, hbody⟩ := Rule.same_iff.1 h
  have hhead : r.head = r'.head := by
    rw [hr.heads, hr'.heads, List.singleton_perm_singleton] at hheads
    exact hheads
  have hbinding : r.binding ν = r'.binding ν := by
    refine congrArg (valuation · ν) (sortedNames_congr fun x => exists_congr fun l => and_congr_left fun _ => ?_)
    exact (hheads.append hbody).mem_iff
  rw [Rule.Proves, Rule.Proves, hhead, hbinding]
  refine and_congr_right fun _ => ⟨fun hx => Proof.same_trans hx ?_, fun hx => Proof.same_trans hx ?_⟩
  · exact Proof.same_iff.2 ⟨rfl, h⟩
  · exact Proof.same_iff.2 ⟨rfl, Rule.same_symm h⟩

theorem Rule.same_of_proves (h : r.Proves ν x) (h' : r'.Proves ν' x) : r.same r' = true :=
  (Proof.same_iff.1 (Proof.same_trans (Proof.same_symm h.2) h'.2)).2

namespace MaterializedViewTheory

variable {th th' : MaterializedViewTheory V} {theories : Theories V}
  {setOrder : List (TopDownResult V) → List (TopDownResult V)}

/-- A literal about a row says that it is there, or that it is not. -/
theorem holds_row (hl : l.Local reg) (hrow : l.IsRow reg) :
    th.Holds reg ν l ↔ (l.negated = false ↔ th.database.Present (l.keyAt ν)) := by
  have hname : l.tablename none = l.table.table := by
    rw [Literal.tablename, Tablename.name, hl.service]
    rfl
  have hmeaning : l.meaning reg evaluationFollows th.name ν = .row ⟨th.name, l.table.table, l.values ν⟩ := by
    rw [Literal.meaning, hname, if_neg hrow.notTrue, if_neg hrow.notFalse, if_neg (by simp [hrow.notBuiltin]),
      Tablename.resolve, hl.service]
  rw [Holds, Literal.Holds, hmeaning]
  have htrue : (Meaning.row ⟨th.name, l.table.table, l.values ν⟩ : Meaning V).IsTrue
      (th.database.rows th.name) ↔ th.database.Present (l.keyAt ν) := by
    simp [Meaning.IsTrue, Database.rows, Literal.keyAt]
  rw [htrue]
  cases l.negated <;> simp

/-- Whether a literal is true depends on its tuple only. -/
theorem holds_congr (hl : l.Local reg) (hname : th'.name = th.name)
    (h : l.IsRow reg → (th'.database.Present (l.keyAt ν) ↔ th.database.Present (l.keyAt ν))) :
    th'.Holds reg ν l ↔ th.Holds reg ν l := by
  by_cases hrow : l.IsRow reg
  · rw [holds_row hl hrow, holds_row hl hrow, h hrow]
  · have htable : l.tablename none = l.table.table := by
      rw [Literal.tablename, Tablename.name, hl.service]
      rfl
    have hsettled : ∃ p, l.meaning reg evaluationFollows th.name ν = .settled p := by
      rw [Literal.meaning]
      split_ifs with h₁ h₂ h₃
      · exact ⟨_, rfl⟩
      · exact ⟨_, rfl⟩
      · exact ⟨_, rfl⟩
      · exact absurd ⟨htable ▸ h₁, htable ▸ h₂, by simpa using h₃⟩ hrow
    obtain ⟨p, hp⟩ := hsettled
    rw [Holds, Holds, Literal.Holds, Literal.Holds, hname, hp]
    rfl

theorem holds_values (h : l.values ν = l.values ν') : th.Holds reg ν l ↔ th.Holds reg ν' l :=
  Congress.holds_congr h

/-- The instances of the stored rules that are true in the database. -/
def instances (reg : BuiltinRegistry V) (th : MaterializedViewTheory V) :
    Set ((String × List V) × Proof V) :=
  {x | ∃ r ∈ th.deltaRules.originals, ∃ ν, (∀ l ∈ r.body, th.Holds reg ν l) ∧ r.Proves ν x}

/-- A stored rule is known from an instance. -/
theorem eq_of_proves (hr : r ∈ th.deltaRules.originals) (hr' : r' ∈ th.deltaRules.originals)
    (h : r.Proves ν x) (h' : r'.Proves ν' x) : r = r' := by
  by_contra hne
  have : Std.Symm fun a b : Rule V => a.same b = false := ⟨fun a b hab => by
    rw [Rule.same_comm]
    exact hab⟩
  have := th.deltaRules.distinct.forall hr hr' hne
  rw [Rule.same_of_proves h h'] at this
  cases this

theorem mem_instances (hr : r ∈ th.deltaRules.originals) (h : r.Proves ν x) :
    x ∈ th.instances reg ↔ ∀ l ∈ r.body, th.Holds reg ν l := by
  refine ⟨fun ⟨r', hr', ν', hbody, h'⟩ l hl => ?_, fun hbody => ⟨r, hr, ν, hbody, h⟩⟩
  obtain rfl := eq_of_proves hr hr' h h'
  have hbinding : r.binding ν = r.binding ν' :=
    (Proof.same_iff.1 (Proof.same_trans (Proof.same_symm h.2) h'.2)).1
  rw [holds_values (Rule.binding_inj hbinding (List.mem_append_right _ hl))]
  exact hbody l hl

/-- The events that can be in the queue: of rules that define tables in `D`, of tuples of other tables
without proofs, and of tuples of these tables with some. -/
inductive Fits (reg : BuiltinRegistry V) (fuel : ℕ) (D : Set String) : ProofEvent V → Prop
  | rule {rule r : Rule V} {insert : Bool} (reordered : reorderForSafety reg rule = some r)
      (viewable : r.Viewable reg fuel) (head : r.head.table.table ∈ D) :
      Fits reg fuel D ⟨.rule rule, insert, []⟩
  | tuple {l : Literal V} {insert : Bool} {proofs : ProofCollection V} (tuple : l.IsTuple)
      (named : IsTable reg l.table.table)
      (derived : proofs = [] ↔ l.table.table ∉ D) : Fits reg fuel D ⟨.atom l, insert, proofs⟩

/-- Once the waiting events are applied, the database holds the proofs that the rules give. -/
structure Balanced (reg : BuiltinRegistry V) (fuel : ℕ) (D : Set String) (th : MaterializedViewTheory V) :
    Prop where
  tracks : th.deltaRules.Tracks reg fuel D
  sorted : th.database.Sorted (· ∈ D)
  tables : ∀ table ∈ th.database.data, IsTable reg table
  fits : ∀ e ∈ th.queue, Fits reg fuel D e
  balance : applyAll th.database.held (th.queue.map (·.change)) = th.instances reg
  uniform : Uniform th.database.held (th.queue.map (·.change))

/-- An event for a rule, or for a tuple that a rule mentions, brings about others for the rule's head. -/
inductive Brought (reg : BuiltinRegistry V) (th : MaterializedViewTheory V) (e n : ProofEvent V) : Rule V → Prop
  | rule {rule r : Rule V} (formula : e.formula = .rule rule) (reordered : reorderForSafety reg rule = some r)
      (sign : n.insert = e.insert) : Brought reg th e n r
  | tuple {l t : Literal V} {r : Rule V} (formula : e.formula = .atom l) (stored : r ∈ th.deltaRules.originals)
      (mentioned : t ∈ r.body) (builtin : t.isBuiltin reg true = false) (table : t.table.table = l.table.table)
      (sign : n.insert = (e.insert != t.negated)) : Brought reg th e n r

/-- The events that a step puts in the queue. -/
structure IsNew (reg : BuiltinRegistry V) (th : MaterializedViewTheory V) (e n : ProofEvent V) (r : Rule V) :
    Prop where
  brought : Brought reg th e n r
  tuple : ∃ l, n.formula = .atom l ∧ l.IsTuple ∧ l.table.table = r.head.table.table ∧ n.proofs ≠ []
  proves : ∀ x ∈ n.change.on, ∃ ν, r.Proves ν x

/-- What a step does. -/
structure Stepped (reg : BuiltinRegistry V) (th : MaterializedViewTheory V) (e : ProofEvent V)
    (q : List (ProofEvent V)) (th' : MaterializedViewTheory V) : Prop where
  name : th'.name = th.name
  queue : ∃ new, th'.queue = q ++ new ∧ ∀ n ∈ new, ∃ r, IsNew reg th e n r
  originals : ∀ r ∈ th'.deltaRules.originals, r ∈ th.deltaRules.originals
    ∨ ∃ rule, e.formula = .rule rule ∧ reorderForSafety reg rule = some r
  held : ∀ x ∈ th'.database.held, x ∈ th.database.held ∨ x ∈ e.change.on

theorem change_rule (h : e.formula = .rule rule) : e.change.on = ∅ := by
  ext x
  simp [ProofEvent.change, h]

/-- Changes of instances one of which is new or gone. -/
theorem applyAll_instances {new : List (ProofEvent V)} {T T' : Set ((String × List V) × Proof V)}
    (hagree : ∀ e ∈ new, ∀ x ∈ e.change.on, (e.insert = true ↔ x ∈ T'))
    (hother : ∀ x, (∀ e ∈ new, x ∉ e.change.on) → (x ∈ T ↔ x ∈ T')) :
    applyAll T (new.map (·.change)) = T' := by
  ext x
  by_cases hx : ∃ e ∈ new, x ∈ e.change.on
  · obtain ⟨e, he, hx⟩ := hx
    refine mem_applyAll_of_agree (fun c hc y hy => ?_) ⟨_, List.mem_map_of_mem he, hx⟩
    obtain ⟨e', he', rfl⟩ := List.mem_map.1 hc
    exact hagree e' he' y hy
  · simp only [not_exists, not_and] at hx
    rw [mem_applyAll_of_untouched, hother x hx]
    intro c hc
    obtain ⟨e', he', rfl⟩ := List.mem_map.1 hc
    exact hx e' he'

/-- What an event leaves in front of those that it brings about. -/
theorem Balanced.after (h : Balanced reg fuel D th) (hq : th.queue = e :: q) :
    applyAll (e.change.apply th.database.held) (q.map (·.change)) = th.instances reg
      ∧ Uniform (e.change.apply th.database.held) (q.map (·.change)) ∧ e.change.Uniform th.database.held := by
  have hb := h.balance
  have hu := h.uniform
  rw [hq, List.map_cons] at hb hu
  exact ⟨hb, hu.2, hu.1⟩

/-! ## Events for rules -/

section Rules

variable {deltaRules : DeltaRuleTheory V} {new : List (ProofEvent V)}

theorem instances_insert (hdb : th'.database = th.database) (hname : th'.name = th.name)
    (horig : th'.deltaRules.originals = th.deltaRules.originals ++ [r]) : x ∈ th'.instances reg
      ↔ x ∈ th.instances reg ∨ ∃ ν, (∀ l ∈ r.body, th.Holds reg ν l) ∧ r.Proves ν x := by
  have hholds : ∀ ν l, th'.Holds reg ν l ↔ th.Holds reg ν l := fun ν l => by
    rw [Holds, Holds, hdb, hname]
  simp only [instances, Set.mem_ofPred_eq, horig, hholds, List.mem_append, List.mem_singleton, or_and_right,
    exists_or, exists_eq_left]

theorem instances_delete (h : th.deltaRules.Tracks reg fuel D) (hr : r.Viewable reg fuel)
    (hdb : th'.database = th.database) (hname : th'.name = th.name)
    (horig : th'.deltaRules.originals = th.deltaRules.originals.filter fun r' => !r'.same r) :
    x ∈ th'.instances reg
      ↔ x ∈ th.instances reg ∧ ¬ ∃ ν, (∀ l ∈ r.body, th.Holds reg ν l) ∧ r.Proves ν x := by
  have hholds : ∀ ν l, th'.Holds reg ν l ↔ th.Holds reg ν l := fun ν l => by
    rw [Holds, Holds, hdb, hname]
  simp only [instances, Set.mem_ofPred_eq, horig, hholds, List.mem_filter, Bool.not_eq_true']
  constructor
  · rintro ⟨r', ⟨hr', hne⟩, ν, hbody, hp⟩
    refine ⟨⟨r', hr', ν, hbody, hp⟩, fun ⟨ν', _, hp'⟩ => ?_⟩
    rw [Rule.same_of_proves hp hp'] at hne
    cases hne
  · rintro ⟨⟨r', hr', ν, hbody, hp⟩, hnot⟩
    refine ⟨r', ⟨hr', Bool.eq_false_iff.2 fun hsame => hnot ⟨ν, fun l hl => ?_, ?_⟩⟩, ν, hbody, hp⟩
    · exact hbody l ((Rule.same_iff.1 hsame).2.mem_iff.2 hl)
    · exact (Rule.proves_congr (h.viewable r' hr') hr hsame).1 hp

/-- An event for a rule that the theory has, or has not, comes to nothing. -/
theorem Balanced.noop (h : Balanced reg fuel D th) (hq : th.queue = e :: q) (hf : e.formula = .rule rule) :
    Balanced reg fuel D { th with queue := q } := by
  obtain ⟨hb, hu, -⟩ := h.after hq
  rw [Change.apply_empty (change_rule hf)] at hb hu
  exact ⟨h.tracks, h.sorted, h.tables, fun e' he' => h.fits e' (hq ▸ List.mem_cons_of_mem _ he'), hb, hu⟩

/-- What is brought about for a rule can be in the queue. -/
theorem Generates.fits {table : String} {X : Set ((String × List V) × Proof V)}
    (hg : Generates new insert table X) (ht : table ∈ D) (hnamed : IsTable reg table) :
    ∀ e ∈ new, Fits reg fuel D e := by
  intro e he
  obtain ⟨l, hl, htuple, htable, hne⟩ := hg.tuple e he
  obtain ⟨formula, ins, proofs⟩ := e
  subst hl
  refine .tuple htuple (by rwa [htable]) (iff_of_false hne (not_not.2 ?_))
  rwa [htable]

/-- An event for a rule that changes the rules. -/
theorem Balanced.ruleChanged (h : Balanced reg fuel D th) (hq : th.queue = e :: q)
    (hf : e.formula = .rule rule) (hr : r.Viewable reg fuel) (hD : r.head.table.table ∈ D)
    (hcontains : e.insert ≠ th.deltaRules.contains rule) (hsame : rule.same r = true)
    (htracks : deltaRules.Tracks reg fuel D)
    (horig : deltaRules.originals = if e.insert then th.deltaRules.originals ++ [r]
      else th.deltaRules.originals.filter fun r' => !r'.same r)
    (hg : Generates new e.insert r.head.table.table
      {x | ∃ ν, (∀ l ∈ r.body, th.Holds reg ν l) ∧ r.Proves ν x}) :
    Balanced reg fuel D { th with queue := q ++ new, deltaRules := deltaRules } := by
  obtain ⟨hb, hu, -⟩ := h.after hq
  rw [Change.apply_empty (change_rule hf)] at hb hu
  refine ⟨htracks, h.sorted, h.tables, fun e' he' => ?_, ?_, ?_⟩
  · rcases List.mem_append.1 he' with he' | he'
    · exact h.fits e' (hq ▸ List.mem_cons_of_mem _ he')
    · exact Generates.fits hg hD hr.named e' he'
  · rw [List.map_append, applyAll_append, hb]
    have hmem : ∀ y, y ∈ instances reg { th with queue := q ++ new, deltaRules := deltaRules }
        ↔ if e.insert then y ∈ th.instances reg ∨ ∃ ν, (∀ l ∈ r.body, th.Holds reg ν l) ∧ r.Proves ν y
          else y ∈ th.instances reg ∧ ¬ ∃ ν, (∀ l ∈ r.body, th.Holds reg ν l) ∧ r.Proves ν y := fun y => by
      split_ifs at horig ⊢ with hins
      · exact instances_insert rfl rfl horig
      · exact instances_delete h.tracks hr rfl rfl horig
    refine applyAll_instances (fun n hn y hy => ?_) fun y hy => ?_
    · have hX := (hg.cover y).2 ⟨n, hn, hy⟩
      rw [hg.insert n hn, hmem]
      split_ifs with hins
      · exact iff_of_true hins (.inr hX)
      · exact iff_of_false hins fun h => h.2 hX
    · have hX : ¬ ∃ ν, (∀ l ∈ r.body, th.Holds reg ν l) ∧ r.Proves ν y := fun hX => by
        obtain ⟨n, hn, hy'⟩ := (hg.cover y).1 hX
        exact hy n hn hy'
      rw [hmem]
      split_ifs
      · exact ⟨.inl, fun h => h.resolve_right hX⟩
      · exact ⟨fun h => ⟨h, hX⟩, And.left⟩
  · rw [List.map_append, uniform_append, hb]
    refine ⟨hu, uniform_of_disjoint (List.pairwise_map.2 hg.disjoint) fun c hc hdel => .inl fun y hy => ?_⟩
    obtain ⟨n, hn, rfl⟩ := List.mem_map.1 hc
    have hins : e.insert = false := (hg.insert n hn).symm.trans hdel
    obtain ⟨ν, hbody, hp⟩ := (hg.cover y).2 ⟨n, hn, hy⟩
    have hmem : th.deltaRules.contains rule = true := by simpa [hins] using hcontains
    obtain ⟨r', hr', hsame'⟩ := List.any_eq_true.1 hmem
    have hrr : r'.same r = true := Rule.same_trans hsame' hsame
    refine ⟨r', hr', ν, fun l hl => hbody l ((Rule.same_iff.1 hrr).2.mem_iff.1 hl), ?_⟩
    exact (Rule.proves_congr (h.tracks.viewable r' hr') hr hrr).2 hp

end Rules

/-! ## Events for tuples -/

section Tuples

variable {database : Database V} {new : List (ProofEvent V)}

/-- The instances of a delta rule's rule in which the trigger is about the tuple, and the rest is true. -/
def matched (reg : BuiltinRegistry V) (th : MaterializedViewTheory V) (l : Literal V) (d : DeltaRule V) :
    Set ((String × List V) × Proof V) :=
  {x | ∃ ν, d.trigger.values ν = l.argumentNames ∧ (∀ l ∈ d.body, th.Holds reg ν l) ∧ d.original.Proves ν x}

/-- What delta rules make of an event for a tuple. -/
structure Spreads (reg : BuiltinRegistry V) (th : MaterializedViewTheory V) (l : Literal V) (insert : Bool)
    (ds : List (DeltaRule V)) (new : List (ProofEvent V)) : Prop where
  source : ∀ n ∈ new, ∃ d ∈ ds, n.insert = (insert != d.trigger.negated)
    ∧ (∃ l, n.formula = .atom l ∧ l.IsTuple ∧ l.table.table = d.original.head.table.table ∧ n.proofs ≠ [])
    ∧ n.change.on ⊆ th.matched reg l d
  cover : ∀ d ∈ ds, ∀ x ∈ th.matched reg l d, ∃ n ∈ new, x ∈ n.change.on
  disjoint : ds.Pairwise (fun d d' => Disjoint (th.matched reg l d) (th.matched reg l d')) →
    new.Pairwise fun n n' => Disjoint n.change.on n'.change.on

theorem deltaRule_original (h : d ∈ r.deltaRules reg) : d.original = r := by
  unfold Rule.deltaRules at h
  obtain ⟨⟨l, i⟩, -, h⟩ := List.mem_filterMap.1 h
  dsimp only at h
  split_ifs at h
  cases h
  rfl

/-- The loop over the delta rules of a table. -/
theorem propagate_spec (horder : ∀ rs, (setOrder rs).Perm rs) (htuple : l.IsTuple) :
    ∀ {ds : List (DeltaRule V)} {th : MaterializedViewTheory V},
    (∀ d ∈ ds, d.trigger.table.table = l.table.table ∧ d.original.Viewable reg fuel
      ∧ d ∈ d.original.deltaRules reg) →
    ∃ new, (propagate reg theories setOrder fuel l insert ds).run th
        = (.ok (), { th with queue := th.queue ++ new }) ∧ Spreads reg th l insert ds new
  | [], th, _ => ⟨[], by rw [List.append_nil]; rfl, by simp, by simp, fun _ => .nil⟩
  | d :: ds, th, h => by
    obtain ⟨⟨htable, hr, hd⟩, hds⟩ := List.forall_mem_cons.1 h
    obtain ⟨new, hok, hg⟩ : ∃ new, propagateRule reg theories setOrder fuel th l insert d = .ok new ∧ _ :=
      propagateRule_spec horder hr hd htuple htable
    let th₁ : MaterializedViewTheory V := { th with queue := th.queue ++ new }
    obtain ⟨rest, hrest, hs⟩ : ∃ rest, (propagate reg theories setOrder fuel l insert ds).run th₁
        = (.ok (), { th₁ with queue := th₁.queue ++ rest }) ∧ Spreads reg th₁ l insert ds rest :=
      propagate_spec horder htuple hds
    refine ⟨new ++ rest, ?_, ⟨fun n hn => ?_, fun d' hd' x hx => ?_, fun hpw => ?_⟩⟩
    · unfold propagate
      rw [run_get_bind, hok, run_lift_ok_bind]
      exact hrest.trans (by rw [List.append_assoc])
    · rcases List.mem_append.1 hn with hn | hn
      · exact ⟨d, List.mem_cons_self, hg.insert n hn, hg.tuple n hn, fun x hx => (hg.cover x).2 ⟨n, hn, hx⟩⟩
      · obtain ⟨d', hd', h⟩ := hs.source n hn
        exact ⟨d', List.mem_cons_of_mem _ hd', h⟩
    · rcases List.mem_cons.1 hd' with rfl | hd'
      · obtain ⟨n, hn, hx⟩ := (hg.cover x).1 hx
        exact ⟨n, List.mem_append_left _ hn, hx⟩
      · obtain ⟨n, hn, hx⟩ := hs.cover d' hd' x hx
        exact ⟨n, List.mem_append_right _ hn, hx⟩
    · obtain ⟨hpwd, hpw⟩ := List.pairwise_cons.1 hpw
      refine List.pairwise_append.2 ⟨hg.disjoint, hs.disjoint hpw, fun n hn n' hn' => ?_⟩
      obtain ⟨d', hd', -, -, hsub⟩ := hs.source n' hn'
      exact (hpwd d' hd').mono (fun x hx => (hg.cover x).2 ⟨n, hn, hx⟩) hsub

theorem mem_deltaRules_body (hr : r.Viewable reg fuel) (hd : d ∈ r.deltaRules reg) :
    d.trigger ∈ r.body ∧ d.trigger.isBuiltin reg true = false ∧ d.body.Perm (r.body.erase d.trigger) := by
  obtain ⟨t, ht, hb, rfl⟩ := (Rule.mem_deltaRules hr.nodup).1 hd
  exact ⟨ht, hb, DeltaRule.create_body_perm ..⟩

/-- Two theories that differ in one tuple only. -/
structure DifferAt (k : String × List V) (th th' : MaterializedViewTheory V) : Prop where
  name : th'.name = th.name
  rules : th'.deltaRules = th.deltaRules
  other : ∀ k', k' ≠ k → (th'.database.Present k' ↔ th.database.Present k')

theorem DifferAt.symm {k : String × List V} (h : DifferAt k th th') : DifferAt k th' th :=
  ⟨h.name.symm, h.rules.symm, fun k' hk => (h.other k' hk).symm⟩

theorem DifferAt.holds (h : DifferAt l.key th th') (hl : t.Local reg)
    (hk : t.IsRow reg → t.keyAt ν ≠ l.key) : th'.Holds reg ν t ↔ th.Holds reg ν t :=
  holds_congr hl h.name fun hrow => h.other _ (hk hrow)

/-- Where the trigger is about the tuple, no other literal of the body is. -/
theorem keyAt_ne (hr : r.Viewable reg fuel) (ht : t ∈ r.body) (hl : l' ∈ r.body.erase t)
    (hkey : t.keyAt ν = l.key) : l'.keyAt ν ≠ l.key := by
  intro hkey'
  obtain ⟨htable, hvalues⟩ := Prod.mk.inj (hkey'.trans hkey.symm)
  have hlength := congrArg List.length hvalues
  rw [Literal.values, Literal.values, List.length_map, List.length_map] at hlength
  exact hr.nodup.not_mem_erase (hr.eq_of_table (List.mem_of_mem_erase hl) ht htable hlength ▸ hl)

theorem matched_congr (h : DifferAt l.key th th') (ht : th.deltaRules.Tracks reg fuel D)
    (hd : d ∈ th.deltaRules.rulesWithTrigger l.table.table) : th'.matched reg l d = th.matched reg l d := by
  obtain ⟨htable, r, hr, hd⟩ := ht.sound _ d hd
  have hv := ht.viewable r hr
  obtain ⟨htr, -, hperm⟩ := mem_deltaRules_body hv hd
  ext x
  refine exists_congr fun ν => and_congr_right fun hν => and_congr_left fun _ => ?_
  refine forall₂_congr fun l' hl' => h.holds (hv.body l' ?_) fun _ => ?_
  · exact List.mem_of_mem_erase (hperm.mem_iff.1 hl')
  · exact keyAt_ne hv htr (hperm.mem_iff.1 hl') (Prod.ext htable hν)

/-- Whether the tuple is there decides what the trigger's rule gives. -/
theorem mem_instances_of_matched (ht : th.deltaRules.Tracks reg fuel D)
    (hnamed : IsTable reg l.table.table)
    (hd : d ∈ th.deltaRules.rulesWithTrigger l.table.table) (hx : x ∈ th.matched reg l d) :
    x ∈ th.instances reg ↔ (d.trigger.negated = false ↔ th.database.Present l.key) := by
  obtain ⟨htable, r, hr, hd⟩ := ht.sound _ d hd
  have hv := ht.viewable r hr
  obtain ⟨htr, hbuiltin, hperm⟩ := mem_deltaRules_body hv hd
  obtain ⟨ν, hν, hbody, hp⟩ := hx
  rw [deltaRule_original hd] at hp
  have hrow : d.trigger.IsRow reg := Literal.isRow_of_table (htable ▸ hnamed)
  have hkey : d.trigger.keyAt ν = l.key := Prod.ext htable hν
  rw [mem_instances hr hp, ← hkey, ← holds_row (hv.body _ htr) hrow]
  refine ⟨fun h => h _ htr, fun h l' hl' => ?_⟩
  rcases List.mem_cons.1 ((List.perm_cons_erase htr).mem_iff.1 hl') with rfl | hl'
  · exact h
  · exact hbody l' (hperm.mem_iff.2 hl')

theorem DifferAt.mem_instances (h : DifferAt l.key th th') (ht : th.deltaRules.Tracks reg fuel D)
    (hnamed : IsTable reg l.table.table)
    (hd : d ∈ th.deltaRules.rulesWithTrigger l.table.table) (hx : x ∈ th.matched reg l d) :
    x ∈ th'.instances reg ↔ (d.trigger.negated = false ↔ th'.database.Present l.key) := by
  rw [← matched_congr h ht hd] at hx
  exact mem_instances_of_matched (h.rules ▸ ht) hnamed (h.rules ▸ hd) hx

/-- An instance that says nothing of the tuple remains. -/
theorem instances_or_matched (h : DifferAt l.key th th') (ht : th.deltaRules.Tracks reg fuel D)
    (hx : x ∈ th.instances reg) : x ∈ th'.instances reg
      ∨ ∃ d ∈ th.deltaRules.rulesWithTrigger l.table.table, x ∈ th.matched reg l d := by
  obtain ⟨r, hr, ν, hbody, hp⟩ := hx
  have hv := ht.viewable r hr
  by_cases hmentions : ∃ t ∈ r.body, t.IsRow reg ∧ t.keyAt ν = l.key
  · obtain ⟨t, htr, hrow, hkey⟩ := hmentions
    have hd : DeltaRule.create reg t r.head (r.body.erase t) r ∈ r.deltaRules reg :=
      (Rule.mem_deltaRules hv.nodup).2 ⟨t, htr, hrow.notBuiltin, rfl⟩
    obtain ⟨htable, hvalues⟩ := Prod.mk.inj hkey
    have hmem := ht.complete r hr _ hd
    rw [show DeltaRule.trigger _ = t from rfl, htable] at hmem
    refine .inr ⟨_, hmem, ν, hvalues, fun l' hl' => hbody l' ?_, hp⟩
    exact List.mem_of_mem_erase ((DeltaRule.create_body_perm ..).mem_iff.1 hl')
  · refine .inl ⟨r, h.rules ▸ hr, ν, fun l' hl' => ?_, hp⟩
    exact (h.holds (hv.body l' hl') fun hrow hkey => hmentions ⟨l', hl', hrow, hkey⟩).2 (hbody l' hl')

/-- No instance comes from two delta rules for a table. -/
theorem matched_disjoint (ht : th.deltaRules.Tracks reg fuel D) (table : String) (l : Literal V) :
    (th.deltaRules.rulesWithTrigger table).Pairwise
      fun d d' => Disjoint (th.matched reg l d) (th.matched reg l d') := by
  refine (ht.distinct table).imp_of_mem fun {d d'} hd hd' hne => Set.disjoint_left.2 fun x hx hx' => ?_
  obtain ⟨htable, r, hr, hd⟩ := ht.sound _ d hd
  obtain ⟨htable', r', hr', hd'⟩ := ht.sound _ d' hd'
  obtain ⟨ν, hν, -, hp⟩ := hx
  obtain ⟨ν', hν', -, hp'⟩ := hx'
  rw [deltaRule_original hd] at hp
  rw [deltaRule_original hd'] at hp'
  obtain rfl := eq_of_proves hr hr' hp hp'
  have hv := ht.viewable r hr
  have hlength := congrArg List.length (hν.trans hν'.symm)
  rw [Literal.values, Literal.values, List.length_map, List.length_map] at hlength
  obtain ⟨t, htr, -, rfl⟩ := (Rule.mem_deltaRules hv.nodup).1 hd
  obtain ⟨t', htr', -, rfl⟩ := (Rule.mem_deltaRules hv.nodup).1 hd'
  obtain rfl : t = t' := hv.eq_of_table htr htr' (htable.trans htable'.symm) hlength
  rw [DeltaRule.same_eq_true.2 ⟨rfl, rfl, rfl⟩] at hne
  cases hne

/-- After an event that deletes all proofs of its tuple, if it deletes any, the tuple is there if it is an
insertion. -/
theorem present_modified {db db' : Database V} (hm : db.Modified e l db') (hf : e.formula = .atom l)
    (hs : db.Sorted (· ∈ D)) (hfits : e.proofs = [] ↔ l.table.table ∉ D) (hex : e.Exhaustive db) :
    db'.Present l.key ↔ e.insert = true := by
  refine ⟨fun hp => ?_, hm.inserted⟩
  by_contra hins
  rw [Bool.not_eq_true] at hins
  obtain ⟨ps, hps⟩ := Option.ne_none_iff_exists'.1 (hm.deleted hins hp)
  by_cases hD : l.table.table ∈ D
  · obtain ⟨ps', hps'⟩ := Option.ne_none_iff_exists'.1 hp
    have hne : ps' ≠ [] := fun hnil => (hm.sorted _ hs hfits _ _ ps' hps').1 hnil hD
    obtain ⟨p, rest, rfl⟩ := List.exists_cons_of_ne_nil hne
    have hheld : (l.key, p) ∈ db'.held := ⟨_, hps', ProofCollection.has_of_mem List.mem_cons_self⟩
    rw [hm.held, Change.mem_apply] at hheld
    rcases hheld with ⟨-, h⟩ | ⟨hnot, hheld⟩
    · exact absurd (hins.symm.trans h) Bool.false_ne_true
    · exact hnot ((Database.mem_change_on hf).2 ⟨rfl, hex hins l hf p hheld⟩)
  · have hnil : ps = [] := (hs _ _ ps hps).2 hD
    exact hm.base hins (hnil ▸ hps) (hfits.2 hD) hp

/-- An event for a tuple, once it has been propagated and applied. -/
theorem Balanced.tupleChanged (h : Balanced reg fuel D th) (hq : th.queue = e :: q) (hf : e.formula = .atom l)
    (hex : e.Exhaustive th.database) (hm : th.database.Modified e l database)
    (htables : ∀ table ∈ database.data, table ∈ th.database.data ∨ table = l.table.table)
    (hs : Spreads reg th l e.insert (th.deltaRules.rulesWithTrigger l.table.table) new) :
    Balanced reg fuel D { th with queue := q ++ new, database := database }
      ∧ ∀ n ∈ new, ∃ r, IsNew reg th e n r := by
  obtain ⟨hb, hu, -⟩ := h.after hq
  obtain ⟨hnamed, hfits⟩ : IsTable reg l.table.table
      ∧ (e.proofs = [] ↔ l.table.table ∉ D) := by
    have he := h.fits e (hq ▸ List.mem_cons_self)
    cases he with
    | rule => cases hf
    | tuple _ hnamed hderived =>
      cases hf
      exact ⟨hnamed, hderived⟩
  have hpresent := present_modified hm hf h.sorted hfits hex
  have hdiffer : DifferAt l.key th { th with queue := q ++ new, database := database } := ⟨rfl, rfl, hm.other⟩
  have hafter : ∀ d ∈ th.deltaRules.rulesWithTrigger l.table.table, ∀ x ∈ th.matched reg l d,
      x ∈ instances reg { th with queue := q ++ new, database := database }
        ↔ (e.insert != d.trigger.negated) = true := fun d hd x hx => by
    rw [hdiffer.mem_instances h.tracks hnamed hd hx, hpresent]
    cases d.trigger.negated <;> simp
  have hnew : ∀ n ∈ new, ∃ r, IsNew reg th e n r := fun n hn => by
    obtain ⟨d, hd, hins, ⟨a, ha, htuple, htable, hne⟩, hon⟩ := hs.source n hn
    obtain ⟨htrigger, r, hr, hd⟩ := h.tracks.sound _ d hd
    obtain ⟨htr, hbuiltin, -⟩ := mem_deltaRules_body (h.tracks.viewable r hr) hd
    have horiginal := deltaRule_original hd
    refine ⟨r, .tuple hf hr htr hbuiltin htrigger hins, ⟨a, ha, htuple, horiginal ▸ htable, hne⟩, fun x hx => ?_⟩
    obtain ⟨ν, -, -, hp⟩ := hon hx
    exact ⟨ν, horiginal ▸ hp⟩
  refine ⟨⟨h.tracks, hm.sorted _ h.sorted hfits, fun t ht => ?_, fun n hn => ?_, ?_, ?_⟩, hnew⟩
  · exact (htables t ht).elim (h.tables t) fun ht => ht ▸ hnamed
  · rcases List.mem_append.1 hn with hn | hn
    · exact h.fits n (hq ▸ List.mem_cons_of_mem _ hn)
    · obtain ⟨d, hd, -, ⟨a, ha, htuple, htable, hne⟩, -⟩ := hs.source n hn
      obtain ⟨-, r, hr, hd⟩ := h.tracks.sound _ d hd
      rw [deltaRule_original hd] at htable
      obtain ⟨formula, ins, proofs⟩ := n
      subst ha
      refine .tuple htuple (htable ▸ (h.tracks.viewable r hr).named) (iff_of_false hne (not_not.2 ?_))
      exact htable ▸ h.tracks.heads r hr
  · rw [List.map_append, applyAll_append, hm.held, hb]
    refine applyAll_instances (fun n hn x hx => ?_) fun x hx => ?_
    · obtain ⟨d, hd, hins, -, hon⟩ := hs.source n hn
      rw [hins, hafter d hd x (hon hx)]
    · have huntouched : ∀ d ∈ th.deltaRules.rulesWithTrigger l.table.table, x ∉ th.matched reg l d :=
        fun d hd hmem => by
          obtain ⟨n, hn, hxn⟩ := hs.cover d hd x hmem
          exact hx n hn hxn
      constructor
      · intro hmem
        refine (instances_or_matched hdiffer h.tracks hmem).resolve_right ?_
        rintro ⟨d, hd, hmem⟩
        exact huntouched d hd hmem
      · intro hmem
        refine (instances_or_matched hdiffer.symm h.tracks hmem).resolve_right ?_
        rintro ⟨d, hd, hmem⟩
        rw [matched_congr hdiffer h.tracks hd] at hmem
        exact huntouched d hd hmem
  · rw [List.map_append, uniform_append, hm.held, hb]
    refine ⟨hu, uniform_of_disjoint (List.pairwise_map.2 (hs.disjoint (matched_disjoint h.tracks _ l)))
      fun c hc _ => ?_⟩
    obtain ⟨n, hn, rfl⟩ := List.mem_map.1 hc
    obtain ⟨d, hd, -, -, hon⟩ := hs.source n hn
    have hbefore : ∀ x ∈ n.change.on,
        x ∈ th.instances reg ↔ (d.trigger.negated = false ↔ th.database.Present l.key) := fun x hx =>
      mem_instances_of_matched h.tracks hnamed hd (hon hx)
    by_cases hp : d.trigger.negated = false ↔ th.database.Present l.key
    · exact .inl fun x hx => (hbefore x hx).2 hp
    · exact .inr (Set.disjoint_left.2 fun x hx hmem => hp ((hbefore x hx).1 hmem))

end Tuples

/-! ## Any event -/

/-- An event keeps the balance, if it is no deletion that leaves its tuple with other proofs. -/
theorem Balanced.step (horder : ∀ rs, (setOrder rs).Perm rs) (h : Balanced reg fuel D th)
    (hq : th.queue = e :: q) (hex : e.Exhaustive th.database) :
    ∃ changes th', (processEvent reg theories setOrder fuel e).run { th with queue := q } = (.ok changes, th')
      ∧ Balanced reg fuel D th' ∧ Stepped reg th e q th' := by
  have hfits := h.fits e (hq ▸ List.mem_cons_self)
  unfold processEvent
  rw [run_get_bind]
  cases hfits with
  | @rule rule r insert hreordered hviewable hhead =>
    obtain ⟨o, ho, hchanged⟩ := h.tracks.modify hreordered hviewable hhead insert
    simp only
    rw [ho, run_lift_ok_bind]
    cases hchanged with
    | noop hnoop =>
      refine ⟨[], _, rfl, h.noop hq rfl, rfl, ⟨[], (List.append_nil _).symm, by simp⟩, fun _ h => .inl h, ?_⟩
      exact fun x hx => .inl hx
    | @changed deltaRules hne htracks horiginals =>
      obtain ⟨bindings, hok, hg⟩ : ∃ bindings, evaluation reg theories setOrder fuel
          (toTopDown { th with queue := q }) (sortedNames (r.heads ++ r.body)) r.body [] 1 = .ok bindings ∧ _ :=
        ruleEvents_spec horder hviewable
      refine ⟨[⟨.rule rule, insert, []⟩],
        { th with queue := q ++ processNewBindings bindings r.head insert r, deltaRules := deltaRules }, ?_,
        h.ruleChanged hq rfl hviewable hhead hne (reorderForSafety_same hreordered) htracks
          horiginals hg, rfl, ⟨_, rfl, fun n hn => ⟨r, .rule rfl hreordered (hg.insert n hn), hg.tuple n hn,
          fun x hx => ?_⟩⟩, fun r' hr' => ?_, fun x hx => .inl hx⟩
      · simp only [run_modify_bind]
        rw [hok]
        rfl
      · obtain ⟨ν, -, hp⟩ := (hg.cover x).2 ⟨n, hn, hx⟩
        exact ⟨ν, hp⟩
      · rw [show deltaRules.originals = _ from horiginals] at hr'
        split_ifs at hr'
        · rcases List.mem_append.1 hr' with hr' | hr'
          · exact .inl hr'
          · exact .inr ⟨rule, rfl, (List.mem_singleton.1 hr') ▸ hreordered⟩
        · exact .inl (List.mem_of_mem_filter hr')
  | @tuple l insert proofs htuple hnamed hderived =>
    let th₁ : MaterializedViewTheory V := { th with queue := q }
    obtain ⟨new, hok, hs⟩ : ∃ new, (propagate reg theories setOrder fuel l insert
        (th.deltaRules.rulesWithTrigger l.table.table)).run th₁
          = (.ok (), { th₁ with queue := th₁.queue ++ new }) ∧ Spreads reg th₁ l insert _ new :=
      propagate_spec horder htuple fun d hd => by
        obtain ⟨htable, r, hr, hd⟩ := h.tracks.sound _ d hd
        have horiginal := deltaRule_original hd
        exact ⟨htable, horiginal ▸ h.tracks.viewable r hr, horiginal ▸ hd⟩
    obtain ⟨-, -, huniform⟩ := h.after hq
    obtain ⟨database, changes, hmodify, hm⟩ := Database.modify_spec rfl htuple.positive huniform
    obtain ⟨hbalanced, hnew⟩ := h.tupleChanged hq rfl hex hm (Database.modify_tables hmodify rfl) ⟨hs.source, hs.cover, hs.disjoint⟩
    refine ⟨changes, _, run_bind_ok.2 ⟨(), _, hok, ?_⟩, hbalanced, rfl, ⟨new, rfl, hnew⟩, fun _ h => .inl h,
      fun x hx => ?_⟩
    · simp only
      rw [hmodify]
      rfl
    · rw [show database.held = _ from hm.held, Change.mem_apply] at hx
      exact hx.elim (fun hx => .inr hx.1) fun hx => .inl hx.2

end MaterializedViewTheory

end Congress
