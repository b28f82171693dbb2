import Mathlib.Data.Set.Finite.Lattice
import Congress.Proofs.ViewRuns
import Congress.Proofs.ViewUpdates

/-!
# Histories of materialized views

Insertions and deletions of facts and rules, in batches, from the empty theory on. Under the conditions in
`Maintainable` each batch is worked off, and then the database is the stratified model of what the history
states (`updates_model`), whatever the order of the events and the batches they come in.
-/

namespace Congress

open Lib Stateful

set_option linter.unusedSectionVars false

variable {V : Type} [DecidableEq V] [Inhabited V] {reg : BuiltinRegistry V} {fuel n : ℕ} {r rule : Rule V}
  {l : Literal V} {e : ProofEvent V} {D S : Set String} {R : Set (Rule V)} {X : Set (Statement V)}
  {name table : String} {values : List V} {events events' : List (Formula V × Bool)} {rank : String → ℕ}

/-- The clauses of what a policy states: its facts, and the instances of its rules in which what does not
depend on the policy is true. -/
inductive Statement.Program (reg : BuiltinRegistry V) (name : String) (X : Set (Statement V)) :
    GroundClause (Row V) → Prop
  | fact {table : String} {values : List V} (h : .fact table values ∈ X) :
      Program reg name X ⟨⟨name, table, values⟩, ∅, ∅⟩
  | rule {table : String} {r : Rule V} {ν : String → V} (h : .rule table r ∈ X)
      (hs : ∀ l ∈ r.body, ∀ q, l.meaning reg evaluationFollows name ν = .settled q → (l.negated = false ↔ q)) :
      Program reg name X (Rule.ground reg evaluationFollows name ν r.head r.body)

def Statement.clauses (reg : BuiltinRegistry V) (name : String) (X : Set (Statement V)) :
    Set (GroundClause (Row V)) := {c | Statement.Program reg name X c}

namespace MaterializedViewTheory

variable {th th' : MaterializedViewTheory V}

/-- The rules as views keep them: without self-joins, and reordered. -/
def storedRules (reg : BuiltinRegistry V) (events : List (Formula V × Bool)) : List (Rule V) :=
  events.flatMap fun (formula, _) =>
    match formula with
    | .atom _ => []
    | .rule r => (eliminateSelfJoins r).filterMap (reorderForSafety reg)

/-- The tables that rules define. -/
def headTables (rules : List (Rule V)) : Set String := {t | ∃ r ∈ rules, r.head.table.table = t}

/-- Events by which views are maintained: facts of tables that no rule defines, and rules that are safe and
not recursive. The tables in `S` are those that may lose tuples; no tuple of them has two proofs. -/
structure Maintainable (reg : BuiltinRegistry V) (fuel : ℕ) (S : Set String) (events : List (Formula V × Bool)) :
    Prop where
  facts : ∀ l insert, (.atom l, insert) ∈ events → l.IsTuple ∧ IsTable reg l.table.table
    ∧ l.table.table ∉ headTables (storedRules reg events)
  rules : ∀ r insert, (.rule r, insert) ∈ events → (Formula.rule r).isDatalog = true
    ∧ ∀ r₀ ∈ eliminateSelfJoins r, ∃ r', reorderForSafety reg r₀ = some r' ∧ r'.Viewable reg fuel
  nonrecursive : ¬ Cyclic (Depends reg {r | r ∈ storedRules reg events})
  deletedFacts : ∀ l, (.atom l, false) ∈ events → l.table.table ∈ S
  deletedRules : ∀ r, (.rule r, false) ∈ events → ∀ r₀ ∈ eliminateSelfJoins r, r₀.head.table.table ∈ S
  losing : Losing reg {r | r ∈ storedRules reg events} S

/-- What the events of a history leave of what they state. -/
noncomputable def left (events : List (Formula V × Bool)) : Set (Statement V) :=
  applyAll ∅ ((events.flatMap fun p => expand p.1 p.2).map change)

section

variable (reg : BuiltinRegistry V) (theories : Theories V)
  (setOrder : List (TopDownResult V) → List (TopDownResult V))

/-- Calls of `update`, one after the other. -/
def updates (fuel n : ℕ) : List (List (Formula V × Bool)) → Run V Unit
  | [] => pure ()
  | events :: batches => do
    let _ ← update reg theories setOrder fuel n events
    updates fuel n batches

end

variable {theories : Theories V} {setOrder : List (TopDownResult V) → List (TopDownResult V)}
  {batches : List (List (Formula V × Bool))}

theorem balanced_empty : Balanced reg fuel D (empty name : MaterializedViewTheory V) where
  tracks := DeltaRuleTheory.tracks_empty
  sorted _ _ _ h := by simp [empty, Database.empty, Database.proofs, Database.tuples] at h
  tables := by simp [empty, Database.empty]
  fits := by simp [empty]
  balance := by
    ext x
    simp [empty, applyAll, instances, DeltaRuleTheory.empty, Database.held, Database.proofs, Database.tuples,
      Database.empty]
  uniform := trivial

theorem known_empty : (empty name : MaterializedViewTheory V).Known reg R S where
  originals := by simp [empty, DeltaRuleTheory.empty]
  rules := by simp [empty]
  tuples := by simp [empty]
  proofs := by simp [empty]
  held := by simp [empty, Database.held, Database.proofs, Database.tuples, Database.empty]

/-- Events without proofs can be put in the queue. -/
theorem Balanced.enqueue {new : List (ProofEvent V)} (h : Balanced reg fuel D th)
    (hnew : ∀ e ∈ new, Fits reg fuel D e ∧ e.proofs = []) :
    Balanced reg fuel D { th with queue := th.queue ++ new } := by
  have hon : ∀ e ∈ new, e.change.on = ∅ := fun e he => by
    ext x
    simp [ProofEvent.change, (hnew e he).2, ProofCollection.has]
  have hsame : ∀ {F : Set ((String × List V) × Proof V)} {new : List (ProofEvent V)},
      (∀ e ∈ new, e.change.on = ∅) → applyAll F (new.map (·.change)) = F ∧ Uniform F (new.map (·.change)) := by
    intro F new hon
    induction new with
    | nil => exact ⟨rfl, trivial⟩
    | cons e new ih =>
      obtain ⟨he, hnew⟩ := List.forall_mem_cons.1 hon
      obtain ⟨happly, huniform⟩ := ih hnew
      rw [List.map_cons, applyAll_cons, Uniform, Change.apply_empty he]
      exact ⟨happly, fun _ => .inl (he ▸ Set.empty_subset _), huniform⟩
  refine ⟨h.tracks, h.sorted, h.tables, fun e he => ?_, ?_, ?_⟩
  · exact (List.mem_append.1 he).elim (h.fits e) fun he => (hnew e he).1
  · rw [List.map_append, applyAll_append, (hsame hon).1]
    exact h.balance
  · rw [List.map_append, uniform_append]
    exact ⟨h.uniform, (hsame hon).2⟩

theorem mem_storedRules {rule r₀ : Rule V} {insert : Bool} (h : (.rule rule, insert) ∈ events)
    (h₀ : r₀ ∈ eliminateSelfJoins rule) (hr : reorderForSafety reg r₀ = some r) : r ∈ storedRules reg events :=
  List.mem_flatMap.2 ⟨_, h, List.mem_filterMap.2 ⟨r₀, h₀, hr⟩⟩

/-- What the events of a history put in the queue. -/
theorem Maintainable.expanded (h : Maintainable reg fuel S events) {p : Formula V × Bool} (hp : p ∈ events)
    (he : e ∈ expand p.1 p.2) : Fits reg fuel (headTables (storedRules reg events)) e ∧ e.proofs = []
      ∧ (∀ rule r, e.formula = .rule rule → reorderForSafety reg rule = some r →
        r ∈ storedRules reg events ∧ (e.insert = false → r.head.table.table ∈ S))
      ∧ ∀ l, e.formula = .atom l → l.table.table ∉ headTables (storedRules reg events)
        ∧ (e.insert = false → l.table.table ∈ S) := by
  obtain ⟨formula, insert⟩ := p
  cases formula with
  | atom l =>
    obtain rfl := List.mem_singleton.1 he
    obtain ⟨htuple, hnamed, hD⟩ := h.facts l insert hp
    refine ⟨.tuple htuple hnamed (iff_of_true rfl hD), rfl, nofun, fun l' hl' => ?_⟩
    cases hl'
    exact ⟨hD, fun hins => h.deletedFacts l (hins ▸ hp)⟩
  | rule r =>
    obtain ⟨r₀, hr₀, rfl⟩ := List.mem_map.1 he
    obtain ⟨r', hr', hv⟩ := (h.rules r insert hp).2 r₀ hr₀
    have hstored := mem_storedRules hp hr₀ hr'
    refine ⟨.rule hr' hv ⟨r', hstored, rfl⟩, rfl, fun rule' r'' hf hr'' => ?_, nofun⟩
    cases hf
    rw [hr'] at hr''
    cases hr''
    refine ⟨hstored, fun hins => ?_⟩
    rw [(reorderForSafety_safe hr').1]
    exact h.deletedRules r (hins ▸ hp) r₀ hr₀

theorem enqueueAll_spec (hb : Balanced reg fuel (headTables (storedRules reg events)) th)
    (h : Maintainable reg fuel S events) : ∀ {batch : List (Formula V × Bool)} {q : List (ProofEvent V)},
    (∀ p ∈ batch, p ∈ events) → (enqueueAll batch).run { th with queue := q }
      = (.ok (), { th with queue := q ++ batch.flatMap fun p => expand p.1 p.2 })
  | [], q, _ => by simp [enqueueAll]
  | (formula, insert) :: batch, q, hsub => by
    obtain ⟨hp, hsub⟩ := List.forall_mem_cons.1 hsub
    have hone : (enqueueAny formula insert).run { th with queue := q }
        = (.ok (), { th with queue := q ++ expand formula insert }) := by
      unfold enqueueAny
      cases formula with
      | atom l =>
        obtain ⟨htuple, -, hD⟩ := h.facts l insert hp
        have hview : th.deltaRules.isView l.table.table = false :=
          Bool.eq_false_iff.2 fun hview => hD (hb.tracks.views _ hview)
        rw [if_neg (by simp [Formula.isDatalog, htuple.positive])]
        simp only [run_get_bind, hview]
        rfl
      | rule r =>
        rw [if_neg (by simp [(h.rules r insert hp).1])]
        rfl
    unfold enqueueAll
    refine run_bind_ok.2 ⟨(), _, hone, (enqueueAll_spec hb h hsub).trans ?_⟩
    rw [List.flatMap_cons, List.append_assoc]

/-- What a history leaves, between its batches. -/
structure Maintained (reg : BuiltinRegistry V) (fuel : ℕ) (S : Set String) (events done : List (Formula V × Bool))
    (name : String) (th : MaterializedViewTheory V) : Prop where
  name : th.name = name
  queue : th.queue = []
  balanced : Balanced reg fuel (headTables (storedRules reg events)) th
  known : th.Known reg {r | r ∈ storedRules reg events} S
  statements : th.statements (headTables (storedRules reg events)) = left done

/-- What the events of a history state is not fixed. -/
theorem Maintainable.sparing (h : Maintainable reg fuel S events)
    (hb : Balanced reg fuel (headTables (storedRules reg events)) th) {p : Formula V × Bool} (hp : p ∈ events)
    (he : e ∈ expand p.1 p.2) :
    (change e).sparing (th.fixed (headTables (storedRules reg events))) = change e := by
  have hdisjoint : ∀ x ∈ (change e).on, x ∉ th.fixed (headTables (storedRules reg events)) := by
    obtain ⟨-, -, -, hfacts⟩ := h.expanded hp he
    rintro x hx (hproved | hdefined)
    · cases x with
      | rule => exact hproved
      | fact table values =>
        obtain ⟨ps, hps, hne⟩ := Database.mem_proved.1 hproved
        rw [change] at hx
        cases hf : e.formula with
        | atom l =>
          rw [hf] at hx
          have htable : l.table.table = table := hx.1
          exact hne ((hb.sorted _ _ _ hps).2 (htable ▸ (hfacts l hf).1))
        | rule r =>
          rw [hf] at hx
          obtain ⟨_, _, hx, -⟩ := hx
          cases hx
    · cases x with
      | rule => exact hdefined
      | fact table values =>
        rw [change] at hx
        cases hf : e.formula with
        | atom l =>
          rw [hf] at hx
          have htable : l.table.table = table := hx.1
          exact (hfacts l hf).1 (htable ▸ hdefined)
        | rule r =>
          rw [hf] at hx
          obtain ⟨_, _, hx, -⟩ := hx
          cases hx
  rw [Change.sparing, sdiff_eq_left.2 (Set.disjoint_left.2 hdisjoint)]

theorem Maintainable.exists_height (h : Maintainable reg fuel S events) : ∃ (rank : String → ℕ) (top : ℕ),
    (∀ a b, Depends reg {r | r ∈ storedRules reg events} a b → rank b < rank a)
      ∧ ∀ r ∈ storedRules reg events, rank r.head.table.table ≤ top := by
  have hfinite : {b | ∃ a, Depends reg {r | r ∈ storedRules reg events} a b}.Finite := by
    refine Set.Finite.subset (List.finite_toSet
      ((storedRules reg events).flatMap fun r => r.body.map (·.table.table))) ?_
    rintro b ⟨a, r, hr, -, l, hl, -, rfl⟩
    exact List.mem_flatMap.2 ⟨r, hr, List.mem_map_of_mem hl⟩
  obtain ⟨rank, hrank⟩ := exists_rank hfinite h.nonrecursive
  obtain ⟨top, htop⟩ := ((List.finite_toSet (storedRules reg events)).image fun r =>
    rank r.head.table.table).bddAbove
  exact ⟨rank, top, hrank, fun r hr => htop ⟨r, hr, rfl⟩⟩

/-- What putting a batch in the queue makes of the state. -/
theorem Maintained.enqueue {done batch : List (Formula V × Bool)} (h : Maintainable reg fuel S events)
    (hth : Maintained reg fuel S events done name th) (hsub : ∀ p ∈ batch, p ∈ events) :
    ∃ th₁, (enqueueAll batch).run th = (.ok (), th₁) ∧ th₁.name = th.name ∧ th₁.database = th.database
      ∧ Balanced reg fuel (headTables (storedRules reg events)) th₁
      ∧ th₁.Known reg {r | r ∈ storedRules reg events} S := by
  have hmem : ∀ {e}, e ∈ batch.flatMap (fun p => expand p.1 p.2) → ∃ p ∈ events, e ∈ expand p.1 p.2 :=
    fun he => by
      obtain ⟨p, hp, he⟩ := List.mem_flatMap.1 he
      exact ⟨p, hsub p hp, he⟩
  refine ⟨{ th with queue := th.queue ++ batch.flatMap fun p => expand p.1 p.2 },
    enqueueAll_spec hth.balanced h hsub, rfl, rfl, hth.balanced.enqueue fun e he => ?_, hth.known.originals,
    fun e he rule r hf hr => ?_, fun e he l hf hins => ?_, fun e he x hx => ?_, hth.known.held⟩
  · obtain ⟨p, hp, he⟩ := hmem he
    obtain ⟨hfits, hnil, -⟩ := h.expanded hp he
    exact ⟨hfits, hnil⟩
  all_goals
    rw [hth.queue, List.nil_append] at he
    obtain ⟨p, hp, he⟩ := hmem he
    obtain ⟨-, hnil, hrules, hfacts⟩ := h.expanded hp he
  · exact hrules rule r hf hr
  · exact (hfacts l hf).2 hins
  · obtain ⟨l, -, -, hhas⟩ := hx
    rw [hnil] at hhas
    cases hhas

/-- A batch is worked off, and leaves what it states. -/
theorem Maintained.batch {done batch : List (Formula V × Bool)} (horder : ∀ rs, (setOrder rs).Perm rs)
    (h : Maintainable reg fuel S events) (hth : Maintained reg fuel S events done name th)
    (hsub : ∀ p ∈ batch, p ∈ events) :
    ∃ N changes th', (∀ n ≥ N, (update reg theories setOrder fuel n batch).run th = (.ok changes, th'))
      ∧ Maintained reg fuel S events (done ++ batch) name th' := by
  obtain ⟨rank, top, hrank, htop⟩ := h.exists_height
  obtain ⟨th₁, henqueue, hname₁, -, hbalanced, hknown⟩ := hth.enqueue h hsub
  obtain ⟨N, changes, th', hrun, hname, hnil, hb', hk'⟩ :=
    processQueue_done horder h.losing hrank htop hbalanced hknown
  have hrun : ∀ n ≥ N, (update reg theories setOrder fuel n batch).run th = (.ok changes, th') := fun n hn =>
    run_bind_ok.2 ⟨(), th₁, henqueue, hrun n hn⟩
  refine ⟨N, changes, th', hrun, (hname.trans hname₁).trans hth.name, hnil, hb', hk', ?_⟩
  have hdefines : DefinesWithin (headTables (storedRules reg events)) th := fun table d hd => by
    obtain ⟨-, r, hr, hd⟩ := hth.balanced.tracks.sound _ d hd
    rw [DeltaRuleTheory.head_of_mem_deltaRules hd]
    exact hth.balanced.tracks.heads r hr
  obtain ⟨-, hstatements⟩ := update_statements (hrun N le_rfl) hdefines (by simp [hth.queue]) fun p hp e he => by
    obtain ⟨hfits, hproofs, -⟩ := h.expanded (hsub p hp) he
    refine ⟨fun r hf => ?_, fun l _ => .inl hproofs⟩
    cases hfits with
    | rule hreordered _ hhead =>
      cases hf
      rwa [← (reorderForSafety_safe hreordered).1]
    | tuple => cases hf
  rw [hstatements, hth.queue, List.nil_append, hth.statements, left, left, List.flatMap_append, List.map_append,
    applyAll_append]
  refine congrArg (applyAll _) (List.map_congr_left fun e he => ?_)
  obtain ⟨p, hp, he⟩ := List.mem_flatMap.1 he
  exact h.sparing hth.balanced (hsub p hp) he

/-- A policy with this rule states it. -/
theorem mem_statements_of_mem (h : r ∈ th.deltaRules.originals) (table : String) :
    .rule table r ∈ th.statements D := ⟨r, h, Rule.same_refl r⟩

theorem Balanced.held_eq (h : Balanced reg fuel D th) (hq : th.queue = []) : th.database.held = th.instances reg := by
  have hb := h.balance
  rwa [hq] at hb

/-- With an empty queue, a tuple is there if it is a fact, or if an instance of a rule gives it. -/
theorem Balanced.present_iff (h : Balanced reg fuel D th) (hq : th.queue = []) :
    th.database.Present (table, values) ↔ .fact table values ∈ th.statements D
      ∨ ∃ r ∈ th.deltaRules.originals, ∃ ν, r.head.table.table = table ∧ r.head.values ν = values
        ∧ ∀ l ∈ r.body, th.Holds reg ν l := by
  have hheld := h.held_eq hq
  constructor
  · intro hp
    obtain ⟨ps, hps⟩ := Option.ne_none_iff_exists'.1 hp
    by_cases hD : table ∈ D
    · obtain ⟨p, hp⟩ := List.exists_mem_of_ne_nil _ fun hnil => (h.sorted _ _ ps hps).1 hnil hD
      have hmem : ((table, values), p) ∈ th.database.held := ⟨ps, hps, ProofCollection.has_of_mem hp⟩
      rw [hheld] at hmem
      obtain ⟨r, hr, ν, hbody, hprove⟩ := hmem
      obtain ⟨htable, hvalues⟩ := Prod.mk.inj hprove.1
      exact .inr ⟨r, hr, ν, htable.symm, hvalues.symm, hbody⟩
    · exact .inl ⟨hD, Database.mem_statements.2 ⟨ps, hps⟩⟩
  · rintro (⟨-, hfact⟩ | ⟨r, hr, ν, rfl, rfl, hbody⟩)
    · obtain ⟨ps, hps⟩ := Database.mem_statements.1 hfact
      exact Option.ne_none_iff_exists'.2 ⟨ps, hps⟩
    · have hmem : ((r.head.table.table, r.head.values ν), (⟨r.binding ν, r⟩ : Proof V)) ∈ th.instances reg :=
        ⟨r, hr, ν, hbody, rfl, Proof.same_refl _⟩
      rw [← hheld] at hmem
      obtain ⟨ps, hps, -⟩ := hmem
      exact Option.ne_none_iff_exists'.2 ⟨ps, hps⟩

/-- The rows of the views are supported by what the policy states. -/
theorem Balanced.supported (h : Balanced reg fuel D th) (hq : th.queue = []) (a : Row V) :
    a ∈ th.database.rows th.name ↔ ∃ c ∈ Statement.clauses reg th.name (th.statements D),
      c.head = a ∧ c.Fires (th.database.rows th.name) := by
  constructor
  · rintro ⟨hpolicy, hp⟩
    obtain ⟨policy, table, values⟩ := a
    obtain rfl : policy = th.name := hpolicy
    rcases (h.present_iff hq).1 hp with hfact | ⟨r, hr, ν, rfl, rfl, hbody⟩
    · exact ⟨_, .fact hfact, rfl, by simp, by simp⟩
    · obtain ⟨hs, hfires⟩ := fires_ground_iff.2 hbody
      exact ⟨_, .rule (mem_statements_of_mem hr "") hs, rfl, hfires⟩
  · rintro ⟨_, hc, rfl, hfires⟩
    cases hc with
    | fact hfact => exact ⟨rfl, (h.present_iff hq).2 (.inl hfact)⟩
    | @rule table r ν hr hs =>
      obtain ⟨r', hr', hsame⟩ := mem_statements_rule.1 hr
      obtain ⟨hheads, hbody⟩ := Rule.same_iff.1 hsame
      rw [(h.tracks.viewable r' hr').heads, List.singleton_perm, Rule.heads, List.cons.injEq] at hheads
      have hholds := fires_ground_iff.1 ⟨hs, hfires⟩
      refine ⟨rfl, (h.present_iff hq).2 (.inr ⟨r', hr', ν, ?_, ?_, fun l hl => hholds l (hbody.mem_iff.1 hl)⟩)⟩
      · rw [hheads.1]
        rfl
      · rw [hheads.1]
        rfl

/-- The rows that a clause is about rank lower than that of its head. -/
theorem Balanced.ranked (h : Balanced reg fuel D th) (hR : ∀ r ∈ th.deltaRules.originals, r ∈ R)
    (hrank : ∀ a b, Depends reg R a b → rank b < rank a) :
    ∀ c ∈ Statement.clauses reg th.name (th.statements D), ∀ b ∈ c.pos ∪ c.neg,
      rank b.table < rank c.head.table := by
  rintro _ (@⟨table, values, hfact⟩ | @⟨table, r, ν, hr, hs⟩) b hb
  · simp at hb
  · obtain ⟨r', hr', hsame⟩ := mem_statements_rule.1 hr
    obtain ⟨hheads, hbody⟩ := Rule.same_iff.1 hsame
    have hv := h.tracks.viewable r' hr'
    rw [hv.heads, List.singleton_perm, Rule.heads, List.cons.injEq] at hheads
    obtain ⟨l, hl, hmeaning⟩ : ∃ l ∈ r.body, l.meaning reg evaluationFollows th.name ν = .row b := by
      rcases hb with ⟨l, hl, -, hm⟩ | ⟨l, hl, -, hm⟩ <;> exact ⟨l, hl, hm⟩
    have hl' := hbody.mem_iff.2 hl
    refine hrank _ _ ⟨r', hR r' hr', congrArg (·.table.table) hheads.1, l, hl', ?_⟩
    have hservice := (hv.body l hl').service
    have hname : l.tablename none = l.table.table := by
      rw [Literal.tablename, Tablename.name, hservice]
      rfl
    rw [Literal.meaning, hname] at hmeaning
    split_ifs at hmeaning with htrue hfalse hbuiltin
    rw [Tablename.resolve, hservice] at hmeaning
    cases hmeaning
    exact ⟨⟨htrue, hfalse, by simpa using hbuiltin⟩, rfl⟩

theorem Maintained.updates (theories : Theories V) (horder : ∀ rs, (setOrder rs).Perm rs)
    (h : Maintainable reg fuel S events) : ∀ (batches : List (List (Formula V × Bool)))
    {done : List (Formula V × Bool)} {th : MaterializedViewTheory V},
    Maintained reg fuel S events done name th → (∀ p ∈ batches.flatten, p ∈ events) →
      ∃ N th', (∀ n ≥ N, (updates reg theories setOrder fuel n batches).run th = (.ok (), th'))
        ∧ Maintained reg fuel S events (done ++ batches.flatten) name th'
  | [], done, th, hth, _ => ⟨0, th, fun _ _ => rfl, by simpa using hth⟩
  | batch :: batches, done, th, hth, hsub => by
    rw [List.flatten_cons] at hsub ⊢
    obtain ⟨N₁, changes, th₁, hrun₁, hth₁⟩ := hth.batch horder h fun p hp => hsub p (List.mem_append_left _ hp)
    obtain ⟨N₂, th₂, hrun₂, hth₂⟩ := Maintained.updates theories horder h batches hth₁ fun p hp =>
      hsub p (List.mem_append_right _ hp)
    refine ⟨max N₁ N₂, th₂, fun n hn => ?_, List.append_assoc .. ▸ hth₂⟩
    exact run_bind_ok.2 ⟨changes, th₁, hrun₁ n (le_of_max_le_left hn), hrun₂ n (le_of_max_le_right hn)⟩

theorem maintained_empty : Maintained reg fuel S events [] name (empty name) where
  name := rfl
  queue := rfl
  balanced := balanced_empty
  known := known_empty
  statements := by
    ext (⟨table, values⟩ | ⟨table, r⟩)
    · refine iff_of_false (fun h => ?_) id
      obtain ⟨t, ht, -⟩ := h.2
      simp [empty, Database.tuples, Database.empty] at ht
    · refine iff_of_false (fun h => ?_) id
      obtain ⟨r', hr', -⟩ := h
      simp [empty, DeltaRuleTheory.empty] at hr'

/-- The rows are the stratified model of what the history states. -/
theorem Maintained.rows_eq (hth : Maintained reg fuel S events events' name th)
    (h : Maintainable reg fuel S events) :
    (∃ σ, Stratifies σ (Statement.clauses reg name (left events')))
      ∧ ∀ σ, Stratifies σ (Statement.clauses reg name (left events')) →
        th.database.rows name = stratifiedModel (Statement.clauses reg name (left events')) σ := by
  obtain ⟨rank, top, hrank, -⟩ := h.exists_height
  have hranked := hth.balanced.ranked hth.known.originals hrank
  have hsupported := hth.balanced.supported hth.queue
  rw [hth.statements, hth.name] at hranked hsupported
  exact ⟨⟨fun a => rank a.table, .of_rank hranked⟩,
    fun σ hσ => eq_of_supported hranked hsupported fun a => mem_stratifiedModel_iff hσ⟩

theorem exists_maintained (theories : Theories V) (name : String) (horder : ∀ rs, (setOrder rs).Perm rs)
    (h : Maintainable reg fuel S events) (hsub : ∀ p ∈ batches.flatten, p ∈ events) : ∃ N th',
    (∀ n ≥ N, (updates reg theories setOrder fuel n batches).run (empty name) = (.ok (), th'))
      ∧ Maintained reg fuel S events batches.flatten name th' :=
  Maintained.updates theories horder h batches maintained_empty hsub

/-- `p(x) :- q(x), not r(x)`. -/
def exampleRule : Rule ℕ :=
  ⟨⟨⟨none, "p", none⟩, [.variable "x"], false, []⟩, [],
    [⟨⟨none, "q", none⟩, [.variable "x"], false, []⟩, ⟨⟨none, "r", none⟩, [.variable "x"], true, []⟩]⟩

def exampleFact (table : String) (value : ℕ) : Literal ℕ := ⟨⟨none, table, none⟩, [.object value], false, []⟩

/-- A rule comes, then facts, and one of them goes. -/
def exampleBatches : List (List (Formula ℕ × Bool)) :=
  [[(.rule exampleRule, true)], [(.atom (exampleFact "q" 1), true), (.atom (exampleFact "r" 1), true)],
    [(.atom (exampleFact "r" 1), false)]]

theorem exampleRule_body {P : Literal ℕ → Prop} (hq : P ⟨⟨none, "q", none⟩, [.variable "x"], false, []⟩)
    (hr : P ⟨⟨none, "r", none⟩, [.variable "x"], true, []⟩) : ∀ l ∈ exampleRule.body, P l :=
  List.forall_mem_cons.2 ⟨hq, List.forall_mem_cons.2 ⟨hr, by simp⟩⟩

theorem exampleRule_viewable : exampleRule.Viewable (fun _ => none) 6 where
  oneHead := rfl
  positive := rfl
  service := rfl
  modal := rfl
  named := ⟨by decide, by decide, rfl⟩
  body := exampleRule_body ⟨⟨rfl, nofun, by decide⟩, rfl⟩ ⟨⟨rfl, nofun, by decide⟩, rfl⟩
  headVars := by decide
  distinct := by decide
  safe := by simp [exampleRule, SafeInOrder, Literal.Safe, Literal.variableNames, Term.names]
  deltas d hd := by
    obtain ⟨l, hl, -, rfl⟩ := (Rule.mem_deltaRules (by decide)).1 hd
    revert l
    refine exampleRule_body (fun _ => ?_) fun _ => ?_ <;>
      simp [exampleRule, DeltaRule.create, sortLiterals, SafeInOrder, Literal.Safe, Literal.variableNames,
        Term.names, Literal.isBuiltin, BuiltinRegistry.isBuiltin, List.erase]
  short := by decide

theorem exampleRule_losing : Losing (fun _ => none) {r | r ∈ [exampleRule]} {"p", "r"} := by
  refine ⟨fun r hr _ _ _ _ => ?_, fun r hr _ _ _ _ => ?_, fun r hr r' hr' _ _ ν ν' hν => ?_⟩
  · simp [List.mem_singleton.1 hr, exampleRule]
  · simp [List.mem_singleton.1 hr, exampleRule]
  · rw [List.mem_singleton.1 hr, List.mem_singleton.1 hr'] at hν ⊢
    refine Proof.same_iff.2 ⟨valuation_congr fun x hx => ?_, Rule.same_refl _⟩
    rw [show sortedNames (exampleRule.heads ++ exampleRule.body) = ["x"] by decide, List.mem_singleton] at hx
    simpa [exampleRule, Literal.values, Term.value, hx] using hν

/-- What the examples insert and delete. -/
def exampleEvents : List (Formula ℕ × Bool) :=
  [(.rule exampleRule, true), (.rule exampleRule, false), (.atom (exampleFact "q" 1), true),
    (.atom (exampleFact "r" 1), true), (.atom (exampleFact "r" 1), false)]

theorem example_maintainable {events : List (Formula ℕ × Bool)} (hsub : ∀ p ∈ events, p ∈ exampleEvents) :
    Maintainable (fun _ => none) 6 {"p", "r"} events := by
  have hrules : ∀ r insert, (.rule r, insert) ∈ events → r = exampleRule := fun r insert h => by
    have hmem := hsub _ h
    simp only [exampleEvents, List.mem_cons, Prod.mk.injEq, Formula.rule.injEq, reduceCtorEq, false_and,
      List.not_mem_nil, or_false] at hmem
    exact hmem.elim And.left And.left
  have hfacts : ∀ l insert, (.atom l, insert) ∈ events → l = exampleFact "q" 1 ∧ insert = true
      ∨ l = exampleFact "r" 1 := fun l insert h => by
    have hmem := hsub _ h
    simp only [exampleEvents, List.mem_cons, Prod.mk.injEq, Formula.atom.injEq, reduceCtorEq, false_and, false_or,
      List.not_mem_nil, or_false] at hmem
    exact hmem.imp_right fun hmem => hmem.elim And.left And.left
  have hjoins : eliminateSelfJoins exampleRule = [exampleRule] := by decide
  have hstored : ∀ r ∈ storedRules (fun _ => none) events, r = exampleRule := fun r hr => by
    obtain ⟨⟨formula, insert⟩, hmem, hr⟩ := List.mem_flatMap.1 hr
    cases formula with
    | atom l => cases hr
    | rule rule =>
      obtain ⟨r₀, hr₀, hr⟩ := List.mem_filterMap.1 hr
      rw [hrules rule insert hmem, hjoins, List.mem_singleton] at hr₀
      rw [hr₀, show reorderForSafety (fun _ => none) exampleRule = some exampleRule by decide] at hr
      exact (Option.some.inj hr).symm
  have hlosing := exampleRule_losing
  refine ⟨fun l insert h => ?_, fun r insert h => ?_, ?_, fun l h => ?_, fun r h r₀ hr₀ => ?_,
    ⟨fun r hr => ?_, fun r hr => ?_, fun r hr r' hr' => ?_⟩⟩
  · have hhead : ∀ table, table ≠ "p" → table ∉ headTables (storedRules (fun _ => none) events) := by
      rintro _ hne ⟨r, hr, rfl⟩
      rw [hstored r hr] at hne
      exact hne rfl
    rcases hfacts l insert h with ⟨rfl, -⟩ | rfl
    · exact ⟨⟨rfl, ⟨[1], rfl⟩, rfl, rfl⟩, ⟨by decide, by decide, rfl⟩, hhead "q" (by decide)⟩
    · exact ⟨⟨rfl, ⟨[1], rfl⟩, rfl, rfl⟩, ⟨by decide, by decide, rfl⟩, hhead "r" (by decide)⟩
  · rw [hrules r insert h, hjoins]
    refine ⟨rfl, fun r₀ hr₀ => ⟨exampleRule, ?_, exampleRule_viewable⟩⟩
    rw [List.mem_singleton.1 hr₀]
    decide
  · refine not_cyclic_of_rank (fun t => if t = "p" then 1 else 0) ?_
    rintro _ _ ⟨r, hr, rfl, l, hl, -, rfl⟩
    obtain rfl := hstored r hr
    revert l
    exact exampleRule_body (by decide) (by decide)
  · rcases hfacts l false h with ⟨-, h⟩ | rfl
    · cases h
    · simp [exampleFact]
  · rw [hrules r false h, hjoins, List.mem_singleton] at hr₀
    simp [hr₀, exampleRule]
  · exact hlosing.positive r (List.mem_singleton.2 (hstored r hr))
  · exact hlosing.negated r (List.mem_singleton.2 (hstored r hr))
  · exact hlosing.unambiguous r (List.mem_singleton.2 (hstored r hr)) r' (List.mem_singleton.2 (hstored r' hr'))

end MaterializedViewTheory

end Congress
