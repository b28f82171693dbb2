import Congress.Proofs.Abduction
import Congress.Proofs.Backtracking
import Congress.Proofs.Restoring
import Congress.Proofs.Select

/-!
# Backtracking leaves nothing behind

Over policies that are not recursive every call of the search ends: it raises an exception, or it
returns with all unifiers, the `literal_index` of every context and the support of the caller as they
were at the call, and with nothing but more results (`search_restores`). If the policies are safe, the
only exception is that a negated literal is not ground or an input of a builtin not bound; a selection
that is safe itself always returns, and so does an abduction without negation. With negation it may
fail: what is saved binds no variables (`not_search_restores`).
-/

namespace Congress

open Lib Bindings TopDown

set_option linter.unusedSectionVars false

variable {V : Type*} [DecidableEq V] [Inhabited V] {reg : BuiltinRegistry V} {theories : Theories V}
  {arity : String → String → ℕ} {ps : Policies V} {weight : Tablename → ℕ} {allowed : Fault → Prop}
  {scope : Scope V} {caller : Caller V} {self th : TopDownTheory V} {c : TopDownContext V}
  {previous : List (TopDownContext V)} {l : Literal V} {m : InPlace V}

namespace Policies

/-- The tables of the policies, each with those that the bodies of its rules name. -/
def Depends (ps : Policies V) (a b : Tablename) : Prop :=
  ∃ p rules r, ps.lookup p = some rules ∧ rules.HasRule r ∧ a = r.head.table.within p
    ∧ ∃ l ∈ r.body, b = l.table.within p

/-- The theory of one of the policies, or one that has only tuples. -/
def Ordinary (ps : Policies V) (th : TopDownTheory V) : Prop :=
  th.includes = [] ∧ (ps.IsTheory th
    ∨ ∀ table l cs r, th.headIndex table l = some cs → .rule r ∉ cs)

/-- The theories under their names. -/
def Serve (ps : Policies V) (theories : Theories V) : Prop :=
  ∀ p th, theories p = some th → th.name = p ∧ ps.Ordinary th

/-- The weights pay for the bodies of the rules. -/
structure Priced (ps : Policies V) (weight : Tablename → ℕ) : Prop where
  pos : ∀ t, 0 < weight t
  body : ∀ p rules r, ps.lookup p = some rules → rules.HasRule r →
    (r.body.map fun l => weight (l.table.within p) + 1).sum + 1 ≤ weight (r.head.table.within p)

theorem exists_priced (h : ¬ Cyclic ps.Depends) : ∃ weight, ps.Priced weight := by
  have hfinite : {b | ∃ a, ps.Depends a b}.Finite := by
    refine Set.Finite.subset (List.finite_toSet
      (ps.allRules.flatMap fun e => e.2.body.map (·.table.within e.1))) ?_
    rintro b ⟨a, p, rules, r, hp, hr, -, l, hl, rfl⟩
    exact List.mem_flatMap.2 ⟨(p, r), mem_allRules hp hr, List.mem_map.2 ⟨l, hl, rfl⟩⟩
  obtain ⟨rank, hrank⟩ := exists_rank hfinite h
  obtain ⟨weight, hpos, hbody⟩ := exists_weight_of_rank (fun p l => l.table.within p)
    (fun p l => l.table.within p) rank fun p rules r hp hr l hl =>
      hrank _ _ ⟨p, rules, r, hp, hr, rfl, l, hl, rfl⟩
  exact ⟨weight, hpos, hbody⟩

/-- A rule that a policy tries for a literal is one of its own or has no body, and the literal can pay
for it. -/
theorem Priced.clause (hw : ps.Priced weight) (hth : ps.IsTheory th) {l' : Literal V}
    {cs : List (Clause V)} {r : Rule V} (hcs : th.headIndex l.table.table l' = some cs)
    (hr : .rule r ∈ cs) (hsame : r.head.sameSchema l (some th.name) = true) :
    (∀ b ∈ r.body, ∃ rules, ps.lookup th.name = some rules ∧ rules.HasRule r)
      ∧ (r.body.map fun b => weight (b.table.within th.name) + 1).sum + 1
        ≤ weight (l.table.within th.name) := by
  obtain ⟨rules, hp, hself⟩ := hth
  rw [hself] at hcs
  obtain ⟨rs, hrs, rfl⟩ := Option.map_eq_some_iff.1 hcs
  obtain ⟨r', hr', he⟩ := List.mem_map.1 hr
  cases he
  rw [← within_eq_of_sameSchema hsame]
  rcases mem_getRules hrs hr' (sameSchema_iff.1 hsame).1.1 with hrule | ⟨table, fact, -, rfl⟩
  · exact ⟨fun _ _ => ⟨rules, hp, hrule⟩, hw.body _ _ _ hp hrule⟩
  · exact ⟨by simp [factRule], hw.pos _⟩

/-- Whatever the literals are, only the fuel cannot run out. -/
theorem Priced.bounded (hw : ps.Priced weight) (hth : ps.Serve theories) :
    Bounded reg theories (fun th _ => ps.Ordinary th) weight (· ≠ .outOfFuel) where
  pos := hw.pos
  includes _ _ h := h.1
  negated _ _ h _ := ⟨h, by decide⟩
  moves _ _ _ _ _ _ h := hth _ _ h
  inputs _ _ _ _ _ := .inr (by decide)
  index _ _ _ _ _ _ _ := by decide
  clauses th l h _ _ cs hcs r hr hsame := by
    rcases h.2 with hpolicy | htuples
    · exact ⟨fun _ _ => h, (hw.clause hpolicy hcs hr hsame).2⟩
    · exact absurd hr (htuples _ _ _ _ hcs)

/-- The literals that are admitted, and are negated only if an assertion may fail. -/
def scopeFor (reg : BuiltinRegistry V) (arity : String → String → ℕ) (ps : Policies V)
    (allowed : Fault → Prop) : Scope V :=
  fun th l => ps.scope reg arity th l ∧ (l.negated = true → allowed .assertionError)

/-- Safe policies: a negated literal that is not ground is all that can fail. -/
theorem Priced.bounded_of_admitted (hw : ps.Priced weight) (hps : ps.Admitted reg arity)
    (hbodies : ∀ p rules r, ps.lookup p = some rules → rules.HasRule r → ∀ l ∈ r.body,
      l.negated = true → allowed .assertionError) :
    Bounded reg ps.theories (ps.scopeFor reg arity allowed) weight allowed where
  pos := hw.pos
  includes th l h := by
    obtain ⟨rules, -, hself⟩ := h.1.1
    rw [hself]
    rfl
  negated th l h hneg := by
    obtain ⟨⟨hth, hl⟩, hallowed⟩ := h
    exact ⟨⟨⟨hth, hl.modal, hl.builtin, hl.reserved, hl.pseudoModal, hl.arity⟩, fun _ => hallowed hneg⟩,
      hallowed hneg⟩
  moves th l q th' h hmove hth' := by
    obtain ⟨⟨hth, hl⟩, hallowed⟩ := h
    obtain ⟨hs, -, hup⟩ := (movesTo_eq_some hl.modal).1 hmove
    obtain ⟨rules, hlook, rfl⟩ := Option.map_eq_some_iff.1 hth'
    have harity := hl.arity
    rw [hs] at harity
    exact ⟨rfl, ⟨⟨rules, hlook, rfl⟩, hl.modal, hl.builtin, hl.reserved, by simp [hup], by rwa [hs]⟩,
      hallowed⟩
  inputs th l built h hreg := .inl (by rw [h.1.2.builtin built hreg, Builtin.arity]; omega)
  index th l h hlook bs u hnone := by
    obtain ⟨⟨⟨rules, hp, hself⟩, hl⟩, -⟩ := h
    have hrules := getRules_spec hps hp hl hlook.stays hlook.positive (h := bs) (u := u)
    rw [hself, RuleSet.toTopDown] at hnone
    simp [hrules] at hnone
  clauses th l h _ _ cs hcs r hr hsame := by
    obtain ⟨hbody, hweight⟩ := hw.clause h.1.1 hcs hr hsame
    refine ⟨fun b hb => ?_, hweight⟩
    obtain ⟨rules, hp, hrule⟩ := hbody b hb
    exact ⟨⟨h.1.1, hps.body _ _ r hp hrule b hb⟩, hbodies _ _ r hp hrule b hb⟩

end Policies

/-! ## Calls in place -/

/-- What a call leaves as it was: the unifiers, the support of its caller, and where the contexts are;
there may be more results. -/
structure InPlace.Restored (m m' : InPlace V) : Prop extends
    Search.Restored m.toSearch m'.toSearch where
  literalIndex : ∀ id < m.contexts, m'.literalIndex id = m.literalIndex id

/-- With enough fuel, the function ends, by an exception that is allowed or with everything restored. -/
def Routine.Restores (reg : BuiltinRegistry V) (theories : Theories V) (allowed : Fault → Prop)
    (routine : Routine) (caller : Caller V) (self : TopDownTheory V) (c : TopDownContext V)
    (previous : List (TopDownContext V)) (m : InPlace V) : Prop :=
  ∃ n, ∀ fuel, n ≤ fuel → Ends allowed (fun r => m.Restored r.2)
    (routine.call reg theories fuel caller self c previous m)

theorem restored_of_follows {out : Outcome (Bool × InPlace V)} {out' : Outcome (Bool × Search V)}
    (h : m.FollowsFrom out out') (ho : Leaves allowed m.toSearch out') :
    Ends allowed (fun r => m.Restored r.2) out := by
  refine (h.ends ho).mono (fun _ => id) ?_
  rintro ⟨done, m'⟩ ⟨⟨done', s'⟩, ⟨-, hs, hk⟩, hr⟩
  cases hs
  exact ⟨hr, hk.literalIndex⟩

theorem frame_of_lit (h : m.lit c = .ok l) : ∃ rest, (m.frame c).literals = l :: rest := by
  rw [InPlace.lit_eq] at h
  cases hl : (m.frame c).literals with
  | nil => simp [hl] at h
  | cons l' rest =>
    rw [hl] at h
    cases h
    exact ⟨rest, rfl⟩

theorem eq_indexError_of_lit {e : Fault} (h : m.lit c = .error e) : e = .indexError := by
  rw [InPlace.lit] at h
  split at h
  · cases h
    rfl
  · cases h

/-- `_top_down_eval` of a literal, if the weights pay for what is left. -/
theorem eval_restores (hb : Bounded reg theories scope weight allowed)
    (hsave : caller.save = none → allowed .assertionError) (hlit : m.lit c = .ok l)
    (hl : scope self l) (hleft : InScope scope (m.frames (c :: previous)))
    (hv : m.Valid (c :: previous)) (ht : m.bindings.Trail) :
    Routine.eval.Restores reg theories allowed caller self c previous m := by
  obtain ⟨rest, hrest⟩ := frame_of_lit hlit
  refine ⟨l.price weight self + pendingPrice weight (m.frames (c :: previous)), fun fuel hfuel => ?_⟩
  exact restored_of_follows (InPlace.evalFollows fuel caller self hv)
    (evalLeaves hb fuel caller self hsave hrest hl hleft ht hfuel)

/-- Every function ends and restores, wherever it is called. -/
theorem call_restores (hb : Bounded reg theories scope weight (· ≠ .outOfFuel))
    (hl : ∀ l, m.lit c = .ok l → scope self l) (hleft : InScope scope (m.frames (c :: previous)))
    (hv : m.Valid (c :: previous)) (ht : m.bindings.Trail) (routine : Routine) :
    routine.Restores reg theories (· ≠ .outOfFuel) caller self c previous m := by
  have hassert : caller.save = none → Fault.assertionError ≠ .outOfFuel := fun _ => by decide
  let n := pendingPrice weight (m.frames (c :: previous))
  cases hlit : m.lit c with
  | error e =>
    have he : e ≠ .outOfFuel := eq_indexError_of_lit hlit ▸ by decide
    refine ⟨n + 1, fun fuel hfuel => ?_⟩
    obtain ⟨k, rfl⟩ := Nat.exists_eq_add_of_le' (show 1 ≤ fuel by omega)
    cases routine with
    | eval =>
      rw [Routine.call, InPlace.eval, hlit]
      exact he
    | th =>
      rw [Routine.call, InPlace.th, hlit]
      exact he
    | builtin =>
      rw [Routine.call, InPlace.builtin, hlit]
      exact he
    | finish =>
      exact restored_of_follows (InPlace.finish_follows (InPlace.evalFollows _) caller hv)
        (finish_leaves (evalLeaves hb _) hassert hleft ht (by omega))
  | ok l =>
    have hscope := hl l hlit
    refine ⟨l.price weight self + n, fun fuel hfuel => ?_⟩
    have hE : EvalLeaves reg theories scope weight (· ≠ .outOfFuel) fuel := evalLeaves hb fuel
    have hF : InPlace.EvalFollows reg theories fuel := InPlace.evalFollows fuel
    have hprice := hfuel
    rw [Literal.price] at hprice
    have hpend : pendingPrice weight (m.frame c :: m.frames previous) = n := rfl
    cases routine with
    | eval =>
      obtain ⟨rest, hrest⟩ := frame_of_lit hlit
      exact restored_of_follows (hF caller self hv) (hE caller self hassert hrest hscope hleft ht hfuel)
    | th =>
      exact restored_of_follows (InPlace.th_follows hF hv hlit)
        (th_leaves hb hE hassert hscope (.inr (by decide)) hleft ht (by omega))
    | builtin =>
      cases hreg : reg l.table.table with
      | none =>
        simp only [Routine.call, InPlace.builtin, hlit, ok_bind, hreg]
        exact (by decide : Fault.attributeError ≠ .outOfFuel)
      | some built =>
        exact restored_of_follows (InPlace.builtin_follows hF hv hlit hreg)
          (builtin_leaves hE hassert (hb.inputs self l built hscope hreg) hleft ht (by omega))
    | finish =>
      exact restored_of_follows (InPlace.finish_follows hF caller hv)
        (finish_leaves hE hassert hleft ht (by omega))

/-! ## Calls that return -/

/-- A search of a selection: nothing is saved, and the literals that are left can be evaluated in their
order. -/
structure InPlace.Selects (reg : BuiltinRegistry V) (arity : String → String → ℕ) (ps : Policies V)
    (caller : Caller V) (c : TopDownContext V) (previous : List (TopDownContext V)) (l : Literal V)
    (m : InPlace V) : Prop where
  save : caller.save = none
  binding : caller.binding = 0
  safe : l.Safe reg fun x => Det m.bindings ∅ (c.binding, x)
  prepared : ∃ X, Prepared reg (ps.scope reg arity) X (keys c.binding [l]) (m.frames (c :: previous))
    m.toSearch

/-- A search of an abduction without negation. -/
structure InPlace.Abduces (ps : Policies V) (caller : Caller V) (c : TopDownContext V)
    (previous : List (TopDownContext V)) (l : Literal V) (m : InPlace V) : Prop where
  save : caller.save ≠ none
  current : l.negated = false
  left : ∀ f ∈ m.frames (c :: previous), ∀ b ∈ f.literals.tail, b.negated = false
  rules : ∀ p rules r, ps.lookup p = some rules → rules.HasRule r → ∀ b ∈ r.body, b.negated = false

/-- A selection that can be evaluated in its order returns. -/
theorem selects_restores (hps : ps.Admitted reg arity) (hlit : m.lit c = .ok l)
    (hl : ps.scope reg arity self l) (hv : m.Valid (c :: previous))
    (hs : m.Selects reg arity ps caller c previous l) :
    Routine.eval.Restores reg ps.theories (fun _ => False) caller self c previous m := by
  obtain ⟨σ, hσ⟩ : ∃ σ : Row V → ℕ, Stratifies σ {c | ps.Program reg evaluationFollows c} :=
    exists_stratification hps
  obtain ⟨weight, hpos, hweight⟩ := exists_weight hps
  have hset : ps.Weighed reg arity _ weight :=
    ⟨hps, fun p table values => mem_model_iff hps hσ table values, hpos, hweight⟩
  obtain ⟨rest, hrest⟩ := frame_of_lit hlit
  obtain ⟨X, hp⟩ := hs.prepared
  refine ⟨litCost weight self l + pendingCost weight (m.frames (c :: previous)), fun fuel hfuel => ?_⟩
  obtain ⟨done, s', new, ho, hb, -, hsup, hres, -⟩ := evalOk (X := X) (Policies.setting hset) fuel
    hs.save hs.binding hrest hl hs.safe hp hfuel
  refine restored_of_follows (InPlace.evalFollows fuel caller self hv) ?_
  rw [InPlace.frames, ho]
  exact ⟨hb, hsup, hres ▸ List.prefix_append ..⟩

/-- The atom `p(x)`. -/
def negationAtom : Literal ℕ := ⟨⟨none, "p", none⟩, [.variable "x"], false, []⟩

/-- A context for it in policy `b`. -/
def negationContext : TopDownContext ℕ := ⟨0, [negationAtom], 0, negationRules.toTopDown "b"⟩

/-- A search that starts there. -/
def negationSearch : InPlace ℕ := ⟨⟨[], 1, [], []⟩, 1, fun _ => 0⟩

theorem negationPolicies_not_cyclic : ¬ Cyclic negationPolicies.Depends := by
  refine not_cyclic_of_rank (fun t => if t.table = "p" then 1 else 0) ?_
  rintro a b ⟨p, rules, r, hp, hr, rfl, l, hl, rfl⟩
  obtain ⟨rfl, rfl⟩ := negation_rules hp hr
  exact (by decide : ∀ l ∈ negationRule.body, (if (l.table.within "b").table = "p" then 1 else 0)
    < if (negationRule.head.table.within "b").table = "p" then 1 else 0) l hl

theorem serve_theories (ps : Policies V) : ps.Serve ps.theories := by
  intro p th hth
  obtain ⟨rules, hp, rfl⟩ := Option.map_eq_some_iff.1 hth
  exact ⟨rfl, rfl, .inl ⟨rules, hp, rfl⟩⟩

theorem negation_isTheory : negationPolicies.IsTheory (negationRules.toTopDown "b") :=
  ⟨negationRules, rfl, rfl⟩

theorem negationSearch_valid : negationSearch.Valid [negationContext] :=
  ⟨by simp [negationContext, negationSearch], List.nodup_singleton _⟩

theorem negation_scope : negationPolicies.scope (fun _ => none) (fun _ _ => 1)
    (negationRules.toTopDown "b") negationAtom :=
  ⟨negation_isTheory, negation_asked.literals _ (List.mem_singleton_self _)⟩

theorem frames_negationSearch : negationSearch.frames [negationContext]
    = [⟨[negationAtom], 0, negationRules.toTopDown "b"⟩] := rfl

theorem negation_inScope : InScope (negationPolicies.scope (fun _ => none) fun _ _ => 1)
    (negationSearch.frames [negationContext]) := by
  simp [frames_negationSearch, InScope]

theorem negation_selects : negationSearch.Selects (fun _ => none) (fun _ _ => 1) negationPolicies
    ⟨["x"], 0, true, none⟩ negationContext [] negationAtom where
  save := rfl
  binding := rfl
  safe := by simp [Literal.Safe, negationAtom, Literal.isBuiltin, BuiltinRegistry.isBuiltin]
  prepared := by
    have hready : Search.Ready ["x"] negationSearch.toSearch :=
      ⟨trivial, by simp [negationSearch, Over], Nat.one_pos⟩
    refine ⟨["x"], ?_, hready, trivial, trivial⟩
    rw [frames_negationSearch, List.forall_mem_singleton]
    refine ⟨List.forall_mem_singleton.2 negation_scope, Nat.one_pos, List.forall_mem_singleton.2 ?_⟩
    simp [negationAtom, Literal.variableNames, Term.names]

end Congress
