import Congress.Proofs.Resolution

/-!
# What abduction finds

The search goes through derivations: each of its results is what is left at the end of one, and if all
results are asked for, every valuation under which the goals are derived from facts for the saved tables
only is covered by one of them (`evalAbduces`).
-/

namespace Congress

open Lib Bindings TopDown Relation Resolvent

set_option linter.unusedSectionVars false

variable {V : Type*} [DecidableEq V] {reg : BuiltinRegistry V} {theories : Theories V}
  {rules : RuleSet V} {p : String} {save : Literal V → Bool} {weight : Tablename → ℕ} {fuel : ℕ}
  {caller : Caller V} {f : Frame V} {previous fs : List (Frame V)} {lit : Literal V}
  {rest : List (Literal V)} {s s' : Search V} {gs : List (Literal V × ℕ)}

/-- A literal that abduction can come to in theory `p`: it is not negated, builtins have their arity,
other policies are not there, and the facts of its table have as many values as it. -/
structure Literal.Askable (reg : BuiltinRegistry V) (theories : Theories V) (rules : RuleSet V)
    (p : String) (save : Literal V → Bool) (l : Literal V) : Prop where
  positive : l.negated = false
  builtin : save l = false → l.isBuiltin reg true = true → ∀ built, reg l.table.table = some built →
    l.arguments.length = built.arity
  foreign : save l = false → ∀ q, movesTo (rules.toTopDown p) l = some q → theories q = none
  facts : save l = false → movesTo (rules.toTopDown p) l = none →
    ∀ fact, rules.HasFact l.table.table fact → fact.length = l.arguments.length

/-- A theory that is neither recursive nor has negation, by itself, and a query to it. -/
structure RuleSet.Abducible (reg : BuiltinRegistry V) (theories : Theories V) (rules : RuleSet V)
    (p : String) (save : Literal V → Bool) (query : Literal V) : Prop where
  nonrecursive : ¬ Cyclic (rules.Depends p)
  heads : ∀ r, rules.HasRule r → r.head.table.modal = none → r.head.table.service.getD p = p
  bodies : ∀ r, rules.HasRule r → ∀ l ∈ r.body, l.Askable reg theories rules p save
  query : query.Askable reg theories rules p save

/-- Facts for saved tables only. -/
def SavedOnly (save : Literal V → Bool) (facts : Set (GroundAtom V)) : Prop :=
  ∀ (l : Literal V) (ν : String → V), l.ground ν ∈ facts → save l = true

/-- What a caller stores for the end of a derivation. -/
def Caller.answer (c : Caller V) (f : Resolvent V) : TopDownResult V :=
  c.result ⟨f.bindings, 0, [], f.support⟩

/-- The ends of derivations from `a`, for each valuation of the first `n` unifiers that meets the goal
one that allows it. -/
structure Finds (reg : BuiltinRegistry V) (rules : RuleSet V) (p : String) (save : Literal V → Bool)
    (caller : Caller V) (n : ℕ) (a : Resolvent V)
    (goal : Set (GroundAtom V) → (ℕ × String → V) → Prop) (finals : List (Resolvent V)) : Prop where
  reached : ∀ f ∈ finals, ReflTransGen (Step reg (rules.toTopDown p) save) a f ∧ f.goals = []
  covers : caller.findAll = true → ∀ facts, SavedOnly save facts → ∀ ρ, Models ρ a.bindings →
    goal facts ρ → ∃ f ∈ finals, ∃ ρ', Models ρ' f.bindings ∧ (∀ u < n, ∀ x, ρ' (u, x) = ρ (u, x))
      ∧ ∀ g ∈ f.support, g.1.Given reg save facts fun x => ρ' (g.2, x)

/-- A call from `s` with these goals succeeds and finds results. -/
def Abduces (reg : BuiltinRegistry V) (rules : RuleSet V) (p : String) (save : Literal V → Bool)
    (caller : Caller V) (s : Search V) (gs : List (Literal V × ℕ))
    (goal : Set (GroundAtom V) → (ℕ × String → V) → Prop) (out : Outcome (Bool × Search V)) : Prop :=
  ∃ done s' finals, out = .ok (done, s') ∧ s'.bindings = s.bindings ∧ s.unifiers ≤ s'.unifiers
    ∧ s'.support = s.support ∧ s'.results = s.results ++ finals.map caller.answer
    ∧ Finds reg rules p save caller s.unifiers ⟨gs, s.bindings, s.support⟩ goal finals

/-- The goals are derived from what is given for the saved tables. -/
def Goal (reg : BuiltinRegistry V) (rules : RuleSet V) (p : String) (save : Literal V → Bool)
    (gs sup : List (Literal V × ℕ)) (facts : Set (GroundAtom V)) (ρ : ℕ × String → V) : Prop :=
  (⟨gs, [], sup⟩ : Resolvent V).Holds rules reg p save save facts ρ

section Finds

variable {n m : ℕ} {a b : Resolvent V} {goal goal' : Set (GroundAtom V) → (ℕ × String → V) → Prop}
  {finals finals' : List (Resolvent V)} {out : Outcome (Bool × Search V)}

/-- From a state that the derivations come to. -/
theorem Finds.head (hf : Finds reg rules p save caller m b goal' finals)
    (hab : ReflTransGen (Step reg (rules.toTopDown p) save) a b) (hn : n ≤ m)
    (hgoal : ∀ facts, SavedOnly save facts → ∀ ρ, Models ρ a.bindings → goal facts ρ → ∃ ρ',
      Models ρ' b.bindings ∧ (∀ u < n, ∀ x, ρ' (u, x) = ρ (u, x)) ∧ goal' facts ρ') :
    Finds reg rules p save caller n a goal finals where
  reached f hmem := ⟨hab.trans (hf.reached f hmem).1, (hf.reached f hmem).2⟩
  covers hall facts hfacts ρ hm hg := by
    obtain ⟨ρ₁, hm₁, hold₁, hg₁⟩ := hgoal facts hfacts ρ hm hg
    obtain ⟨f, hmem, ρ₂, hm₂, hold₂, hsup⟩ := hf.covers hall facts hfacts ρ₁ hm₁ hg₁
    exact ⟨f, hmem, ρ₂, hm₂, fun u hu x => (hold₂ u (hu.trans_le hn) x).trans (hold₁ u hu x), hsup⟩

/-- One more alternative. -/
theorem Finds.append (hf : Finds reg rules p save caller n a goal finals)
    (hf' : Finds reg rules p save caller n a goal' finals') :
    Finds reg rules p save caller n a (fun facts ρ => goal facts ρ ∨ goal' facts ρ)
      (finals ++ finals') where
  reached f hmem := (List.mem_append.1 hmem).elim (hf.reached f) (hf'.reached f)
  covers hall facts hfacts ρ hm hg := by
    rcases hg with hg | hg
    · obtain ⟨f, hmem, h⟩ := hf.covers hall facts hfacts ρ hm hg
      exact ⟨f, List.mem_append_left _ hmem, h⟩
    · obtain ⟨f, hmem, h⟩ := hf'.covers hall facts hfacts ρ hm hg
      exact ⟨f, List.mem_append_right _ hmem, h⟩

/-- Nothing is found where nothing meets the goal. -/
theorem Abduces.fail (hgoal : ∀ facts, SavedOnly save facts → ∀ ρ, Models ρ s.bindings → ¬ goal facts ρ)
    {done : Bool} (hb : s'.bindings = s.bindings) (hu : s.unifiers ≤ s'.unifiers)
    (hp : s'.support = s.support) (hr : s'.results = s.results) :
    Abduces reg rules p save caller s gs goal (.ok (done, s')) :=
  ⟨done, s', [], rfl, hb, hu, hp, by simp [hr], by simp,
    fun _ facts hfacts ρ hm hg => absurd hg (hgoal facts hfacts ρ hm)⟩

/-- With one derivation step less to do. -/
theorem Abduces.step {gs' : List (Literal V × ℕ)} (hs : Abduces reg rules p save caller s gs' goal' out)
    (hstep : Step reg (rules.toTopDown p) save ⟨gs, s.bindings, s.support⟩ ⟨gs', s.bindings, s.support⟩)
    (hgoal : ∀ facts, SavedOnly save facts → ∀ ρ, Models ρ s.bindings → goal facts ρ → goal' facts ρ) :
    Abduces reg rules p save caller s gs goal out := by
  obtain ⟨done, s', finals, ho, hb, hu, hp, hr, hf⟩ := hs
  exact ⟨done, s', finals, ho, hb, hu, hp, hr, hf.head (.single hstep) le_rfl
    fun facts hfacts ρ hm hg => ⟨ρ, hm, fun _ _ _ => rfl, hgoal facts hfacts ρ hm hg⟩⟩

end Finds

/-! ## The state of the search -/

/-- The literals still to be proved. -/
def pending (fs : List (Frame V)) : List (Literal V × ℕ) :=
  fs.flatMap fun f => f.literals.tail.map (·, f.binding)

/-- The fuel that goals need. -/
def cost (weight : Tablename → ℕ) (p : String) (gs : List (Literal V × ℕ)) : ℕ :=
  (gs.map fun g => weight (g.1.table.within p)).sum

/-- What holds of the search whenever it is called with these goals. -/
structure Search.Fits (reg : BuiltinRegistry V) (theories : Theories V) (rules : RuleSet V) (p : String)
    (save : Literal V → Bool) (s : Search V) (gs : List (Literal V × ℕ)) : Prop where
  trail : s.bindings.Trail
  bounded : s.bindings.Over (·.1 < s.unifiers)
  pos : 0 < s.unifiers
  goals : ∀ g ∈ gs, g.1.Askable reg theories rules p save ∧ g.2 < s.unifiers
  support : ∀ g ∈ s.support, g.2 < s.unifiers

theorem Search.Fits.fresh (hs : s.Fits reg theories rules p save gs) :
    Fresh ⟨gs, s.bindings, s.support⟩ s.unifiers where
  caller := hs.pos.ne'
  goals g hg := (hs.goals g hg).2.ne
  bindings := hs.bounded.mono fun _ hk => hk.ne
  support g hg := (hs.support g hg).ne

theorem Search.Fits.tail {g : Literal V × ℕ} (hs : s.Fits reg theories rules p save (g :: gs)) :
    s.Fits reg theories rules p save gs :=
  ⟨hs.trail, hs.bounded, hs.pos, fun g hg => hs.goals g (List.mem_cons_of_mem _ hg), hs.support⟩

/-- Evaluation with this fuel, if it is enough, abduces. -/
def EvalAbduces (reg : BuiltinRegistry V) (theories : Theories V) (rules : RuleSet V) (p : String)
    (save : Literal V → Bool) (weight : Tablename → ℕ) (fuel : ℕ) : Prop :=
  ∀ {caller : Caller V} {f : Frame V} {previous : List (Frame V)} {lit : Literal V}
    {rest : List (Literal V)} {s : Search V}, caller.save = some save → f.literals = lit :: rest →
    (∀ g ∈ f :: previous, g.theory = rules.toTopDown p) →
    s.Fits reg theories rules p save ((lit, f.binding) :: pending (f :: previous)) →
    cost weight p ((lit, f.binding) :: pending (f :: previous)) ≤ fuel →
    Abduces reg rules p save caller s ((lit, f.binding) :: pending (f :: previous))
      (Goal reg rules p save ((lit, f.binding) :: pending (f :: previous)) s.support)
      (eval reg theories fuel caller (rules.toTopDown p) f previous s)

theorem pending_cons (f : Frame V) (fs : List (Frame V)) :
    pending (f :: fs) = f.literals.tail.map (·, f.binding) ++ pending fs := by
  rw [pending, List.flatMap_cons]
  rfl

/-- `_top_down_finish`, by recursion on the contexts. -/
theorem finish_abduces (hE : EvalAbduces reg theories rules p save weight fuel)
    (hsave : caller.save = some save) : ∀ {fs : List (Frame V)} {s : Search V},
    (∀ f ∈ fs, f.theory = rules.toTopDown p) → s.Fits reg theories rules p save (pending fs) →
    cost weight p (pending fs) ≤ fuel →
    Abduces reg rules p save caller s (pending fs) (Goal reg rules p save (pending fs) s.support)
      (finish (eval reg theories fuel caller) caller fs s)
  | [], s, _, _, _ => by
    refine ⟨true, _, [⟨[], s.bindings, s.support⟩], rfl, rfl, le_rfl, rfl, rfl, ?_, ?_⟩
    · rw [List.forall_mem_singleton]
      exact ⟨.refl, rfl⟩
    · exact fun _ facts _ ρ hm hg => ⟨_, List.mem_singleton_self _, ρ, hm, fun _ _ _ => rfl, hg.2⟩
  | f :: fs, s, hself, hs, hcost => by
    rw [finish]
    split
    · rename_i l₀ l ls hls
      have hpending : pending (f :: fs)
          = (l, f.binding) :: pending ({ f with literals := l :: ls } :: fs) := by
        rw [pending_cons, pending_cons, hls]
        rfl
      rw [hpending] at hs hcost ⊢
      have hself' : ∀ g ∈ ({ f with literals := l :: ls } : Frame V) :: fs, g.theory = rules.toTopDown p :=
        List.forall_mem_cons.2 (List.forall_mem_cons.1 hself)
      have heval := hE (f := { f with literals := l :: ls }) hsave rfl hself' hs hcost
      rwa [← hself f (List.mem_cons_self ..)] at heval
    · rename_i hls
      have htail : f.literals.tail = [] := by
        rcases hl : f.literals with _ | ⟨l₀, _ | ⟨l, ls⟩⟩
        · rfl
        · rfl
        · exact absurd hl (hls l₀ l ls)
      have hpending : pending (f :: fs) = pending fs := by
        rw [pending_cons, htail]
        rfl
      rw [hpending] at hs hcost ⊢
      exact finish_abduces hE hsave (fun g hg => hself g (List.mem_cons_of_mem _ hg)) hs hcost

/-- Literals in a context of their own. -/
theorem proveBody_abduces (hE : EvalAbduces reg theories rules p save weight fuel)
    (hsave : caller.save = some save) {body : List (Literal V)} {u : ℕ}
    (hself : ∀ f ∈ fs, f.theory = rules.toTopDown p)
    (hs : s.Fits reg theories rules p save (body.map (·, u) ++ pending fs))
    (hcost : cost weight p (body.map (·, u) ++ pending fs) ≤ fuel) :
    Abduces reg rules p save caller s (body.map (·, u) ++ pending fs)
      (Goal reg rules p save (body.map (·, u) ++ pending fs) s.support)
      (proveBody (eval reg theories fuel caller) caller (rules.toTopDown p) body u fs s) := by
  rcases body with _ | ⟨b, bs⟩
  · exact finish_abduces hE hsave hself hs hcost
  · have hpending : (b :: bs).map (·, u) ++ pending fs
        = (b, u) :: pending (⟨b :: bs, u, rules.toTopDown p⟩ :: fs) := by
      rw [pending_cons]
      rfl
    rw [hpending] at hs hcost ⊢
    exact hE (f := ⟨b :: bs, u, rules.toTopDown p⟩) hsave rfl (List.forall_mem_cons.2 ⟨rfl, hself⟩) hs
      hcost

/-! ## Literals that are saved, evident or builtin -/

/-- How a literal is derived if only facts are used for the saved tables. -/
theorem derives_saved {facts : Set (GroundAtom V)} {ν : String → V} (hfacts : SavedOnly save facts)
    (h : rules.Derives reg p save facts lit ν) :
    (save lit = true ∧ lit.ground ν ∈ facts) ∨ (save lit = false ∧ lit.Evident reg ν)
      ∨ save lit = false ∧ lit.isReserved reg = false ∧ ∃ r μ, rules.HasClause r
        ∧ r.head.sameSchema lit (some p) = true ∧ r.head.values μ = lit.values ν
        ∧ ∀ b ∈ r.body, rules.Derives reg p save facts b μ := by
  cases h with
  | given hmem => exact .inl ⟨hfacts _ _ hmem, hmem⟩
  | evident hs he => exact .inr (.inl ⟨hs, he⟩)
  | clause hs hl hr hsame hhead hbody => exact .inr (.inr ⟨hs, hl, _, _, hr, hsame, hhead, hbody⟩)

theorem isReserved_of_evident {ν : String → V} (h : lit.Evident reg ν) : lit.isReserved reg = true := by
  unfold Literal.isReserved
  rcases h with h | ⟨-, h, -⟩
  · simp [h]
  · simp [h]

/-- What is given for a literal that has been saved. -/
theorem given_of_derives {facts : Set (GroundAtom V)} {ν : String → V} (hfacts : SavedOnly save facts)
    (hreserved : save lit = true ∨ lit.isReserved reg = true)
    (h : rules.Derives reg p save facts lit ν) : lit.Given reg save facts ν := by
  unfold Literal.Given
  rcases derives_saved hfacts h with ⟨hs, hmem⟩ | ⟨hs, he⟩ | ⟨hs, hnot, -⟩
  · rwa [if_pos hs]
  · rwa [if_neg (by simp [hs])]
  · simp [hs, hnot] at hreserved

/-- A literal that is saved. -/
theorem save_abduces (hE : EvalAbduces reg theories rules p save weight fuel)
    (hsave : caller.save = some save) (hself : ∀ g ∈ f :: previous, g.theory = rules.toTopDown p)
    (hs : s.Fits reg theories rules p save ((lit, f.binding) :: pending (f :: previous)))
    (hcost : cost weight p (pending (f :: previous)) ≤ fuel)
    (hreserved : save lit = true ∨ lit.isReserved reg = true)
    (hstep : Step reg (rules.toTopDown p) save
      ⟨(lit, f.binding) :: pending (f :: previous), s.bindings, s.support⟩
      ⟨pending (f :: previous), s.bindings, s.support ++ [(lit, f.binding)]⟩) :
    Abduces reg rules p save caller s ((lit, f.binding) :: pending (f :: previous))
      (Goal reg rules p save ((lit, f.binding) :: pending (f :: previous)) s.support)
      (TopDown.save (finish (eval reg theories fuel caller) caller) lit f previous s) := by
  have hs₁ : Search.Fits reg theories rules p save
      { s with support := s.support ++ [(lit, f.binding)] } (pending (f :: previous)) := by
    refine ⟨hs.trail, hs.bounded, hs.pos, hs.tail.goals, List.forall_mem_append.2 ⟨hs.support, ?_⟩⟩
    rw [List.forall_mem_singleton]
    exact (hs.goals _ (List.mem_cons_self ..)).2
  obtain ⟨done, s', finals, ho, hb, hu, hp, hr, hf⟩ := finish_abduces hE hsave hself hs₁ hcost
  refine ⟨done, { s' with support := s'.support.dropLast }, finals, by rw [TopDown.save, ho]; rfl, hb, hu,
    by rw [hp]; simp, hr, hf.head (.single hstep) le_rfl fun facts hfacts ρ hm hg => ?_⟩
  obtain ⟨hlit, hgoals⟩ := List.forall_mem_cons.1 hg.1
  refine ⟨ρ, hm, fun _ _ _ => rfl, hgoals, List.forall_mem_append.2 ⟨hg.2, ?_⟩⟩
  rw [List.forall_mem_singleton]
  exact given_of_derives hfacts hreserved hlit

/-- A literal that is found to be true. -/
theorem true_abduces (hE : EvalAbduces reg theories rules p save weight fuel)
    (hsave : caller.save = some save) (hself : ∀ g ∈ f :: previous, g.theory = rules.toTopDown p)
    (hs : s.Fits reg theories rules p save ((lit, f.binding) :: pending (f :: previous)))
    (hcost : cost weight p (pending (f :: previous)) ≤ fuel)
    (hstep : Step reg (rules.toTopDown p) save
      ⟨(lit, f.binding) :: pending (f :: previous), s.bindings, s.support⟩
      ⟨pending (f :: previous), s.bindings, s.support⟩) :
    Abduces reg rules p save caller s ((lit, f.binding) :: pending (f :: previous))
      (Goal reg rules p save ((lit, f.binding) :: pending (f :: previous)) s.support)
      (finish (eval reg theories fuel caller) caller (f :: previous) s) :=
  (finish_abduces hE hsave hself hs.tail hcost).step hstep fun _ _ _ _ hg =>
    ⟨(List.forall_mem_cons.1 hg.1).2, hg.2⟩

/-- The inputs are there if there are as many arguments. -/
theorem inputs_ok : ∀ (n : ℕ) (ts : List (Term V)), n ≤ ts.length →
    ∃ args, inputs n ts = .ok args
  | 0, _, _ => ⟨some [], rfl⟩
  | n + 1, .variable _ :: _, _ => ⟨none, rfl⟩
  | n + 1, .object v :: ts, hn => by
    obtain ⟨args, hargs⟩ := inputs_ok n ts (Nat.le_of_succ_le_succ hn)
    exact ⟨args.map (v :: ·), by rw [inputs, hargs]; rfl⟩

theorem relation_of_derives {facts : Set (GroundAtom V)} {ν : String → V} (hfacts : SavedOnly save facts)
    (hnot : save lit = false) (htrue : lit.tablename none ≠ "true") (hb : lit.isBuiltin reg true = true)
    (h : rules.Derives reg p save facts lit ν) : reg.Relation lit.table.table (lit.values ν) := by
  have hgiven := given_of_derives hfacts (.inr (by simp [Literal.isReserved, hb])) h
  rw [Literal.Given, if_neg (by simp [hnot])] at hgiven
  exact (hgiven.resolve_left htrue).2.2

theorem builtin_abduces {built : Builtin V} (hE : EvalAbduces reg theories rules p save weight fuel)
    (hsave : caller.save = some save) (hself : ∀ g ∈ f :: previous, g.theory = rules.toTopDown p)
    (hs : s.Fits reg theories rules p save ((lit, f.binding) :: pending (f :: previous)))
    (hcost : cost weight p (pending (f :: previous)) ≤ fuel) (hnot : save lit = false)
    (htrue : lit.tablename none ≠ "true") (hfalse : lit.tablename none ≠ "false")
    (hb : lit.isBuiltin reg true = true) (hreg : reg lit.table.table = some built) :
    Abduces reg rules p save caller s ((lit, f.binding) :: pending (f :: previous))
      (Goal reg rules p save ((lit, f.binding) :: pending (f :: previous)) s.support)
      (builtin (finish (eval reg theories fuel caller) caller) caller built lit f previous s) := by
  have harity := (hs.goals _ (List.mem_cons_self ..)).1.builtin hnot hb built hreg
  have hrelation : ∀ facts, SavedOnly save facts → ∀ ρ,
      Goal reg rules p save ((lit, f.binding) :: pending (f :: previous)) s.support facts ρ →
      reg.Relation lit.table.table (lit.values fun x => ρ (f.binding, x)) := fun facts hfacts ρ hg =>
    relation_of_derives hfacts hnot htrue hb (hg.1 _ (List.mem_cons_self ..))
  obtain ⟨args, hin⟩ : ∃ args, inputs built.numInputs (lit.plug s.bindings f.binding).arguments = .ok args :=
    inputs_ok _ _ (by
      rw [Literal.plug, List.length_map, harity, Builtin.arity]
      omega)
  rw [builtin, hin]
  rcases args with _ | args
  · show Abduces _ _ _ _ _ _ _ _ (if caller.save.isSome then _ else _)
    rw [if_pos (by rw [hsave]; rfl)]
    exact save_abduces hE hsave hself hs hcost (.inr (by simp [Literal.isReserved, hb]))
      (.unbound hnot hfalse hb hreg hin)
  rcases built with ⟨n, code⟩ | ⟨n, k, code⟩
  · show Abduces _ _ _ _ _ _ _ _ (if code args = some true then _ else _)
    split_ifs with hcode
    · exact true_abduces hE hsave hself hs hcost (.test hnot hfalse hb hreg hin hcode)
    · exact .fail (fun facts hfacts ρ hm hg => hcode ((relation_test hs.trail hm hreg hin).1
        (hrelation facts hfacts ρ hg))) rfl le_rfl rfl rfl
  · have hcalls : ∀ facts, SavedOnly save facts → ∀ ρ, Models ρ s.bindings →
        Goal reg rules p save ((lit, f.binding) :: pending (f :: previous)) s.support facts ρ →
        code args = some ((lit.arguments.drop n).map (Term.value fun x => ρ (f.binding, x))) :=
      fun facts hfacts ρ hm hg =>
        (relation_function hs.trail hm hreg hin).1 (hrelation facts hfacts ρ hg)
    simp only [bind, Except.bind]
    rcases hcode : code args with _ | result
    · exact .fail (fun facts hfacts ρ hm hg => by simpa [hcode] using hcalls facts hfacts ρ hm hg) rfl le_rfl
        rfl rfl
    dsimp only
    rw [Nat.add_sub_cancel]
    rcases huni : s.bindings.biUnifyLists (result.map .object) s.unifiers (lit.arguments.drop n) f.binding
      with ⟨h, _ | undo⟩
    · obtain ⟨rfl, hne⟩ := biUnifyLists_none hs.trail huni
      refine .fail (fun facts hfacts ρ hm hg => ?_) rfl (Nat.le_succ _) rfl rfl
      have hresult := Option.some.inj (hcode.symm.trans (hcalls facts hfacts ρ hm hg))
      have hlen : (result.map Term.object).length = (lit.arguments.drop n).length := by simp [hresult]
      obtain ⟨v, hv, hne⟩ := hne hlen ρ hm
      exact hne ((zip_eval_iff ρ _ _ hlen).2 (by rw [map_value_object, ← hresult]) v hv)
    · obtain ⟨hlen, hunified, hundo⟩ := biUnifyLists_some hs.trail huni
      have hlit := (hs.goals _ (List.mem_cons_self ..)).2
      have hs₁ : Search.Fits reg theories rules p save
          { s with bindings := h, unifiers := s.unifiers + 1 } (pending (f :: previous)) := by
        refine ⟨hunified.trail, hunified.bounded _ (hs.bounded.mono fun _ => Nat.lt_succ_of_lt) ?_,
          Nat.succ_pos _, fun g hg => ⟨(hs.tail.goals g hg).1, Nat.lt_succ_of_lt (hs.tail.goals g hg).2⟩,
          fun g hg => Nat.lt_succ_of_lt (hs.support g hg)⟩
        rintro ⟨v, w⟩ hvw
        obtain ⟨hv, hw⟩ := List.of_mem_zip hvw
        exact ⟨over_of_names (fun x _ => Nat.lt_succ_self _) v hv,
          over_of_names (fun x _ => Nat.lt_succ_of_lt hlit) w hw⟩
      obtain ⟨done, s', finals, ho, hb', hu, hp, hr, hf⟩ := finish_abduces hE hsave hself hs₁ hcost
      refine ⟨done, { s' with bindings := s'.bindings.undoAll undo }, finals, ?_, ?_,
        (Nat.le_succ _).trans hu, hp, hr, hf.head (.single (.function hnot hfalse hb hreg hin hcode huni))
          (Nat.le_succ _) fun facts hfacts ρ hm hg => ?_⟩
      · dsimp only at ho ⊢
        rw [ho]
        rfl
      · rw [hb']
        exact hundo
      · refine ⟨ρ, (hunified.models ρ).2 ⟨hm, (zip_eval_iff ρ _ _ hlen).2 ?_⟩, fun _ _ _ => rfl,
          (List.forall_mem_cons.1 hg.1).2, hg.2⟩
        rw [map_value_object]
        exact Option.some.inj (hcode.symm.trans (hcalls facts hfacts ρ hm hg))

/-! ## Clauses -/

/-- The literal is derived by one of the rules. -/
def DerivedBy (reg : BuiltinRegistry V) (rules : RuleSet V) (p : String) (save : Literal V → Bool)
    (facts : Set (GroundAtom V)) (lit : Literal V) (ν : String → V) (r : Rule V) : Prop :=
  r.head.sameSchema lit (some p) = true ∧ ∃ μ, r.head.values μ = lit.values ν
    ∧ ∀ b ∈ r.body, rules.Derives reg p save facts b μ

theorem goal_congr {facts : Set (GroundAtom V)} {sup : List (Literal V × ℕ)} {n : ℕ}
    {ρ ρ' : ℕ × String → V} (hold : ∀ u, u < n → (fun x => ρ' (u, x)) = fun x => ρ (u, x))
    (hgs : ∀ g ∈ gs, g.2 < n) (hsup : ∀ g ∈ sup, g.2 < n)
    (hg : Goal reg rules p save gs sup facts ρ) : Goal reg rules p save gs sup facts ρ' := by
  refine ⟨fun g hmem => ?_, fun g hmem => ?_⟩
  · show rules.Derives reg p save facts g.1 fun x => ρ' (g.2, x)
    rw [hold _ (hgs g hmem)]
    exact hg.1 g hmem
  · show g.1.Given reg save facts fun x => ρ' (g.2, x)
    rw [hold _ (hsup g hmem)]
    exact hg.2 g hmem

/-- The weights of tables pay for the bodies of their rules. -/
structure Pays (rules : RuleSet V) (p : String) (weight : Tablename → ℕ) : Prop where
  pos : ∀ t, 0 < weight t
  body : ∀ r, rules.HasRule r →
    (r.body.map fun l => weight (l.table.within p)).sum + 1 ≤ weight (r.head.table.within p)

theorem Pays.clause (hpays : Pays rules p weight) {r : Rule V} (hr : rules.HasClause r) :
    (r.body.map fun l => weight (l.table.within p)).sum + 1 ≤ weight (r.head.table.within p) := by
  rcases hr with hr | ⟨table, fact, -, rfl⟩
  · exact hpays.body r hr
  · exact hpays.pos _

theorem within_eq_of_sameSchema {l l' : Literal V} (h : l.sameSchema l' (some p) = true) :
    l.table.within p = l'.table.within p := by
  obtain ⟨⟨htable, hmodal, hservice⟩, -⟩ := sameSchema_iff.1 h
  rw [Tablename.within, Tablename.within, htable, hmodal, hservice]

theorem cost_append (gs gs' : List (Literal V × ℕ)) :
    cost weight p (gs ++ gs') = cost weight p gs + cost weight p gs' := by
  rw [cost, List.map_append, List.sum_append]
  rfl

theorem cost_map (ls : List (Literal V)) (u : ℕ) :
    cost weight p (ls.map (·, u)) = (ls.map fun l => weight (l.table.within p)).sum := by
  rw [cost, List.map_map]
  rfl

/-- One rule whose head has been unified with the literal. -/
theorem clause_abduces {r : Rule V} {h : Bindings V} {undo : List (ℕ × String)} {cs : List (Clause V)}
    (hE : EvalAbduces reg theories rules p save weight fuel) (hsave : caller.save = some save)
    (hpays : Pays rules p weight)
    (hbodies : ∀ r, rules.HasRule r → ∀ l ∈ r.body, l.Askable reg theories rules p save)
    (hself : ∀ g ∈ f :: previous, g.theory = rules.toTopDown p)
    (hs : s.Fits reg theories rules p save ((lit, f.binding) :: pending (f :: previous)))
    (hcost : cost weight p ((lit, f.binding) :: pending (f :: previous)) ≤ fuel + 1)
    (hnot : save lit = false) (hreserved : lit.isReserved reg = false)
    (hindex : (rules.toTopDown p).headIndex lit.table.table (lit.plug s.bindings f.binding) = some cs)
    (hr : .rule r ∈ cs)
    (hu : s.bindings.biUnifyAtoms r.head s.unifiers lit f.binding (some p) = (h, some undo)) :
    ∃ done s' finals, proveBody (eval reg theories fuel caller) caller (rules.toTopDown p) r.body
        s.unifiers (f :: previous) { s with bindings := h, unifiers := s.unifiers + 1 } = .ok (done, s')
      ∧ s'.bindings.undoAll undo = s.bindings ∧ s.unifiers ≤ s'.unifiers ∧ s'.support = s.support
      ∧ s'.results = s.results ++ finals.map caller.answer
      ∧ Finds reg rules p save caller s.unifiers
        ⟨(lit, f.binding) :: pending (f :: previous), s.bindings, s.support⟩
        (fun facts ρ => DerivedBy reg rules p save facts lit (fun x => ρ (f.binding, x)) r
          ∧ Goal reg rules p save (pending (f :: previous)) s.support facts ρ) finals := by
  obtain ⟨hsame, hunified, hundo, -⟩ := biUnifyAtoms_some hs.trail hu
  have hclause : rules.HasClause r := by
    obtain ⟨rs, hrs, rfl⟩ := Option.map_eq_some_iff.1 hindex
    obtain ⟨r', hr', he⟩ := List.mem_map.1 hr
    cases he
    exact mem_getRules hrs hr' (sameSchema_iff.1 hsame).1.1
  have hask : ∀ l ∈ r.body, l.Askable reg theories rules p save := by
    rcases hclause with hr | ⟨table, fact, -, rfl⟩
    · exact hbodies r hr
    · simp [factRule]
  have hlit := (hs.goals _ (List.mem_cons_self ..)).2
  have hs₁ : Search.Fits reg theories rules p save
      { s with bindings := h, unifiers := s.unifiers + 1 }
      (r.body.map (·, s.unifiers) ++ pending (f :: previous)) := by
    refine ⟨hunified.trail, hunified.bounded _ (hs.bounded.mono fun _ => Nat.lt_succ_of_lt) ?_,
      Nat.succ_pos _, List.forall_mem_append.2 ⟨?_, fun g hg => ?_⟩,
      fun g hg => Nat.lt_succ_of_lt (hs.support g hg)⟩
    · rintro ⟨v, w⟩ hvw
      obtain ⟨hv, hw⟩ := List.of_mem_zip hvw
      exact ⟨over_of_names (fun x _ => Nat.lt_succ_self _) v hv,
        over_of_names (fun x _ => Nat.lt_succ_of_lt hlit) w hw⟩
    · exact List.forall_mem_map.2 fun l hl => ⟨hask l hl, Nat.lt_succ_self _⟩
    · exact ⟨(hs.tail.goals g hg).1, Nat.lt_succ_of_lt (hs.tail.goals g hg).2⟩
  have hcost' : cost weight p (r.body.map (·, s.unifiers) ++ pending (f :: previous)) ≤ fuel := by
    have hbody := hpays.clause hclause
    rw [within_eq_of_sameSchema hsame] at hbody
    have hcons : cost weight p ((lit, f.binding) :: pending (f :: previous))
      = weight (lit.table.within p) + cost weight p (pending (f :: previous)) := rfl
    rw [cost_append, cost_map]
    omega
  obtain ⟨done, s', finals, ho, hb, hun, hsup, hres, hf⟩ := proveBody_abduces hE hsave hself hs₁ hcost'
  refine ⟨done, s', finals, ho, by rw [hb]; exact hundo, (Nat.le_succ _).trans hun, hsup, hres,
    hf.head (.single (.clause hnot hreserved hindex hr hs.fresh hu)) (Nat.le_succ _)
      fun facts hfacts ρ hm hg => ?_⟩
  obtain ⟨⟨-, μ, hhead, hbody⟩, hg⟩ := hg
  obtain ⟨ρ', hm', hnew, hold⟩ := exists_extension_of_over hs.bounded hm μ
  have hlen := (sameSchema_iff.1 hsame).2
  refine ⟨ρ', (hunified.models ρ').2 ⟨hm', (zip_eval_iff ρ' _ _ hlen).2 ?_⟩,
    fun u hu x => congrFun (hold u hu) x, ?_⟩
  · rw [hnew, hold _ hlit]
    exact hhead
  · have hg' := goal_congr hold (fun g hg => (hs.tail.goals g hg).2) hs.support hg
    refine ⟨List.forall_mem_append.2 ⟨List.forall_mem_map.2 fun l hl => ?_, hg'.1⟩, hg'.2⟩
    show rules.Derives reg p save facts l fun x => ρ' (s.unifiers, x)
    rw [hnew]
    exact hbody l hl

theorem Search.Fits.of_later (hs : s.Fits reg theories rules p save gs) (hb : s'.bindings = s.bindings)
    (hu : s.unifiers ≤ s'.unifiers) (hsup : s'.support = s.support) :
    s'.Fits reg theories rules p save gs where
  trail := hb ▸ hs.trail
  bounded := hb ▸ hs.bounded.mono fun _ hk => lt_of_lt_of_le hk hu
  pos := hs.pos.trans_le hu
  goals g hg := ⟨(hs.goals g hg).1, (hs.goals g hg).2.trans_le hu⟩
  support g hg := (hs.support g (hsup ▸ hg)).trans_le hu

/-- From a search that differs in unifiers and results. -/
theorem Abduces.of_later {goal : Set (GroundAtom V) → (ℕ × String → V) → Prop}
    {out : Outcome (Bool × Search V)} (ha : Abduces reg rules p save caller s' gs goal out)
    (hb : s'.bindings = s.bindings) (hu : s.unifiers ≤ s'.unifiers) (hsup : s'.support = s.support) :
    ∃ done s'' finals, out = .ok (done, s'') ∧ s''.bindings = s.bindings ∧ s.unifiers ≤ s''.unifiers
      ∧ s''.support = s.support ∧ s''.results = s'.results ++ finals.map caller.answer
      ∧ Finds reg rules p save caller s.unifiers ⟨gs, s.bindings, s.support⟩ goal finals := by
  obtain ⟨done, s'', finals, ho, hb', hu', hsup', hr, hf⟩ := ha
  rw [hb, hsup] at hf
  exact ⟨done, s'', finals, ho, hb'.trans hb, hu.trans hu', hsup'.trans hsup, hr,
    hf.head .refl hu fun facts _ ρ hm hg => ⟨ρ, hm, fun _ _ _ => rfl, hg⟩⟩

/-- The loop over the rules. -/
theorem tryClauses_abduces {cs : List (Clause V)}
    (hE : EvalAbduces reg theories rules p save weight fuel) (hsave : caller.save = some save)
    (hpays : Pays rules p weight)
    (hbodies : ∀ r, rules.HasRule r → ∀ l ∈ r.body, l.Askable reg theories rules p save)
    (hself : ∀ g ∈ f :: previous, g.theory = rules.toTopDown p)
    (hcost : cost weight p ((lit, f.binding) :: pending (f :: previous)) ≤ fuel + 1)
    (hnot : save lit = false) (hreserved : lit.isReserved reg = false) : ∀ (rs : List (Rule V)) {s : Search V},
    s.Fits reg theories rules p save ((lit, f.binding) :: pending (f :: previous)) →
    (rules.toTopDown p).headIndex lit.table.table (lit.plug s.bindings f.binding) = some cs →
    (∀ r ∈ rs, .rule r ∈ cs) →
    Abduces reg rules p save caller s ((lit, f.binding) :: pending (f :: previous))
      (fun facts ρ => (∃ r ∈ rs, DerivedBy reg rules p save facts lit (fun x => ρ (f.binding, x)) r)
        ∧ Goal reg rules p save (pending (f :: previous)) s.support facts ρ)
      (tryClauses (eval reg theories fuel caller) caller (rules.toTopDown p) lit f previous
        (rs.map .rule) s)
  | [], s, _, _, _ => .fail (by simp) rfl le_rfl rfl rfl
  | r :: rs, s, hs, hindex, hmem => by
    obtain ⟨hr, hmem⟩ := List.forall_mem_cons.1 hmem
    rw [List.map_cons, tryClauses]
    rcases hu : s.bindings.biUnifyAtoms r.head s.unifiers lit f.binding (some p) with ⟨h, _ | undo⟩
    · have hu' : biUnify s.bindings (.rule r) s.unifiers lit f.binding (rules.toTopDown p).name
        = (h, none) := hu
      simp only [hu']
      obtain ⟨rfl, hne⟩ := biUnifyAtoms_none hs.trail hu
      have hs₁ : Search.Fits reg theories rules p save { s with unifiers := s.unifiers + 1 } _ :=
        hs.of_later rfl (Nat.le_succ _) rfl
      obtain ⟨done, s', finals, ho, hb, hun, hsup, hres, hf⟩ :=
        (tryClauses_abduces hE hsave hpays hbodies hself hcost hnot hreserved rs hs₁ hindex hmem).of_later
          (s := s) rfl (Nat.le_succ _) rfl
      refine ⟨done, s', finals, ho, hb, hun, hsup, hres, hf.head .refl le_rfl fun facts _ ρ hm hg =>
        ⟨ρ, hm, fun _ _ _ => rfl, ?_, hg.2⟩⟩
      -- the rule does not derive the literal under any valuation that is left
      refine ((List.exists_mem_cons_iff ..).1 hg.1).resolve_left ?_
      rintro ⟨hsame, μ, hhead, -⟩
      obtain ⟨ρ', hm', hnew, hold⟩ := exists_extension_of_over hs.bounded hm μ
      refine hne hsame ρ' hm' ?_
      rw [hnew, hold _ (hs.goals _ (List.mem_cons_self ..)).2]
      exact hhead
    · have hu' : biUnify s.bindings (.rule r) s.unifiers lit f.binding (rules.toTopDown p).name
        = (h, some undo) := hu
      simp only [hu']
      obtain ⟨done, s', finals, ho, hb, hun, hsup, hres, hf⟩ := clause_abduces hE hsave hpays hbodies hself hs
        hcost hnot hreserved hindex hr hu
      simp only [Clause.body, ho, bind, Except.bind]
      have hor : ∀ facts ρ,
          (∃ r' ∈ r :: rs, DerivedBy reg rules p save facts lit (fun x => ρ (f.binding, x)) r')
            ∧ Goal reg rules p save (pending (f :: previous)) s.support facts ρ →
          (DerivedBy reg rules p save facts lit (fun x => ρ (f.binding, x)) r
            ∧ Goal reg rules p save (pending (f :: previous)) s.support facts ρ)
          ∨ (∃ r' ∈ rs, DerivedBy reg rules p save facts lit (fun x => ρ (f.binding, x)) r')
            ∧ Goal reg rules p save (pending (f :: previous)) s.support facts ρ := by
        rintro facts ρ ⟨hby, hg⟩
        exact ((List.exists_mem_cons_iff ..).1 hby).imp (⟨·, hg⟩) (⟨·, hg⟩)
      split_ifs with hd
      · rw [Bool.and_eq_true, Bool.not_eq_true'] at hd
        exact ⟨true, _, finals, rfl, hb, hun, hsup, hres, hf.reached,
          fun hall => by rw [hd.2] at hall; cases hall⟩
      · have hs₁ : Search.Fits reg theories rules p save
            { s' with bindings := s'.bindings.undoAll undo } _ := hs.of_later hb hun hsup
        obtain ⟨done', s'', finals', ho', hb', hun', hsup', hres', hf'⟩ :=
          (tryClauses_abduces hE hsave hpays hbodies hself hcost hnot hreserved rs hs₁
            (by rw [hb]; exact hindex) hmem).of_later (s := s) hb hun hsup
        refine ⟨done', s'', finals ++ finals', ho', hb', hun', hsup', ?_,
          (hf.append hf').head .refl le_rfl fun facts _ ρ hm hg =>
            ⟨ρ, hm, fun _ _ _ => rfl, (hor facts ρ hg).imp id fun h => by rwa [hsup]⟩⟩
        rw [hres', hres, List.map_append, List.append_assoc]

/-- The rules that a theory finds for a literal. -/
theorem headIndex_askable {h : Bindings V} {u : ℕ} (hl : lit.Askable reg theories rules p save)
    (hnot : save lit = false) (hstay : movesTo (rules.toTopDown p) lit = none) :
    ∃ rs : List (Rule V), (rules.toTopDown p).headIndex lit.table.table (lit.plug h u)
        = some (rs.map .rule)
      ∧ ∀ r ρ, Models ρ h → h.Trail → rules.HasClause r → r.head.sameSchema lit (some p) = true →
        (∃ μ, r.head.values μ = lit.values fun x => ρ (u, x)) → r ∈ rs := by
  have hfacts : ∀ fact ∈ (rules.facts.lookup lit.table.table).getD [],
      fact.length = (lit.plug h u).arguments.length := by
    intro fact hfact
    rw [Literal.plug, List.length_map]
    rcases hlook : rules.facts.lookup lit.table.table with _ | fs
    · simp [hlook] at hfact
    · exact hl.facts hnot hstay fact ⟨fs, hlook, by simpa [hlook] using hfact⟩
  have hneg : (lit.plug h u).negated = false := hl.positive
  refine ⟨_, by
    simp only [RuleSet.toTopDown, RuleSet.getRules, hneg, findFacts_eq_some hfacts]
    rfl, fun r ρ hm ht hclause hsame ⟨μ, hhead⟩ => ?_⟩
  have htable := (sameSchema_iff.1 hsame).1.1
  rcases hclause with ⟨rs, hrs, hmem⟩ | ⟨table, fact, ⟨fs, hfs, hmem⟩, rfl⟩
  · rw [htable] at hrs
    exact List.mem_append_right _ (by rw [hrs]; exact hmem)
  · have htable : table = lit.table.table := htable
    subst htable
    refine List.mem_append_left _ (List.mem_map_of_mem (List.mem_filter.2 ⟨by rw [hfs]; exact hmem, ?_⟩))
    rw [List.all_eq_true]
    rintro ⟨i, v⟩ hiv
    rw [RuleSet.mem_partialFact, Literal.plug, List.getElem?_map, Option.map_eq_some_iff] at hiv
    obtain ⟨t, hti, hv⟩ := hiv
    have hfact : fact = lit.values fun x => ρ (u, x) := by
      rw [← hhead]
      exact (map_value_object μ fact).symm
    rw [hfact]
    simp only [Literal.values, List.getElem?_map, hti, Option.map_some, value_of_apply ht hm hv, decide_true]

/-- A literal that the theory looks up. -/
theorem truth_abduces (hE : EvalAbduces reg theories rules p save weight fuel)
    (hsave : caller.save = some save) (hpays : Pays rules p weight)
    (hbodies : ∀ r, rules.HasRule r → ∀ l ∈ r.body, l.Askable reg theories rules p save)
    (hself : ∀ g ∈ f :: previous, g.theory = rules.toTopDown p)
    (hs : s.Fits reg theories rules p save ((lit, f.binding) :: pending (f :: previous)))
    (hcost : cost weight p ((lit, f.binding) :: pending (f :: previous)) ≤ fuel + 1)
    (hnot : save lit = false) (hreserved : lit.isReserved reg = false)
    (hstay : movesTo (rules.toTopDown p) lit = none) :
    Abduces reg rules p save caller s ((lit, f.binding) :: pending (f :: previous))
      (Goal reg rules p save ((lit, f.binding) :: pending (f :: previous)) s.support)
      (includes (th (eval reg theories fuel caller) caller lit f previous) caller (fuel + 1)
        (rules.toTopDown p) s) := by
  obtain ⟨rs, hindex, hfound⟩ := headIndex_askable (h := s.bindings) (u := f.binding)
    (hs.goals _ (List.mem_cons_self ..)).1 hnot hstay
  obtain ⟨done, s', finals, ho, hb, hun, hsup, hres, hf⟩ := tryClauses_abduces hE hsave hpays hbodies hself
    hcost hnot hreserved rs hs hindex fun r hr => List.mem_map_of_mem hr
  have hf : Finds reg rules p save caller s.unifiers
      ⟨(lit, f.binding) :: pending (f :: previous), s.bindings, s.support⟩
      (Goal reg rules p save ((lit, f.binding) :: pending (f :: previous)) s.support) finals := by
    refine hf.head .refl le_rfl fun facts hfacts ρ hm hg => ⟨ρ, hm, fun _ _ _ => rfl, ?_⟩
    obtain ⟨hlit, hgoals⟩ := List.forall_mem_cons.1 hg.1
    refine ⟨?_, hgoals, hg.2⟩
    rcases derives_saved hfacts hlit with ⟨h, -⟩ | ⟨-, he⟩ | ⟨-, -, r, μ, hclause, hsame, hhead, hbody⟩
    · rw [hnot] at h
      cases h
    · rw [isReserved_of_evident he] at hreserved
      cases hreserved
    · exact ⟨r, hfound r ρ hm hs.trail hclause hsame ⟨μ, hhead⟩, hsame, μ, hhead, hbody⟩
  have hnone : (rules.toTopDown p).includes = [] := rfl
  rw [includes, th, hindex, hnone]
  simp only [ho, bind, Except.bind]
  split_ifs
  · exact ⟨true, s', finals, rfl, hb, hun, hsup, hres, hf⟩
  · exact ⟨false, s', finals, rfl, hb, hun, hsup, hres, hf⟩

/-- No rule of the theory is about what another policy is asked for. -/
theorem not_sameSchema_of_moves {q : String} {r : Rule V} (hr : rules.HasClause r)
    (hheads : ∀ r, rules.HasRule r → r.head.table.modal = none → r.head.table.service.getD p = p)
    (hmove : movesTo (rules.toTopDown p) lit = some q) : ¬ r.head.sameSchema lit (some p) = true := by
  intro hsame
  obtain ⟨⟨-, hmodal, hservice⟩, -⟩ := sameSchema_iff.1 hsame
  unfold movesTo at hmove
  rcases hs : lit.table.service with _ | service <;> rw [hs] at hmove hservice
  · cases hmove
  · dsimp only at hmove
    split_ifs at hmove with hc
    refine hc.2.1 ((hservice.symm : service = _).trans ?_)
    rcases hr with hr | ⟨table, fact, -, rfl⟩
    · exact hheads r hr (hmodal.trans hc.1)
    · rfl

/-- Each case of `_top_down_eval` leads to calls that the rest of the fuel pays for. -/
theorem evalAbduces (hpays : Pays rules p weight)
    (hheads : ∀ r, rules.HasRule r → r.head.table.modal = none → r.head.table.service.getD p = p)
    (hbodies : ∀ r, rules.HasRule r → ∀ l ∈ r.body, l.Askable reg theories rules p save) :
    ∀ fuel, EvalAbduces reg theories rules p save weight fuel
  | 0 => by
    intro hsave hlit hself hs hcost
    rename_i caller f previous lit rest s
    have hpos := hpays.pos (lit.table.within p)
    have hcons : cost weight p ((lit, f.binding) :: pending (f :: previous))
      = weight (lit.table.within p) + cost weight p (pending (f :: previous)) := rfl
    omega
  | fuel + 1 => by
    intro hsave hlit hself hs hcost
    rename_i caller f previous lit rest s
    have hE : EvalAbduces reg theories rules p save weight fuel := evalAbduces hpays hheads hbodies fuel
    have hpos := hpays.pos (lit.table.within p)
    have hcons : cost weight p ((lit, f.binding) :: pending (f :: previous))
      = weight (lit.table.within p) + cost weight p (pending (f :: previous)) := rfl
    have hpending : cost weight p (pending (f :: previous)) ≤ fuel := by omega
    have hask : lit.Askable reg theories rules p save := (hs.goals _ (List.mem_cons_self ..)).1
    rw [eval, hlit]
    simp only [hsave, Option.any_some, hask.positive, Bool.false_eq_true, if_false]
    split_ifs with hsaved htrue hfalse hbuiltin
    · exact save_abduces hE hsave hself hs hpending (.inl hsaved) (.save hsaved)
    · exact true_abduces hE hsave hself hs hpending (.true (by simpa using hsaved) htrue)
    · refine .fail (fun facts hfacts ρ hm hg => ?_) rfl le_rfl rfl rfl
      have hgiven := given_of_derives hfacts (.inr (by simp [Literal.isReserved, hfalse]))
        (hg.1 _ (List.mem_cons_self ..))
      rw [Literal.Given, if_neg hsaved] at hgiven
      rcases hgiven with h | ⟨h, -⟩
      · exact htrue h
      · exact h hfalse
    · rcases hreg : reg lit.table.table with _ | built
      · simp [Literal.isBuiltin, BuiltinRegistry.isBuiltin, hreg] at hbuiltin
      · exact builtin_abduces hE hsave hself hs hpending (by simpa using hsaved) htrue hfalse hbuiltin hreg
    · have hnot : save lit = false := by simpa using hsaved
      have hreserved : lit.isReserved reg = false := by simp [Literal.isReserved, htrue, hfalse, hbuiltin]
      rcases hmove : movesTo (rules.toTopDown p) lit with _ | q
      · exact truth_abduces hE hsave hpays hbodies hself hs hcost hnot hreserved hmove
      · simp only [hask.foreign hnot q hmove]
        refine .fail (fun facts hfacts ρ hm hg => ?_) rfl le_rfl rfl rfl
        rcases derives_saved hfacts (hg.1 _ (List.mem_cons_self ..)) with
          ⟨h, -⟩ | ⟨-, he⟩ | ⟨-, -, r, μ, hclause, hsame, -⟩
        · exact hsaved h
        · rw [isReserved_of_evident he] at hreserved
          cases hreserved
        · exact not_sameSchema_of_moves hclause hheads hmove hsame

/-- A theory that is not recursive has weights that pay. -/
theorem exists_pays (h : ¬ Cyclic (rules.Depends p)) : ∃ weight, Pays rules p weight := by
  let all := rules.rules.entries.flatMap (·.2)
  have hall : ∀ r, rules.HasRule r → r ∈ all := fun r ⟨rs, hrs, hr⟩ =>
    List.mem_flatMap.2 ⟨⟨_, rs⟩, AList.mem_lookup_iff.1 hrs, hr⟩
  have hfinite : {b | ∃ a, rules.Depends p a b}.Finite := by
    refine Set.Finite.subset (List.finite_toSet (all.flatMap fun r => r.body.map (·.table.within p))) ?_
    rintro b ⟨a, r, hr, -, l, hl, rfl⟩
    exact List.mem_flatMap.2 ⟨r, hall r hr, List.mem_map.2 ⟨l, hl, rfl⟩⟩
  obtain ⟨rank, hrank⟩ := exists_rank hfinite h
  let n := (all.map (·.body.length)).sum
  refine ⟨fun t => (n + 1) ^ (rank t + 1), fun t => Nat.pow_pos (Nat.succ_pos _), fun r hr => ?_⟩
  have hlen : r.body.length ≤ n :=
    List.single_le_sum (fun _ _ => Nat.zero_le _) _ (List.mem_map.2 ⟨r, hall r hr, rfl⟩)
  set k := (n + 1) ^ rank (r.head.table.within p) with hk
  have hpos : 1 ≤ k := Nat.one_le_pow _ _ (Nat.succ_pos _)
  have hle : ∀ m ∈ r.body.map fun l => (n + 1) ^ (rank (l.table.within p) + 1), m ≤ k := by
    intro m hm
    obtain ⟨l, hl, rfl⟩ := List.mem_map.1 hm
    exact Nat.pow_le_pow_right (Nat.succ_pos _) (hrank _ _ ⟨r, hr, rfl, l, hl, rfl⟩)
  have hsum := List.sum_le_card_nsmul _ _ hle
  rw [List.length_map, Nat.nsmul_eq_mul] at hsum
  calc _ ≤ r.body.length * k + 1 := Nat.succ_le_succ hsum
    _ ≤ n * k + k := Nat.add_le_add (Nat.mul_le_mul_right k hlen) hpos
    _ = k * (n + 1) := by rw [Nat.mul_succ, Nat.mul_comm]
    _ = _ := (pow_succ _ _).symm

end Congress
