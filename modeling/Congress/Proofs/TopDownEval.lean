import Congress.Proofs.Evaluation

/-!
# Every function of the search finds what it should

One lemma for each function of the evaluation, each on the assumption that evaluation with less fuel
is correct (`EvalOk`), and from them that evaluation is correct with any fuel that pays for the
literals to be proved (`evalOk`).
-/

namespace Congress

open Lib Bindings TopDown

set_option linter.unusedSectionVars false

variable {V : Type*} [DecidableEq V] [Inhabited V] {reg : BuiltinRegistry V}
  {theories : Theories V} {scope : Scope V} {M : Set (Row V)} {weight : String → ℕ}
  {X : List String} {fuel : ℕ} {caller : Caller V} {self : TopDownTheory V} {f : Frame V}
  {previous fs : List (Frame V)} {lit : Literal V} {rest : List (Literal V)} {s : Search V}
  {S : Set (ℕ × String)}

/-- What holds when the contexts `fs` are gone on with and the variables of `S` have constants. -/
structure Prepared (reg : BuiltinRegistry V) (scope : Scope V) (X : List String) (S : Set (ℕ × String))
    (fs : List (Frame V)) (s : Search V) : Prop where
  frames : ∀ f ∈ fs, f.Ok scope X s.unifiers
  ready : s.Ready X
  safe : SafeFrames reg s.bindings S fs

/-- Evaluation of a literal is correct with this fuel, if it is enough. -/
def EvalOk (reg : BuiltinRegistry V) (theories : Theories V) (scope : Scope V) (M : Set (Row V))
    (weight : String → ℕ) (X : List String) (fuel : ℕ) : Prop :=
  ∀ {caller : Caller V} {self : TopDownTheory V} {f : Frame V} {previous : List (Frame V)}
    {lit : Literal V} {rest : List (Literal V)} {s : Search V}, caller.save = none →
    caller.binding = 0 → f.literals = lit :: rest → scope self lit →
    lit.Safe reg (fun x => Det s.bindings ∅ (f.binding, x)) →
    Prepared reg scope X (keys f.binding [lit]) (f :: previous) s →
    litCost weight self lit + pendingCost weight (f :: previous) ≤ fuel →
    Evaluates caller X (keys f.binding [lit] ∪ pendingKeys (f :: previous))
      (fun ρ => (lit.Holds reg evaluationFollows M self.name fun x => ρ (f.binding, x))
        ∧ Pending reg M (f :: previous) ρ) s
      (eval reg theories fuel caller self f previous s)

theorem Evaluates.of_eq {goal : (ℕ × String → V) → Prop} {out out' : Outcome (Bool × Search V)}
    (he : Evaluates caller X S goal s out) (ho : out = out') : Evaluates caller X S goal s out' :=
  ho ▸ he

/-- A caller without more to prove has an answer. -/
theorem result_spec (hc : caller.binding = 0) (hr : s.Ready X) :
    Evaluates caller X (pendingKeys ([] : List (Frame V))) (Pending reg M []) s
      (.ok (true, { s with results := s.results ++ [caller.result s] })) := by
  have hbinding : ∀ e ∈ (caller.result s).binding,
      e.2 = (s.bindings.root (.variable e.1 0)).term := by
    intro e he
    obtain ⟨x, -, rfl⟩ := List.mem_map.1 he
    rw [hc, Bindings.apply, Term.within, applyFull_eq_root hr.trail]
  have hagrees : ∀ ρ, Models ρ s.bindings → (caller.result s).Agrees ρ := by
    intro ρ hm x c hx
    have he := hbinding _ hx
    have hρ := eval_root hm (.variable x 0)
    cases hroot : s.bindings.root (.variable x 0) with
    | object c' =>
      rw [hroot] at he hρ
      cases he
      exact hρ.symm
    | «variable» => rw [hroot] at he; cases he
  refine ⟨true, _, [caller.result s], rfl, rfl, le_rfl, rfl, rfl, fun r hr' => ?_,
    fun _ ρ hm _ => ⟨_, List.mem_singleton_self _, hagrees ρ hm⟩, fun _ => rfl⟩
  rw [List.mem_singleton] at hr'
  subst hr'
  refine ⟨⟨?_, fun e he hg => ?_, fun e he hx => ?_⟩, _,
    models_of_trail hr.trail fun _ => default, by simp [Pending], hagrees _ (models_of_trail hr.trail _)⟩
  · simp [Caller.result, Function.comp_def]
  · obtain ⟨c, hroot⟩ | ⟨_, ⟨_, h, -⟩, -⟩ := hg
    · exact ⟨c, by rw [hbinding e he, hroot]; rfl⟩
    · cases h
  · have hfree : s.bindings.Free (.variable e.1 0) := by
      refine free_variable.2 (value_eq_none_iff.2 fun e' he' hk => hx ?_)
      have := (hr.bounded e' he').1.2
      rw [hk] at this
      exact this rfl
    rw [hbinding e he, root_of_free hfree]
    rfl

theorem pending_cons_iff (ρ : ℕ × String → V) : Pending reg M (f :: fs) ρ
    ↔ (∀ l ∈ f.literals.tail, l.Holds reg evaluationFollows M f.theory.name
        fun x => ρ (f.binding, x)) ∧ Pending reg M fs ρ :=
  List.forall_mem_cons

/-- `_top_down_finish`, by recursion on the contexts. -/
theorem finish_spec (hE : EvalOk reg theories scope M weight X fuel) (hsave : caller.save = none)
    (hc : caller.binding = 0) : ∀ {fs : List (Frame V)} {s : Search V},
    Prepared reg scope X ∅ fs s → pendingCost weight fs ≤ fuel →
    Evaluates caller X (pendingKeys fs) (Pending reg M fs) s
      (finish (eval reg theories fuel caller) caller fs s)
  | [], s, hp, _ => result_spec hc hp.ready
  | f :: fs, s, hp, hcost => by
    rw [pendingCost, List.map_cons, List.sum_cons, ← pendingCost] at hcost
    rw [finish]
    split
    · rename_i l₀ l ls hls
      rw [hls, List.tail_cons, List.map_cons, List.sum_cons] at hcost
      have hf := hp.frames f (List.mem_cons_self ..)
      have hsafe := hp.safe
      rw [SafeFrames, hls, List.tail_cons] at hsafe
      have hok : Prepared reg scope X (keys f.binding [l])
          ({ f with literals := l :: ls } :: fs) s := by
        refine ⟨?_, hp.ready, hsafe.1.2.mono ?_, hsafe.2.mono List.suffix_rfl fun k hk => ?_⟩
        · rw [List.forall_mem_cons]
          refine ⟨⟨fun l' hl' => hf.admitted l' ?_, hf.binding, fun l' hl' =>
            hf.allowed l' ?_⟩, fun g hg => hp.frames g (List.mem_cons_of_mem _ hg)⟩
          · exact hls ▸ List.mem_cons_of_mem _ hl'
          · exact hls ▸ List.mem_cons_of_mem _ hl'
        · rintro x (hx | hx)
          · exact hx.mono List.suffix_rfl (by simp)
          · exact .of_mem ⟨rfl, l, List.mem_singleton_self _, hx⟩
        · rw [Set.empty_union, keys_cons] at hk
          exact .of_mem hk
      have hl : ({ f with literals := l :: ls } : Frame V).literals = l :: ls := rfl
      refine (hE hsave hc hl (hf.admitted l (by rw [hls]; simp)) hsafe.1.1 hok ?_).congr
        ?_ ?_
      · rw [pendingCost, List.map_cons, List.sum_cons, ← pendingCost]
        simp only [List.tail_cons]
        omega
      · intro k hk
        rw [pendingKeys_cons, hls, List.tail_cons, keys_cons, Set.union_assoc] at hk
        rw [pendingKeys_cons, List.tail_cons]
        exact .of_mem hk
      · intro ρ _
        rw [pending_cons_iff, pending_cons_iff, hls]
        simp only [List.tail_cons, List.forall_mem_cons, and_assoc]
    · rename_i hls
      have htail : f.literals.tail = [] := by
        rcases hl : f.literals with _ | ⟨l₀, _ | ⟨l, ls⟩⟩
        · rfl
        · rfl
        · exact absurd hl (hls l₀ l ls)
      have hsafe := hp.safe
      rw [SafeFrames, htail] at hsafe
      refine (finish_spec hE hsave hc ⟨fun g hg => hp.frames g (List.mem_cons_of_mem _ hg), hp.ready,
        hsafe.2.mono List.suffix_rfl (by simp [keys_nil])⟩ (by omega)).congr ?_ ?_
      · intro k hk
        rw [pendingKeys_cons, htail, keys_nil, Set.empty_union] at hk
        exact .of_mem hk
      · intro ρ _
        rw [pending_cons_iff, htail]
        simp

/-- What holds of the rules that a theory's literals are unified with. -/
structure RuleOk (reg : BuiltinRegistry V) (scope : Scope V) (weight : String → ℕ)
    (th : TopDownTheory V) (r : Rule V) : Prop where
  head : ∀ x ∈ r.head.variableNames, ∃ l ∈ r.body, x ∈ l.variableNames
  safe : SafeInOrder reg (fun _ => False) r.body
  admitted : ∀ l ∈ r.body, scope th l
  weight : (r.body.map fun l => weight (l.tablename (some th.name)) + 1).sum + 1
    ≤ weight (node th.name r.head.table.table)

theorem bodyCost_le (self : TopDownTheory V) (ls : List (Literal V)) :
    (ls.map (litCost weight self)).sum
      ≤ 2 * (ls.map fun l => weight (l.tablename (some self.name)) + 1).sum := by
  induction ls with
  | nil => rfl
  | cons l ls ih =>
    have h₁ := Bool.toNat_le (movesTo self l).isSome
    have h₂ := Bool.toNat_le l.negated
    simp only [List.map_cons, List.sum_cons, litCost] at ih ⊢
    omega

/-- Literals in a context of their own. -/
theorem body_spec {body : List (Literal V)} {u : ℕ} (hE : EvalOk reg theories scope M weight X fuel)
    (hsave : caller.save = none) (hc : caller.binding = 0) (hadm : ∀ l ∈ body, scope self l)
    (hsafe : SafeInOrder reg (fun x => Det s.bindings ∅ (u, x)) body) (hu : u < s.unifiers)
    (hX : ∀ l ∈ body, ∀ x ∈ l.variableNames, u = 0 → x ∈ X)
    (hp : Prepared reg scope X (keys u body) fs s)
    (hcost : (body.map (litCost weight self)).sum + pendingCost weight fs ≤ fuel) :
    Evaluates caller X (keys u body ∪ pendingKeys fs)
      (fun ρ => (∀ l ∈ body, l.Holds reg evaluationFollows M self.name fun x => ρ (u, x))
        ∧ Pending reg M fs ρ) s
      (proveBody (eval reg theories fuel caller) caller self body u fs s) := by
  cases body with
  | nil =>
    refine (finish_spec hE hsave hc ⟨hp.frames, hp.ready, hp.safe.mono List.suffix_rfl ?_⟩
      (by omega)).congr ?_ ?_
    · simp [keys_nil]
    · rw [keys_nil, Set.empty_union]
      exact fun k hk => .of_mem hk
    · simp
  | cons b bs =>
    have hl : (⟨b :: bs, u, self⟩ : Frame V).literals = b :: bs := rfl
    have hok : Prepared reg scope X (keys u [b]) (⟨b :: bs, u, self⟩ :: fs) s := by
      refine ⟨List.forall_mem_cons.2 ⟨⟨hadm, hu, hX⟩, hp.frames⟩,
        hp.ready, hsafe.2.mono fun x hx => ?_, hp.safe.mono List.suffix_rfl fun k hk => ?_⟩
      · rcases hx with hx | hx
        · exact hx.mono List.suffix_rfl (by simp)
        · exact .of_mem ⟨rfl, b, List.mem_singleton_self _, hx⟩
      · rw [keys_cons] at hk
        exact .of_mem hk
    refine (hE hsave hc hl (hadm b (List.mem_cons_self ..)) hsafe.1 hok ?_).congr ?_ ?_
    · rw [List.map_cons, List.sum_cons] at hcost
      show _ + ((bs.map (litCost weight self)).sum + pendingCost weight fs) ≤ fuel
      omega
    · rw [pendingKeys_cons, keys_cons, Set.union_assoc]
      exact fun k hk => .of_mem hk
    · intro ρ _
      rw [pending_cons_iff, List.forall_mem_cons, and_assoc]
      rfl

/-- The bodies of the clauses, for a literal whose arguments have certain values. -/
def Rule.Gives (reg : BuiltinRegistry V) (M : Set (Row V)) (p : String) (r : Rule V)
    (values : List V) : Prop :=
  ∃ ν, r.head.values ν = values ∧ ∀ l ∈ r.body, l.Holds reg evaluationFollows M p ν

/-- One clause whose head has been unified with the literal. -/
theorem clause_spec {r : Rule V} {h : Bindings V} {undo : List (ℕ × String)}
    (hE : EvalOk reg theories scope M weight X fuel) (hsave : caller.save = none)
    (hc : caller.binding = 0)
    (hr : RuleOk reg scope weight self r) (hlit : f.literals = lit :: rest)
    (hnode : lit.tablename (some self.name) = node self.name r.head.table.table)
    (hp : Prepared reg scope X (keys f.binding [lit]) (f :: previous) s)
    (hcost : litCost weight self lit + pendingCost weight (f :: previous) ≤ fuel + 1)
    (hu : s.bindings.biUnifyLists r.head.arguments s.unifiers lit.arguments f.binding
      = (h, some undo)) :
    ∃ done s' new, proveBody (eval reg theories fuel caller) caller self r.body s.unifiers
        (f :: previous) { s with bindings := h, unifiers := s.unifiers + 1 } = .ok (done, s')
      ∧ s'.bindings.undoAll undo = s.bindings ∧ s.unifiers ≤ s'.unifiers ∧ s'.support = s.support
      ∧ s'.results = s.results ++ new
      ∧ Found caller X s.bindings (keys f.binding [lit] ∪ pendingKeys (f :: previous))
        (fun ρ => r.Gives reg M self.name (lit.values fun x => ρ (f.binding, x))
          ∧ Pending reg M (f :: previous) ρ) new done := by
  obtain ⟨hlen, hu, hundo⟩ := biUnifyLists_some hp.ready.trail hu
  have hf := hp.frames f (List.mem_cons_self ..)
  have hmem : lit ∈ f.literals := hlit ▸ List.mem_cons_self ..
  have hdet : ∀ k ∈ keys f.binding [lit], Det h (keys s.unifiers r.body) k := by
    rintro ⟨u, x⟩ ⟨rfl, l, hl, hx⟩
    rw [List.mem_singleton.1 hl] at hx
    have hS : ∀ y ∈ Term.names r.head.arguments, (s.unifiers, y) ∈ keys s.unifiers r.body :=
      fun y hy => ⟨rfl, hr.head y hy⟩
    exact det_of_unified hu hlen hS x hx
  have hready : Search.Ready X { s with bindings := h, unifiers := s.unifiers + 1 } := by
    refine ⟨hu.trail, hu.bounded _ (hp.ready.bounded.mono fun k => Allowed.mono (Nat.le_succ _)) ?_,
      Nat.succ_pos _⟩
    rintro ⟨v, w⟩ hvw
    obtain ⟨hv, hw⟩ := List.of_mem_zip hvw
    refine ⟨over_of_names (fun x _ => ⟨Nat.lt_succ_self _, fun h0 => ?_⟩) v hv,
      over_of_names (fun x hx => ⟨hf.binding.trans (Nat.lt_succ_self _), hf.allowed lit hmem x hx⟩)
        w hw⟩
    exact absurd h0 hp.ready.pos.ne'
  have hpos := hp.ready.pos.ne'
  have hcost' : (r.body.map (litCost weight self)).sum + pendingCost weight (f :: previous)
      ≤ fuel := by
    have hbody : (r.body.map (litCost weight self)).sum ≤ _ := bodyCost_le self r.body
    have := hr.weight
    rw [litCost, hnode] at hcost
    omega
  obtain ⟨done, s', new, ho, hb, hun, hsup, hres, hfound⟩ :=
    body_spec hE hsave hc hr.admitted (hr.safe.mono fun _ => False.elim) (Nat.lt_succ_self _)
      (fun _ _ _ _ h => absurd h hpos) ⟨fun g hg => (hp.frames g hg).mono (Nat.le_succ _), hready,
        hp.safe.mono hu.suffix hdet⟩ hcost'
  refine ⟨done, s', new, ho, by rw [hb]; exact hundo, (Nat.le_succ _).trans hun, hsup, hres,
    hfound.transfer (fun k => Det.mono hu.suffix ?_) ?_ ?_⟩
  · rintro k (hk | hk)
    · exact (hdet k hk).mono List.suffix_rfl fun k hk => .of_mem (.inl hk)
    · exact .of_mem (.inr hk)
  · rintro ρ hm ⟨hbody, hpend⟩
    obtain ⟨hm, heq⟩ := (hu.models ρ).1 hm
    exact ⟨hm, ⟨_, (zip_eval_iff ρ _ _ hlen).1 heq, hbody⟩, hpend⟩
  · rintro ρ hm ⟨⟨ν, hν, hbody⟩, hpend⟩
    obtain ⟨ρ', hm', hnew, hold⟩ := exists_extension hp.ready hm ν
    refine ⟨ρ', (hu.models ρ').2 ⟨hm', (zip_eval_iff ρ' _ _ hlen).2 ?_⟩, ⟨?_, ?_⟩, fun x =>
      congrFun (hold 0 hp.ready.pos) x⟩
    · rw [hnew, hold _ hf.binding]
      exact hν
    · rw [hnew]
      exact hbody
    · intro g hg l hl
      rw [hold _ (hp.frames g hg).binding]
      exact hpend g hg l hl

theorem Prepared.of_later {s₁ : Search V} (hp : Prepared reg scope X S fs s)
    (hb : s₁.bindings = s.bindings) (hu : s.unifiers ≤ s₁.unifiers) :
    Prepared reg scope X S fs s₁ where
  frames g hg := (hp.frames g hg).mono hu
  ready := ⟨hb ▸ hp.ready.trail, hb ▸ hp.ready.bounded.mono fun _ => Allowed.mono hu,
    hp.ready.pos.trans_le hu⟩
  safe := hb ▸ hp.safe

/-- What the rules among the clauses give for a literal. -/
def GivenBy (reg : BuiltinRegistry V) (M : Set (Row V)) (p : String) (rs : List (Rule V))
    (lit : Literal V) (values : List V) : Prop :=
  ∃ r ∈ rs, r.head.sameSchema lit (some p) = true ∧ r.Gives reg M p values

/-- The loop over the clauses. -/
theorem tryClauses_spec (hE : EvalOk reg theories scope M weight X fuel) (hsave : caller.save = none)
    (hc : caller.binding = 0) (hlit : f.literals = lit :: rest)
    (hcost : litCost weight self lit + pendingCost weight (f :: previous) ≤ fuel + 1) :
    ∀ (rs : List (Rule V)) {s : Search V},
    (∀ r ∈ rs, r.head.sameSchema lit (some self.name) = true → RuleOk reg scope weight self r
      ∧ lit.tablename (some self.name) = node self.name r.head.table.table) →
    Prepared reg scope X (keys f.binding [lit]) (f :: previous) s →
    Evaluates caller X (keys f.binding [lit] ∪ pendingKeys (f :: previous))
      (fun ρ => GivenBy reg M self.name rs lit (lit.values fun x => ρ (f.binding, x))
        ∧ Pending reg M (f :: previous) ρ) s
      (tryClauses (eval reg theories fuel caller) caller self lit f previous (rs.map .rule) s)
  | [], s, _, _ => .fail (by simp [GivenBy]) rfl le_rfl rfl rfl
  | r :: rs, s, hrs, hp => by
    obtain ⟨hr, hrs⟩ := List.forall_mem_cons.1 hrs
    have hor : ∀ ρ : ℕ × String → V,
        ((r.head.sameSchema lit (some self.name) = true
            ∧ r.Gives reg M self.name (lit.values fun x => ρ (f.binding, x)))
          ∧ Pending reg M (f :: previous) ρ
        ∨ GivenBy reg M self.name rs lit (lit.values fun x => ρ (f.binding, x))
          ∧ Pending reg M (f :: previous) ρ)
        ↔ GivenBy reg M self.name (r :: rs) lit (lit.values fun x => ρ (f.binding, x))
          ∧ Pending reg M (f :: previous) ρ := by
      intro ρ
      rw [← or_and_right, GivenBy, GivenBy, List.exists_mem_cons_iff]
    have skip : (∀ ρ, Models ρ s.bindings → ¬ (r.head.sameSchema lit (some self.name) = true
          ∧ r.Gives reg M self.name (lit.values fun x => ρ (f.binding, x)))) →
        Evaluates caller X (keys f.binding [lit] ∪ pendingKeys (f :: previous))
          (fun ρ => GivenBy reg M self.name (r :: rs) lit (lit.values fun x => ρ (f.binding, x))
            ∧ Pending reg M (f :: previous) ρ) s
          (tryClauses (eval reg theories fuel caller) caller self lit f previous
            (rs.map .rule) { s with unifiers := s.unifiers + 1 }) := by
      intro hno
      have hp₁ : Prepared reg scope X (keys f.binding [lit]) (f :: previous)
          { s with unifiers := s.unifiers + 1 } := hp.of_later rfl (Nat.le_succ _)
      refine ((tryClauses_spec hE hsave hc hlit hcost rs hrs hp₁).of_later s rfl
        (Nat.le_succ _) rfl rfl).congr (fun k hk => .of_mem hk) fun ρ hm => ?_
      rw [← hor ρ]
      exact ⟨.inr, fun h => h.resolve_left fun h => hno ρ hm h.1⟩
    rw [List.map_cons, tryClauses]
    cases hsame : r.head.sameSchema lit (some self.name) with
    | false =>
      simp only [biUnify, biUnifyAtoms, hsame]
      exact skip (by simp [hsame])
    | true =>
      simp only [biUnify, biUnifyAtoms, hsame, if_true]
      split
      · rename_i h hu
        obtain ⟨rfl, hne⟩ := biUnifyLists_none hp.ready.trail hu
        refine skip ?_
        rintro ρ hm ⟨-, ν, hν, -⟩
        have hlen : r.head.arguments.length = lit.arguments.length := by
          simp only [Literal.sameSchema, Bool.and_eq_true, decide_eq_true_eq] at hsame
          exact hsame.2
        obtain ⟨ρ', hm', hnew, hold⟩ := exists_extension hp.ready hm ν
        obtain ⟨p, hp', hne⟩ := hne hlen ρ' hm'
        refine hne ((zip_eval_iff ρ' _ _ hlen).2 ?_ p hp')
        rw [hnew, hold _ (hp.frames f (List.mem_cons_self ..)).binding]
        exact hν
      · rename_i h undo hu
        obtain ⟨hok, hnode⟩ := hr hsame
        obtain ⟨done, s', new, ho, hb, hun, hsup, hres, hfound⟩ :=
          clause_spec hE hsave hc hok hlit hnode hp hcost hu
        have hfound : Found caller X s.bindings (keys f.binding [lit] ∪ pendingKeys (f :: previous))
            (fun ρ => (r.head.sameSchema lit (some self.name) = true
              ∧ r.Gives reg M self.name (lit.values fun x => ρ (f.binding, x)))
                ∧ Pending reg M (f :: previous) ρ) new done :=
          hfound.congr (fun k hk => .of_mem hk) fun ρ _ => by simp [hsame]
        have key : Evaluates caller X (keys f.binding [lit] ∪ pendingKeys (f :: previous))
            (fun ρ => GivenBy reg M self.name (r :: rs) lit (lit.values fun x => ρ (f.binding, x))
              ∧ Pending reg M (f :: previous) ρ) s
            (if (done && !caller.findAll) = true then
              .ok (true, { s' with bindings := s'.bindings.undoAll undo })
            else tryClauses (eval reg theories fuel caller) caller self lit f previous
              (rs.map .rule) { s' with bindings := s'.bindings.undoAll undo }) := by
          split_ifs with hd
          · rw [Bool.and_eq_true, Bool.not_eq_true'] at hd
            obtain ⟨rfl, hall⟩ := hd
            exact ⟨true, _, new, rfl, hb, hun, hsup, hres,
              (hfound.of_done hall).congr (fun k hk => .of_mem hk) fun ρ _ => hor ρ⟩
          · have hp₁ : Prepared reg scope X (keys f.binding [lit]) (f :: previous)
                { s' with bindings := s'.bindings.undoAll undo } := hp.of_later hb hun
            obtain ⟨done', s'', new', ho', hb', hun', hsup', hres', hfound'⟩ :=
              tryClauses_spec hE hsave hc hlit hcost rs hrs hp₁
            simp only [hb] at hfound'
            refine ⟨done', s'', new ++ new', ho', hb'.trans hb, hun.trans hun', hsup'.trans hsup,
              by rw [hres', hres, List.append_assoc], ?_⟩
            have hd' : caller.findAll = true ∨ done = false := by
              cases done <;> cases hall : caller.findAll <;> simp_all
            exact (hfound.append hd' hfound').congr (fun k hk => .of_mem hk) fun ρ _ => hor ρ
        simp only [Clause.body, ho, bind, Except.bind]
        exact key

/-- The clause as a rule: a tuple is one without a body. -/
def Clause.asRule (table : String) : Clause V → Rule V
  | .rule r => r
  | .tuple t => factRule table t

theorem matchLoop_eq : ∀ {vs : List (Value V × V)} {h : Bindings V} {changes : List (ℕ × String)},
    h.matchLoop vs changes = h.biUnifyLoop (vs.map fun v => (.object v.2, v.1)) changes
  | [], _, _ => rfl
  | (v, c) :: vs, h, changes => by
    have hobj : h.applyFull (.object c) = .object c := rfl
    rw [List.map_cons, matchLoop, biUnifyLoop, hobj]
    cases h.applyFull v with
    | «variable» x u => exact matchLoop_eq
    | object c' =>
      by_cases hc : c = c'
      · simp only [biUnifyValues, hc, if_true]
        exact matchLoop_eq
      · simp only [biUnifyValues, hc, Ne.symm hc, if_false]

/-- A tuple is unified as the rule is. -/
theorem biUnify_asRule {h : Bindings V} {c : Clause V} {u u' : ℕ} {name : String}
    (hc : ∀ t, c = .tuple t → lit.table.modal = none ∧ lit.table.service.getD name = name) :
    biUnify h c u lit u' name = biUnify h (.rule (c.asRule lit.table.table)) u lit u' name := by
  cases c with
  | rule => rfl
  | tuple t =>
    obtain ⟨hmodal, hservice⟩ := hc t rfl
    have hsame : (factRule lit.table.table t).head.sameSchema lit (some name)
        = decide (t.length = lit.arguments.length) := by
      rw [Bool.eq_iff_iff, sameSchema_iff, decide_eq_true_eq]
      simp [factRule, hmodal, hservice]
    have hzip : ((lit.arguments.map (·.within u')).zip t).map (fun v => (Value.object v.2, v.1))
        = ((t.map Term.object).map (·.within u)).zip (lit.arguments.map (·.within u')) := by
      rw [List.map_map, ← List.zip_swap, List.map_map, List.zip_map_left]
      rfl
    simp only [biUnify, Clause.asRule, matchTuple, biUnifyAtoms, hsame, matchLoop_eq, hzip]
    by_cases hlen : t.length = lit.arguments.length
    · simp [hlen, biUnifyLists, factRule]
    · simp [hlen]

/-- So tuples can be taken for rules. -/
theorem tryClauses_asRule {ev : TopDownTheory V → Frame V → List (Frame V) → Call V}
    {cs : List (Clause V)} (hcs : ∀ t, .tuple t ∈ cs →
      lit.table.modal = none ∧ lit.table.service.getD self.name = self.name) :
    tryClauses ev caller self lit f previous cs s = tryClauses ev caller self lit f previous
      ((cs.map (·.asRule lit.table.table)).map .rule) s := by
  induction cs generalizing s with
  | nil => rfl
  | cons c cs ih =>
    have ih := fun s => ih (s := s) fun t ht => hcs t (List.mem_cons_of_mem _ ht)
    have hc : biUnify s.bindings c s.unifiers lit f.binding self.name = _ :=
      biUnify_asRule fun t ht => hcs t (ht ▸ List.mem_cons_self ..)
    have hbody : c.body = (c.asRule lit.table.table).body := by cases c <;> rfl
    rw [List.map_cons, List.map_cons, tryClauses, tryClauses, hc, hbody]
    simp only [ih]
    rfl

/-- A literal that evaluation can be asked: under no modal, with as many arguments as its builtin,
and with none if it is `true` or `false`. -/
structure Literal.Proper (reg : BuiltinRegistry V) (l : Literal V) : Prop where
  modal : l.table.modal = none
  builtin : l.isBuiltin reg true = true → ∀ built, reg l.table.table = some built →
    l.arguments.length = built.arity
  reserved : l.tablename none = "true" ∨ l.tablename none = "false" → l.arguments = []

/-- A literal that its theory looks up: it is neither negated nor reserved nor builtin, and about no
other theory. -/
structure LooksUp (reg : BuiltinRegistry V) (th : TopDownTheory V) (l : Literal V) : Prop where
  positive : l.negated = false
  notTrue : l.tablename none ≠ "true"
  notFalse : l.tablename none ≠ "false"
  notBuiltin : l.isBuiltin reg true = false
  stays : movesTo th l = none

/-- Theories that are exact for a set of rows: each finds for a literal clauses that give just the
rows, and whose bodies weigh less than the literal. -/
structure Setting (reg : BuiltinRegistry V) (theories : Theories V) (scope : Scope V)
    (M : Set (Row V)) (weight : String → ℕ) : Prop where
  pos : ∀ table, 0 < weight table
  proper : ∀ th l, scope th l → l.Proper reg
  complement : ∀ th l, scope th l → scope th l.complement
  includes : ∀ th l, scope th l → th.includes = []
  moves : ∀ th l q, scope th l → movesTo th l = some q →
    (theories q = none ∧ ∀ values, ⟨q, l.table.table, values⟩ ∉ M)
      ∨ ∃ th', theories q = some th' ∧ th'.name = q ∧ scope th' l
  index : ∀ th l, scope th l → LooksUp reg th l → ∀ (h : Bindings V) (u : ℕ), h.Trail →
    ∃ cs, th.headIndex l.table.table (l.plug h u) = some cs
      ∧ (∀ t, .tuple t ∈ cs → l.table.modal = none ∧ l.table.service.getD th.name = th.name)
      ∧ (∀ r ∈ cs.map (·.asRule l.table.table), r.head.sameSchema l (some th.name) = true →
        RuleOk reg scope weight th r
          ∧ l.tablename (some th.name) = node th.name r.head.table.table)
      ∧ ∀ ρ, Models ρ h → (l.Holds reg evaluationFollows M th.name (fun x => ρ (u, x))
        ↔ GivenBy reg M th.name (cs.map (·.asRule l.table.table)) l (l.values fun x => ρ (u, x)))

end Congress
