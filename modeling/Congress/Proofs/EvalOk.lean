import Congress.Proofs.TopDownEval

/-!
# Evaluation is correct

The cases of `_top_down_eval` that are not about clauses: literals that are true or false under all
possible valuations, builtins, and literals of other policies; and then all of it (`evalOk`), by
induction on the fuel.
-/

namespace Congress

open Lib Bindings TopDown

set_option linter.unusedSectionVars false

variable {V : Type*} [DecidableEq V] [Inhabited V] {reg : BuiltinRegistry V}
  {theories : Theories V} {scope : Scope V} {M : Set (Row V)} {weight : String → ℕ}
  {X : List String} {fuel : ℕ} {caller : Caller V} {self : TopDownTheory V} {f : Frame V}
  {previous : List (Frame V)} {lit : Literal V} {rest : List (Literal V)} {s s₁ : Search V}
  {h : Bindings V} {u : ℕ}

/-- What evaluation of a literal should find. -/
abbrev EvaluatesLit (reg : BuiltinRegistry V) (M : Set (Row V)) (caller : Caller V) (X : List String)
    (self : TopDownTheory V) (lit : Literal V) (f : Frame V) (previous : List (Frame V))
    (s : Search V) (out : Outcome (Bool × Search V)) : Prop :=
  Evaluates caller X (keys f.binding [lit] ∪ pendingKeys (f :: previous))
    (fun ρ => (lit.Holds reg evaluationFollows M self.name fun x => ρ (f.binding, x))
      ∧ Pending reg M (f :: previous) ρ) s out

theorem movesTo_eq_some (hm : lit.table.modal = none) {q : String} :
    movesTo self lit = some q
      ↔ lit.table.service = some q ∧ q ≠ self.name ∧ lit.table.isUpdate = false := by
  rw [movesTo]
  cases lit.table.service with
  | none => simp
  | some q' =>
    simp only [hm, true_and, Bool.not_eq_true]
    split_ifs with hq
    · simp only [Option.some.injEq]
      exact ⟨fun he => ⟨he, he ▸ hq⟩, And.left⟩
    · simp only [Option.some.injEq, false_iff]
      rintro ⟨rfl, hq'⟩
      exact hq hq'

/-- An atom that is neither reserved nor builtin says that there is a row. -/
theorem holds_iff_row {p : String} {ν : String → V} (hneg : lit.negated = false)
    (htrue : lit.tablename none ≠ "true") (hfalse : lit.tablename none ≠ "false")
    (hbuiltin : lit.isBuiltin reg true = false) :
    lit.Holds reg evaluationFollows M p ν ↔ ∃ q table,
      lit.table.resolve evaluationFollows p = some (q, table) ∧ ⟨q, table, lit.values ν⟩ ∈ M := by
  simp only [Literal.Holds, hneg, Literal.meaning, htrue, hfalse, hbuiltin]
  cases hr : lit.table.resolve evaluationFollows p with
  | none => simp [Meaning.IsTrue]
  | some qt =>
    obtain ⟨q, table⟩ := qt
    simp [Meaning.IsTrue]

/-- A literal that is true whatever the variables are, and all of whose variables have constants. -/
theorem proved_spec (hE : EvalOk reg theories scope M weight X fuel) (hsave : caller.save = none)
    (hc : caller.binding = 0) (hp : Prepared reg scope X (keys f.binding [lit]) (f :: previous) s)
    (hcost : pendingCost weight (f :: previous) ≤ fuel)
    (hdet : ∀ x ∈ lit.variableNames, Det s.bindings ∅ (f.binding, x))
    (hholds : ∀ ρ, Models ρ s.bindings →
      lit.Holds reg evaluationFollows M self.name fun x => ρ (f.binding, x))
    (hb : s₁.bindings = s.bindings) (hu : s.unifiers ≤ s₁.unifiers) (hsup : s₁.support = s.support)
    (hres : s₁.results = s.results) : EvaluatesLit reg M caller X self lit f previous s
      (finish (eval reg theories fuel caller) caller (f :: previous) s₁) := by
  have hdet : ∀ k ∈ keys f.binding [lit], Det s.bindings ∅ k := by
    rintro ⟨u, x⟩ ⟨rfl, l, hl, hx⟩
    rw [List.mem_singleton.1 hl] at hx
    exact hdet x hx
  have hp₀ : Prepared reg scope X ∅ (f :: previous) s :=
    ⟨hp.frames, hp.ready, hp.safe.mono List.suffix_rfl hdet⟩
  refine ((finish_spec hE hsave hc (hp₀.of_later hb hu) hcost).of_later s hb hu hsup hres).congr
    ?_ fun ρ hm => (and_iff_right (hholds ρ hm)).symm
  rintro k (hk | hk)
  · exact (hdet k hk).mono List.suffix_rfl (by simp)
  · exact .of_mem hk

theorem names_objects (cs : List V) : Term.names (cs.map Term.object) = [] := by
  simp [Term.names]

/-- A negated literal, all of whose variables have constants: one answer decides about it. -/
theorem negated_spec (hE : EvalOk reg theories scope M weight X fuel) (hsave : caller.save = none)
    (hc : caller.binding = 0) (hl' : scope self lit.complement)
    (hlit : f.literals = lit :: rest) (hneg : lit.negated = true)
    (hdet : ∀ x ∈ lit.variableNames, Det s.bindings ∅ (f.binding, x))
    (hp : Prepared reg scope X (keys f.binding [lit]) (f :: previous) s)
    (hcost : litCost weight self lit + pendingCost weight (f :: previous) ≤ fuel + 1)
    (hpos : 0 < weight (lit.tablename (some self.name))) :
    EvaluatesLit reg M caller X self lit f previous s (eval reg theories (fuel + 1) caller self f
      previous s) := by
  obtain ⟨cs, hcs, hconst⟩ := exists_constants hp.ready.trail f.binding lit.arguments hdet
  have hground : (lit.plug s.bindings f.binding).isGround = true := by
    rw [Literal.isGround, Literal.plug, hcs]
    simp [Term.isVariable]
  have hf := hp.frames f (List.mem_cons_self ..)
  have hholds : ∀ ρ, lit.complement.Holds reg evaluationFollows M self.name ρ
      ↔ ¬ lit.Holds reg evaluationFollows M self.name ρ := by
    intro ρ
    rw [Literal.Holds, if_neg (by simp [Literal.complement, hneg]), Literal.Holds, if_pos hneg,
      not_not]
    rfl
  have hsafe : lit.complement.Safe reg fun x =>
      Det ({ s with results := [], support := [] } : Search V).bindings ∅ (f.binding, x) := by
    rw [Literal.Safe, if_neg (by simp [Literal.complement, hneg])]
    split_ifs
    · exact fun built _ x hx =>
        hdet x (mem_names.2 (List.mem_of_mem_take (mem_names.1 hx)))
  have hp' : Prepared reg scope X (keys f.binding [lit.complement])
      [⟨[lit.complement], f.binding, self⟩] { s with results := [], support := [] } := by
    refine ⟨List.forall_mem_singleton.2 ⟨List.forall_mem_singleton.2 hl', hf.binding,
      List.forall_mem_singleton.2 ?_⟩, ⟨hp.ready.trail, hp.ready.bounded, hp.ready.pos⟩, trivial,
      trivial⟩
    exact hf.allowed lit (hlit ▸ List.mem_cons_self ..)
  have hcost' : litCost weight self lit.complement
      + pendingCost weight [⟨[lit.complement], f.binding, self⟩] ≤ fuel := by
    rw [litCost, hneg] at hcost
    have hmove : movesTo self lit.complement = movesTo self lit := rfl
    have hname : lit.complement.tablename (some self.name) = lit.tablename (some self.name) := rfl
    rw [litCost, hmove, hname, show lit.complement.negated = false by simp [Literal.complement, hneg]]
    simp only [pendingCost, List.map_cons, List.map_nil, List.tail_cons, List.sum_cons, List.sum_nil,
      Bool.toNat_true, Bool.toNat_false] at hcost ⊢
    omega
  have hlit' : (⟨[lit.complement], f.binding, self⟩ : Frame V).literals = [lit.complement] := rfl
  have hsave' : ({ caller with findAll := false, save := none } : Caller V).save = none := rfl
  obtain ⟨done, s', new, ho, hb, hu, -, hres, hfound⟩ :=
    hE hsave' hc hlit' hl' hsafe hp' hcost'
  have hnew : s'.results = new := hres
  have hsame : ∀ ρ ρ', Models ρ s.bindings → Models ρ' s.bindings →
      ((lit.Holds reg evaluationFollows M self.name fun x => ρ (f.binding, x))
        ↔ lit.Holds reg evaluationFollows M self.name fun x => ρ' (f.binding, x)) :=
    fun ρ ρ' hm hm' => holds_congr ((hconst ρ hm).trans (hconst ρ' hm').symm)
  rw [eval, hlit]
  simp only [hsave, Option.any_none, hneg, hground, if_true, ho, bind, Except.bind, hnew]
  cases hn : new with
  | nil =>
    refine proved_spec hE hsave hc hp ?_ hdet (fun ρ hm => ?_) hb hu rfl rfl
    · have := hcost
      rw [litCost] at this
      omega
    · by_contra hlit
      have hdone : done = false := by
        cases done with
        | false => rfl
        | true =>
          have := hfound.one rfl
          simp [hn] at this
      obtain ⟨r, hr, -⟩ := hfound.complete (.inr hdone) ρ hm ⟨(hholds _).2 hlit, by simp [Pending]⟩
      simp [hn] at hr
  | cons r new' =>
    refine .fail (fun ρ hm hg => ?_) hb hu rfl rfl
    obtain ⟨-, ρ', hm', hg', -⟩ := hfound.sound r (hn ▸ List.mem_cons_self ..)
    exact (hholds _).1 hg'.1 ((hsame ρ ρ' hm hm').1 hg.1)

theorem names_take_drop (ts : List (Term V)) (n : ℕ) {x : String} (hx : x ∈ Term.names ts) :
    x ∈ Term.names (ts.take n) ∨ x ∈ Term.names (ts.drop n) := by
  rw [mem_names, ← List.take_append_drop n ts, List.mem_append] at hx
  exact hx.imp mem_names.2 mem_names.2

theorem inputs_eq : ∀ (n : ℕ) (ts : List (Term V)) (cs : List V), n ≤ ts.length →
    (ts.take n).map (h.apply u) = cs.map .object →
    inputs n (ts.map (h.apply u)) = .ok (some cs)
  | 0, _, cs, _, he => by
    cases cs with
    | nil => rfl
    | cons => simp at he
  | n + 1, t :: ts, cs, hn, he => by
    cases cs with
    | nil => simp at he
    | cons c cs =>
      rw [List.take_succ_cons, List.map_cons, List.map_cons, List.cons.injEq] at he
      rw [List.map_cons, he.1, inputs, inputs_eq n ts cs (Nat.le_of_succ_le_succ hn) he.2]
      rfl

/-- A builtin all of whose inputs have constants. -/
theorem builtin_spec {built : Builtin V} (hE : EvalOk reg theories scope M weight X fuel)
    (hsave : caller.save = none) (hc : caller.binding = 0) (hneg : lit.negated = false)
    (htrue : lit.tablename none ≠ "true") (hfalse : lit.tablename none ≠ "false")
    (hbuiltin : lit.isBuiltin reg true = true) (hreg : reg lit.table.table = some built)
    (harity : lit.arguments.length = built.arity) (hlit : f.literals = lit :: rest)
    (hdet : ∀ x ∈ Term.names (lit.arguments.take built.numInputs),
      Det s.bindings ∅ (f.binding, x))
    (hp : Prepared reg scope X (keys f.binding [lit]) (f :: previous) s)
    (hcost : pendingCost weight (f :: previous) ≤ fuel) :
    EvaluatesLit reg M caller X self lit f previous s
      (builtin (finish (eval reg theories fuel caller) caller) caller built lit f previous s) := by
  obtain ⟨cs, hcs, hconst⟩ := exists_constants hp.ready.trail f.binding _ hdet
  have hin : inputs built.numInputs (lit.plug s.bindings f.binding).arguments = .ok (some cs) :=
    inputs_eq _ _ cs (by rw [harity, Builtin.arity]; omega) hcs
  have hvalues : ∀ ρ, Models ρ s.bindings →
      (lit.values fun x => ρ (f.binding, x)).take built.numInputs = cs := by
    intro ρ hm
    rw [Literal.values, ← List.map_take, hconst ρ hm]
  have hholds : ∀ ρ : String → V, lit.Holds reg evaluationFollows M self.name ρ
      ↔ reg.Relation lit.table.table (lit.values ρ) := by
    intro ρ
    simp [Literal.Holds, hneg, Literal.meaning, htrue, hfalse, hbuiltin, Meaning.IsTrue]
  cases built with
  | test n code =>
    have hrel : ∀ ρ, Models ρ s.bindings → ((lit.Holds reg evaluationFollows M self.name
        fun x => ρ (f.binding, x)) ↔ code cs = some true) := by
      intro ρ hm
      have := hvalues ρ hm
      rw [hholds, BuiltinRegistry.Relation, hreg]
      simp only [Builtin.numInputs] at this ⊢
      rw [this]
    rw [builtin, hin]
    simp only [bind, Except.bind]
    split_ifs with hcode
    · refine proved_spec hE hsave hc hp hcost (fun x hx => hdet x ?_) (fun ρ hm => (hrel ρ hm).2 hcode)
        rfl le_rfl rfl rfl
      rwa [List.take_of_length_le (by rw [harity]; exact le_rfl)]
    · exact .fail (fun ρ hm hg => hcode ((hrel ρ hm).1 hg.1)) rfl le_rfl rfl rfl
  | function n k code =>
    have hrel : ∀ ρ, Models ρ s.bindings → ((lit.Holds reg evaluationFollows M self.name
        fun x => ρ (f.binding, x)) ↔ code cs
          = some ((lit.arguments.drop n).map (Term.value fun x => ρ (f.binding, x)))) := by
      intro ρ hm
      have := hvalues ρ hm
      rw [hholds, BuiltinRegistry.Relation, hreg]
      simp only [Builtin.numInputs] at this ⊢
      rw [this, Literal.values, List.map_drop]
    rw [builtin, hin]
    simp only [bind, Except.bind]
    cases hcode : code cs with
    | none => exact .fail (fun ρ hm hg => by simpa [hcode] using (hrel ρ hm).1 hg.1) rfl le_rfl rfl rfl
    | some result =>
      have hf := hp.frames f (List.mem_cons_self ..)
      have hvals : ∀ ρ : ℕ × String → V, (result.map Term.object).map
          (Term.value fun x => ρ (s.unifiers, x)) = result := by
        simp [Function.comp_def, Term.value]
      simp only [Nat.add_sub_cancel]
      rcases huni : s.bindings.biUnifyLists (result.map .object) s.unifiers (lit.arguments.drop n)
        f.binding with ⟨h, _ | undo⟩
      · obtain ⟨rfl, hne⟩ := biUnifyLists_none hp.ready.trail huni
        refine .fail (fun ρ hm hg => ?_) rfl (Nat.le_succ _) rfl rfl
        have hres := Option.some.inj (hcode.symm.trans ((hrel ρ hm).1 hg.1))
        have hlen : (result.map Term.object).length = (lit.arguments.drop n).length := by
          rw [hres]
          simp
        obtain ⟨p, hp', hne⟩ := hne hlen ρ hm
        exact hne ((zip_eval_iff ρ _ _ hlen).2 (by rw [hvals, hres]) p hp')
      · obtain ⟨hlen, hun, hundo⟩ := biUnifyLists_some hp.ready.trail huni
        have hdet₁ : ∀ k ∈ keys f.binding [lit], Det h ∅ k := by
          rintro ⟨u, x⟩ ⟨rfl, l, hl, hx⟩
          rw [List.mem_singleton.1 hl] at hx
          rcases names_take_drop _ n hx with hx | hx
          · exact (hdet x hx).mono hun.suffix (by simp)
          · exact det_of_unified hun hlen (by simp [names_objects]) x hx
        have hp₁ : Prepared reg scope X ∅ (f :: previous)
            { s with bindings := h, unifiers := s.unifiers + 1 } := by
          refine ⟨fun g hg => (hp.frames g hg).mono (Nat.le_succ _), ⟨hun.trail, hun.bounded _
            (hp.ready.bounded.mono fun k => Allowed.mono (Nat.le_succ _)) ?_, Nat.succ_pos _⟩,
            hp.safe.mono hun.suffix hdet₁⟩
          rintro ⟨v, w⟩ hvw
          obtain ⟨hv, hw⟩ := List.of_mem_zip hvw
          refine ⟨over_of_names (by simp [names_objects]) v hv, over_of_names (fun x hx =>
            ⟨hf.binding.trans (Nat.lt_succ_self _), hf.allowed lit (hlit ▸ List.mem_cons_self ..) x
              (mem_names.2 (List.mem_of_mem_drop (mem_names.1 hx)))⟩) w hw⟩
        obtain ⟨done, s', new, ho, hb, hu, hsup, hres, hfound⟩ := finish_spec hE hsave hc hp₁ hcost
        simp only [ho]
        refine ⟨done, _, new, rfl, by rw [hb]; exact hundo, (Nat.le_succ _).trans hu, hsup, hres,
          hfound.transfer (fun k => Det.mono hun.suffix ?_) ?_ ?_⟩
        · rintro k (hk | hk)
          · exact (hdet₁ k hk).mono List.suffix_rfl (by simp)
          · exact .of_mem hk
        · intro ρ hm hpend
          obtain ⟨hm, heq⟩ := (hun.models ρ).1 hm
          rw [zip_eval_iff ρ _ _ hlen, hvals] at heq
          exact ⟨hm, (hrel ρ hm).2 (by rw [hcode, heq]), hpend⟩
        · rintro ρ hm ⟨hlit, hpend⟩
          refine ⟨ρ, (hun.models ρ).2 ⟨hm, (zip_eval_iff ρ _ _ hlen).2 ?_⟩, hpend, fun _ => rfl⟩
          rw [hvals, Option.some.inj (hcode.symm.trans ((hrel ρ hm).1 hlit))]

/-- A literal that its theory looks up. -/
theorem truth_spec (hset : Setting reg theories scope M weight)
    (hE : EvalOk reg theories scope M weight X fuel) (hsave : caller.save = none)
    (hc : caller.binding = 0) (hl : scope self lit) (hlook : LooksUp reg self lit)
    (hlit : f.literals = lit :: rest)
    (hp : Prepared reg scope X (keys f.binding [lit]) (f :: previous) s)
    (hcost : litCost weight self lit + pendingCost weight (f :: previous) ≤ fuel + 1) :
    EvaluatesLit reg M caller X self lit f previous s
      (includes (th (eval reg theories fuel caller) caller lit f previous) caller (fuel + 1) self
        s) := by
  obtain ⟨cs, hindex, htuples, hok, hholds⟩ :=
    hset.index self lit hl hlook s.bindings f.binding hp.ready.trail
  obtain ⟨done, s', new, ho, hb, hu, hsup, hres, hfound⟩ :=
    tryClauses_spec hE hsave hc hlit hcost _ hok hp
  have hfound : Found caller X s.bindings (keys f.binding [lit] ∪ pendingKeys (f :: previous))
      (fun ρ => (lit.Holds reg evaluationFollows M self.name fun x => ρ (f.binding, x))
        ∧ Pending reg M (f :: previous) ρ) new done :=
    hfound.congr (fun k hk => .of_mem hk) fun ρ hm => and_congr_left' (hholds ρ hm).symm
  rw [includes, th, hindex, hset.includes self lit hl]
  simp only [tryClauses_asRule htuples, ho, bind, Except.bind]
  split_ifs with hd
  · rw [Bool.and_eq_true] at hd
    exact ⟨true, s', new, rfl, hb, hu, hsup, hres, hd.1 ▸ hfound⟩
  · have hd' : caller.findAll = true ∨ done = false := by
      cases done <;> cases hall : caller.findAll <;> simp_all
    refine ⟨false, s', new, rfl, hb, hu, hsup, hres, hfound.sound, fun _ => hfound.complete hd',
      fun hall => ?_⟩
    rw [hfound.one hall, hd'.resolve_left (by simp [hall])]

/-- With less fuel than a literal costs nothing is claimed; else each case of `_top_down_eval` leads
to calls that the rest of the fuel pays for. -/
theorem evalOk (hset : Setting reg theories scope M weight) :
    ∀ fuel, EvalOk reg theories scope M weight X fuel
  | 0 => by
    intro hsave hc hlit hl hsafe hp hcost
    rename_i caller self f previous lit rest s
    have := hset.pos (lit.tablename (some self.name))
    rw [litCost] at hcost
    omega
  | fuel + 1 => by
    intro hsave hc hlit hl hsafe hp hcost
    rename_i caller self f previous lit rest s
    have hE : EvalOk reg theories scope M weight X fuel := evalOk hset fuel
    have hpos := hset.pos (lit.tablename (some self.name))
    have hpend : pendingCost weight (f :: previous) ≤ fuel := by
      rw [litCost] at hcost
      omega
    have hproper := hset.proper self lit hl
    have hsafe' := hsafe
    rw [Literal.Safe] at hsafe
    cases hneg : lit.negated with
    | true =>
      rw [if_pos hneg] at hsafe
      exact negated_spec hE hsave hc (hset.complement self lit hl) hlit hneg hsafe hp hcost hpos
    | false =>
      rw [if_neg (by simp [hneg])] at hsafe
      have hreserved : lit.tablename none = "true" ∨ lit.tablename none = "false" →
          ∀ x ∈ lit.variableNames, Det s.bindings ∅ (f.binding, x) := by
        intro hr x hx
        rw [Literal.variableNames, hproper.reserved hr] at hx
        simp [Term.names] at hx
      rw [eval, hlit]
      simp only [hsave, Option.any_none, hneg, Bool.false_eq_true, if_false]
      split_ifs with htrue hfalse hbuiltin
      · refine proved_spec hE hsave hc hp hpend (hreserved (.inl htrue)) (fun ρ _ => ?_) rfl le_rfl
          rfl rfl
        simp [Literal.Holds, hneg, Literal.meaning, htrue, Meaning.IsTrue]
      · refine .fail (fun ρ _ hg => ?_) rfl le_rfl rfl rfl
        simpa [Literal.Holds, hneg, Literal.meaning, hfalse, Meaning.IsTrue] using hg.1
      · rw [if_pos hbuiltin] at hsafe
        cases hreg : reg lit.table.table with
        | none => simp [Literal.isBuiltin, BuiltinRegistry.isBuiltin, hreg] at hbuiltin
        | some built =>
          exact builtin_spec hE hsave hc hneg htrue hfalse hbuiltin hreg
            (hproper.builtin hbuiltin built hreg) hlit (hsafe built hreg) hp hpend
      · rw [Bool.not_eq_true] at hbuiltin
        cases hmove : movesTo self lit with
        | none =>
          exact truth_spec hset hE hsave hc hl ⟨hneg, htrue, hfalse, hbuiltin, hmove⟩ hlit hp hcost
        | some q =>
          obtain ⟨hs, hne, hup⟩ := (movesTo_eq_some hproper.modal).1 hmove
          have hres : ∀ p, lit.table.resolve evaluationFollows p = some (q, lit.table.table) := by
            intro p
            simp [Tablename.resolve, hs, evaluationFollows, hup]
          have hholds : ∀ (p : String) (ν : String → V), lit.Holds reg evaluationFollows M p ν
              ↔ ⟨q, lit.table.table, lit.values ν⟩ ∈ M := by
            intro p ν
            simp [holds_iff_row hneg htrue hfalse hbuiltin, hres]
          rcases hset.moves self lit q hl hmove with ⟨hnone, hM⟩ | ⟨th, hth, rfl, hl'⟩
          · simp only [hnone]
            exact .fail (fun ρ _ hg => hM _ ((hholds _ _).1 hg.1)) rfl le_rfl rfl rfl
          · simp only [hth]
            have hstay : movesTo th lit = none := by simp [movesTo, hs]
            have hname : ∀ p, lit.tablename (some p) = node th.name lit.table.table := by
              intro p
              rw [tablename_eq_node, hs]
              rfl
            have hcost' : litCost weight th lit + pendingCost weight (f :: previous) ≤ fuel := by
              rw [litCost, hmove, hneg, hname] at hcost
              rw [litCost, hstay, hneg, hname]
              simp only [Option.isSome_some, Option.isSome_none, Bool.toNat_true,
                Bool.toNat_false] at hcost ⊢
              omega
            exact (hE hsave hc hlit hl' hsafe' hp hcost').congr (fun k hk => .of_mem hk)
              fun ρ _ => and_congr_left' ((hholds _ _).trans (hholds _ _).symm)

end Congress
