import Congress.Abduction
import Congress.Lib.Lockstep
import Congress.Proofs.HeadIndex

/-!
# Every call of the search ends and restores

A call that the fuel pays for either raises an exception or returns with all unifiers and the support
of the caller as they were, and with nothing but more results (`evalLeaves`). Which exceptions there
can be depends on the theories and on the literals that the search comes to (`Bounded`).
-/

namespace Congress

open Lib Bindings TopDown

set_option linter.unusedSectionVars false

variable {V : Type*} [DecidableEq V] [Inhabited V] {reg : BuiltinRegistry V} {theories : Theories V}
  {scope : Scope V} {weight : Tablename → ℕ} {allowed : Fault → Prop} {fuel : ℕ} {caller : Caller V}
  {self : TopDownTheory V} {f : Frame V} {previous fs : List (Frame V)} {l : Literal V}
  {rest : List (Literal V)} {s s₁ s₂ : Search V} {h h' : Bindings V} {u u' : ℕ}

/-- What a call leaves: the unifiers and the support as they were, and maybe more results. -/
structure Search.Restored (s s' : Search V) : Prop where
  bindings : s'.bindings = s.bindings
  support : s'.support = s.support
  results : s.results <+: s'.results

theorem Search.Restored.refl (s : Search V) : s.Restored s := ⟨rfl, rfl, List.prefix_rfl⟩

theorem Search.Restored.trans (h : s.Restored s₁) (h₁ : s₁.Restored s₂) : s.Restored s₂ :=
  ⟨h₁.bindings.trans h.bindings, h₁.support.trans h.support, h.results.trans h₁.results⟩

/-- A call that raises an allowed exception or restores. -/
abbrev Leaves (allowed : Fault → Prop) (s : Search V) (out : Outcome (Bool × Search V)) : Prop :=
  Ends allowed (fun r => s.Restored r.2) out

theorem Leaves.of_restored {out : Outcome (Bool × Search V)} (h : s.Restored s₁)
    (ho : Leaves allowed s₁ out) : Leaves allowed s out :=
  ho.mono (fun _ => id) fun _ => h.trans

/-! ## Unification of clauses -/

/-- A tuple is matched as a list of constants is unified. -/
theorem matchTuple_eq (h : Bindings V) (t : List V) (l : Literal V) (u u' : ℕ) :
    h.matchTuple t l u' = h.biUnifyLists (t.map .object) u l.arguments u' := by
  have hzip : ((l.arguments.map (·.within u')).zip t).map (fun v => (Value.object v.2, v.1))
      = ((t.map Term.object).map (·.within u)).zip (l.arguments.map (·.within u')) := by
    rw [List.map_map, ← List.zip_swap, List.map_map, List.zip_map_left]
    rfl
  rw [matchTuple, biUnifyLists, matchLoop_eq, hzip, List.length_map]

theorem biUnify_none {c : Clause V} {name : String} (ht : h.Trail)
    (he : biUnify h c u l u' name = (h', none)) : h' = h := by
  cases c with
  | rule r =>
    rw [biUnify, biUnifyAtoms] at he
    split_ifs at he
    · exact (biUnifyLists_none ht he).1
    · exact (Prod.mk.inj he).1.symm
  | tuple t =>
    rw [biUnify, matchTuple_eq h t l u] at he
    exact (biUnifyLists_none ht he).1

theorem biUnify_some {c : Clause V} {name : String} {undo : List (ℕ × String)} (ht : h.Trail)
    (he : biUnify h c u l u' name = (h', some undo)) : h'.Trail ∧ h'.undoAll undo = h
      ∧ ∀ r, c = .rule r → r.head.sameSchema l (some name) = true := by
  cases c with
  | rule r =>
    rw [biUnify, biUnifyAtoms] at he
    split_ifs at he with hsame
    · obtain ⟨-, hu, hundo⟩ := biUnifyLists_some ht he
      refine ⟨hu.trail, hundo, ?_⟩
      rintro _ ⟨⟩
      exact hsame
    · cases he
  | tuple t =>
    rw [biUnify, matchTuple_eq h t l u] at he
    obtain ⟨-, hu, hundo⟩ := biUnifyLists_some ht he
    exact ⟨hu.trail, hundo, by simp⟩

/-! ## The fuel -/

/-- The fuel for a literal: for its table, for moving to another policy, and for negation. -/
def Literal.price (weight : Tablename → ℕ) (self : TopDownTheory V) (l : Literal V) : ℕ :=
  2 * weight (l.table.within self.name) + (movesTo self l).isSome.toNat + l.negated.toNat

/-- The fuel for the literals that are still to be proved. -/
def pendingPrice (weight : Tablename → ℕ) (fs : List (Frame V)) : ℕ :=
  (fs.map fun f => (f.literals.tail.map (Literal.price weight f.theory)).sum).sum

theorem pendingPrice_cons (f : Frame V) (fs : List (Frame V)) : pendingPrice weight (f :: fs)
    = (f.literals.tail.map (Literal.price weight f.theory)).sum + pendingPrice weight fs := by
  rw [pendingPrice, List.map_cons, List.sum_cons]
  rfl

theorem bodyPrice_le (self : TopDownTheory V) (ls : List (Literal V)) :
    (ls.map (Literal.price weight self)).sum
      ≤ 2 * (ls.map fun l => weight (l.table.within self.name) + 1).sum := by
  induction ls with
  | nil => rfl
  | cons l ls ih =>
    have h₁ := Bool.toNat_le (movesTo self l).isSome
    have h₂ := Bool.toNat_le l.negated
    simp only [List.map_cons, List.sum_cons, Literal.price] at ih ⊢
    omega

theorem service_of_movesTo {q : String} (h : movesTo self l = some q) : l.table.service = some q := by
  rw [movesTo] at h
  cases hs : l.table.service with
  | none => simp [hs] at h
  | some service =>
    simp only [hs] at h
    split_ifs at h
    exact h

/-- Theories in which the bodies of the clauses for a literal weigh less than the literal, and which
raise only allowed exceptions. -/
structure Bounded (reg : BuiltinRegistry V) (theories : Theories V) (scope : Scope V)
    (weight : Tablename → ℕ) (allowed : Fault → Prop) : Prop where
  pos : ∀ t, 0 < weight t
  includes : ∀ th l, scope th l → th.includes = []
  negated : ∀ th l, scope th l → l.negated = true → scope th l.complement ∧ allowed .assertionError
  moves : ∀ th l q th', scope th l → movesTo th l = some q → theories q = some th' →
    th'.name = q ∧ scope th' l
  inputs : ∀ th l built, scope th l → reg l.table.table = some built →
    built.numInputs ≤ l.arguments.length ∨ allowed .indexError
  index : ∀ th l, scope th l → LooksUp reg th l → ∀ (h : Bindings V) (u : ℕ),
    th.headIndex l.table.table (l.plug h u) = none → allowed .indexError
  clauses : ∀ th l, scope th l → ∀ (h : Bindings V) (u : ℕ) cs,
    th.headIndex l.table.table (l.plug h u) = some cs → ∀ r, .rule r ∈ cs →
      r.head.sameSchema l (some th.name) = true → (∀ b ∈ r.body, scope th b)
        ∧ (r.body.map fun b => weight (b.table.within th.name) + 1).sum + 1
          ≤ weight (l.table.within th.name)

/-- The literals that the contexts have still to prove are in scope. -/
def InScope (scope : Scope V) (fs : List (Frame V)) : Prop :=
  ∀ f ∈ fs, ∀ l ∈ f.literals.tail, scope f.theory l

/-- With this fuel, if it is enough, evaluation of a literal ends and restores. -/
def EvalLeaves (reg : BuiltinRegistry V) (theories : Theories V) (scope : Scope V)
    (weight : Tablename → ℕ) (allowed : Fault → Prop) (fuel : ℕ) : Prop :=
  ∀ (caller : Caller V) (self : TopDownTheory V) {f : Frame V} {previous : List (Frame V)}
    {l : Literal V} {rest : List (Literal V)} {s : Search V},
    (caller.save = none → allowed .assertionError) → f.literals = l :: rest → scope self l →
    InScope scope (f :: previous) → s.bindings.Trail →
    l.price weight self + pendingPrice weight (f :: previous) ≤ fuel →
    Leaves allowed s (eval reg theories fuel caller self f previous s)

theorem finish_leaves (hE : EvalLeaves reg theories scope weight allowed fuel)
    (hsave : caller.save = none → allowed .assertionError) :
    ∀ {fs : List (Frame V)} {s : Search V}, InScope scope fs → s.bindings.Trail →
    pendingPrice weight fs ≤ fuel →
    Leaves allowed s (finish (eval reg theories fuel caller) caller fs s)
  | [], s, _, _, _ => ⟨rfl, rfl, List.prefix_append ..⟩
  | f :: fs, s, hfs, ht, hcost => by
    obtain ⟨hf, hfs⟩ := List.forall_mem_cons.1 hfs
    rw [pendingPrice_cons] at hcost
    rw [finish]
    split
    · rename_i l₀ l ls hls
      rw [hls, List.tail_cons] at hf
      rw [hls, List.tail_cons, List.map_cons, List.sum_cons] at hcost
      refine hE caller f.theory hsave rfl (hf l (List.mem_cons_self ..))
        (List.forall_mem_cons.2 ⟨fun l' hl' => hf l' (List.mem_cons_of_mem _ hl'), hfs⟩) ht ?_
      rw [pendingPrice_cons]
      simp only [List.tail_cons]
      omega
    · exact finish_leaves hE hsave hfs ht (by omega)

theorem save_leaves (hE : EvalLeaves reg theories scope weight allowed fuel)
    (hsave : caller.save = none → allowed .assertionError) (hfs : InScope scope (f :: previous))
    (ht : s.bindings.Trail) (hcost : pendingPrice weight (f :: previous) ≤ fuel) :
    Leaves allowed s (save (finish (eval reg theories fuel caller) caller) l f previous s) := by
  have hs₁ : ({ s with support := s.support ++ [(l, f.binding)] } : Search V).bindings.Trail := ht
  refine (finish_leaves hE hsave hfs hs₁ hcost).bind fun r hr => ⟨hr.bindings, ?_, hr.results⟩
  show r.2.support.dropLast = s.support
  rw [hr.support, List.dropLast_concat]

theorem inputs_ends : ∀ (n : ℕ) (ts : List (Term V)), n ≤ ts.length ∨ allowed .indexError →
    Ends allowed (fun _ => True) (inputs n ts)
  | 0, _, _ => trivial
  | n + 1, [], hn => hn.resolve_left (by simp)
  | n + 1, .variable _ :: _, _ => trivial
  | n + 1, .object v :: ts, hn => by
    have ih := inputs_ends n ts (hn.imp_left Nat.le_of_succ_le_succ)
    rw [inputs]
    rcases h : inputs n ts with e | o
    · rw [h] at ih
      exact ih
    · trivial

/-- `_top_down_builtin`: what the outputs bind is unbound again. -/
theorem builtin_leaves {built : Builtin V} (hE : EvalLeaves reg theories scope weight allowed fuel)
    (hsave : caller.save = none → allowed .assertionError)
    (hin : built.numInputs ≤ l.arguments.length ∨ allowed .indexError)
    (hfs : InScope scope (f :: previous)) (ht : s.bindings.Trail)
    (hcost : pendingPrice weight (f :: previous) ≤ fuel) :
    Leaves allowed s
      (builtin (finish (eval reg theories fuel caller) caller) caller built l f previous s) := by
  have hlen : built.numInputs ≤ (l.plug s.bindings f.binding).arguments.length
      ∨ allowed .indexError := by rwa [Literal.plug, List.length_map]
  rw [builtin]
  refine (inputs_ends _ _ hlen).bind fun args _ => ?_
  cases args with
  | none =>
    simp only
    split_ifs with hs
    · exact save_leaves hE hsave hfs ht hcost
    · exact hsave (by simpa using hs)
  | some args =>
    cases built with
    | test n code =>
      simp only
      split_ifs
      · exact finish_leaves hE hsave hfs ht hcost
      · exact .refl s
    | function n k code =>
      simp only
      cases code args with
      | none => exact Search.Restored.refl s
      | some result =>
        simp only
        rcases hu : s.bindings.biUnifyLists (result.map .object) (s.unifiers + 1 - 1)
          (l.arguments.drop n) f.binding with ⟨h, _ | undo⟩
        · exact ⟨(biUnifyLists_none ht hu).1, rfl, List.prefix_rfl⟩
        · obtain ⟨-, hun, hundo⟩ := biUnifyLists_some ht hu
          have hs₁ : ({ s with bindings := h, unifiers := s.unifiers + 1 } : Search V).bindings.Trail :=
            hun.trail
          refine (finish_leaves hE hsave hfs hs₁ hcost).bind fun r hr =>
            ⟨?_, hr.support, hr.results⟩
          show r.2.bindings.undoAll undo = s.bindings
          rw [hr.bindings, hundo]

theorem proveBody_leaves {body : List (Literal V)}
    (hE : EvalLeaves reg theories scope weight allowed fuel)
    (hsave : caller.save = none → allowed .assertionError) (hbody : ∀ b ∈ body, scope self b)
    (hfs : InScope scope fs) (ht : s.bindings.Trail)
    (hcost : (body.map (Literal.price weight self)).sum + pendingPrice weight fs ≤ fuel) :
    Leaves allowed s (proveBody (eval reg theories fuel caller) caller self body u fs s) := by
  cases body with
  | nil => exact finish_leaves hE hsave hfs ht (by omega)
  | cons b bs =>
    have hlit : (⟨b :: bs, u, self⟩ : Frame V).literals = b :: bs := rfl
    refine hE caller self hsave hlit (hbody b (List.mem_cons_self ..))
      (List.forall_mem_cons.2 ⟨fun b' hb' => hbody b' (List.mem_cons_of_mem _ hb'), hfs⟩) ht ?_
    rw [List.map_cons, List.sum_cons] at hcost
    rw [pendingPrice_cons]
    simp only [List.tail_cons]
    omega

/-- The loop of `_top_down_th`: each clause's bindings are undone before the next one is tried. -/
theorem tryClauses_leaves (hE : EvalLeaves reg theories scope weight allowed fuel)
    (hsave : caller.save = none → allowed .assertionError) (hfs : InScope scope (f :: previous))
    (hcost : 2 * weight (l.table.within self.name) + pendingPrice weight (f :: previous) ≤ fuel + 1)
    (hpos : 0 < weight (l.table.within self.name)) :
    ∀ (cs : List (Clause V)) {s : Search V}, s.bindings.Trail → (∀ r, .rule r ∈ cs →
      r.head.sameSchema l (some self.name) = true → (∀ b ∈ r.body, scope self b)
        ∧ (r.body.map fun b => weight (b.table.within self.name) + 1).sum + 1
          ≤ weight (l.table.within self.name)) →
    Leaves allowed s (tryClauses (eval reg theories fuel caller) caller self l f previous cs s)
  | [], s, _, _ => Search.Restored.refl s
  | c :: cs, s, ht, hcs => by
    have hrest : ∀ {s₁ : Search V}, s.Restored s₁ → Leaves allowed s
        (tryClauses (eval reg theories fuel caller) caller self l f previous cs s₁) := fun hr =>
      (tryClauses_leaves hE hsave hfs hcost hpos cs (hr.bindings ▸ ht) fun r hr =>
        hcs r (List.mem_cons_of_mem _ hr)).of_restored hr
    simp only [tryClauses]
    rcases hu : biUnify s.bindings c s.unifiers l f.binding self.name with ⟨h, _ | undo⟩
    · exact hrest ⟨biUnify_none ht hu, rfl, List.prefix_rfl⟩
    · obtain ⟨ht₁, hundo, hsame⟩ := biUnify_some ht hu
      have hbody : (∀ b ∈ c.body, scope self b)
          ∧ (c.body.map fun b => weight (b.table.within self.name) + 1).sum + 1
            ≤ weight (l.table.within self.name) := by
        cases c with
        | rule r => exact hcs r (List.mem_cons_self ..) (hsame r rfl)
        | tuple t => exact ⟨by simp [Clause.body], by simpa [Clause.body] using Nat.succ_le_of_lt hpos⟩
      have hprice : (c.body.map (Literal.price weight self)).sum ≤ _ := bodyPrice_le self c.body
      have hs₁ : ({ s with bindings := h, unifiers := s.unifiers + 1 } : Search V).bindings.Trail := ht₁
      refine (proveBody_leaves hE hsave hbody.1 hfs hs₁ (by omega)).bind fun r hr => ?_
      have hback : s.Restored { r.2 with bindings := r.2.bindings.undoAll undo } := by
        refine ⟨?_, hr.support, hr.results⟩
        show r.2.bindings.undoAll undo = s.bindings
        rw [hr.bindings, hundo]
      split_ifs
      · exact hback
      · exact hrest hback

/-- `_top_down_th`. -/
theorem th_leaves (hb : Bounded reg theories scope weight allowed)
    (hE : EvalLeaves reg theories scope weight allowed fuel)
    (hsave : caller.save = none → allowed .assertionError) (hl : scope self l)
    (hindex : LooksUp reg self l ∨ allowed .indexError) (hfs : InScope scope (f :: previous))
    (ht : s.bindings.Trail)
    (hcost : 2 * weight (l.table.within self.name) + pendingPrice weight (f :: previous) ≤ fuel + 1) :
    Leaves allowed s (th (eval reg theories fuel caller) caller l f previous self s) := by
  rw [th]
  cases hcs : self.headIndex l.table.table (l.plug s.bindings f.binding) with
  | none => exact hindex.elim (fun hlook => hb.index self l hl hlook _ _ hcs) id
  | some cs =>
    exact tryClauses_leaves hE hsave hfs hcost (hb.pos _) cs ht (hb.clauses self l hl _ _ cs hcs)

/-- By induction on the fuel: each case of `_top_down_eval` leads to calls that the rest pays for. -/
theorem evalLeaves (hb : Bounded reg theories scope weight allowed) :
    ∀ fuel, EvalLeaves reg theories scope weight allowed fuel
  | 0 => by
    intro caller self f previous l rest s _ _ _ _ _ hcost
    have := hb.pos (l.table.within self.name)
    rw [Literal.price] at hcost
    omega
  | fuel + 1 => by
    intro caller self f previous l rest s hsave hlit hl hfs ht hcost
    have hE : EvalLeaves reg theories scope weight allowed fuel := evalLeaves hb fuel
    have hpos := hb.pos (l.table.within self.name)
    have hprice := hcost
    rw [Literal.price] at hprice
    have hpend : pendingPrice weight (f :: previous) ≤ fuel := by omega
    rw [eval, hlit]
    simp only
    split_ifs with hsaved hneg hground htrue hfalse hbuiltin
    · exact save_leaves hE hsave hfs ht hpend
    · obtain ⟨hc, hassert⟩ := hb.negated self l hl hneg
      have hcomplement : (⟨[l.complement], f.binding, self⟩ : Frame V).literals = [l.complement] := rfl
      have hprice' : l.complement.price weight self
          + pendingPrice weight [⟨[l.complement], f.binding, self⟩] ≤ fuel := by
        have hmove : movesTo self l.complement = movesTo self l := rfl
        have hpositive : l.complement.negated = false := by simp [Literal.complement, hneg]
        rw [hneg, Bool.toNat_true] at hprice
        rw [Literal.price, hmove, hpositive, Bool.toNat_false, pendingPrice_cons]
        simp only [List.tail_cons, List.map_nil, List.sum_nil, pendingPrice, Literal.complement]
        omega
      have ht' : ({ s with results := [], support := [] } : Search V).bindings.Trail := ht
      refine (hE { caller with findAll := false, save := none } self (fun _ => hassert) hcomplement hc
        (by simp [InScope]) ht' hprice').bind fun r hr => ?_
      have hback : s.Restored { s with bindings := r.2.bindings, unifiers := r.2.unifiers } :=
        ⟨hr.bindings, rfl, List.prefix_rfl⟩
      split_ifs
      · exact (finish_leaves hE hsave hfs (hr.bindings ▸ ht) hpend).of_restored hback
      · exact hback
    · exact (hb.negated self l hl hneg).2
    · exact finish_leaves hE hsave hfs ht hpend
    · exact Search.Restored.refl s
    · cases hreg : reg l.table.table with
      | none => simp [Literal.isBuiltin, BuiltinRegistry.isBuiltin, hreg] at hbuiltin
      | some built => exact builtin_leaves hE hsave (hb.inputs self l built hl hreg) hfs ht hpend
    · cases hmove : movesTo self l with
      | none =>
        have hlook : LooksUp reg self l :=
          ⟨by simpa using hneg, htrue, hfalse, by simpa using hbuiltin, hmove⟩
        have hth : Leaves allowed s (th (eval reg theories fuel caller) caller l f previous self s) :=
          th_leaves hb hE hsave hl (.inl hlook) hfs ht (by omega)
        simp only [includes, hb.includes self l hl]
        refine hth.bind fun r hr => ?_
        split_ifs
        · exact hr
        · exact hr
      | some q =>
        simp only
        cases hth : theories q with
        | none => exact Search.Restored.refl s
        | some th =>
          obtain ⟨rfl, hl'⟩ := hb.moves self l q th hl hmove hth
          refine hE caller th hsave hlit hl' hfs ht ?_
          have hservice := service_of_movesTo hmove
          have hwithin : l.table.within th.name = l.table.within self.name := by
            simp [Tablename.within, hservice]
          have hstay : movesTo th l = none := by simp [movesTo, hservice]
          rw [hmove, Option.isSome_some, Bool.toNat_true] at hprice
          rw [Literal.price, hwithin, hstay, Option.isSome_none, Bool.toNat_false]
          omega

end Congress
