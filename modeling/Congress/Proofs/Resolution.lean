import Congress.Abduction
import Congress.Proofs.Evaluation

/-!
# Resolution

What the search of abduction does, as steps: the first goal is saved, or found to be true, or unified
with the head of a clause, whose body takes its place. When no goals are left, what was saved implies
the goals there were at first, whatever the values of the variables (`Resolvent.derives_of_steps`).
-/

namespace Congress

open Lib Bindings TopDown Relation

set_option linter.unusedSectionVars false

variable {V : Type*} [DecidableEq V] {reg : BuiltinRegistry V} {rules : RuleSet V} {p : String}
  {save closed : Literal V → Bool} {facts : Set (GroundAtom V)} {h h' : Bindings V} {u : ℕ}
  {lit : Literal V} {ρ : ℕ × String → V}

/-- The goals and what is saved, each in its unifier, and the unifiers. -/
structure Resolvent (V : Type*) where
  goals : List (Literal V × ℕ)
  bindings : Bindings V
  support : List (Literal V × ℕ)

/-- Nothing belongs to the unifier yet. -/
structure Resolvent.Fresh (a : Resolvent V) (u : ℕ) : Prop where
  caller : u ≠ 0
  goals : ∀ g ∈ a.goals, g.2 ≠ u
  bindings : a.bindings.Over (·.1 ≠ u)
  support : ∀ g ∈ a.support, g.2 ≠ u

/-- A step of resolution. -/
inductive Resolvent.Step (reg : BuiltinRegistry V) (self : TopDownTheory V) (save : Literal V → Bool) :
    Resolvent V → Resolvent V → Prop
  | save {l : Literal V} {u : ℕ} {gs sup : List (Literal V × ℕ)} {h : Bindings V}
      (hs : save l = true) : Step reg self save ⟨(l, u) :: gs, h, sup⟩ ⟨gs, h, sup ++ [(l, u)]⟩
  | «true» {l : Literal V} {u : ℕ} {gs sup : List (Literal V × ℕ)} {h : Bindings V}
      (hs : save l = false) (ht : l.tablename none = "true") :
      Step reg self save ⟨(l, u) :: gs, h, sup⟩ ⟨gs, h, sup⟩
  | unbound {l : Literal V} {u : ℕ} {gs sup : List (Literal V × ℕ)} {h : Bindings V} {built : Builtin V}
      (hs : save l = false) (hf : l.tablename none ≠ "false") (hb : l.isBuiltin reg true = true)
      (hreg : reg l.table.table = some built)
      (hin : inputs built.numInputs (l.plug h u).arguments = .ok none) :
      Step reg self save ⟨(l, u) :: gs, h, sup⟩ ⟨gs, h, sup ++ [(l, u)]⟩
  | test {l : Literal V} {u : ℕ} {gs sup : List (Literal V × ℕ)} {h : Bindings V} {n : ℕ}
      {code : List V → Option Bool} {args : List V}
      (hs : save l = false) (hf : l.tablename none ≠ "false") (hb : l.isBuiltin reg true = true)
      (hreg : reg l.table.table = some (.test n code))
      (hin : inputs n (l.plug h u).arguments = .ok (some args)) (hcode : code args = some true) :
      Step reg self save ⟨(l, u) :: gs, h, sup⟩ ⟨gs, h, sup⟩
  | function {l : Literal V} {u u' : ℕ} {gs sup : List (Literal V × ℕ)} {h h' : Bindings V} {n k : ℕ}
      {code : List V → Option (List V)} {args result : List V} {undo : List (ℕ × String)}
      (hs : save l = false) (hf : l.tablename none ≠ "false") (hb : l.isBuiltin reg true = true)
      (hreg : reg l.table.table = some (.function n k code))
      (hin : inputs n (l.plug h u).arguments = .ok (some args)) (hcode : code args = some result)
      (hu : h.biUnifyLists (result.map .object) u' (l.arguments.drop n) u = (h', some undo)) :
      Step reg self save ⟨(l, u) :: gs, h, sup⟩ ⟨gs, h', sup⟩
  | clause {l : Literal V} {u u' : ℕ} {gs sup : List (Literal V × ℕ)} {h h' : Bindings V}
      {cs : List (Clause V)} {r : Rule V} {undo : List (ℕ × String)}
      (hs : save l = false) (hr : l.isReserved reg = false)
      (hindex : self.headIndex l.table.table (l.plug h u) = some cs) (hc : .rule r ∈ cs)
      (hfresh : Fresh ⟨(l, u) :: gs, h, sup⟩ u')
      (hu : h.biUnifyAtoms r.head u' l u (some self.name) = (h', some undo)) :
      Step reg self save ⟨(l, u) :: gs, h, sup⟩ ⟨r.body.map (·, u') ++ gs, h', sup⟩

/-- The goals are derived, and what was saved is given. -/
def Resolvent.Holds (rules : RuleSet V) (reg : BuiltinRegistry V) (p : String)
    (save closed : Literal V → Bool) (facts : Set (GroundAtom V)) (ρ : ℕ × String → V)
    (a : Resolvent V) : Prop :=
  (∀ g ∈ a.goals, rules.Derives reg p closed facts g.1 fun x => ρ (g.2, x))
    ∧ ∀ g ∈ a.support, g.1.Given reg save facts fun x => ρ (g.2, x)

/-! ## Clauses -/

theorem mem_getRules {key : String} {l : Literal V} {rs : List (Rule V)}
    (h : rules.getRules key (some l) = some rs) {r : Rule V} (hr : r ∈ rs)
    (hkey : r.head.table.table = key) : rules.HasClause r := by
  obtain ⟨fs, hfs, rfl⟩ := Option.map_eq_some_iff.1 h
  rcases List.mem_append.1 hr with hr | hr
  · obtain ⟨fact, hfact, rfl⟩ := List.mem_map.1 hr
    have hmem : fact ∈ (rules.facts.lookup key).getD [] := by
      dsimp only at hfs
      split_ifs at hfs
      · cases hfs
        exact hfact
      · unfold findFacts at hfs
        split_ifs at hfs
        cases hfs
        exact (List.mem_filter.1 hfact).1
    rcases hl : rules.facts.lookup key with _ | fs'
    · simp [hl] at hmem
    · exact .inr ⟨key, fact, ⟨fs', hl, by simpa [hl] using hmem⟩, rfl⟩
  · rcases hl : rules.rules.lookup key with _ | rs
    · simp [hl] at hr
    · exact .inl ⟨rs, hkey ▸ hl, by simpa [hl] using hr⟩

/-- A clause that has been unified with a literal. -/
theorem biUnifyAtoms_some {l l' : Literal V} {u' : ℕ} {undo : List (ℕ × String)} (ht : h.Trail)
    (hu : h.biUnifyAtoms l u l' u' (some p) = (h', some undo)) : l.sameSchema l' (some p) = true
      ∧ Unified h h' ((l.arguments.map (·.within u)).zip (l'.arguments.map (·.within u')))
      ∧ h'.undoAll undo = h
      ∧ ∀ ρ, Models ρ h' → l.values (fun x => ρ (u, x)) = l'.values fun x => ρ (u', x) := by
  unfold biUnifyAtoms at hu
  split_ifs at hu with hsame
  · obtain ⟨hlen, hunified, hundo⟩ := biUnifyLists_some ht hu
    exact ⟨hsame, hunified, hundo, fun ρ hm => (zip_eval_iff ρ u u' hlen).1 ((hunified.models ρ).1 hm).2⟩
  · simp at hu

/-- A clause that cannot be unified with a literal. -/
theorem biUnifyAtoms_none {l l' : Literal V} {u' : ℕ} (ht : h.Trail)
    (hu : h.biUnifyAtoms l u l' u' (some p) = (h', none)) : h' = h ∧ (l.sameSchema l' (some p) = true →
      ∀ ρ, Models ρ h → l.values (fun x => ρ (u, x)) ≠ l'.values fun x => ρ (u', x)) := by
  unfold biUnifyAtoms at hu
  split_ifs at hu with hsame
  · obtain ⟨rfl, hne⟩ := biUnifyLists_none ht hu
    refine ⟨rfl, fun hsame ρ hm heq => ?_⟩
    have hlen := (sameSchema_iff.1 hsame).2
    obtain ⟨v, hv, hne⟩ := hne hlen ρ hm
    exact hne ((zip_eval_iff ρ u u' hlen).2 heq v hv)
  · cases hu
    exact ⟨rfl, fun h => absurd h hsame⟩

/-! ## Builtins -/

/-- The inputs of a builtin are the values of the arguments. -/
theorem inputs_some (ht : h.Trail) (hm : Models ρ h) : ∀ (n : ℕ) (ts : List (Term V)) (args : List V),
    inputs n (ts.map (h.apply u)) = .ok (some args) →
    (ts.map (Term.value fun x => ρ (u, x))).take n = args
  | 0, _, args, h => by
    cases h
    rfl
  | n + 1, [], _, h => by cases h
  | n + 1, t :: ts, args, hin => by
    rw [List.map_cons] at hin
    rcases ha : h.apply u t with _ | c <;> rw [ha] at hin
    · cases hin
    · rw [inputs] at hin
      rcases hrest : inputs n (ts.map (h.apply u)) with _ | _ | cs <;> rw [hrest] at hin <;> cases hin
      rw [List.map_cons, List.take_succ_cons, inputs_some ht hm n ts cs hrest, value_of_apply ht hm ha]

theorem relation_test {n : ℕ} {code : List V → Option Bool} {args : List V} (ht : h.Trail)
    (hm : Models ρ h) (hreg : reg lit.table.table = some (.test n code))
    (hin : inputs n (lit.plug h u).arguments = .ok (some args)) :
    reg.Relation lit.table.table (lit.values fun x => ρ (u, x)) ↔ code args = some true := by
  rw [BuiltinRegistry.Relation, hreg]
  dsimp only
  rw [Literal.values, inputs_some ht hm n lit.arguments args hin]

theorem relation_function {n k : ℕ} {code : List V → Option (List V)} {args : List V} (ht : h.Trail)
    (hm : Models ρ h) (hreg : reg lit.table.table = some (.function n k code))
    (hin : inputs n (lit.plug h u).arguments = .ok (some args)) :
    reg.Relation lit.table.table (lit.values fun x => ρ (u, x))
      ↔ code args = some ((lit.arguments.drop n).map (Term.value fun x => ρ (u, x))) := by
  rw [BuiltinRegistry.Relation, hreg]
  dsimp only
  rw [Literal.values, inputs_some ht hm n lit.arguments args hin, List.map_drop]

theorem map_value_object (ν : String → V) (vs : List V) :
    (vs.map Term.object).map (Term.value ν) = vs := by
  simp [Function.comp_def, Term.value]

/-! ## Steps -/

namespace Resolvent

variable {a b : Resolvent V}

/-- Whatever is true after a step was true before it. -/
theorem Step.sound (hs : Step reg (rules.toTopDown p) save a b)
    (hclosed : ∀ l, save l = false → closed l = false) (ht : a.bindings.Trail) :
    b.bindings.Trail ∧ ∀ ρ, Models ρ b.bindings → Models ρ a.bindings
      ∧ ∀ facts, b.Holds rules reg p save closed facts ρ → a.Holds rules reg p save closed facts ρ := by
  cases hs with
  | save hsave =>
    refine ⟨ht, fun ρ hm => ⟨hm, fun facts hb => ⟨List.forall_mem_cons.2 ⟨.given ?_, hb.1⟩, fun g hg =>
      hb.2 g (List.mem_append_left _ hg)⟩⟩⟩
    have hgiven := hb.2 _ (List.mem_append_right _ (List.mem_singleton_self _))
    rwa [Literal.Given, if_pos hsave] at hgiven
  | «true» hsave htrue =>
    exact ⟨ht, fun ρ hm => ⟨hm, fun facts hb => ⟨List.forall_mem_cons.2
      ⟨.evident (hclosed _ hsave) (.inl htrue), hb.1⟩, hb.2⟩⟩⟩
  | unbound hsave hfalse hbuiltin hreg hin =>
    refine ⟨ht, fun ρ hm => ⟨hm, fun facts hb => ⟨List.forall_mem_cons.2
      ⟨.evident (hclosed _ hsave) ?_, hb.1⟩, fun g hg => hb.2 g (List.mem_append_left _ hg)⟩⟩⟩
    have hgiven := hb.2 _ (List.mem_append_right _ (List.mem_singleton_self _))
    rwa [Literal.Given, if_neg (by simp [hsave])] at hgiven
  | test hsave hfalse hbuiltin hreg hin hcode =>
    exact ⟨ht, fun ρ hm => ⟨hm, fun facts hb => ⟨List.forall_mem_cons.2 ⟨.evident (hclosed _ hsave)
      (.inr ⟨hfalse, hbuiltin, (relation_test ht hm hreg hin).2 hcode⟩), hb.1⟩, hb.2⟩⟩⟩
  | @function l u u' gs sup h h' n k code args result undo hsave hfalse hbuiltin hreg hin hcode hu =>
    obtain ⟨hlen, hunified, -⟩ := biUnifyLists_some ht hu
    refine ⟨hunified.trail, fun ρ hm => ?_⟩
    obtain ⟨hm, heq⟩ := (hunified.models ρ).1 hm
    rw [zip_eval_iff ρ _ _ hlen, map_value_object] at heq
    exact ⟨hm, fun facts hb => ⟨List.forall_mem_cons.2 ⟨.evident (hclosed _ hsave) (.inr ⟨hfalse, hbuiltin,
      (relation_function ht hm hreg hin).2 (by rw [hcode, heq])⟩), hb.1⟩, hb.2⟩⟩
  | @clause l u u' gs sup h h' cs r undo hsave hreserved hindex hc hfresh hu =>
    obtain ⟨hsame, hunified, -, hvalues⟩ := biUnifyAtoms_some ht hu
    refine ⟨hunified.trail, fun ρ hm => ⟨((hunified.models ρ).1 hm).1, fun facts hb => ?_⟩⟩
    obtain ⟨hbody, hgoals⟩ := List.forall_mem_append.1 hb.1
    obtain ⟨rs, hrs, rfl⟩ := Option.map_eq_some_iff.1 hindex
    have hr : rules.HasClause r := by
      obtain ⟨r', hr', he⟩ := List.mem_map.1 hc
      cases he
      exact mem_getRules hrs hr' (sameSchema_iff.1 hsame).1.1
    exact ⟨List.forall_mem_cons.2 ⟨.clause (hclosed _ hsave) hreserved hr hsame (hvalues ρ hm)
      fun b hb => hbody (b, u') (List.mem_map_of_mem hb), hgoals⟩, hb.2⟩

/-- So what is true at the end of a derivation was true at its start. -/
theorem derives_of_steps (hs : ReflTransGen (Step reg (rules.toTopDown p) save) a b)
    (hclosed : ∀ l, save l = false → closed l = false) (ht : a.bindings.Trail) :
    b.bindings.Trail ∧ ∀ ρ, Models ρ b.bindings → Models ρ a.bindings
      ∧ ∀ facts, b.Holds rules reg p save closed facts ρ → a.Holds rules reg p save closed facts ρ := by
  induction hs with
  | refl => exact ⟨ht, fun ρ hm => ⟨hm, fun _ hb => hb⟩⟩
  | tail _ hstep ih =>
    obtain ⟨htrail, hmodels⟩ := ih
    obtain ⟨htrail', hmodels'⟩ := hstep.sound hclosed htrail
    refine ⟨htrail', fun ρ hm => ?_⟩
    obtain ⟨hm', hfacts'⟩ := hmodels' ρ hm
    obtain ⟨hm'', hfacts''⟩ := hmodels ρ hm'
    exact ⟨hm'', fun facts hb => hfacts'' facts (hfacts' facts hb)⟩

end Resolvent

end Congress
