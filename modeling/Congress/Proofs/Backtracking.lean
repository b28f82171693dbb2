import Congress.Backtracking
import Congress.Lib.Lockstep

/-!
# The search in place follows the search

Moving a context's `literal_index` on and back comes to the same as going on with a context that has
only the literals left: from contexts that are objects of their own, the search in place returns what
the search returns, raises what it raises, and leaves the `literal_index` of every context where it
was (`evalFollows`). So `top_down_abduction` gives the same answers (`abduction_eq`).
-/

namespace Congress

open Lib

set_option linter.unusedSectionVars false

variable {V : Type*} [DecidableEq V] {reg : BuiltinRegistry V} {theories : Theories V} {fuel : ℕ}
  {caller : Caller V} {self : TopDownTheory V} {c : TopDownContext V}
  {previous cs : List (TopDownContext V)} {l : Literal V} {m m₁ m₂ : InPlace V}

namespace InPlace

/-- A context with the literals that are left. -/
def frame (m : InPlace V) (c : TopDownContext V) : Frame V :=
  ⟨c.literals.drop (m.literalIndex c.id), c.binding, c.theory⟩

def frames (m : InPlace V) (cs : List (TopDownContext V)) : List (Frame V) := cs.map m.frame

/-- The contexts are objects of their own, and they have been made. -/
structure Valid (m : InPlace V) (cs : List (TopDownContext V)) : Prop where
  made : ∀ c ∈ cs, c.id < m.contexts
  nodup : (cs.map (·.id)).Nodup

/-- The contexts are where they were. -/
structure Kept (m m' : InPlace V) : Prop where
  contexts : m.contexts ≤ m'.contexts
  literalIndex : ∀ id < m.contexts, m'.literalIndex id = m.literalIndex id

theorem Kept.refl (m : InPlace V) : Kept m m := ⟨le_rfl, fun _ _ => rfl⟩

theorem Kept.trans (h : Kept m m₁) (h₁ : Kept m₁ m₂) : Kept m m₂ :=
  ⟨h.contexts.trans h₁.contexts, fun id hid =>
    (h₁.literalIndex id (hid.trans_le h.contexts)).trans (h.literalIndex id hid)⟩

theorem Valid.kept (hv : m.Valid cs) (h : Kept m m₁) : m₁.Valid cs :=
  ⟨fun c hc => (hv.made c hc).trans_le h.contexts, hv.nodup⟩

theorem Valid.tail (hv : m.Valid (c :: cs)) : m.Valid cs :=
  ⟨fun d hd => hv.made d (List.mem_cons_of_mem _ hd), (List.nodup_cons.1 hv.nodup).2⟩

theorem frame_congr (h : m₁.literalIndex c.id = m.literalIndex c.id) : m₁.frame c = m.frame c := by
  rw [frame, frame, h]

theorem frames_congr (h : ∀ c ∈ cs, m₁.literalIndex c.id = m.literalIndex c.id) :
    m₁.frames cs = m.frames cs :=
  List.map_congr_left fun c hc => frame_congr (h c hc)

theorem Valid.frames_eq (hv : m.Valid cs) (h : Kept m m₁) : m₁.frames cs = m.frames cs :=
  frames_congr fun c hc => h.literalIndex _ (hv.made c hc)

theorem Valid.frame_eq (hv : m.Valid (c :: cs)) (h : Kept m m₁) : m₁.frame c = m.frame c :=
  frame_congr (h.literalIndex _ (hv.made c (List.mem_cons_self ..)))

/-- A context may move while the search is not in it. -/
theorem Valid.frames_setIndex (hv : m.Valid (c :: cs)) (i : ℕ) :
    (m.setIndex c.id i).frames cs = m.frames cs := by
  refine frames_congr fun d hd => Function.update_of_ne ?_ _ _
  rintro he
  exact (List.nodup_cons.1 hv.nodup).1 (List.mem_map.2 ⟨d, hd, he⟩)

theorem frame_setIndex (m : InPlace V) (c : TopDownContext V) (i : ℕ) :
    (m.setIndex c.id i).frame c = ⟨c.literals.drop i, c.binding, c.theory⟩ := by
  rw [frame, show (m.setIndex c.id i).literalIndex c.id = i from Function.update_self ..]

theorem frame_binding (m : InPlace V) (c : TopDownContext V) : (m.frame c).binding = c.binding := rfl

theorem lit_eq (m : InPlace V) (c : TopDownContext V) : m.lit c =
    match (m.frame c).literals with
    | [] => .error .indexError
    | l :: _ => .ok l := by
  rw [lit, frame, ← List.head?_drop]
  cases c.literals.drop (m.literalIndex c.id) <;> rfl

/-- Both returned the same, and the contexts are where they were. -/
def Follows (m : InPlace V) (r : Bool × InPlace V) (r' : Bool × Search V) : Prop :=
  r.1 = r'.1 ∧ r.2.toSearch = r'.2 ∧ Kept m r.2

theorem Follows.of_kept {r : Bool × InPlace V} {r' : Bool × Search V} (h : Kept m m₁)
    (hr : Follows m₁ r r') : Follows m r r' := ⟨hr.1, hr.2.1, h.trans hr.2.2⟩

/-- What remains to be shown about a call. -/
abbrev FollowsFrom (m : InPlace V) (out : Outcome (Bool × InPlace V))
    (out' : Outcome (Bool × Search V)) : Prop := Lockstep (Follows m) out out'

theorem FollowsFrom.of_kept {out : Outcome (Bool × InPlace V)} {out' : Outcome (Bool × Search V)}
    (h : Kept m m₁) (ho : FollowsFrom m₁ out out') : FollowsFrom m out out' :=
  ho.mono fun _ _ => .of_kept h

theorem FollowsFrom.returns (done : Bool) (h : Kept m m₁) :
    FollowsFrom m (.ok (done, m₁)) (.ok (done, m₁.toSearch)) := .ok ⟨rfl, rfl, h⟩

theorem FollowsFrom.bind {out : Outcome (Bool × InPlace V)} {out' : Outcome (Bool × Search V)}
    {k : Bool × InPlace V → Outcome (Bool × InPlace V)} {k' : Bool × Search V → Outcome (Bool × Search V)}
    (h : FollowsFrom m out out')
    (hk : ∀ done m', Kept m m' → FollowsFrom m₁ (k (done, m')) (k' (done, m'.toSearch))) :
    FollowsFrom m₁ (out >>= k) (out' >>= k') := by
  refine Lockstep.bind h ?_
  rintro ⟨done, m'⟩ ⟨done', s'⟩ ⟨hd, hs, hk'⟩
  cases hd
  cases hs
  exact hk done m' hk'

/-- With this fuel, evaluation in place follows evaluation. -/
def EvalFollows (reg : BuiltinRegistry V) (theories : Theories V) (fuel : ℕ) : Prop :=
  ∀ (caller : Caller V) (self : TopDownTheory V) {c : TopDownContext V}
    {previous : List (TopDownContext V)} {m : InPlace V}, m.Valid (c :: previous) →
    FollowsFrom m (eval reg theories fuel caller self c previous m)
      (TopDown.eval reg theories fuel caller self (m.frame c) (m.frames previous) m.toSearch)

/-- `_top_down_finish`: the context moves on for the call, and is moved back. -/
theorem finish_follows (hE : EvalFollows reg theories fuel) (caller : Caller V) :
    ∀ {cs : List (TopDownContext V)} {m : InPlace V}, m.Valid cs →
    FollowsFrom m (finish (eval reg theories fuel caller) caller cs m)
      (TopDown.finish (TopDown.eval reg theories fuel caller) caller (m.frames cs) m.toSearch)
  | [], m, _ => .ok ⟨rfl, rfl, le_rfl, fun _ _ => rfl⟩
  | c :: cs, m, hv => by
    show FollowsFrom m _ (TopDown.finish _ caller (m.frame c :: m.frames cs) m.toSearch)
    rw [finish]
    split_ifs with hi
    · have hdrop : (m.frame c).literals = c.literals[m.literalIndex c.id] ::
          c.literals[m.literalIndex c.id + 1] :: c.literals.drop (m.literalIndex c.id + 2) := by
        rw [frame, List.drop_eq_getElem_cons (by omega), List.drop_eq_getElem_cons hi]
      have hnext : (m.setIndex c.id (m.literalIndex c.id + 1)).frame c
          = { m.frame c with literals := c.literals[m.literalIndex c.id + 1] ::
              c.literals.drop (m.literalIndex c.id + 2) } := by
        rw [frame_setIndex, List.drop_eq_getElem_cons hi]
        rfl
      have hv₁ : (m.setIndex c.id (m.literalIndex c.id + 1)).Valid (c :: cs) := ⟨hv.made, hv.nodup⟩
      have h := hE caller c.theory hv₁
      rw [hnext, hv.frames_setIndex] at h
      simp only [TopDown.finish, hdrop]
      refine h.bind_left fun r r' hr => .ok ⟨hr.1, hr.2.1, hr.2.2.contexts, fun id hid => ?_⟩
      have hback := hr.2.2.literalIndex
      simp only [setIndex] at hback ⊢
      rcases eq_or_ne id c.id with rfl | hne
      · rw [Function.update_self, hback c.id hid, Function.update_self, Nat.add_sub_cancel]
      · rw [Function.update_of_ne hne, hback id hid, Function.update_of_ne hne]
    · have hrest : TopDown.finish (TopDown.eval reg theories fuel caller) caller
          (m.frame c :: m.frames cs) m.toSearch
          = TopDown.finish (TopDown.eval reg theories fuel caller) caller (m.frames cs) m.toSearch := by
        rw [TopDown.finish]
        split
        · rename_i l₀ l ls hls
          have hlen := congrArg List.length hls
          simp only [frame, List.length_drop, List.length_cons] at hlen
          omega
        · rfl
      rw [hrest]
      exact finish_follows hE caller hv.tail

/-- Saving a literal, and going on. -/
theorem save_follows (hE : EvalFollows reg theories fuel) (hv : m.Valid (c :: previous)) :
    FollowsFrom m (save (finish (eval reg theories fuel caller) caller) l c previous m)
      (TopDown.save (TopDown.finish (TopDown.eval reg theories fuel caller) caller) l (m.frame c)
        (m.frames previous) m.toSearch) := by
  have hv₁ : ({ m with support := m.support ++ [(l, c.binding)] } : InPlace V).Valid (c :: previous) :=
    ⟨hv.made, hv.nodup⟩
  exact (finish_follows hE caller hv₁).bind fun _ _ hk => .ok ⟨rfl, rfl, hk.contexts, hk.literalIndex⟩

/-- `_top_down_builtin`, of a literal that is builtin. -/
theorem builtin_follows {built : Builtin V} (hE : EvalFollows reg theories fuel)
    (hv : m.Valid (c :: previous)) (hl : m.lit c = .ok l) (hreg : reg l.table.table = some built) :
    FollowsFrom m (builtin reg (finish (eval reg theories fuel caller) caller) caller c previous m)
      (TopDown.builtin (TopDown.finish (TopDown.eval reg theories fuel caller) caller) caller built l
        (m.frame c) (m.frames previous) m.toSearch) := by
  simp only [builtin, hl, ok_bind, hreg, TopDown.builtin, frame_binding]
  refine Lockstep.bind_same fun args _ => ?_
  cases args with
  | none =>
    simp only
    split_ifs
    · exact save_follows hE hv
    · exact .error _
  | some args =>
    cases built with
    | test n code =>
      simp only
      split_ifs
      · exact finish_follows hE caller hv
      · exact FollowsFrom.returns false (.refl m)
    | function n k code =>
      simp only
      cases code args with
      | none => exact FollowsFrom.returns false (.refl m)
      | some result =>
        simp only [Nat.add_sub_cancel]
        rcases m.bindings.biUnifyLists (result.map .object) m.unifiers (l.arguments.drop n)
          c.binding with ⟨h, _ | undo⟩
        · exact .ok ⟨rfl, rfl, le_rfl, fun _ _ => rfl⟩
        · have hv₁ : ({ m with bindings := h, unifiers := m.unifiers + 1 } : InPlace V).Valid
              (c :: previous) := ⟨hv.made, hv.nodup⟩
          exact (finish_follows hE caller hv₁).bind fun _ _ hk =>
            .ok ⟨rfl, rfl, hk.contexts, hk.literalIndex⟩

theorem Kept.newContext (m : InPlace V) (literals : List (Literal V)) (u : ℕ)
    (th : TopDownTheory V) : Kept m (m.newContext literals u th).2 :=
  ⟨Nat.le_succ _, fun _ hid => Function.update_of_ne hid.ne _ _⟩

theorem frame_newContext (m : InPlace V) (literals : List (Literal V)) (u : ℕ)
    (th : TopDownTheory V) :
    (m.newContext literals u th).2.frame (m.newContext literals u th).1 = ⟨literals, u, th⟩ := by
  rw [frame, show (m.newContext literals u th).2.literalIndex (m.newContext literals u th).1.id = 0
    from Function.update_self ..]
  rfl

/-- The new context is none of those that there are. -/
theorem Valid.newContext (hv : m.Valid cs) (literals : List (Literal V)) (u : ℕ)
    (th : TopDownTheory V) :
    (m.newContext literals u th).2.Valid ((m.newContext literals u th).1 :: cs) := by
  refine ⟨List.forall_mem_cons.2 ⟨Nat.lt_succ_self _, fun d hd =>
    (hv.made d hd).trans (Nat.lt_succ_self _)⟩, List.nodup_cons.2 ⟨fun hmem => ?_, hv.nodup⟩⟩
  obtain ⟨d, hd, he⟩ := List.mem_map.1 hmem
  exact (hv.made d hd).ne he

/-- The body of a rule is proved in a context of its own. -/
theorem proveBody_follows {body : List (Literal V)} {u : ℕ} (hE : EvalFollows reg theories fuel)
    (hv : m.Valid cs) : FollowsFrom m (proveBody (eval reg theories fuel caller) caller self body u cs m)
      (TopDown.proveBody (TopDown.eval reg theories fuel caller) caller self body u (m.frames cs)
        m.toSearch) := by
  rw [proveBody, TopDown.proveBody]
  split_ifs
  · exact finish_follows hE caller hv
  · have h := hE caller self (hv.newContext body u self)
    rw [frame_newContext, hv.frames_eq (.newContext m body u self)] at h
    exact h.of_kept (.newContext m body u self)

/-- The loop of `_top_down_th`. -/
theorem tryClauses_follows (hE : EvalFollows reg theories fuel) :
    ∀ (rules : List (Clause V)) {m : InPlace V}, m.Valid (c :: previous) →
    FollowsFrom m (tryClauses (eval reg theories fuel caller) caller self l c previous rules m)
      (TopDown.tryClauses (TopDown.eval reg theories fuel caller) caller self l (m.frame c)
        (m.frames previous) rules m.toSearch)
  | [], m, _ => .returns false (.refl m)
  | rule :: rules, m, hv => by
    simp only [tryClauses, TopDown.tryClauses, frame_binding]
    rcases TopDown.biUnify m.bindings rule m.unifiers l c.binding self.name with ⟨h, _ | undo⟩
    · have hk₁ : Kept m { m with bindings := h, unifiers := m.unifiers + 1 } :=
        ⟨le_rfl, fun _ _ => rfl⟩
      exact (tryClauses_follows hE rules (hv.kept hk₁)).of_kept hk₁
    · have hv₁ : ({ m with bindings := h, unifiers := m.unifiers + 1 } : InPlace V).Valid
          (c :: previous) := ⟨hv.made, hv.nodup⟩
      refine (proveBody_follows hE hv₁).bind fun done m' hk => ?_
      have hk₂ : Kept m { m' with bindings := m'.bindings.undoAll undo } :=
        ⟨hk.contexts, hk.literalIndex⟩
      have hrest := tryClauses_follows hE rules (hv.kept hk₂)
      rw [hv.frame_eq hk₂, hv.tail.frames_eq hk₂] at hrest
      simp only
      split_ifs
      · exact .ok ⟨rfl, rfl, hk₂⟩
      · exact hrest.of_kept hk₂

/-- `_top_down_th`. -/
theorem th_follows (hE : EvalFollows reg theories fuel) (hv : m.Valid (c :: previous))
    (hl : m.lit c = .ok l) :
    FollowsFrom m (th (eval reg theories fuel caller) caller c previous self m)
      (TopDown.th (TopDown.eval reg theories fuel caller) caller l (m.frame c) (m.frames previous) self
        m.toSearch) := by
  simp only [th, hl, ok_bind, TopDown.th, frame_binding]
  cases self.headIndex l.table.table (l.plug m.bindings c.binding) with
  | none => exact .error _
  | some rules => exact tryClauses_follows hE rules hv

theorem lit_kept (hv : m.Valid (c :: previous)) (hk : Kept m m₁) : m₁.lit c = m.lit c := by
  rw [lit_eq, lit_eq, hv.frame_eq hk]

/-- `_top_down_includes`. -/
theorem includes_follows (hE : EvalFollows reg theories fuel) :
    ∀ (n : ℕ) (self : TopDownTheory V) {m : InPlace V}, m.Valid (c :: previous) → m.lit c = .ok l →
    FollowsFrom m (includes (th (eval reg theories fuel caller) caller c previous) caller n self m)
      (TopDown.includes (TopDown.th (TopDown.eval reg theories fuel caller) caller l (m.frame c)
        (m.frames previous)) caller n self m.toSearch)
  | 0, _, _, _, _ => .error _
  | n + 1, self, m, hv, hl => by
    have hloop : ∀ {ths : List (TopDownTheory V)} {m₁ : InPlace V}, Kept m m₁ →
        FollowsFrom m (includes.loop caller (includes (th (eval reg theories fuel caller) caller c
            previous) caller n) ths m₁)
          (TopDown.includes.loop caller (TopDown.includes (TopDown.th (TopDown.eval reg theories fuel
            caller) caller l (m.frame c) (m.frames previous)) caller n) ths m₁.toSearch) := by
      intro ths
      induction ths with
      | nil => exact fun hk => .returns false hk
      | cons t ths ih =>
        intro m₁ hk
        have h := includes_follows hE n t (hv.kept hk) ((lit_kept hv hk).trans hl)
        rw [hv.frame_eq hk, hv.tail.frames_eq hk] at h
        refine h.bind fun done m' hk' => ?_
        simp only
        split_ifs
        · exact .returns true (hk.trans hk')
        · exact ih (hk.trans hk')
    refine (th_follows hE hv hl).bind fun done m' hk => ?_
    simp only
    split_ifs
    · exact .returns true hk
    · exact hloop hk

/-- A negated literal: its complement is evaluated in a context and for a caller of their own. -/
theorem negated_follows {new : TopDownContext V × InPlace V} (hE : EvalFollows reg theories fuel)
    (hv : m.Valid (c :: previous)) (hnew : m.newContext [l.complement] c.binding self = new) :
    FollowsFrom m
      (eval reg theories fuel { caller with findAll := false, save := none } self new.1 []
          new.2.forNewCaller >>= fun r =>
        if r.2.results.isEmpty then finish (eval reg theories fuel caller) caller (c :: previous)
          (r.2.forCallerOf m)
        else pure (false, r.2.forCallerOf m))
      (TopDown.eval reg theories fuel { caller with findAll := false, save := none } self
          ⟨[l.complement], c.binding, self⟩ [] { m.toSearch with results := [], support := [] } >>= fun r =>
        if r.2.results.isEmpty then TopDown.finish (TopDown.eval reg theories fuel caller) caller
          (m.frame c :: m.frames previous)
          { m.toSearch with bindings := r.2.bindings, unifiers := r.2.unifiers }
        else pure (false, { m.toSearch with bindings := r.2.bindings, unifiers := r.2.unifiers })) := by
  have hv₀ : m.Valid [] := ⟨by simp, List.nodup_nil⟩
  have hv₁ := hv₀.newContext [l.complement] c.binding self
  have hk₁ := Kept.newContext m [l.complement] c.binding self
  have hframe := frame_newContext m [l.complement] c.binding self
  have hsearch : (m.newContext [l.complement] c.binding self).2.forNewCaller.toSearch
      = { m.toSearch with results := [], support := [] } := rfl
  rw [hnew] at hv₁ hk₁ hframe hsearch
  have hv₂ : new.2.forNewCaller.Valid [new.1] := ⟨hv₁.made, hv₁.nodup⟩
  have hframe₂ : new.2.forNewCaller.frame new.1 = ⟨[l.complement], c.binding, self⟩ := hframe
  have h := hE { caller with findAll := false, save := none } self hv₂
  rw [hframe₂, hsearch] at h
  refine h.bind fun done m' hk' => ?_
  have hk₂ : Kept m (m'.forCallerOf m) :=
    ⟨hk₁.contexts.trans hk'.contexts, (hk₁.trans ⟨hk'.contexts, hk'.literalIndex⟩).literalIndex⟩
  have hrest := finish_follows hE caller (hv.kept hk₂)
  rw [hv.frames_eq hk₂] at hrest
  show FollowsFrom m (if m'.results.isEmpty then _ else _) (if m'.results.isEmpty then _ else _)
  split_ifs
  · exact hrest.of_kept hk₂
  · exact FollowsFrom.returns false hk₂

/-- Evaluation in place follows evaluation, by induction on the fuel. -/
theorem evalFollows : ∀ fuel, EvalFollows reg theories fuel
  | 0 => fun _ _ => fun _ => .error _
  | fuel + 1 => by
    intro caller self c previous m hv
    have hE : EvalFollows reg theories fuel := evalFollows fuel
    have hlit := lit_eq m c
    rw [eval, TopDown.eval]
    cases hls : (m.frame c).literals with
    | nil =>
      rw [hls] at hlit
      rw [hlit]
      exact .error _
    | cons l ls =>
      rw [hls] at hlit
      simp only [hlit, show (m.frame c).binding = c.binding from rfl]
      split_ifs with hsave hneg hground htrue hfalse hbuiltin
      · exact save_follows hE hv
      · exact negated_follows hE hv rfl
      · exact .error _
      · exact finish_follows hE caller hv
      · exact .returns false (.refl m)
      · cases hreg : reg l.table.table with
        | none => simp [Literal.isBuiltin, BuiltinRegistry.isBuiltin, hreg] at hbuiltin
        | some built => exact builtin_follows hE hv hlit hreg
      · cases TopDown.movesTo self l with
        | none => exact includes_follows hE _ self hv hlit
        | some service =>
          simp only
          cases theories service with
          | none => exact .returns false (.refl m)
          | some th => exact hE caller th hv

/-- The answers are those of the search. -/
theorem abduction_eq (names : List String) (literals : List (Literal V)) (findAll : Bool)
    (save : Option (Literal V → Bool)) :
    abduction reg theories fuel self names literals findAll save
      = TopDown.abduction reg theories fuel self names literals findAll save := by
  have hv : (⟨⟨[], 1, [], []⟩, 0, fun _ => 0⟩ : InPlace V).Valid [] := ⟨by simp, List.nodup_nil⟩
  refine Lockstep.eq (Lockstep.bind (proveBody_follows (evalFollows fuel) hv) ?_)
  rintro ⟨done, m'⟩ ⟨done', s'⟩ ⟨-, hs, -⟩
  exact .ok (congrArg Search.results hs)

end InPlace

end Congress
