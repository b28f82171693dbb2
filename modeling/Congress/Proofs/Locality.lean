import Congress.Lib.Lockstep
import Congress.Proofs.Unification
import Congress.TopDown

/-!
# What evaluation depends on

The search numbers its unifiers, and tries clauses that do not unify with the literal. It returns the
same results if the unifiers have other numbers (`Renumbered`), and if the theories differ in clauses that
could not be unified with any literal that it comes to (`select_congr`).
-/

namespace Congress

open Lib Bindings

set_option linter.unusedSectionVars false

variable {V : Type*} [DecidableEq V]

/-! ## Unifiers with other numbers -/

/-- The same value, where the numbers of the unifiers are related. -/
inductive Value.Renumbered (ρ : ℕ → ℕ → Prop) : Value V → Value V → Prop
  | object (c : V) : Renumbered ρ (.object c) (.object c)
  | variable (x : String) {u u' : ℕ} (h : ρ u u') : Renumbered ρ (.variable x u) (.variable x u')

/-- The same variable. -/
def SameVariable (ρ : ℕ → ℕ → Prop) (c c' : ℕ × String) : Prop := ρ c.1 c'.1 ∧ c.2 = c'.2

/-- The same bindings. -/
def Bindings.Renumbered (ρ : ℕ → ℕ → Prop) : Bindings V → Bindings V → Prop :=
  List.Forall₂ fun e e' => SameVariable ρ e.1 e'.1 ∧ e.2.Renumbered ρ e'.2

variable {ρ ρ₁ : ℕ → ℕ → Prop} {h h' : Bindings V} {u u' : ℕ} {x : String} {v v' : Value V}

theorem Value.Renumbered.mono (hρ : ∀ i j, ρ i j → ρ₁ i j) (hv : v.Renumbered ρ v') :
    v.Renumbered ρ₁ v' := by
  cases hv with
  | object c => exact .object c
  | «variable» x hu => exact .variable x (hρ _ _ hu)

theorem Value.Renumbered.term (hv : v.Renumbered ρ v') : v.term = v'.term := by
  cases hv <;> rfl

theorem Term.renumbered_within (hu : ρ u u') : ∀ t : Term V, (t.within u).Renumbered ρ (t.within u')
  | .variable x => .variable x hu
  | .object c => .object c

theorem SameVariable.mono {c c' : ℕ × String} (hρ : ∀ i j, ρ i j → ρ₁ i j) (hc : SameVariable ρ c c') :
    SameVariable ρ₁ c c' := ⟨hρ _ _ hc.1, hc.2⟩

/-- Numbers that stand for one another tell the same variables apart. -/
theorem SameVariable.eq_iff {c c' d d' : ℕ × String} (hρ : Relator.BiUnique ρ) (hc : SameVariable ρ c c')
    (hd : SameVariable ρ d d') : c = d ↔ c' = d' := by
  constructor
  · rintro rfl
    exact Prod.ext (hρ.2 hc.1 hd.1) (hc.2.symm.trans hd.2)
  · rintro rfl
    exact Prod.ext (hρ.1 hc.1 hd.1) (hc.2.trans hd.2.symm)

namespace Bindings

theorem Renumbered.mono (hρ : ∀ i j, ρ i j → ρ₁ i j) (hh : h.Renumbered ρ h') : h.Renumbered ρ₁ h' :=
  hh.imp fun _ _ he => ⟨he.1.mono hρ, he.2.mono hρ⟩

theorem Renumbered.value (hρ : Relator.BiUnique ρ) (hu : ρ u u') (hh : h.Renumbered ρ h') :
    Option.Rel (Value.Renumbered ρ) (h.value u x) (h'.value u' x) := by
  induction hh with
  | nil => exact .none
  | @cons e e' h h' he hh ih =>
    obtain ⟨⟨w, y⟩, t⟩ := e
    obtain ⟨⟨w', y'⟩, t'⟩ := e'
    have hkey : (w, y) = (u, x) ↔ (w', y') = (u', x) := he.1.eq_iff hρ ⟨hu, rfl⟩
    rw [value_cons, value_cons]
    by_cases hx : (w, y) = (u, x)
    · rw [if_pos (by simpa [eq_comm] using hx), if_pos (by simpa [eq_comm] using hkey.1 hx)]
      exact .some he.2
    · rw [if_neg (by simpa [eq_comm] using hx), if_neg (by simpa [eq_comm] using mt hkey.2 hx)]
      exact ih

theorem Renumbered.applyFuel (hρ : Relator.BiUnique ρ) (hh : h.Renumbered ρ h') :
    ∀ (n : ℕ) {v v' : Value V}, v.Renumbered ρ v' → (h.applyFuel n v).Renumbered ρ (h'.applyFuel n v')
  | 0, _, _, hv => hv
  | n + 1, _, _, .object c => .object c
  | n + 1, _, _, .variable x hu => by
    have hvalue := hh.value (x := x) hρ hu
    unfold Bindings.applyFuel
    cases hb : h.value _ x with
    | none =>
      rw [hb] at hvalue
      cases hb' : h'.value _ x with
      | none => exact .variable x hu
      | some => rw [hb'] at hvalue; cases hvalue
    | some w =>
      rw [hb] at hvalue
      cases hb' : h'.value _ x with
      | none => rw [hb'] at hvalue; cases hvalue
      | some w' =>
        rw [hb'] at hvalue
        cases hvalue with
        | some hw => exact hh.applyFuel hρ n hw

theorem Renumbered.applyFull (hρ : Relator.BiUnique ρ) (hh : h.Renumbered ρ h') (hv : v.Renumbered ρ v') :
    (h.applyFull v).Renumbered ρ (h'.applyFull v') := by
  unfold Bindings.applyFull
  rw [hh.length_eq]
  exact hh.applyFuel hρ _ hv

theorem Renumbered.apply (hρ : Relator.BiUnique ρ) (hh : h.Renumbered ρ h') (hu : ρ u u') (t : Term V) :
    h.apply u t = h'.apply u' t := (hh.applyFull hρ (t.renumbered_within hu)).term

theorem Renumbered.plug (hρ : Relator.BiUnique ρ) (hh : h.Renumbered ρ h') (hu : ρ u u') (l : Literal V) :
    l.plug h u = l.plug h' u' := by
  unfold Literal.plug
  rw [show h.apply u = h'.apply u' from funext fun t => hh.apply hρ hu t]

theorem Renumbered.undoAll (hρ : Relator.BiUnique ρ) {cs cs' : List (ℕ × String)}
    (hcs : List.Forall₂ (SameVariable ρ) cs cs') (hh : h.Renumbered ρ h') :
    (h.undoAll cs).Renumbered ρ (h'.undoAll cs') := by
  induction hcs generalizing h h' with
  | nil => exact hh
  | cons hc _ ih =>
    refine ih (List.rel_filter ?_ hh)
    intro e e' he
    simpa using not_congr (he.1.eq_iff hρ hc)

/-- The same outcome of a unification. -/
structure SameUnification (ρ : ℕ → ℕ → Prop) (r r' : Bindings V × Option (List (ℕ × String))) : Prop where
  bindings : r.1.Renumbered ρ r'.1
  changes : Option.Rel (List.Forall₂ (SameVariable ρ)) r.2 r'.2

theorem Renumbered.add (hh : h.Renumbered ρ h') {c c' : ℕ × String} (hc : SameVariable ρ c c')
    (hv : v.Renumbered ρ v') : (h.add c.1 c.2 v).Renumbered ρ (h'.add c'.1 c'.2 v') :=
  .cons ⟨hc, hv⟩ hh

/-- Values clash, are the same, or are bound, whatever the numbers. -/
theorem biUnifyValues_rel (hρ : Relator.BiUnique ρ) {w w' : Value V} (hv : v.Renumbered ρ v')
    (hw : w.Renumbered ρ w') :
    Option.Rel (Option.Rel fun c c' => SameVariable ρ c.1 c'.1 ∧ c.2.Renumbered ρ c'.2)
      (biUnifyValues v w) (biUnifyValues v' w') := by
  cases hv with
  | object c =>
    cases hw with
    | object d =>
      dsimp only [biUnifyValues]
      split_ifs
      · exact .some .none
      · exact .none
    | «variable» y hy => exact .some (.some ⟨⟨hy, rfl⟩, .object c⟩)
  | @«variable» x u u' hx =>
    cases hw with
    | object d => exact .some (.some ⟨⟨hx, rfl⟩, .object d⟩)
    | @«variable» y w w' hy =>
      dsimp only [biUnifyValues]
      by_cases hxy : x = y ∧ u = w
      · obtain ⟨rfl, rfl⟩ := hxy
        rw [if_pos ⟨rfl, rfl⟩, if_pos ⟨rfl, hρ.2 hx hy⟩]
        exact .some .none
      · have hxy' : ¬ (x = y ∧ u' = w') := fun hxy' => hxy ⟨hxy'.1, hρ.1 hx (hxy'.2 ▸ hy)⟩
        rw [if_neg hxy, if_neg hxy']
        exact .some (.some ⟨⟨hx, rfl⟩, .variable y hy⟩)

theorem biUnifyLoop_rel (hρ : Relator.BiUnique ρ) {ts ts' : List (Value V × Value V)}
    (hts : List.Forall₂ (fun t t' => t.1.Renumbered ρ t'.1 ∧ t.2.Renumbered ρ t'.2) ts ts') :
    ∀ {h h' : Bindings V} {cs cs' : List (ℕ × String)}, h.Renumbered ρ h' →
      List.Forall₂ (SameVariable ρ) cs cs' →
      SameUnification ρ (h.biUnifyLoop ts cs) (h'.biUnifyLoop ts' cs') := by
  induction hts with
  | nil => exact fun hh hcs => ⟨hh, .some hcs⟩
  | @cons t t' ts ts' ht hts ih =>
    intro h h' cs cs' hh hcs
    have hvalues := biUnifyValues_rel hρ (hh.applyFull hρ ht.1) (hh.applyFull hρ ht.2)
    unfold biUnifyLoop
    generalize biUnifyValues (h.applyFull t.1) (h.applyFull t.2) = r at hvalues
    generalize biUnifyValues (h'.applyFull t'.1) (h'.applyFull t'.2) = r' at hvalues
    cases hvalues with
    | none => exact ⟨hh.undoAll hρ hcs, .none⟩
    | some hvalues =>
      cases hvalues with
      | none => exact ih hh hcs
      | some hvalues => exact ih (hh.add hvalues.1 hvalues.2) (List.rel_append hcs (.cons hvalues.1 .nil))

theorem zip_within_rel {w w' : ℕ} (hu : ρ u u') (hw : ρ w w') : ∀ ts₁ ts₂ : List (Term V),
    List.Forall₂ (fun t t' => t.1.Renumbered ρ t'.1 ∧ t.2.Renumbered ρ t'.2)
      ((ts₁.map (·.within u)).zip (ts₂.map (·.within w)))
      ((ts₁.map (·.within u')).zip (ts₂.map (·.within w')))
  | [], _ => .nil
  | _ :: _, [] => .nil
  | t₁ :: ts₁, t₂ :: ts₂ =>
    .cons ⟨t₁.renumbered_within hu, t₂.renumbered_within hw⟩ (zip_within_rel hu hw ts₁ ts₂)

theorem zip_tuple_rel (hu : ρ u u') : ∀ (ts : List (Term V)) (tuple : List V),
    List.Forall₂ (fun t t' => t.1.Renumbered ρ t'.1 ∧ t.2 = t'.2)
      ((ts.map (·.within u)).zip tuple) ((ts.map (·.within u')).zip tuple)
  | [], _ => .nil
  | _ :: _, [] => .nil
  | t :: ts, _ :: tuple => .cons ⟨t.renumbered_within hu, rfl⟩ (zip_tuple_rel hu ts tuple)

theorem biUnifyLists_rel (hρ : Relator.BiUnique ρ) (hh : h.Renumbered ρ h') {w w' : ℕ} (hu : ρ u u')
    (hw : ρ w w') (ts₁ ts₂ : List (Term V)) :
    SameUnification ρ (h.biUnifyLists ts₁ u ts₂ w) (h'.biUnifyLists ts₁ u' ts₂ w') := by
  unfold biUnifyLists
  split_ifs
  · exact ⟨hh, .none⟩
  · exact biUnifyLoop_rel hρ (zip_within_rel hu hw ts₁ ts₂) hh .nil

theorem matchLoop_rel (hρ : Relator.BiUnique ρ) {ts ts' : List (Value V × V)}
    (hts : List.Forall₂ (fun t t' => t.1.Renumbered ρ t'.1 ∧ t.2 = t'.2) ts ts') :
    ∀ {h h' : Bindings V} {cs cs' : List (ℕ × String)}, h.Renumbered ρ h' →
      List.Forall₂ (SameVariable ρ) cs cs' →
      SameUnification ρ (h.matchLoop ts cs) (h'.matchLoop ts' cs') := by
  induction hts with
  | nil => exact fun hh hcs => ⟨hh, .some hcs⟩
  | @cons t t' ts ts' ht hts ih =>
    obtain ⟨t, c⟩ := t
    obtain ⟨t', c'⟩ := t'
    obtain ⟨ht, rfl⟩ : t.Renumbered ρ t' ∧ c = c' := ht
    intro h h' cs cs' hh hcs
    have hvalue := hh.applyFull hρ ht
    unfold matchLoop
    generalize h.applyFull t = v at hvalue
    generalize h'.applyFull t' = v' at hvalue
    cases hvalue with
    | object d =>
      dsimp only
      split_ifs
      · exact ih hh hcs
      · exact ⟨hh.undoAll hρ hcs, .none⟩
    | «variable» x hu =>
      have hc : SameVariable ρ (_, x) (_, x) := ⟨hu, rfl⟩
      exact ih (hh.add hc (.object c)) (List.rel_append hcs (.cons hc .nil))

theorem matchTuple_rel (hρ : Relator.BiUnique ρ) (hh : h.Renumbered ρ h') (hu : ρ u u') (tuple : List V)
    (l : Literal V) : SameUnification ρ (h.matchTuple tuple l u) (h'.matchTuple tuple l u') := by
  unfold matchTuple
  split_ifs
  · exact ⟨hh, .none⟩
  · exact matchLoop_rel hρ (zip_tuple_rel hu l.arguments tuple) hh .nil

theorem biUnifyAtoms_rel (hρ : Relator.BiUnique ρ) (hh : h.Renumbered ρ h') {w w' : ℕ} (hu : ρ u u')
    (hw : ρ w w') (l₁ l₂ : Literal V) (name : Option String) :
    SameUnification ρ (h.biUnifyAtoms l₁ u l₂ w name) (h'.biUnifyAtoms l₁ u' l₂ w' name) := by
  unfold biUnifyAtoms
  split_ifs
  · exact biUnifyLists_rel hρ hh hu hw _ _
  · exact ⟨hh, .none⟩

end Bindings

/-! ## Searches -/

/-- The same search, where no literals are saved. -/
structure Search.Renumbered (ρ : ℕ → ℕ → Prop) (s s' : Search V) : Prop where
  unique : Relator.BiUnique ρ
  known : ∀ i j, ρ i j → i < s.unifiers ∧ j < s'.unifiers
  bindings : s.bindings.Renumbered ρ s'.bindings
  results : s.results = s'.results
  support : s.support = []
  support' : s'.support = []

/-- The same end of a call; unifiers may have been made. -/
def SameCall (ρ : ℕ → ℕ → Prop) : Outcome (Bool × Search V) → Outcome (Bool × Search V) → Prop :=
  Lockstep fun r r' => r.1 = r'.1 ∧ ∃ ρ₁, (∀ i j, ρ i j → ρ₁ i j) ∧ r.2.Renumbered ρ₁ r'.2

theorem SameCall.mono {x x' : Outcome (Bool × Search V)} (hρ : ∀ i j, ρ i j → ρ₁ i j)
    (hx : SameCall ρ₁ x x') : SameCall ρ x x' :=
  Lockstep.mono hx fun _ _ ⟨hdone, ρ₂, hρ₂, hs⟩ => ⟨hdone, ρ₂, fun i j h => hρ₂ i j (hρ i j h), hs⟩

/-- A number more on each side. -/
def Extended (ρ : ℕ → ℕ → Prop) (n n' : ℕ) (i j : ℕ) : Prop := ρ i j ∨ i = n ∧ j = n'

theorem SameCall.of_extended (n n' : ℕ) {x x' : Outcome (Bool × Search V)}
    (hx : SameCall (Extended ρ n n') x x') : SameCall ρ x x' := hx.mono fun _ _ => .inl

namespace Search.Renumbered

variable {s s' : Search V}

theorem pure (hs : s.Renumbered ρ s') (b : Bool) : SameCall ρ (.ok (b, s)) (.ok (b, s')) :=
  .ok ⟨rfl, ρ, fun _ _ h => h, hs⟩

theorem withBindings (hs : s.Renumbered ρ s') (hh : h.Renumbered ρ h') :
    Renumbered ρ { s with bindings := h } { s' with bindings := h' } :=
  ⟨hs.unique, hs.known, hh, hs.results, hs.support, hs.support'⟩

/-- A unifier is made on both sides. -/
theorem fresh (hs : s.Renumbered ρ s') :
    Renumbered (Extended ρ s.unifiers s'.unifiers)
      { s with unifiers := s.unifiers + 1 } { s' with unifiers := s'.unifiers + 1 } where
  unique := by
    constructor
    · rintro i i' j (hi | ⟨rfl, rfl⟩) (hi' | ⟨rfl, hj⟩)
      · exact hs.unique.1 hi hi'
      · exact absurd hj (hs.known _ _ hi).2.ne
      · exact absurd rfl (hs.known _ _ hi').2.ne
      · rfl
    · rintro i j j' (hj | ⟨rfl, rfl⟩) (hj' | ⟨hi, rfl⟩)
      · exact hs.unique.2 hj hj'
      · exact absurd hi (hs.known _ _ hj).1.ne
      · exact absurd rfl (hs.known _ _ hj').1.ne
      · rfl
  known := by
    rintro i j (h | ⟨rfl, rfl⟩)
    · exact ⟨(hs.known i j h).1.trans (Nat.lt_succ_self _), (hs.known i j h).2.trans (Nat.lt_succ_self _)⟩
    · exact ⟨Nat.lt_succ_self _, Nat.lt_succ_self _⟩
  bindings := hs.bindings.mono fun _ _ => .inl
  results := hs.results
  support := hs.support
  support' := hs.support'

/-- A unifier is made on one side, and not used. -/
theorem skip_left (hs : s.Renumbered ρ s') : Renumbered ρ { s with unifiers := s.unifiers + 1 } s' :=
  ⟨hs.unique, fun i j h => ⟨(hs.known i j h).1.trans (Nat.lt_succ_self _), (hs.known i j h).2⟩, hs.bindings,
    hs.results, hs.support, hs.support'⟩

theorem skip_right (hs : s.Renumbered ρ s') : Renumbered ρ s { s' with unifiers := s'.unifiers + 1 } :=
  ⟨hs.unique, fun i j h => ⟨(hs.known i j h).1, (hs.known i j h).2.trans (Nat.lt_succ_self _)⟩, hs.bindings,
    hs.results, hs.support, hs.support'⟩

end Search.Renumbered

/-- Whether a clause may be unified with a literal in the theory of the name. -/
def Clause.matches (name : String) (t : Tablename) (n : ℕ) : Clause V → Bool
  | .rule r => r.head.table.same t (some name) && r.head.arguments.length = n
  | .tuple _ => true

/-- Two theories of one name that have the same clauses for the literals that are read, and the bodies of
these read only such literals. -/
structure TopDownTheory.Agree (reads : String → Tablename → Prop) (th th' : TopDownTheory V) : Prop where
  name : th.name = th'.name
  alone : th.includes = []
  alone' : th'.includes = []
  clauses : ∀ lit : Literal V, reads th.name lit.table → TopDown.movesTo th lit = none →
    Option.Rel (fun cs cs' => cs.filter (Clause.matches th.name lit.table lit.arguments.length)
        = cs'.filter (Clause.matches th.name lit.table lit.arguments.length))
      (th.headIndex lit.table.table lit) (th'.headIndex lit.table.table lit)
  bodies : ∀ (lit : Literal V) cs, reads th.name lit.table → TopDown.movesTo th lit = none →
    th.headIndex lit.table.table lit = some cs →
    ∀ c ∈ cs, c.matches th.name lit.table lit.arguments.length → ∀ l ∈ c.body, reads th.name l.table

/-- The theories agree, and what is read in another theory is read there. -/
structure Theories.Agree (reads : String → Tablename → Prop) (theories theories' : Theories V) : Prop where
  theory : ∀ name, Option.Rel (fun th th' => th.name = name ∧ th.Agree reads th') (theories name)
    (theories' name)
  moved : ∀ (th : TopDownTheory V) (l : Literal V) service, reads th.name l.table →
    TopDown.movesTo th l = some service → reads service l.table

/-- The same context. -/
structure Frame.Same (reads : String → Tablename → Prop) (ρ : ℕ → ℕ → Prop) (f f' : Frame V) : Prop where
  literals : f.literals = f'.literals
  binding : ρ f.binding f'.binding
  theory : f.theory.Agree reads f'.theory
  read : ∀ l ∈ f.literals, reads f.theory.name l.table

theorem Frame.Same.mono {reads : String → Tablename → Prop} {f f' : Frame V} (hρ : ∀ i j, ρ i j → ρ₁ i j)
    (hf : f.Same reads ρ f') : f.Same reads ρ₁ f' := ⟨hf.literals, hρ _ _ hf.binding, hf.theory, hf.read⟩

namespace TopDown

theorem biUnify_rel (hρ : Relator.BiUnique ρ) (hh : h.Renumbered ρ h') {w w' : ℕ} (hu : ρ u u')
    (hw : ρ w w') (c : Clause V) (lit : Literal V) (name : String) :
    SameUnification ρ (biUnify h c u lit w name) (biUnify h' c u' lit w' name) := by
  cases c with
  | rule r => exact biUnifyAtoms_rel hρ hh hu hw _ _ _
  | tuple t => exact matchTuple_rel hρ hh hw t lit

/-- The same elements, but for some that `p` does not hold of. -/
inductive SameBut {α : Type*} (p : α → Bool) : List α → List α → Prop
  | nil : SameBut p [] []
  | left {a : α} {l l' : List α} (ha : p a = false) (h : SameBut p l l') : SameBut p (a :: l) l'
  | right {a : α} {l l' : List α} (ha : p a = false) (h : SameBut p l l') : SameBut p l (a :: l')
  | both {l l' : List α} (a : α) (h : SameBut p l l') : SameBut p (a :: l) (a :: l')

theorem sameBut_of_filter_eq {α : Type*} {p : α → Bool} {l l' : List α} (h : l.filter p = l'.filter p) :
    SameBut p l l' := by
  induction l generalizing l' with
  | nil =>
    induction l' with
    | nil => exact .nil
    | cons a l' ih =>
      have ha : p a = false := by simpa using List.filter_eq_nil_iff.1 h.symm a List.mem_cons_self
      rw [List.filter_cons_of_neg (by simp [ha])] at h
      exact .right ha (ih h)
  | cons a l ih =>
    cases ha : p a with
    | false =>
      rw [List.filter_cons_of_neg (by simp [ha])] at h
      exact .left ha (ih h)
    | true =>
      rw [List.filter_cons_of_pos ha] at h
      induction l' with
      | nil => cases h
      | cons a' l' ih' =>
        cases ha' : p a' with
        | false =>
          rw [List.filter_cons_of_neg (by simp [ha'])] at h
          exact .right ha' (ih' h)
        | true =>
          rw [List.filter_cons_of_pos ha', List.cons.injEq] at h
          obtain ⟨rfl, h⟩ := h
          exact .both a (ih h)

/-- A rule that does not match leaves the bindings as they are. -/
theorem biUnify_of_not_matches {c : Clause V} {lit : Literal V} {name : String} {w : ℕ}
    (hc : c.matches name lit.table lit.arguments.length = false) : biUnify h c u lit w name = (h, none) := by
  cases c with
  | rule r =>
    show h.biUnifyAtoms r.head u lit w (some name) = (h, none)
    exact if_neg (Bool.eq_false_iff.1 hc)
  | tuple t => cases hc

variable {reg : BuiltinRegistry V} {theories theories' : Theories V} {reads : String → Tablename → Prop}
  {fuel : ℕ} {caller : Caller V} {self self' : TopDownTheory V} {f f' : Frame V}
  {previous previous' : List (Frame V)} {s s' : Search V} {lit : Literal V}

/-- Evaluation with some fuel ends the same way. -/
def EvalSame (reg : BuiltinRegistry V) (theories theories' : Theories V)
    (reads : String → Tablename → Prop) (fuel : ℕ) : Prop :=
  ∀ {ρ : ℕ → ℕ → Prop} {caller : Caller V} {self self' : TopDownTheory V} {f f' : Frame V}
    {previous previous' : List (Frame V)} {s s' : Search V}, caller.save = none →
    ρ caller.binding caller.binding → self.Agree reads self' → f.Same reads ρ f' →
    (∀ l ∈ f.literals.head?, reads self.name l.table) →
    List.Forall₂ (Frame.Same reads ρ) previous previous' → s.Renumbered ρ s' →
    SameCall ρ (eval reg theories fuel caller self f previous s)
      (eval reg theories' fuel caller self' f' previous' s')

theorem result_same (hsave : s.support = []) (hsave' : s'.support = []) (hb : ρ caller.binding caller.binding)
    (hs : s.Renumbered ρ s') : caller.result s = caller.result s' := by
  unfold Caller.result
  rw [hsave, hsave', List.map_nil, List.map_nil]
  congr 1
  exact List.map_congr_left fun x _ => congrArg (Prod.mk x) (hs.bindings.apply hs.unique hb _)

theorem finish_same (hE : EvalSame reg theories theories' reads fuel) (hsave : caller.save = none)
    (hb : ρ caller.binding caller.binding)
    (hf : List.Forall₂ (Frame.Same reads ρ) previous previous') (hs : s.Renumbered ρ s') :
    SameCall ρ (finish (eval reg theories fuel caller) caller previous s)
      (finish (eval reg theories' fuel caller) caller previous' s') := by
  induction hf with
  | nil =>
    refine .ok ⟨rfl, ρ, fun _ _ h => h, hs.unique, hs.known, hs.bindings, ?_, hs.support, hs.support'⟩
    show s.results ++ [caller.result s] = s'.results ++ [caller.result s']
    rw [hs.results, result_same hs.support hs.support' hb hs]
  | @cons f f' previous previous' hf hprevious ih =>
    obtain ⟨literals, binding, theory⟩ := f
    obtain ⟨literals', binding', theory'⟩ := f'
    obtain rfl : literals = literals' := hf.literals
    match literals with
    | [] => exact ih
    | [_] => exact ih
    | _ :: l :: ls =>
      have hread : ∀ l' ∈ l :: ls, reads theory.name l'.table := fun l' hl' =>
        hf.read l' (List.mem_cons_of_mem _ hl')
      exact hE hsave hb hf.theory ⟨rfl, hf.binding, hf.theory, hread⟩
        (fun l' hl' => hread l' (List.mem_of_mem_head? hl')) hprevious hs

theorem proveBody_same {body : List (Literal V)} (hE : EvalSame reg theories theories' reads fuel)
    (hsave : caller.save = none) (hb : ρ caller.binding caller.binding) (hself : self.Agree reads self')
    (hu : ρ u u') (hbody : ∀ l ∈ body, reads self.name l.table)
    (hf : List.Forall₂ (Frame.Same reads ρ) previous previous') (hs : s.Renumbered ρ s') :
    SameCall ρ (proveBody (eval reg theories fuel caller) caller self body u previous s)
      (proveBody (eval reg theories' fuel caller) caller self' body u' previous' s') := by
  unfold proveBody
  split_ifs
  · exact finish_same hE hsave hb hf hs
  · exact hE hsave hb hself ⟨rfl, hu, hself, hbody⟩ (fun l hl => hbody l (List.mem_of_mem_head? hl)) hf hs

/-- Afterwards the bindings of a call are undone. -/
theorem undo_same {cs cs' : List (ℕ × String)} {r r' : Bool × Search V}
    (hcs : List.Forall₂ (SameVariable ρ) cs cs')
    (hr : r.1 = r'.1 ∧ ∃ ρ₁, (∀ i j, ρ i j → ρ₁ i j) ∧ r.2.Renumbered ρ₁ r'.2) :
    SameCall ρ (.ok (r.1, { r.2 with bindings := r.2.bindings.undoAll cs }))
      (.ok (r'.1, { r'.2 with bindings := r'.2.bindings.undoAll cs' })) := by
  obtain ⟨hdone, ρ₁, hρ₁, hs⟩ := hr
  exact .ok ⟨hdone, ρ₁, hρ₁, hs.withBindings
    (hs.bindings.undoAll hs.unique (hcs.imp fun _ _ h => h.mono hρ₁))⟩

theorem builtin_same {built : Builtin V} (hE : EvalSame reg theories theories' reads fuel)
    (hsave : caller.save = none) (hb : ρ caller.binding caller.binding) (hf : f.Same reads ρ f')
    (hprevious : List.Forall₂ (Frame.Same reads ρ) previous previous') (hs : s.Renumbered ρ s') :
    SameCall ρ (builtin (finish (eval reg theories fuel caller) caller) caller built lit f previous s)
      (builtin (finish (eval reg theories' fuel caller) caller) caller built lit f' previous' s') := by
  unfold builtin
  rw [hs.bindings.plug hs.unique hf.binding lit]
  refine Lockstep.bind_same fun args _ => ?_
  cases args with
  | none =>
    dsimp only
    rw [hsave]
    exact .error _
  | some args =>
    cases built with
    | test n code =>
      dsimp only
      split_ifs
      · exact finish_same hE hsave hb (.cons hf hprevious) hs
      · exact hs.pure false
    | function n m code =>
      dsimp only
      cases code args with
      | none => exact hs.pure false
      | some result =>
        have hfresh := hs.fresh
        have hunify := biUnifyLists_rel hfresh.unique hfresh.bindings (.inr ⟨rfl, rfl⟩)
          (.inl hf.binding) (result.map .object) (lit.arguments.drop n)
        simp only [Nat.add_sub_cancel]
        revert hunify
        generalize s.bindings.biUnifyLists _ _ _ _ = r
        generalize s'.bindings.biUnifyLists _ _ _ _ = r'
        rintro ⟨hbindings, hchanges⟩
        obtain ⟨h, undo⟩ := r
        obtain ⟨h', undo'⟩ := r'
        refine SameCall.of_extended s.unifiers s'.unifiers ?_
        cases hchanges with
        | none => exact (hfresh.withBindings hbindings).pure false
        | some hundo =>
          refine Lockstep.bind (finish_same hE hsave (.inl hb) (.cons (hf.mono fun _ _ => .inl)
            (hprevious.imp fun _ _ h => h.mono fun _ _ => .inl)) (hfresh.withBindings hbindings)) ?_
          exact fun r r' hr => undo_same hundo hr

theorem tryClauses_of_none {ev : TopDownTheory V → Frame V → List (Frame V) → Call V} {c : Clause V}
    {cs : List (Clause V)} (hu : biUnify s.bindings c s.unifiers lit f.binding self.name = (h, none)) :
    tryClauses ev caller self lit f previous (c :: cs) s = tryClauses ev caller self lit f previous cs
      { s with bindings := h, unifiers := s.unifiers + 1 } := by
  rw [tryClauses]
  simp only [hu]

theorem tryClauses_of_some {ev : TopDownTheory V → Frame V → List (Frame V) → Call V} {c : Clause V}
    {cs : List (Clause V)} {undo : List (ℕ × String)}
    (hu : biUnify s.bindings c s.unifiers lit f.binding self.name = (h, some undo)) :
    tryClauses ev caller self lit f previous (c :: cs) s
      = (proveBody ev caller self c.body s.unifiers (f :: previous)
          { s with bindings := h, unifiers := s.unifiers + 1 } >>= fun r =>
        if r.1 && !caller.findAll then .ok (true, { r.2 with bindings := r.2.bindings.undoAll undo })
        else tryClauses ev caller self lit f previous cs
          { r.2 with bindings := r.2.bindings.undoAll undo }) := by
  rw [tryClauses]
  simp only [hu]
  rfl

/-- The loop over the clauses that `head_index` gives. -/
theorem tryClauses_same (hE : EvalSame reg theories theories' reads fuel) (hsave : caller.save = none)
    (hself : self.Agree reads self') {cs cs' : List (Clause V)}
    (hcs : SameBut (Clause.matches self.name lit.table lit.arguments.length) cs cs') :
    (∀ c ∈ cs, c.matches self.name lit.table lit.arguments.length → ∀ l ∈ c.body,
      reads self.name l.table) →
    ∀ {ρ : ℕ → ℕ → Prop} {f f' : Frame V} {previous previous' : List (Frame V)} {s s' : Search V},
      ρ caller.binding caller.binding → f.Same reads ρ f' →
      List.Forall₂ (Frame.Same reads ρ) previous previous' → s.Renumbered ρ s' →
      SameCall ρ (tryClauses (eval reg theories fuel caller) caller self lit f previous cs s)
        (tryClauses (eval reg theories' fuel caller) caller self' lit f' previous' cs' s') := by
  induction hcs with
  | nil =>
    intro _ ρ f f' previous previous' s s' _ _ _ hs
    exact hs.pure false
  | @left c cs cs' hc _ ih =>
    intro hbodies ρ f f' previous previous' s s' hb hf hprevious hs
    rw [tryClauses_of_none (biUnify_of_not_matches hc)]
    exact ih (List.forall_mem_cons.1 hbodies).2 hb hf hprevious hs.skip_left
  | @right c cs cs' hc _ ih =>
    intro hbodies ρ f f' previous previous' s s' hb hf hprevious hs
    rw [tryClauses_of_none (biUnify_of_not_matches (hself.name ▸ hc))]
    exact ih hbodies hb hf hprevious hs.skip_right
  | @both cs cs' c _ ih =>
    intro hbodies ρ f f' previous previous' s s' hb hf hprevious hs
    obtain ⟨hbody, hbodies⟩ := List.forall_mem_cons.1 hbodies
    have hunify := biUnify_rel hs.fresh.unique hs.fresh.bindings (.inr ⟨rfl, rfl⟩) (.inl hf.binding) c lit
      self.name
    rcases hr : biUnify s.bindings c s.unifiers lit f.binding self.name with ⟨h, undo⟩
    rcases hr' : biUnify s'.bindings c s'.unifiers lit f'.binding self'.name with ⟨h', undo'⟩
    have hr₁ := hr'
    rw [← hself.name] at hr₁
    obtain ⟨hbindings, hchanges⟩ : SameUnification _ (h, undo) (h', undo') := hr ▸ hr₁ ▸ hunify
    have hframe : f.Same reads (Extended ρ s.unifiers s'.unifiers) f' := hf.mono fun _ _ => .inl
    have hframes : List.Forall₂ (Frame.Same reads (Extended ρ s.unifiers s'.unifiers)) previous previous' :=
      hprevious.imp fun _ _ h => h.mono fun _ _ => .inl
    have hstart := hs.fresh.withBindings hbindings
    refine SameCall.of_extended s.unifiers s'.unifiers ?_
    cases hchanges with
    | none =>
      rw [tryClauses_of_none hr, tryClauses_of_none hr']
      exact ih hbodies (.inl hb) hframe hframes hstart
    | some hundo =>
      rw [tryClauses_of_some hr, tryClauses_of_some hr']
      have hmatches : c.matches self.name lit.table lit.arguments.length := by
        by_contra hc
        rw [biUnify_of_not_matches (Bool.eq_false_iff.2 hc)] at hr
        cases hr
      refine Lockstep.bind (proveBody_same hE hsave (.inl hb) hself (.inr ⟨rfl, rfl⟩) (hbody hmatches)
        (.cons hframe hframes) hstart) ?_
      rintro ⟨done, s₁⟩ ⟨done', s₁'⟩ ⟨rfl, ρ₁, hρ₁, hs₁⟩
      have hundone := hs₁.withBindings (hs₁.bindings.undoAll hs₁.unique (hundo.imp fun _ _ h => h.mono hρ₁))
      dsimp only
      split_ifs
      · exact (hundone.pure true).mono hρ₁
      · exact (ih hbodies (hρ₁ _ _ (.inl hb)) (hframe.mono hρ₁) (hframes.imp fun _ _ h => h.mono hρ₁)
          hundone).mono hρ₁

/-- `_top_down_th`, for a literal that is not moved to another theory. -/
theorem th_same (hE : EvalSame reg theories theories' reads fuel) (hsave : caller.save = none)
    (hself : self.Agree reads self') (hread : reads self.name lit.table) (hmoves : movesTo self lit = none)
    (hb : ρ caller.binding caller.binding) (hf : f.Same reads ρ f')
    (hprevious : List.Forall₂ (Frame.Same reads ρ) previous previous') (hs : s.Renumbered ρ s') :
    SameCall ρ (th (eval reg theories fuel caller) caller lit f previous self s)
      (th (eval reg theories' fuel caller) caller lit f' previous' self' s') := by
  have hclauses := hself.clauses (lit.plug s.bindings f.binding) hread hmoves
  have hbodies := hself.bodies (lit.plug s.bindings f.binding)
  have hlength : (lit.plug s.bindings f.binding).arguments.length = lit.arguments.length :=
    List.length_map ..
  rw [hlength] at hclauses hbodies
  unfold th
  rw [← hs.bindings.plug hs.unique hf.binding lit]
  change Option.Rel _ (self.headIndex lit.table.table _) (self'.headIndex lit.table.table _) at hclauses
  cases hcs : self.headIndex lit.table.table (lit.plug s.bindings f.binding) with
  | none =>
    rw [hcs] at hclauses
    cases hcs' : self'.headIndex lit.table.table (lit.plug s.bindings f.binding) with
    | none => exact .error _
    | some => rw [hcs'] at hclauses; cases hclauses
  | some cs =>
    rw [hcs] at hclauses
    cases hcs' : self'.headIndex lit.table.table (lit.plug s.bindings f.binding) with
    | none => rw [hcs'] at hclauses; cases hclauses
    | some cs' =>
      rw [hcs'] at hclauses
      cases hclauses with
      | some heq =>
        exact tryClauses_same hE hsave hself (sameBut_of_filter_eq heq) (hbodies cs hread hmoves hcs) hb hf
          hprevious hs

theorem movesTo_congr (h : self.name = self'.name) : movesTo self lit = movesTo self' lit := by
  unfold movesTo
  rw [h]

/-- `_top_down_includes`, of a theory that includes no others. -/
theorem includes_same {call call' : TopDownTheory V → Call V} {n : ℕ} (hself : self.Agree reads self')
    (hcall : SameCall ρ (call self s) (call' self' s')) :
    SameCall ρ (includes call caller (n + 1) self s) (includes call' caller (n + 1) self' s') := by
  unfold includes
  refine Lockstep.bind hcall ?_
  rintro ⟨found, s₁⟩ ⟨found', s₁'⟩ ⟨rfl, ρ₁, hρ₁, hs₁⟩
  rw [hself.alone, hself.alone']
  dsimp only
  split_ifs
  · exact (hs₁.pure true).mono hρ₁
  · exact (hs₁.pure false).mono hρ₁

theorem evalSame (h : theories.Agree reads theories') (fuel : ℕ) :
    EvalSame reg theories theories' reads fuel := by
  induction fuel with
  | zero => exact fun _ _ _ _ _ _ _ => .error _
  | succ fuel hE =>
    intro ρ caller self self' f f' previous previous' s s' hsave hb hself hf hread hprevious hs
    unfold eval
    rw [← hf.literals]
    cases hlits : f.literals with
    | nil => exact .error _
    | cons lit ls =>
      have hlit : reads self.name lit.table := hread lit (by rw [hlits]; rfl)
      have hfinish := finish_same hE hsave hb (.cons hf hprevious) hs
      dsimp only
      rw [hsave, ← hs.bindings.plug hs.unique hf.binding lit, ← movesTo_congr hself.name]
      simp only [Option.any_none, Bool.false_eq_true, if_false]
      by_cases hneg : lit.negated
      · rw [if_pos hneg, if_pos hneg]
        by_cases hground : (lit.plug s.bindings f.binding).isGround
        · rw [if_pos hground, if_pos hground]
          have hstart : Search.Renumbered ρ { s with results := [], support := [] }
              { s' with results := [], support := [] } :=
            ⟨hs.unique, hs.known, hs.bindings, rfl, rfl, rfl⟩
          have hcomplement : ∀ l ∈ [lit.complement], reads self.name l.table := by
            rintro _ (_ | ⟨_, ⟨⟩⟩)
            exact hlit
          refine Lockstep.bind (hE rfl hb hself ⟨rfl, hf.binding, hself, hcomplement⟩
            (fun l hl => hcomplement l (List.mem_of_mem_head? hl)) .nil hstart) ?_
          rintro ⟨done, s₁⟩ ⟨done', s₁'⟩ ⟨rfl, ρ₁, hρ₁, hs₁⟩
          have hback : Search.Renumbered ρ₁ { s with bindings := s₁.bindings, unifiers := s₁.unifiers }
              { s' with bindings := s₁'.bindings, unifiers := s₁'.unifiers } :=
            ⟨hs₁.unique, hs₁.known, hs₁.bindings, hs.results, hs.support, hs.support'⟩
          dsimp only
          rw [hs₁.results]
          split_ifs
          · exact (finish_same hE hsave (hρ₁ _ _ hb) (.cons (hf.mono hρ₁)
              (hprevious.imp fun _ _ h => h.mono hρ₁)) hback).mono hρ₁
          · exact (hback.pure false).mono hρ₁
        · rw [if_neg hground, if_neg hground]
          exact .error _
      · rw [if_neg hneg, if_neg hneg]
        by_cases htrue : lit.tablename none = "true"
        · rw [if_pos htrue, if_pos htrue]
          exact hfinish
        by_cases hfalse : lit.tablename none = "false"
        · rw [if_neg htrue, if_neg htrue, if_pos hfalse, if_pos hfalse]
          exact hs.pure false
        rw [if_neg htrue, if_neg htrue, if_neg hfalse, if_neg hfalse]
        by_cases hbuiltin : lit.isBuiltin reg true
        · rw [if_pos hbuiltin, if_pos hbuiltin]
          cases reg lit.table.table with
          | none => exact .error _
          | some built => exact builtin_same hE hsave hb hf hprevious hs
        · rw [if_neg hbuiltin, if_neg hbuiltin]
          cases hmoves : movesTo self lit with
          | none => exact includes_same hself (th_same hE hsave hself hlit hmoves hb hf hprevious hs)
          | some service =>
            have htheory := h.theory service
            dsimp only
            cases hth : theories service with
            | none =>
              rw [hth] at htheory
              cases hth' : theories' service with
              | none => exact hs.pure false
              | some => rw [hth'] at htheory; cases htheory
            | some th =>
              rw [hth] at htheory
              cases hth' : theories' service with
              | none => rw [hth'] at htheory; cases htheory
              | some th' =>
                rw [hth'] at htheory
                cases htheory with
                | some hagree =>
                  obtain ⟨hname, hagree⟩ := hagree
                  refine hE hsave hb hagree hf (fun l hl => ?_) hprevious hs
                  obtain rfl : lit = l := by rw [hlits] at hl; exact Option.some.inj hl
                  rw [hname]
                  exact h.moved self lit service hlit hmoves

/-- The search at its start, where the caller's unifier has been made. -/
theorem renumbered_start : Search.Renumbered (fun i j => i = 0 ∧ j = 0) (⟨[], 1, [], []⟩ : Search V)
    ⟨[], 1, [], []⟩ where
  unique := ⟨fun _ _ _ hi hi' => hi.1.trans hi'.1.symm, fun _ _ _ hj hj' => hj.2.trans hj'.2.symm⟩
  known := by
    rintro i j ⟨rfl, rfl⟩
    exact ⟨Nat.one_pos, Nat.one_pos⟩
  bindings := .nil
  results := rfl
  support := rfl
  support' := rfl

/-- Abduction without literals to save. -/
theorem abduction_congr {names : List String} {literals : List (Literal V)} {findAll : Bool}
    (h : theories.Agree reads theories') (hself : self.Agree reads self')
    (hread : ∀ l ∈ literals, reads self.name l.table) :
    abduction reg theories fuel self names literals findAll none
      = abduction reg theories' fuel self' names literals findAll none := by
  refine Lockstep.eq (Lockstep.bind (proveBody_same (evalSame h fuel) rfl ⟨rfl, rfl⟩ hself ⟨rfl, rfl⟩ hread
    .nil renumbered_start) ?_)
  rintro ⟨done, s⟩ ⟨done', s'⟩ ⟨-, ρ₁, -, hs⟩
  exact .ok hs.results

end TopDown

/-- A query has the same answers, in the same order, where the theories agree on what it reads, and else it
fails in the same way. -/
theorem select_congr {reg : BuiltinRegistry V} {theories theories' : Theories V}
    {reads : String → Tablename → Prop} {fuel : ℕ} {self self' : TopDownTheory V} {query : Formula V}
    {findAll : Bool} (h : theories.Agree reads theories') (hself : self.Agree reads self')
    (hread : ∀ l ∈ query.literals, reads self.name l.table) :
    self.select reg theories fuel query findAll = self'.select reg theories' fuel query findAll := by
  unfold TopDownTheory.select
  rw [TopDown.abduction_congr h hself hread]

end Congress
