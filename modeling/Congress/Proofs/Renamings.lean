import Mathlib.Data.Set.Function
import Congress.Proofs.Unification
import Congress.Sameness

/-!
# Formulas up to a renaming

`same` looks at the first heads and the bodies of two rules without their signs, at the signs of two literals,
and at no named arguments. What it looks at is compared up to a bijective renaming
(`isSome_same_iff`), so the answer is right unless the formulas differ only in what it overlooks
(`same_correct_iff`).
-/

namespace Congress

open Bindings

set_option linter.unusedSectionVars false

variable {V : Type*} [DecidableEq V]

/-! ## Substitution -/

/-- A term with terms for its variables. -/
def Term.subst (θ : String → Term V) : Term V → Term V
  | .variable x => θ x
  | .object v => .object v

def Literal.subst (θ : String → Term V) (l : Literal V) : Literal V :=
  { l with
    arguments := l.arguments.map (Term.subst θ)
    namedArguments := l.namedArguments.map fun a => (a.1, a.2.subst θ) }

def Rule.subst (θ : String → Term V) (r : Rule V) : Rule V :=
  ⟨r.head.subst θ, r.moreHeads.map (Literal.subst θ), r.body.map (Literal.subst θ)⟩

/-- All variables of a literal. -/
def Literal.allNames (l : Literal V) : List String :=
  Term.names l.arguments ++ Term.names (l.namedArguments.map Prod.snd)

namespace Formula

def subst (θ : String → Term V) : Formula V → Formula V
  | .atom l => .atom (l.subst θ)
  | .rule r => .rule (r.subst θ)

/-- All variables of a formula. -/
def allNames : Formula V → List String
  | .atom l => l.allNames
  | .rule r => (r.heads ++ r.body).flatMap Literal.allNames

/-- A bijective renaming of the variables of one formula to those of another turns it into that. -/
def SameUpToRenaming (f f' : Formula V) : Prop :=
  ∃ σ : String → String, Set.BijOn σ {x | x ∈ f.allNames} {x | x ∈ f'.allNames}
    ∧ f.subst (fun x => .variable (σ x)) = f'

end Formula

/-- A literal without its sign and its named arguments. -/
def Literal.bare (l : Literal V) : Literal V := { l with negated := false, namedArguments := [] }

namespace Formula

/-- What `same` looks at, besides the signs of two literals. -/
def bare : Formula V → Formula V
  | .atom l => .atom l.bare
  | .rule r => .rule ⟨r.head.bare, [], r.body.map Literal.bare⟩

/-- The signs of the literals. -/
def signs : Formula V → List Bool
  | .atom l => [l.negated]
  | .rule r => (r.heads ++ r.body).map Literal.negated

/-- The formula with all its signs left out. -/
def unsigned : Formula V → Formula V
  | .atom l => .atom { l with negated := false }
  | .rule r => .rule ⟨{ r.head with negated := false }, r.moreHeads.map ({ · with negated := false }),
      r.body.map ({ · with negated := false })⟩

/-- Two formulas agree in what `same` looks at. -/
def Alike : Formula V → Formula V → Prop
  | .atom l, .atom l' => l.negated = l'.negated ∧ (atom l).bare.SameUpToRenaming (atom l').bare
  | .rule r, .rule r' => (rule r).bare.SameUpToRenaming (rule r').bare
  | _, _ => False

end Formula

/-! ## Renaming -/

variable {f f' : Formula V} {σ : String → String} {l l' : Literal V} {ts ts' : List (Term V)}

theorem names_map_variable (σ : String → String) (ts : List (Term V)) :
    Term.names (ts.map (Term.subst fun x => .variable (σ x))) = (Term.names ts).map σ := by
  induction ts with
  | nil => rfl
  | cons t ts ih =>
    rcases t with x | v
    · exact congrArg (σ x :: ·) ih
    · exact ih

theorem Literal.allNames_subst (σ : String → String) (l : Literal V) :
    (l.subst fun x => .variable (σ x)).allNames = l.allNames.map σ := by
  rw [allNames, allNames, List.map_append, ← names_map_variable, ← names_map_variable, subst]
  simp [Function.comp_def]

theorem Formula.allNames_subst (σ : String → String) (f : Formula V) :
    (f.subst fun x => .variable (σ x)).allNames = f.allNames.map σ := by
  cases f with
  | atom l => exact l.allNames_subst σ
  | rule r =>
    have hall : ∀ ls : List (Literal V), (ls.map (Literal.subst fun x => .variable (σ x))).flatMap Literal.allNames
        = (ls.flatMap Literal.allNames).map σ := fun ls => by
      simp [List.flatMap_map, List.map_flatMap, Literal.allNames_subst]
    show (((r.subst _).heads ++ (r.subst _).body).flatMap Literal.allNames) = _
    rw [Formula.allNames, ← hall]
    simp [Rule.subst, Rule.heads]

/-- It is enough that a renaming is injective. -/
theorem Formula.sameUpToRenaming_iff : f.SameUpToRenaming f'
    ↔ ∃ σ : String → String, Set.InjOn σ {x | x ∈ f.allNames} ∧ f.subst (fun x => .variable (σ x)) = f' := by
  constructor
  · exact fun ⟨σ, hb, hs⟩ => ⟨σ, hb.injOn, hs⟩
  · rintro ⟨σ, hinj, rfl⟩
    refine ⟨σ, ⟨fun x hx => ?_, hinj, fun y hy => ?_⟩, rfl⟩
    · rw [Set.mem_ofPred_eq, allNames_subst]
      exact List.mem_map_of_mem hx
    · rw [Set.mem_ofPred_eq, allNames_subst] at hy
      exact List.mem_map.1 hy

/-! ## The loop -/

/-- The pairs of terms agree under a renaming. -/
def Renames (σ : String → String) (ts : List (Term V × Term V)) : Prop :=
  ∀ p ∈ ts, p.1.subst (fun x => .variable (σ x)) = p.2

/-- The unifiers send the variables of the first formula as the list does, and each to another one. -/
structure Sends (h : Bindings V) (bound₂ : List String) (M : List (String × String)) : Prop where
  trail : h.Trail
  sent : ∀ p ∈ M, h.root (.variable p.1 0) = .variable p.2 1
  unsent : ∀ x, x ∉ M.map Prod.fst → h.root (.variable x 0) = .variable x 0
  second : ∀ y, h.root (.variable y 1) = .variable y 1
  bound : bound₂ = M.map Prod.snd
  nodup : (M.map Prod.snd).Nodup

theorem sends_nil : Sends ([] : Bindings V) [] [] where
  trail := trivial
  sent p hp := by cases hp
  unsent x _ := rfl
  second y := rfl
  bound := rfl
  nodup := .nil

variable {h h' : Bindings V} {bound₂ : List String} {M : List (String × String)} {x y : String}
  {pairs : List (Term V × Term V)} {changes : List (ℕ × String)}

theorem Sends.add (hs : Sends h bound₂ M) (hx : x ∉ M.map Prod.fst) (hy : y ∉ bound₂) :
    Sends (h.add 0 x (.variable y 1)) (y :: bound₂) ((x, y) :: M) := by
  have hfree := root_free hs.trail (.variable x 0)
  rw [hs.unsent x hx] at hfree
  have hfree' := root_free hs.trail (.variable y 1)
  rw [hs.second y] at hfree'
  refine ⟨⟨hs.trail, hfree, hfree', by simp⟩, ?_, fun z hz => ?_, fun z => ?_, by rw [hs.bound]; rfl, ?_⟩
  · rintro p hp
    rw [Bindings.add, root]
    rcases List.mem_cons.1 hp with rfl | hp
    · rw [hs.unsent x hx, if_pos rfl]
    · rw [hs.sent p hp, if_neg (by simp)]
  · rw [List.map_cons, List.mem_cons, not_or] at hz
    rw [Bindings.add, root, hs.unsent z hz.2, if_neg (by simpa using hz.1)]
  · rw [Bindings.add, root, hs.second z, if_neg (by simp)]
  · rw [List.map_cons]
    exact List.nodup_cons.2 ⟨hs.bound ▸ hy, hs.nodup⟩

theorem Sends.keys_nodup (hs : Sends h bound₂ M) {y' : String} (hxy : (x, y) ∈ M) (hxy' : (x, y') ∈ M) :
    y = y' := by
  have hroot : Value.variable y 1 = (.variable y' 1 : Value V) := (hs.sent _ hxy).symm.trans (hs.sent _ hxy')
  cases hroot
  rfl

/-- What one pair of terms does to the pairs of variables. -/
def pairTerms (M : List (String × String)) : Term V → Term V → Option (List (String × String))
  | .variable x, .variable y =>
    if x ∈ M.map Prod.fst then (if (x, y) ∈ M then some M else none)
    else if y ∈ M.map Prod.snd then none else some ((x, y) :: M)
  | .variable _, .object _ => none
  | .object _, .variable _ => none
  | .object c, .object c' => if c = c' then some M else none

def pairAll (M : List (String × String)) : List (Term V × Term V) → Option (List (String × String))
  | [] => some M
  | (t₁, t₂) :: ts => (pairTerms M t₁ t₂).bind fun M => pairAll M ts

theorem pairAll_append : ∀ (ts ts' : List (Term V × Term V)) (M : List (String × String)),
    pairAll M (ts ++ ts') = (pairAll M ts).bind fun M => pairAll M ts'
  | [], _, _ => rfl
  | (t₁, t₂) :: ts, ts', M => by
    rw [List.cons_append, pairAll, pairAll, Option.bind_assoc]
    exact congrArg _ (funext fun M => pairAll_append ts ts' M)

/-- The loop pairs the variables. -/
theorem sameLoop_cons (hs : Sends h bound₂ M) (t₁ t₂ : Term V) (ts : List (Term V × Term V))
    (changes : List (ℕ × String)) :
    (pairTerms M t₁ t₂ = none → (h.sameLoop 0 1 bound₂ ((t₁, t₂) :: ts) changes).2 = none)
      ∧ ∀ M', pairTerms M t₁ t₂ = some M' → ∃ h' bound₂' changes', Sends h' bound₂' M'
        ∧ h.sameLoop 0 1 bound₂ ((t₁, t₂) :: ts) changes = h'.sameLoop 0 1 bound₂' ts changes' := by
  rw [sameLoop, applyFull_eq_root hs.trail, applyFull_eq_root hs.trail]
  have hnone : ∀ {M' : List (String × String)}, (none = some M') → False := fun hn => Option.some_ne_none _ hn.symm
  rcases t₁ with x | c
  · rcases t₂ with y | c'
    · rw [pairTerms, Term.within, Term.within, hs.second y]
      split_ifs with hx hxy hy
      · rw [hs.sent _ hxy]
        exact ⟨fun hn => hn.elim, fun M' hM =>
          ⟨h, bound₂, changes, Option.some.inj hM ▸ hs, if_pos ⟨rfl, rfl⟩⟩⟩
      · obtain ⟨⟨x', y'⟩, hp, rfl⟩ := List.mem_map.1 hx
        rw [hs.sent _ hp]
        refine ⟨fun _ => ?_, fun M' hM => hM.elim⟩
        have hne : ¬(y' = y ∧ 1 = 1) := fun ⟨he, _⟩ => hxy (he ▸ hp)
        dsimp only
        rw [if_neg hne, if_pos (Or.inl (by simp))]
      · rw [hs.unsent x hx]
        refine ⟨fun _ => ?_, fun M' hM => hM.elim⟩
        dsimp only
        rw [if_neg (by simp), if_pos (Or.inr (Or.inr (hs.bound ▸ hy)))]
      · rw [hs.unsent x hx]
        have hnew : y ∉ bound₂ := hs.bound ▸ hy
        refine ⟨fun hn => hn.elim, fun M' hM =>
          ⟨_, _, changes ++ [(0, x)], Option.some.inj hM ▸ hs.add hx hnew, ?_⟩⟩
        dsimp only
        rw [if_neg (by simp), if_neg (by simpa using hnew)]
    · rw [pairTerms, Term.within, Term.within, root_object]
      refine ⟨fun _ => ?_, fun M' hM => (hnone hM).elim⟩
      rcases hr : h.root (.variable x 0) with c | ⟨z, u⟩
      · by_cases hx : x ∈ M.map Prod.fst
        · obtain ⟨p, hp, rfl⟩ := List.mem_map.1 hx
          rw [hs.sent p hp] at hr
          cases hr
        · rw [hs.unsent x hx] at hr
          cases hr
      · rfl
  · rcases t₂ with y | c'
    · rw [pairTerms, Term.within, Term.within, root_object, hs.second y]
      exact ⟨fun _ => rfl, fun M' hM => (hnone hM).elim⟩
    · rw [pairTerms, Term.within, Term.within, root_object, root_object]
      split_ifs with hc
      · exact ⟨fun hn => hn.elim, fun M' hM =>
          ⟨h, bound₂, changes, Option.some.inj hM ▸ hs, if_pos hc⟩⟩
      · refine ⟨fun _ => ?_, fun M' hM => hM.elim⟩
        dsimp only
        rw [if_neg hc]

theorem sameLoop_iff : ∀ (ts : List (Term V × Term V)) (changes : List (ℕ × String)) {h : Bindings V}
    {bound₂ : List String} {M : List (String × String)}, Sends h bound₂ M →
    (pairAll M ts = none → (h.sameLoop 0 1 bound₂ ts changes).2 = none)
      ∧ ∀ M', pairAll M ts = some M' → ∃ h' bound₂' changes', Sends h' bound₂' M'
        ∧ h.sameLoop 0 1 bound₂ ts changes = ((h', bound₂'), some changes')
  | [], changes, h, bound₂, M, hs =>
    ⟨fun hn => (Option.some_ne_none _ hn).elim, fun M' hM => ⟨h, bound₂, changes, Option.some.inj hM ▸ hs, rfl⟩⟩
  | (t₁, t₂) :: ts, changes, h, bound₂, M, hs => by
    obtain ⟨hfail, hgo⟩ := sameLoop_cons hs t₁ t₂ ts changes
    rw [pairAll]
    rcases hM : pairTerms M t₁ t₂ with _ | M₁
    · exact ⟨fun _ => hfail hM, fun M' hM' => (Option.some_ne_none _ hM'.symm).elim⟩
    · obtain ⟨h₁, bound₁, changes₁, hs₁, hrun⟩ := hgo M₁ hM
      rw [hrun]
      exact sameLoop_iff ts changes₁ hs₁

/-- The loop over literals pairs the variables of all of them. -/
theorem isSome_sameLiterals_iff : ∀ (ls : List (Literal V × Literal V)) {h : Bindings V} {bound₂ : List String}
    {M : List (String × String)}, Sends h bound₂ M → ((h.sameLiterals 0 1 bound₂ ls).isSome = true
      ↔ (∀ p ∈ ls, p.1.sameSchema p.2 none = true)
        ∧ (pairAll M (ls.flatMap fun p => p.1.arguments.zip p.2.arguments)).isSome = true)
  | [], _, _, _, _ => by simp [sameLiterals, pairAll]
  | (l₁, l₂) :: ls, h, bound₂, M, hs => by
    rw [sameLiterals, sameAtoms, List.forall_mem_cons, List.flatMap_cons, pairAll_append]
    split_ifs with hschema
    · obtain ⟨hfail, hgo⟩ := sameLoop_iff (l₁.arguments.zip l₂.arguments) [] hs
      rcases hM : pairAll M (l₁.arguments.zip l₂.arguments) with _ | M₁
      · have hout : h.sameLoop 0 1 bound₂ (l₁.arguments.zip l₂.arguments) [] = (_, none) := Prod.ext rfl (hfail hM)
        rw [hout]
        simp
      · obtain ⟨h₁, bound₁, changes₁, hs₁, hrun⟩ := hgo M₁ hM
        have ih := isSome_sameLiterals_iff ls hs₁
        rw [hrun, Option.bind_some]
        exact ih.trans (and_congr_left fun _ => (and_iff_right hschema).symm)
    · simp [hschema]

/-! ## Renamings that the pairs give -/

/-- What is paired agrees under every renaming that goes along with the pairs. -/
theorem renames_of_pairAll : ∀ {ts : List (Term V × Term V)} {M M' : List (String × String)},
    pairAll M ts = some M' → M ⊆ M' ∧ (∀ x ∈ Term.names (ts.map Prod.fst), x ∈ M'.map Prod.fst)
      ∧ ∀ σ : String → String, (∀ p ∈ M', σ p.1 = p.2) → Renames σ ts
  | [], M, M', heq => by
    cases heq
    exact ⟨List.Subset.refl _, by simp [Term.names], fun σ _ p hp => by cases hp⟩
  | (t₁, t₂) :: ts, M, M', heq => by
    obtain ⟨M₁, hM, heq⟩ := Option.bind_eq_some_iff.1 heq
    obtain ⟨hsub, hnames, hrenames⟩ := renames_of_pairAll heq
    have hstep : M ⊆ M₁ ∧ (∀ x ∈ Term.names [t₁], x ∈ M₁.map Prod.fst)
        ∧ ∀ σ : String → String, (∀ p ∈ M₁, σ p.1 = p.2) → t₁.subst (fun x => .variable (σ x)) = t₂ := by
      rcases t₁ with x | c
      · rcases t₂ with y | c'
        · rw [pairTerms] at hM
          have hpair : (x, y) ∈ M₁ ∧ M ⊆ M₁ := by
            split_ifs at hM with hx hxy hy
            · cases hM
              exact ⟨hxy, List.Subset.refl _⟩
            · cases hM
              exact ⟨List.mem_cons_self .., List.subset_cons_self ..⟩
          refine ⟨hpair.2, fun z hz => ?_, fun σ hσ => congrArg Term.variable (hσ _ hpair.1)⟩
          rw [List.mem_singleton.1 hz]
          exact List.mem_map_of_mem hpair.1
        · cases hM
      · rcases t₂ with y | c'
        · cases hM
        · rw [pairTerms] at hM
          split_ifs at hM with hc
          cases hM
          exact ⟨List.Subset.refl _, by simp [Term.names], fun σ _ => congrArg Term.object hc⟩
    refine ⟨List.Subset.trans hstep.1 hsub, fun x hx => ?_, fun σ hσ => List.forall_mem_cons.2
      ⟨hstep.2.2 σ fun p hp => hσ p (hsub hp), hrenames σ hσ⟩⟩
    have hx : x ∈ Term.names [t₁] ++ Term.names (ts.map Prod.fst) := by
      rwa [Term.names, Term.names, ← List.filterMap_append]
    rcases List.mem_append.1 hx with hx | hx
    · obtain ⟨p, hp, rfl⟩ := List.mem_map.1 (hstep.2.1 x hx)
      exact List.mem_map_of_mem (hsub hp)
    · exact hnames x hx

/-- What agrees under an injective renaming can be paired. -/
theorem pairAll_of_renames {σ : String → String} : ∀ {ts : List (Term V × Term V)} {M : List (String × String)},
    (∀ p ∈ M, σ p.1 = p.2) → Set.InjOn σ {x | x ∈ M.map Prod.fst ∨ x ∈ Term.names (ts.map Prod.fst)} →
    Renames σ ts → (pairAll M ts).isSome = true
  | [], _, _, _, _ => rfl
  | (t₁, t₂) :: ts, M, hM, hinj, hr => by
    obtain ⟨ht, hrest⟩ := List.forall_mem_cons.1 hr
    change t₁.subst _ = t₂ at ht
    subst ht
    rw [pairAll]
    rcases t₁ with x | c
    · rw [Term.subst, pairTerms]
      have hnames : ∀ z, z ∈ Term.names (ts.map Prod.fst) →
          z ∈ Term.names (((.variable x, .variable (σ x)) :: ts : List (Term V × Term V)).map Prod.fst) :=
        fun z hz => List.mem_cons_of_mem x hz
      split_ifs with hx hxy hy
      · exact pairAll_of_renames hM (hinj.mono fun z hz => hz.imp_right (hnames z)) hrest
      · obtain ⟨⟨x', y'⟩, hp, rfl⟩ := List.mem_map.1 hx
        exact absurd (by rw [hM _ hp]; exact hp) hxy
      · obtain ⟨p, hp, heq⟩ := List.mem_map.1 hy
        have hpx : p.1 = x := hinj (.inl (List.mem_map_of_mem hp)) (.inr (List.mem_cons_self ..))
          ((hM p hp).trans heq)
        exact absurd (hpx ▸ List.mem_map_of_mem hp) hx
      · refine pairAll_of_renames (List.forall_mem_cons.2 ⟨rfl, hM⟩) (hinj.mono fun z hz => ?_) hrest
        rcases hz with hz | hz
        · rcases List.mem_cons.1 hz with rfl | hz
          · exact .inr (List.mem_cons_self ..)
          · exact .inl hz
        · exact .inr (hnames z hz)
    · rw [Term.subst, pairTerms, if_pos rfl]
      exact pairAll_of_renames hM hinj hrest

/-- The pairs are a renaming. -/
theorem Sends.renaming (hs : Sends h bound₂ M) : ∃ σ : String → String, (∀ p ∈ M, σ p.1 = p.2)
    ∧ Set.InjOn σ {x | x ∈ M.map Prod.fst} := by
  have hσ : ∀ p ∈ M, ((M.find? (·.1 = p.1)).map Prod.snd).getD p.1 = p.2 := by
    rintro ⟨x, y⟩ hp
    show ((M.find? (·.1 = x)).map Prod.snd).getD x = y
    rcases hfind : M.find? (·.1 = x) with _ | ⟨x', y'⟩
    · exact absurd (List.find?_eq_none.1 hfind _ hp) (by simp)
    · obtain rfl : x' = x := by simpa using List.find?_some hfind
      rw [hfind]
      exact hs.keys_nodup (List.mem_of_find?_eq_some hfind) hp
  refine ⟨fun x => ((M.find? (·.1 = x)).map Prod.snd).getD x, hσ, fun x hx x' hx' heq => ?_⟩
  obtain ⟨p, hp, rfl⟩ := List.mem_map.1 hx
  obtain ⟨q, hq, rfl⟩ := List.mem_map.1 hx'
  have hpq : p.2 = q.2 := (hσ p hp).symm.trans (heq.trans (hσ q hq))
  exact congrArg Prod.fst (List.inj_on_of_nodup_map hs.nodup hp hq hpq)

theorem isSome_pairAll_iff {ts : List (Term V × Term V)} : (pairAll [] ts).isSome = true
    ↔ ∃ σ : String → String, Set.InjOn σ {x | x ∈ Term.names (ts.map Prod.fst)} ∧ Renames σ ts := by
  constructor
  · intro hsome
    obtain ⟨M, hM⟩ := Option.isSome_iff_exists.1 hsome
    obtain ⟨-, hgo⟩ := sameLoop_iff ts [] sends_nil
    obtain ⟨h, bound₂, changes, hs, -⟩ := hgo M hM
    obtain ⟨σ, hσ, hinj⟩ := hs.renaming
    obtain ⟨-, hnames, hrenames⟩ := renames_of_pairAll hM
    exact ⟨σ, hinj.mono hnames, hrenames σ hσ⟩
  · rintro ⟨σ, hinj, hr⟩
    exact pairAll_of_renames (by simp) (hinj.mono fun x hx => hx.resolve_left (by simp)) hr

/-! ## Literals -/

theorem same_none_iff {t t' : Tablename} : t.same t' none = true ↔ t = t' := by
  obtain ⟨service, table, modal⟩ := t
  obtain ⟨service', table', modal'⟩ := t'
  simp only [Tablename.same, Option.or_none, Bool.and_eq_true, decide_eq_true_eq, Tablename.mk.injEq]
  tauto

theorem renames_zip_iff (h : ts.length = ts'.length) :
    Renames σ (ts.zip ts') ↔ ts.map (Term.subst fun x => .variable (σ x)) = ts' := by
  induction ts generalizing ts' with
  | nil => simp [Renames, List.length_eq_zero_iff.1 h.symm]
  | cons t ts ih =>
    obtain ⟨t', ts', rfl⟩ := List.exists_cons_of_length_eq_add_one h.symm
    rw [List.zip_cons_cons, List.map_cons, List.cons.injEq, ← ih (by simpa using h)]
    exact List.forall_mem_cons

theorem renames_append {ps qs : List (Term V × Term V)} :
    Renames σ (ps ++ qs) ↔ Renames σ ps ∧ Renames σ qs := List.forall_mem_append

/-- Literals agree but for their signs and named arguments. -/
theorem bare_subst_iff : (l.bare.subst fun x => .variable (σ x)) = l'.bare
    ↔ l.sameSchema l' none = true ∧ Renames σ (l.arguments.zip l'.arguments) := by
  rw [Literal.sameSchema, Bool.and_eq_true, same_none_iff, decide_eq_true_eq, and_assoc]
  constructor
  · intro heq
    simp only [Literal.bare, Literal.subst, Literal.mk.injEq] at heq
    have hlength : l.arguments.length = l'.arguments.length := by rw [← heq.2.1, List.length_map]
    exact ⟨heq.1, hlength, (renames_zip_iff hlength).2 heq.2.1⟩
  · rintro ⟨htable, hlength, hr⟩
    rw [renames_zip_iff hlength] at hr
    simp [Literal.bare, Literal.subst, htable, hr]

/-- The pairs of terms of a list of pairs of literals. -/
def argumentPairs (ls : List (Literal V × Literal V)) : List (Term V × Term V) :=
  ls.flatMap fun p => p.1.arguments.zip p.2.arguments

theorem bare_subst_all_iff : ∀ {L L' : List (Literal V)}, L.length = L'.length →
    (L.map (fun l => l.bare.subst fun x => .variable (σ x)) = L'.map Literal.bare
      ↔ (∀ p ∈ L.zip L', p.1.sameSchema p.2 none = true) ∧ Renames σ (argumentPairs (L.zip L')))
  | [], [], _ => by simp [argumentPairs, Renames]
  | l :: L, l' :: L', hlength => by
    rw [List.map_cons, List.map_cons, List.cons.injEq, bare_subst_iff, bare_subst_all_iff (by simpa using hlength),
      List.zip_cons_cons, List.forall_mem_cons]
    simp only [argumentPairs, List.flatMap_cons, renames_append]
    tauto

theorem names_argumentPairs : ∀ {L L' : List (Literal V)}, L.length = L'.length →
    (∀ p ∈ L.zip L', p.1.sameSchema p.2 none = true) →
    Term.names ((argumentPairs (L.zip L')).map Prod.fst) = (L.map Literal.bare).flatMap Literal.allNames
  | [], [], _, _ => rfl
  | l :: L, l' :: L', hlength, hschema => by
    obtain ⟨hl, hschema⟩ := List.forall_mem_cons.1 hschema
    have hargs : (l.arguments.zip l'.arguments).map Prod.fst = l.arguments := by
      rw [Literal.sameSchema, Bool.and_eq_true, decide_eq_true_eq] at hl
      exact List.map_fst_zip hl.2.le
    have ih := names_argumentPairs (by simpa using hlength) hschema
    rw [argumentPairs] at ih ⊢
    rw [List.zip_cons_cons, List.flatMap_cons, List.map_append, hargs, Term.names, List.filterMap_append,
      ← Term.names, ← Term.names, ih]
    simp [Literal.allNames, Literal.bare, Term.names]

/-- The loop over literals finds a renaming if there is one. -/
theorem isSome_sameLiterals (L L' : List (Literal V)) (hlength : L.length = L'.length) :
    (Bindings.sameLiterals 0 1 [] [] (L.zip L')).isSome = true ↔ ∃ σ : String → String,
      Set.InjOn σ {x | x ∈ (L.map Literal.bare).flatMap Literal.allNames}
      ∧ L.map (fun l => l.bare.subst fun x => .variable (σ x)) = L'.map Literal.bare := by
  rw [isSome_sameLiterals_iff _ sends_nil, ← argumentPairs, isSome_pairAll_iff]
  constructor
  · rintro ⟨hschema, σ, hinj, hr⟩
    rw [names_argumentPairs hlength hschema] at hinj
    exact ⟨σ, hinj, (bare_subst_all_iff hlength).2 ⟨hschema, hr⟩⟩
  · rintro ⟨σ, hinj, heq⟩
    obtain ⟨hschema, hr⟩ := (bare_subst_all_iff hlength).1 heq
    rw [← names_argumentPairs hlength hschema] at hinj
    exact ⟨hschema, σ, hinj, hr⟩

/-! ## Formulas -/

/-- `same` compares what it looks at up to a renaming. -/
theorem isSome_same_iff : (Unify.same f f').isSome = true ↔ f.Alike f' := by
  rcases f with l | r <;> rcases f' with l' | r'
  · rw [Unify.same, Formula.Alike, Formula.sameUpToRenaming_iff]
    split_ifs with hsign
    · exact iff_of_false Bool.false_ne_true fun h => hsign h.1
    · rw [and_iff_right (not_not.1 hsign)]
      have hiff := isSome_sameLiterals [l] [l'] rfl
      refine hiff.trans (exists_congr fun σ => ?_)
      simp [Formula.bare, Formula.allNames, Formula.subst]
  · exact iff_of_false Bool.false_ne_true id
  · exact iff_of_false Bool.false_ne_true id
  · rw [Unify.same, Formula.Alike, Formula.sameUpToRenaming_iff]
    split_ifs with hbody
    · refine iff_of_false Bool.false_ne_true ?_
      rintro ⟨σ, -, heq⟩
      simp only [Formula.bare, Formula.subst, Rule.subst, Formula.rule.injEq, Rule.mk.injEq, List.map_map] at heq
      exact hbody (by simpa using congrArg List.length heq.2.2)
    · have hlength : (r.head :: r.body).length = (r'.head :: r'.body).length := by simpa using hbody
      refine (isSome_sameLiterals _ _ hlength).trans (exists_congr fun σ => ?_)
      simp [Formula.bare, Formula.allNames, Formula.subst, Rule.subst, Rule.heads, Function.comp_def]

/-! ## What is overlooked -/

namespace Formula

theorem signs_subst (θ : String → Term V) : ∀ f : Formula V, (f.subst θ).signs = f.signs
  | .atom _ => rfl
  | .rule r => by
    have hmap : ∀ ls : List (Literal V), (ls.map (Literal.subst θ)).map Literal.negated = ls.map Literal.negated :=
      fun ls => by
        rw [List.map_map]
        rfl
    have hall : (r.subst θ).heads ++ (r.subst θ).body = (r.heads ++ r.body).map (Literal.subst θ) := by
      simp [Rule.subst, Rule.heads]
    show ((r.subst θ).heads ++ (r.subst θ).body).map Literal.negated = _
    rw [hall, hmap]
    rfl

theorem unsigned_subst (θ : String → Term V) (f : Formula V) : (f.subst θ).unsigned = f.unsigned.subst θ := by
  cases f with
  | atom l => rfl
  | rule r => simp [subst, unsigned, Rule.subst, Literal.subst]

theorem allNames_unsigned : ∀ f : Formula V, f.unsigned.allNames = f.allNames
  | .atom _ => rfl
  | .rule r => by
    have hmap : ∀ ls : List (Literal V),
        (ls.map ({ · with negated := false })).flatMap Literal.allNames = ls.flatMap Literal.allNames := fun ls => by
      rw [List.flatMap_map]
      rfl
    rw [allNames, ← hmap]
    simp [unsigned, allNames, Rule.heads]

/-- A formula is given by its signs and the rest. -/
theorem eq_iff_unsigned : f = f' ↔ f.signs = f'.signs ∧ f.unsigned = f'.unsigned := by
  refine ⟨fun h => h ▸ ⟨rfl, rfl⟩, fun ⟨hsigns, hrest⟩ => ?_⟩
  have hinj : Function.Injective fun l : Literal V => (({ l with negated := false } : Literal V), l.negated) := by
    rintro ⟨table, arguments, negated, named⟩ ⟨table', arguments', negated', named'⟩ h
    simp only [Prod.mk.injEq, Literal.mk.injEq] at h
    obtain ⟨⟨rfl, rfl, -, rfl⟩, rfl⟩ := h
    rfl
  rcases f with l | ⟨head, more, body⟩ <;> rcases f' with l' | ⟨head', more', body'⟩
  · exact congrArg atom (hinj (Prod.ext (atom.inj hrest) (List.cons.inj hsigns).1))
  · cases hrest
  · cases hrest
  · simp only [unsigned, rule.injEq, Rule.mk.injEq] at hrest
    obtain ⟨hhead, hmore, hbody⟩ := hrest
    have hall : (head :: more ++ body).map (fun l => (({ l with negated := false } : Literal V), l.negated))
        = (head' :: more' ++ body').map fun l => (({ l with negated := false } : Literal V), l.negated) := by
      rw [← List.zip_map', ← List.zip_map']
      refine congrArg₂ List.zip ?_ hsigns
      simp only [List.map_append, List.map_cons, hhead, hmore, hbody]
    have hlength : more.length = more'.length := by simpa using congrArg List.length hmore
    obtain ⟨hheads, rfl⟩ := List.append_inj (List.map_injective_iff.2 hinj hall) (by simpa using hlength)
    obtain ⟨rfl, rfl⟩ := List.cons.inj hheads
    rfl

/-- Two formulas are the same up to a renaming if their signs are, and all the rest is up to a renaming. -/
theorem sameUpToRenaming_iff_unsigned : f.SameUpToRenaming f'
    ↔ f.signs = f'.signs ∧ f.unsigned.SameUpToRenaming f'.unsigned := by
  simp only [sameUpToRenaming_iff, eq_iff_unsigned (f := f.subst _), signs_subst, unsigned_subst, allNames_unsigned]
  constructor
  · exact fun ⟨σ, hinj, hsigns, hrest⟩ => ⟨hsigns, σ, hinj, hrest⟩
  · exact fun ⟨hsigns, σ, hinj, hrest⟩ => ⟨σ, hinj, hsigns, hrest⟩

/-- Formulas that are the same up to a renaming agree in what `same` looks at. -/
theorem SameUpToRenaming.alike (h : f.SameUpToRenaming f') : f.Alike f' := by
  obtain ⟨σ, hinj, rfl⟩ := sameUpToRenaming_iff.1 h
  cases f with
  | atom l =>
    refine ⟨rfl, sameUpToRenaming_iff.2 ⟨σ, hinj.mono fun x hx => ?_, rfl⟩⟩
    have hx : x ∈ l.bare.allNames := hx
    exact List.mem_append_left _ (by simpa [Literal.allNames, Literal.bare, Term.names] using hx)
  | rule r =>
    refine sameUpToRenaming_iff.2 ⟨σ, hinj.mono fun x hx => ?_, ?_⟩
    · have hx : ∃ l ∈ r.head :: r.body, x ∈ l.bare.allNames := by
        simpa [bare, allNames, Rule.heads] using hx
      obtain ⟨l, hl, hx⟩ := hx
      refine List.mem_flatMap.2 ⟨l, ?_, List.mem_append_left _ (by
        simpa [Literal.allNames, Literal.bare, Term.names] using hx)⟩
      rcases List.mem_cons.1 hl with rfl | hl
      · exact List.mem_append_left _ (List.mem_cons_self ..)
      · exact List.mem_append_right _ hl
    · simp [subst, bare, Rule.subst, Literal.subst, Literal.bare]

/-- Formulas that agree in what `same` looks at, but differ in the sign of a literal, or in further heads or
named arguments. -/
def Overlooked (f f' : Formula V) : Prop :=
  f.Alike f' ∧ ¬(f.signs = f'.signs ∧ f.unsigned.SameUpToRenaming f'.unsigned)

end Formula

/-- `same` tells whether two formulas are the same up to a renaming, unless they differ only in what it
overlooks. -/
theorem same_correct_iff (f f' : Formula V) :
    ((Unify.same f f').isSome = true ↔ f.SameUpToRenaming f') ↔ ¬f.Overlooked f' := by
  rw [isSome_same_iff, Formula.Overlooked, ← Formula.sameUpToRenaming_iff_unsigned]
  have halike : f.SameUpToRenaming f' → f.Alike f' := Formula.SameUpToRenaming.alike
  tauto

/-- `p(x) :- q(x)` and `p(x) :- not q(x)`. -/
theorem not_same_correct :
    let rule (negated : Bool) : Formula ℕ := .rule
      ⟨⟨⟨none, "p", none⟩, [.variable "x"], false, []⟩, [], [⟨⟨none, "q", none⟩, [.variable "x"], negated, []⟩]⟩
    (Unify.same (rule false) (rule true)).isSome = true ∧ ¬(rule false).SameUpToRenaming (rule true) := by
  refine ⟨by decide, fun h => ?_⟩
  have hsigns := (Formula.sameUpToRenaming_iff_unsigned.1 h).1
  exact absurd hsigns (by decide)

end Congress
