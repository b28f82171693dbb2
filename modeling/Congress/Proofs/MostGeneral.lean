import Mathlib.Order.WellFounded
import Congress.Proofs.Unification

/-!
# Unification is most general

What unification does is the same for other constants (`biUnifyLists_recast`), and substitutions are
valuations in which the values themselves are the constants. So unification succeeds exactly if a
substitution makes the lists equal, and each that does is one of the new bindings'
(`biUnifyLists_mostGeneral`).
-/

namespace Congress

set_option linter.unusedSectionVars false

variable {V W : Type*} [DecidableEq V] [DecidableEq W] {f : V → W}

/-! ## Other constants -/

def Term.recast (f : V → W) : Term V → Term W
  | .variable x => .variable x
  | .object c => .object (f c)

namespace Value

def recast (f : V → W) : Value V → Value W
  | .object c => .object (f c)
  | .variable x u => .variable x u

/-- The value with values for its variable. -/
def subst (σ : ℕ × String → Value V) : Value V → Value V
  | .object c => .object c
  | .variable x u => σ (u, x)

theorem recast_eq_variable {v : Value V} {x : String} {u : ℕ} :
    v.recast f = .variable x u ↔ v = .variable x u := by
  rcases v with c | ⟨y, w⟩ <;> simp [recast]

theorem recast_within (t : Term V) (u : ℕ) : (t.recast f).within u = (t.within u).recast f := by
  rcases t with x | c <;> rfl

/-- A substitution is a valuation by values. -/
theorem eval_recast (σ : ℕ × String → Value V) (v : Value V) :
    (v.recast Value.object).eval σ = v.subst σ := by
  rcases v with c | ⟨x, u⟩ <;> rfl

end Value

namespace Bindings

variable {h h' : Bindings V} {u u₁ u₂ : ℕ} {x : String} {v w : Value V} {ts₁ ts₂ : List (Term V)}
  {cs : List (ℕ × String)} {σ : ℕ × String → Value V}

def recast (f : V → W) (h : Bindings V) : Bindings W := List.map (fun e => (e.1, e.2.recast f)) h

theorem value_recast (u : ℕ) (x : String) :
    (h.recast f).value u x = (h.value u x).map (Value.recast f) := by
  unfold value recast
  rw [List.find?_map, Option.map_map, Option.map_map]
  rfl

theorem applyFull_recast (v : Value V) :
    (h.recast f).applyFull (v.recast f) = (h.applyFull v).recast f := by
  have hfuel : ∀ n v, (h.recast f).applyFuel n (v.recast f) = (h.applyFuel n v).recast f := by
    intro n
    induction n with
    | zero => exact fun _ => rfl
    | succ n ih =>
      rintro (c | ⟨x, u⟩)
      · rfl
      · simp only [Value.recast, applyFuel, value_recast]
        rcases h.value u x with _ | v
        · rfl
        · exact ih v
  unfold applyFull
  rw [hfuel, recast, List.length_map]

theorem undoAll_recast (cs : List (ℕ × String)) :
    (h.recast f).undoAll cs = (h.undoAll cs).recast f := by
  rw [undoAll_eq_filter, undoAll_eq_filter, recast, List.filter_map]
  rfl

theorem root_recast (v : Value V) : (h.recast f).root (v.recast f) = (h.root v).recast f := by
  induction h with
  | nil => rfl
  | cons e h ih =>
    obtain ⟨⟨u, x⟩, w⟩ := e
    change (if root (recast f h) (v.recast f) = .variable x u then w.recast f
      else root (recast f h) (v.recast f))
        = (if root h v = .variable x u then w else root h v).recast f
    rw [ih]
    by_cases hr : root h v = .variable x u
    · rw [if_pos hr, if_pos (Value.recast_eq_variable.2 hr)]
    · rw [if_neg hr, if_neg fun h => hr (Value.recast_eq_variable.1 h)]

theorem biUnifyValues_recast (hf : Function.Injective f) (v w : Value V) :
    biUnifyValues (v.recast f) (w.recast f)
      = (biUnifyValues v w).map (Option.map fun e => (e.1, e.2.recast f)) := by
  rcases v with c | ⟨x, u⟩ <;> rcases w with c' | ⟨x', u'⟩ <;>
    simp only [Value.recast, biUnifyValues]
  · by_cases hc : c = c'
    · simp [hc]
    · simp [hc, hf.ne hc]
  · rfl
  · rfl
  · split_ifs <;> rfl

theorem biUnifyLoop_recast (hf : Function.Injective f) : ∀ (ts : List (Value V × Value V))
    (h : Bindings V) (cs : List (ℕ × String)),
    (h.recast f).biUnifyLoop (ts.map fun p => (p.1.recast f, p.2.recast f)) cs
      = ((h.biUnifyLoop ts cs).1.recast f, (h.biUnifyLoop ts cs).2)
  | [], _, _ => rfl
  | (t₁, t₂) :: ts, h, cs => by
    simp only [List.map_cons, biUnifyLoop]
    rw [applyFull_recast, applyFull_recast, biUnifyValues_recast hf]
    rcases biUnifyValues (h.applyFull t₁) (h.applyFull t₂) with _ | _ | ⟨c, w⟩
    · exact congrArg (·, none) (undoAll_recast cs)
    · exact biUnifyLoop_recast hf ts h cs
    · exact biUnifyLoop_recast hf ts (h.add c.1 c.2 w) (cs ++ [c])

/-- Unification does the same with other constants. -/
theorem biUnifyLists_recast (hf : Function.Injective f) (h : Bindings V) (ts₁ : List (Term V)) (u₁ : ℕ)
    (ts₂ : List (Term V)) (u₂ : ℕ) :
    (h.recast f).biUnifyLists (ts₁.map (Term.recast f)) u₁ (ts₂.map (Term.recast f)) u₂
      = ((h.biUnifyLists ts₁ u₁ ts₂ u₂).1.recast f, (h.biUnifyLists ts₁ u₁ ts₂ u₂).2) := by
  unfold biUnifyLists
  rw [List.length_map, List.length_map]
  split_ifs with hl
  · rfl
  · have hwithin : ∀ (ts : List (Term V)) (u : ℕ), (ts.map (Term.recast f)).map (·.within u)
        = (ts.map (·.within u)).map (Value.recast f) := by
      intro ts u
      rw [List.map_map, List.map_map]
      exact List.map_congr_left fun t _ => Value.recast_within t u
    rw [← biUnifyLoop_recast hf, hwithin, hwithin, List.zip_map]
    rfl

/-! ## Substitutions -/

/-- The unifiers that a sequence of successful unifications leads to. -/
inductive Reachable : Bindings V → Prop
  | new : Reachable []
  | unify {h h' : Bindings V} {ts₁ ts₂ : List (Term V)} {u₁ u₂ : ℕ} {cs : List (ℕ × String)} :
    Reachable h → h.biUnifyLists ts₁ u₁ ts₂ u₂ = (h', some cs) → Reachable h'

/-- The value that a variable has been bound to. -/
def Binds (h : Bindings V) : Value V → Value V → Prop
  | .object _, _ => False
  | .variable x u, w => h.value u x = some w

theorem Reachable.trail (hr : Reachable h) : Trail h := by
  induction hr with
  | new => trivial
  | unify _ he ih => exact (biUnifyLists_some ih he).2.1.trail

theorem Reachable.recast (hf : Function.Injective f) (hr : Reachable h) :
    Reachable (h.recast f) := by
  induction hr with
  | new => exact .new
  | unify _ he ih => exact .unify ih (by rw [biUnifyLists_recast hf, he])

/-- Bindings are not followed forever. -/
theorem Trail.wellFounded : ∀ {h : Bindings V}, Trail h → WellFounded fun w v => h.Binds v w
  | [], _ => ⟨fun v => ⟨_, fun w hw => by rcases v with c | ⟨x, u⟩ <;> cases hw⟩⟩
  | ((u, x), w) :: h, ⟨ht, hx, hw, hne⟩ => by
    have hend : Acc (fun w' v => Binds (((u, x), w) :: h) v w') w := by
      refine ⟨_, fun w' hw' => ?_⟩
      have hfree : Free (((u, x), w) :: h) w := hw.cons hne
      rcases w with c | ⟨y, u'⟩
      · cases hw'
      · have hnone : value ((((u, x), .variable y u')) :: h) u' y = none := hfree
        exact absurd (hnone.symm.trans hw') (by simp)
    refine ⟨fun v => ?_⟩
    induction ht.wellFounded.apply v with
    | intro v _ ih =>
      refine ⟨_, fun w' hw' => ?_⟩
      rcases v with c | ⟨y, u'⟩
      · cases hw'
      · have hw' : value (((u, x), w) :: h) u' y = some w' := hw'
        rw [value_cons] at hw'
        split_ifs at hw'
        · cases hw'
          exact hend
        · exact ih w' hw'

theorem free_of_append : ∀ {l : Bindings V}, Free (l ++ h) v → h.Free v
  | [], hv => hv
  | _ :: _, hv => free_of_append hv.of_cons

theorem subst_root (hm : Models σ (h.recast Value.object)) (v : Value V) :
    (h.root v).subst σ = v.subst σ := by
  rw [← Value.eval_recast, ← root_recast, eval_root hm, Value.eval_recast]

/-- The bindings followed by a substitution. -/
def followedBy (h : Bindings V) (σ : ℕ × String → Value V) (k : ℕ × String) : Value V :=
  (h.applyFull (.variable k.2 k.1)).subst σ

theorem subst_followedBy (ht : Trail h) (v : Value V) :
    v.subst (h.followedBy σ) = (h.applyFull v).subst σ := by
  rcases v with c | ⟨x, u⟩
  · rw [applyFull_eq_root ht, root_object]
    rfl
  · rfl

theorem models_followedBy (ht : Trail h) (σ : ℕ × String → Value V) :
    Models (h.followedBy σ) (h.recast Value.object) := by
  intro e he
  obtain ⟨e, hmem, rfl⟩ := List.mem_map.1 he
  dsimp only
  rw [Value.eval_recast, subst_followedBy ht, applyFull_eq_root ht, ← root_of_mem ht hmem,
    ← applyFull_eq_root ht]
  rfl

/-- A substitution unifies two lists under the bindings. -/
def Unifies (h : Bindings V) (σ : ℕ × String → Value V) (ts₁ : List (Term V)) (u₁ : ℕ)
    (ts₂ : List (Term V)) (u₂ : ℕ) : Prop :=
  ts₁.map (fun t => (h.applyFull (t.within u₁)).subst σ)
    = ts₂.map (fun t => (h.applyFull (t.within u₂)).subst σ)

theorem map_eq_map_iff_zip {A B : Type*} {g k : A → B} : ∀ {as bs : List A}, as.length = bs.length →
    (as.map g = bs.map k ↔ ∀ p ∈ as.zip bs, g p.1 = k p.2)
  | [], [], _ => by simp
  | a :: as, b :: bs, hl => by
    have ih := map_eq_map_iff_zip (g := g) (k := k) (show as.length = bs.length by simpa using hl)
    simp [ih]

theorem unifies_pairs (hl : ts₁.length = ts₂.length) (σ : ℕ × String → Value V) :
    (∀ p ∈ ((ts₁.map (Term.recast Value.object)).map (·.within u₁)).zip
        ((ts₂.map (Term.recast Value.object)).map (·.within u₂)), p.1.eval σ = p.2.eval σ)
      ↔ ts₁.map (fun t => (t.within u₁).subst σ) = ts₂.map fun t => (t.within u₂).subst σ := by
  rw [← map_eq_map_iff_zip (g := Value.eval σ) (k := Value.eval σ) (by simpa using hl)]
  simp only [List.map_map]
  have heval : ∀ u, (Value.eval σ ∘ fun t => t.within u) ∘ Term.recast Value.object
      = fun t : Term V => (t.within u).subst σ := by
    intro u
    funext t
    rw [Function.comp_apply, Function.comp_apply, Value.recast_within, Value.eval_recast]
  rw [← Function.comp_assoc, heval, ← Function.comp_assoc, heval]

theorem object_injective : Function.Injective (Value.object : V → Value V) := fun _ _ h => by
  cases h
  rfl

/-- The substitutions that respect the new bindings. -/
theorem models_biUnifyLists (hr : Reachable h)
    (he : h.biUnifyLists ts₁ u₁ ts₂ u₂ = (h', some cs)) (σ : ℕ × String → Value V) :
    Models σ (h'.recast Value.object) ↔ Models σ (h.recast Value.object)
      ∧ ts₁.map (fun t => (t.within u₁).subst σ) = ts₂.map fun t => (t.within u₂).subst σ := by
  have hl := (biUnifyLists_some hr.trail he).1
  have he' := biUnifyLists_recast object_injective h ts₁ u₁ ts₂ u₂
  rw [he] at he'
  rw [(biUnifyLists_some (hr.recast object_injective).trail he').2.1.models, unifies_pairs hl]

theorem not_unifies (hr : Reachable h) (hl : ts₁.length = ts₂.length)
    (he : h.biUnifyLists ts₁ u₁ ts₂ u₂ = (h', none)) : ¬ h.Unifies σ ts₁ u₁ ts₂ u₂ := by
  intro hσ
  have he' := biUnifyLists_recast object_injective h ts₁ u₁ ts₂ u₂
  rw [he] at he'
  obtain ⟨p, hp, hne⟩ := (biUnifyLists_none (hr.recast object_injective).trail he').2
    (by simpa using hl) _ (models_followedBy hr.trail σ)
  refine hne ((unifies_pairs hl _).2 ?_ p hp)
  simp only [subst_followedBy hr.trail]
  exact hσ

theorem reflTransGen_applyFull (v : Value V) : Relation.ReflTransGen h.Binds v (h.applyFull v) := by
  have hfuel : ∀ n v, Relation.ReflTransGen h.Binds v (h.applyFuel n v) := by
    intro n
    induction n with
    | zero => exact fun _ => .refl
    | succ n ih =>
      rintro (c | ⟨x, u⟩)
      · exact .refl
      · rw [applyFuel]
        rcases hx : h.value u x with _ | w
        · exact .refl
        · exact .head hx (ih w)
  exact hfuel _ v

/-- From unifiers that unification has made, it succeeds exactly if the lists under the bindings can
be unified; then both sides are the same under the new bindings, of which every unifier is an
instance, following them ends, and undoing the changes gives back the unifiers. A failure leaves them
as they were. -/
theorem biUnifyLists_mostGeneral (hr : Reachable h) (hl : ts₁.length = ts₂.length) :
    ((∃ h' cs, h.biUnifyLists ts₁ u₁ ts₂ u₂ = (h', some cs)) ↔ ∃ σ, h.Unifies σ ts₁ u₁ ts₂ u₂)
      ∧ (∀ h' cs, h.biUnifyLists ts₁ u₁ ts₂ u₂ = (h', some cs) →
        ts₁.map (fun t => h'.applyFull (t.within u₁)) = ts₂.map (fun t => h'.applyFull (t.within u₂))
          ∧ ts₁.map (h'.apply u₁) = ts₂.map (h'.apply u₂)
          ∧ (∀ σ, h.Unifies σ ts₁ u₁ ts₂ u₂ →
            ∀ v, (h'.applyFull v).subst σ = (h.applyFull v).subst σ)
          ∧ (WellFounded fun w v => h'.Binds v w)
          ∧ (∀ v, Relation.ReflTransGen h'.Binds v (h'.applyFull v) ∧ h'.Free (h'.applyFull v))
          ∧ h'.undoAll cs = h)
      ∧ ∀ h', h.biUnifyLists ts₁ u₁ ts₂ u₂ = (h', none) → h' = h := by
  have ht := hr.trail
  have hroots : ∀ h' cs, h.biUnifyLists ts₁ u₁ ts₂ u₂ = (h', some cs) →
      ts₁.map (fun t => h'.applyFull (t.within u₁))
        = ts₂.map fun t => h'.applyFull (t.within u₂) := by
    intro h' cs he
    obtain ⟨-, hu, -⟩ := biUnifyLists_some ht he
    have := (map_eq_map_iff_zip (by simpa using hl)).2 hu.roots
    simpa [Function.comp_def, applyFull_eq_root hu.trail] using this
  refine ⟨⟨?_, ?_⟩, fun h' cs he => ?_, fun h' he => (biUnifyLists_none ht he).1⟩
  · rintro ⟨h', cs, he⟩
    obtain ⟨-, hu, -⟩ := biUnifyLists_some ht he
    -- the new bindings are a unifier themselves
    have hsubst : ∀ v, (h.applyFull v).subst (fun k => h'.applyFull (.variable k.2 k.1))
        = h'.applyFull v := by
      intro v
      rw [applyFull_eq_root ht, applyFull_eq_root hu.trail v,
        ← root_eq_of_suffix hu.suffix (root_of_free (root_free ht v)), ← applyFull_eq_root hu.trail]
      rcases h.root v with c | ⟨x, u⟩
      · rw [applyFull_eq_root hu.trail, root_object]
        rfl
      · rfl
    refine ⟨fun k => h'.applyFull (.variable k.2 k.1), ?_⟩
    simpa [Unifies, hsubst] using hroots h' cs he
  · rintro ⟨σ, hσ⟩
    rcases he : h.biUnifyLists ts₁ u₁ ts₂ u₂ with ⟨h', _ | cs⟩
    · exact absurd hσ (not_unifies hr hl he)
    · exact ⟨h', cs, rfl⟩
  · obtain ⟨-, hu, hundo⟩ := biUnifyLists_some ht he
    refine ⟨hroots h' cs he, ?_, fun σ hσ v => ?_, hu.trail.wellFounded,
      fun v => ⟨reflTransGen_applyFull v, ?_⟩, hundo⟩
    · have := congrArg (List.map Value.term) (hroots h' cs he)
      rwa [List.map_map, List.map_map] at this
    · have hm : Models (h.followedBy σ) (h'.recast Value.object) := by
        refine (models_biUnifyLists hr he _).2 ⟨models_followedBy ht σ, ?_⟩
        simp only [subst_followedBy ht]
        exact hσ
      have hold : h.applyFull (h'.root v) = h'.root v := by
        obtain ⟨l, rfl⟩ := hu.suffix
        rw [applyFull_eq_root ht]
        exact root_of_free (free_of_append (root_free hu.trail v))
      have := subst_root hm v
      rwa [subst_followedBy ht, subst_followedBy ht, hold, ← applyFull_eq_root hu.trail] at this
    · rw [applyFull_eq_root hu.trail]
      exact root_free hu.trail v

/-- A second unification, through the unifier of the first. -/
theorem biUnifyLists_mostGeneral_chain : ∃ (h' : Bindings ℕ) (cs : List (ℕ × String)),
    biUnifyLists [((0, "x"), .variable "x" 1)] [.variable "x", .object 1] 0
        [.variable "y", .variable "y"] 2 = (h', some cs)
      ∧ h'.applyFull (.variable "x" 0) = .object 1
      ∧ h'.undoAll cs = [((0, "x"), .variable "x" 1)] := by
  have hone : biUnifyLists ([] : Bindings ℕ) [.variable "x"] 0 [.variable "x"] 1
      = ([((0, "x"), .variable "x" 1)], some [(0, "x")]) := rfl
  have htwo : biUnifyLists ([((0, "x"), .variable "x" 1)] : Bindings ℕ) [.variable "x", .object 1] 0
      [.variable "y", .variable "y"] 2
        = ([((2, "y"), .object 1), ((1, "x"), .variable "y" 2), ((0, "x"), .variable "x" 1)],
          some [(1, "x"), (2, "y")]) := rfl
  have hl : ([.variable "x", .object 1] : List (Term ℕ)).length
      = ([.variable "y", .variable "y"] : List (Term ℕ)).length := rfl
  have h := (biUnifyLists_mostGeneral (.unify .new hone) hl).2.1 _ _ htwo
  exact ⟨_, _, rfl, by decide +kernel, h.2.2.2.2.2⟩

end Bindings

end Congress
