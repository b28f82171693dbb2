import Mathlib.Data.List.Infix
import Mathlib.Tactic.SplitIfs
import Congress.Unify

/-!
# What unification does

Every entry of the unifiers binds a variable that had no value to a value that has none itself
(`Trail`), so following a variable ends at its root (`applyFull_eq_root`). Unifying two lists adds
entries that make their roots equal, and these allow exactly the valuations under which the lists
are equal; undoing gives back the unifiers from before (`biUnifyLists_some`, `biUnifyLists_none`).
-/

namespace Congress

set_option linter.unusedSectionVars false

variable {V : Type*} [DecidableEq V]

/-- The value under a valuation of the variables. -/
def Value.eval (ρ : ℕ × String → V) : Value V → V
  | .object v => v
  | .variable x u => ρ (u, x)

/-- A value that is a variable is one of `P`. -/
def Value.Over (P : ℕ × String → Prop) : Value V → Prop
  | .object _ => True
  | .variable x u => P (u, x)

@[simp] theorem Value.eval_object (ρ : ℕ × String → V) (v : V) :
    (Value.object v).eval ρ = v := rfl

@[simp] theorem Value.eval_variable (ρ : ℕ × String → V) (x : String) (u : ℕ) :
    (Value.variable x u).eval ρ = ρ (u, x) := rfl

namespace Bindings

variable {h h' : Bindings V} {ρ ρ' : ℕ × String → V} {u : ℕ} {x : String} {v w : Value V}

/-- A valuation respects all entries. -/
def Models (ρ : ℕ × String → V) (h : Bindings V) : Prop := ∀ e ∈ h, ρ e.1 = e.2.eval ρ

/-- A value that is not a variable with a value. -/
def Free (h : Bindings V) : Value V → Prop
  | .object _ => True
  | .variable x u => h.value u x = none

/-- When an entry was added, neither its variable nor its value had a value. -/
def Trail : Bindings V → Prop
  | [] => True
  | ((u, x), w) :: h => Trail h ∧ value h u x = none ∧ Free h w ∧ w ≠ .variable x u

/-- Where following a value ends. -/
def root : Bindings V → Value V → Value V
  | [], v => v
  | ((u, x), w) :: h, v => if root h v = .variable x u then w else root h v

/-- All variables are among those of `P`. -/
def Over (P : ℕ × String → Prop) (h : Bindings V) : Prop := ∀ e ∈ h, P e.1 ∧ e.2.Over P

theorem value_cons (u' : ℕ) (x' : String) :
    value (((u, x), w) :: h) u' x' = if (u, x) = (u', x') then some w else h.value u' x' := by
  simp only [value, List.find?_cons]
  split_ifs with hk
  · simp [hk]
  · simp [hk]

theorem value_eq_none_iff : h.value u x = none ↔ ∀ e ∈ h, e.1 ≠ (u, x) := by
  simp [value, List.find?_eq_none]

theorem free_variable : h.Free (.variable x u) ↔ h.value u x = none := Iff.rfl

theorem Free.of_cons {e : (ℕ × String) × Value V} (hv : Free (e :: h) v) : h.Free v := by
  cases v with
  | object => exact trivial
  | «variable» y u' =>
    have hv : value (e :: h) u' y = none := hv
    rw [value_eq_none_iff] at hv
    exact value_eq_none_iff.2 fun e' he' => hv e' (List.mem_cons_of_mem _ he')

theorem Free.cons (hv : h.Free v) (hne : v ≠ .variable x u) : Free (((u, x), w) :: h) v := by
  cases v with
  | object => trivial
  | «variable» y u' =>
    have hk : (u, x) ≠ (u', y) := fun hk => hne (by cases hk; rfl)
    rw [free_variable] at hv ⊢
    rw [value_cons, if_neg hk, hv]

theorem applyFuel_object (c : V) : ∀ n, h.applyFuel n (.object c) = .object c
  | 0 => rfl
  | _ + 1 => rfl

theorem applyFuel_of_free (hv : h.Free v) : ∀ n, h.applyFuel n v = v
  | 0 => rfl
  | n + 1 => by
    cases v with
    | object => rfl
    | «variable» y u' =>
      have hv : h.value u' y = none := hv
      simp only [applyFuel, hv]

/-- One more entry is one more step for the values that end at its variable. -/
theorem applyFuel_cons (hx : h.value u x = none) (hw : h.Free w) (hne : w ≠ .variable x u) (n : ℕ)
    (hfree : h.Free (h.applyFuel n v)) : applyFuel (((u, x), w) :: h) (n + 1) v
      = if h.applyFuel n v = .variable x u then w else h.applyFuel n v := by
  have hw' : Free (((u, x), w) :: h) w := hw.cons hne
  induction n generalizing v with
  | zero =>
    cases v with
    | object => simp [applyFuel]
    | «variable» y u' =>
      have hfree : h.value u' y = none := hfree
      simp only [applyFuel, value_cons, hfree, Value.variable.injEq, Prod.mk.injEq, and_comm,
        @eq_comm _ u', @eq_comm _ y]
      by_cases hk : u = u' ∧ x = y
      · rw [if_pos hk, if_pos hk]
      · rw [if_neg hk, if_neg hk]
  | succ n ih =>
    cases v with
    | object => simp [applyFuel]
    | «variable» y u' =>
      rw [applyFuel, value_cons]
      by_cases hk : (u, x) = (u', y)
      · cases hk
        rw [applyFuel_of_free (free_variable.2 hx), if_pos rfl, if_pos rfl]
        exact applyFuel_of_free hw' _
      · cases hv : h.value u' y with
        | none =>
          rw [applyFuel_of_free (free_variable.2 hv), if_neg hk, if_neg]
          rintro ⟨⟩
          exact hk rfl
        | some v' =>
          simp only [applyFuel, hv, if_neg hk] at hfree ⊢
          exact ih hfree

theorem root_free (ht : Trail h) (v : Value V) : h.Free (h.root v) := by
  induction h with
  | nil => cases v <;> trivial
  | cons e h ih =>
    obtain ⟨⟨u, x⟩, w⟩ := e
    obtain ⟨ht, hx, hw, hne⟩ := ht
    rw [root]
    split_ifs with hr
    · exact hw.cons hne
    · exact (ih ht).cons hr

/-- Following a value takes at most one step for each entry. -/
theorem applyFuel_eq_root (ht : Trail h) (v : Value V) : ∀ n, h.length ≤ n →
    h.applyFuel n v = h.root v := by
  induction h with
  | nil => exact fun n _ => applyFuel_of_free (by cases v <;> trivial) n
  | cons e h ih =>
    obtain ⟨⟨u, x⟩, w⟩ := e
    obtain ⟨ht, hx, hw, hne⟩ := ht
    intro n hn
    obtain ⟨n, rfl⟩ : ∃ m, n = m + 1 := Nat.exists_eq_succ_of_ne_zero (by rintro rfl; simp at hn)
    have hv := ih ht n (by simpa using hn)
    rw [applyFuel_cons hx hw hne n (hv ▸ root_free ht v), hv, root]

theorem applyFull_eq_root (ht : Trail h) (v : Value V) : h.applyFull v = h.root v :=
  applyFuel_eq_root ht v _ (Nat.le_succ _)

theorem root_of_free (hv : h.Free v) : h.root v = v := by
  induction h with
  | nil => rfl
  | cons e h ih =>
    obtain ⟨⟨u, x⟩, w⟩ := e
    rw [root, ih hv.of_cons, if_neg]
    rintro rfl
    exact value_eq_none_iff.1 hv _ (List.mem_cons_self ..) rfl

/-- Values with the same root keep the same root. -/
theorem root_eq_of_suffix (hs : h <:+ h') (he : h.root v = h.root w) : h'.root v = h'.root w := by
  obtain ⟨l, rfl⟩ := hs
  induction l with
  | nil => exact he
  | cons e l ih => simp only [List.cons_append, root, ih]

theorem root_object (c : V) : h.root (.object c) = .object c := root_of_free trivial

/-- Both ends of an entry have the same root. -/
theorem root_of_mem (ht : Trail h) {e : (ℕ × String) × Value V} (he : e ∈ h) :
    h.root (.variable e.1.2 e.1.1) = h.root e.2 := by
  induction h with
  | nil => cases he
  | cons e' h ih =>
    obtain ⟨⟨u, x⟩, w⟩ := e'
    obtain ⟨ht, hx, hw, hne⟩ := ht
    rcases List.mem_cons.1 he with rfl | he
    · simp only [root, root_of_free (free_variable.2 hx), root_of_free hw, if_true, if_neg hne]
    · simp only [root, ih ht he]

theorem eval_root (hm : Models ρ h) (v : Value V) : (h.root v).eval ρ = v.eval ρ := by
  induction h with
  | nil => rfl
  | cons e h ih =>
    obtain ⟨⟨u, x⟩, w⟩ := e
    have ih := ih (fun e he => hm e (List.mem_cons_of_mem _ he))
    rw [root]
    split_ifs with hr
    · rw [← ih, hr]
      exact (hm _ (List.mem_cons_self ..)).symm
    · exact ih

/-- A valuation of the variables without a value extends to one that respects all entries. -/
theorem models_of_trail (ht : Trail h) (ρ : ℕ × String → V) :
    Models (fun k => (h.root (.variable k.2 k.1)).eval ρ) h := by
  intro e he
  simp only [root_of_mem ht he]
  cases e.2 with
  | object c => simp [root_object]
  | «variable» y u' => rfl

theorem Over.mono {P Q : ℕ × String → Prop} (hPQ : ∀ k, P k → Q k) (hb : Over P h) : Over Q h := by
  refine fun e he => ⟨hPQ _ (hb e he).1, ?_⟩
  have := (hb e he).2
  cases hw : e.2 with
  | object => trivial
  | «variable» y u' =>
    rw [hw] at this
    exact hPQ _ this

/-- Only the variables of the entries matter. -/
theorem Models.congr {P : ℕ × String → Prop} (hb : Over P h) (he : ∀ k, P k → ρ k = ρ' k)
    (hm : Models ρ h) : Models ρ' h := by
  intro e hmem
  have hw := (hb e hmem).2
  have := hm e hmem
  rw [← he _ (hb e hmem).1, this]
  cases hv : e.2 with
  | object => rfl
  | «variable» y u' => exact he _ (by rw [hv] at hw; exact hw)

theorem root_over {P : ℕ × String → Prop} (hb : Over P h) (hv : v.Over P) : (h.root v).Over P := by
  induction h with
  | nil => exact hv
  | cons e h ih =>
    obtain ⟨⟨u, x⟩, w⟩ := e
    rw [root]
    split_ifs
    · exact (hb _ (List.mem_cons_self ..)).2
    · exact ih fun e he => hb e (List.mem_cons_of_mem _ he)

theorem undoAll_eq_filter (h : Bindings V) (cs : List (ℕ × String)) :
    h.undoAll cs = h.filter (·.1 ∉ cs) := by
  induction cs generalizing h with
  | nil => simp [undoAll]
  | cons c cs ih =>
    rw [undoAll, List.foldl_cons, ← undoAll, ih, delete, List.filter_filter]
    refine List.filter_congr fun e _ => ?_
    simp [Bool.and_comm]

theorem Trail.of_append : ∀ {l : Bindings V}, Trail (l ++ h) → Trail h
  | [], ht => ht
  | _ :: _, ht => Trail.of_append ht.1

/-- The variables of later entries are not those of earlier ones. -/
theorem Trail.ne_of_append : ∀ {l : Bindings V}, Trail (l ++ h) → ∀ e ∈ l, ∀ e' ∈ h, e'.1 ≠ e.1
  | ((_, _), _) :: _, ht, _, he, e', he' => by
    rcases List.mem_cons.1 he with rfl | he
    · exact value_eq_none_iff.1 ht.2.1 e' (List.mem_append_right _ he')
    · exact Trail.ne_of_append ht.1 _ he e' he'

/-- Undoing takes the added entries away. -/
theorem undoAll_append {l : Bindings V} (ht : Trail (l ++ h)) :
    undoAll (l ++ h) (l.map Prod.fst).reverse = h := by
  rw [undoAll_eq_filter, List.filter_append, List.filter_eq_nil_iff.2, List.nil_append,
    List.filter_eq_self.2]
  · intro e' he'
    simp only [List.mem_reverse, List.mem_map, decide_not, Bool.not_eq_eq_eq_not, Bool.not_true,
      decide_eq_false_iff_not]
    rintro ⟨e, he, hk⟩
    exact ht.ne_of_append e he e' he' hk.symm
  · intro e he
    simpa using ⟨e.2, he⟩

/-- What unifying pairs of values makes of the unifiers. -/
structure Unified (h h' : Bindings V) (pairs : List (Value V × Value V)) : Prop where
  trail : Trail h'
  suffix : h <:+ h'
  roots : ∀ p ∈ pairs, h'.root p.1 = h'.root p.2
  models : ∀ ρ, Models ρ h' ↔ Models ρ h ∧ ∀ p ∈ pairs, p.1.eval ρ = p.2.eval ρ
  bounded : ∀ P, Over P h → (∀ p ∈ pairs, p.1.Over P ∧ p.2.Over P) → Over P h'

theorem Unified.refl (ht : Trail h) : Unified h h [] :=
  ⟨ht, List.suffix_rfl, by simp, by simp, fun _ hb _ => hb⟩

variable {ts : List (Value V × Value V)} {t₁ t₂ : Value V}

theorem Unified.cons (h₁ : Unified h h' [(t₁, t₂)]) {h'' : Bindings V} (h₂ : Unified h' h'' ts) :
    Unified h h'' ((t₁, t₂) :: ts) where
  trail := h₂.trail
  suffix := h₁.suffix.trans h₂.suffix
  roots p hp := by
    rcases List.mem_cons.1 hp with rfl | hp
    · exact root_eq_of_suffix h₂.suffix (h₁.roots _ (List.mem_singleton_self _))
    · exact h₂.roots p hp
  models ρ := by
    rw [h₂.models, h₁.models, List.forall_mem_singleton, List.forall_mem_cons, and_assoc]
  bounded P hb hp := by
    rw [List.forall_mem_cons] at hp
    exact h₂.bounded P (h₁.bounded P hb (by simpa using hp.1)) hp.2

/-- One entry that binds the root of one side to the root of the other. -/
theorem Unified.add (ht : Trail h) (h₁ : h.root t₁ = .variable x u) (hne : h.root t₂ ≠ h.root t₁) :
    Unified h (h.add u x (h.root t₂)) [(t₁, t₂)] where
  trail := ⟨ht, free_variable.1 (h₁ ▸ root_free ht t₁), root_free ht t₂, h₁ ▸ hne⟩
  suffix := List.suffix_cons _ _
  roots := by
    rw [List.forall_mem_singleton]
    rw [h₁] at hne
    show root (((u, x), _) :: h) t₁ = root (((u, x), _) :: h) t₂
    simp only [root, h₁, if_true, if_neg hne]
  models ρ := by
    rw [List.forall_mem_singleton]
    constructor
    · intro hm
      have hh : Models ρ h := fun e he => hm e (List.mem_cons_of_mem _ he)
      have := hm _ (List.mem_cons_self ..)
      rw [eval_root hh] at this
      rw [← eval_root hh t₁, h₁]
      exact ⟨hh, this⟩
    · rintro ⟨hh, he⟩ e hmem
      rcases List.mem_cons.1 hmem with rfl | hmem
      · rw [← eval_root hh t₁, h₁] at he
        rw [eval_root hh]
        exact he
      · exact hh e hmem
  bounded P hb hp := by
    rw [List.forall_mem_singleton] at hp
    intro e he
    rcases List.mem_cons.1 he with rfl | he
    · have := root_over hb hp.1
      rw [h₁] at this
      exact ⟨this, root_over hb hp.2⟩
    · exact hb e he

theorem Unified.symm_singleton (hu : Unified h h' [(t₁, t₂)]) : Unified h h' [(t₂, t₁)] where
  trail := hu.trail
  suffix := hu.suffix
  roots := by
    have := hu.roots
    rw [List.forall_mem_singleton] at this ⊢
    exact this.symm
  models ρ := by
    rw [hu.models, List.forall_mem_singleton, List.forall_mem_singleton, eq_comm]
  bounded P hb hp := hu.bounded P hb (by simpa [and_comm] using hp)

/-- Values with the same root are equal already. -/
theorem Unified.of_root_eq (ht : Trail h) (he : h.root t₁ = h.root t₂) : Unified h h [(t₁, t₂)] where
  trail := ht
  suffix := List.suffix_rfl
  roots := by rwa [List.forall_mem_singleton]
  models ρ := by
    rw [List.forall_mem_singleton]
    refine ⟨fun hm => ⟨hm, ?_⟩, And.left⟩
    rw [← eval_root hm t₁, he, eval_root hm]
  bounded _ hb _ := hb

/-- The loop from unifiers to which `l` has been added already. -/
theorem biUnifyLoop_spec : ∀ (ts : List (Value V × Value V)) {h l h₀ : Bindings V}, Trail h →
    h = l ++ h₀ → (∀ h' cs, h.biUnifyLoop ts (l.map Prod.fst).reverse = (h', some cs) →
        Unified h h' ts ∧ h'.undoAll cs = h₀)
      ∧ ∀ h', h.biUnifyLoop ts (l.map Prod.fst).reverse = (h', none) →
        h' = h₀ ∧ ∀ ρ, Models ρ h → ∃ p ∈ ts, p.1.eval ρ ≠ p.2.eval ρ
  | [], h, l, h₀, ht, hl => by
    refine ⟨fun h' cs he => ?_, fun h' he => ?_⟩
    · obtain ⟨rfl, rfl⟩ : h = h' ∧ _ = cs := by simpa [biUnifyLoop] using he
      exact ⟨.refl ht, by subst hl; exact undoAll_append ht⟩
    · simp [biUnifyLoop] at he
  | (t₁, t₂) :: ts, h, l, h₀, ht, hl => by
    have grow : ∀ (u : ℕ) (x : String) (w : Value V), Unified h (h.add u x w) [(t₁, t₂)] →
        (∀ h' cs, (h.add u x w).biUnifyLoop ts ((l.map Prod.fst).reverse ++ [(u, x)])
            = (h', some cs) → Unified h h' ((t₁, t₂) :: ts) ∧ h'.undoAll cs = h₀)
          ∧ ∀ h', (h.add u x w).biUnifyLoop ts ((l.map Prod.fst).reverse ++ [(u, x)]) = (h', none) →
            h' = h₀ ∧ ∀ ρ, Models ρ h → ∃ p ∈ (t₁, t₂) :: ts, p.1.eval ρ ≠ p.2.eval ρ := by
      intro u x w hu
      have ih := biUnifyLoop_spec ts (l := ((u, x), w) :: l) hu.trail (by rw [hl]; rfl)
      rw [List.map_cons, List.reverse_cons] at ih
      refine ⟨fun h' cs he => ?_, fun h' he => ?_⟩
      · exact ⟨hu.cons (ih.1 h' cs he).1, (ih.1 h' cs he).2⟩
      · refine ⟨(ih.2 h' he).1, fun ρ hm => ?_⟩
        by_cases he₁ : t₁.eval ρ = t₂.eval ρ
        · obtain ⟨p, hp, hne⟩ := (ih.2 h' he).2 ρ ((hu.models ρ).2 ⟨hm, by simpa using he₁⟩)
          exact ⟨p, List.mem_cons_of_mem _ hp, hne⟩
        · exact ⟨_, List.mem_cons_self .., he₁⟩
    have skip : h.root t₁ = h.root t₂ →
        (∀ h' cs, h.biUnifyLoop ts (l.map Prod.fst).reverse = (h', some cs) →
            Unified h h' ((t₁, t₂) :: ts) ∧ h'.undoAll cs = h₀)
          ∧ ∀ h', h.biUnifyLoop ts (l.map Prod.fst).reverse = (h', none) →
            h' = h₀ ∧ ∀ ρ, Models ρ h → ∃ p ∈ (t₁, t₂) :: ts, p.1.eval ρ ≠ p.2.eval ρ := by
      intro hr
      have ih := biUnifyLoop_spec ts ht hl
      refine ⟨fun h' cs he => ⟨(Unified.of_root_eq ht hr).cons (ih.1 h' cs he).1, (ih.1 h' cs he).2⟩,
        fun h' he => ⟨(ih.2 h' he).1, fun ρ hm => ?_⟩⟩
      obtain ⟨p, hp, hne⟩ := (ih.2 h' he).2 ρ hm
      exact ⟨p, List.mem_cons_of_mem _ hp, hne⟩
    rw [biUnifyLoop, applyFull_eq_root ht, applyFull_eq_root ht]
    cases h₁ : h.root t₁ with
    | «variable» x₁ u₁ =>
      cases h₂ : h.root t₂ with
      | «variable» x₂ u₂ =>
        simp only [biUnifyValues]
        by_cases hx : x₁ = x₂ ∧ u₁ = u₂
        · rw [if_pos hx]
          obtain ⟨rfl, rfl⟩ := hx
          exact skip (h₁.trans h₂.symm)
        · rw [if_neg hx]
          refine grow u₁ x₁ _ (h₂ ▸ Unified.add ht h₁ ?_)
          rw [h₁, h₂]
          rintro ⟨⟩
          exact hx ⟨rfl, rfl⟩
      | object c₂ => exact grow u₁ x₁ _ (h₂ ▸ Unified.add ht h₁ (by simp [h₁, h₂]))
    | object c₁ =>
      cases h₂ : h.root t₂ with
      | «variable» x₂ u₂ =>
        exact grow u₂ x₂ _ (h₁ ▸ (Unified.add ht h₂ (by simp [h₁, h₂])).symm_singleton)
      | object c₂ =>
        simp only [biUnifyValues]
        by_cases hc : c₁ = c₂
        · rw [if_pos hc]
          exact skip (by rw [h₁, h₂, hc])
        · rw [if_neg hc]
          refine ⟨fun h' cs he => by simp at he, fun h' he => ?_⟩
          obtain rfl : h.undoAll _ = h' := by simpa using he
          refine ⟨by subst hl; exact undoAll_append ht, fun ρ hm => ⟨_, List.mem_cons_self .., ?_⟩⟩
          rw [← eval_root hm t₁, ← eval_root hm t₂, h₁, h₂]
          exact hc

variable {ts₁ ts₂ : List (Term V)} {u₁ u₂ : ℕ} {cs : List (ℕ × String)}

theorem biUnifyLists_some (ht : Trail h) (he : h.biUnifyLists ts₁ u₁ ts₂ u₂ = (h', some cs)) :
    ts₁.length = ts₂.length
      ∧ Unified h h' ((ts₁.map (·.within u₁)).zip (ts₂.map (·.within u₂))) ∧ h'.undoAll cs = h := by
  rw [biUnifyLists] at he
  split_ifs at he with hl
  · simp at he
  · exact ⟨not_not.1 hl, (biUnifyLoop_spec _ ht (l := []) rfl).1 h' cs he⟩

theorem biUnifyLists_none (ht : Trail h) (he : h.biUnifyLists ts₁ u₁ ts₂ u₂ = (h', none)) :
    h' = h ∧ (ts₁.length = ts₂.length → ∀ ρ, Models ρ h →
      ∃ p ∈ (ts₁.map (·.within u₁)).zip (ts₂.map (·.within u₂)), p.1.eval ρ ≠ p.2.eval ρ) := by
  rw [biUnifyLists] at he
  split_ifs at he with hl
  · exact ⟨by simpa using he.symm, fun h => absurd h hl⟩
  · have := (biUnifyLoop_spec _ ht (l := []) rfl).2 h' he
    exact ⟨this.1, fun _ => this.2⟩

end Bindings

end Congress
