import Congress.Lib.Stateful
import Congress.TopDown
import Congress.Unify

/-!
# Comparing formulas

`same` and `instance`, which compare two formulas up to a renaming of variables, and up to values for the
variables of the second one. Each formula has variables of its own, so each has a unifier.
-/

namespace Congress

variable {V : Type*} [DecidableEq V]

namespace Bindings

/-- The loop of `same_atoms`, with the variables that are bound in the second unifier. -/
def sameLoop (u₁ u₂ : ℕ) : Bindings V → List String → List (Term V × Term V) → List (ℕ × String) →
    (Bindings V × List String) × Option (List (ℕ × String))
  | h, bound₂, [], changes => ((h, bound₂), some changes)
  | h, bound₂, (t₁, t₂) :: ts, changes =>
    match h.applyFull (t₁.within u₁), h.applyFull (t₂.within u₂) with
    | .variable x₁ v₁, .variable x₂ v₂ =>
      if x₁ = x₂ ∧ v₁ = v₂ then sameLoop u₁ u₂ h bound₂ ts changes
      else if Value.variable x₁ v₁ ≠ t₁.within u₁ ∨ Value.variable x₂ v₂ ≠ t₂.within u₂ ∨ x₂ ∈ bound₂ then
        ((h.undoAll changes, bound₂), none)
      else
        sameLoop u₁ u₂ (h.add v₁ x₁ (.variable x₂ v₂)) (x₂ :: bound₂) ts (changes ++ [(v₁, x₁)])
    | .variable _ _, .object _ => ((h.undoAll changes, bound₂), none)
    | .object _, .variable _ _ => ((h.undoAll changes, bound₂), none)
    | .object c₁, .object c₂ =>
      if c₁ = c₂ then sameLoop u₁ u₂ h bound₂ ts changes else ((h.undoAll changes, bound₂), none)

/-- `same_atoms`. -/
def sameAtoms (h : Bindings V) (bound₂ : List String) (l₁ : Literal V) (u₁ : ℕ) (l₂ : Literal V) (u₂ : ℕ) :
    (Bindings V × List String) × Option (List (ℕ × String)) :=
  if l₁.sameSchema l₂ none then h.sameLoop u₁ u₂ bound₂ (l₁.arguments.zip l₂.arguments) []
  else ((h, bound₂), none)

/-- The loop of `same` over the literals of two rules. -/
def sameLiterals (u₁ u₂ : ℕ) : Bindings V → List String → List (Literal V × Literal V) →
    Option (Bindings V)
  | h, _, [] => some h
  | h, bound₂, (l₁, l₂) :: ls =>
    match h.sameAtoms bound₂ l₁ u₁ l₂ u₂ with
    | (_, none) => none
    | ((h, bound₂), some _) => sameLiterals u₁ u₂ h bound₂ ls

/-- The loop of `instance_atoms`. -/
def instanceLoop (u₁ u₂ : ℕ) : Bindings V → List (Term V × Term V) → List (ℕ × String) →
    Bindings V × Option (List (ℕ × String))
  | h, [], changes => (h, some changes)
  | h, (t₁, t₂) :: ts, changes =>
    match h.applyFull (t₁.within u₁), h.applyFull (t₂.within u₂) with
    | .variable x₁ v₁, .variable x₂ v₂ =>
      if x₁ = x₂ ∧ v₁ = v₂ then instanceLoop u₁ u₂ h ts changes
      else if Value.variable x₁ v₁ ≠ t₁.within u₁ ∨ Value.variable x₂ v₂ ≠ t₂.within u₂ then
        (h.undoAll changes, none)
      else instanceLoop u₁ u₂ (h.add v₂ x₂ (.variable x₁ v₁)) ts (changes ++ [(v₂, x₂)])
    | .variable _ _, .object _ => (h.undoAll changes, none)
    -- the variable can be one of the first formula
    | .object c₁, .variable x₂ v₂ =>
      instanceLoop u₁ u₂ (h.add v₂ x₂ (.object c₁)) ts (changes ++ [(v₂, x₂)])
    | .object c₁, .object c₂ =>
      if c₁ = c₂ then instanceLoop u₁ u₂ h ts changes else (h.undoAll changes, none)

/-- `instance_atoms`, where `u₁` is a unifier made by the call. -/
def instanceAtoms (h : Bindings V) (l₁ : Literal V) (u₁ : ℕ) (l₂ : Literal V) (u₂ : ℕ) :
    Bindings V × Option (List (ℕ × String)) :=
  if l₁.sameSchema l₂ none then h.instanceLoop u₁ u₂ (l₁.arguments.zip l₂.arguments) [] else (h, none)

end Bindings

open Bindings

namespace Unify

/-- `same`, which returns the contents of the two unifiers. -/
def same : Formula V → Formula V → Option (Bindings V)
  | .atom l₁, .atom l₂ =>
    if l₁.negated ≠ l₂.negated then none else sameLiterals 0 1 [] [] [(l₁, l₂)]
  | .rule r₁, .rule r₂ =>
    if r₁.body.length ≠ r₂.body.length then none
    else sameLiterals 0 1 [] [] ((r₁.head, r₂.head) :: r₁.body.zip r₂.body)
  | .atom _, .rule _ => none
  | .rule _, .atom _ => none

/-- `instance`. For the literals of a body it calls `same_atoms` without two of its arguments, which is a
`TypeError`. -/
def instanceOf : Formula V → Formula V → Outcome (Option (Bindings V))
  | .atom l₁, .atom l₂ =>
    if l₁.negated ≠ l₂.negated then .ok none
    else
      match instanceAtoms [] l₁ 1 l₂ 0 with
      | (_, none) => .ok none
      | (h, some _) => .ok (some h)
  | .rule r₁, .rule r₂ =>
    if r₁.body.length ≠ r₂.body.length then .ok none
    else
      match instanceAtoms [] r₁.head 1 r₂.head 0 with
      | (_, none) => .ok none
      | (h, some _) => if r₁.body.isEmpty then .ok (some h) else .error .typeError
  | .atom _, .rule _ => .ok none
  | .rule _, .atom _ => .ok none

end Unify

end Congress
