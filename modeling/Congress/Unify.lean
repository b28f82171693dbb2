import Mathlib.Data.List.Basic
import Congress.Syntax

/-!
# Unification

A `BiUnifier` is an object that maps variables to values, so a variable is identified by its name
and its unifier, and a value that is a variable keeps the unifier it belongs to. The unifiers'
contents are one list, the latest entry first; unifying adds entries, and undoing deletes them.
-/

namespace Congress

/-- A term together with the unifier its variables belong to. -/
inductive Value (V : Type*)
  | object (value : V)
  | variable (name : String) (unifier : ℕ)
  deriving DecidableEq

/-- The contents of all unifiers. -/
abbrev Bindings (V : Type*) := List ((ℕ × String) × Value V)

variable {V : Type*} [DecidableEq V]

/-- A term in the context of a unifier. -/
def Term.within (u : ℕ) : Term V → Value V
  | .variable x => .variable x u
  | .object v => .object v

/-- The term of a value. -/
def Value.term : Value V → Term V
  | .object v => .object v
  | .variable x _ => .variable x

namespace Bindings

/-- `value`. -/
def value (h : Bindings V) (u : ℕ) (x : String) : Option (Value V) :=
  (h.find? (·.1 = (u, x))).map Prod.snd

def add (h : Bindings V) (u : ℕ) (x : String) (value : Value V) : Bindings V := ((u, x), value) :: h

def delete (h : Bindings V) (u : ℕ) (x : String) : Bindings V := h.filter (·.1 ≠ (u, x))

/-- `apply_full` follows a variable through the unifiers, at most once for each entry. -/
def applyFuel (h : Bindings V) : ℕ → Value V → Value V
  | 0, v => v
  | _ + 1, .object v => .object v
  | fuel + 1, .variable x u =>
    match h.value u x with
    | none => .variable x u
    | some v => h.applyFuel fuel v

def applyFull (h : Bindings V) (v : Value V) : Value V := h.applyFuel (h.length + 1) v

/-- `apply`. -/
def apply (h : Bindings V) (u : ℕ) (t : Term V) : Term V := (h.applyFull (t.within u)).term

/-- `undo_all`. -/
def undoAll (h : Bindings V) (changes : List (ℕ × String)) : Bindings V :=
  changes.foldl (fun h c => h.delete c.1 c.2) h

/-- The body of the loop of `bi_unify_lists`: what is added, unless the values clash. -/
def biUnifyValues (v₁ v₂ : Value V) : Option (Option ((ℕ × String) × Value V)) :=
  match v₁, v₂ with
  | .variable x₁ u₁, .variable x₂ u₂ =>
    if x₁ = x₂ ∧ u₁ = u₂ then some none else some (some ((u₁, x₁), .variable x₂ u₂))
  | .variable x₁ u₁, .object c₂ => some (some ((u₁, x₁), .object c₂))
  | .object c₁, .variable x₂ u₂ => some (some ((u₂, x₂), .object c₁))
  | .object c₁, .object c₂ => if c₁ = c₂ then some none else none

/-- The loop of `bi_unify_lists`; if values clash, the changes are undone. -/
def biUnifyLoop : Bindings V → List (Value V × Value V) → List (ℕ × String) →
    Bindings V × Option (List (ℕ × String))
  | h, [], changes => (h, some changes)
  | h, (t₁, t₂) :: ts, changes =>
    match biUnifyValues (h.applyFull t₁) (h.applyFull t₂) with
    | none => (h.undoAll changes, none)
    | some none => biUnifyLoop h ts changes
    | some (some (c, v)) => biUnifyLoop (h.add c.1 c.2 v) ts (changes ++ [c])

/-- `bi_unify_lists`. -/
def biUnifyLists (h : Bindings V) (ts₁ : List (Term V)) (u₁ : ℕ) (ts₂ : List (Term V)) (u₂ : ℕ) :
    Bindings V × Option (List (ℕ × String)) :=
  if ts₁.length ≠ ts₂.length then (h, none)
  else h.biUnifyLoop ((ts₁.map (·.within u₁)).zip (ts₂.map (·.within u₂))) []

end Bindings

/-- Equality of table names, with a default for the service. -/
def Tablename.same (t t' : Tablename) (defaultService : Option String) : Bool :=
  t.table = t'.table && t.modal = t'.modal
    && t.service.or defaultService = t'.service.or defaultService

/-- `same_schema`. -/
def Literal.sameSchema (l l' : Literal V) (theoryname : Option String) : Bool :=
  l.table.same l'.table theoryname && l.arguments.length = l'.arguments.length

namespace Bindings

/-- `bi_unify_atoms`. -/
def biUnifyAtoms (h : Bindings V) (l₁ : Literal V) (u₁ : ℕ) (l₂ : Literal V) (u₂ : ℕ)
    (theoryname : Option String) : Bindings V × Option (List (ℕ × String)) :=
  if l₁.sameSchema l₂ theoryname then h.biUnifyLists l₁.arguments u₁ l₂.arguments u₂ else (h, none)

/-- The loop of `DBTuple.match`. -/
def matchLoop : Bindings V → List (Value V × V) → List (ℕ × String) →
    Bindings V × Option (List (ℕ × String))
  | h, [], changes => (h, some changes)
  | h, (t, c) :: ts, changes =>
    match h.applyFull t with
    | .variable x u => matchLoop (h.add u x (.object c)) ts (changes ++ [(u, x)])
    | .object c' => if c' = c then matchLoop h ts changes else (h.undoAll changes, none)

/-- `DBTuple.match`: an atom against the values of a tuple. -/
def matchTuple (h : Bindings V) (tuple : List V) (l : Literal V) (u : ℕ) :
    Bindings V × Option (List (ℕ × String)) :=
  if tuple.length ≠ l.arguments.length then (h, none)
  else h.matchLoop ((l.arguments.map (·.within u)).zip tuple) []

end Bindings

namespace Literal

/-- `plug` with a unifier. -/
def plug (l : Literal V) (h : Bindings V) (u : ℕ) : Literal V :=
  { l with arguments := l.arguments.map (h.apply u) }

/-- `plug` with a dictionary. -/
def plugDict (l : Literal V) (binding : List (String × Term V)) : Literal V :=
  { l with arguments := l.arguments.map fun
      | .variable x => (binding.lookup x).getD (.variable x)
      | .object v => .object v }

def complement (l : Literal V) : Literal V := { l with negated := !l.negated }

end Literal

end Congress
