import Mathlib.Data.Rat.Defs
import Mathlib.Algebra.Order.Ring.Rat
import Mathlib.Data.List.Basic

/-!
# Linear programs

Expressions of `LpLang`, how they are compared and hashed, and what they mean. The hashes of texts, numbers
and tuples are parameters; a number is a rational one.
-/

namespace Congress

/-- A constant, or an `Expression` with its arguments, of which the first is its operator. -/
inductive LpExpr
  | str (s : String)
  | num (q : ℚ)
  | expr (args : List LpExpr)

namespace LpExpr

mutual

def decEq : (s t : LpExpr) → Decidable (s = t)
  | .str s, .str t => decidable_of_iff (s = t) ⟨fun h => h ▸ rfl, fun h => LpExpr.str.inj h⟩
  | .num p, .num q => decidable_of_iff (p = q) ⟨fun h => h ▸ rfl, fun h => LpExpr.num.inj h⟩
  | .expr as, .expr bs =>
    match decEqArgs as bs with
    | isTrue h => isTrue (h ▸ rfl)
    | isFalse h => isFalse fun h' => h (LpExpr.expr.inj h')
  | .str _, .num _ => isFalse nofun
  | .str _, .expr _ => isFalse nofun
  | .num _, .str _ => isFalse nofun
  | .num _, .expr _ => isFalse nofun
  | .expr _, .str _ => isFalse nofun
  | .expr _, .num _ => isFalse nofun

def decEqArgs : (as bs : List LpExpr) → Decidable (as = bs)
  | [], [] => isTrue rfl
  | [], _ :: _ => isFalse nofun
  | _ :: _, [] => isFalse nofun
  | a :: as, b :: bs =>
    match decEq a b, decEqArgs as bs with
    | isTrue h, isTrue h' => isTrue (h ▸ h' ▸ rfl)
    | isFalse h, _ => isFalse fun heq => h (List.cons.inj heq).1
    | _, isFalse h => isFalse fun heq => h (List.cons.inj heq).2

end

instance : DecidableEq LpExpr := decEq

/-! ## Constructors -/

def makeVariable (args : List LpExpr) : LpExpr := .expr (.str "VAR" :: args)

def makeOr : List LpExpr → LpExpr
  | [arg] => arg
  | args => .expr (.str "OR" :: args)

def makeAnd : List LpExpr → LpExpr
  | [arg] => arg
  | args => .expr (.str "AND" :: args)

def makeEqual (arg1 arg2 : LpExpr) : LpExpr := .expr [.str "EQ", arg1, arg2]

def makeNotEqual (arg1 arg2 : LpExpr) : LpExpr := .expr [.str "NOTEQ", arg1, arg2]

/-- `makeArith`, whose first argument is the name of an operation. -/
def makeArith (op : String) (args : List LpExpr) : LpExpr := .expr (.str "ARITH" :: .str op :: args)

/-- Expressions built from constants by the constructors. -/
inductive Built : LpExpr → Prop
  | str (s : String) : Built (.str s)
  | num (q : ℚ) : Built (.num q)
  | makeVariable {args : List LpExpr} : (∀ a ∈ args, Built a) → Built (makeVariable args)
  | makeOr {args : List LpExpr} : (∀ a ∈ args, Built a) → Built (makeOr args)
  | makeAnd {args : List LpExpr} : (∀ a ∈ args, Built a) → Built (makeAnd args)
  | makeEqual {arg1 arg2 : LpExpr} : Built arg1 → Built arg2 → Built (makeEqual arg1 arg2)
  | makeNotEqual {arg1 arg2 : LpExpr} : Built arg1 → Built arg2 → Built (makeNotEqual arg1 arg2)
  | makeArith (op : String) {args : List LpExpr} : (∀ a ∈ args, Built a) → Built (makeArith op args)

/-! ## Comparing -/

/-- The hashes of texts, numbers and tuples. -/
structure Hashes where
  str : String → ℤ
  num : ℚ → ℤ
  tuple : List ℤ → ℤ

mutual

/-- `__hash__`. -/
def hash (H : Hashes) : LpExpr → ℤ
  | .str s => H.str s
  | .num q => H.num q
  | .expr args => H.tuple (hashArgs H args)

def hashArgs (H : Hashes) : List LpExpr → List ℤ
  | [] => []
  | a :: as => hash H a :: hashArgs H as

end

mutual

def depth : LpExpr → ℕ
  | .str _ => 0
  | .num _ => 0
  | .expr args => depthArgs args + 1

def depthArgs : List LpExpr → ℕ
  | [] => 0
  | a :: as => max (depth a) (depthArgs as)

end

/-- `set.add`: an element with the same hash that is equal stays. -/
def setAdd (same : LpExpr → LpExpr → Bool) (s : List LpExpr) (x : LpExpr) : List LpExpr :=
  if s.any (same · x) then s else s ++ [x]

def toSet (same : LpExpr → LpExpr → Bool) (args : List LpExpr) : List LpExpr := args.foldl (setAdd same) []

/-- `set(as) == set(bs)`. -/
def setEq (same : LpExpr → LpExpr → Bool) (as bs : List LpExpr) : Bool :=
  (toSet same as).length = (toSet same bs).length && (toSet same as).all fun x => (toSet same bs).any (same · x)

/-- `as == bs` for tuples of one length. -/
def tupleEq (eq : LpExpr → LpExpr → Bool) : List LpExpr → List LpExpr → Bool
  | a :: as, b :: bs => eq a b && tupleEq eq as bs
  | _, _ => true

/-- The operators whose arguments are compared as sets. -/
def isCommutative : List LpExpr → Bool
  | .str op :: args =>
    op ∈ ["AND", "OR"] || op = "ARITH" && match args with
      | .str name :: _ => name.toLower ∈ ["plus", "times"]
      | _ => false
  | _ => false

/-- The operators whose two arguments are compared in either order. -/
def isEquality : List LpExpr → Bool
  | .str op :: _ => op ∈ ["EQ", "NOTEQ"]
  | _ => false

/-- `__eq__`, and `==` for constants; the fuel is spent on nesting. -/
def eqFuel (H : Hashes) : ℕ → LpExpr → LpExpr → Bool
  | _, .str s, .str t => s = t
  | _, .num p, .num q => p = q
  | fuel + 1, .expr as, .expr bs =>
    if as.length ≠ bs.length then false
    else if isCommutative as then setEq (fun x y => hash H x = hash H y && eqFuel H fuel x y) as bs
    else if isEquality as then
      match as, bs with
      | [_, a₁, a₂], [_, b₁, b₂] =>
        eqFuel H fuel a₁ b₁ && eqFuel H fuel a₂ b₂ || eqFuel H fuel a₁ b₂ && eqFuel H fuel a₂ b₁
      | _, _ => false
    else tupleEq (eqFuel H fuel) as bs
  | _, _, _ => false

def eq (H : Hashes) (s t : LpExpr) : Bool := eqFuel H (max s.depth t.depth) s t

/-! ## Meaning -/

/-- The value of an expression: a number, which is not 0 for what is true, or a text. -/
inductive Value
  | num (q : ℚ)
  | str (s : String)
  deriving DecidableEq

def Value.ofBool (b : Bool) : Value := .num (if b then 1 else 0)

def Value.holds (v : Value) : Bool := v ≠ .num 0

def Value.number : Value → ℚ
  | .num q => q
  | .str _ => 0

/-- The operations of `ARITH`; another one has the value 0. -/
def arith (name : String) (vs : List Value) : Value :=
  let qs := vs.map Value.number
  match name.toLower, qs with
  | "plus", _ => .num qs.sum
  | "times", _ => .num (qs.foldl (· * ·) 1)
  | "minus", p :: ps => .num (ps.foldl (· - ·) p)
  | "div", p :: ps => .num (ps.foldl (· / ·) p)
  | "lt", [p, q] => .ofBool (p < q)
  | "lteq", [p, q] => .ofBool (p ≤ q)
  | "gt", [p, q] => .ofBool (p > q)
  | "gteq", [p, q] => .ofBool (p ≥ q)
  | "equal", [p, q] => .ofBool (p = q)
  | _, _ => .num 0

/-- An operator applied to the values of its arguments; a variable has the value that belongs to its arguments. -/
def operate (σ : List LpExpr → ℚ) (args : List LpExpr) (vs : List Value) : Value :=
  match args, vs with
  | .str "VAR" :: args, _ => .num (σ args)
  | .str "AND" :: _, _ :: vs => .ofBool (vs.all Value.holds)
  | .str "OR" :: _, _ :: vs => .ofBool (vs.any Value.holds)
  | .str "EQ" :: _, [_, v, w] => .ofBool (v = w)
  | .str "NOTEQ" :: _, [_, v, w] => .ofBool (v ≠ w)
  | .str "ARITH" :: .str name :: _, _ :: _ :: vs => arith name vs
  | _, _ => .num 0

mutual

/-- The value of an expression where variables have these values. -/
def value (σ : List LpExpr → ℚ) : LpExpr → Value
  | .str s => .str s
  | .num q => .num q
  | .expr args => operate σ args (valueArgs σ args)

def valueArgs (σ : List LpExpr → ℚ) : List LpExpr → List Value
  | [] => []
  | a :: as => value σ a :: valueArgs σ as

end

end LpExpr

end Congress
