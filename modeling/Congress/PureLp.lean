import Congress.Lib.Stateful
import Congress.LpLang

/-!
# Conversion to linear programs

`LpLang.pure_lp`: nested operators get variables of their own, `and` and `or` become products and sums, and
a variable for a comparison becomes two constraints that no longer say which of its values it has. Of the
meta-data of a variable only the type of those that are made here matters: which of them are `bool`.
-/

namespace Congress

open Lib Stateful

namespace LpExpr

/-- How `pure_lp` fails: with an `LpConversionFailure`, or because an expression is malformed. -/
inductive Failure
  | conversion
  | malformed
  deriving DecidableEq

/-- The counter for new variables, and which of those were made with the type `bool`. -/
structure Fresh where
  counter : ℕ
  bools : List ℕ
  deriving DecidableEq

/-- Calls that make new variables. -/
abbrev Run := Stateful Failure Fresh

/-- `MIN_THRESHOLD`. -/
def minThreshold : ℚ := 1 / 100000

/-- What stands after `VAR` in a new variable. -/
def internal (i : ℕ) : List LpExpr := [.str "internal", .num i]

/-- What comes after the operator. -/
def operator : LpExpr → Except Failure (String × List LpExpr)
  | .expr (.str op :: args) => pure (op, args)
  | _ => .error .malformed

def isExpr (op : String) : LpExpr → Bool
  | .expr (.str o :: _) => o = op
  | _ => false

def isConstant : LpExpr → Bool
  | .expr _ => false
  | _ => true

def isVariable : LpExpr → Bool := isExpr "VAR"

def isEqual : LpExpr → Bool := isExpr "EQ"

def isOr : LpExpr → Bool := isExpr "OR"

def isAnd : LpExpr → Bool := isExpr "AND"

def isArith : LpExpr → Bool := isExpr "ARITH"

/-- `isBoolArith`. -/
def isBoolArith : LpExpr → Except Failure Bool
  | .expr (.str "ARITH" :: .str name :: _) => pure (name.toLower ∈ ["lteq", "lt", "gteq", "gt", "equal"])
  | .expr (.str "ARITH" :: _) => .error .malformed
  | _ => pure false

mutual

/-- `variables`, by what stands after `VAR` in each. -/
def variablesOf : LpExpr → List (List LpExpr)
  | .str _ => []
  | .num _ => []
  | .expr [] => []
  | .expr (op :: args) => if op = .str "VAR" then [args] else variablesOfArgs args

def variablesOfArgs : List LpExpr → List (List LpExpr)
  | [] => []
  | a :: as => variablesOf a ++ variablesOfArgs as

end

/-- The constructor of `operator_to_constructor`, called with arguments. -/
def construct (op : String) (args : List LpExpr) : Except Failure LpExpr :=
  match op.toLower with
  | "eq" =>
    match args with
    | [arg1, arg2] => pure (makeEqual arg1 arg2)
    | _ => .error .malformed
  | "noteq" =>
    match args with
    | [arg1, arg2] => pure (makeNotEqual arg1 arg2)
    | _ => .error .malformed
  | "var" => pure (makeVariable args)
  | "and" => pure (makeAnd args)
  | "or" => pure (makeOr args)
  | "arith" => pure (.expr (.str "ARITH" :: args))
  | _ => .error .conversion

/-- `freshVar`. -/
def freshVar (bool : Bool) : Run LpExpr := do
  let fresh ← get
  modify fun fresh => ⟨fresh.counter + 1, if bool then fresh.counter :: fresh.bools else fresh.bools⟩
  pure (makeVariable (internal fresh.counter))

/-- `create_intermediate`. -/
def createIntermediate (exp : LpExpr) : Run (LpExpr × List LpExpr) := do
  let bool ← lift (isBoolArith exp)
  let var ← freshVar (bool || isAnd exp || isOr exp)
  pure (var, [makeEqual var exp])

mutual

/-- `flatten`. -/
def flatten : LpExpr → Bool → Run (LpExpr × List LpExpr)
  | .str s, _ => pure (.str s, [])
  | .num q, _ => pure (.num q, [])
  | .expr [], _ => fail .malformed
  | .expr (op :: args), indicator =>
    if op = .str "VAR" then pure (.expr (op :: args), [])
    else
      match op with
      | .str op => do
        let (newArgs, extras) ← flattenArgs args (op.toLower ∉ ["eq", "noteq"])
        let newExp ← lift (construct op newArgs)
        if indicator then
          let (indic, extra) ← createIntermediate newExp
          pure (indic, extra ++ extras)
        else pure (newExp, extras)
      | _ => fail .malformed

def flattenArgs : List LpExpr → Bool → Run (List LpExpr × List LpExpr)
  | [], _ => pure ([], [])
  | a :: as, indicator => do
    let (newe, extra) ← flatten a indicator
    let (newArgs, extras) ← flattenArgs as indicator
    pure (newe :: newArgs, extra ++ extras)

end

/-- `remove_and_or_term`. -/
def removeAndOrTerm (exp : LpExpr) : Except Failure LpExpr := do
  let (op, args) ← exp.operator
  pure (makeArith (if op.toLower = "and" then "times" else "plus") args)

mutual

/-- `remove_and_or`. -/
def removeAndOr : LpExpr → Except Failure LpExpr
  | .str s => pure (.str s)
  | .num q => pure (.num q)
  | .expr [] => .error .malformed
  | .expr (op :: args) =>
    if op = .str "VAR" then pure (.expr (op :: args))
    else
      match op with
      | .str o =>
        if o.toLower ∈ ["and", "or"] then removeAndOrTerm (.expr (op :: args))
        else do
          let newArgs ← removeAndOrArgs args
          construct o newArgs
      | _ => .error .malformed

def removeAndOrArgs : List LpExpr → Except Failure (List LpExpr)
  | [] => pure []
  | a :: as => do
    let newArg ← removeAndOr a
    let newArgs ← removeAndOrArgs as
    pure (newArg :: newArgs)

end

/-- The expression `A` of the inequality `A < 0` of `arith_to_lt_zero`. -/
def arithToLtZero (expr : LpExpr) : Except Failure LpExpr :=
  match expr with
  | .expr (.str "ARITH" :: .str name :: lhs :: rhs :: _) =>
    match name.toLower with
    | "lt" => pure (makeArith "minus" [lhs, rhs])
    | "lteq" => pure (makeArith "minus" [makeArith "minus" [lhs, rhs], .num minThreshold])
    | "gt" => pure (makeArith "minus" [rhs, lhs])
    | "gteq" => pure (makeArith "minus" [makeArith "minus" [rhs, lhs], .num minThreshold])
    | _ => .error .conversion
  | .expr (.str "ARITH" :: _) => .error .malformed
  | _ => .error .conversion

/-- The upper bounds that are given for variables, by what stands after `VAR`. -/
abbrev Bounds := List LpExpr → Option ℚ

mutual

/-- `upper_bound`; a text, which it returns, is no number that it could be added to. -/
def upperBound (bounds : Bounds) : LpExpr → Except Failure ℚ
  | .str _ => .error .malformed
  | .num q => pure q
  | .expr (.str "VAR" :: args) =>
    match bounds args with
    | some bound => pure bound
    | none => .error .conversion
  | .expr (.str "ARITH" :: .str name :: exps) =>
    match name.toLower with
    | "times" => do
      let uppers ← upperBounds bounds exps
      pure (uppers.foldl (· * ·) 1)
    | "plus" => do
      let uppers ← upperBounds bounds exps
      pure (uppers.foldl (· + ·) 0)
    | "minus" =>
      match exps with
      | exp :: _ => upperBound bounds exp
      | [] => .error .malformed
    | _ => .error .conversion
  | .expr (.str "ARITH" :: _) => .error .malformed
  | .expr [] => .error .malformed
  | .expr _ => .error .conversion

def upperBounds (bounds : Bounds) : List LpExpr → Except Failure (List ℚ)
  | [] => pure []
  | a :: as => do
    let upper ← upperBound bounds a
    let uppers ← upperBounds bounds as
    pure (upper :: uppers)

end

/-- The two constraints for `y = x < 0`. -/
def indicatorConstraints (bounds : Bounds) (y arith : LpExpr) : Except Failure (List LpExpr) := do
  let x ← arithToLtZero arith
  let upper ← upperBound bounds x
  let upperX : LpExpr := .num (upper + 1)
  pure [makeArith "lteq" [makeArith "times" [.num (-1), x], makeArith "times" [y, upperX]],
    makeArith "lt" [x, makeArith "times" [makeArith "minus" [.num 1, y], upperX]]]

/-- `indicator_to_pure_lp`. -/
def indicatorToPureLp (bounds : Bounds) (exp : LpExpr) : Except Failure (List LpExpr) :=
  match exp with
  | .expr (.str "EQ" :: lhs :: rhs :: _) => do
    if lhs.isVariable && rhs.isArith then
      if ← rhs.isBoolArith then indicatorConstraints bounds lhs rhs else pure [exp]
    else if rhs.isVariable && lhs.isArith then
      if ← lhs.isBoolArith then indicatorConstraints bounds rhs lhs else pure [exp]
    else pure [exp]
  | .expr (.str "EQ" :: _) => .error .malformed
  | _ => pure [exp]

/-- The constraints for what `flatten` has made. -/
def convert (bounds : Bounds) : List LpExpr → Except Failure (List LpExpr)
  | [] => pure []
  | flat :: flats => do
    let noAndOr ← removeAndOr flat
    let noIndicator ← indicatorToPureLp bounds noAndOr
    let result ← convert bounds flats
    pure (noIndicator ++ result)

/-- `pure_lp`. -/
def pureLp (exp : LpExpr) (bounds : Bounds) : Run (List LpExpr) := do
  let (flat, support) ← flatten exp false
  lift (convert bounds (support ++ [flat]))

end LpExpr

end Congress
