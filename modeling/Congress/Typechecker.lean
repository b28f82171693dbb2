import Congress.Lib.Rounds
import Congress.Syntax

/-!
# Types of Z3 policies

The typechecker of policies for Z3. The types of columns, and those of the variables of rules, are in cells:
dictionaries that are changed in place. Rules are gone through until no cell has changed.
-/

namespace Congress

open Lib Stateful

/-! ## Data types -/

/-- How the typechecker fails. Of its own errors there is what their texts say. -/
inductive TypingRaised (V : Type)
  | keyError (key : String)
  | typeError
  | hierarchyError
  | unknownBuiltin (tablename : String)
  | builtinInHead
  | mismatch (name : String) (atom : Literal V) (rule typ1 typ2 : String)
  deriving DecidableEq

/-- The classes of data types and those which have a registered name. A class has some data types among its
bases, and there are no infinite chains of bases. -/
structure TypesRegistry (T : Type) where
  bases : T → List T
  depth : T → ℕ
  depth_lt : ∀ c, ∀ p ∈ bases c, depth p < depth c
  class? : String → Option T
  name_unique : ∀ name name' c, class? name = some c → class? name' = some c → name = name'

variable {T V : Type} [DecidableEq T] [DecidableEq V]

namespace TypesRegistry

variable (reg : TypesRegistry T)

/-- `type_class`. -/
def typeClass (name : String) : Except (TypingRaised V) T :=
  match reg.class? name with
  | some c => .ok c
  | none => .error (.keyError name)

/-- `least_ancestor` of a class. -/
def leastAncestor (targetTypes : List T) (cls : T) : Except (TypingRaised V) (Option T) :=
  if cls ∈ targetTypes then .ok (some cls)
  else
    match hbases : reg.bases cls with
    | [] => .ok none
    | [parent] =>
      have : reg.depth parent < reg.depth cls := reg.depth_lt cls parent (hbases ▸ List.mem_cons_self)
      leastAncestor targetTypes parent
    | _ => .error .hierarchyError
termination_by reg.depth cls

end TypesRegistry

/-- `min_type`. -/
def minType (reg : TypesRegistry T) (name1 name2 : String) (strict : Bool) :
    Except (TypingRaised V) (Option String) := do
  let typ1 ← reg.typeClass name1
  let typ2 ← reg.typeClass name2
  if (← reg.leastAncestor [typ1] typ2).isSome then pure (some name2)
  else if strict then pure none
  else if (← reg.leastAncestor [typ2] typ1).isSome then pure (some name1)
  else pure none

/-! ## Cells -/

/-- A dictionary with the keys `type` and `nullable`, as far as it has them; a type can be `None`. -/
@[ext] structure Cell where
  type : Option (Option String)
  nullable : Option Bool
  deriving DecidableEq

namespace Cell

/-- The type of what nothing is known about. -/
def bottom : Cell := ⟨some none, some false⟩

/-- What stands for a column that is a text. -/
def fake : Cell := ⟨some (some "Scalar"), some true⟩

def getType (cell : Cell) : Except (TypingRaised V) (Option String) :=
  match cell.type with
  | some typ => .ok typ
  | none => .error (.keyError "type")

def getNullable (cell : Cell) : Except (TypingRaised V) Bool :=
  match cell.nullable with
  | some nullable => .ok nullable
  | none => .error (.keyError "nullable")

/-- `cell.get('nullable', True)`. -/
def canBeNull (cell : Cell) : Bool := cell.nullable.getD true

end Cell

/-- Where a cell is: in a column of a table, with a variable of a rule, or with a type variable of a builtin
in the body of a rule. -/
inductive CellPlace
  | column (theory table : String) (pos : ℕ)
  | variable (rule name : String)
  | typeVar (rule : String) (pos arg : ℕ)
  deriving DecidableEq

/-- A column of a schema is a text or a dictionary. -/
inductive Column
  | name
  | dict (cell : Cell)
  deriving DecidableEq

/-- What an argument of an atom is typed with: a text, or a cell. -/
inductive Target
  | text
  | cell (place : CellPlace)
  deriving DecidableEq

/-! ## Policies -/

/-- The schemas of all policies, by their names and tables. -/
abbrev World := String → Option (String → Option (List Column))

structure Z3Rule (V : Type) where
  id : String
  head : Literal V
  body : List (Literal V)
  deriving DecidableEq

/-- A policy whose types are checked: its facts by their tables, and its rules. -/
structure Z3Policy (V : Type) where
  name : String
  facts : List (String × List (List V))
  rules : List (Z3Rule V)
  deriving DecidableEq

def Z3Rule.variableNames (r : Z3Rule V) : List String := (r.head :: r.body).flatMap Literal.variableNames

/-- `BuiltinPred` without the code for Z3. The types of all arguments are type variables. -/
structure BuiltinPred where
  tyVars : ℕ
  args : List ℕ
  deriving DecidableEq

/-- `BUILTINS`. -/
def builtins : List (String × BuiltinPred) :=
  [("and", ⟨1, [0, 0, 0]⟩), ("or", ⟨1, [0, 0, 0]⟩), ("bnot", ⟨1, [0, 0]⟩), ("plus", ⟨1, [0, 0, 0]⟩),
    ("minus", ⟨1, [0, 0, 0]⟩), ("mul", ⟨1, [0, 0, 0]⟩), ("lt", ⟨1, [0, 0]⟩), ("lteq", ⟨1, [0, 0]⟩),
    ("equal", ⟨1, [0, 0]⟩), ("gteq", ⟨1, [0, 0]⟩), ("gt", ⟨1, [0, 0]⟩)]

/-- What a value is for `type_constant`. -/
inductive ValueClass
  | none
  | string
  | bool
  | int
  | float
  | other
  deriving DecidableEq

def ValueClass.type : ValueClass → Option String
  | .none => Option.none
  | .string => some "Str"
  | .bool => some "Bool"
  | .int => some "Int"
  | .float => some "Float"
  | .other => some "Scalar"

/-! ## The typechecker -/

/-- What a `Typechecker` changes. -/
structure Typer where
  cells : CellPlace → Cell
  work : Bool
  once : Bool

namespace Typer

abbrev Run (V : Type) := Stateful (TypingRaised V) Typer

def setType (place : CellPlace) (typ : String) (s : Typer) : Typer :=
  { s with
    cells := Function.update s.cells place { s.cells place with type := some (some typ) }, work := true }

/-- `constrain_type`. -/
def constrainType (place : CellPlace) (typ : String) : Run V Unit := do
  let s ← get
  let oldTyp ← lift (s.cells place).getType
  match oldTyp with
  | none => modify (setType place typ)
  | some oldTyp => if typ ≠ oldTyp then modify (setType place "Scalar")

/-- `set_nullable`. -/
def setNullable (place : CellPlace) : Run V Unit := do
  let s ← get
  let nullable ← lift (s.cells place).getNullable
  if !nullable then
    modify fun s => { s with
      cells := Function.update s.cells place { s.cells place with nullable := some true }, work := true }

/-- `type_constant`; a text has no items. -/
def typeConstant (classOf : V → ValueClass) (value : V) : Target → Run V Unit
  | .text => fail .typeError
  | .cell place =>
    match (classOf value).type with
    | none => setNullable place
    | some typ => constrainType place typ

/-- The two cells of `type_cells`, and whether there is work. -/
structure Both where
  cell1 : Cell
  cell2 : Cell
  work : Bool

def shareNullable (strict : Bool) (b : Both) : Except (TypingRaised V) Both := do
  let nullable1 ← b.cell1.getNullable
  let b := if nullable1 && !b.cell2.canBeNull && !strict then
    { b with cell2 := { b.cell2 with nullable := some true }, work := true } else b
  pure (if b.cell2.canBeNull && !nullable1 then
    { b with cell1 := { b.cell1 with nullable := some true }, work := true } else b)

/-- Propagates the types; two types that have no minimum are an error. -/
def shareType (reg : TypesRegistry T) (strict : Bool) (b : Both) :
    Except (TypingRaised V) (Option (String × String) × Both) := do
  let typ1 ← b.cell1.getType
  let typ2 ← b.cell2.getType
  match typ1, typ2 with
  | none, none => pure (none, b)
  | none, some typ2 =>
    pure (none, { b with cell1 := { b.cell1 with type := some (some typ2) }, work := true })
  | some typ1, none =>
    pure (none, { b with cell2 := { b.cell2 with type := some (some typ1) }, work := true })
  | some typ1, some typ2 =>
    if typ1 ≠ typ2 then
      match ← minType reg typ1 typ2 strict with
      | some typ3 =>
        pure (none,
          ⟨{ b.cell1 with type := some (some typ3) }, { b.cell2 with type := some (some typ3) }, true⟩)
      | none => pure (some (typ1, typ2), b)
    else pure (none, b)

def cellOf (s : Typer) : Target → Cell
  | .text => Cell.fake
  | .cell place => s.cells place

/-- Cells that were changed in place; what is done to a fake cell is lost. -/
def store (place : CellPlace) (col : Target) (b : Both) (s : Typer) : Typer :=
  match col with
  | .text => { s with cells := Function.update s.cells place b.cell1, work := b.work }
  | .cell place' =>
    { s with cells := Function.update (Function.update s.cells place b.cell1) place' b.cell2, work := b.work }

/-- `type_cells`. -/
def typeCells (reg : TypesRegistry T) (place : CellPlace) (col : Target) (strict : Bool) :
    Run V (Option (String × String)) := do
  let s ← get
  let b ← lift (shareNullable strict ⟨s.cells place, s.cellOf col, s.work⟩)
  modify (store place col b)
  let (err, b) ← lift (shareType reg strict b)
  modify (store place col b)
  pure err

section Policies

variable (theories : List (Z3Policy V)) (world : World)

/-- `self.theorynames`. -/
def theorynames : List String := theories.map (·.name)

/-- `reset_types`. -/
def resetTypes : World := fun svc => (world svc).map fun map table => (map table).map fun row =>
  if svc ∈ theorynames theories then row.map fun _ => .dict .bottom else row

/-- The rule that `type_env` has for an identifier: the last one. -/
def ruleOf (id : String) : Option (Z3Rule V) := (theories.flatMap (·.rules)).reverse.find? (·.id = id)

/-- The columns of a builtin atom in `type_env_builtins`. -/
def builtinTypes (id : String) (pos : ℕ) : List Target :=
  match (ruleOf theories id).bind fun rule => rule.body[pos]? with
  | none => []
  | some atom =>
    if atom.table.service = some "builtin" then
      match builtins.lookup atom.table.table with
      | none => []
      | some builtin => builtin.args.map fun arg => .cell (.typeVar id pos arg)
    else []

/-- The cell of a variable in `type_env`. -/
def varTypes (id name : String) : Except (TypingRaised V) CellPlace :=
  match ruleOf theories id with
  | none => .error (.keyError id)
  | some rule => if name ∈ rule.variableNames then .ok (.variable id name) else .error (.keyError name)

/-- The cells when all have been reset. -/
def reset : Typer where
  cells
    | .column svc table pos =>
      match ((resetTypes theories world svc).bind (· table)).bind (·[pos]?) with
      | some (.dict cell) => cell
      | _ => .bottom
    | .variable _ _ => .bottom
    | .typeVar _ _ _ => .bottom
  work := false
  once := false

/-- `self.world[svc].schema.map[tablename]`, after the types have been reset. -/
def columns (svc tablename : String) : Except (TypingRaised V) (List Target) :=
  match resetTypes theories world svc with
  | none => .error (.keyError svc)
  | some map =>
    match map tablename with
    | none => .error (.keyError tablename)
    | some row => .ok (row.zipIdx.map fun (col, pos) =>
      match col with
      | .name => .text
      | .dict _ => .cell (.column svc tablename pos))

/-- Builtins that are not known stop `reset_type_environment`. -/
def resetTypeEnvironment : Except (TypingRaised V) Unit :=
  match ((theories.flatMap (·.rules)).flatMap (·.body)).find? fun atom =>
      atom.table.service = some "builtin" && (builtins.lookup atom.table.table).isNone with
  | none => .ok ()
  | some atom => .error (.unknownBuiltin atom.table.table)

/-- `type_facts`. -/
def typeFacts (classOf : V → ValueClass) (theory : Z3Policy V) : Run V Unit :=
  forEach (fun (tablename, facts) => do
    let typeRow ← lift (columns theories world theory.name tablename)
    forEach (fun fact =>
      forEach (fun (value, typ) => typeConstant classOf value typ) (fact.zip typeRow)) facts)
    theory.facts

/-- The columns of an atom, and whether they must not be changed. The head has no position. -/
def tblSchema (theory : Z3Policy V) (rule : Z3Rule V) (atom : Literal V) (pos : Option ℕ) :
    Except (TypingRaised V) (Bool × List Target) :=
  let svc := atom.table.service.getD theory.name
  if svc = "builtin" then
    match pos with
    | none => .error .builtinInHead
    | some pos => .ok (false, builtinTypes theories rule.id pos)
  else (columns theories world svc atom.table.table).map fun row => (decide (svc ∉ theorynames theories), row)

variable (reg : TypesRegistry T) (classOf : V → ValueClass)

/-- The loop of `type_atom`. -/
def typeArgument (rule : Z3Rule V) (atom : Literal V) (strict : Bool) : Term V × Target → Run V Unit
  | (.variable name, typCol) => do
    let typVar ← lift (varTypes theories rule.id name)
    match ← typeCells reg typVar typCol strict with
    | none => pure ()
    | some (typ1, typ2) => fail (.mismatch name atom rule.id typ1 typ2)
  | (.object value, typCol) => do
    if (← get).once then typeConstant classOf value typCol

/-- `type_atom`. -/
def typeAtom (theory : Z3Policy V) (rule : Z3Rule V) (atom : Literal V × Option ℕ) : Run V Unit := do
  let (strict, schema) ← lift (tblSchema theories world theory rule atom.1 atom.2)
  forEach (typeArgument theories reg classOf rule atom.1 strict) (atom.1.arguments.zip schema)

/-- The atoms of a rule in the order in which they are typed. -/
def atoms (rule : Z3Rule V) : List (Literal V × Option ℕ) :=
  rule.body.zipIdx.map (fun (atom, pos) => (atom, some pos)) ++ [(rule.head, none)]

/-- `type_rule`. -/
def typeRule (theory : Z3Policy V) (rule : Z3Rule V) : Run V Unit :=
  forEach (typeAtom theories world reg classOf theory rule) (atoms rule)

/-- One iteration of `type_all`. -/
def iteration : Run V Unit := do
  modify fun s => { s with work := false }
  forEach (fun theory => forEach (typeRule theories world reg classOf theory) theory.rules) theories
  modify fun s => { s with once := false }

/-- `type_all`: whether its loop has ended after some iterations. -/
def typeAll (fuel : ℕ) : Run V Bool := do
  lift (resetTypeEnvironment theories)
  forEach (typeFacts theories world classOf) theories
  modify fun s => { s with work := true, once := true }
  repeatWhile (·.work) (iteration theories world reg classOf) fuel

end Policies

end Typer

end Congress
