import Congress.Safety

/-!
# Column references

Arguments that name a column of a datasource's table are put in their place, and positional arguments
are padded with new variables up to the number of columns.
-/

namespace Congress

variable {V : Type*} [DecidableEq V]

/-- What is known of a policy here: whether it is a datasource, and its schema. -/
structure PolicyInfo where
  datasource : Bool
  schema : Option Schema

/-- Why column references cannot be eliminated. -/
inductive ColumnFailure (V : Type*)
  | incompleteSchema
  | policyException (errors : List (PolicyError V))

/-- `literal_theory`. -/
def Literal.theory (l : Literal V) (theories : String → Option PolicyInfo)
    (defaultTheory : Option String) : Option PolicyInfo :=
  (l.table.service.or defaultTheory).bind theories

namespace Literal

/-- One named argument: the errors, and the terms by the number of their column, the last one first. -/
def placeColumn (columns : List String) (l : Literal V)
    (acc : List (PolicyError V) × List (ℕ × Term V)) (named : (ℕ ⊕ String) × Term V) :
    List (PolicyError V) × List (ℕ × Term V) :=
  let (errors, termIndex) := acc
  let (col, arg) := named
  let problem (b : Bool) (p : ColumnProblem) : List (PolicyError V) := if b then [.column l col p] else []
  match col with
  | .inr name =>
    match columns.idxOf? name with
    | none => (errors ++ problem true .unknown, termIndex)
    | some i =>
      (errors ++ problem (i < l.arguments.length) .givenByPosition
          ++ problem (l.namedArguments.any (·.1 = .inl i)) .givenByNumber
          ++ problem (termIndex.any (·.1 = i)) .givenTwice,
        (i, arg) :: termIndex)
  | .inl i =>
    (errors ++ problem (columns.length ≤ i) .tooLarge
        ++ problem (i < l.arguments.length) .givenByPosition
        ++ problem (columns[i]?.any fun name => l.namedArguments.any (·.1 = .inr name)) .givenByName
        ++ problem (termIndex.any (·.1 = i)) .givenTwice,
      (i, arg) :: termIndex)

/-- The arguments, each column that is not given with a variable of its own. -/
def padArguments (l : Literal V) (arity : ℕ) (termIndex : List (ℕ × Term V)) (pre : String) :
    Literal V :=
  { l with
    namedArguments := []
    arguments := l.arguments
      ++ (List.range' l.arguments.length (arity - l.arguments.length)).map fun i =>
        (termIndex.lookup i).getD (.variable (pre ++ toString i)) }

/-- `eliminate_column_references_and_pad_positional`. -/
def eliminateColumnReferences (theories : String → Option PolicyInfo) (defaultTheory : Option String)
    (pre : String) (l : Literal V) : Except (ColumnFailure V) (Literal V) :=
  if l.namedArguments.isEmpty then
    match l.theory theories defaultTheory with
    | some ⟨_, some schema⟩ =>
      match schema.columns.lookup l.table.table with
      | some columns => .ok (l.padArguments columns.length [] pre)
      | none => .ok l
    | _ => .ok l
  else
    match l.theory theories defaultTheory with
    | some ⟨datasource, some schema⟩ =>
      if !datasource then .error (.policyException [.notDatasource l])
      else
        match schema.columns.lookup l.table.table with
        | none => .error .incompleteSchema
        | some columns =>
          let (errors, termIndex) := l.namedArguments.foldl (l.placeColumn columns) ([], [])
          if errors.isEmpty then .ok (l.padArguments columns.length termIndex pre)
          else .error (.policyException errors)
    | _ => .error .incompleteSchema

end Literal

/-- `_unused_variable_prefix`: `x_` with as many more underscores as it needs. -/
def unusedVariablePrefix (names : List String) : String :=
  let candidate (n : ℕ) : String := "x_" ++ "".pushn '_' n
  let longest := (names.map String.length).foldl max 0
  candidate (((List.range (longest + 1)).find? fun n =>
    names.all fun x => !(candidate n).toList.isPrefixOf x.toList).getD 0)

/-- The rank of a literal in the sorted body, the last one if it is there twice. -/
def literalRank (sorted : List (Literal V)) (l : Literal V) : ℕ :=
  sorted.length - 1 - sorted.reverse.idxOf l

/-- `eliminate_column_references_and_pad_positional`; the order in which literals are sorted only
makes for the names of new variables. -/
def Formula.eliminateColumnReferences (sorted : List (Literal V) → List (Literal V))
    (theories : String → Option PolicyInfo) (defaultTheory : Option String) :
    Formula V → Except (ColumnFailure V) (Formula V)
  | .atom l => (l.eliminateColumnReferences theories defaultTheory "").map .atom
  | .rule r => do
    let pre := unusedVariablePrefix (variableNames (r.heads ++ r.body))
    let eliminate (n : ℕ) (l : Literal V) : Except (ColumnFailure V) (Literal V) :=
      l.eliminateColumnReferences theories defaultTheory (pre ++ toString n)
    let head ← eliminate 0 r.head
    let moreHeads ← r.moreHeads.zipIdx.mapM fun (l, i) => eliminate (i + 1) l
    let body ← r.body.mapM fun l => eliminate (literalRank (sorted r.body) l) l
    pure (.rule ⟨head, moreHeads, body⟩)

end Congress
