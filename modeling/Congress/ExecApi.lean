import Mathlib.Data.List.AList
import Mathlib.Data.Finset.Basic
import Congress.Lib.Run

/-!
# API actions

The rows of all `_exec_api` tables ask for API requests. Each evaluation reads the tables, makes the
requests of the rows that the last one did not find, and then keeps what it has read.
-/

namespace Congress

/-- What the values `D` of a database are in Python, and the standard functions applied to them. -/
structure PyValues (D J : Type) where
  /-- The string that a value is, if it is one. -/
  str : D → Option String
  hashable : D → Bool
  /-- `json.dumps` with sorted keys, which not every value has. -/
  dumps : D → Option String
  /-- `json.loads`. -/
  loads : String → Option J
  upper : String → String

/-- A row of an `_exec_api` table. -/
structure DbRow (D : Type) where
  endpoint : D
  path : D
  method : D
  body : D
  parameters : D
  headers : D

/-- A row with its JSON columns as strings. -/
structure ExecApiRow (D : Type) where
  endpoint : D
  path : D
  method : D
  body : String
  parameters : String
  headers : String
  deriving DecidableEq

/-- An API request: the endpoint whose session it is made in, and its arguments. -/
structure ApiRequest (D J : Type) where
  session : String
  endpointOverride : String
  url : D
  method : String
  connectRetries : ℕ
  statusCodeRetries : ℕ
  json : Option J
  params : Option J
  headers : Option J
  deriving DecidableEq

/-- What reading one table gives: its rows, a `ProgrammingError`, or another error. -/
inductive TableRead (D : Type)
  | rows (rows : List (DbRow D))
  | wrongColumns
  | failed

structure ExecApiManager (D : Type) where
  /-- `_exec_api_endpoints`. -/
  endpoints : AList fun _ : String => String
  enableExecuteAction : Bool
  /-- `_last_exec_api_state`. -/
  lastState : Finset (ExecApiRow D)

section ExecApi

variable {D J : Type} [DecidableEq D] (py : PyValues D J)

/-- One row of `json_rows_to_str_rows`. -/
def DbRow.toStrRow (row : DbRow D) : Option (ExecApiRow D) := do
  let body ← py.dumps row.body
  let parameters ← py.dumps row.parameters
  let headers ← py.dumps row.headers
  pure ⟨row.endpoint, row.path, row.method, body, parameters, headers⟩

def ExecApiRow.hashable (row : ExecApiRow D) : Bool :=
  py.hashable row.endpoint && py.hashable row.path && py.hashable row.method

/-- One table of `_read_all_execute_tables`: a table without the right columns is left out. -/
def readTable (rows : Finset (ExecApiRow D)) : TableRead D → Option (Finset (ExecApiRow D))
  | .wrongColumns => some rows
  | .failed => none
  | .rows dbRows => do
    let strRows ← dbRows.mapM (DbRow.toStrRow py)
    if strRows.all (ExecApiRow.hashable py) then some (rows ∪ strRows.toFinset) else none

/-- `_read_all_execute_tables`; `none` is an exception, also where the tables cannot be found. -/
def readAllExecuteTables (tables : Option (List (TableRead D))) : Option (Finset (ExecApiRow D)) := do
  (← tables).foldlM (readTable py) ∅

namespace ExecApiManager

variable (m : ExecApiManager D)

/-- The configured endpoint that a row asks for, with its URL. -/
def endpoint (row : ExecApiRow D) : Option (String × String) :=
  (py.str row.endpoint).bind fun name => (m.endpoints.lookup name).map (name, ·)

/-- The request of a row, if its endpoint is configured; `none` where `method.upper()` raises. -/
def rowRequest (row : ExecApiRow D) : Option (Option (ApiRequest D J)) :=
  match m.endpoint py row with
  | none => some none
  | some (name, url) => do
    let method ← py.str row.method
    pure (some ⟨name, url, row.path, py.upper method, 10, 10, py.loads row.body,
      py.loads row.parameters, py.loads row.headers⟩)

/-- `_execute_exec_api_rows`: the requests made, and whether it got through all the rows. -/
def executeExecApiRows : List (ExecApiRow D) → List (ApiRequest D J) × Bool
  | [] => ([], true)
  | row :: rows =>
    match m.rowRequest py row with
    | none => ([], false)
    | some request =>
      let (requests, done) := executeExecApiRows rows
      ((if m.enableExecuteAction then request.toList else []) ++ requests, done)

/-- `evaluate_and_execute_actions`: the requests made, and the manager afterwards, which has kept what
it read only if nothing was raised. Sets are gone through in the given order. -/
def evaluateAndExecuteActions (tables : Option (List (TableRead D))) (order : List (ExecApiRow D)) :
    List (ApiRequest D J) × ExecApiManager D :=
  match readAllExecuteTables py tables with
  | none => ([], m)
  | some new =>
    let (requests, done) := m.executeExecApiRows py (order.filter (· ∈ new \ m.lastState))
    (requests, if done then { m with lastState := new } else m)

end ExecApiManager

/-- The rows of the union of the tables, where they are all read. -/
def Shows (tables : Option (List (TableRead D))) (row : ExecApiRow D) : Prop :=
  ∃ ts dbRows dbRow, tables = some ts ∧ .rows dbRows ∈ ts ∧ dbRow ∈ dbRows
    ∧ DbRow.toStrRow py dbRow = some row

/-- A call of `evaluate_and_execute_actions`: what reading the tables gives, and an order in which
sets of their rows are gone through. -/
structure ExecApiCall where
  tables : Option (List (TableRead D))
  order : List (ExecApiRow D)
  nodup : order.Nodup
  covers : ∀ row, Shows py tables row → row ∈ order

variable {py}

def ExecApiCall.requests (call : ExecApiCall py) (m : ExecApiManager D) : List (ApiRequest D J) :=
  (m.evaluateAndExecuteActions py call.tables call.order).1

def ExecApiCall.after (m : ExecApiManager D) (call : ExecApiCall py) : ExecApiManager D :=
  (m.evaluateAndExecuteActions py call.tables call.order).2

/-- The database answers. -/
def ExecApiCall.Answered (call : ExecApiCall py) : Prop :=
  ∃ ts, call.tables = some ts ∧ .failed ∉ ts

end ExecApi

end Congress
