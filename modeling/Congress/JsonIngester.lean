import Mathlib.Data.List.AList
import Mathlib.Data.Finset.Basic
import Mathlib.Data.Finset.SDiff
import Mathlib.Algebra.Order.Ring.Int
import Congress.Lib.Run

/-!
# Ingesting JSON into database tables

Each poll of a table writes what its items differ in from those of the last poll, or all of them if it
is not known what the table holds. Rows are deleted by keys, which a key map remembers for the items.
-/

namespace Congress

variable {D : Type*} [DecidableEq D]

/-- `KeyMap`, which has an integer of its own for each datum. -/
structure KeyMap (D : Type*) [DecidableEq D] where
  keyMapping : AList fun _ : D => ℤ
  reclaimedFreeKeys : Finset ℤ
  nextIncrementalKey : ℤ

namespace KeyMap

/-- `__init__`; `sys.maxsize` is the platform's. -/
def new (maxsize : ℤ) : KeyMap D := ⟨∅, ∅, max (-maxsize - 1) (-2 ^ 63)⟩

/-- `add_and_get_key`, where `pop` takes a key from a set of some. -/
def addAndGetKey (pop : Finset ℤ → ℤ) (keys : KeyMap D) (datum : D) : ℤ × KeyMap D :=
  match keys.keyMapping.lookup datum with
  | some key => (key, keys)
  | none =>
    if keys.reclaimedFreeKeys.Nonempty then
      let key := pop keys.reclaimedFreeKeys
      (key, ⟨keys.keyMapping.insert datum key, keys.reclaimedFreeKeys.erase key,
        keys.nextIncrementalKey⟩)
    else
      (keys.nextIncrementalKey, ⟨keys.keyMapping.insert datum keys.nextIncrementalKey, ∅,
        keys.nextIncrementalKey + 1⟩)

/-- `remove_and_get_key`; `none` is a `KeyError`. -/
def removeAndGetKey (keys : KeyMap D) (datum : D) : Option (ℤ × KeyMap D) :=
  (keys.keyMapping.lookup datum).map fun key =>
    (key, ⟨keys.keyMapping.erase datum, insert key keys.reclaimedFreeKeys, keys.nextIncrementalKey⟩)

end KeyMap

/-- A table of a driver: the items of the last poll (`self.state`, if it has the table), the keys, and
the rows of the database, of which the second column is the primary key. -/
structure IngestTable (D : Type*) [DecidableEq D] where
  state : Option (Finset D)
  keys : KeyMap D
  rows : List (D × String)

/-- What one poll of a table meets: the items, if fetching them does not raise, whether the database
would go through with a transaction, and the orders in which sets are gone through. -/
structure IngestPoll (D : Type*) [DecidableEq D] where
  items : Option (Finset D)
  succeeds : Bool
  list : Finset D → List D
  pop : Finset ℤ → ℤ
  nodup_list : ∀ s, (list s).Nodup
  mem_list : ∀ s d, d ∈ list s ↔ d ∈ s
  pop_mem : ∀ s, s.Nonempty → pop s ∈ s

namespace IngestTable

variable (maxsize : ℤ)

/-- `DELETE … WHERE _key = %s`. -/
def deleteRow (rows : List (D × String)) (key : String) : List (D × String) :=
  rows.filter (·.2 ≠ key)

/-- `INSERT …`, which raises if there is a row of the primary key. -/
def insertRow (rows : List (D × String)) (row : D × String) : Option (List (D × String)) :=
  if rows.any (·.2 = row.2) then none else some (rows ++ [row])

def deleteDatum (written : List (D × String) × KeyMap D) (d : D) :
    Option (List (D × String) × KeyMap D) :=
  (written.2.removeAndGetKey d).map fun (key, keys) => (deleteRow written.1 (toString key), keys)

def insertDatum (pop : Finset ℤ → ℤ) (written : List (D × String) × KeyMap D) (d : D) :
    Option (List (D × String) × KeyMap D) :=
  let (key, keys) := written.2.addAndGetKey pop d
  (insertRow written.1 (d, toString key)).map (·, keys)

/-- The statements of `_update_table`; `none` is an exception. -/
def write (t : IngestTable D) (p : IngestPoll D) (newData oldData : Finset D) (useSnapshot : Bool) :
    Option (List (D × String) × KeyMap D) :=
  if useSnapshot then
    (p.list newData).foldlM (insertDatum p.pop) ([], KeyMap.new maxsize)
  else do
    let written ← (p.list (oldData \ newData)).foldlM deleteDatum (t.rows, t.keys)
    (p.list (newData \ oldData)).foldlM (insertDatum p.pop) written

/-- `_update_table`: the table afterwards, and whether a change was made. -/
def updateTable (t : IngestTable D) (p : IngestPoll D) (newData oldData : Finset D)
    (useSnapshot : Bool) : IngestTable D × Bool :=
  if newData = oldData then (t, false)
  else
    match t.write maxsize p newData oldData useSnapshot with
    | some (rows, keys) =>
      if p.succeeds then ({ t with rows := rows, keys := keys }, true)
      else ({ t with state := none, keys := KeyMap.new maxsize }, false)
    | none => ({ t with state := none, keys := KeyMap.new maxsize }, false)

/-- The update method of a table. -/
def update (t : IngestTable D) (p : IngestPoll D) : IngestTable D :=
  { t with state := p.items.or t.state }

/-- `publish`, where `prior` is the table's prior state. -/
def publish (t : IngestTable D) (p : IngestPoll D) (prior : Option (Finset D)) :
    IngestTable D × Bool :=
  t.updateTable maxsize p (t.state.getD ∅) (prior.getD ∅) prior.isNone

end IngestTable

/-- A driver with its tables that are polled. -/
structure JsonIngester (D : Type*) [DecidableEq D] where
  updateMethods : List String
  nodup : updateMethods.Nodup
  tables : String → IngestTable D

namespace JsonIngester

variable (maxsize : ℤ)

/-- `update_from_datasource`. -/
def updateFromDatasource (ingester : JsonIngester D) (polls : String → IngestPoll D) :
    JsonIngester D :=
  { ingester with
    tables := ingester.updateMethods.foldl
      (fun tables t => Function.update tables t ((tables t).update (polls t))) ingester.tables }

/-- `poll`: the driver afterwards, and whether `evaluate_and_execute_actions` is called. -/
def poll (ingester : JsonIngester D) (polls : String → IngestPoll D) : JsonIngester D × Bool :=
  let updated := ingester.updateFromDatasource polls
  let (tables, change) := ingester.updateMethods.foldl
    (fun (tables, change) t =>
      let (table, made) := (tables t).publish maxsize (polls t) (ingester.tables t).state
      (Function.update tables t table, change || made))
    (updated.tables, false)
  ({ ingester with tables := tables }, change)

/-- The driver after a poll. -/
def after (ingester : JsonIngester D) (polls : String → IngestPoll D) : JsonIngester D :=
  (ingester.poll maxsize polls).1

end JsonIngester

end Congress
