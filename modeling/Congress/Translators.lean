import Mathlib.Data.List.AList

/-!
# Datasource translators

A translator describes how an object becomes rows of tables. `getSchema` and `convertObj` are two walks
over it: one gives each table its columns, the other turns an object into rows.
-/

namespace Congress.Datasource

/-- What the operations of Python that are used here do to its objects; `none` where one raises. -/
structure Python (O : Type) where
  pyNone : O
  isNone : O → Bool
  truthy : O → Bool
  /-- A string or a number. -/
  isId : O → Bool
  hashable : O → Bool
  str : O → O
  tuple : List O → O
  iter : O → Option (List O)
  items : O → Option (List (O × O))
  /-- `getattr` where `hasattr`, else `None`. -/
  getattr : O → String → Option O
  /-- The item where there is one, else `None`. -/
  getitem : O → String → Option O
  /-- `_compute_hash`. -/
  computeHash : List O → Option O

/-- The type of a column; where `marshal` raises a `ValueError`, it gives `some none`. -/
structure DataType (O : Type) where
  name : String
  marshal : O → Option (Option O)

/-- A name for a generated id, or a function that computes ids. -/
inductive IdCol (O : Type)
  | name (name : String)
  | function (f : O → Option O)

inductive Selector
  | dot
  | dict
  deriving DecidableEq

/-- The parameters that `HDICT`, `VDICT` and `LIST` translators share. -/
structure Params (O : Type) where
  tableName : String
  parentKey : Option String
  idCol : Option (IdCol O)
  parentColName : Option String
  parentKeyDesc : Option String
  objectsExtractFn : Option (O → Option O)

/-- The parameters of a `VALUE` translator. -/
structure ValueParams (O : Type) where
  extractFn : Option (O → Option O)
  dataType : Option (DataType O)
  nullable : Bool

/-- A field translator, less its translator. -/
structure Field where
  fieldname : String
  col : Option String
  desc : Option String

inductive Translator (O : Type)
  | value (params : ValueParams O)
  | list (params : Params O) (valCol : String) (valColDesc : Option String) (sub : Translator O)
  | vdict (params : Params O) (keyCol valCol : String) (sub : Translator O)
  | hdict (params : Params O) (selector : Selector) (inList : Bool)
    (fields : List (Field × Translator O))

/-- A column of a table, as `add_column` makes it. -/
structure Column where
  name : String
  desc : Option String
  type : Option String
  nullable : Bool
  deriving DecidableEq

abbrev TableSchemas := AList fun _ : String => List Column

variable {O : Type}

def Field.column (f : Field) : String := f.col.getD f.fieldname

namespace IdCol

/-- `_id_col_name`. -/
def colName : Option (IdCol O) → String
  | some (.name s) => s
  | _ => "id-col"

/-- The empty name is false. -/
def truthy : IdCol O → Bool
  | .name s => s ≠ ""
  | .function _ => true

end IdCol

namespace Params

def parentCol (p : Params O) : String := p.parentColName.getD "parent_key"

/-- `id_col`, where `if id_col` is true. -/
def id? (p : Params O) : Option (IdCol O) := p.idCol.filter IdCol.truthy

/-- `parent_key`, where `if parent_key` is true. -/
def parent? (p : Params O) : Option String := p.parentKey.filter (· ≠ "")

end Params

namespace Translator

/-- The shared parameters, which a `VALUE` translator has none of. -/
def params : Translator O → Option (Params O)
  | .value _ => none
  | .list p _ _ _ => some p
  | .vdict p _ _ _ => some p
  | .hdict p _ _ _ => some p

/-- `PARENT_KEY in translator`. -/
def parentKey (tr : Translator O) : Option String := tr.params.bind (·.parentKey)

/-- `ID_COL in translator`, which is `need_column_for_subtable_id`. -/
def hasId (tr : Translator O) : Bool := (tr.params.bind (·.idCol)).isSome

def objectsExtractFn (tr : Translator O) : Option (O → Option O) :=
  tr.params.bind (·.objectsExtractFn)

end Translator

/-- The fields lacking a parent key come first; field translators that are alike in this stay in their
order. -/
def sortFields {A : Type} (hasParentKey : A → Bool) (fields : List A) : List A :=
  fields.filter (! hasParentKey ·) ++ fields.filter hasParentKey

/-! ## Schemas -/

def addColumn (name : String) (desc : Option String) (type : Option String) (nullable : Bool) :
    Column := ⟨name, desc, type, nullable⟩

/-- A new table of a schema; `none` if there is one of the name. -/
def addTable (schema : TableSchemas) (table : String) (columns : List Column) :
    Option TableSchemas :=
  if table ∈ schema then none else some (schema.insert table columns)

/-- The schema of a field's translator: its field, its parent key, the column it makes, and the walk
over its translator. -/
structure FieldSchema where
  parentKey : Option String
  column : Column
  getSchema : TableSchemas → Option String → Option TableSchemas

/-- `get_current_table_col_type`; `none` if not exactly one column has the name. -/
def currentTableColType (parentColName : Option String) (parentKeyType : Option String)
    (idName : String) (columns : List Column) (name : String) : Option (Option String) :=
  if parentColName.any fun p => p ≠ "" && p = name then some parentKeyType
  else if name = idName then some none
  else
    match columns.filter (·.name = name) with
    | [column] => some column.type
    | _ => none

/-- The loop of `_get_schema_hdict` over the fields. -/
def getSchemaFields (colType : String → Option (Option String)) :
    List FieldSchema → TableSchemas → Option TableSchemas
  | [], schema => some schema
  | f :: fields, schema =>
    (match f.parentKey with
      | some key => (colType key).bind (f.getSchema schema)
      | none => f.getSchema schema none).bind (getSchemaFields colType fields)

mutual

/-- `_get_schema`. -/
def Translator.getSchema : Translator O → TableSchemas → Option String → Option TableSchemas
  | .value _, schema, _ => some schema
  | .list p valCol valColDesc sub, schema, _ => do
    let schema ← sub.getSchema schema none
    let value := addColumn valCol valColDesc none true
    addTable schema p.tableName <|
      if p.id?.isSome then
        [addColumn (IdCol.colName p.idCol) none none true, addColumn valCol none none true]
      else if p.parent?.isSome then [addColumn p.parentCol p.parentKeyDesc none true, value]
      else [value]
  | .vdict p keyCol valCol sub, schema, _ => do
    let schema ← sub.getSchema schema none
    let plain (name : String) : Column := addColumn name none none true
    addTable schema p.tableName <|
      (if p.id?.isSome then [plain (IdCol.colName p.idCol)]
        else if p.parent?.isSome then [plain p.parentCol] else [])
      ++ [plain keyCol] ++ if sub.parentKey.isNone then [plain valCol] else []
  | .hdict p _ _ fields, schema, parentKeyType => do
    let fieldSchemas := fieldSchemas fields
    let columns := (fieldSchemas.filter (·.parentKey.isNone)).map (·.column)
    let parentColName := if p.idCol.isNone && p.parentKey.isSome then some p.parentCol else none
    let schema ← getSchemaFields
      (currentTableColType parentColName parentKeyType (IdCol.colName p.idCol) columns)
      (sortFields (·.parentKey.isSome) fieldSchemas) schema
    addTable schema p.tableName <|
      (if p.idCol.isSome then [addColumn (IdCol.colName p.idCol) none none true]
        else if p.parentKey.isSome then
          [addColumn p.parentCol p.parentKeyDesc parentKeyType true]
        else [])
      ++ columns

def fieldSchemas : List (Field × Translator O) → List FieldSchema
  | [] => []
  | (f, tr) :: fields =>
    { parentKey := tr.parentKey
      column := match tr with
        | .value v => addColumn f.column f.desc (v.dataType.map (·.name)) v.nullable
        | _ => addColumn f.column f.desc none true
      getSchema := fun schema type => tr.getSchema schema type } :: fieldSchemas fields

end

/-! ## Registration -/

/-- What registering changes: the tables with a state, and the schema. -/
structure DataSourceDriver where
  tables : List String
  schema : TableSchemas

/-- `_validate_non_value_type_properties`, and the check that no table is used twice. -/
def useTable (p : Params O) (tables : List String) : Option (List String) :=
  if p.parent?.isSome && p.id?.isSome then none
  else if p.tableName ∈ tables then none
  else some (tables ++ [p.tableName])

mutual

/-- `_validate_translator`, with the tables that are in use; `none` is an exception. -/
def Translator.validate : Translator O → List String → Option (List String)
  | .value _, tables => some tables
  | .list p _ _ sub, tables => (useTable p tables).bind sub.validate
  | .vdict p _ _ sub, tables => (useTable p tables).bind sub.validate
  | .hdict p _ _ fields, tables => (useTable p tables).bind (validateFields fields)

def validateFields : List (Field × Translator O) → List String → Option (List String)
  | [], tables => some tables
  | (_, tr) :: fields, tables => (tr.validate tables).bind (validateFields fields)

end

/-- `register_translator`. -/
def DataSourceDriver.registerTranslator (driver : DataSourceDriver) (tr : Translator O) :
    Option DataSourceDriver := do
  let tables ← tr.validate driver.tables
  let schema ← tr.getSchema ∅ none
  pure ⟨tables, schema.entries.foldl (fun s e => s.insert e.1 e.2) driver.schema⟩

/-! ## Rows -/

/-- A row of a table, each value with the name of the column that it is for. -/
abbrev TableRow (O : Type) := String × List (String × O)

/-- What `convert_obj` returns: the rows, which are `None` for `None`, and the row's id. -/
abbrev Converted (O : Type) := Option (List (TableRow O)) × Option O

/-- The row of a translator above, by its columns, the last one first. -/
abbrev ParentRow (O : Type) := List (String × O)

section Conversion

variable (py : Python O)

/-- `_extract_value`. -/
def extractValue (v : ValueParams O) (obj : O) : Option O := do
  let value ← match v.extractFn with
    | some f => f obj
    | none => some obj
  let value := if py.hashable value then value else py.str value
  match v.dataType with
  | none => some value
  | some type => if py.isNone value then some value else (type.marshal value).map (·.getD value)

/-- `_compute_id`. -/
def computeId (idCol : IdCol O) (obj : O) (args : List O) : Option O := do
  let value ← match idCol with
    | .function f => f obj
    | .name _ => py.computeHash args
  if py.isId value then some value else none

/-- The id of a row, where there is an `id_col`. -/
def Params.rowId (p : Params O) (obj : Option O) (args : List O) : Option (Option O) :=
  match p.id? with
  | some idCol => (obj.bind fun o => computeId py idCol o args).map some
  | none => some none

/-- The cells a row starts with: its id, or the value of its parent key. -/
def Params.keyCells (p : Params O) (id : Option O) (parentRow : Option (ParentRow O)) :
    Option (List (String × O)) :=
  match id with
  | some h => some [(IdCol.colName p.idCol, h)]
  | none =>
    match p.parent? with
    | some key => (parentRow.bind (·.lookup key)).map fun v => [(p.parentCol, v)]
    | none => some []

/-- Rows of a translator's own table, from the cells behind the key. -/
def Params.ownRows (p : Params O) (id : Option O) (parentRow : Option (ParentRow O))
    (rows : List (List (String × O))) : Option (List (TableRow O)) :=
  rows.mapM fun row => (p.keyCells id parentRow).map fun key => (p.tableName, key ++ row)

/-- A translator below another one, and the walk over it. -/
structure SubTranslator (O : Type) where
  hasId : Bool
  objectsExtractFn : Option (O → Option O)
  convertObj : O → Option (ParentRow O) → Option (Converted O)

namespace SubTranslator

/-- `OBJECTS_EXTRACT_FN`. -/
def extract (sub : SubTranslator O) (o : O) : Option O :=
  if py.isNone o then some o
  else
    match sub.objectsExtractFn with
    | some f => f o
    | none => some o

/-- An object below another one: `None` has no rows, and the id of no rows. -/
def convert (sub : SubTranslator O) (o : O) (parentRow : Option (ParentRow O)) :
    Option (Converted O) :=
  if py.isNone o then
    if sub.hasId then (py.computeHash []).map fun h => (some [], some h) else some (some [], none)
  else (sub.extract py o).bind fun o => sub.convertObj o parentRow

end SubTranslator

/-- `_populate_translator_data_list`, for values. -/
def populateListValues (p : Params O) (valCol : String) (v : ValueParams O) (obj : O)
    (parentRow : Option (ParentRow O)) : Option (Converted O) := do
  let values ← (← py.iter obj).mapM (extractValue py v)
  let id ← p.rowId py (some obj) values
  -- the parent key is looked up even if there are no values
  let _ ← p.keyCells id parentRow
  let rows ← p.ownRows id parentRow (values.map fun value => [(valCol, value)])
  pure (some rows, id)

/-- `_populate_translator_data_list`, for other translators: the loop over the objects, where a row
must have an id that is true. The last object is kept as it was left. -/
def populateListLoop (sub : SubTranslator O) :
    List O → Option O → Option (List (TableRow O) × List O × Option O)
  | [], last => some ([], [], last)
  | o :: os, _ => do
    let (tuples, rowHash) ← sub.convert py o none
    let rowHash ← rowHash
    if !(py.truthy rowHash && sub.hasId) then none
    else do
      let left ← sub.extract py o
      let (rows, hashes, last) ← populateListLoop sub os (some left)
      pure (tuples.getD [] ++ rows, rowHash :: hashes, last)

def populateList (p : Params O) (valCol : String) (sub : SubTranslator O) (obj : O)
    (parentRow : Option (ParentRow O)) : Option (Converted O) := do
  let (rows, hashes, last) ← populateListLoop py sub (← py.iter obj) none
  let id ← p.rowId py last hashes
  let own ← p.ownRows id parentRow (hashes.map fun h => [(valCol, h)])
  pure (some (rows ++ own), id)

/-- `_populate_translator_data_vdict`, for values. -/
def populateVdictValues (p : Params O) (keyCol valCol : String) (v : ValueParams O) (obj : O)
    (parentRow : Option (ParentRow O)) : Option (Converted O) := do
  let items ← (← py.items obj).mapM fun (k, value) => (extractValue py v value).map (k, ·)
  let id ← p.rowId py (some obj) (items.map fun (k, value) => py.tuple [k, value])
  let _ ← p.keyCells id parentRow
  let rows ← p.ownRows id parentRow (items.map fun (k, value) => [(keyCol, k), (valCol, value)])
  pure (some rows, id)

/-- `_populate_translator_data_vdict`, for other translators: the loop over the items. -/
def populateVdictLoop (keyCol valCol : String) (sub : SubTranslator O) :
    List (O × O) → Option (List (TableRow O) × List (List (String × O)))
  | [] => some ([], [])
  | (k, o) :: items => do
    let (tuples, rowHash) ← sub.convert py o (some [(keyCol, k)])
    let (rows, cells) ← populateVdictLoop keyCol valCol sub items
    let value := if sub.hasId then [(valCol, rowHash.getD py.pyNone)] else []
    pure (tuples.getD [] ++ rows, ((keyCol, k) :: value) :: cells)

def populateVdict (p : Params O) (keyCol valCol : String) (sub : SubTranslator O) (obj : O)
    (parentRow : Option (ParentRow O)) : Option (Converted O) := do
  let (rows, cells) ← populateVdictLoop py keyCol valCol sub (← py.items obj)
  let id ← p.rowId py (some obj) (cells.map fun row => py.tuple (row.map Prod.snd))
  let own ← p.ownRows id parentRow cells
  pure (some (rows ++ own), id)

/-- `_get_value`. -/
def getValue (selector : Selector) (o : O) (field : String) : Option O :=
  match selector with
  | .dot => py.getattr o field
  | .dict => py.getitem o field

/-- A field translator with what it does: a value is extracted, or an object converted. -/
structure FieldStep (O : Type) where
  field : Field
  hasParentKey : Bool
  step : ValueParams O ⊕ SubTranslator O

/-- The loop of `_populate_hdict`: the rows of tables below, and the row so far. -/
def populateFields (selector : Selector) (obj : O) :
    List (FieldStep O) → ParentRow O → Option (List (TableRow O) × ParentRow O)
  | [], row => some ([], row)
  | f :: fields, row => do
    let value ← getValue py selector obj f.field.fieldname
    match f.step with
    | .inl v =>
      let value ← extractValue py v value
      populateFields selector obj fields ((f.field.column, value) :: row)
    | .inr sub =>
      let (tuples, rowHash) ← sub.convert py value (some row)
      -- extending by `None` raises
      let tuples ← tuples
      let (rows, row) ← populateFields selector obj fields
        (if sub.hasId then (f.field.column, rowHash.getD py.pyNone) :: row else row)
      pure (tuples ++ rows, row)

/-- The row of an `HDICT` starts with the value of the parent key, if there is a row above. -/
def Params.startRow (p : Params O) (parentRow : Option (ParentRow O)) : Option (ParentRow O) :=
  match parentRow, p.parent? with
  | some (cell :: cells), some key =>
    (List.lookup key (cell :: cells)).map fun v => [(p.parentCol, v)]
  | _, _ => some []

/-- The cell before those of the fields. -/
def Params.hdictKey (p : Params O) (id : Option O) (row : ParentRow O) :
    Option (List (String × O)) :=
  match id, p.parent? with
  | some h, _ => some [(IdCol.colName p.idCol, h)]
  | none, some _ => (row.lookup p.parentCol).map fun v => [(p.parentCol, v)]
  | none, none => some []

/-- `_populate_hdict` and `_format_results_to_hdict`. -/
def populateHdict (p : Params O) (selector : Selector) (fields : List (FieldStep O)) (obj : O)
    (parentRow : Option (ParentRow O)) : Option (List (TableRow O) × Option O) := do
  let start ← p.startRow parentRow
  let (rows, row) ← populateFields py selector obj (sortFields (·.hasParentKey) fields) start
  let cells := fields.filterMap fun f => (row.lookup f.field.column).map (f.field.column, ·)
  let id ← p.rowId py (some obj) (cells.map Prod.snd)
  let key ← p.hdictKey id row
  pure (rows ++ [(p.tableName, key ++ cells)], id)

/-- The loop of `_populate_translator_data_hdict` over a list. -/
def populateInList (populate : O → Option (List (TableRow O) × Option O)) :
    List O → Option O → Option (List (TableRow O) × Option O)
  | [], last => some ([], last)
  | o :: os, _ => do
    let (rows, h) ← populate o
    let (rest, last) ← populateInList populate os h
    pure (rows ++ rest, last)

mutual

/-- `convert_obj`. -/
def Translator.convertObj : Translator O → O → Option (ParentRow O) → Option (Converted O)
  | .value _, obj, _ => if py.isNone obj then some (none, none) else none
  | .list p valCol _ sub, obj, parentRow =>
    if py.isNone obj then some (none, none)
    else
      match sub with
      | .value v => populateListValues py p valCol v obj parentRow
      | sub => populateList py p valCol
          ⟨sub.hasId, sub.objectsExtractFn, fun o row => sub.convertObj o row⟩ obj parentRow
  | .vdict p keyCol valCol sub, obj, parentRow =>
    if py.isNone obj then some (none, none)
    else
      match sub with
      | .value v => populateVdictValues py p keyCol valCol v obj parentRow
      | sub => populateVdict py p keyCol valCol
          ⟨sub.hasId, sub.objectsExtractFn, fun o row => sub.convertObj o row⟩ obj parentRow
  | .hdict p selector inList fields, obj, parentRow =>
    if py.isNone obj then some (none, none)
    else if inList then do
      let (rows, h) ← populateInList (fun o => populateHdict py p selector (fieldSteps fields) o parentRow)
        (← py.iter obj) none
      pure (some rows, h)
    else (populateHdict py p selector (fieldSteps fields) obj parentRow).map fun (rows, h) =>
      (some rows, h)

def fieldSteps : List (Field × Translator O) → List (FieldStep O)
  | [] => []
  | (f, tr) :: fields =>
    { field := f
      hasParentKey := tr.parentKey.isSome
      step := match tr with
        | .value v => .inl v
        | tr => .inr ⟨tr.hasId, tr.objectsExtractFn, fun o row => tr.convertObj o row⟩ }
      :: fieldSteps fields

end

end Conversion

end Congress.Datasource
