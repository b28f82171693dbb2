import Congress.Translators

/-!
# Rows fit the declared schema

If the translators of a tree fit together and an object is one that they describe, then the object can be
converted, and each row has a value for each of the columns that the schema has for its table, in their
order (`convertObj_fits`).
-/

namespace Congress.Datasource

set_option linter.unusedSectionVars false

variable {O : Type} {py : Python O} {Serializable : O → Prop}

/-- Hashing works for what has JSON, and gives an id, which has JSON itself. -/
structure Python.Hashes (py : Python O) (Serializable : O → Prop) : Prop where
  pyNone : Serializable py.pyNone
  id : ∀ o, py.isId o → Serializable o
  tuple : ∀ os, (∀ o ∈ os, Serializable o) → Serializable (py.tuple os)
  hash : ∀ os, (∀ o ∈ os, Serializable o) → ∃ h, py.computeHash os = some h ∧ py.isId h ∧ py.truthy h

/-! ## Translators that fit together -/

namespace Params

variable (p : Params O)

/-- No name is empty. -/
def Named : Prop := p.idCol ≠ some (.name "") ∧ p.parentKey ≠ some ""

/-- The name of the column for the parent key, if there is one. -/
def parentNames : List String := p.parentKey.toList.map fun _ => p.parentCol

/-- The names of the columns a row starts with. -/
def keyNames : List String :=
  if p.idCol.isSome then [IdCol.colName p.idCol]
  else if p.parentKey.isSome then [p.parentCol] else []

end Params

def Translator.isValue : Translator O → Bool
  | .value _ => true
  | _ => false

/-- The columns of an `HDICT` that a parent key below it can name. -/
def columnsBelow (p : Params O) (fields : List (Field × Translator O)) : List String :=
  p.parentNames ++ (fields.filter (·.2.parentKey.isNone)).map (·.1.column)

mutual

/-- Below a `LIST` a translator has an id, and below the others it has one or a parent key that is one
of the columns; a field of an `HDICT` that has no column there does not share the name of one. -/
def Translator.WellFormed : Translator O → Prop
  | .value _ => True
  | .list p _ _ sub => p.Named ∧ sub.WellFormed ∧ (sub.isValue ∨ sub.hasId)
  | .vdict p keyCol _ sub =>
    p.Named ∧ sub.WellFormed ∧ (sub.isValue ∨ sub.hasId ∨ sub.parentKey = some keyCol)
  | .hdict p _ _ fields => p.Named ∧ FieldsWellFormed (columnsBelow p fields) fields

def FieldsWellFormed (columns : List String) : List (Field × Translator O) → Prop
  | [] => True
  | (f, tr) :: fields => tr.WellFormed
    ∧ (tr.isValue ∨ tr.hasId ∨ ∃ key, tr.parentKey = some key ∧ key ∈ columns ∧ f.column ∉ columns)
    ∧ FieldsWellFormed columns fields

end

/-! ## Objects that are described -/

/-- A function that computes ids gives one for the object, which is not false. -/
def Params.IdOk (py : Python O) (p : Params O) (o : O) : Prop :=
  ∀ f, p.idCol = some (.function f) → ∃ i, f o = some i ∧ py.isId i ∧ py.truthy i

/-- An object that a translator has an id for is not a list of none. -/
def Translator.NotEmpty (py : Python O) : Translator O → O → Prop
  | .hdict _ _ true _, o => py.iter o ≠ some []
  | _, _ => True

/-- What is extracted from an object. -/
def Translator.extract (py : Python O) (tr : Translator O) (o : O) : Option O :=
  if py.isNone o then some o
  else
    match tr.objectsExtractFn with
    | some f => f o
    | none => some o

mutual

/-- A translator describes an object: what it reads of it is there, values have JSON, and functions give
ids. A `LIST` with an id of other than values is not empty. -/
def Translator.Describes (py : Python O) (Serializable : O → Prop) : Translator O → O → Prop
  | .value v, o => ∃ value, extractValue py v o = some value ∧ Serializable value
  | .list p _ _ sub, o => py.isNone o ∨ ∃ os, py.iter o = some os
    ∧ if sub.isValue then p.IdOk py o ∧ ∀ x ∈ os, sub.Describes py Serializable x
      else (p.idCol.isSome → os ≠ []) ∧ ∀ x ∈ os, ∃ x', sub.extract py x = some x' ∧ p.IdOk py x'
        ∧ (py.isNone x ∨ py.isNone x' = false ∧ sub.Describes py Serializable x' ∧ sub.NotEmpty py x')
  | .vdict p _ _ sub, o => py.isNone o ∨ ∃ items, py.items o = some items ∧ p.IdOk py o
    ∧ ∀ item ∈ items, Serializable item.1
      ∧ if sub.isValue then sub.Describes py Serializable item.2
        else ∃ x, sub.extract py item.2 = some x ∧ (py.isNone x ∨ sub.Describes py Serializable x)
  | .hdict p selector inList fields, o => py.isNone o ∨
    if inList then ∃ os, py.iter o = some os
      ∧ ∀ x ∈ os, p.IdOk py x ∧ FieldsDescribe py Serializable selector fields x
    else p.IdOk py o ∧ FieldsDescribe py Serializable selector fields o

def FieldsDescribe (py : Python O) (Serializable : O → Prop) (selector : Selector) :
    List (Field × Translator O) → O → Prop
  | [], _ => True
  | (f, tr) :: fields, o => (∃ v, getValue py selector o f.fieldname = some v
      ∧ if tr.isValue then tr.Describes py Serializable v
        else py.isNone v ∨ ∃ x, tr.extract py v = some x ∧ py.isNone x = false
          ∧ tr.Describes py Serializable x)
    ∧ FieldsDescribe py Serializable selector fields o

end

/-! ## Schemas -/

section Schemas

variable {S S' S₁ S₂ : TableSchemas} {table : String} {columns : List Column}

/-- A schema that has the tables of another one. -/
def Extends (S S' : TableSchemas) : Prop :=
  ∀ table columns, S.lookup table = some columns → S'.lookup table = some columns

theorem Extends.refl (S : TableSchemas) : Extends S S := fun _ _ h => h

theorem Extends.trans (h : Extends S S₁) (h' : Extends S₁ S') : Extends S S' :=
  fun table columns hl => h' table columns (h table columns hl)

/-- The cells of a row are for the columns of its table. -/
def Fits (S : TableSchemas) (row : TableRow O) : Prop :=
  ∃ columns, S.lookup row.1 = some columns ∧ row.2.map Prod.fst = columns.map (·.name)

instance (S : TableSchemas) (row : TableRow O) : Decidable (Fits S row) :=
  decidable_of_iff ((S.lookup row.1).map (·.map (·.name)) = some (row.2.map Prod.fst)) (by
    unfold Fits
    rw [Option.map_eq_some_iff]
    exact exists_congr fun columns => and_congr_right fun _ => eq_comm)

theorem Fits.mono {row : TableRow O} (h : Extends S S') (hf : Fits S row) : Fits S' row := by
  obtain ⟨columns, hl, hn⟩ := hf
  exact ⟨columns, h _ _ hl, hn⟩

theorem addTable_some (h : addTable S table columns = some S') :
    Extends S S' ∧ S'.lookup table = some columns := by
  unfold addTable at h
  split_ifs at h with hmem
  cases h
  refine ⟨fun t c hl => ?_, AList.lookup_insert S⟩
  rw [AList.lookup_insert_ne]
  · exact hl
  · rintro rfl
    exact hmem (AList.lookup_isSome.1 (by rw [hl]; rfl))

theorem getSchemaFields_some {colType : String → Option (Option String)} :
    ∀ {fields : List FieldSchema} {S : TableSchemas},
    (∀ f ∈ fields, ∀ S type S', f.getSchema S type = some S' → Extends S S') →
    getSchemaFields colType fields S = some S' →
    Extends S S' ∧ ∀ f ∈ fields, ∃ S₁ type S₂, f.getSchema S₁ type = some S₂ ∧ Extends S₂ S'
  | [], S, _, h => by
    cases h
    exact ⟨.refl _, by simp⟩
  | f :: fields, S, hext, h => by
    obtain ⟨S₁, hone, hrest⟩ := Option.bind_eq_some_iff.1 h
    obtain ⟨type, hone⟩ : ∃ type, f.getSchema S type = some S₁ := by
      rcases hk : f.parentKey with _ | key <;> rw [hk] at hone
      · exact ⟨none, hone⟩
      · obtain ⟨type, -, hone⟩ := Option.bind_eq_some_iff.1 hone
        exact ⟨type, hone⟩
    obtain ⟨hrest, hmem⟩ := getSchemaFields_some (fun f hf => hext f (List.mem_cons_of_mem _ hf)) hrest
    refine ⟨(hext f (List.mem_cons_self ..) S type S₁ hone).trans hrest,
      List.forall_mem_cons.2 ⟨⟨S, type, S₁, hone, hrest⟩, hmem⟩⟩

theorem mem_sortFields {A : Type} {hasParentKey : A → Bool} {fields : List A} {f : A} :
    f ∈ sortFields hasParentKey fields ↔ f ∈ fields := by
  unfold sortFields
  rw [List.mem_append, List.mem_filter, List.mem_filter]
  rcases hasParentKey f <;> simp

mutual

theorem Translator.getSchema_extends : ∀ (tr : Translator O) {S : TableSchemas} {type : Option String}
    {S' : TableSchemas}, tr.getSchema S type = some S' → Extends S S'
  | .value _, S, type, S', h => by
    cases h
    exact .refl S
  | .list p valCol desc sub, S, type, S', h => by
    obtain ⟨S₁, hsub, h⟩ := Option.bind_eq_some_iff.1 h
    exact (sub.getSchema_extends hsub).trans (addTable_some h).1
  | .vdict p keyCol valCol sub, S, type, S', h => by
    obtain ⟨S₁, hsub, h⟩ := Option.bind_eq_some_iff.1 h
    exact (sub.getSchema_extends hsub).trans (addTable_some h).1
  | .hdict p selector inList fields, S, type, S', h => by
    obtain ⟨S₁, hsub, h⟩ := Option.bind_eq_some_iff.1 h
    exact (getSchemaFields_some (fun f hf => fieldSchemas_extends fields f (mem_sortFields.1 hf))
      hsub).1.trans (addTable_some h).1

theorem fieldSchemas_extends : ∀ (fields : List (Field × Translator O)), ∀ f ∈ fieldSchemas fields,
    ∀ S type S', f.getSchema S type = some S' → Extends S S'
  | [], f, hf => by simp [fieldSchemas] at hf
  | (_, tr) :: fields, f, hf => by
    rcases List.mem_cons.1 hf with rfl | hf
    · exact fun S type S' h => tr.getSchema_extends h
    · exact fieldSchemas_extends fields f hf

end

end Schemas

/-! ## Rows -/

section Rows

variable {p : Params O} {id : Option O} {parentRow : Option (ParentRow O)} {S : TableSchemas}

/-- The row above has a value for the parent key. -/
def Params.HasParent (p : Params O) (parentRow : Option (ParentRow O)) : Prop :=
  ∀ key, p.parentKey = some key → ∃ row v, parentRow = some row ∧ row.lookup key = some v

theorem Params.Named.id? (h : p.Named) : p.id? = p.idCol := by
  unfold Params.id?
  rcases hc : p.idCol with _ | ⟨s⟩ | f
  · rfl
  · rw [Option.filter_some, if_pos]
    have hne : s ≠ "" := by
      rintro rfl
      exact h.1 hc
    simp [IdCol.truthy, hne]
  · rfl

theorem Params.Named.parent? (h : p.Named) : p.parent? = p.parentKey := by
  unfold Params.parent?
  rcases hk : p.parentKey with _ | key
  · rfl
  · rw [Option.filter_some, if_pos]
    have hne : key ≠ "" := by
      rintro rfl
      exact h.2 hk
    simp [hne]

theorem useTable_some {tables tables' : List String} (h : useTable p tables = some tables') :
    ¬ (p.parent?.isSome ∧ p.id?.isSome) := by
  unfold useTable at h
  split_ifs at h with hboth
  simpa using hboth

theorem mapM_some_eq_map {A B : Type*} (g : A → B) : ∀ as : List A,
    as.mapM (fun a => some (g a)) = some (as.map g)
  | [] => rfl
  | a :: as => by
    rw [List.mapM_cons, mapM_some_eq_map g as]
    rfl

theorem Params.Named.rowId (h : p.Named) (hh : py.Hashes Serializable) (obj : Option O) {args : List O}
    (hobj : p.idCol.isSome → ∃ o, obj = some o ∧ p.IdOk py o) (hargs : ∀ a ∈ args, Serializable a) :
    ∃ id, p.rowId py obj args = some id ∧ id.isSome = p.idCol.isSome
      ∧ ∀ i, id = some i → py.isId i ∧ py.truthy i := by
  unfold Params.rowId
  rw [h.id?]
  rcases hc : p.idCol with _ | c
  · exact ⟨none, rfl, rfl, by simp⟩
  obtain ⟨o, rfl, hok⟩ := hobj (by rw [hc]; rfl)
  obtain ⟨i, hi, hid, htrue⟩ : ∃ i, computeId py c o args = some i ∧ py.isId i ∧ py.truthy i := by
    unfold computeId
    rcases c with s | f
    · obtain ⟨i, hi, hid, htrue⟩ := hh.hash args hargs
      exact ⟨i, by simp [hi, hid], hid, htrue⟩
    · obtain ⟨i, hi, hid, htrue⟩ := hok f hc
      exact ⟨i, by simp [hi, hid], hid, htrue⟩
  exact ⟨some i, by simp [hi], rfl, by rintro _ ⟨⟩; exact ⟨hid, htrue⟩⟩

theorem Params.Named.keyCells (h : p.Named) (hid : id.isSome = p.idCol.isSome)
    (hparent : p.HasParent parentRow) :
    ∃ cells, p.keyCells id parentRow = some cells ∧ cells.map Prod.fst = p.keyNames := by
  unfold Params.keyCells Params.keyNames
  rw [← hid, h.parent?]
  rcases id with _ | i
  · rcases hk : p.parentKey with _ | key
    · exact ⟨[], rfl, rfl⟩
    · obtain ⟨row, v, rfl, hv⟩ := hparent key hk
      exact ⟨[(p.parentCol, v)], by simp [hv], rfl⟩
  · exact ⟨_, rfl, rfl⟩

/-- Rows of the own table, if what is behind the key has the right names. -/
theorem Params.Named.ownRows (h : p.Named) (hid : id.isSome = p.idCol.isSome)
    (hparent : p.HasParent parentRow) {rows : List (List (String × O))} {names : List String}
    (hrows : ∀ row ∈ rows, row.map Prod.fst = names) {columns : List Column}
    (hl : S.lookup p.tableName = some columns) (hc : columns.map (·.name) = p.keyNames ++ names) :
    ∃ own, p.ownRows id parentRow rows = some own ∧ ∀ row ∈ own, Fits S row := by
  obtain ⟨key, hkey, hnames⟩ := h.keyCells hid hparent
  refine ⟨rows.map fun row => (p.tableName, key ++ row), ?_, ?_⟩
  · unfold Params.ownRows
    rw [hkey]
    exact mapM_some_eq_map _ rows
  · intro row hrow
    obtain ⟨cells, hcells, rfl⟩ := List.mem_map.1 hrow
    exact ⟨columns, hl, by rw [List.map_append, hnames, hrows cells hcells, hc]⟩

theorem mapM_values {A B : Type} {f : A → Option B} {P : B → Prop} : ∀ {as : List A},
    (∀ a ∈ as, ∃ v, f a = some v ∧ P v) → ∃ vs, as.mapM f = some vs ∧ ∀ v ∈ vs, P v
  | [], _ => ⟨[], rfl, by simp⟩
  | a :: as, h => by
    obtain ⟨v, hv, hP⟩ := h a (List.mem_cons_self ..)
    obtain ⟨vs, hvs, hPs⟩ := mapM_values fun a ha => h a (List.mem_cons_of_mem _ ha)
    exact ⟨v :: vs, by simp [List.mapM_cons, hv, hvs], List.forall_mem_cons.2 ⟨hP, hPs⟩⟩

/-- What is converted fits the schema, and its id is one. -/
structure Converted.Good (py : Python O) (S : TableSchemas) (c : Converted O) : Prop where
  fits : ∀ row ∈ c.1.getD [], Fits S row
  id : ∀ i, c.2 = some i → py.isId i ∧ py.truthy i

/-- The rows of a `LIST` or `VDICT`: those below, and its own. -/
theorem Params.Named.converted (h : p.Named) (hid : id.isSome = p.idCol.isSome)
    (hids : ∀ i, id = some i → py.isId i ∧ py.truthy i) (hparent : p.HasParent parentRow)
    {below : List (TableRow O)} (hbelow : ∀ row ∈ below, Fits S row)
    (cells : List (List (String × O))) (names : List String)
    (hcells : ∀ row ∈ cells, row.map Prod.fst = names) {columns : List Column}
    (hl : S.lookup p.tableName = some columns) (hc : columns.map (·.name) = p.keyNames ++ names) :
    ∃ own, p.ownRows id parentRow cells = some own
      ∧ Converted.Good py S (some (below ++ own), id) := by
  obtain ⟨own, hown, hfits⟩ := h.ownRows hid hparent hcells hl hc
  refine ⟨own, hown, fun row hrow => ?_, hids⟩
  rcases List.mem_append.1 hrow with hrow | hrow
  · exact hbelow row hrow
  · exact hfits row hrow

theorem populateListValues_good (h : p.Named) (hh : py.Hashes Serializable) {valCol : String}
    {v : ValueParams O} {o : O} {os : List O} (hiter : py.iter o = some os) (hok : p.IdOk py o)
    (hos : ∀ x ∈ os, ∃ value, extractValue py v x = some value ∧ Serializable value)
    (hparent : p.HasParent parentRow) {columns : List Column}
    (hl : S.lookup p.tableName = some columns) (hc : columns.map (·.name) = p.keyNames ++ [valCol]) :
    ∃ rows id, populateListValues py p valCol v o parentRow = some (some rows, id)
      ∧ id.isSome = p.idCol.isSome ∧ Converted.Good py S (some rows, id) := by
  obtain ⟨values, hvalues, hser⟩ := mapM_values hos
  obtain ⟨id, hrow, hid, hids⟩ := h.rowId hh (some o) (fun _ => ⟨o, rfl, hok⟩) hser
  obtain ⟨key, hkey, -⟩ := h.keyCells hid hparent
  obtain ⟨own, hown, hgood⟩ := h.converted hid hids hparent (List.forall_mem_nil _)
    (values.map fun value => [(valCol, value)]) [valCol] (by simp) hl hc
  refine ⟨own, id, ?_, hid, hgood⟩
  simp [populateListValues, hiter, hvalues, hrow, hkey, hown]

theorem populateVdictValues_good (h : p.Named) (hh : py.Hashes Serializable) {keyCol valCol : String}
    {v : ValueParams O} {o : O} {items : List (O × O)} (hitems : py.items o = some items)
    (hok : p.IdOk py o) (hser : ∀ item ∈ items, Serializable item.1
      ∧ ∃ value, extractValue py v item.2 = some value ∧ Serializable value)
    (hparent : p.HasParent parentRow) {columns : List Column}
    (hl : S.lookup p.tableName = some columns)
    (hc : columns.map (·.name) = p.keyNames ++ [keyCol, valCol]) :
    ∃ rows id, populateVdictValues py p keyCol valCol v o parentRow = some (some rows, id)
      ∧ id.isSome = p.idCol.isSome ∧ Converted.Good py S (some rows, id) := by
  obtain ⟨values, hvalues, hvser⟩ := mapM_values
    (f := fun item : O × O => (extractValue py v item.2).map (item.1, ·))
    (P := fun item => Serializable item.1 ∧ Serializable item.2) fun item hitem => by
      obtain ⟨hk, value, hvalue, hs⟩ := hser item hitem
      exact ⟨(item.1, value), by rw [hvalue]; rfl, hk, hs⟩
  have hargs : ∀ a ∈ values.map fun (item : O × O) => py.tuple [item.1, item.2], Serializable a := by
    intro a ha
    obtain ⟨item, hitem, rfl⟩ := List.mem_map.1 ha
    exact hh.tuple _ (by simpa using hvser item hitem)
  obtain ⟨id, hrow, hid, hids⟩ := h.rowId hh (some o) (fun _ => ⟨o, rfl, hok⟩) hargs
  obtain ⟨key, hkey, -⟩ := h.keyCells hid hparent
  obtain ⟨own, hown, hgood⟩ := h.converted hid hids hparent (List.forall_mem_nil _)
    (values.map fun item => [(keyCol, item.1), (valCol, item.2)]) [keyCol, valCol] (fun row hrow => by
      obtain ⟨item, -, rfl⟩ := List.mem_map.1 hrow
      rfl) hl hc
  refine ⟨own, id, ?_, hid, hgood⟩
  simp [populateVdictValues, hitems, hvalues, hrow, hkey, hown]

variable {sub : SubTranslator O}

theorem populateListLoop_good (hid : sub.hasId) : ∀ {os : List O} (last : Option O),
    (∀ x ∈ os, ∃ tuples h left, sub.convert py x none = some (tuples, some h)
      ∧ sub.extract py x = some left ∧ Converted.Good py S (tuples, some h)) →
    ∃ rows hashes last', populateListLoop py sub os last = some (rows, hashes, last')
      ∧ (∀ row ∈ rows, Fits S row) ∧ (∀ h ∈ hashes, py.isId h)
      ∧ (os ≠ [] → ∃ x ∈ os, ∃ left, sub.extract py x = some left ∧ last' = some left)
  | [], last, _ => ⟨[], [], last, rfl, by simp, by simp, fun h => absurd rfl h⟩
  | x :: os, last, h => by
    obtain ⟨tuples, hash, left, hconvert, hleft, hgood⟩ := h x (List.mem_cons_self ..)
    obtain ⟨rows, hashes, last', hloop, hfits, hids, hlast⟩ :=
      populateListLoop_good hid (some left) fun x hx => h x (List.mem_cons_of_mem _ hx)
    obtain ⟨hisId, htrue⟩ := hgood.id hash rfl
    refine ⟨tuples.getD [] ++ rows, hash :: hashes, last', ?_, ?_,
      List.forall_mem_cons.2 ⟨hisId, hids⟩, fun _ => ?_⟩
    · simp [populateListLoop, hconvert, htrue, hid, hleft, hloop]
    · intro row hrow
      rcases List.mem_append.1 hrow with hrow | hrow
      · exact hgood.fits row hrow
      · exact hfits row hrow
    · rcases os with _ | ⟨y, os⟩
      · cases hloop
        exact ⟨x, List.mem_cons_self .., left, hleft, rfl⟩
      · obtain ⟨z, hz, hlast⟩ := hlast (by simp)
        exact ⟨z, List.mem_cons_of_mem _ hz, hlast⟩

theorem populateList_good (h : p.Named) (hh : py.Hashes Serializable) {valCol : String} {o : O}
    {os : List O} (hiter : py.iter o = some os) (hnotEmpty : p.idCol.isSome → os ≠ [])
    (hid : sub.hasId) (hos : ∀ x ∈ os, ∃ tuples h left, sub.convert py x none = some (tuples, some h)
      ∧ sub.extract py x = some left ∧ p.IdOk py left ∧ Converted.Good py S (tuples, some h))
    (hparent : p.HasParent parentRow) {columns : List Column}
    (hl : S.lookup p.tableName = some columns) (hc : columns.map (·.name) = p.keyNames ++ [valCol]) :
    ∃ rows id, populateList py p valCol sub o parentRow = some (some rows, id)
      ∧ id.isSome = p.idCol.isSome ∧ Converted.Good py S (some rows, id) := by
  obtain ⟨rows, hashes, last, hloop, hfits, hids, hlast⟩ := populateListLoop_good hid none
    fun x hx => by
      obtain ⟨tuples, h, left, hconvert, hleft, -, hgood⟩ := hos x hx
      exact ⟨tuples, h, left, hconvert, hleft, hgood⟩
  obtain ⟨id, hrow, hidSome, hidOk⟩ := h.rowId hh last (fun hsome => by
    obtain ⟨x, hx, left, hleft, rfl⟩ := hlast (hnotEmpty hsome)
    obtain ⟨tuples, h, left', -, hleft', hok, -⟩ := hos x hx
    cases hleft.symm.trans hleft'
    exact ⟨left, rfl, hok⟩) fun a ha => hh.id a (hids a ha)
  obtain ⟨own, hown, hgood⟩ := h.converted hidSome hidOk hparent hfits
    (hashes.map fun h => [(valCol, h)]) [valCol] (by simp) hl hc
  refine ⟨rows ++ own, id, ?_, hidSome, hgood⟩
  simp [populateList, hiter, hloop, hrow, hown]

theorem populateVdictLoop_good (hh : py.Hashes Serializable) (keyCol valCol : String) :
    ∀ {items : List (O × O)}, (∀ item ∈ items, Serializable item.1
      ∧ ∃ c, sub.convert py item.2 (some [(keyCol, item.1)]) = some c ∧ Converted.Good py S c) →
    ∃ rows cells, populateVdictLoop py keyCol valCol sub items = some (rows, cells)
      ∧ (∀ row ∈ rows, Fits S row)
      ∧ (∀ row ∈ cells, row.map Prod.fst = keyCol :: if sub.hasId then [valCol] else [])
      ∧ ∀ row ∈ cells, ∀ cell ∈ row, Serializable cell.2
  | [], _ => ⟨[], [], rfl, by simp, by simp, by simp⟩
  | (k, o) :: items, h => by
    obtain ⟨hk, ⟨tuples, rowHash⟩, hconvert, hgood⟩ := h (k, o) (List.mem_cons_self ..)
    obtain ⟨rows, cells, hloop, hfits, hnames, hser⟩ :=
      populateVdictLoop_good hh keyCol valCol fun item hitem => h item (List.mem_cons_of_mem _ hitem)
    have hhash : Serializable (rowHash.getD py.pyNone) := by
      rcases rowHash with _ | i
      · exact hh.pyNone
      · exact hh.id i (hgood.id i rfl).1
    refine ⟨tuples.getD [] ++ rows, _, by simp only [populateVdictLoop, hconvert, hloop]; rfl, ?_, ?_, ?_⟩
    · intro row hrow
      rcases List.mem_append.1 hrow with hrow | hrow
      · exact hgood.fits row hrow
      · exact hfits row hrow
    · refine List.forall_mem_cons.2 ⟨?_, hnames⟩
      rcases sub.hasId <;> rfl
    · refine List.forall_mem_cons.2 ⟨?_, hser⟩
      rcases sub.hasId <;> simp [hk, hhash]

theorem populateVdict_good (h : p.Named) (hh : py.Hashes Serializable) {keyCol valCol : String} {o : O}
    {items : List (O × O)} (hitems : py.items o = some items) (hok : p.IdOk py o)
    (hser : ∀ item ∈ items, Serializable item.1
      ∧ ∃ c, sub.convert py item.2 (some [(keyCol, item.1)]) = some c ∧ Converted.Good py S c)
    (hparent : p.HasParent parentRow) {columns : List Column}
    (hl : S.lookup p.tableName = some columns)
    (hc : columns.map (·.name) = p.keyNames ++ keyCol :: if sub.hasId then [valCol] else []) :
    ∃ rows id, populateVdict py p keyCol valCol sub o parentRow = some (some rows, id)
      ∧ id.isSome = p.idCol.isSome ∧ Converted.Good py S (some rows, id) := by
  obtain ⟨rows, cells, hloop, hfits, hnames, hcells⟩ := populateVdictLoop_good hh keyCol valCol hser
  have hargs : ∀ a ∈ cells.map fun row => py.tuple (row.map Prod.snd), Serializable a := by
    intro a ha
    obtain ⟨row, hrow, rfl⟩ := List.mem_map.1 ha
    refine hh.tuple _ fun v hv => ?_
    obtain ⟨cell, hcell, rfl⟩ := List.mem_map.1 hv
    exact hcells row hrow cell hcell
  obtain ⟨id, hrow, hid, hids⟩ := h.rowId hh (some o) (fun _ => ⟨o, rfl, hok⟩) hargs
  obtain ⟨own, hown, hgood⟩ := h.converted hid hids hparent hfits cells _ hnames hl hc
  refine ⟨rows ++ own, id, ?_, hid, hgood⟩
  simp [populateVdict, hitems, hloop, hrow, hown]

end Rows

/-! ## Fields of an `HDICT` -/

section Fields

variable {p : Params O} {id : Option O} {parentRow : Option (ParentRow O)} {S : TableSchemas}
  {selector : Selector} {o : O} {columns : List String}

namespace FieldStep

/-- The field has a column in the row. -/
def writes (f : FieldStep O) : Bool :=
  match f.step with
  | .inl _ => true
  | .inr sub => sub.hasId

/-- The field of the object can be done, with a row that has the columns a parent key can name. -/
def Ok (py : Python O) (Serializable : O → Prop) (S : TableSchemas) (selector : Selector) (o : O)
    (columns : List String) (f : FieldStep O) : Prop :=
  ∃ v, getValue py selector o f.field.fieldname = some v ∧
    match f.step with
    | .inl vp => ∃ value, extractValue py vp v = some value ∧ Serializable value
    | .inr sub => ∀ row : ParentRow O,
      (f.hasParentKey → ∀ c ∈ columns, (row.lookup c).isSome) →
        ∃ rows h, sub.convert py v (some row) = some (some rows, h)
          ∧ Converted.Good py S (some rows, h)

/-- Where a field has a parent key, the columns are there by then. -/
def Ready (columns : List String) : List String → List (FieldStep O) → Prop
  | _, [] => True
  | known, f :: fields => (f.hasParentKey → ∀ c ∈ columns, c ∈ known)
    ∧ Ready columns (if f.writes then f.field.column :: known else known) fields

theorem ready_of_known : ∀ {fields : List (FieldStep O)} {known : List String},
    (∀ c ∈ columns, c ∈ known) → Ready columns known fields
  | [], _, _ => trivial
  | f :: fields, known, h => by
    refine ⟨fun _ => h, ready_of_known fun c hc => ?_⟩
    split_ifs
    · exact List.mem_cons_of_mem _ (h c hc)
    · exact h c hc

/-- Fields lacking a parent key come first, so that those with one find the columns. -/
theorem ready_append {after : List (FieldStep O)} : ∀ {before : List (FieldStep O)}
    {known : List String}, (∀ f ∈ before, f.hasParentKey = false) →
    (∀ c ∈ columns, c ∈ known ∨ ∃ f ∈ before, f.writes ∧ f.field.column = c) →
    Ready columns known (before ++ after)
  | [], known, _, h => ready_of_known fun c hc => by simpa using h c hc
  | f :: before, known, hbefore, h => by
    have hf := hbefore f (List.mem_cons_self ..)
    refine ⟨fun hkey => absurd hkey (by simp [hf]),
      ready_append (fun f hf => hbefore f (List.mem_cons_of_mem _ hf)) fun c hc => ?_⟩
    rcases h c hc with hknown | ⟨f', hf', hw, rfl⟩
    · left
      split_ifs
      · exact List.mem_cons_of_mem _ hknown
      · exact hknown
    · rcases List.mem_cons.1 hf' with rfl | hf'
      · left
        rw [if_pos hw]
        exact List.mem_cons_self ..
      · exact .inr ⟨f', hf', hw, rfl⟩

end FieldStep

open FieldStep

theorem lookup_cons_isSome {c c' : String} {v : O} {row : ParentRow O} :
    (List.lookup c ((c', v) :: row)).isSome ↔ c' = c ∨ (row.lookup c).isSome := by
  rw [List.lookup_cons]
  by_cases hc : c = c'
  · simp [hc]
  · simp [Ne.symm hc, beq_eq_false_iff_ne.2 hc]

theorem populateFields_good (hh : py.Hashes Serializable) : ∀ {fields : List (FieldStep O)}
    (row : ParentRow O) {known : List String}, (∀ f ∈ fields, f.Ok py Serializable S selector o columns) →
    Ready columns known fields → (∀ c, c ∈ known ↔ (row.lookup c).isSome) →
    ∃ rows row', populateFields py selector o fields row = some (rows, row')
      ∧ (∀ r ∈ rows, Fits S r)
      ∧ (∀ c, (row'.lookup c).isSome ↔ c ∈ known ∨ ∃ f ∈ fields, f.writes ∧ f.field.column = c)
      ∧ ((∀ c v, row.lookup c = some v → Serializable v) →
        ∀ c v, row'.lookup c = some v → Serializable v)
  | [], row, known, _, _, hknown => ⟨[], row, rfl, by simp, by simp [hknown], fun h => h⟩
  | f :: fields, row, known, hok, hready, hknown => by
    obtain ⟨v, hv, hstep⟩ := hok f (List.mem_cons_self ..)
    -- the field's rows, and what it makes of the row
    obtain ⟨rows, row₁, hdo, hfits, hlookup, hser⟩ : ∃ rows row₁,
        populateFields py selector o (f :: fields) row
            = (populateFields py selector o fields row₁).map (fun r => (rows ++ r.1, r.2))
          ∧ (∀ r ∈ rows, Fits S r)
          ∧ (∀ c, (row₁.lookup c).isSome ↔ (f.writes ∧ f.field.column = c) ∨ (row.lookup c).isSome)
          ∧ ((∀ c v, row.lookup c = some v → Serializable v) →
            ∀ c v, row₁.lookup c = some v → Serializable v) := by
      have hcons : ∀ {value : O}, Serializable value →
          (∀ c v, row.lookup c = some v → Serializable v) →
          ∀ c v, List.lookup c ((f.field.column, value) :: row) = some v → Serializable v := by
        intro value hvalue hrow c v hl
        rw [List.lookup_cons] at hl
        split at hl
        · cases hl
          exact hvalue
        · exact hrow c v hl
      rcases hf : f.step with vp | sub <;> rw [hf] at hstep
      · obtain ⟨value, hvalue, hs⟩ := hstep
        refine ⟨[], (f.field.column, value) :: row, ?_, by simp, fun c => ?_, hcons hs⟩
        · simp [populateFields, hv, hf, hvalue]
        · rw [lookup_cons_isSome]
          simp [writes, hf]
      · obtain ⟨rows, h, hconvert, hgood⟩ := hstep row fun hkey c hc =>
          (hknown c).1 (hready.1 hkey c hc)
        have hhash : Serializable (h.getD py.pyNone) := by
          rcases h with _ | i
          · exact hh.pyNone
          · exact hh.id i (hgood.id i rfl).1
        refine ⟨rows, if sub.hasId then (f.field.column, h.getD py.pyNone) :: row else row, ?_,
          hgood.fits, fun c => ?_, fun hrow => ?_⟩
        · simp only [populateFields, hv, hf, hconvert, Option.bind_eq_bind, Option.bind_some]
          rcases populateFields py selector o fields _ with _ | ⟨rest, row'⟩ <;> rfl
        · rcases hid : sub.hasId
          · simp [writes, hf, hid]
          · rw [if_pos rfl, lookup_cons_isSome]
            simp [writes, hf, hid]
        · split_ifs
          · exact hcons hhash hrow
          · exact hrow
    obtain ⟨rest, row', hloop, hrest, hlookup', hser'⟩ := populateFields_good hh row₁
      (fun f hf => hok f (List.mem_cons_of_mem _ hf)) hready.2 fun c => by
        rw [hlookup, ← hknown]
        split_ifs with hw
        · simp [hw, eq_comm (a := c)]
        · simp [hw]
    refine ⟨rows ++ rest, row', by rw [hdo, hloop]; rfl, fun r hr => ?_, fun c => ?_,
      fun hrow => hser' (hser hrow)⟩
    · rcases List.mem_append.1 hr with hr | hr
      · exact hfits r hr
      · exact hrest r hr
    · rw [hlookup']
      split_ifs with hw
      · simp [hw, eq_comm (a := c), or_assoc, or_left_comm]
      · simp [hw]

theorem Params.Named.startRow (h : p.Named) (hparent : p.HasParent parentRow) :
    ∃ start, p.startRow parentRow = some start ∧ start.map Prod.fst = p.parentNames := by
  unfold Params.startRow Params.parentNames
  rw [h.parent?]
  rcases hk : p.parentKey with _ | key
  · rcases parentRow with _ | _ | ⟨cell, cells⟩ <;> exact ⟨[], rfl, rfl⟩
  · obtain ⟨row, v, rfl, hv⟩ := hparent key hk
    rcases row with _ | ⟨cell, cells⟩
    · cases hv
    · exact ⟨[(p.parentCol, v)], by dsimp only; rw [hv]; rfl, rfl⟩

theorem lookup_isSome_iff {c : String} : ∀ {row : ParentRow O},
    (row.lookup c).isSome ↔ c ∈ row.map Prod.fst
  | [] => by simp
  | (c', v) :: row => by
    rw [lookup_cons_isSome, lookup_isSome_iff, List.map_cons, List.mem_cons, eq_comm]

/-- Columns of the row of an `HDICT`: those of the fields that have one. -/
theorem map_fst_cells {row : ParentRow O} : ∀ {fields : List (FieldStep O)},
    (∀ f ∈ fields, (row.lookup f.field.column).isSome ↔ f.writes) →
    (fields.filterMap fun f => (row.lookup f.field.column).map (f.field.column, ·)).map Prod.fst
      = (fields.filter (·.writes)).map (·.field.column)
  | [], _ => rfl
  | f :: fields, h => by
    have ih := map_fst_cells fun f hf => h f (List.mem_cons_of_mem _ hf)
    have hf := h f (List.mem_cons_self ..)
    rcases hl : row.lookup f.field.column with _ | v <;> rw [hl] at hf
    · have hw : f.writes = false := by simpa using hf
      simp [hl, hw, ih]
    · have hw : f.writes = true := by simpa using hf
      simp [hl, hw, ih]

/-- One object of an `HDICT`. -/
theorem populateHdict_good (columns : List String) (h : p.Named) (hh : py.Hashes Serializable)
    (hexclusive : ¬ (p.parentKey.isSome ∧ p.idCol.isSome)) (hok : p.IdOk py o)
    {fields : List (FieldStep O)} (hfields : ∀ f ∈ fields, f.Ok py Serializable S selector o columns)
    (hwrites : ∀ f ∈ fields, f.writes = !f.hasParentKey)
    (hcolumns : ∀ c ∈ columns, c ∈ p.parentNames
      ∨ ∃ f ∈ fields, f.hasParentKey = false ∧ f.field.column = c)
    (hapart : ∀ f ∈ fields, f.hasParentKey → f.field.column ∉ p.parentNames
      ∧ ∀ f' ∈ fields, f'.hasParentKey = false → f'.field.column ≠ f.field.column)
    (hparent : p.HasParent parentRow) {declared : List Column}
    (hl : S.lookup p.tableName = some declared) (hc : declared.map (·.name)
      = p.keyNames ++ (fields.filter (!·.hasParentKey)).map (·.field.column)) :
    ∃ rows id, populateHdict py p selector fields o parentRow = some (rows, id)
      ∧ id.isSome = p.idCol.isSome ∧ Converted.Good py S (some rows, id) := by
  obtain ⟨start, hstart, hnames⟩ := h.startRow hparent
  have hready : Ready columns p.parentNames (sortFields (·.hasParentKey) fields) := by
    refine ready_append (fun f hf => by simpa using (List.mem_filter.1 hf).2) fun c hmem => ?_
    rcases hcolumns c hmem with hp | ⟨f, hf, hkey, rfl⟩
    · exact .inl hp
    · exact .inr ⟨f, List.mem_filter.2 ⟨hf, by simp [hkey]⟩, by rw [hwrites f hf, hkey]; rfl, rfl⟩
  obtain ⟨rows, row, hloop, hfits, hlookup, hser⟩ := populateFields_good hh start
    (fun f hf => hfields f (mem_sortFields.1 hf)) hready fun c => by rw [lookup_isSome_iff, hnames]
  simp only [mem_sortFields] at hlookup
  have hown : ∀ f ∈ fields, (row.lookup f.field.column).isSome ↔ f.writes := by
    intro f hf
    rw [hlookup]
    constructor
    · intro hknown
      rw [hwrites f hf]
      by_contra hkey
      obtain ⟨hp, hne⟩ := hapart f hf (by simpa using hkey)
      rcases hknown with hknown | ⟨f', hf', hw, he⟩
      · exact hp hknown
      · exact hne f' hf' (by simpa [hwrites f' hf'] using hw) he
    · exact fun hw => .inr ⟨f, hf, hw, rfl⟩
  have hcells := map_fst_cells hown
  have hfilter : fields.filter (·.writes) = fields.filter (!·.hasParentKey) :=
    List.filter_congr fun f hf => hwrites f hf
  generalize hg : (fields.filterMap fun f =>
    (row.lookup f.field.column).map (f.field.column, ·)) = cells at hcells
  obtain ⟨id, hid, hsome, hids⟩ : ∃ id, p.rowId py (some o) (cells.map Prod.snd) = some id
      ∧ id.isSome = p.idCol.isSome ∧ ∀ i, id = some i → py.isId i ∧ py.truthy i := by
    rcases hc : p.idCol with _ | c
    · refine ⟨none, ?_, rfl, by simp⟩
      unfold Params.rowId
      rw [h.id?, hc]
    rw [← hc]
    refine h.rowId hh (some o) (fun _ => ⟨o, rfl, hok⟩) fun a ha => ?_
    have hempty : start = [] := by
      have hnone : p.parentKey = none := by
        rcases hk : p.parentKey with _ | key
        · rfl
        · exact absurd ⟨by rw [hk]; rfl, by rw [hc]; rfl⟩ hexclusive
      rw [Params.parentNames, hnone] at hnames
      exact List.map_eq_nil_iff.1 hnames
    obtain ⟨cell, hcell, rfl⟩ := List.mem_map.1 ha
    rw [← hg] at hcell
    obtain ⟨f, hf, hcell⟩ := List.mem_filterMap.1 hcell
    obtain ⟨v, hv, rfl⟩ := Option.map_eq_some_iff.1 hcell
    exact hser (by simp [hempty]) _ v hv
  obtain ⟨key, hkey, hkeyNames⟩ : ∃ key, p.hdictKey id row = some key
      ∧ key.map Prod.fst = p.keyNames := by
    unfold Params.hdictKey Params.keyNames
    rw [← hsome, h.parent?]
    rcases id with _ | i
    · rcases hk : p.parentKey with _ | k
      · exact ⟨[], rfl, rfl⟩
      · obtain ⟨v, hv⟩ := Option.isSome_iff_exists.1 ((hlookup p.parentCol).2 (.inl (by
          simp [Params.parentNames, hk])))
        exact ⟨[(p.parentCol, v)], by simp [hv], rfl⟩
    · exact ⟨_, rfl, rfl⟩
  refine ⟨rows ++ [(p.tableName, key ++ cells)], id, ?_, hsome, fun r hr => ?_, hids⟩
  · simp [populateHdict, hstart, hloop, hg, hid, hkey]
  · rcases List.mem_append.1 hr with hr | hr
    · exact hfits r hr
    · obtain rfl := List.mem_singleton.1 hr
      exact ⟨declared, hl, by rw [List.map_append, hkeyNames, hcells, hfilter, hc]⟩

theorem populateInList_good {populate : O → Option (List (TableRow O) × Option O)} :
    ∀ {os : List O} (last : Option O), (∀ i, last = some i → py.isId i ∧ py.truthy i) →
    (∀ x ∈ os, ∃ rows id, populate x = some (rows, id) ∧ id.isSome = p.idCol.isSome
      ∧ Converted.Good py S (some rows, id)) →
    ∃ rows id, populateInList populate os last = some (rows, id)
      ∧ (os ≠ [] → id.isSome = p.idCol.isSome) ∧ Converted.Good py S (some rows, id)
  | [], last, hlast, _ => ⟨[], last, rfl, fun h => absurd rfl h, by simp, hlast⟩
  | x :: os, last, _, h => by
    obtain ⟨rows, id, hone, hsome, hgood⟩ := h x (List.mem_cons_self ..)
    obtain ⟨rest, last', hrest, hsome', hgood'⟩ := populateInList_good id hgood.id
      fun x hx => h x (List.mem_cons_of_mem _ hx)
    refine ⟨rows ++ rest, last', by simp [populateInList, hone, hrest], fun _ => ?_, fun r hr => ?_,
      hgood'.id⟩
    · rcases os with _ | ⟨y, os⟩
      · cases hrest
        exact hsome
      · exact hsome' (by simp)
    · rcases List.mem_append.1 hr with hr | hr
      · exact hgood.fits r hr
      · exact hgood'.fits r hr

end Fields

/-! ## All translators -/

section Trees

variable {S S' : TableSchemas} {selector : Selector} {o : O} {columns : List String}

/-- A translator as the one above it sees it. -/
def Translator.asSub (py : Python O) (tr : Translator O) : SubTranslator O :=
  ⟨tr.hasId, tr.objectsExtractFn, fun o row => tr.convertObj py o row⟩

/-- The row above has a value for the parent key. -/
def Translator.HasParent (tr : Translator O) (parentRow : Option (ParentRow O)) : Prop :=
  ∀ key, tr.parentKey = some key → ∃ row v, parentRow = some row ∧ row.lookup key = some v

/-- The object is converted to rows that fit, and to an id if the translator has one. -/
def Converts (py : Python O) (S : TableSchemas) (tr : Translator O) (o : O)
    (parentRow : Option (ParentRow O)) : Prop :=
  ∃ rows id, tr.convertObj py o parentRow = some (some rows, id)
    ∧ (tr.NotEmpty py o → id.isSome = tr.hasId) ∧ Converted.Good py S (some rows, id)

theorem Translator.convertObj_list {p : Params O} {valCol : String} {desc : Option String}
    {sub : Translator O} {parentRow : Option (ParentRow O)} (ho : py.isNone o = false)
    (hsub : sub.isValue = false) : (Translator.list p valCol desc sub).convertObj py o parentRow
      = populateList py p valCol (sub.asSub py) o parentRow := by
  rw [Translator.convertObj, if_neg (by simp [ho])]
  · rfl
  · rintro v rfl
    cases hsub

theorem Translator.convertObj_vdict {p : Params O} {keyCol valCol : String} {sub : Translator O}
    {parentRow : Option (ParentRow O)} (ho : py.isNone o = false) (hsub : sub.isValue = false) :
    (Translator.vdict p keyCol valCol sub).convertObj py o parentRow
      = populateVdict py p keyCol valCol (sub.asSub py) o parentRow := by
  rw [Translator.convertObj, if_neg (by simp [ho])]
  · rfl
  · rintro v rfl
    cases hsub

theorem Translator.convertObj_isNone (tr : Translator O) {parentRow : Option (ParentRow O)}
    (ho : py.isNone o) : tr.convertObj py o parentRow = some (none, none) := by
  rw [Translator.convertObj.eq_def]
  rcases tr with _ | _ | _ | _ <;> exact if_pos ho

theorem Translator.asSub_extract (tr : Translator O) :
    (tr.asSub py).extract py o = tr.extract py o := rfl

/-- `None` has no rows below, and the id of none; another object has those of what is extracted. -/
theorem Translator.asSub_convert (hh : py.Hashes Serializable) {tr : Translator O}
    {parentRow : Option (ParentRow O)} (h : py.isNone o ∨ ∃ o', tr.extract py o = some o'
      ∧ py.isNone o' = false ∧ Converts py S tr o' parentRow) :
    ∃ rows id, (tr.asSub py).convert py o parentRow = some (some rows, id)
      ∧ (py.isNone o ∨ (∀ o', tr.extract py o = some o' → tr.NotEmpty py o') → id.isSome = tr.hasId)
      ∧ Converted.Good py S (some rows, id) := by
  unfold SubTranslator.convert
  split_ifs with hnone hid
  · obtain ⟨i, hi, hisId, htrue⟩ := hh.hash [] (by simp)
    exact ⟨[], some i, by rw [hi]; rfl, fun _ => hid.symm,
      by simp, by rintro _ ⟨⟩; exact ⟨hisId, htrue⟩⟩
  · exact ⟨[], none, rfl, fun _ => (eq_false_of_ne_true hid).symm, by simp, by simp⟩
  · obtain ⟨o', ho', -, rows, id, hconvert, hid, hgood⟩ := h.resolve_left (by simpa using hnone)
    refine ⟨rows, id, ?_, fun hne => hid ((hne.resolve_left (by simpa using hnone)) o' ho'), hgood⟩
    rw [Translator.asSub_extract, ho']
    exact hconvert

/-- A tree that has a place for an id has no parent key. -/
theorem Translator.validate_exclusive (tr : Translator O) {tables tables' : List String}
    (hwf : tr.WellFormed) (h : tr.validate tables = some tables') :
    ¬ (tr.parentKey.isSome ∧ tr.hasId) := by
  have hown : ∀ {p : Params O} {used : List String}, p.Named → useTable p tables = some used →
      ¬ (p.parentKey.isSome ∧ p.idCol.isSome) := fun hp hu => by
    have := useTable_some hu
    rwa [hp.id?, hp.parent?] at this
  rcases tr with _ | ⟨p, _, _, _⟩ | ⟨p, _, _, _⟩ | ⟨p, _, _, _⟩
  · simp [Translator.parentKey, Translator.params]
  all_goals
    obtain ⟨used, hused, -⟩ := Option.bind_eq_some_iff.1 h
    exact hown hwf.1 hused

/-! ### Fields -/

/-- A field translator with what it does. -/
def fieldStep (py : Python O) (f : Field × Translator O) : FieldStep O where
  field := f.1
  hasParentKey := f.2.parentKey.isSome
  step := match f.2 with
    | .value v => .inl v
    | tr => .inr (tr.asSub py)

theorem fieldSteps_eq_map : ∀ fields : List (Field × Translator O),
    fieldSteps py fields = fields.map (fieldStep py)
  | [] => rfl
  | (f, tr) :: fields => by
    rw [List.map_cons, ← fieldSteps_eq_map fields]
    rcases tr with _ | _ | _ | _ <;> rfl

theorem fieldStep_of_not_isValue {f : Field} {tr : Translator O} (h : tr.isValue = false) :
    fieldStep py (f, tr) = ⟨f, tr.parentKey.isSome, .inr (tr.asSub py)⟩ := by
  rcases tr with v | _ | _ | _
  · cases h
  all_goals rfl

theorem fieldSteps_columns (py : Python O) (fields : List (Field × Translator O)) :
    ((fieldSteps py fields).filter (!·.hasParentKey)).map (·.field.column)
      = (fields.filter (·.2.parentKey.isNone)).map (·.1.column) := by
  rw [fieldSteps_eq_map, List.filter_map, List.map_map]
  have hkey : ((!·.hasParentKey) ∘ fieldStep py) = fun f => f.2.parentKey.isNone := by
    funext f
    rcases h : f.2.parentKey <;> simp [fieldStep, h]
  rw [hkey]
  rfl

theorem fieldSchemas_columns : ∀ fields : List (Field × Translator O),
    ((fieldSchemas fields).filter (·.parentKey.isNone)).map (·.column.name)
      = (fields.filter (·.2.parentKey.isNone)).map (·.1.column)
  | [] => rfl
  | (f, tr) :: fields => by
    have ih := fieldSchemas_columns fields
    obtain ⟨c, hfields, hc⟩ : ∃ s : FieldSchema, fieldSchemas ((f, tr) :: fields) = s :: fieldSchemas fields
        ∧ s.parentKey = tr.parentKey ∧ s.column.name = f.column := by
      rcases tr with _ | _ | _ | _ <;> exact ⟨_, rfl, rfl, rfl⟩
    rw [hfields, List.filter_cons, List.filter_cons, hc.1]
    split_ifs
    · rw [List.map_cons, List.map_cons, ih, hc.2]
    · exact ih

theorem fieldsWellFormed_iff : ∀ {fields : List (Field × Translator O)},
    FieldsWellFormed columns fields ↔ ∀ f ∈ fields, f.2.WellFormed ∧ (f.2.isValue ∨ f.2.hasId
      ∨ ∃ key, f.2.parentKey = some key ∧ key ∈ columns ∧ f.1.column ∉ columns)
  | [] => by simp [FieldsWellFormed]
  | (f, tr) :: fields => by
    rw [FieldsWellFormed, fieldsWellFormed_iff, List.forall_mem_cons, and_assoc]

theorem fieldsDescribe_iff : ∀ {fields : List (Field × Translator O)},
    FieldsDescribe py Serializable selector fields o ↔ ∀ f ∈ fields,
      ∃ v, getValue py selector o f.1.fieldname = some v
        ∧ if f.2.isValue then f.2.Describes py Serializable v
          else py.isNone v ∨ ∃ x, f.2.extract py v = some x ∧ py.isNone x = false
            ∧ f.2.Describes py Serializable x
  | [] => by simp [FieldsDescribe]
  | (f, tr) :: fields => by rw [FieldsDescribe, fieldsDescribe_iff, List.forall_mem_cons]

theorem validateFields_some : ∀ {fields : List (Field × Translator O)} {tables tables' : List String},
    validateFields fields tables = some tables' →
    ∀ f ∈ fields, ∃ used used', f.2.validate used = some used'
  | [], _, _, _ => by simp
  | (f, tr) :: fields, tables, tables', h => by
    obtain ⟨used, htr, hfields⟩ := Option.bind_eq_some_iff.1 h
    exact List.forall_mem_cons.2 ⟨⟨tables, used, htr⟩, validateFields_some hfields⟩

theorem forall_mem_fieldSchemas {P : (TableSchemas → Option String → Option TableSchemas) → Prop} :
    ∀ {fields : List (Field × Translator O)}, (∀ f ∈ fieldSchemas fields, P f.getSchema) →
    ∀ f ∈ fields, P fun schema type => f.2.getSchema schema type
  | [], _ => by simp
  | (f, tr) :: fields, h => by
    obtain ⟨htr, hfields⟩ := List.forall_mem_cons.1 h
    exact List.forall_mem_cons.2 ⟨htr, forall_mem_fieldSchemas hfields⟩

/-- A field has a column of its own if its translator has no parent key. -/
theorem fieldStep_writes {f : Field} {tr : Translator O} {tables tables' : List String}
    (hwf : tr.WellFormed) (hcolumn : tr.isValue ∨ tr.hasId
      ∨ ∃ key, tr.parentKey = some key ∧ key ∈ columns ∧ f.column ∉ columns)
    (hvalid : tr.validate tables = some tables') :
    (fieldStep py (f, tr)).writes = !tr.parentKey.isSome
      ∧ (tr.parentKey.isSome → f.column ∉ columns) := by
  have hexclusive := tr.validate_exclusive hwf hvalid
  rcases hv : tr.isValue
  · rw [fieldStep_of_not_isValue hv]
    show tr.hasId = _ ∧ _
    rcases hcolumn with hval | hid | ⟨key, hkey, -, hne⟩
    · rw [hv] at hval
      cases hval
    · have hnone : tr.parentKey.isSome = false := by simpa [hid] using hexclusive
      simp [hid, hnone]
    · have hno : tr.hasId = false := by simpa [hkey] using hexclusive
      exact ⟨by rw [hno, hkey]; rfl, fun _ => hne⟩
  · rcases tr with v | _ | _ | _ <;> simp [Translator.isValue] at hv
    exact ⟨rfl, fun h => by cases h⟩

/-- What is to be shown of a translator: where it has a schema, an object that it describes is converted
to rows that fit. -/
def Translator.Sound (py : Python O) (Serializable : O → Prop) (tr : Translator O) : Prop :=
  ∀ tables tables' S type S₁ S', tr.WellFormed → tr.validate tables = some tables' →
    tr.getSchema S type = some S₁ → Extends S₁ S' → ∀ o parentRow, tr.Describes py Serializable o →
    py.isNone o = false → tr.HasParent parentRow → Converts py S' tr o parentRow

/-- A field of an `HDICT`, once its translator is known to be sound. -/
theorem fieldStep_ok (hh : py.Hashes Serializable) {f : Field} {tr : Translator O}
    (hsound : tr.isValue = false → tr.Sound py Serializable) {tables tables' : List String}
    {S₁ S₂ : TableSchemas} {type : Option String} (hwf : tr.WellFormed)
    (hcolumn : tr.isValue ∨ tr.hasId
      ∨ ∃ key, tr.parentKey = some key ∧ key ∈ columns ∧ f.column ∉ columns)
    (hvalid : tr.validate tables = some tables') (hschema : tr.getSchema S₁ type = some S₂)
    (hS' : Extends S₂ S') (hdesc : ∃ v, getValue py selector o f.fieldname = some v
      ∧ if tr.isValue then tr.Describes py Serializable v
        else py.isNone v ∨ ∃ x, tr.extract py v = some x ∧ py.isNone x = false
          ∧ tr.Describes py Serializable x) :
    (fieldStep py (f, tr)).Ok py Serializable S' selector o columns := by
  obtain ⟨v, hv, hdesc⟩ := hdesc
  rcases hval : tr.isValue
  · rw [if_neg (by simp [hval])] at hdesc
    rw [fieldStep_of_not_isValue hval]
    refine ⟨v, hv, fun row hrow => ?_⟩
    have hparent : tr.HasParent (some row) := by
      intro key hkey
      rcases hcolumn with hval' | hid | ⟨key', hkey', hmem, -⟩
      · rw [hval] at hval'
        cases hval'
      · exact absurd ⟨by rw [hkey]; rfl, hid⟩ (tr.validate_exclusive hwf hvalid)
      · cases hkey.symm.trans hkey'
        obtain ⟨v, hv⟩ := Option.isSome_iff_exists.1 (hrow (by simp [hkey]) key hmem)
        exact ⟨row, v, rfl, hv⟩
    obtain ⟨rows, h, hconvert, -, hgood⟩ := tr.asSub_convert hh (hdesc.imp id
      fun ⟨x, hx, hnone, hd⟩ => ⟨x, hx, hnone, hsound hval _ _ _ _ _ _ hwf hvalid hschema hS' _ _ hd hnone
        hparent⟩)
    exact ⟨rows, h, hconvert, hgood⟩
  · rw [if_pos hval] at hdesc
    rcases tr with vp | _ | _ | _ <;> simp [Translator.isValue] at hval
    exact ⟨v, hv, hdesc⟩

theorem Translator.list_sound (hh : py.Hashes Serializable) (p : Params O) (valCol : String)
    (desc : Option String) {sub : Translator O} (hsound : sub.isValue = false → sub.Sound py Serializable) :
    (Translator.list p valCol desc sub).Sound py Serializable := by
  rintro tables tables' S type S₁ S' ⟨hnamed, hwf, hsub⟩ hvalid hschema hS' o parentRow hdesc ho hparent
  obtain ⟨used, hused, hvalid⟩ := Option.bind_eq_some_iff.1 hvalid
  obtain ⟨S₂, hschema, hadd⟩ := Option.bind_eq_some_iff.1 hschema
  obtain ⟨hext, hl⟩ := addTable_some hadd
  obtain ⟨os, hiter, hos⟩ := hdesc.resolve_left (by simp [ho])
  rw [hnamed.id?, hnamed.parent?] at hl
  refine (?_ : ∃ rows id, _ = some (some rows, id) ∧ id.isSome = p.idCol.isSome ∧ _).imp
    fun rows => Exists.imp fun id h => ⟨h.1, fun _ => h.2.1, h.2.2⟩
  have hc : ∀ columns, S'.lookup p.tableName = some columns →
      columns.map (·.name) = p.keyNames ++ [valCol] := by
    intro columns h
    cases (hS' _ _ hl).symm.trans h
    unfold Params.keyNames
    split_ifs <;> rfl
  rcases hval : sub.isValue
  · rw [if_neg (by simp [hval])] at hos
    rw [Translator.convertObj_list ho hval]
    have hid : sub.hasId := hsub.resolve_left (by simp [hval])
    refine populateList_good hnamed hh hiter hos.1 hid (fun x hx => ?_) hparent (hS' _ _ hl)
      (hc _ (hS' _ _ hl))
    obtain ⟨x', hx', hok, hd⟩ := hos.2 x hx
    obtain ⟨rows, h, hconvert, hsome, hgood⟩ := sub.asSub_convert hh (hd.imp id fun ⟨hnone, hd, _⟩ =>
      ⟨x', hx', hnone, hsound hval _ _ _ _ _ _ hwf hvalid hschema (hext.trans hS') _ none hd hnone
        fun key hkey => absurd ⟨by rw [hkey]; rfl, hid⟩ (sub.validate_exclusive hwf hvalid)⟩)
    obtain ⟨i, rfl⟩ := Option.isSome_iff_exists.1 ((hsome (hd.imp id fun hd y hy => by
      cases hx'.symm.trans hy
      exact hd.2.2)).trans hid)
    exact ⟨some rows, i, x', hconvert, hx', hok, hgood⟩
  · rw [if_pos hval] at hos
    rcases sub with v | _ | _ | _ <;> simp [Translator.isValue] at hval
    rw [show (Translator.list p valCol desc (.value v)).convertObj py o parentRow
      = populateListValues py p valCol v o parentRow from if_neg (by simp [ho])]
    exact populateListValues_good hnamed hh hiter hos.1 hos.2 hparent (hS' _ _ hl) (hc _ (hS' _ _ hl))

theorem Translator.vdict_sound (hh : py.Hashes Serializable) (p : Params O) (keyCol valCol : String)
    {sub : Translator O} (hsound : sub.isValue = false → sub.Sound py Serializable) :
    (Translator.vdict p keyCol valCol sub).Sound py Serializable := by
  rintro tables tables' S type S₁ S' ⟨hnamed, hwf, hsub⟩ hvalid hschema hS' o parentRow hdesc ho hparent
  obtain ⟨used, hused, hvalid⟩ := Option.bind_eq_some_iff.1 hvalid
  obtain ⟨S₂, hschema, hadd⟩ := Option.bind_eq_some_iff.1 hschema
  obtain ⟨hext, hl⟩ := addTable_some hadd
  obtain ⟨items, hitems, hok, hdesc⟩ := hdesc.resolve_left (by simp [ho])
  rw [hnamed.id?, hnamed.parent?] at hl
  refine (?_ : ∃ rows id, _ = some (some rows, id) ∧ id.isSome = p.idCol.isSome ∧ _).imp
    fun rows => Exists.imp fun id h => ⟨h.1, fun _ => h.2.1, h.2.2⟩
  have hc : ∀ columns, S'.lookup p.tableName = some columns → columns.map (·.name)
      = p.keyNames ++ keyCol :: if sub.parentKey.isNone then [valCol] else [] := by
    intro columns h
    cases (hS' _ _ hl).symm.trans h
    unfold Params.keyNames
    split_ifs <;> rfl
  rcases hval : sub.isValue
  · rw [Translator.convertObj_vdict ho hval]
    have hexclusive := sub.validate_exclusive hwf hvalid
    have hnone : sub.parentKey.isNone = sub.hasId := by
      rcases hsub.resolve_left (by simp [hval]) with hid | hkey
      · rcases hk : sub.parentKey <;> simp [hk, hid] at hexclusive ⊢
      · simpa [hkey] using hexclusive
    refine populateVdict_good hnamed hh hitems hok (fun item hitem => ?_) hparent (hS' _ _ hl)
      (by rw [hc _ (hS' _ _ hl), hnone]; rfl)
    obtain ⟨hk, hd⟩ := hdesc item hitem
    rw [if_neg (by simp [hval])] at hd
    obtain ⟨x, hx, hd⟩ := hd
    refine ⟨hk, ?_⟩
    by_cases hxnone : py.isNone x
    · by_cases hinone : py.isNone item.2
      · obtain ⟨rows, h, hconvert, -, hgood⟩ := sub.asSub_convert hh (S := S') (.inl hinone)
        exact ⟨_, hconvert, hgood⟩
      · refine ⟨(none, none), ?_, by simp, by simp⟩
        unfold SubTranslator.convert
        rw [if_neg hinone, Translator.asSub_extract, hx]
        exact sub.convertObj_isNone hxnone
    · have hxnone : py.isNone x = false := by simpa using hxnone
      have hparent : sub.HasParent (some [(keyCol, item.1)]) := by
        intro key hkey
        rcases hsub.resolve_left (by simp [hval]) with hid | hkey'
        · exact absurd ⟨by rw [hkey]; rfl, hid⟩ hexclusive
        · cases hkey.symm.trans hkey'
          exact ⟨_, item.1, rfl, by simp⟩
      obtain ⟨rows, h, hconvert, -, hgood⟩ := sub.asSub_convert hh (.inr ⟨x, hx, hxnone,
        hsound hval _ _ _ _ _ _ hwf hvalid hschema (hext.trans hS') _ _
          (hd.resolve_left (by simp [hxnone])) hxnone hparent⟩)
      exact ⟨_, hconvert, hgood⟩
  · rcases sub with v | _ | _ | _ <;> simp [Translator.isValue] at hval
    rw [show (Translator.vdict p keyCol valCol (.value v)).convertObj py o parentRow
      = populateVdictValues py p keyCol valCol v o parentRow from if_neg (by simp [ho])]
    exact populateVdictValues_good hnamed hh hitems hok hdesc hparent (hS' _ _ hl) (hc _ (hS' _ _ hl))

/-- One object of an `HDICT`, by its fields. -/
theorem populateHdict_fieldSteps {p : Params O} (hnamed : p.Named) (hh : py.Hashes Serializable)
    (hexclusive : ¬ (p.parentKey.isSome ∧ p.idCol.isSome)) (hok : p.IdOk py o)
    {fields : List (Field × Translator O)} (hfields : ∀ f ∈ fields,
      (fieldStep py f).Ok py Serializable S selector o (columnsBelow p fields))
    (hwrites : ∀ f ∈ fields, (fieldStep py f).writes = !f.2.parentKey.isSome
      ∧ (f.2.parentKey.isSome → f.1.column ∉ columnsBelow p fields))
    {parentRow : Option (ParentRow O)} (hparent : p.HasParent parentRow) {declared : List Column}
    (hl : S.lookup p.tableName = some declared) (hc : declared.map (·.name)
      = p.keyNames ++ (fields.filter (·.2.parentKey.isNone)).map (·.1.column)) :
    ∃ rows id, populateHdict py p selector (fieldSteps py fields) o parentRow = some (rows, id)
      ∧ id.isSome = p.idCol.isSome ∧ Converted.Good py S (some rows, id) := by
  have hcolumns := fieldSteps_columns py fields
  rw [fieldSteps_eq_map] at hcolumns ⊢
  refine populateHdict_good (columnsBelow p fields) hnamed hh hexclusive hok
    (List.forall_mem_map.2 hfields) (List.forall_mem_map.2 fun f hf => (hwrites f hf).1) (fun c hmem => ?_)
    (List.forall_mem_map.2 fun f hf hkey => ?_) hparent hl (by rw [hc, hcolumns])
  · rcases List.mem_append.1 hmem with hmem | hmem
    · exact .inl hmem
    · rw [← hcolumns] at hmem
      obtain ⟨f, hf, rfl⟩ := List.mem_map.1 hmem
      exact .inr ⟨f, (List.mem_filter.1 hf).1, by simpa using (List.mem_filter.1 hf).2, rfl⟩
  · have hne := (hwrites f hf).2 hkey
    refine ⟨fun hmem => hne (List.mem_append_left _ hmem), fun g hg hkeyg heq => hne ?_⟩
    refine List.mem_append_right _ ?_
    rw [← hcolumns]
    exact List.mem_map.2 ⟨g, List.mem_filter.2 ⟨hg, by simp [hkeyg]⟩, heq⟩

theorem Translator.hdict_sound (hh : py.Hashes Serializable) (p : Params O) (selector : Selector)
    (inList : Bool) {fields : List (Field × Translator O)}
    (hsound : ∀ f ∈ fields, f.2.isValue = false → f.2.Sound py Serializable) :
    (Translator.hdict p selector inList fields).Sound py Serializable := by
  rintro tables tables' S type S₁ S' ⟨hnamed, hwf⟩ hvalid hschema hS' o parentRow hdesc ho hparent
  have hexclusive := Translator.validate_exclusive (.hdict p selector inList fields) ⟨hnamed, hwf⟩
    hvalid
  obtain ⟨used, hused, hvalid⟩ := Option.bind_eq_some_iff.1 hvalid
  obtain ⟨S₂, hschema, hadd⟩ := Option.bind_eq_some_iff.1 hschema
  obtain ⟨hext, hl⟩ := addTable_some hadd
  have hvalids := validateFields_some hvalid
  rw [fieldsWellFormed_iff] at hwf
  have hschemas := forall_mem_fieldSchemas
    (P := fun g => ∃ S₁ type S₂, g S₁ type = some S₂ ∧ Extends S₂ S') fun f hf => by
      obtain ⟨T₁, type, T₂, hf, hT₂⟩ := (getSchemaFields_some
        (fun f hf => fieldSchemas_extends fields f (mem_sortFields.1 hf)) hschema).2 f (mem_sortFields.2 hf)
      exact ⟨T₁, type, T₂, hf, hT₂.trans (hext.trans hS')⟩
  have hone : ∀ x, p.IdOk py x ∧ FieldsDescribe py Serializable selector fields x →
      ∃ rows id, populateHdict py p selector (fieldSteps py fields) x parentRow = some (rows, id)
        ∧ id.isSome = p.idCol.isSome ∧ Converted.Good py S' (some rows, id) := by
    rintro x ⟨hok, hdesc⟩
    rw [fieldsDescribe_iff] at hdesc
    refine populateHdict_fieldSteps hnamed hh hexclusive hok (fun f hf => ?_) (fun f hf => ?_) hparent
      (hS' _ _ hl) ?_
    · obtain ⟨used, used', hvalid⟩ := hvalids f hf
      obtain ⟨T₁, type, T₂, hT, hT₂⟩ := hschemas f hf
      exact fieldStep_ok hh (hsound f hf) (hwf f hf).1 (hwf f hf).2 hvalid hT hT₂ (hdesc f hf)
    · obtain ⟨used, used', hvalid⟩ := hvalids f hf
      exact fieldStep_writes (hwf f hf).1 (hwf f hf).2 hvalid
    · rw [List.map_append, List.map_map, ← fieldSchemas_columns]
      congr 1
      unfold Params.keyNames
      split_ifs <;> rfl
  have hdesc := hdesc.resolve_left (by simp [ho])
  rcases inList
  · rw [if_neg (by simp)] at hdesc
    obtain ⟨rows, id, hrows, hid, hgood⟩ := hone o hdesc
    refine ⟨rows, id, ?_, fun _ => hid, hgood⟩
    simp [Translator.convertObj, ho, hrows]
  · rw [if_pos rfl] at hdesc
    obtain ⟨os, hiter, hos⟩ := hdesc
    obtain ⟨rows, id, hrows, hid, hgood⟩ := populateInList_good none (by simp) fun x hx => hone x (hos x hx)
    refine ⟨rows, id, ?_, fun hne => hid fun h => hne (by rw [hiter, h]), hgood⟩
    simp [Translator.convertObj, ho, hiter, hrows]

mutual

theorem Translator.sound (hh : py.Hashes Serializable) : ∀ tr : Translator O, tr.isValue = false →
    tr.Sound py Serializable
  | .value _, h => by cases h
  | .list p valCol desc sub, _ => Translator.list_sound hh p valCol desc (sub.sound hh)
  | .vdict p keyCol valCol sub, _ => Translator.vdict_sound hh p keyCol valCol (sub.sound hh)
  | .hdict p selector inList fields, _ => Translator.hdict_sound hh p selector inList (fields_sound hh fields)

theorem fields_sound (hh : py.Hashes Serializable) : ∀ fields : List (Field × Translator O),
    ∀ f ∈ fields, f.2.isValue = false → f.2.Sound py Serializable
  | [], _, h => by cases h
  | (f, tr) :: fields, g, h => by
    rcases List.mem_cons.1 h with rfl | h
    · exact tr.sound hh
    · exact fields_sound hh fields g h

end

end Trees

/-! ## Objects of an API -/

/-- What an API that speaks JSON returns. -/
inductive Json
  | null
  | str (s : String)
  | list (os : List Json)
  | dict (items : List (String × Json))

/-- `str` and the hash are not asked for below. -/
def Json.python : Python Json where
  pyNone := .null
  isNone | .null => true | _ => false
  truthy | .null => false | .str s => s ≠ "" | .list os => !os.isEmpty | .dict items => !items.isEmpty
  isId | .str _ => true | _ => false
  hashable | .null | .str _ => true | _ => false
  str o := o
  tuple := .list
  iter | .list os => some os | .dict items => some (items.map (.str ·.1)) | _ => none
  items | .dict items => some (items.map fun (k, v) => (.str k, v)) | _ => none
  getattr _ _ := some .null
  getitem o field := match o with
    | .dict items => some ((items.lookup field).getD .null)
    | _ => none
  computeHash _ := some (.str "hash")

theorem Json.hashes : Json.python.Hashes fun _ => True where
  pyNone := trivial
  id _ _ := trivial
  tuple _ _ := trivial
  hash _ _ := ⟨.str "hash", rfl, rfl, by decide⟩

/-- The object has rows, and they fit. -/
def RowsFit (tr : Translator Json) (o : Json) : Prop :=
  ∃ schema, tr.getSchema ∅ none = some schema ∧ ∃ rows id,
    tr.convertObj Json.python o none = some (rows, id) ∧ ∀ row ∈ rows.getD [], Fits schema row

instance (tr : Translator Json) (o : Json) : Decidable (RowsFit tr o) :=
  match hs : tr.getSchema ∅ none, hc : tr.convertObj Json.python o none with
  | some schema, some (rows, id) => decidable_of_iff (∀ row ∈ rows.getD [], Fits schema row) (by
      simp [RowsFit, hs, hc])
  | none, _ => isFalse (by simp [RowsFit, hs])
  | _, none => isFalse (by simp [RowsFit, hc])

def value : Translator Json := .value ⟨none, none, true⟩

def field (name : String) (tr : Translator Json) : Field × Translator Json := (⟨name, none, none⟩, tr)

def params (table : String) (parentKey : Option String) (idCol : Option (IdCol Json)) : Params Json :=
  ⟨table, parentKey, idCol, none, none, none⟩

/-- Tags, with an id or a parent key or neither. -/
def tags (parentKey : Option String) (idCol : Option (IdCol Json)) : Translator Json :=
  .list (params "tags" parentKey idCol) "tag" none value

/-- A server with tags. -/
def server (idCol : Option (IdCol Json)) (tags : Field × Translator Json) : Translator Json :=
  .hdict (params "servers" none idCol) .dict false [field "name" value, tags]

/-- Servers, with tables of their tags and of their networks. -/
def servers : Translator Json :=
  .hdict (params "servers" none none) .dict true
    [field "name" value, field "image" value, field "tags" (tags (some "name") none),
      field "nets" (.hdict (params "nets" (some "name") none) .dict true [field "mac" value])]

/-- One server lacks an image, and the other has no tags and no networks. -/
def webAndDb : Json := .list
  [.dict [("name", .str "web"), ("tags", .list [.str "a", .str "b"]),
      ("nets", .list [.dict [("mac", .str "m")]])],
    .dict [("name", .str "db"), ("image", .str "i"), ("tags", .list [])]]

def webServer : Json := .dict [("name", .str "web"), ("tags", .list [.str "a"])]

/-- What is accepted, but does not fit together. -/
def misfits : List (Translator Json × Json) :=
  [ -- a `LIST` of what has no id
    (.list (params "all" none none) "server" none (.hdict (params "servers" none none) .dict false
      [field "name" value]), .list [webServer]),
    -- tags lacking an id and a parent key, below an `HDICT` and below a `VDICT`
    (server none (field "tags" (tags none none)), webServer),
    (.vdict (params "all" none none) "name" "tags" (tags none none), .dict [("web", .list [.str "a"])]),
    -- a parent key at the top
    (tags (some "name") none, .list [.str "a"]),
    -- parent keys for the id and for the value, which are not known yet
    (server (some (.name "id")) (field "tags" (tags (some "id") none)), webServer),
    (.vdict (params "all" none none) "name" "tags" (tags (some "tags") none),
      .dict [("web", .list [.str "a"])]),
    -- a field that has no column shares the name of one
    (server none (⟨"tags", some "name", none⟩, tags (some "name") none), webServer),
    -- an id without a name
    (server (some (.name "")) (field "tags" (tags (some "name") none)), webServer),
    (value, .str "a")]

/-- Nothing where an id is asked for: a list of none, one below a list, and `None` that is extracted. -/
def empties : List (Translator Json × Json) :=
  [(.list (params "all" none (some (.name "id"))) "server" none
      (server (some (.name "id")) (field "tags" (tags (some "name") none))), .list []),
    (.list (params "all" none none) "servers" none (.hdict (params "servers" none (some (.name "id")))
      .dict true [field "name" value]), .list [.list []]),
    (server none (field "tags" (.list
      { params "tags" (some "name") none with objectsExtractFn := some fun _ => some .null } "tag" none
      value)), webServer)]

theorem misfits_describe : ∀ m ∈ misfits, m.1.Describes Json.python (fun _ => True) m.2 := by
  simp [misfits, webServer, server, Translator.Describes, FieldsDescribe, field, tags, params, value,
    Translator.isValue, Json.python, Params.IdOk, extractValue, getValue, Translator.extract,
    Translator.objectsExtractFn, Translator.params, Translator.NotEmpty, List.lookup_cons]

end Congress.Datasource
