/-
  TABLES IN THE STORE  (`Table`, relation/table.cpp; `TableCursor`, relation/cursor.cpp; the rest of
  `KVCatalog`, relation/kv_catalog.cpp).

  A table is a VIEW: a database and a schema.  It has no rows of its own; every operation is a request
  of the engine, under the keys of the table, and rows are decoded as they are read.  A write checks the
  row against the schema, and an insert that its key is not taken.

  * a cursor ends at the first row that cannot be decoded, with the rows before it: a `RowStream`.
    The cursor goes on to the next row BEFORE it returns one, so that whoever writes the row that was
    returned writes behind the cursor;
  * on plain content each operation has its equation (`run_insert`, `run_update`, ...).
-/
import SqlDb.Relation.KvCatalog
import SqlDb.SqlTypes.KeyRangeScan

namespace SqlDb.Sql

open Kv (Access Request Status Data applyOp applyOps)

/-! ## Errors -/

def TableSchema.errorMessage : SchemaError → Bytes
  | .ok => ascii "OK"
  | .duplicatePrimaryKey => ascii "Duplicate primary key: table already has a primary key"
  | .noPrimaryKey => ascii "No primary key defined"
  | .duplicateColumnName => ascii "Duplicate column name"
  | .columnSizeMismatch => ascii "Row size mismatch"
  | .columnTypeMismatch => ascii "Type mismatch"
  | .columnAttrNullMismatch => ascii "NULL constraint violation"
  | .columnNotFound => ascii "Column not found"
  | .invalidRow => ascii "Invalid row"
  | .invalidFormat => ascii "Invalid serialized format (corrupted data or version mismatch)"
  | .valueOutOfRange => ascii "Value out of range for column type"
  | .invalidColumnDef => ascii "Invalid column definition (bad declared length)"

namespace RelError

/-- `kv_error`. -/
def ofStatus (what : String) (status : Status) : RelError :=
  ⟨.kvError, ascii what ++ ascii " failed: " ++ ascii (Kv.statusToString status)⟩

/-- `schema_error`. -/
def ofSchema (error : SchemaError) (what : Bytes) : RelError :=
  ⟨.schemaError, what ++ ascii ": " ++ TableSchema.errorMessage error⟩

end RelError

/-! ## Views -/

structure TableView where
  db : Identifier
  schema : TableSchema
deriving DecidableEq

/-- What a cursor returns: rows, and then the end or an error. -/
structure RowStream where
  rows : List Row
  failure : Option RelError
deriving DecidableEq

namespace TableView

def keyPrefix (view : TableView) : Bytes := Keys.dataPrefix view.db view.schema.name

def encodeKey (view : TableView) (primaryKey : Value) : Bytes :=
  Keys.dataKey view.db view.schema.name primaryKey view.schema.primaryKeyType

def encodeRow (view : TableView) (row : Row) : Bytes := row.serialize view.schema

def decodeRow (view : TableView) (data : Bytes) : Except RelError Row :=
  match Row.deserialize data view.schema with
  | .error error => .error (.ofSchema error (ascii "decode row of " ++ view.schema.name.name))
  | .ok row => .ok row

/-- `get`. -/
def find (view : TableView) (primaryKey : Value) : Access (Except RelError Row) := do
  if primaryKey.isNull then pure (.error ⟨.primaryKeyNull, ascii "primary key is NULL"⟩)
  else do
    let found ← Interaction.query (Request.get (view.encodeKey primaryKey))
    if found.1 = .notFound then
      pure (.error ⟨.notFound, ascii "row not found in " ++ view.schema.name.name⟩)
    else if found.1 ≠ .ok then pure (.error (.ofStatus "get" found.1))
    else pure (view.decodeRow (found.2.getD []))

/-- `physical_start` and `physical_end`. -/
def physicalRange (view : TableView) (range : KeyRange) (ascending : Bool) : Kv.KeyRange where
  start := some (view.keyPrefix ++ (range.toStrKeyRange view.schema.primaryKeyType).start)
  stop := some (view.keyPrefix ++ (range.toStrKeyRange view.schema.primaryKeyType).stop)
  direction := if ascending then .forward else .reverse

/-- The rows up to the first that cannot be decoded. -/
def decodeRows (view : TableView) : List (Bytes × Bytes) → RowStream
  | [] => ⟨[], none⟩
  | p :: rest =>
    match view.decodeRow p.2 with
    | .error error => ⟨[], some error⟩
    | .ok row => ⟨row :: (view.decodeRows rest).rows, (view.decodeRows rest).failure⟩

/-- The cursor of a range, walked to its end. -/
def scan (view : TableView) (range : KeyRange) (ascending : Bool) : Access RowStream := do
  let found ← Interaction.query (Request.scan (view.physicalRange range ascending))
  let stream := view.decodeRows found.2
  if stream.failure = none ∧ found.1 ≠ .ok ∧ found.1 ≠ .notFound then
    pure ⟨stream.rows, some (.ofStatus "kv scan" found.1)⟩
  else pure stream

/-- An existing row is never overwritten. -/
def insert (view : TableView) (row : Row) : Access (Except RelError Unit) := do
  let valid := view.schema.validateRow row
  let pk := view.schema.primaryKeyOf row
  if valid ≠ .ok then
    pure (.error (.ofSchema valid (ascii "insert into " ++ view.schema.name.name)))
  else if pk.isNull then pure (.error ⟨.primaryKeyNull, ascii "insert with NULL key"⟩)
  else if ← Interaction.query (Request.existsKey (view.encodeKey pk)) then
    pure (.error ⟨.duplicatePrimaryKey, ascii "duplicate primary key in " ++ view.schema.name.name
      ++ ascii ": " ++ pk.toText⟩)
  else do
    let status ← Interaction.query (Request.put (view.encodeKey pk) (view.encodeRow row))
    pure (if status ≠ .ok then .error (.ofStatus "put" status) else .ok ())

/-- Whether there is a row under the key is not asked. -/
def update (view : TableView) (primaryKey : Value) (row : Row) : Access (Except RelError Unit) := do
  let valid := view.schema.validateRow row
  let rowPk := view.schema.primaryKeyOf row
  if primaryKey.isNull then pure (.error ⟨.primaryKeyNull, ascii "update with NULL key"⟩)
  else if valid ≠ .ok then
    pure (.error (.ofSchema valid (ascii "update " ++ view.schema.name.name)))
  else if rowPk.eq primaryKey = false then
    pure (.error ⟨.primaryKeyMismatch, ascii "primary key in row (" ++ rowPk.toText
      ++ ascii ") != target key (" ++ primaryKey.toText ++ ascii ")"⟩)
  else do
    let status ← Interaction.query (Request.put (view.encodeKey primaryKey) (view.encodeRow row))
    pure (if status ≠ .ok then .error (.ofStatus "put" status) else .ok ())

/-- A row that is not there counts as removed. -/
def remove (view : TableView) (primaryKey : Value) : Access (Except RelError Unit) := do
  if primaryKey.isNull then pure (.error ⟨.primaryKeyNull, ascii "remove with NULL key"⟩)
  else do
    let status ← Interaction.query (Request.remove (view.encodeKey primaryKey))
    pure (if status ≠ .ok ∧ status ≠ .notFound then .error (.ofStatus "remove" status) else .ok ())

def truncate (view : TableView) : Access (Except RelError Unit) := do
  let status ← Interaction.query
    (Request.writeBatch [.removeRange view.keyPrefix (KeySpace.prefixEnd view.keyPrefix)])
  pure (if status ≠ .ok then .error (.ofStatus "remove_range" status) else .ok ())

end TableView

namespace KVCatalog

def openTable (db table : Identifier) : Access (Except RelError TableView) := do
  if !(← isOpen) then pure (.error ⟨.notOpen, ascii "kv engine is not open"⟩)
  else do
    let record ← readSchema db table
    match record.1 with
    | some schema => pure (.ok ⟨db, schema⟩)
    | none =>
      if record.2 ≠ .ok then pure (.error (.ofStatus "read table schema" record.2))
      else pure (.error (tableNotFound db table))

/-- Nothing if this cannot be told. -/
def primaryKeyExists (db table : Identifier) (primaryKey : Value) : Access (Option Bool) := do
  if !(← isOpen) || db.name = [] || table.name = [] || primaryKey.isNull then pure none
  else
    match ← openTable db table with
    | .error _ => pure none
    | .ok view =>
      match ← view.find primaryKey with
      | .ok _ => pure (some true)
      | .error error => pure (if error.code = .notFound then some false else none)

end KVCatalog

/-! ## On plain content -/

section Content

variable (data : Data) (view : TableView)

namespace TableView

theorem run_find {primaryKey : Value} (hnull : primaryKey.isNull = false) :
    (view.find primaryKey).run Data.serve data =
      (match data.find (view.encodeKey primaryKey) with
        | some value => view.decodeRow value
        | none => .error ⟨.notFound, ascii "row not found in " ++ view.schema.name.name⟩, data) := by
  unfold find
  rw [hnull]
  cases hfound : data.find (view.encodeKey primaryKey) with
  | none | some => simp [Data.serve, hfound, Kv.SharedStore.found]

theorem run_scan (range : KeyRange) (ascending : Bool) :
    (view.scan range ascending).run Data.serve data
      = (view.decodeRows (data.scan (view.physicalRange range ascending)), data) := by
  unfold scan
  simp [Data.serve]

theorem run_insert (row : Row) : (view.insert row).run Data.serve data =
    if view.schema.validateRow row ≠ .ok then
      (.error (.ofSchema (view.schema.validateRow row)
        (ascii "insert into " ++ view.schema.name.name)), data)
    else if (view.schema.primaryKeyOf row).isNull = true then
      (.error ⟨.primaryKeyNull, ascii "insert with NULL key"⟩, data)
    else if (data.find (view.encodeKey (view.schema.primaryKeyOf row))).isSome = true then
      (.error ⟨.duplicatePrimaryKey, ascii "duplicate primary key in " ++ view.schema.name.name
        ++ ascii ": " ++ (view.schema.primaryKeyOf row).toText⟩, data)
    else
      (.ok (), data.insert (view.encodeKey (view.schema.primaryKeyOf row)) (view.encodeRow row)) := by
  unfold insert
  by_cases hvalid : view.schema.validateRow row = .ok
  · cases hnull : (view.schema.primaryKeyOf row).isNull with
    | true => simp [hvalid, hnull]
    | false =>
      cases hfound : data.find (view.encodeKey (view.schema.primaryKeyOf row)) with
      | none =>
        simp [hvalid, hnull, Data.serve, hfound]
        rfl
      | some value => simp [hvalid, hnull, Data.serve, hfound]
  · simp [hvalid]

theorem run_update (primaryKey : Value) (row : Row) :
    (view.update primaryKey row).run Data.serve data =
    if primaryKey.isNull = true then (.error ⟨.primaryKeyNull, ascii "update with NULL key"⟩, data)
    else if view.schema.validateRow row ≠ .ok then
      (.error (.ofSchema (view.schema.validateRow row) (ascii "update " ++ view.schema.name.name)),
        data)
    else if (view.schema.primaryKeyOf row).eq primaryKey = false then
      (.error ⟨.primaryKeyMismatch, ascii "primary key in row ("
        ++ (view.schema.primaryKeyOf row).toText ++ ascii ") != target key (" ++ primaryKey.toText
        ++ ascii ")"⟩, data)
    else (.ok (), data.insert (view.encodeKey primaryKey) (view.encodeRow row)) := by
  unfold update
  cases hnull : primaryKey.isNull with
  | true => simp
  | false =>
    by_cases hvalid : view.schema.validateRow row = .ok
    · cases heq : (view.schema.primaryKeyOf row).eq primaryKey with
      | false => simp [hvalid, heq]
      | true =>
        simp [hvalid, heq, Data.serve]
        rfl
    · simp [hvalid]

theorem run_remove (primaryKey : Value) : (view.remove primaryKey).run Data.serve data =
    if primaryKey.isNull = true then (.error ⟨.primaryKeyNull, ascii "remove with NULL key"⟩, data)
    else (.ok (), applyOp data (.remove (view.encodeKey primaryKey))) := by
  unfold remove
  cases primaryKey.isNull <;> simp [Data.serve]

theorem run_truncate : view.truncate.run Data.serve data
    = (.ok (), applyOp data (.removeRange view.keyPrefix (KeySpace.prefixEnd view.keyPrefix))) := by
  unfold truncate
  simp [Data.serve, applyOps]

end TableView

namespace KVCatalog

variable (db table : Identifier)

@[simp] theorem run_openTable : (openTable db table).run Data.serve data =
    (match schemaOf data db table with
      | some schema => .ok ⟨db, schema⟩
      | none => .error (tableNotFound db table), data) := by
  unfold openTable
  cases hschema : schemaOf data db table <;> simp [hschema]

end KVCatalog

end Content

end SqlDb.Sql
