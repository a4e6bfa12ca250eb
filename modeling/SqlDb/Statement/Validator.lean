/-
  THE VALIDATOR  (statement/stmt_validator.cpp; the errors of statement/stmt_defs.h).

  Before anything is executed a statement is checked against the catalog: that the database, the table
  and the columns are there, that values go into their columns, and that the primary keys of an INSERT
  are not taken.  The validator reads and never writes (`looks_validate`); its answer is no error, or the
  first one.

  WHERE the conflicts of an INSERT are looked for is a matter of positions: a row of VALUES has one
  value for each column of the column list, and the primary key is the value at the FIRST position
  whose column is the primary key.  A column may be listed more than once.

  Columns of a schema are told apart by their places, as the source tells them apart by their addresses.
-/
import SqlDb.Relation.KvTable
import SqlDb.SqlTypes.Query

namespace SqlDb.Stmt

open Sql
open Kv (Access)

/-! ## Errors -/

inductive StmtErrorCode
  | ok
  | validatorNotInit | databaseAlreadyExists | databaseNotFound | tableAlreadyExists | tableNotFound
  | columnNotFound | duplicateColumn | columnCountMismatch | columnTypeMismatch
  | columnAttrNullMismatch | valueOutOfRange | duplicatePrimaryKey | noPrimaryKey | invalidSchema
  | emptyStatement
deriving DecidableEq

/-- A code, and a text for the user. -/
structure StmtError where
  code : StmtErrorCode
  message : Bytes
deriving DecidableEq

/-- The code under which an error of a schema is reported. -/
def mapSchemaError : SchemaError → StmtErrorCode
  | .ok => .ok
  | .duplicatePrimaryKey => .duplicatePrimaryKey
  | .noPrimaryKey => .noPrimaryKey
  | .duplicateColumnName => .duplicateColumn
  | .columnNotFound => .columnNotFound
  | .columnSizeMismatch => .columnCountMismatch
  | .columnTypeMismatch => .columnTypeMismatch
  | .columnAttrNullMismatch => .columnAttrNullMismatch
  | .valueOutOfRange => .valueOutOfRange
  | .invalidRow | .invalidFormat | .invalidColumnDef => .invalidSchema

/-- Checks read the catalog and stop at the first error. -/
abbrev Check := ExceptT StmtError Access

/-! ## Columns and values -/

/-- All columns of a tree, from left to right. -/
def conditionColumns : Condition → List Identifier
  | .compare column _ _ => [column]
  | .inList column _ _ => [column]
  | .junction _ left right => conditionColumns left ++ conditionColumns right
  | .not child => conditionColumns child

/-- The error for a column that the table does not have. -/
def columnNotFound (column : Identifier) : StmtError :=
  ⟨.columnNotFound, ascii "column not found: " ++ column.name⟩

/-- The table has the column. -/
def requireColumn (schema : TableSchema) (column : Identifier) : Except StmtError Unit :=
  if schema.columnIndex column = none then .error (columnNotFound column) else .ok ()

/-- The table has all of them; the first that is missing is named. -/
def requireColumns (schema : TableSchema) (columns : List Identifier) : Except StmtError Unit :=
  columns.forM (requireColumn schema)

/-- A missing WHERE names no column. -/
def checkConditionColumns (where_ : Option Condition) (schema : TableSchema) :
    Except StmtError Unit :=
  requireColumns schema ((where_.map conditionColumns).getD [])

/-- The value may go into the column: its type, its size, NULL. -/
def checkValue (column : ColumnDef) (value : Value) : Except StmtError Unit :=
  let error := TableSchema.validateValue column value
  if error ≠ .ok then
    .error ⟨mapSchemaError error, TableSchema.errorMessage error ++ ascii " @ " ++ column.name.name⟩
  else .ok ()

section

-- the database in use
variable (current : Identifier)

/-! ## Databases and tables -/

/-- A database that is not named is the one in use. -/
def resolveDatabase (explicitDb : Identifier) : Identifier :=
  if explicitDb.name ≠ [] then explicitDb else current

/-- A database is in use, or named, and is in the catalog. -/
def requireDatabase (db : Identifier) : Check Unit := do
  if db.name = [] then
    throw ⟨.databaseNotFound, ascii "no database selected; use USE <database> first"⟩
  else if !(← KVCatalog.databaseExists db) then
    throw ⟨.databaseNotFound, ascii "database not found: " ++ db.name⟩
  else pure ()

/-- The schema of a table, or the error that says what is missing. -/
def loadTable (db table : Identifier) : Check TableSchema := do
  if table.name = [] then throw ⟨.tableNotFound, ascii "table name is empty"⟩
  else do
    requireDatabase db
    match ← KVCatalog.getTableSchema db table with
    | some schema => pure schema
    | none =>
      throw ⟨.tableNotFound, ascii "table not found: " ++ db.name ++ ascii "." ++ table.name⟩

/-- The name must be new. -/
def validateCreateDatabase (db : Identifier) : Check Unit := do
  if ← KVCatalog.databaseExists db then
    throw ⟨.databaseAlreadyExists, ascii "database already exists: " ++ db.name⟩
  else pure ()

/-- The name must be new in its database, and the schema valid. -/
def validateCreateTable (query : CreateTableQuery) : Check Unit := do
  let db := resolveDatabase current query.database
  requireDatabase db
  if ← KVCatalog.tableExists db query.table then
    throw ⟨.tableAlreadyExists, ascii "table already exists: " ++ query.table.name⟩
  else do
    let error := (TableSchema.ofColumns query.table query.columns).validate
    if error ≠ .ok then
      throw ⟨mapSchemaError error, ascii "invalid table schema: " ++ TableSchema.errorMessage error⟩
    else pure ()

/-- The table must be there. -/
def validateDropTable (query : DropTableQuery) : Check Unit := do
  let _ ← loadTable (resolveDatabase current query.database) query.table
  pure ()

/-- The database must be there. -/
def validateUse (db : Identifier) : Check Unit := do
  if !(← KVCatalog.databaseExists db) then
    throw ⟨.databaseNotFound, ascii "database not found: " ++ db.name⟩
  else pure ()

/-! ## SELECT, UPDATE, DELETE -/

/-- The columns listed, then those of WHERE, then those of ORDER BY. -/
def checkSelect (schema : TableSchema) (query : SelectQuery) : Except StmtError Unit := do
  if !query.selectAll then
    requireColumns schema
      ((query.columns.filter fun ref => !ref.isWildcard).map fun ref => ref.column)
  checkConditionColumns query.where_ schema
  requireColumns schema (query.orderBy.map fun item => item.column)

def validateSelect (query : SelectQuery) : Check Unit := do
  let schema ← loadTable current query.table
  Interaction.ofExcept (checkSelect schema query)

/-- The value is checked before the column is found to be the primary key. -/
def checkAssignment (schema : TableSchema) (assignment : Assignment) : Except StmtError Unit :=
  match (schema.columnIndex assignment.column).bind fun i => schema.columns[i]? with
  | none => .error (columnNotFound assignment.column)
  | some column => do
    checkValue column assignment.value
    if column.primaryKey then
      .error ⟨.invalidSchema,
        ascii "primary key column cannot be updated: " ++ column.name.name⟩
    else .ok ()

/-- All assignments, in their order, before WHERE. -/
def checkUpdate (schema : TableSchema) (query : UpdateQuery) : Except StmtError Unit :=
  if query.assignments = [] then .error ⟨.emptyStatement, ascii "UPDATE has no assignments"⟩
  else do
    query.assignments.forM (checkAssignment schema)
    checkConditionColumns query.where_ schema

def validateUpdate (query : UpdateQuery) : Check Unit := do
  let schema ← loadTable current query.table
  Interaction.ofExcept (checkUpdate schema query)

def validateDelete (query : DeleteQuery) : Check Unit := do
  let schema ← loadTable current query.table
  Interaction.ofExcept (checkConditionColumns query.where_ schema)

/-! ## INSERT -/

/-- The places of the columns that the values are for. -/
def targetColumns (schema : TableSchema) (columns : List Identifier) : Except StmtError (List Nat) :=
  if columns = [] then .ok (List.range schema.columns.length)
  else
    columns.mapM fun name =>
      match schema.columnIndex name with
      | none => .error (columnNotFound name)
      | some index => .ok index

/-- Each value goes into its column. -/
def checkValues (schema : TableSchema) (targets : List Nat) (row : List Value) :
    Except StmtError Unit :=
  (targets.zip row).forM fun (index, value) =>
    match schema.columns[index]? with
    | some column => checkValue column value
    | none => .ok ()

/-- There is no default but NULL. -/
def checkUnmentioned (schema : TableSchema) (targets : List Nat) : Except StmtError Unit :=
  schema.columns.zipIdx.forM fun (column, index) =>
    if !targets.contains index && !column.nullable then
      .error ⟨.columnAttrNullMismatch, ascii "missing value for NOT NULL column: " ++ column.name.name⟩
    else .ok ()

/-- One row of VALUES. -/
def checkRow (schema : TableSchema) (targets : List Nat) (row : List Value) :
    Except StmtError Unit :=
  if row.length ≠ targets.length then
    .error ⟨.columnCountMismatch, ascii "value count does not match column count"⟩
  else do
    checkValues schema targets row
    checkUnmentioned schema targets

/-- All rows; the places of their columns are used again for the keys. -/
def checkInsert (schema : TableSchema) (query : InsertQuery) : Except StmtError (List Nat) :=
  if query.values = [] then .error ⟨.columnCountMismatch, ascii "INSERT has no values"⟩
  else do
    let targets ← targetColumns schema query.columns
    query.values.forM (checkRow schema targets)
    return targets

/-- Keys that are in use, by this statement (`seen`) or in the table.  What cannot be told is left to
    the executor. -/
def checkKeys (table : Identifier) (keyType : DataType) (valueIndex : Nat) :
    List Key → List (List Value) → Check Unit
  | _, [] => pure ()
  | seen, row :: rest => do
    let pk := row[valueIndex]?.getD .null
    if pk.isNull then checkKeys table keyType valueIndex seen rest
    else if KeyCodecs.toKey pk keyType ∈ seen then
      throw ⟨.duplicatePrimaryKey, ascii "duplicate primary key in this INSERT: " ++ pk.toText⟩
    else if (← KVCatalog.primaryKeyExists current table pk) = some true then
      throw ⟨.duplicatePrimaryKey, ascii "duplicate primary key: " ++ pk.toText
        ++ ascii " already exists in " ++ table.name⟩
    else checkKeys table keyType valueIndex (KeyCodecs.toKey pk keyType :: seen) rest

/-- Nothing is looked up if the primary key is not among the columns. -/
def checkPrimaryKeyConflicts (schema : TableSchema) (query : InsertQuery) (targets : List Nat) :
    Check Unit :=
  match schema.primaryKeyIndex, schema.primaryKeyColumn with
  | some place, some key =>
    match targets.idxOf? place with
    | some valueIndex => checkKeys current query.table key.type valueIndex [] query.values
    | none => pure ()
  | _, _ => pure ()

/-- Keys are looked up only when every row is well formed. -/
def validateInsert (query : InsertQuery) : Check Unit := do
  let schema ← loadTable current query.table
  let targets ← Interaction.ofExcept (checkInsert schema query)
  checkPrimaryKeyConflicts current schema query targets

/-! ## Statements -/

/-- Statements on databases and tables. -/
def validateCatalog : CatalogQuery → Check Unit
  | .createDatabase db => validateCreateDatabase db
  | .dropDatabase db => requireDatabase db
  | .createTable query => validateCreateTable current query
  | .dropTable query => validateDropTable current query
  | .useDatabase db => validateUse db

/-- Statements on rows. -/
def validateDml : DmlQuery → Check Unit
  | .select query => validateSelect current query
  | .insert query => validateInsert current query
  | .update query => validateUpdate current query
  | .delete query => validateDelete current query

/-- Transaction statements need no check. -/
def validate (query : Query) : Check Unit := do
  if !(← KVCatalog.isOpen) then
    throw ⟨.validatorNotInit, ascii "catalog is not open; open a database first"⟩
  else
    match query with
    | .transaction _ => pure ()
    | .catalog query => validateCatalog current query
    | .dml query => validateDml current query

end

end SqlDb.Stmt
