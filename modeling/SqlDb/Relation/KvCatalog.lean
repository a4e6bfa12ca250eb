/-
  THE CATALOG  (`KVCatalog`, relation/kv_catalog.h, relation/kv_catalog.cpp).

  The catalog has no state but the database in use; everything else it keeps in the key-value store,
  under the keys of `Keys`.  Its operations are programs that make requests of the engine.  Many of
  their results are bare truth values, and many failures are passed over in silence.

  Run against plain content, every operation has ONE EQUATION, which says when it succeeds and what the
  content is afterwards: `run_createDatabase`, `run_removeDatabase`, `run_createTable`, `run_dropTable`,
  `run_touchTable`.  The equations are in terms of what the content says: its databases
  (`databasesOf`), the tables of a database (`tablesOf`), the schema of a table (`schemaOf`).

  The database in use is handed in and out.  `now` is what the clock says.
-/
import SqlDb.Relation.CatalogFormat
import SqlDb.Relation.KeyPrefix
import SqlDb.Relation.Table
import SqlDb.Storage.Access

namespace SqlDb.Sql.KVCatalog

open Interaction

open Kv (Access Request Status Data applyOp applyOps)

/-! ## Reading and writing records -/

def isOpen : Access Bool := Interaction.query Request.isOpen

/-- The value of a key, empty if there is none or if it cannot be read, and the status of the read
    (`last_read_status`). -/
def readMeta (key : Bytes) : Access (Bytes × Status) := do
  if !(← isOpen) then pure ([], .ok)
  else do
    let found ← Interaction.query (Request.get key)
    if found.1 = .notFound then pure ([], .ok)
    else if found.1 ≠ .ok then pure ([], found.1)
    else pure (found.2.getD [], .ok)

def writeMeta (key value : Bytes) : Access Bool := do
  if !(← isOpen) then pure false
  else do
    let status ← Interaction.query (Request.put key value)
    pure (status = .ok)

/-- Deletes all keys of a prefix. -/
def removePrefix (p : Bytes) : Access Bool := do
  if !(← isOpen) || p = [] then pure false
  else do
    let status ← Interaction.query (Request.writeBatch [.removeRange p (KeySpace.prefixEnd p)])
    pure (status = .ok)

/-! ## What there is -/

def listDatabases : Access (List Identifier) := do
  let record ← readMeta Keys.databases
  pure (parseNames record.1)

def listTables (db : Identifier) : Access (List Identifier) := do
  let record ← readMeta (Keys.dbTables db)
  pure (parseNames record.1)

def writeTableList (db : Identifier) (tables : List Identifier) : Access Bool :=
  writeMeta (Keys.dbTables db) (serializeNames tables)

def databaseExists (db : Identifier) : Access Bool := do
  let dbs ← listDatabases
  pure (dbs.any fun name => name.eq db)

def tableExists (db table : Identifier) : Access Bool := do
  let tables ← listTables db
  pure (tables.any fun name => name.eq table)

/-- The schema, and the status of the read. -/
def readSchema (db table : Identifier) : Access (Option TableSchema × Status) := do
  let record ← readMeta (Keys.dbSchema db table)
  if record.1 = [] then pure (none, record.2)
  else pure ((TableSchema.deserialize record.1).toOption, record.2)

def getTableSchema (db table : Identifier) : Access (Option TableSchema) := do
  let record ← readSchema db table
  pure record.1

/-- `use_database`: whether it could be done, and the database in use. -/
def useDatabase (current db : Identifier) : Access (Bool × Identifier) := do
  if ← databaseExists db then pure (true, db) else pure (false, current)

/-! ## Databases -/

/-- The list of the databases comes first; it is restored if the list of tables cannot be written. -/
def createDatabase (now : Int64) (db : Identifier) : Access Bool := do
  if !(← isOpen) || db.name = [] then pure false
  else if ← databaseExists db then pure false
  else do
    let dbs ← listDatabases
    if !(← writeMeta Keys.databases (serializeNames (dbs ++ [db]))) then pure false
    else if !(← writeTableList db []) then do
      let _ ← writeMeta Keys.databases (serializeNames dbs)
      pure false
    else do
      let _ ← writeMeta (Keys.dbStats db) (encodeStats ⟨now, 0, -1⟩)
      pure true

/-- The part of `drop_database` that works on the store. -/
def removeDatabase (db : Identifier) : Access Bool := do
  if !(← isOpen) then pure false
  else if !(← databaseExists db) then pure false
  else if !(← removePrefix (Keys.dbSchemaPrefix db)) then pure false
  else if !(← removePrefix (Keys.dbDataPrefix db)) then pure false
  else if !(← removePrefix (Keys.tableStatsPrefix db)) then pure false
  else do
    let _ ← Interaction.query (Request.remove (Keys.dbStats db))
    let _ ← Interaction.query (Request.remove (Keys.dbTables db))
    let dbs ← listDatabases
    writeMeta Keys.databases (serializeNames (dbs.eraseP fun name => name.eq db))

/-- `drop_database`: whether it could be done, and the database in use. -/
def dropDatabase (current db : Identifier) : Access (Bool × Identifier) := do
  if ← removeDatabase db then pure (true, if current.eq db then ⟨[], false⟩ else current)
  else pure (false, current)

/-! ## Tables -/

def createTable (now : Int64) (db : Identifier) (schema : TableSchema) : Access Bool := do
  if !(← isOpen) then pure false
  else if !(← databaseExists db) then pure false
  else if schema.columns = [] then pure false
  else if ← tableExists db schema.name then pure false
  else if schema.validate ≠ .ok then pure false
  else if !(← writeMeta (Keys.dbSchema db schema.name) schema.serialize) then pure false
  else do
    let _ ← writeMeta (Keys.tableStats db schema.name) (encodeStats ⟨now, 0, 0⟩)
    let tables ← listTables db
    if !(← writeTableList db (tables ++ [schema.name])) then do
      let _ ← Interaction.query (Request.remove (Keys.dbSchema db schema.name))
      pure false
    else pure true

/-- The data go first. -/
def dropTable (db table : Identifier) : Access Bool := do
  if !(← isOpen) then pure false
  else if !(← databaseExists db) then pure false
  else if !(← tableExists db table) then pure false
  else if !(← removePrefix (Keys.dataPrefix db table)) then pure false
  else do
    let _ ← Interaction.query (Request.remove (Keys.dbSchema db table))
    let _ ← Interaction.query (Request.remove (Keys.tableStats db table))
    let tables ← listTables db
    writeTableList db (tables.eraseP fun name => name.eq table)

/-! ## Statistics -/

def tableNotFound (db table : Identifier) : RelError :=
  ⟨.tableNotFound, ascii "table not found: " ++ db.name ++ ascii "." ++ table.name⟩

/-- A record that cannot be read counts as one without any information. -/
def tableStats (db table : Identifier) : Access (Except RelError StatsRecord) := do
  if !(← tableExists db table) then pure (.error (tableNotFound db table))
  else do
    let record ← readMeta (Keys.tableStats db table)
    pure (.ok ((decodeStats record.1).getD ⟨0, 0, -1⟩))

/-- A number of rows that is known changes by `delta`, and never falls below 0. -/
def adjustRows (rows delta : Int64) : Int64 :=
  if rows ≥ 0 then if rows + delta < 0 then 0 else rows + delta else rows

def touchTable (now : Int64) (db table : Identifier) (rowDelta : Int64) : Access Bool := do
  if !(← tableExists db table) then pure false
  else do
    let stats ← tableStats db table
    let old := stats.toOption.getD ⟨0, 0, -1⟩
    writeMeta (Keys.tableStats db table)
      (encodeStats ⟨old.createdAt, now, adjustRows old.rowCount rowDelta⟩)

/-! ## On plain content -/

variable (data : Data)

/-- The record under a key, empty if there is none. -/
def metaOf (key : Bytes) : Bytes := (data.find key).getD []

def databasesOf : List Identifier := parseNames (metaOf data Keys.databases)

def tablesOf (db : Identifier) : List Identifier :=
  parseNames (metaOf data (Keys.dbTables db))

def hasDatabase (db : Identifier) : Bool :=
  (databasesOf data).any fun name => name.eq db

def hasTable (db table : Identifier) : Bool :=
  (tablesOf data db).any fun name => name.eq table

def schemaOf (db table : Identifier) : Option TableSchema :=
  if metaOf data (Keys.dbSchema db table) = [] then none
  else (TableSchema.deserialize (metaOf data (Keys.dbSchema db table))).toOption

def statsOf (db table : Identifier) : StatsRecord :=
  (decodeStats (metaOf data (Keys.tableStats db table))).getD ⟨0, 0, -1⟩

section Content

variable (data : Data) (now : Int64) (db table : Identifier)

@[simp] theorem run_isOpen : isOpen.run Data.serve data = (true, data) := rfl

@[simp] theorem run_readMeta (key : Bytes) :
    (readMeta key).run Data.serve data = ((metaOf data key, .ok), data) := by
  unfold readMeta metaOf
  cases hfound : data.find key with
  | none | some => simp [Data.serve, hfound, Kv.SharedStore.found]

@[simp] theorem run_writeMeta (key value : Bytes) :
    (writeMeta key value).run Data.serve data = (true, data.insert key value) := rfl

@[simp] theorem run_removePrefix {p : Bytes} (hp : p ≠ []) : (removePrefix p).run Data.serve data
    = (true, applyOp data (.removeRange p (KeySpace.prefixEnd p))) := by
  unfold removePrefix
  simp [hp, Data.serve, applyOps]

@[simp] theorem run_listDatabases :
    listDatabases.run Data.serve data = (databasesOf data, data) := by
  simp [listDatabases, databasesOf]

@[simp] theorem run_listTables :
    (listTables db).run Data.serve data = (tablesOf data db, data) := by
  simp [listTables, tablesOf]

@[simp] theorem run_databaseExists :
    (databaseExists db).run Data.serve data = (hasDatabase data db, data) := by
  simp [databaseExists, hasDatabase]

@[simp] theorem run_tableExists :
    (tableExists db table).run Data.serve data = (hasTable data db table, data) := by
  simp [tableExists, hasTable]

@[simp] theorem run_readSchema :
    (readSchema db table).run Data.serve data = ((schemaOf data db table, .ok), data) := by
  unfold readSchema schemaOf
  rw [run_bind, run_readMeta]
  split <;> rfl

@[simp] theorem run_getTableSchema :
    (getTableSchema db table).run Data.serve data = (schemaOf data db table, data) := by
  simp [getTableSchema]

@[simp] theorem run_writeTableList (tables : List Identifier) :
    (writeTableList db tables).run Data.serve data
      = (true, data.insert (Keys.dbTables db) (serializeNames tables)) := rfl

@[simp] theorem run_tableStats : (tableStats db table).run Data.serve data
    = (if hasTable data db table then .ok (statsOf data db table) else .error (tableNotFound db table),
        data) := by
  unfold tableStats statsOf
  rw [run_bind, run_tableExists]
  cases hasTable data db table <;> simp

/-! ## The operations -/

/-- The content with another database. -/
def withDatabase : Data :=
  ((data.insert Keys.databases (serializeNames (databasesOf data ++ [db]))).insert
    (Keys.dbTables db) (serializeNames [])).insert (Keys.dbStats db) (encodeStats ⟨now, 0, -1⟩)

theorem run_createDatabase : (createDatabase now db).run Data.serve data =
    if db.name = [] ∨ hasDatabase data db = true then (false, data)
    else (true, withDatabase data now db) := by
  unfold createDatabase
  by_cases hname : db.name = []
  · simp [hname]
  · cases hdb : hasDatabase data db <;> simp [hname, hdb, withDatabase]

/-- What is left when the prefixes and the two records of a database are gone. -/
def clearedDatabase : Data := applyOps
  [.removeRange (Keys.dbSchemaPrefix db) (KeySpace.prefixEnd (Keys.dbSchemaPrefix db)),
    .removeRange (Keys.dbDataPrefix db) (KeySpace.prefixEnd (Keys.dbDataPrefix db)),
    .removeRange (Keys.tableStatsPrefix db) (KeySpace.prefixEnd (Keys.tableStatsPrefix db)),
    .remove (Keys.dbStats db), .remove (Keys.dbTables db)] data

/-- What is left when the data and the two records of a table are gone. -/
def clearedTable : Data := applyOps
  [.removeRange (Keys.dataPrefix db table) (KeySpace.prefixEnd (Keys.dataPrefix db table)),
    .remove (Keys.dbSchema db table), .remove (Keys.tableStats db table)] data

theorem find_insert_encode (key key' : CatalogKey) (value : Bytes) :
    (data.insert key.encode value).find key'.encode
      = if key' = key then some value else data.find key'.encode := by
  rw [SortedMap.find_insert]
  exact if_congr CatalogKey.encode_eq_iff rfl rfl

/-- Deleting a prefix that ends in a slash. -/
theorem find_removePrefix (p k : Bytes) :
    (applyOp data (.removeRange (p ++ ascii "/") (KeySpace.prefixEnd (p ++ ascii "/")))).find k
      = if p ++ ascii "/" <+: k then none else data.find k := by
  rw [Kv.find_applyOp, Kv.Op.answer_removeRange]
  by_cases hpre : p ++ ascii "/" <+: k
  · obtain ⟨hstart, hstop⟩ := (Keys.range_slash_iff p k).mpr hpre
    rw [if_pos hpre, if_pos (by simp [hstart, hstop])]
    rfl
  · have hout : ¬ (!decide (k < p ++ ascii "/")
        && decide (k < KeySpace.prefixEnd (p ++ ascii "/"))) = true := by
      intro h
      rw [Bool.and_eq_true, Bool.not_eq_true', decide_eq_false_iff_not, decide_eq_true_eq] at h
      exact hpre ((Keys.range_slash_iff p k).mp h)
    rw [if_neg hpre, if_neg hout]
    rfl

theorem find_remove (key k : Bytes) :
    (applyOp data (.remove key)).find k = if k = key then none else data.find k := by
  rw [Kv.find_applyOp]
  simp only [Kv.Op.answer]
  split <;> rfl

/-- **The keys of a database are gone**, and no others. -/
theorem find_clearedDatabase (k : Bytes) : (clearedDatabase data db).find k =
    if Keys.dbSchemaPrefix db <+: k ∨ Keys.dbDataPrefix db <+: k ∨ Keys.tableStatsPrefix db <+: k ∨
      k = Keys.dbStats db ∨ k = Keys.dbTables db then none else data.find k := by
  unfold clearedDatabase applyOps
  simp only [List.foldl_cons, List.foldl_nil]
  rw [find_remove, find_remove]
  unfold Keys.dbSchemaPrefix Keys.dbDataPrefix Keys.tableStatsPrefix
  rw [find_removePrefix, find_removePrefix, find_removePrefix]
  grind

/-- **The keys of a table are gone**, and no others. -/
theorem find_clearedTable (k : Bytes) : (clearedTable data db table).find k =
    if Keys.dataPrefix db table <+: k ∨ k = Keys.dbSchema db table ∨ k = Keys.tableStats db table
    then none else data.find k := by
  unfold clearedTable applyOps
  simp only [List.foldl_cons, List.foldl_nil]
  rw [find_remove, find_remove]
  unfold Keys.dataPrefix
  rw [find_removePrefix]
  grind

/-- The keys of a database, as the layout has them. -/
theorem find_clearedDatabase_encode (key : CatalogKey) : (clearedDatabase data db).find key.encode
    = if key.db = some db.lower then none else data.find key.encode := by
  rw [find_clearedDatabase]
  refine if_congr ?_ rfl rfl
  rw [Keys.dbSchemaPrefix_prefix_iff, Keys.dbDataPrefix_prefix_iff,
    Keys.tableStatsPrefix_prefix_iff, Keys.dbStats_eq, Keys.dbTables_eq]
  cases key <;> simp [CatalogKey.family, CatalogKey.db]

theorem find_clearedTable_encode (key : CatalogKey) : (clearedTable data db table).find key.encode
    = if key.table = some (db.lower, table.lower) then none else data.find key.encode := by
  rw [find_clearedTable]
  refine if_congr ?_ rfl rfl
  rw [Keys.dataPrefix_prefix_iff, Keys.dbSchema_eq, Keys.tableStats_eq]
  cases key <;> simp [CatalogKey.table]

/-- The list of the databases is not among the keys of a database. -/
theorem databasesOf_clearedDatabase : databasesOf (clearedDatabase data db) = databasesOf data := by
  unfold databasesOf metaOf
  rw [Keys.databases_eq, find_clearedDatabase_encode, if_neg (by simp [CatalogKey.db])]

theorem tablesOf_clearedTable : tablesOf (clearedTable data db table) db = tablesOf data db := by
  unfold tablesOf metaOf
  rw [Keys.dbTables_eq, find_clearedTable_encode, if_neg (by simp [CatalogKey.table])]

/-- The content without a database. -/
def withoutDatabase : Data := (clearedDatabase data db).insert Keys.databases
  (serializeNames ((databasesOf data).eraseP fun name => name.eq db))

theorem run_removeDatabase : (removeDatabase db).run Data.serve data =
    if hasDatabase data db = false then (false, data) else (true, withoutDatabase data db) := by
  unfold removeDatabase withoutDatabase
  cases hdb : hasDatabase data db with
  | false => simp [hdb]
  | true =>
    have hschema : Keys.dbSchemaPrefix db ≠ [] := by simp [Keys.dbSchemaPrefix, ascii]
    have hdata : Keys.dbDataPrefix db ≠ [] := by simp [Keys.dbDataPrefix, ascii]
    have hstats : Keys.tableStatsPrefix db ≠ [] := by simp [Keys.tableStatsPrefix, ascii]
    rw [← databasesOf_clearedDatabase data db]
    simp [hdb, hschema, hdata, hstats, Data.serve, applyOps, clearedDatabase]

/-- The content without a table. -/
def withoutTable : Data := (clearedTable data db table).insert (Keys.dbTables db)
  (serializeNames ((tablesOf data db).eraseP fun name => name.eq table))

theorem run_dropTable : (dropTable db table).run Data.serve data =
    if hasDatabase data db = false ∨ hasTable data db table = false then (false, data)
    else (true, withoutTable data db table) := by
  unfold dropTable withoutTable
  cases hdb : hasDatabase data db with
  | false => simp [hdb]
  | true =>
    cases htable : hasTable data db table with
    | false => simp [hdb, htable]
    | true =>
      have hdata : Keys.dataPrefix db table ≠ [] := by simp [Keys.dataPrefix, ascii]
      rw [← tablesOf_clearedTable data db table]
      simp [hdb, htable, hdata, Data.serve, applyOps, clearedTable]

/-- The content with another table. -/
def withTable (schema : TableSchema) : Data :=
  ((data.insert (Keys.dbSchema db schema.name) schema.serialize).insert
    (Keys.tableStats db schema.name) (encodeStats ⟨now, 0, 0⟩)).insert (Keys.dbTables db)
      (serializeNames (tablesOf data db ++ [schema.name]))

theorem run_createTable (schema : TableSchema) : (createTable now db schema).run Data.serve data =
    if hasDatabase data db = false ∨ schema.columns = [] ∨ hasTable data db schema.name = true ∨
      schema.validate ≠ .ok then (false, data)
    else (true, withTable data now db schema) := by
  unfold createTable withTable
  cases hdb : hasDatabase data db with
  | false => simp [hdb]
  | true =>
    by_cases hcolumns : schema.columns = []
    · simp [hdb, hcolumns]
    · cases htable : hasTable data db schema.name with
      | true => simp [hdb, hcolumns, htable]
      | false =>
        by_cases hvalid : schema.validate = .ok
        · -- neither record is the list of the tables
          have hlist : ∀ schemaRecord statsRecord, tablesOf ((data.insert (Keys.dbSchema db schema.name)
              schemaRecord).insert (Keys.tableStats db schema.name) statsRecord) db
              = tablesOf data db := by
            intro schemaRecord statsRecord
            unfold tablesOf metaOf
            rw [Keys.dbTables_eq, Keys.dbSchema_eq, Keys.tableStats_eq]
            simp [find_insert_encode]
          simp [hdb, hcolumns, htable, hvalid, hlist]
        · simp [hdb, hcolumns, htable, hvalid]

/-- The content with other statistics of a table. -/
def withStats (stats : StatsRecord) : Data := data.insert (Keys.tableStats db table) (encodeStats stats)

theorem run_touchTable (rowDelta : Int64) : (touchTable now db table rowDelta).run Data.serve data =
    if hasTable data db table = false then (false, data)
    else (true, withStats data db table ⟨(statsOf data db table).createdAt, now,
      adjustRows (statsOf data db table).rowCount rowDelta⟩) := by
  unfold touchTable withStats
  cases htable : hasTable data db table with
  | false => simp [htable]
  | true => simp [htable, Except.toOption]

/-! ## The operations, key by key -/

def recordAt (key : CatalogKey) : Option Bytes := data.find key.encode

/-- The names of a list. -/
def namesAt (key : CatalogKey) : List Identifier := parseNames ((recordAt data key).getD [])

theorem databasesOf_eq : databasesOf data = namesAt data .databases := by
  unfold databasesOf metaOf
  rw [Keys.databases_eq]
  rfl

theorem tablesOf_eq : tablesOf data db = namesAt data (.dbTables db.lower) := by
  unfold tablesOf metaOf
  rw [Keys.dbTables_eq]
  rfl

section ByKey

variable (key : CatalogKey)

theorem recordAt_withDatabase : recordAt (withDatabase data now db) key =
    if key = .dbStats db.lower then some (encodeStats ⟨now, 0, -1⟩)
    else if key = .dbTables db.lower then some (serializeNames [])
    else if key = .databases then some (serializeNames (namesAt data .databases ++ [db]))
    else recordAt data key := by
  unfold withDatabase recordAt
  rw [databasesOf_eq, Keys.databases_eq, Keys.dbTables_eq, Keys.dbStats_eq, find_insert_encode,
    find_insert_encode, find_insert_encode]

theorem recordAt_withoutDatabase : recordAt (withoutDatabase data db) key =
    if key = .databases then
      some (serializeNames ((namesAt data .databases).eraseP fun name => name.eq db))
    else if key.db = some db.lower then none else recordAt data key := by
  unfold withoutDatabase recordAt
  rw [databasesOf_eq, Keys.databases_eq, find_insert_encode, find_clearedDatabase_encode]

theorem recordAt_withTable (schema : TableSchema) : recordAt (withTable data now db schema) key =
    if key = .dbTables db.lower then
      some (serializeNames (namesAt data (.dbTables db.lower) ++ [schema.name]))
    else if key = .tableStats db.lower schema.name.lower then some (encodeStats ⟨now, 0, 0⟩)
    else if key = .dbSchema db.lower schema.name.lower then some schema.serialize
    else recordAt data key := by
  unfold withTable recordAt
  rw [tablesOf_eq, Keys.dbSchema_eq, Keys.tableStats_eq, Keys.dbTables_eq, find_insert_encode,
    find_insert_encode, find_insert_encode]

theorem recordAt_withoutTable : recordAt (withoutTable data db table) key =
    if key = .dbTables db.lower then
      some (serializeNames ((namesAt data (.dbTables db.lower)).eraseP fun name => name.eq table))
    else if key.table = some (db.lower, table.lower) then none else recordAt data key := by
  unfold withoutTable recordAt
  rw [tablesOf_eq, Keys.dbTables_eq, find_insert_encode, find_clearedTable_encode]

theorem recordAt_withStats (stats : StatsRecord) : recordAt (withStats data db table stats) key =
    if key = .tableStats db.lower table.lower then some (encodeStats stats)
    else recordAt data key := by
  unfold withStats recordAt
  rw [Keys.tableStats_eq, find_insert_encode]

end ByKey

/-! ## Isolation -/

/-- **What a drop does**: the keys of the target are gone, the list it stood in is rewritten, and no
    other key changes. -/
structure Drops (owns : CatalogKey → Prop) (listKey : CatalogKey) (names : List Identifier)
    (data data' : Data) : Prop where
  gone : ∀ key, owns key → key ≠ listKey → data'.find key.encode = none
  listed : data'.find listKey.encode = some (serializeNames names)
  kept : ∀ key, ¬ owns key → key ≠ listKey → data'.find key.encode = data.find key.encode

variable {data db table} {data' : Data}

theorem drops_table (h : (dropTable db table).run Data.serve data = (true, data')) :
    Drops (fun key => key.table = some (db.lower, table.lower)) (.dbTables db.lower)
      ((tablesOf data db).eraseP fun name => name.eq table) data data' := by
  rw [run_dropTable] at h
  split at h
  · simp at h
  · obtain rfl := (Prod.mk.inj h).2
    have hat := recordAt_withoutTable data db table
    rw [tablesOf_eq]
    exact ⟨fun key hkey hlist => by rw [← recordAt, hat, if_neg hlist, if_pos hkey],
      by rw [← recordAt, hat, if_pos rfl],
      fun key hkey hlist => by rw [← recordAt, hat, if_neg hlist, if_neg hkey, recordAt]⟩

theorem drops_database (h : (removeDatabase db).run Data.serve data = (true, data')) :
    Drops (fun key => key.db = some db.lower) .databases
      ((databasesOf data).eraseP fun name => name.eq db) data data' := by
  rw [run_removeDatabase] at h
  split at h
  · simp at h
  · obtain rfl := (Prod.mk.inj h).2
    have hat := recordAt_withoutDatabase data db
    rw [databasesOf_eq]
    exact ⟨fun key hkey hlist => by rw [← recordAt, hat, if_neg hlist, if_pos hkey],
      by rw [← recordAt, hat, if_pos rfl],
      fun key hkey hlist => by rw [← recordAt, hat, if_neg hlist, if_neg hkey, recordAt]⟩

end Content

/-- **The key space is isolated.**  A key of a table starts with the prefix of a table or of a database
    exactly if it is its own; the keys of a prefix are one interval; and so dropping a table or a
    database removes all its keys and no other. -/
theorem keySpace_isolated (db table db' table' : Identifier) :
    (∀ primaryKey pkType, Keys.dataPrefix db' table' <+: Keys.dataKey db table primaryKey pkType ↔
      db.eq db' = true ∧ table.eq table' = true) ∧
    (∀ primaryKey pkType, Keys.dbDataPrefix db' <+: Keys.dataKey db table primaryKey pkType ↔
      db.eq db' = true) ∧
    (Keys.dbSchemaPrefix db' <+: Keys.dbSchema db table ↔ db.eq db' = true) ∧
    (Keys.tableStatsPrefix db' <+: Keys.tableStats db table ↔ db.eq db' = true) ∧
    (∀ p ∈ [Keys.dataPrefix db table, Keys.dbDataPrefix db, Keys.dbSchemaPrefix db,
        Keys.tableStatsPrefix db], ∀ k : Bytes,
      (¬ k < p ∧ k < KeySpace.prefixEnd p) ↔ p <+: k) ∧
    (∀ data data', (dropTable db table).run Data.serve data = (true, data') →
      Drops (fun key => key.table = some (db.lower, table.lower)) (.dbTables db.lower)
        ((tablesOf data db).eraseP fun name => name.eq table) data data') ∧
    (∀ current data data' current',
      (dropDatabase current db).run Data.serve data = ((true, current'), data') →
      Drops (fun key => key.db = some db.lower) .databases
        ((databasesOf data).eraseP fun name => name.eq db) data data') := by
  have heq : ∀ {a b : Identifier}, a.eq b = true ↔ a.lower = b.lower := decide_eq_true_iff
  refine ⟨fun primaryKey pkType => ?_, fun primaryKey pkType => ?_, ?_, ?_, ?_, ?_, ?_⟩
  · unfold Keys.dataKey
    rw [Keys.dataPrefix_append, Keys.dataPrefix_prefix_iff, heq, heq]
    simp
  · unfold Keys.dataKey
    rw [Keys.dataPrefix_append, Keys.dbDataPrefix_prefix_iff, heq]
    simp [CatalogKey.family, CatalogKey.db]
  · rw [Keys.dbSchema_eq, Keys.dbSchemaPrefix_prefix_iff, heq]
    simp [CatalogKey.family, CatalogKey.db]
  · rw [Keys.tableStats_eq, Keys.tableStatsPrefix_prefix_iff, heq]
    simp [CatalogKey.family, CatalogKey.db]
  · intro p hp k
    simp only [List.mem_cons, List.not_mem_nil, or_false] at hp
    rcases hp with rfl | rfl | rfl | rfl <;> exact Keys.range_slash_iff _ k
  · exact fun data data' h => drops_table h
  · intro current data data' current' h
    unfold dropDatabase at h
    rw [run_bind] at h
    generalize hrun : (removeDatabase db).run Data.serve data = result at h
    obtain ⟨ok, data''⟩ := result
    cases ok with
    | false => exact absurd (congrArg (·.1.1) h) (by simp)
    | true =>
      obtain rfl : data'' = data' := (Prod.mk.inj h).2
      exact drops_database hrun

/-- A database, and a table of it. -/
def shop : Identifier := ⟨ascii "shop", false⟩

def orders : Identifier := ⟨ascii "orders", false⟩

/-- The first row of a table. -/
def firstRow (db table : String) : CatalogKey := .data (ascii db) (ascii table) [1]

/-- Two tables of `shop` and one of `shops`, each with a row. -/
def shopData : Data :=
  [(Keys.databases, serializeNames [shop, ⟨ascii "shops", false⟩]),
    (Keys.dbTables shop, serializeNames [orders, ⟨ascii "orders2", false⟩]),
    ((firstRow "shop" "orders").encode, [10]), ((firstRow "shop" "orders2").encode, [20]),
    ((firstRow "shops" "orders").encode, [30])].foldl (fun data p => data.insert p.1 p.2) default

/-- Only the rows of what is dropped are gone, also if another name starts with its name. -/
theorem keySpace_isolated_drop :
    let tableGone := ((dropTable shop orders).run Data.serve shopData).2
    let dbGone := ((dropDatabase shop shop).run Data.serve shopData).2
    tableGone.find (firstRow "shop" "orders").encode = none ∧
    tableGone.find (CatalogKey.dbTables shop.lower).encode
      = some (serializeNames [⟨ascii "orders2", false⟩]) ∧
    tableGone.find (firstRow "shop" "orders2").encode = some [20] ∧
    dbGone.find (firstRow "shop" "orders2").encode = none ∧
    dbGone.find (firstRow "shops" "orders").encode = some [30] := by
  obtain ⟨-, -, -, -, -, htable, hdb⟩ := keySpace_isolated shop orders shop orders
  have htable := htable shopData _ (Prod.ext (y := (true, _)) (by decide +kernel) rfl)
  have hdb := hdb shop shopData _ _
    (Prod.ext (y := ((true, _), _)) (Prod.ext (by decide +kernel) rfl) rfl)
  exact ⟨htable.gone _ (by decide +kernel) (by decide), htable.listed.trans (by decide +kernel),
    (htable.kept _ (by decide +kernel) (by decide)).trans (by decide +kernel),
    hdb.gone _ (by decide +kernel) (by decide),
    (hdb.kept _ (by decide +kernel) (by decide)).trans (by decide +kernel)⟩

end SqlDb.Sql.KVCatalog
