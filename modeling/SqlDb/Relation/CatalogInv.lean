/-
  WHAT THE CATALOG KEEPS TRUE.

  A statement on the catalog writes several records: a list of names, a schema, statistics, rows.  No
  record says which others there have to be, so that nothing but the operations themselves keeps them
  together.  What they keep is `Inv`:

  * the names of a list are distinct, and are what was written;
  * every key belongs to a database and a table that are listed;
  * a table that is listed has a schema, which is valid, and no other table has one;
  * every row can be decoded by the schema of its table, and stands under its own primary key.

  The operations act on the content KEY BY KEY, and every clause of `Inv` is about some keys at a time.
  So each operation is one lemma (`Inv.createTable`, ...) from its description by keys, and the writes
  of rows and statistics, which leave all lists and schemas alone, are one lemma together
  (`Inv.of_same`).
-/
import SqlDb.Relation.KvTable

namespace SqlDb.Sql

open Kv (Access Request Status Data applyOp applyOps)
open KeyCodecs (toKey)

/-! ## Lists of names -/

/-- The name is in the list, in lower case. -/
def Listed (names : List Identifier) (name : Bytes) : Prop := ∃ n ∈ names, n.lower = name

/-- Distinct names that are read back as they are. -/
structure Names (names : List Identifier) : Prop where
  distinct : names.Pairwise fun a b => a.eq b = false
  plain : ∀ n ∈ names, n.Plain ∧ n.unquoted = n

section Lists

variable {names : List Identifier} {name : Identifier}

theorem Identifier.eq_iff {a b : Identifier} : a.eq b = true ↔ a.lower = b.lower := decide_eq_true_iff

theorem Identifier.eq_false_iff {a b : Identifier} : a.eq b = false ↔ a.lower ≠ b.lower := by
  rw [← Bool.not_eq_true, Identifier.eq_iff]

theorem any_eq_iff : (names.any fun n => n.eq name) = true ↔ Listed names name.lower := by
  rw [List.any_eq_true]
  exact exists_congr fun n => and_congr_right fun _ => Identifier.eq_iff

theorem names_nil : Names [] := ⟨List.Pairwise.nil, by simp⟩

theorem Names.read (h : Names names) : KVCatalog.parseNames (KVCatalog.serializeNames names) = names := by
  rw [KVCatalog.parseNames_serializeNames fun n hn => (h.plain n hn).1]
  exact (List.map_congr_left fun n hn => (h.plain n hn).2).trans (List.map_id _)

/-- A new name is appended as it is read back. -/
theorem Names.append (h : Names names) (hname : name.Plain) (hnew : ¬ Listed names name.lower) :
    KVCatalog.parseNames (KVCatalog.serializeNames (names ++ [name])) = names ++ [name.unquoted] ∧
      Names (names ++ [name.unquoted]) := by
  have hplain : ∀ n ∈ names ++ [name], n.Plain := by
    intro n hn
    rcases mem_snoc.mp hn with hn | hn
    · exact (h.plain n hn).1
    · rwa [hn]
  have hsame : names.map Identifier.unquoted = names :=
    (List.map_congr_left fun n hn => (h.plain n hn).2).trans (List.map_id _)
  refine ⟨?_, ?_, ?_⟩
  · rw [KVCatalog.parseNames_serializeNames hplain, List.map_append, hsame]
    rfl
  · refine List.pairwise_append.mpr ⟨h.distinct, List.pairwise_singleton _ _, fun a ha b hb => ?_⟩
    rw [List.mem_singleton.mp hb, Identifier.eq_false_iff]
    exact fun heq => hnew ⟨a, ha, heq⟩
  · intro n hn
    rcases mem_snoc.mp hn with hn | hn
    · exact h.plain n hn
    · rw [hn]
      exact ⟨hname, rfl⟩

theorem Names.erase (h : Names names) (p : Identifier → Bool) : Names (names.eraseP p) :=
  ⟨h.distinct.sublist List.eraseP_sublist, fun n hn => h.plain n (List.mem_of_mem_eraseP hn)⟩

theorem listed_iff {b : Bytes} : Listed names b ↔ b ∈ names.map Identifier.lower := List.mem_map.symm

theorem listed_append {b : Bytes} :
    Listed (names ++ [name.unquoted]) b ↔ Listed names b ∨ b = name.lower := by
  simp only [listed_iff, List.map_append, List.mem_append, List.map_singleton, List.mem_singleton]
  rfl

/-- Distinct names: erasing the first that is equal erases all that are. -/
theorem Names.listed_erase (h : Names names) {b : Bytes} :
    Listed (names.eraseP fun n => n.eq name) b ↔ Listed names b ∧ b ≠ name.lower := by
  have hnodup : (names.map Identifier.lower).Nodup :=
    List.pairwise_map.mpr (h.distinct.imp Identifier.eq_false_iff.mp)
  have herase : (names.eraseP fun n => n.eq name).map Identifier.lower
      = (names.map Identifier.lower).erase name.lower := by
    rw [List.erase_eq_eraseP', List.eraseP_map]
    congr 2
    funext n
    exact (beq_eq_decide ..).symm
  rw [listed_iff, listed_iff, herase, hnodup.mem_erase_iff, and_comm]

end Lists

/-! ## Schemas and rows in the store -/

variable {schema : TableSchema}

namespace TableSchema

/-- A schema that has been read back, of the table with this name. -/
structure Stored (schema : TableSchema) (table : Bytes) : Prop where
  valid : schema.validate = .ok
  built : schema.WellBuilt
  count : schema.columns.length ≤ kMaxColumns
  name : schema.name.lower = table

theorem pairwise_unquoted {columns : List ColumnDef} :
    (columns.map unquotedColumn).Pairwise (fun a b => a.name.eq b.name = false) ↔
      columns.Pairwise fun a b => a.name.eq b.name = false := by
  rw [List.pairwise_map]
  exact Iff.rfl

theorem primaryKeyColumn_unquoted (schema : TableSchema) :
    schema.unquoted.primaryKeyColumn = schema.primaryKeyColumn.map unquotedColumn := by
  unfold primaryKeyColumn unquoted
  cases schema.primaryKeyIndex <;> simp

theorem validate_unquoted (h : schema.validate = .ok) : schema.unquoted.validate = .ok := by
  unfold validate at h ⊢
  rw [primaryKeyColumn_unquoted, if_neg (by simp [unquoted])]
  split at h
  · rename_i herror
    exact absurd h herror
  · cases hkey : schema.primaryKeyColumn with
    | none =>
      rw [hkey] at h
      simp at h
    | some key =>
      rw [hkey] at h
      have hmarked : (schema.unquoted.columns.filter ColumnDef.primaryKey).length
          = (schema.columns.filter ColumnDef.primaryKey).length := by
        show ((schema.columns.map unquotedColumn).filter ColumnDef.primaryKey).length = _
        rw [List.filter_map, List.length_map]
        rfl
      have hdistinct : schema.unquoted.columns.Pairwise (fun a b => a.name.eq b.name = false) ↔
          schema.columns.Pairwise fun a b => a.name.eq b.name = false := pairwise_unquoted
      simp only [Option.map_some, hmarked, hdistinct]
      exact h

theorem WellBuilt.unquoted (h : schema.WellBuilt) : schema.unquoted.WellBuilt where
  declared := by
    intro column hcolumn
    obtain ⟨c, hc, rfl⟩ := List.mem_map.mp hcolumn
    exact h.declared c hc
  distinct := pairwise_unquoted.mpr h.distinct
  key := by
    intro i
    show schema.primaryKeyIndex = some i ↔ ∃ column,
      (schema.columns.map unquotedColumn)[i]? = some column ∧ column.primaryKey = true
    rw [h.key i, List.getElem?_map]
    constructor
    · rintro ⟨c, hc, hpk⟩
      exact ⟨unquotedColumn c, by rw [hc]; rfl, hpk⟩
    · rintro ⟨c, hc, hpk⟩
      obtain ⟨c', hc', rfl⟩ := Option.map_eq_some_iff.mp hc
      exact ⟨c', hc', hpk⟩

/-- The bytes are a row of the schema, and this is its key. -/
def StoredRow (schema : TableSchema) (key value : Bytes) : Prop :=
  ∃ row, Row.deserialize value schema = .ok row ∧
    key = toKey (schema.primaryKeyOf row) schema.primaryKeyType

theorem toKey_of_eq {v w : Value} (h : v.eq w = true) (t : DataType) : toKey v t = toKey w t := by
  have hnull : v.isNull = w.isNull := by
    cases v <;> cases w <;> first | rfl | simp [Value.eq] at h
  unfold toKey
  rw [hnull, KeyRange.encodeValue_of_eq h]

theorem primaryKeyOf_of_eq {row row' : Row} (h : Row.eq row' row = true) :
    (schema.primaryKeyOf row').eq (schema.primaryKeyOf row) = true := by
  have hat : ∀ i : Nat, (row'[i]?.getD .null).eq (row[i]?.getD .null) = true := by
    intro i
    induction row' generalizing row i with
    | nil =>
      cases row with
      | nil => rfl
      | cons v row => simp [Row.eq, List.isEqv] at h
    | cons v' row' ih =>
      cases row with
      | nil => simp [Row.eq, List.isEqv] at h
      | cons v row =>
        have hparts : (v'.eq v && Row.eq row' row) = true := h
        rw [Bool.and_eq_true] at hparts
        cases i with
        | zero => exact hparts.1
        | succ i => exact ih hparts.2 i
  unfold primaryKeyOf
  cases schema.primaryKeyIndex with
  | none => rfl
  | some i => exact hat i

/-- A row that the schema accepts is stored under the key of its primary key, and under that of any
    value equal to it. -/
theorem storedRow_of_valid {table : Bytes} (h : schema.Stored table) {row : Row}
    (hrow : schema.validateRow row = .ok) {primaryKey : Value}
    (hkey : (schema.primaryKeyOf row).eq primaryKey = true) :
    schema.StoredRow (toKey primaryKey schema.primaryKeyType) (row.serialize schema) := by
  have hcount : schema.columns.length < 2 ^ 32 := h.count.trans_lt (by decide)
  obtain ⟨row', hread, heq⟩ := Row.deserialize_serialize hrow
    (Row.fitsFormat_of_declared hcount h.built.declared hrow)
  refine ⟨row', hread, ?_⟩
  rw [toKey_of_eq (primaryKeyOf_of_eq heq), toKey_of_eq hkey]

end TableSchema

namespace KVCatalog

/-! ## The content, key by key -/

section Views

variable (data : Data)

def schemaAt (db table : Bytes) : Option TableSchema :=
  match recordAt data (.dbSchema db table) with
  | none => none
  | some record => if record = [] then none else (TableSchema.deserialize record).toOption

theorem schemaOf_eq (db table : Identifier) :
    schemaOf data db table = schemaAt data db.lower table.lower := by
  unfold schemaOf schemaAt metaOf recordAt
  rw [Keys.dbSchema_eq]
  cases data.find (CatalogKey.dbSchema db.lower table.lower).encode <;> simp

theorem hasDatabase_iff (db : Identifier) :
    hasDatabase data db = true ↔ Listed (namesAt data .databases) db.lower := by
  unfold hasDatabase
  rw [any_eq_iff, databasesOf_eq]

theorem hasTable_iff (db table : Identifier) :
    hasTable data db table = true ↔ Listed (namesAt data (.dbTables db.lower)) table.lower := by
  unfold hasTable
  rw [any_eq_iff, tablesOf_eq]

end Views

variable {data data' : Data}

theorem namesAt_congr {key : CatalogKey}
    (h : recordAt data' key = recordAt data key) : namesAt data' key = namesAt data key := by
  unfold namesAt
  rw [h]

variable {db table : Bytes}

theorem schemaAt_congr
    (h : recordAt data' (.dbSchema db table) = recordAt data (.dbSchema db table)) :
    schemaAt data' db table = schemaAt data db table := by
  unfold schemaAt
  rw [h]

/-! ## The invariant -/

/-- All keys are keys of the layout. -/
def Laid (data : Data) : Prop := ∀ k v, data.find k = some v → ∃ key : CatalogKey, k = key.encode

variable {data : Data}

theorem Laid.insert (h : Laid data) (key : CatalogKey) (value : Bytes) :
    Laid (data.insert key.encode value) := by
  intro k v hfind
  rw [SortedMap.find_insert] at hfind
  split_ifs at hfind with hk
  · exact ⟨key, hk⟩
  · exact h k v hfind

/-- Taking keys away. -/
theorem Laid.sub (h : Laid data)
    (hsub : ∀ k v, data'.find k = some v → data.find k = some v) : Laid data' :=
  fun k v hfind => h k v (hsub k v hfind)

section Layout

variable {data : Data} (h : Laid data)
include h

theorem Laid.withDatabase (now : Int64) (db : Identifier) : Laid (withDatabase data now db) := by
  unfold KVCatalog.withDatabase
  rw [Keys.databases_eq, Keys.dbTables_eq, Keys.dbStats_eq]
  exact ((h.insert _ _).insert _ _).insert _ _

theorem Laid.withTable (now : Int64) (db : Identifier) (schema : TableSchema) :
    Laid (withTable data now db schema) := by
  unfold KVCatalog.withTable
  rw [Keys.dbSchema_eq, Keys.tableStats_eq, Keys.dbTables_eq]
  exact ((h.insert _ _).insert _ _).insert _ _

theorem Laid.withoutDatabase (db : Identifier) : Laid (withoutDatabase data db) := by
  unfold KVCatalog.withoutDatabase
  rw [Keys.databases_eq]
  refine Laid.insert (h.sub fun k v hfind => ?_) _ _
  rw [find_clearedDatabase] at hfind
  split at hfind
  · simp at hfind
  · exact hfind

theorem Laid.withoutTable (db table : Identifier) : Laid (withoutTable data db table) := by
  unfold KVCatalog.withoutTable
  rw [Keys.dbTables_eq]
  refine Laid.insert (h.sub fun k v hfind => ?_) _ _
  rw [find_clearedTable] at hfind
  split at hfind
  · simp at hfind
  · exact hfind

end Layout

structure Inv (data : Data) : Prop where
  laid : Laid data
  databases : Names (namesAt data .databases)
  tables : ∀ db, Names (namesAt data (.dbTables db))
  dbListed : ∀ key v, recordAt data key = some v → ∀ db, key.db = some db →
    Listed (namesAt data .databases) db
  tableListed : ∀ key v, recordAt data key = some v → ∀ db table, key.table = some (db, table) →
    Listed (namesAt data (.dbTables db)) table
  schema : ∀ db table, Listed (namesAt data (.dbTables db)) table →
    ∃ schema, schemaAt data db table = some schema ∧ schema.Stored table
  rows : ∀ db table key v schema, recordAt data (.data db table key) = some v →
    schemaAt data db table = some schema → schema.StoredRow key v

/-- The clauses about one table. -/
structure TableOk (data : Data) (db table : Bytes) : Prop where
  listed : ∀ key v, recordAt data key = some v → key.table = some (db, table) →
    Listed (namesAt data (.dbTables db)) table
  schema : Listed (namesAt data (.dbTables db)) table →
    ∃ schema, schemaAt data db table = some schema ∧ schema.Stored table
  rows : ∀ key v schema, recordAt data (.data db table key) = some v →
    schemaAt data db table = some schema → schema.StoredRow key v

theorem Inv.tableOk (h : Inv data) (db table : Bytes) : TableOk data db table :=
  ⟨fun key v hkey => h.tableListed key v hkey db table, h.schema db table, h.rows db table⟩

/-- A table that is not touched. -/
theorem TableOk.congr (h : TableOk data db table)
    (hsame : ∀ key : CatalogKey, key.table = some (db, table) → recordAt data' key = recordAt data key)
    (hlisted : Listed (namesAt data' (.dbTables db)) table ↔ Listed (namesAt data (.dbTables db)) table) :
    TableOk data' db table := by
  have hschema : schemaAt data' db table = schemaAt data db table := schemaAt_congr (hsame _ rfl)
  refine ⟨fun key v hrecord hkey => ?_, fun hmem => ?_, fun key v schema hrecord hread => ?_⟩
  · rw [hsame key hkey] at hrecord
    exact hlisted.mpr (h.listed key v hrecord hkey)
  · rw [hschema]
    exact h.schema (hlisted.mp hmem)
  · rw [hsame _ rfl] at hrecord
    exact h.rows key v schema hrecord (hschema ▸ hread)

/-- A table of which nothing is left. -/
theorem TableOk.gone
    (hnone : ∀ key : CatalogKey, key.table = some (db, table) → recordAt data key = none)
    (hlisted : ¬ Listed (namesAt data (.dbTables db)) table) : TableOk data db table where
  listed := fun key v hrecord hkey => by
    rw [hnone key hkey] at hrecord
    simp at hrecord
  schema := fun hmem => absurd hmem hlisted
  rows := fun key v schema hrecord => by
    rw [hnone _ rfl] at hrecord
    simp at hrecord

theorem inv_of_tables (hlaid : Laid data) (hdatabases : Names (namesAt data .databases))
    (htables : ∀ db, Names (namesAt data (.dbTables db)))
    (hdb : ∀ key v, recordAt data key = some v → ∀ db, key.db = some db →
      Listed (namesAt data .databases) db) (htable : ∀ db table, TableOk data db table) : Inv data :=
  ⟨hlaid, hdatabases, htables, hdb, fun key v hrecord db table => (htable db table).listed key v hrecord,
    fun db table => (htable db table).schema, fun db table => (htable db table).rows⟩

/-- Nothing is in an empty store. -/
theorem inv_default : Inv default := by
  have hnone : ∀ key, recordAt default key = none := fun key => rfl
  refine inv_of_tables ?_ names_nil (fun _ => names_nil) ?_ fun db table => .gone (fun _ _ => rfl) ?_
  · intro k v h
    simp [show SortedMap.find (default : Data) k = none from rfl] at h
  · intro key v h
    simp [hnone] at h
  · rintro ⟨n, hn, -⟩
    exact absurd hn List.not_mem_nil

section Steps

variable {data data' : Data} (h : Inv data)
include h

/-- Without a list of tables there are none. -/
theorem Inv.namesAt_eq_nil {db : Bytes} (hdb : ¬ Listed (namesAt data .databases) db) :
    namesAt data (.dbTables db) = [] := by
  unfold namesAt
  cases hrecord : recordAt data (.dbTables db) with
  | none => rfl
  | some v => exact absurd (h.dbListed _ v hrecord db rfl) hdb

theorem Inv.recordAt_eq_none {key : CatalogKey} (hkey : key.table = some (db, table))
    (htable : ¬ Listed (namesAt data (.dbTables db)) table) : recordAt data key = none := by
  cases hrecord : recordAt data key with
  | none => rfl
  | some v => exact absurd (h.tableListed key v hrecord db table hkey) htable

/-- **Writes of rows and statistics.**  Lists and schemas stay; what is new belongs to a table, and is
    a row of it. -/
theorem Inv.of_same (hlaid : Laid data')
    (hsame : ∀ key : CatalogKey, key.family ≠ .tableStats → key.family ≠ .data →
      recordAt data' key = recordAt data key)
    (hnew : ∀ key v, recordAt data' key = some v → recordAt data key = some v ∨
      ∃ db table, key.table = some (db, table) ∧ Listed (namesAt data .databases) db ∧
        Listed (namesAt data (.dbTables db)) table ∧
        ∀ rest schema, key = .data db table rest → schemaAt data db table = some schema →
          schema.StoredRow rest v) : Inv data' := by
  have hdbs : namesAt data' .databases = namesAt data .databases :=
    namesAt_congr (hsame _ (by simp [CatalogKey.family]) (by simp [CatalogKey.family]))
  have htables : ∀ db, namesAt data' (.dbTables db) = namesAt data (.dbTables db) := fun db =>
    namesAt_congr (hsame _ (by simp [CatalogKey.family]) (by simp [CatalogKey.family]))
  have hschemas : ∀ db table, schemaAt data' db table = schemaAt data db table := fun db table =>
    schemaAt_congr (hsame _ (by simp [CatalogKey.family]) (by simp [CatalogKey.family]))
  refine ⟨hlaid, ?_, fun db => ?_, ?_, ?_, ?_, ?_⟩
  · rw [hdbs]
    exact h.databases
  · rw [htables]
    exact h.tables db
  · intro key v hrecord db hdb
    rw [hdbs]
    rcases hnew key v hrecord with hold | ⟨db', table, htable, hlisted, -, -⟩
    · exact h.dbListed key v hold db hdb
    · rw [CatalogKey.db_of_table htable] at hdb
      rwa [← Option.some.inj hdb]
  · intro key v hrecord db table htable
    rw [htables]
    rcases hnew key v hrecord with hold | ⟨db', table', htable', -, hlisted, -⟩
    · exact h.tableListed key v hold db table htable
    · rw [htable] at htable'
      cases htable'
      exact hlisted
  · intro db table hlisted
    rw [htables] at hlisted
    rw [hschemas]
    exact h.schema db table hlisted
  · intro db table key v schema hrecord hschema
    rw [hschemas] at hschema
    rcases hnew _ v hrecord with hold | ⟨db', table', htable', -, -, hrow⟩
    · exact h.rows db table key v schema hold hschema
    · cases htable'
      exact hrow key schema rfl hschema

/-! ### Databases -/

/-- Another database. -/
theorem Inv.createDatabase {now : Int64} {db : Identifier} (hdb : ¬ Listed (namesAt data .databases) db.lower)
    (hname : db.Plain) : Inv (withDatabase data now db) := by
  have hat := recordAt_withDatabase data now db
  have hlaid := h.laid.withDatabase now db
  generalize withDatabase data now db = data' at hat hlaid
  obtain ⟨hread, hnames⟩ := h.databases.append hname hdb
  have hdbs : namesAt data' .databases = namesAt data .databases ++ [db.unquoted] := by
    unfold namesAt
    rw [hat, if_neg (by simp), if_neg (by simp), if_pos rfl]
    exact hread
  -- the new list of tables is empty, as the missing one was
  have htables : ∀ db', namesAt data' (.dbTables db') = namesAt data (.dbTables db') := by
    intro db'
    by_cases heq : db' = db.lower
    · rw [heq, h.namesAt_eq_nil hdb]
      unfold namesAt
      rw [hat, if_neg (by simp), if_pos rfl]
      rfl
    · exact namesAt_congr (by rw [hat, if_neg (by simp), if_neg (by simp [heq]), if_neg (by simp)])
  have hother : ∀ key p, key.table = some p → recordAt data' key = recordAt data key := by
    intro key p hkey
    rw [hat, if_neg, if_neg, if_neg] <;> rintro rfl <;> simp [CatalogKey.table] at hkey
  refine inv_of_tables hlaid ?_ (fun db' => ?_) (fun key v hrecord db' hdb' => ?_) fun db' table =>
    (h.tableOk db' table).congr (fun key => hother key _) (by rw [htables])
  · rw [hdbs]
    exact hnames
  · rw [htables]
    exact h.tables db'
  · rw [hdbs, listed_append]
    rw [hat] at hrecord
    split_ifs at hrecord with hkey hkey hkey
    · rw [hkey] at hdb'
      exact Or.inr (Option.some.inj hdb').symm
    · rw [hkey] at hdb'
      exact Or.inr (Option.some.inj hdb').symm
    · rw [hkey] at hdb'
      simp [CatalogKey.db] at hdb'
    · exact Or.inl (h.dbListed key v hrecord db' hdb')

/-- A database less. -/
theorem Inv.removeDatabase {db : Identifier} : Inv (withoutDatabase data db) := by
  have hat := recordAt_withoutDatabase data db
  have hlaid := h.laid.withoutDatabase db
  generalize withoutDatabase data db = data' at hat hlaid
  have hdbs : namesAt data' .databases = (namesAt data .databases).eraseP fun name => name.eq db := by
    unfold namesAt
    rw [hat, if_pos rfl]
    exact (h.databases.erase _).read
  have hother : ∀ key db', key.db = some db' → recordAt data' key
      = if db' = db.lower then none else recordAt data key := by
    intro key db' hkey
    rw [hat, if_neg (by rintro rfl; simp [CatalogKey.db] at hkey), hkey]
    exact if_congr (by simp) rfl rfl
  have htables : ∀ db', namesAt data' (.dbTables db')
      = if db' = db.lower then [] else namesAt data (.dbTables db') := by
    intro db'
    unfold namesAt
    rw [hother _ db' rfl]
    split <;> rfl
  refine inv_of_tables hlaid ?_ (fun db' => ?_) (fun key v hrecord db' hdb' => ?_) fun db' table => ?_
  · rw [hdbs]
    exact h.databases.erase _
  · rw [htables]
    split
    · exact names_nil
    · exact h.tables db'
  · rw [hdbs, h.databases.listed_erase]
    rw [hother key db' hdb'] at hrecord
    split at hrecord
    · simp at hrecord
    · rename_i hne
      exact ⟨h.dbListed key v hrecord db' hdb', hne⟩
  · by_cases heq : db' = db.lower
    · refine .gone (fun key hkey => ?_) ?_
      · rw [hother key db' (CatalogKey.db_of_table hkey), if_pos heq]
      · rw [htables, if_pos heq]
        rintro ⟨n, hn, -⟩
        exact absurd hn List.not_mem_nil
    · refine (h.tableOk db' table).congr (fun key hkey => ?_) (by rw [htables, if_neg heq])
      rw [hother key db' (CatalogKey.db_of_table hkey), if_neg heq]

/-! ### Tables -/

/-- Another table: its schema is read back. -/
theorem Inv.createTable {now : Int64} {db : Identifier}
    (hdb : Listed (namesAt data .databases) db.lower)
    (htable : ¬ Listed (namesAt data (.dbTables db.lower)) schema.name.lower)
    (hvalid : schema.validate = .ok) (hbuilt : schema.WellBuilt)
    (hcount : schema.columns.length ≤ TableSchema.kMaxColumns) (hname : schema.name.Plain)
    (hcolumns : ∀ column ∈ schema.columns, column.name.Plain) :
    Inv (withTable data now db schema) := by
  have hat := fun key => recordAt_withTable data now db key schema
  have hlaid := h.laid.withTable now db schema
  generalize withTable data now db schema = data' at hat hlaid
  obtain ⟨hread, hnames⟩ := (h.tables db.lower).append hname htable
  have hdbs : namesAt data' .databases = namesAt data .databases :=
    namesAt_congr (by rw [hat, if_neg (by simp), if_neg (by simp), if_neg (by simp)])
  have htables : ∀ db', namesAt data' (.dbTables db') =
      if db' = db.lower then namesAt data (.dbTables db.lower) ++ [schema.name.unquoted]
      else namesAt data (.dbTables db') := by
    intro db'
    split_ifs with hne
    · unfold namesAt
      rw [hne, hat, if_pos rfl]
      exact hread
    · exact namesAt_congr (by rw [hat, if_neg (by simp [hne]), if_neg (by simp), if_neg (by simp)])
  have hnew : schemaAt data' db.lower schema.name.lower = some schema.unquoted := by
    unfold schemaAt
    rw [hat, if_neg (by simp), if_neg (by simp), if_pos rfl]
    dsimp only
    rw [if_neg (by simp [TableSchema.serialize]),
      TableSchema.deserialize_serialize hbuilt hcount hname hcolumns]
    rfl
  refine inv_of_tables hlaid ?_ (fun db' => ?_) (fun key v hrecord db' hdb' => ?_) fun db' table => ?_
  · rw [hdbs]
    exact h.databases
  · rw [htables]
    split
    · exact hnames
    · exact h.tables db'
  · rw [hdbs]
    -- the three records belong to the database, the others are old
    by_cases heq : db' = db.lower
    · rwa [heq]
    · rw [hat, if_neg, if_neg, if_neg] at hrecord
      · exact h.dbListed key v hrecord db' hdb'
      all_goals rintro rfl; exact heq (Option.some.inj hdb').symm
  · by_cases heq : (db', table) = (db.lower, schema.name.lower)
    · cases heq
      refine ⟨fun _ _ _ _ => ?_, fun _ => ⟨_, hnew, TableSchema.validate_unquoted hvalid,
        hbuilt.unquoted, by simpa [TableSchema.unquoted] using hcount, rfl⟩, fun key v _ hrecord => ?_⟩
      · rw [htables, if_pos rfl, listed_append]
        exact Or.inr rfl
      · -- rows would have been there before
        rw [hat, if_neg (by simp), if_neg (by simp), if_neg (by simp),
          h.recordAt_eq_none rfl htable] at hrecord
        simp at hrecord
    · refine (h.tableOk db' table).congr (fun key hkey => ?_) ?_
      · rw [hat, if_neg (by rintro rfl; simp [CatalogKey.table] at hkey),
          if_neg (by rintro rfl; exact heq (Option.some.inj hkey).symm),
          if_neg (by rintro rfl; exact heq (Option.some.inj hkey).symm)]
      · rw [htables]
        split_ifs with hdb'
        · subst hdb'
          rw [listed_append, or_iff_left fun htable' => heq (by rw [htable'])]
        · exact Iff.rfl

variable {db table : Identifier}

/-- A table less. -/
theorem Inv.dropTable (hdb : Listed (namesAt data .databases) db.lower) :
    Inv (withoutTable data db table) := by
  have hat := recordAt_withoutTable data db table
  have hlaid := h.laid.withoutTable db table
  generalize withoutTable data db table = data' at hat hlaid
  have hdbs : namesAt data' .databases = namesAt data .databases :=
    namesAt_congr (by rw [hat, if_neg (by simp), if_neg (by simp [CatalogKey.table])])
  have htables : ∀ db', namesAt data' (.dbTables db') =
      if db' = db.lower then (namesAt data (.dbTables db.lower)).eraseP fun name => name.eq table
      else namesAt data (.dbTables db') := by
    intro db'
    split_ifs with hne
    · unfold namesAt
      rw [hne, hat, if_pos rfl]
      exact ((h.tables db.lower).erase _).read
    · exact namesAt_congr (by rw [hat, if_neg (by simp [hne]), if_neg (by simp [CatalogKey.table])])
  have hother : ∀ key p, key.table = some p → recordAt data' key
      = if p = (db.lower, table.lower) then none else recordAt data key := by
    intro key p hkey
    rw [hat, if_neg (by rintro rfl; simp [CatalogKey.table] at hkey), hkey]
    exact if_congr (by simp) rfl rfl
  have hlist : ∀ {db' t}, Listed (namesAt data' (.dbTables db')) t ↔
      Listed (namesAt data (.dbTables db')) t ∧ (db', t) ≠ (db.lower, table.lower) := by
    intro db' t
    rw [htables]
    split_ifs with hne
    · rw [hne, (h.tables db.lower).listed_erase]
      simp
    · simp [hne]
  refine inv_of_tables hlaid ?_ (fun db' => ?_) (fun key v hrecord db' hdb' => ?_) fun db' t => ?_
  · rw [hdbs]
    exact h.databases
  · rw [htables]
    split
    · exact (h.tables db.lower).erase _
    · exact h.tables db'
  · rw [hdbs]
    rw [hat] at hrecord
    split at hrecord
    · rename_i hkey
      rw [hkey] at hdb'
      rwa [← Option.some.inj hdb']
    · split at hrecord
      · simp at hrecord
      · exact h.dbListed key v hrecord db' hdb'
  · by_cases heq : (db', t) = (db.lower, table.lower)
    · refine .gone (fun key hkey => ?_) fun hmem => (hlist.mp hmem).2 heq
      rw [hother key _ hkey, if_pos heq]
    · refine (h.tableOk db' t).congr (fun key hkey => ?_) (hlist.trans (and_iff_left heq))
      rw [hother key _ hkey, if_neg heq]

/-! ### Rows and statistics -/

/-- What opening a table finds. -/
theorem Inv.opened (hopen : schemaOf data db table = some schema) :
    Listed (namesAt data .databases) db.lower ∧
      Listed (namesAt data (.dbTables db.lower)) table.lower ∧ schema.Stored table.lower := by
  rw [schemaOf_eq] at hopen
  obtain ⟨record, hrecord⟩ : ∃ record, recordAt data (.dbSchema db.lower table.lower) = some record := by
    unfold schemaAt at hopen
    cases hrecord : recordAt data (.dbSchema db.lower table.lower) with
    | none =>
      rw [hrecord] at hopen
      simp at hopen
    | some record => exact ⟨record, rfl⟩
  have hlisted := h.tableListed _ record hrecord db.lower table.lower rfl
  obtain ⟨schema', hschema', hstored⟩ := h.schema db.lower table.lower hlisted
  rw [hopen] at hschema'
  rw [Option.some.inj hschema']
  exact ⟨h.dbListed _ record hrecord db.lower rfl, hlisted, hstored⟩

theorem Inv.withStats (htable : hasTable data db table = true)
    (stats : StatsRecord) : Inv (withStats data db table stats) := by
  have hlisted := (hasTable_iff data db table).mp htable
  have hat := fun key => recordAt_withStats data db table key stats
  have hdb : Listed (namesAt data .databases) db.lower := by
    by_contra hdb
    obtain ⟨n, hn, -⟩ := hlisted
    rw [h.namesAt_eq_nil hdb] at hn
    simp at hn
  refine h.of_same ?_ (fun key hstats _ => ?_) fun key v hrecord => ?_
  · unfold KVCatalog.withStats
    rw [Keys.tableStats_eq]
    exact h.laid.insert _ _
  · rw [hat, if_neg (by rintro rfl; exact hstats rfl)]
  · rw [hat] at hrecord
    split_ifs at hrecord with hkey
    · refine Or.inr ⟨db.lower, table.lower, by rw [hkey]; rfl, hdb, hlisted, ?_⟩
      intro rest schema hdata
      rw [hkey] at hdata
      simp at hdata
    · exact Or.inl hrecord

/-- A row of a table. -/
theorem Inv.insert_row {db table rest value : Bytes}
    (hdb : Listed (namesAt data .databases) db) (htable : Listed (namesAt data (.dbTables db)) table)
    (hschema : schemaAt data db table = some schema) (hrow : schema.StoredRow rest value) :
    Inv (data.insert (CatalogKey.encode (.data db table rest)) value) := by
  have hat : ∀ key, recordAt (data.insert (CatalogKey.encode (.data db table rest)) value) key =
      if key = .data db table rest then some value else recordAt data key :=
    fun key => find_insert_encode data _ key value
  refine h.of_same (h.laid.insert _ _) (fun key _ hdata => ?_) fun key v hrecord => ?_
  · rw [hat, if_neg (by rintro rfl; exact hdata rfl)]
  · rw [hat] at hrecord
    split_ifs at hrecord with hkey
    · refine Or.inr ⟨db, table, by rw [hkey]; rfl, hdb, htable, ?_⟩
      intro rest' schema' hrest hschema'
      rw [hkey] at hrest
      rw [hschema] at hschema'
      obtain ⟨-, -, rfl⟩ := CatalogKey.data.inj hrest
      rw [← Option.some.inj hschema', ← Option.some.inj hrecord]
      exact hrow
    · exact Or.inl hrecord

/-- Rows that go leave nothing behind. -/
theorem Inv.remove_rows (hsub : ∀ k, data'.find k = data.find k ∨
      (data'.find k = none ∧ ∃ db table rest, k = CatalogKey.encode (.data db table rest))) :
    Inv data' := by
  refine h.of_same (h.laid.sub fun k v hfind => ?_) (fun key _ hdata => ?_) fun key v hrecord => ?_
  · rcases hsub k with hsame | ⟨hnone, -⟩
    · rw [← hsame]
      exact hfind
    · rw [hnone] at hfind
      simp at hfind
  · rcases hsub key.encode with hsame | ⟨-, db, table, rest, hkey⟩
    · exact hsame
    · rw [CatalogKey.encode_inj hkey] at hdata
      exact absurd rfl hdata
  · rcases hsub key.encode with hsame | ⟨hnone, -⟩
    · exact Or.inl (hsame.symm.trans hrecord)
    · exact absurd (hnone.symm.trans hrecord) (by simp)

end Steps

end KVCatalog

end SqlDb.Sql
