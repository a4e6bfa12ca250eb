/-
  THE CATALOG OVER WHOLE RUNS.

  Any sequence of operations on the catalog and of writes of rows, from an empty store, with storage
  operations succeeding.  As long as names are read back as they were written, every state that is
  reached is SOUND (`catalog_sound`): names are distinct, exactly the listed tables have a schema, no
  key is left without its table, and a table that is created has no rows, whatever had the name before.
  A record changes only by the actions that touch it (`record_untouched`).

  A name in quotes of its own is listed as another name, and so it can be created again
  (`quoted_created_twice`).
-/
import SqlDb.Relation.CatalogInv

namespace SqlDb.Sql.KVCatalog

open Interaction

open Kv (Access Request Status Data applyOp applyOps)
open KeyCodecs (toKey)

/-! ## Runs -/

/-- A write of a row, or of all. -/
inductive RowWrite
  | insert (row : Row)
  | update (primaryKey : Value) (row : Row)
  | remove (primaryKey : Value)
  | truncate

def RowWrite.program (view : TableView) : RowWrite → Access (Except RelError Unit)
  | .insert row => view.insert row
  | .update primaryKey row => view.update primaryKey row
  | .remove primaryKey => view.remove primaryKey
  | .truncate => view.truncate

inductive Action
  | createDatabase (db : Identifier)
  | dropDatabase (current db : Identifier)
  | createTable (db name : Identifier) (columns : List ColumnDef)
  | dropTable (db table : Identifier)
  | touchTable (db table : Identifier) (rowDelta : Int64)
  | writeRow (db table : Identifier) (write : RowWrite)

namespace Action

def program (now : Int64) : Action → Access Bool
  | .createDatabase db => KVCatalog.createDatabase now db
  | .dropDatabase current db => do
    let result ← KVCatalog.dropDatabase current db
    pure result.1
  | .createTable db name columns => KVCatalog.createTable now db (.ofColumns name columns)
  | .dropTable db table => KVCatalog.dropTable db table
  | .touchTable db table rowDelta => KVCatalog.touchTable now db table rowDelta
  | .writeRow db table write => do
    match ← openTable db table with
    | .error _ => pure false
    | .ok view => do
      let result ← write.program view
      pure result.isOk

/-- Whatever is created has names that are read back, and a schema that is. -/
def Regular : Action → Prop
  | .createDatabase db => db.Plain
  | .createTable _ name columns => name.Plain ∧ (∀ column ∈ columns, column.name.Plain) ∧
      columns.length ≤ TableSchema.kMaxColumns
  | _ => True

instance : (action : Action) → Decidable action.Regular
  | .createDatabase db => inferInstanceAs (Decidable db.Plain)
  | .createTable _ name _ => inferInstanceAs (Decidable (name.Plain ∧ _ ∧ _))
  | .dropDatabase .. | .dropTable .. | .touchTable .. | .writeRow .. => .isTrue trivial

end Action

/-- The content after some steps, from an empty store. -/
def contentAfter (steps : List (Int64 × Action)) : Data :=
  steps.foldl (fun data step => ((step.2.program step.1).run Data.serve data).2) default

/-! ## One step -/

section Step

variable {data : Data} (h : Inv data)
include h

theorem Inv.run_createDatabase {now : Int64} {db : Identifier} (hname : db.Plain) :
    Inv ((KVCatalog.createDatabase now db).run Data.serve data).2 := by
  rw [KVCatalog.run_createDatabase]
  split_ifs with hnot
  · exact h
  · rw [not_or] at hnot
    exact h.createDatabase (fun hlisted => hnot.2 ((hasDatabase_iff data db).mpr hlisted)) hname

theorem Inv.run_dropDatabase {current db : Identifier} :
    Inv ((KVCatalog.dropDatabase current db).run Data.serve data).2 := by
  have hstate : ((KVCatalog.dropDatabase current db).run Data.serve data).2
      = ((KVCatalog.removeDatabase db).run Data.serve data).2 := by
    unfold KVCatalog.dropDatabase
    rw [run_bind]
    split <;> rfl
  rw [hstate, KVCatalog.run_removeDatabase]
  split
  · exact h
  · exact h.removeDatabase

theorem Inv.run_createTable {now : Int64} {db : Identifier} {schema : TableSchema}
    (hbuilt : schema.WellBuilt) (hcount : schema.columns.length ≤ TableSchema.kMaxColumns)
    (hname : schema.name.Plain) (hcolumns : ∀ column ∈ schema.columns, column.name.Plain) :
    Inv ((KVCatalog.createTable now db schema).run Data.serve data).2 := by
  rw [KVCatalog.run_createTable]
  split_ifs with hnot
  · exact h
  · simp only [not_or, Bool.not_eq_false, not_not] at hnot
    obtain ⟨hdb, -, htable, hvalid⟩ := hnot
    exact h.createTable ((hasDatabase_iff data db).mp hdb)
      (fun hlisted => htable ((hasTable_iff data db schema.name).mpr hlisted)) hvalid hbuilt hcount
      hname hcolumns

theorem Inv.run_dropTable {db table : Identifier} :
    Inv ((KVCatalog.dropTable db table).run Data.serve data).2 := by
  rw [KVCatalog.run_dropTable]
  split_ifs with hnot
  · exact h
  · simp only [not_or, Bool.not_eq_false] at hnot
    exact h.dropTable ((hasDatabase_iff data db).mp hnot.1)

theorem Inv.run_touchTable {now : Int64} {db table : Identifier} {rowDelta : Int64} :
    Inv ((KVCatalog.touchTable now db table rowDelta).run Data.serve data).2 := by
  rw [KVCatalog.run_touchTable]
  split_ifs with hnot
  · exact h
  · exact h.withStats (by simpa using hnot) _

end Step

/-! ### Rows -/

section Rows

variable {data : Data} {db table : Identifier} {schema : TableSchema} (h : Inv data)
  (hopen : schemaOf data db table = some schema)
include h hopen

/-- The keys of a table that was opened are those of the name it was opened by. -/
theorem Inv.encodeKey_eq (primaryKey : Value) : TableView.encodeKey ⟨db, schema⟩ primaryKey
    = CatalogKey.encode (.data db.lower table.lower (toKey primaryKey schema.primaryKeyType)) := by
  unfold TableView.encodeKey Keys.dataKey
  rw [Keys.dataPrefix_append, (h.opened hopen).2.2.name]

/-- A row that the schema accepts may be written under its key. -/
theorem Inv.put_row {primaryKey : Value} {row : Row} (hrow : schema.validateRow row = .ok)
    (hkey : (schema.primaryKeyOf row).eq primaryKey = true) :
    Inv (data.insert (TableView.encodeKey ⟨db, schema⟩ primaryKey)
      (TableView.encodeRow ⟨db, schema⟩ row)) := by
  obtain ⟨hdb, htable, hstored⟩ := h.opened hopen
  rw [h.encodeKey_eq hopen]
  refine h.insert_row hdb htable ?_ (TableSchema.storedRow_of_valid hstored hrow hkey)
  rw [← schemaOf_eq]
  exact hopen

theorem Inv.run_insert (row : Row) : Inv ((TableView.insert ⟨db, schema⟩ row).run Data.serve data).2 := by
  rw [TableView.run_insert]
  split_ifs with hvalid
  · exact h
  · exact h
  · exact h
  · exact h.put_row hopen (not_not.mp hvalid) (Value.eq_self _)

theorem Inv.run_update (primaryKey : Value) (row : Row) :
    Inv ((TableView.update ⟨db, schema⟩ primaryKey row).run Data.serve data).2 := by
  rw [TableView.run_update]
  split_ifs with _ hvalid heq
  · exact h
  · exact h
  · exact h
  · exact h.put_row hopen (not_not.mp hvalid) (by simpa using heq)

theorem Inv.run_remove (primaryKey : Value) :
    Inv ((TableView.remove ⟨db, schema⟩ primaryKey).run Data.serve data).2 := by
  rw [TableView.run_remove]
  split
  · exact h
  · refine h.remove_rows fun k => ?_
    rw [find_remove]
    split_ifs with hk
    · exact Or.inr ⟨rfl, _, _, _, hk.trans (h.encodeKey_eq hopen primaryKey)⟩
    · exact Or.inl rfl

omit hopen in
theorem Inv.run_truncate (view : TableView) : Inv (view.truncate.run Data.serve data).2 := by
  rw [TableView.run_truncate]
  refine h.remove_rows fun k => ?_
  unfold TableView.keyPrefix Keys.dataPrefix
  rw [find_removePrefix]
  split_ifs with hpre
  · obtain ⟨rest, hk⟩ := (Keys.dataPrefix_prefix_iff view.db view.schema.name).mp hpre
    exact Or.inr ⟨rfl, _, _, rest, hk⟩
  · exact Or.inl rfl

end Rows

/-- **A step keeps the invariant.** -/
theorem Inv.step {data : Data} (h : Inv data) (now : Int64) {action : Action}
    (hregular : action.Regular) : Inv ((action.program now).run Data.serve data).2 := by
  cases action with
  | createDatabase db => exact h.run_createDatabase hregular
  | dropDatabase current db =>
    show Inv (Interaction.run Data.serve (KVCatalog.dropDatabase current db >>= _) data).2
    rw [run_bind]
    exact h.run_dropDatabase
  | createTable db name columns =>
    obtain ⟨hname, hcolumns, hcount⟩ := hregular
    obtain ⟨hsame, hlength, hmem⟩ := TableSchema.foldl_addColumn_sub (.ofName name) columns
    have hshort : (TableSchema.ofName name).columns.length = 0 := rfl
    refine h.run_createTable (TableSchema.wellBuilt_foldl name columns) ?_ ?_ fun column hcolumn => ?_
    · show (TableSchema.ofColumns name columns).columns.length ≤ _
      unfold TableSchema.ofColumns
      omega
    · show (TableSchema.ofColumns name columns).name.Plain
      unfold TableSchema.ofColumns
      rwa [hsame]
    · rcases hmem column hcolumn with hnone | hin
      · simp [TableSchema.ofName] at hnone
      · exact hcolumns column hin
  | dropTable db table => exact h.run_dropTable
  | touchTable db table rowDelta => exact h.run_touchTable
  | writeRow db table write =>
    show Inv (Interaction.run Data.serve (openTable db table >>= _) data).2
    rw [run_bind, run_openTable]
    cases hopen : schemaOf data db table with
    | none => exact h
    | some schema =>
      show Inv (Interaction.run Data.serve (write.program ⟨db, schema⟩ >>= _) data).2
      rw [run_bind]
      cases write with
      | insert row => exact h.run_insert hopen row
      | update primaryKey row => exact h.run_update hopen primaryKey row
      | remove primaryKey => exact h.run_remove hopen primaryKey
      | truncate => exact h.run_truncate _

/-! ## Whole runs -/

/-- What is true of a catalog that was not broken. -/
structure Sound (data : Data) : Prop where
  databases : (databasesOf data).Pairwise fun a b => a.eq b = false
  tables : ∀ db, (tablesOf data db).Pairwise fun a b => a.eq b = false
  listed : ∀ db table, hasTable data db table = true ↔ (schemaOf data db table).isSome = true
  valid : ∀ db table schema, schemaOf data db table = some schema → schema.validate = .ok
  /-- Every key is one of the layout, and its database and its table are there. -/
  owned : ∀ k v, data.find k = some v → ∃ key : CatalogKey, k = key.encode ∧
    (∀ db, key.db = some db → ∃ name ∈ databasesOf data, name.lower = db) ∧
    ∀ db table, key.table = some (db, table) → ∃ name : Identifier, name.lower = db ∧
      ∃ t ∈ tablesOf data name, t.lower = table

theorem Inv.sound {data : Data} (h : Inv data) : Sound data where
  databases := by
    rw [databasesOf_eq]
    exact h.databases.distinct
  tables := by
    intro db
    rw [tablesOf_eq]
    exact (h.tables _).distinct
  listed := by
    intro db table
    rw [hasTable_iff]
    constructor
    · intro hlisted
      obtain ⟨schema, hschema, -⟩ := h.schema _ _ hlisted
      rw [schemaOf_eq, hschema]
      rfl
    · intro hsome
      obtain ⟨schema, hschema⟩ := Option.isSome_iff_exists.mp hsome
      exact (h.opened hschema).2.1
  valid := by
    intro db table schema hschema
    exact (h.opened hschema).2.2.valid
  owned := by
    intro k v hfind
    obtain ⟨key, rfl⟩ := h.laid k v hfind
    refine ⟨key, rfl, fun db hdb => ?_, fun db table htable => ?_⟩
    · rw [databasesOf_eq]
      exact h.dbListed key v hfind db hdb
    · -- the database is listed, and so has a name
      obtain ⟨name, hname, hlower⟩ := h.dbListed key v hfind db (CatalogKey.db_of_table htable)
      refine ⟨name, hlower, ?_⟩
      rw [tablesOf_eq, hlower]
      exact h.tableListed key v hfind db table htable

theorem inv_contentAfter {steps : List (Int64 × Action)} (hregular : ∀ step ∈ steps, step.2.Regular) :
    Inv (contentAfter steps) := by
  have hrun : ∀ (steps : List (Int64 × Action)) (data : Data), Inv data →
      (∀ step ∈ steps, step.2.Regular) →
      Inv (steps.foldl (fun data step => ((step.2.program step.1).run Data.serve data).2) data) := by
    intro steps
    induction steps with
    | nil => exact fun data h _ => h
    | cons step steps ih =>
      intro data h hregular
      rw [List.forall_mem_cons] at hregular
      exact ih _ (h.step step.1 hregular.1) hregular.2
  exact hrun steps default inv_default hregular

/-- A table that has just been created has no rows. -/
theorem Inv.created_empty {data data' : Data} (h : Inv data) {now : Int64} {db : Identifier}
    {schema : TableSchema}
    (hrun : (KVCatalog.createTable now db schema).run Data.serve data = (true, data')) {k : Bytes}
    (hk : Keys.dataPrefix db schema.name <+: k) : data'.find k = none := by
  obtain ⟨rest, rfl⟩ := (Keys.dataPrefix_prefix_iff db schema.name).mp hk
  rw [KVCatalog.run_createTable] at hrun
  split_ifs at hrun with hnot
  · simp at hrun
  · simp only [not_or] at hnot
    obtain rfl := (Prod.mk.inj hrun).2
    rw [← recordAt, recordAt_withTable, if_neg (by simp), if_neg (by simp), if_neg (by simp)]
    exact h.recordAt_eq_none rfl fun hlisted =>
      hnot.2.2.1 ((hasTable_iff data db schema.name).mpr hlisted)

/-- **The catalog stays sound.**  In every state that any sequence of operations reaches, as long as
    what is created has names that are read back and not too many columns; and whatever is created
    next starts empty. -/
theorem catalog_sound (steps : List (Int64 × Action)) (hregular : ∀ step ∈ steps, step.2.Regular) :
    Sound (contentAfter steps) ∧
    ∀ now db name columns data',
      ((Action.createTable db name columns).program now).run Data.serve (contentAfter steps)
        = (true, data') →
      ∀ k, Keys.dataPrefix db name <+: k → data'.find k = none := by
  have h := inv_contentAfter hregular
  refine ⟨h.sound, fun now db name columns data' hrun k hk => ?_⟩
  have hname : (TableSchema.ofColumns name columns).name = name :=
    (TableSchema.foldl_addColumn_sub (.ofName name) columns).1
  rw [← hname] at hk
  exact h.created_empty hrun hk

/-- A table is dropped with its rows, and created again. -/
def recreated : List (Int64 × Action) :=
  let columns : List ColumnDef := [⟨⟨ascii "id", false⟩, .int, 0, false, true⟩]
  [(1, .createDatabase shop), (2, .createTable shop orders columns),
    (3, .writeRow shop orders (.insert [.ofInt 7])), (4, .dropTable shop orders)]

theorem catalog_sound_recreated :
    Sound (contentAfter recreated) ∧
    (((Action.createTable shop orders [⟨⟨ascii "id", false⟩, .int, 0, false, true⟩]).program 5).run
      Data.serve (contentAfter recreated)).2.find (Keys.dataKey shop orders (.ofInt 7) .int) = none := by
  obtain ⟨hsound, hempty⟩ := catalog_sound recreated (by decide)
  refine ⟨hsound, hempty 5 shop orders _ _ (Prod.ext (y := (true, _)) ?_ rfl) _ ⟨_, rfl⟩⟩
  decide +kernel

/-- The name that is written "'a'" is created twice. -/
theorem quoted_created_twice :
    ¬ Sound (contentAfter [(1, .createDatabase quotedName), (2, .createDatabase quotedName)]) := by
  intro h
  have hdistinct := h.databases
  revert hdistinct
  decide +kernel

/-! ## What a run leaves alone -/

/-- The records an action may change. -/
def Action.Touches (key : CatalogKey) : Action → Prop
  | .createDatabase db => key ∈ [.databases, .dbTables db.lower, .dbStats db.lower]
  | .dropDatabase _ db => key = .databases ∨ key.db = some db.lower
  | .createTable db table _ | .dropTable db table =>
    key = .dbTables db.lower ∨ key.table = some (db.lower, table.lower)
  | .touchTable db table _ => key = .tableStats db.lower table.lower
  | .writeRow db table _ => ∃ rest, key = .data db.lower table.lower rest

theorem Inv.writeRow_untouched {data : Data} (h : Inv data) {db table : Identifier}
    {schema : TableSchema} (hopen : schemaOf data db table = some schema) (write : RowWrite)
    {key : CatalogKey} (hkey : ∀ rest, key ≠ .data db.lower table.lower rest) :
    recordAt ((write.program ⟨db, schema⟩).run Data.serve data).2 key = recordAt data key := by
  have hput : ∀ primaryKey value, recordAt (data.insert
      (TableView.encodeKey ⟨db, schema⟩ primaryKey) value) key = recordAt data key := by
    intro primaryKey value
    unfold recordAt
    rw [h.encodeKey_eq hopen, find_insert_encode, if_neg (hkey _)]
  cases write with
  | insert row =>
    rw [RowWrite.program, TableView.run_insert]
    split_ifs <;> first | rfl | exact hput _ _
  | update primaryKey row =>
    rw [RowWrite.program, TableView.run_update]
    split_ifs <;> first | rfl | exact hput _ _
  | remove primaryKey =>
    rw [RowWrite.program, TableView.run_remove]
    split
    · rfl
    · show (applyOp data _).find _ = _
      rw [find_remove, h.encodeKey_eq hopen, if_neg fun heq => hkey _ (CatalogKey.encode_inj heq)]
      rfl
  | truncate =>
    rw [RowWrite.program, TableView.run_truncate]
    show (applyOp data _).find _ = _
    unfold TableView.keyPrefix Keys.dataPrefix
    rw [find_removePrefix, if_neg fun hpre => ?_]
    · rfl
    · obtain ⟨rest, hrest⟩ := (Keys.dataPrefix_prefix_iff db schema.name).mp hpre
      rw [(h.opened hopen).2.2.name] at hrest
      exact hkey rest (CatalogKey.encode_inj hrest)

/-- **A step** changes no record but those its action touches. -/
theorem Inv.step_untouched {data : Data} (h : Inv data) (now : Int64) {action : Action}
    {key : CatalogKey} (hkey : ¬ action.Touches key) :
    recordAt ((action.program now).run Data.serve data).2 key = recordAt data key := by
  cases action with
  | createDatabase db =>
    simp only [Action.Touches, List.mem_cons, List.not_mem_nil, or_false, not_or] at hkey
    rw [Action.program, KVCatalog.run_createDatabase]
    split
    · rfl
    · rw [recordAt_withDatabase, if_neg hkey.2.2, if_neg hkey.2.1, if_neg hkey.1]
  | dropDatabase current db =>
    obtain ⟨hlist, hdb⟩ := not_or.mp hkey
    unfold Action.program KVCatalog.dropDatabase
    rw [run_bind, run_bind, run_removeDatabase]
    split
    · rfl
    · exact (recordAt_withoutDatabase data db key).trans (by rw [if_neg hlist, if_neg hdb])
  | createTable db name columns =>
    obtain ⟨hlist, htable⟩ := not_or.mp hkey
    rw [Action.program, KVCatalog.run_createTable]
    split
    · rfl
    · have hname : (TableSchema.ofColumns name columns).name = name :=
        (TableSchema.foldl_addColumn_sub (.ofName name) columns).1
      rw [recordAt_withTable, hname, if_neg hlist, if_neg, if_neg]
      all_goals rintro rfl; exact htable rfl
  | dropTable db table =>
    obtain ⟨hlist, htable⟩ := not_or.mp hkey
    rw [Action.program, KVCatalog.run_dropTable]
    split
    · rfl
    · rw [recordAt_withoutTable, if_neg hlist, if_neg htable]
  | touchTable db table rowDelta =>
    rw [Action.program, KVCatalog.run_touchTable]
    split
    · rfl
    · exact (recordAt_withStats ..).trans (if_neg hkey)
  | writeRow db table write =>
    rw [Action.program, run_bind, run_openTable]
    cases hopen : schemaOf data db table with
    | none => rfl
    | some schema =>
      rw [run_bind]
      exact h.writeRow_untouched hopen write fun rest heq => hkey ⟨rest, heq⟩

/-- **A record is what the actions that touch it have made of it**: whatever else is created, dropped
    and written in between, it stays as it is. -/
theorem record_untouched (before steps : List (Int64 × Action))
    (hregular : ∀ step ∈ before ++ steps, step.2.Regular) {key : CatalogKey}
    (hkey : ∀ step ∈ steps, ¬ step.2.Touches key) :
    recordAt (contentAfter (before ++ steps)) key = recordAt (contentAfter before) key := by
  induction steps using List.reverseRecOn with
  | nil => rw [List.append_nil]
  | append_singleton steps step ih =>
    rw [← List.append_assoc, List.forall_mem_append] at hregular
    rw [List.forall_mem_append] at hkey
    rw [← List.append_assoc, contentAfter, List.foldl_concat]
    have hstep := (inv_contentAfter hregular.1).step_untouched step.1
      (hkey.2 step (List.mem_singleton_self _))
    exact hstep.trans (ih hregular.1 hkey.1)

/-- A table that comes and goes leaves the statistics of its database alone. -/
theorem record_untouched_recreated :
    recordAt (contentAfter recreated) (.dbStats shop.lower) = some (encodeStats ⟨1, 0, -1⟩) := by
  refine (record_untouched (recreated.take 1) (recreated.drop 1) (by decide) ?_).trans (by decide +kernel)
  simp [recreated, Action.Touches, CatalogKey.table]

end SqlDb.Sql.KVCatalog
