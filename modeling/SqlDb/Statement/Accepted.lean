/-
  WHAT THE VALIDATOR ACCEPTS.

  The validator only looks up keys (`looks_validate`), so that it is the same to validate on a connection
  and on its content.  On content, an accepted statement has a table (`validate_eq_ok`), and

  * each value of an accepted UPDATE goes into its column, which is not the primary key;
  * each value of an accepted INSERT goes into its column, and the columns without a value take NULL;
  * the values at the position of the primary key have different keys, and none is in the table.
-/
import SqlDb.Lib.Fallible
import SqlDb.Planner.StatementPlan
import SqlDb.Relation.Footprint
import SqlDb.Relation.HeldTable
import SqlDb.Statement.Validator

namespace SqlDb

namespace Stmt

open Sql Plan
open Kv (Access Data)
open Interaction
open Fallible

/-! ## Lookups -/

section Lookups

variable (current : Identifier)

theorem looks_requireDatabase (db : Identifier) : Looks (requireDatabase db).run := by
  refine Asks.ite (asks_pure _) ?_
  refine Asks.bind_except (asks_lift (KVCatalog.looks_databaseExists db)) fun _ => ?_
  exact Asks.ite (asks_pure _) (asks_pure _)

theorem looks_loadTable (db table : Identifier) : Looks (loadTable db table).run := by
  refine Asks.ite (asks_pure _) ?_
  refine (looks_requireDatabase db).bind_except fun _ => ?_
  refine Asks.bind_except (asks_lift (KVCatalog.looks_getTableSchema db table)) ?_
  intro schema
  split <;> exact asks_pure _

theorem looks_validateCatalog (query : CatalogQuery) : Looks (validateCatalog current query).run := by
  have hexists : ∀ db, Looks (liftM (KVCatalog.databaseExists db) : Check Bool).run := fun db =>
    asks_lift (KVCatalog.looks_databaseExists db)
  cases query with
  | createDatabase db | useDatabase db =>
    exact (hexists db).bind_except fun _ =>
      Asks.ite (asks_pure _) (asks_pure _)
  | dropDatabase db => exact looks_requireDatabase db
  | createTable query =>
    refine (looks_requireDatabase _).bind_except fun _ => ?_
    refine Asks.bind_except (asks_lift (KVCatalog.looks_tableExists _ _)) fun _ => ?_
    exact Asks.ite (asks_pure _)
      (Asks.ite (asks_pure _) (asks_pure _))
  | dropTable query => exact (looks_loadTable _ _).bind_except fun _ => asks_pure _

theorem looks_checkKeys (table : Identifier) (keyType : DataType) (valueIndex : Nat)
    (seen : List Key) (rows : List (List Value)) :
    Looks (checkKeys current table keyType valueIndex seen rows).run := by
  induction rows generalizing seen with
  | nil => exact asks_pure _
  | cons row rows ih =>
    refine Asks.ite (ih _) (Asks.ite (asks_pure _) ?_)
    refine Asks.bind_except
      (asks_lift (KVCatalog.looks_primaryKeyExists current table _)) fun _ => ?_
    exact Asks.ite (asks_pure _) (ih _)

theorem looks_validateDml (query : DmlQuery) : Looks (validateDml current query).run := by
  cases query with
  | select | update | delete =>
    exact (looks_loadTable _ _).bind_except fun _ => asks_ofExcept _
  | insert query =>
    refine (looks_loadTable _ _).bind_except fun schema => ?_
    refine (asks_ofExcept _).bind_except fun targets => ?_
    unfold checkPrimaryKeyConflicts
    split
    · split
      · exact looks_checkKeys ..
      · exact asks_pure _
    · exact asks_pure _

/-- **The validator only looks up keys.** -/
theorem looks_validate (query : Query) : Looks (validate current query).run := by
  refine Asks.bind_except (asks_lift KVCatalog.looks_isOpen) fun _ => ?_
  refine Asks.ite (asks_pure _) ?_
  cases query with
  | dml query => exact looks_validateDml current query
  | catalog query => exact looks_validateCatalog current query
  | transaction kind => exact asks_pure _

end Lookups

/-! ## Tables -/

variable {schema : TableSchema}

section Content

variable {data data' : Data} {current : Identifier}

theorem run_requireDatabase (db : Identifier) : (requireDatabase db).run.run Data.serve data =
    (if db.name = [] then
      .error ⟨.databaseNotFound, ascii "no database selected; use USE <database> first"⟩
    else if KVCatalog.hasDatabase data db = false then
      .error ⟨.databaseNotFound, ascii "database not found: " ++ db.name⟩
    else .ok (), data) := by
  unfold requireDatabase
  split
  · rfl
  · rw [run_bind_except, run_lift, KVCatalog.run_databaseExists]
    cases KVCatalog.hasDatabase data db <;> rfl

/-- A table that could be loaded is there. -/
theorem loadTable_eq_ok {db table : Identifier}
    (h : (loadTable db table).run.run Data.serve data = (.ok schema, data')) :
    data' = data ∧ TableFound data db table ∧ KVCatalog.hasDatabase data db = true ∧
      KVCatalog.schemaOf data db table = some schema := by
  unfold loadTable at h
  split_ifs at h with htable
  · simp at h
  · obtain ⟨_, data₁, hrequire, h⟩ := (run_bind_eq_ok _ _).mp h
    rw [run_requireDatabase] at hrequire
    obtain ⟨hdb, hsame⟩ := Prod.mk.inj hrequire
    subst hsame
    split at hdb
    · simp at hdb
    · rename_i hname
      split at hdb
      · simp at hdb
      · rename_i hhas
        rw [run_bind_except, run_lift, KVCatalog.run_getTableSchema] at h
        dsimp only at h
        cases hschema : KVCatalog.schemaOf data db table with
        | none =>
          rw [hschema] at h
          simp at h
        | some found =>
          rw [hschema] at h
          obtain ⟨hok, rfl⟩ := Prod.mk.inj h
          cases hok
          exact ⟨rfl, ⟨hname, htable, by rw [hschema]; rfl⟩, by simpa using hhas, rfl⟩

/-- What the validator has seen of a statement that it accepts. -/
def Checked (data : Data) (current : Identifier) (schema : TableSchema) : DmlQuery → Prop
  | .select query => checkSelect schema query = .ok ()
  | .insert query => ∃ targets, checkInsert schema query = .ok targets ∧
      (checkPrimaryKeyConflicts current schema query targets).run.run Data.serve data = (.ok (), data)
  | .update query => checkUpdate schema query = .ok ()
  | .delete query => checkConditionColumns query.where_ schema = .ok ()

/-- **An accepted statement.** -/
theorem validate_eq_ok {query : DmlQuery}
    (h : ((validate current (.dml query)).run.run Data.serve data).1 = .ok ()) :
    TableFound data current query.table ∧ ∃ schema,
      KVCatalog.schemaOf data current query.table = some schema ∧ Checked data current schema query := by
  have hdml : ((validateDml current query).run.run Data.serve data).1 = .ok () := by
    unfold validate at h
    rw [run_bind_except, run_lift, KVCatalog.run_isOpen] at h
    exact h
  -- nothing is written
  have hrun : (validateDml current query).run.run Data.serve data = (.ok (), data) :=
    Prod.ext hdml (Data.run_looks (looks_validateDml current query))
  cases query with
  | select | update | delete =>
    obtain ⟨schema, data₁, hload, hcheck⟩ := (run_bind_eq_ok _ _).mp hrun
    obtain ⟨rfl, hfound, -, hschema⟩ := loadTable_eq_ok hload
    exact ⟨hfound, schema, hschema, (Prod.mk.inj hcheck).1⟩
  | insert query =>
    obtain ⟨schema, data₁, hload, hcheck⟩ := (run_bind_eq_ok _ _).mp hrun
    obtain ⟨rfl, hfound, -, hschema⟩ := loadTable_eq_ok hload
    obtain ⟨targets, data₂, hinsert, hkeys⟩ := (run_bind_eq_ok _ _).mp hcheck
    obtain ⟨htargets, hsame⟩ := Prod.mk.inj hinsert
    subst hsame
    exact ⟨hfound, schema, hschema, targets, htargets, hkeys⟩

end Content

/-! ## Values -/

theorem checkValue_eq_ok {column : ColumnDef} {value : Value} :
    checkValue column value = .ok () ↔ TableSchema.validateValue column value = .ok := by
  unfold checkValue
  dsimp only
  split_ifs with h
  · simp [h]
  · simpa using h

theorem checkAssignment_eq_ok {assignment : Assignment}
    (h : checkAssignment schema assignment = .ok ()) :
    ∃ i column, schema.columnIndex assignment.column = some i ∧ schema.columns[i]? = some column ∧
      TableSchema.validateValue column assignment.value = .ok ∧ column.primaryKey = false := by
  unfold checkAssignment at h
  cases hcolumn : (schema.columnIndex assignment.column).bind fun i => schema.columns[i]? with
  | none =>
    rw [hcolumn] at h
    simp at h
  | some column =>
    rw [hcolumn] at h
    obtain ⟨i, hi, hat⟩ := Option.bind_eq_some_iff.mp hcolumn
    obtain ⟨_, hvalue, hkey⟩ := bind_eq_ok.mp h
    cases hpk : column.primaryKey with
    | true => simp [hpk] at hkey
    | false => exact ⟨i, column, hi, hat, checkValue_eq_ok.mp hvalue, hpk⟩

theorem checkUpdate_eq_ok {query : UpdateQuery} (h : checkUpdate schema query = .ok ()) :
    ∀ assignment ∈ query.assignments, checkAssignment schema assignment = .ok () := by
  unfold checkUpdate at h
  split at h
  · simp at h
  · obtain ⟨_, hall, -⟩ := bind_eq_ok.mp h
    exact forM_eq_ok.mp hall

/-- A row of VALUES whose values all have their place. -/
structure RowAccepted (schema : TableSchema) (targets : List Nat) (values : List Value) : Prop where
  length : values.length = targets.length
  value : ∀ p ∈ targets.zip values, ∀ column, schema.columns[p.1]? = some column →
    TableSchema.validateValue column p.2 = .ok
  unmentioned : ∀ i column, schema.columns[i]? = some column → i ∉ targets → column.nullable = true

theorem checkRow_eq_ok {targets : List Nat} {values : List Value}
    (h : checkRow schema targets values = .ok ()) : RowAccepted schema targets values := by
  unfold checkRow at h
  split at h
  · simp at h
  · rename_i hlength
    obtain ⟨_, hvalues, hunmentioned⟩ := bind_eq_ok.mp h
    refine ⟨not_not.mp hlength, fun p hp column hcolumn => ?_, fun i column hcolumn hi => ?_⟩
    · have hcheck := forM_eq_ok.mp hvalues p hp
      simp only [hcolumn] at hcheck
      exact checkValue_eq_ok.mp hcheck
    · have hcheck := forM_eq_ok.mp hunmentioned (column, i) (by
        rw [List.mem_zipIdx_iff_getElem?]
        exact hcolumn)
      cases hnullable : column.nullable with
      | true => rfl
      | false => simp [hi, hnullable] at hcheck

theorem checkInsert_eq_ok {query : InsertQuery} {targets : List Nat}
    (h : checkInsert schema query = .ok targets) :
    targetColumns schema query.columns = .ok targets ∧
      ∀ values ∈ query.values, RowAccepted schema targets values := by
  unfold checkInsert at h
  split at h
  · simp at h
  · obtain ⟨found, htargets, h⟩ := bind_eq_ok.mp h
    obtain ⟨_, hrows, h⟩ := bind_eq_ok.mp h
    obtain rfl := pure_eq_ok.mp h
    exact ⟨htargets, fun values hvalues => checkRow_eq_ok (forM_eq_ok.mp hrows values hvalues)⟩

/-! ## Keys -/

section Keys

variable {data : Data} {current table : Identifier} {schema : TableSchema}

/-- A table that is held has no key that it cannot tell about. -/
theorem run_primaryKeyExists (hfound : TableFound data current table)
    (hschema : KVCatalog.schemaOf data current table = some schema)
    (hheld : TableView.Held ⟨current, schema⟩ data) {primaryKey : Value}
    (hnull : primaryKey.isNull = false) :
    (KVCatalog.primaryKeyExists current table primaryKey).run Data.serve data
      = (some (data.find (TableView.encodeKey ⟨current, schema⟩ primaryKey)).isSome, data) := by
  unfold KVCatalog.primaryKeyExists
  rw [run_bind, KVCatalog.run_isOpen]
  simp only [hnull, hfound.dbName, hfound.tableName, Bool.not_true, decide_false, Bool.or_self,
    Bool.false_eq_true, if_false]
  rw [run_bind, KVCatalog.run_openTable, hschema]
  dsimp only
  rw [run_bind, TableView.run_find data _ hnull]
  cases hfind : data.find (TableView.encodeKey ⟨current, schema⟩ primaryKey) with
  | none => rfl
  | some v =>
    obtain ⟨row, hrow⟩ := hheld.reads (TableView.keyPrefix_encodeKey _ primaryKey) hfind
    simp [hrow.decoded]

/-- The values at the position where the validator looks for the primary key. -/
def keysAt (schema : TableSchema) (valueIndex : Nat) (rows : List (List Value)) : List Key :=
  rows.map fun row => KeyCodecs.toKey (row[valueIndex]?.getD .null) schema.primaryKeyType

/-- **Accepted keys** are different, and not in the table. -/
theorem checkKeys_eq_ok (hfound : TableFound data current table)
    (hschema : KVCatalog.schemaOf data current table = some schema)
    (hheld : TableView.Held ⟨current, schema⟩ data) {valueIndex : Nat} {seen : List Key}
    {rows : List (List Value)}
    (hnull : ∀ row ∈ rows, (row[valueIndex]?.getD .null).isNull = false)
    (h : ((checkKeys current table schema.primaryKeyType valueIndex seen rows).run.run Data.serve
      data).1 = .ok ()) :
    (keysAt schema valueIndex rows).Nodup ∧ (∀ key ∈ keysAt schema valueIndex rows, key ∉ seen) ∧
      ∀ row ∈ rows, data.find
        (TableView.encodeKey ⟨current, schema⟩ (row[valueIndex]?.getD .null)) = none := by
  induction rows generalizing seen with
  | nil => simp [keysAt]
  | cons row rows ih =>
    rw [List.forall_mem_cons] at hnull
    obtain ⟨hfirst, hrest⟩ := hnull
    rw [checkKeys] at h
    simp only [hfirst, Bool.false_eq_true, if_false] at h
    split_ifs at h with hseen
    · simp at h
    · rw [run_bind_except, run_lift,
        run_primaryKeyExists hfound hschema hheld hfirst] at h
      dsimp only at h
      split_ifs at h with hnone
      · simp at h
      · obtain ⟨hnodup, hfresh, habsent⟩ := ih hrest h
        simp only [Option.some.injEq, Option.isSome_iff_ne_none, ne_eq, not_not] at hnone
        refine ⟨?_, ?_, List.forall_mem_cons.mpr ⟨hnone, habsent⟩⟩
        · exact List.nodup_cons.mpr ⟨fun hmem => hfresh _ hmem (List.mem_cons_self ..), hnodup⟩
        · exact List.forall_mem_cons.mpr ⟨hseen, fun key hkey hin =>
            hfresh key hkey (List.mem_cons_of_mem _ hin)⟩

end Keys

end Stmt

end SqlDb
