/-
  WHAT THE CATALOG AND ITS TABLES ASK OF THE ENGINE.

  Everything that is only read is read by LOOKUPS of keys, rows of a range apart.  Only what drops a
  table or a database deletes ranges of keys; the rest writes POINTS.  These are facts about the programs,
  whatever the engine answers.
-/
import SqlDb.Relation.KvTable

namespace SqlDb.Sql

open Kv (Access Request)
open Interaction

/-- The program only looks up keys. -/
abbrev Looks {A : Type} (m : Access A) : Prop := m.Asks fun r => r.isLookup = true

/-- The program reads and writes single keys. -/
abbrev Points {A : Type} (m : Access A) : Prop := m.Asks fun r => r.isPoint = true

/-- The program reads and writes. -/
abbrev Works {A : Type} (m : Access A) : Prop := m.Asks fun r => r.isData = true

theorem isPoint_of_isRead (r : Request) (h : r.isRead = true) : r.isPoint = true := by
  cases r <;> first | rfl | simp [Request.isRead, Request.isLookup] at h

theorem isRead_of_isLookup (r : Request) (h : r.isLookup = true) : r.isRead = true := by
  cases r <;> first | rfl | simp [Request.isLookup] at h

theorem Looks.points {A : Type} {m : Access A} (h : Looks m) : Points m :=
  h.mono fun r hr => isPoint_of_isRead r (isRead_of_isLookup r hr)

theorem Points.works {A : Type} {m : Access A} (h : Points m) : Works m :=
  h.mono fun _ hr => (Bool.and_eq_true_iff.mp hr).1

variable (db table : Identifier)

namespace KVCatalog

/-! ## Lookups -/

theorem looks_isOpen : Looks isOpen := asks_query rfl

theorem looks_readMeta (key : Bytes) : Looks (readMeta key) := by
  refine looks_isOpen.bind fun opened => Asks.ite (asks_pure _) ?_
  refine Asks.bind (asks_query rfl) ?_
  intro found
  exact Asks.ite (asks_pure _)
    (Asks.ite (asks_pure _) (asks_pure _))

theorem looks_listDatabases : Looks listDatabases :=
  (looks_readMeta _).bind fun _ => asks_pure _

theorem looks_listTables (db : Identifier) : Looks (listTables db) :=
  (looks_readMeta _).bind fun _ => asks_pure _

theorem looks_databaseExists (db : Identifier) : Looks (databaseExists db) :=
  looks_listDatabases.bind fun _ => asks_pure _

theorem looks_tableExists : Looks (tableExists db table) :=
  (looks_listTables db).bind fun _ => asks_pure _

theorem looks_readSchema : Looks (readSchema db table) :=
  (looks_readMeta _).bind fun _ => Asks.ite (asks_pure _) (asks_pure _)

theorem looks_getTableSchema : Looks (getTableSchema db table) :=
  (looks_readSchema db table).bind fun _ => asks_pure _

theorem looks_tableStats : Looks (tableStats db table) :=
  (looks_tableExists db table).bind fun _ =>
    Asks.ite (asks_pure _) ((looks_readMeta _).bind fun _ => asks_pure _)

theorem looks_openTable : Looks (openTable db table) := by
  refine looks_isOpen.bind fun opened => Asks.ite (asks_pure _) ?_
  refine (looks_readSchema db table).bind fun record => ?_
  split
  · exact asks_pure _
  · exact Asks.ite (asks_pure _) (asks_pure _)

end KVCatalog

theorem TableView.looks_find (view : TableView) (primaryKey : Value) :
    Looks (view.find primaryKey) := by
  refine Asks.ite (asks_pure _) (Asks.bind (asks_query rfl) ?_)
  intro found
  exact Asks.ite (asks_pure _)
    (Asks.ite (asks_pure _) (asks_pure _))

theorem KVCatalog.looks_primaryKeyExists (primaryKey : Value) :
    Looks (primaryKeyExists db table primaryKey) := by
  refine looks_isOpen.bind fun opened => Asks.ite (asks_pure _) ?_
  refine (looks_openTable db table).bind fun result => ?_
  split
  · exact asks_pure _
  · refine (TableView.looks_find _ primaryKey).bind fun found => ?_
    split <;> exact asks_pure _

/-! ## Writes -/

namespace KVCatalog

theorem points_writeMeta (key value : Bytes) : Points (writeMeta key value) :=
  looks_isOpen.points.bind fun _ => Asks.ite (asks_pure _)
    (Asks.bind (asks_query rfl) fun _ => asks_pure _)

theorem points_touchTable (now : Int64) (db table : Identifier) (rowDelta : Int64) :
    Points (touchTable now db table rowDelta) := by
  refine (looks_tableExists db table).points.bind fun _ => Asks.ite (asks_pure _) ?_
  exact (looks_tableStats db table).points.bind fun _ => points_writeMeta _ _

theorem works_removePrefix (p : Bytes) : Works (removePrefix p) :=
  looks_isOpen.points.works.bind fun _ => Asks.ite (asks_pure _)
    (Asks.bind (asks_query rfl) fun _ => asks_pure _)

theorem works_removeDatabase (db : Identifier) : Works (removeDatabase db) := by
  refine looks_isOpen.points.works.bind fun _ => Asks.ite (asks_pure _) ?_
  refine (looks_databaseExists db).points.works.bind fun _ => Asks.ite (asks_pure _) ?_
  refine (works_removePrefix _).bind fun _ => Asks.ite (asks_pure _) ?_
  refine (works_removePrefix _).bind fun _ => Asks.ite (asks_pure _) ?_
  refine (works_removePrefix _).bind fun _ => Asks.ite (asks_pure _) ?_
  refine Asks.bind (asks_query rfl) fun _ => Asks.bind (asks_query rfl) fun _ => ?_
  exact looks_listDatabases.points.works.bind fun _ => (points_writeMeta _ _).works

end KVCatalog

namespace TableView

variable (view : TableView)

theorem points_insert (row : Row) : Points (view.insert row) := by
  refine Asks.ite (asks_pure _) (Asks.ite (asks_pure _) ?_)
  refine Asks.bind (asks_query rfl) fun _ => Asks.ite (asks_pure _) ?_
  exact Asks.bind (asks_query rfl) fun _ => asks_pure _

theorem points_update (primaryKey : Value) (row : Row) : Points (view.update primaryKey row) := by
  refine Asks.ite (asks_pure _) (Asks.ite (asks_pure _) ?_)
  refine Asks.ite (asks_pure _) ?_
  exact Asks.bind (asks_query rfl) fun _ => asks_pure _

theorem points_remove (primaryKey : Value) : Points (view.remove primaryKey) :=
  Asks.ite (asks_pure _)
    (Asks.bind (asks_query rfl) fun _ => asks_pure _)

end TableView

end SqlDb.Sql
