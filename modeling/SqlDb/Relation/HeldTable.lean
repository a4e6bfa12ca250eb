/-
  A TABLE THAT THE CONTENT HOLDS.

  What can be relied on about one table, whatever else is in the store: its schema is one that a table can
  be stored with, and whatever is under the keys of the table is a row of that schema, under the key of
  its own primary key (`TableView.Held`).  Every table of a catalog that was not broken is held
  (`KVCatalog.Inv.held`).

  Of a table that is held every row can be decoded, is one that the schema accepts, and has a primary key
  that is not NULL; writing such a row keeps this.
-/
import SqlDb.Relation.CatalogRun

namespace SqlDb.Sql

open Kv (Data)
open KeyCodecs (toKey)

namespace TableView

structure Held (view : TableView) (data : Data) : Prop where
  stored : view.schema.Stored view.schema.name.lower
  rows : ∀ key v, KVCatalog.recordAt data (.data view.db.lower view.schema.name.lower key) = some v →
    view.schema.StoredRow key v

/-- A row of the table, as it was read. -/
structure Reads (view : TableView) (k v : Bytes) (row : Row) : Prop where
  decoded : view.decodeRow v = .ok row
  valid : view.schema.validateRow row = .ok
  key : view.encodeKey (view.schema.primaryKeyOf row) = k

theorem encodeKey_eq (view : TableView) (primaryKey : Value) : view.encodeKey primaryKey
    = CatalogKey.encode
        (.data view.db.lower view.schema.name.lower (toKey primaryKey view.schema.primaryKeyType)) :=
  Keys.dataPrefix_append view.db view.schema.name _

theorem keyPrefix_encodeKey (view : TableView) (primaryKey : Value) :
    view.keyPrefix <+: view.encodeKey primaryKey :=
  List.prefix_append _ _

theorem decodeRow_eq_ok {view : TableView} {v : Bytes} {row : Row} :
    view.decodeRow v = .ok row ↔ Row.deserialize v view.schema = .ok row := by
  unfold decodeRow
  cases Row.deserialize v view.schema <;> simp

section Held

variable {view : TableView} {data : Data} (h : view.Held data)
include h

/-- **Whatever is under the prefix of the table is a row.** -/
theorem Held.reads {k v : Bytes} (hk : view.keyPrefix <+: k) (hfind : data.find k = some v) :
    ∃ row, view.Reads k v row := by
  obtain ⟨key, rfl⟩ := (Keys.dataPrefix_prefix_iff view.db view.schema.name).mp hk
  obtain ⟨row, hrow, rfl⟩ := h.rows key v hfind
  have hvalid := Row.validateRow_of_read (Codec.whole_eq_ok.mp hrow)
  exact ⟨row, decodeRow_eq_ok.mpr hrow, hvalid, view.encodeKey_eq _⟩

/-- A primary key is not NULL. -/
theorem Held.notNull {row : Row} (hrow : view.schema.validateRow row = .ok) :
    (view.schema.primaryKeyOf row).isNull = false :=
  (TableSchema.fits_primaryKeyOf h.stored.valid hrow).notNull

/-- A row that the schema accepts may be written under its key. -/
theorem Held.put {primaryKey : Value} {row : Row} (hrow : view.schema.validateRow row = .ok)
    (hkey : (view.schema.primaryKeyOf row).eq primaryKey = true) :
    view.Held (data.insert (view.encodeKey primaryKey) (view.encodeRow row)) := by
  refine ⟨h.stored, fun key v hfind => ?_⟩
  unfold KVCatalog.recordAt at hfind
  rw [SortedMap.find_insert, view.encodeKey_eq] at hfind
  split_ifs at hfind with hk
  · obtain rfl : key = _ := by simpa using CatalogKey.encode_inj hk
    cases hfind
    exact TableSchema.storedRow_of_valid h.stored hrow hkey
  · exact h.rows key v hfind

end Held

/-- A range of the table is a range of its prefix. -/
theorem keyPrefix_of_physicalRange {view : TableView} {range : KeyRange} {ascending : Bool} {k : Bytes}
    (h : (view.physicalRange range ascending).contains k = true) : view.keyPrefix <+: k := by
  unfold physicalRange Kv.KeyRange.contains at h
  simp only [Bool.and_eq_true, Bool.not_eq_true', decide_eq_false_iff_not, decide_eq_true_eq] at h
  exact KeySpace.prefix_of_between h.1 h.2

end TableView

/-- The tables of a catalog that was not broken. -/
theorem KVCatalog.Inv.held {data : Data} (h : KVCatalog.Inv data) {db table : Identifier}
    {schema : TableSchema} (hopen : KVCatalog.schemaOf data db table = some schema) :
    TableView.Held ⟨db, schema⟩ data := by
  obtain ⟨-, -, hstored⟩ := h.opened hopen
  have hname : schema.name.lower = table.lower := hstored.name
  refine ⟨?_, fun key v hfind => ?_⟩
  · show schema.Stored schema.name.lower
    rw [hname]
    exact hstored
  · have hfind' : recordAt data (.data db.lower table.lower key) = some v := by
      rw [← hname]
      exact hfind
    exact h.rows _ _ key v schema hfind' (by rw [← KVCatalog.schemaOf_eq]; exact hopen)

end SqlDb.Sql
