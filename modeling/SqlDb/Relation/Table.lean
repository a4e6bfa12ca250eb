/-
  TABLES  (relation/table.h, relation/table.cpp, relation/cursor.cpp; the errors of
  relation/relation_defs.h).

  A table keeps its rows under the keys of their primary keys, in the order of the keys.  Here the
  rows are decoded, the keys are without the prefix of the table, and storage operations succeed.
  What is stored has passed `validate` and `validate_row`, and stands under the key of its own primary
  key: a `Table` carries the proofs.  So a primary key always FITS its column, no two rows have the
  same one, and

  * a scan of a range returns the rows whose primary keys the range contains, in the order of the keys
    or against it (`scan_eq`);
  * a lookup of a key returns what a scan for that key would (`find_spec`).
-/
import SqlDb.Lib.SortedMap
import SqlDb.SqlTypes.KeyRangePoint

namespace SqlDb.Sql

open KeyCodecs KeyRange

namespace TableSchema

/-- UNKNOWN if there is no primary key. -/
def primaryKeyType (schema : TableSchema) : DataType :=
  match schema.primaryKeyColumn with
  | some column => column.type
  | none => .unknownType

/-- NULL if there is no primary key. -/
def primaryKeyOf (schema : TableSchema) (row : Row) : Value :=
  (schema.primaryKeyIndex.bind fun i => row[i]?).getD .null

/-- The value of a column in a row; nothing for a column that the table does not have. -/
def lookup (schema : TableSchema) (row : Row) : Condition.Lookup := fun column =>
  (schema.columnIndex column).bind fun i => row[i]?

end TableSchema

/-- The rows of a table, under their keys. -/
structure Table where
  schema : TableSchema
  data : SortedMap Key Row
  valid : schema.validate = .ok
  rowsValid : ∀ p ∈ data.entries, schema.validateRow p.2 = .ok
  keyed : ∀ p ∈ data.entries, p.1 = toKey (schema.primaryKeyOf p.2) schema.primaryKeyType
  /-- A `size_t` counts the rows. -/
  countable : data.entries.length < 2 ^ 64

inductive RelErrorCode
  | notOpen | tableNotFound | notFound | schemaError | primaryKeyNull | primaryKeyMismatch
  | duplicatePrimaryKey | columnNotFound | kvError
deriving DecidableEq

structure RelError where
  code : RelErrorCode
  message : Bytes
deriving DecidableEq

namespace Table

/-- The rows in the order of their keys. -/
def rows (table : Table) : List Row := table.data.entries.map Prod.snd

def find (table : Table) (primaryKey : Value) : Except RelError Row :=
  if primaryKey.isNull then .error ⟨.primaryKeyNull, ascii "primary key is NULL"⟩
  else
    match table.data.find (toKey primaryKey table.schema.primaryKeyType) with
    | some row => .ok row
    | none => .error ⟨.notFound, ascii "row not found in " ++ table.schema.name.name⟩

/-- The rows that the cursor returns. -/
def scan (table : Table) (range : KeyRange) (ascending : Bool) : List Row :=
  let flat := range.toStrKeyRange table.schema.primaryKeyType
  let found := (table.data.entries.filter fun p => flat.start ≤ p.1 ∧ p.1 < flat.stop).map Prod.snd
  if ascending then found else found.reverse

end Table

/-! ## Primary keys -/

namespace TableSchema

variable {schema : TableSchema} {row : Row}

theorem columnIndex_of_eq {a b : Identifier} (h : a.eq b = true) :
    schema.columnIndex a = schema.columnIndex b := by
  have hlower : a.lower = b.lower := of_decide_eq_true h
  unfold columnIndex Identifier.eq
  rw [hlower]

/-- The primary key of a valid schema. -/
theorem primaryKeyColumn_of_validate (h : schema.validate = .ok) :
    ∃ key, schema.primaryKeyColumn = some key ∧ schema.primaryKeyName = key.name ∧
      schema.primaryKeyType = key.type ∧ schema.columnIndex key.name = schema.primaryKeyIndex := by
  obtain ⟨i, key, hi, hkey, -, hindex⟩ := primaryKey_of_validate h
  have hcolumn : schema.primaryKeyColumn = some key := by
    unfold primaryKeyColumn
    rw [hi]
    exact hkey
  refine ⟨key, hcolumn, ?_, ?_, hindex.trans hi.symm⟩
  · unfold primaryKeyName
    rw [hcolumn]
  · unfold primaryKeyType
    rw [hcolumn]

theorem fits_primaryKeyOf (h : schema.validate = .ok) (hrow : schema.validateRow row = .ok) :
    (schema.primaryKeyOf row).Fits schema.primaryKeyType := by
  obtain ⟨i, key, hi, hkey, hnullable, -⟩ := primaryKey_of_validate h
  obtain ⟨value, hvalue, hfits⟩ := value_of_validateRow hrow hkey
  have htype : schema.primaryKeyType = key.type := by
    simp [primaryKeyType, primaryKeyColumn, hi, hkey]
  have hof : schema.primaryKeyOf row = value := by
    simp [primaryKeyOf, hi, hvalue]
  rw [htype, hof]
  rcases hfits with ⟨-, hnull⟩ | hfits
  · rw [hnullable] at hnull
    simp at hnull
  · exact hfits

/-- Every name of the primary key finds it. -/
theorem lookup_primaryKey (h : schema.validate = .ok) (hrow : schema.validateRow row = .ok)
    {column : Identifier} (hcolumn : column.eq schema.primaryKeyName = true) :
    schema.lookup row column = some (schema.primaryKeyOf row) := by
  obtain ⟨i, key, hi, hkey, -, hindex⟩ := primaryKey_of_validate h
  obtain ⟨value, hvalue, -⟩ := value_of_validateRow hrow hkey
  have hname : schema.primaryKeyName = key.name := by
    simp [primaryKeyName, primaryKeyColumn, hi, hkey]
  rw [hname] at hcolumn
  simp [lookup, primaryKeyOf, columnIndex_of_eq hcolumn, hindex, hi, hvalue]

end TableSchema

namespace Table

variable {table : Table} {row : Row}

theorem exists_entry (h : row ∈ table.rows) :
    (toKey (table.schema.primaryKeyOf row) table.schema.primaryKeyType, row) ∈ table.data.entries ∧
      table.schema.validateRow row = .ok := by
  obtain ⟨p, hp, rfl⟩ := List.mem_map.mp h
  rw [← table.keyed p hp]
  exact ⟨hp, table.rowsValid p hp⟩

theorem fits (h : row ∈ table.rows) :
    (table.schema.primaryKeyOf row).Fits table.schema.primaryKeyType :=
  TableSchema.fits_primaryKeyOf table.valid (exists_entry h).2

theorem lookup_key (h : row ∈ table.rows) {column : Identifier}
    (hcolumn : column.eq table.schema.primaryKeyName = true) :
    table.schema.lookup row column = some (table.schema.primaryKeyOf row) :=
  TableSchema.lookup_primaryKey table.valid (exists_entry h).2 hcolumn

/-- The rows are in the order of their primary keys. -/
theorem pairwise_rows : table.rows.Pairwise fun a b =>
    toKey (table.schema.primaryKeyOf a) table.schema.primaryKeyType
      < toKey (table.schema.primaryKeyOf b) table.schema.primaryKeyType := by
  refine List.pairwise_map.mpr (table.data.sorted.imp_of_mem fun {p q} hp hq hlt => ?_)
  rwa [← table.keyed p hp, ← table.keyed q hq]

theorem nodup_rows (table : Table) : table.rows.Nodup := by
  refine pairwise_rows.imp fun {a b} hlt heq => ?_
  rw [heq] at hlt
  exact List.lt_irrefl _ hlt

/-- Rows are selected by their keys. -/
theorem filter_entries (table : Table) (keep : Key → Bool) (kept : Row → Bool)
    (h : ∀ row ∈ table.rows,
      keep (toKey (table.schema.primaryKeyOf row) table.schema.primaryKeyType) = kept row) :
    (table.data.entries.filter fun p => keep p.1).map Prod.snd = table.rows.filter kept := by
  rw [rows, List.filter_map]
  congr 1
  refine List.filter_congr fun p hp => ?_
  show keep p.1 = kept p.2
  rw [table.keyed p hp]
  exact h p.2 (List.mem_map_of_mem hp)

/-- **A scan returns the rows whose primary keys are in the range.** -/
theorem scan_eq {range : KeyRange} (hrange : range.ScanAgrees table.schema.primaryKeyType)
    (ascending : Bool) :
    table.scan range ascending =
      if ascending then table.rows.filter fun row => range.contains (table.schema.primaryKeyOf row)
      else (table.rows.filter fun row => range.contains (table.schema.primaryKeyOf row)).reverse := by
  have hfound := filter_entries table
    (fun k => decide ((range.toStrKeyRange table.schema.primaryKeyType).start ≤ k ∧
      k < (range.toStrKeyRange table.schema.primaryKeyType).stop))
    (fun row => range.contains (table.schema.primaryKeyOf row)) fun row hrow => by
      rw [Bool.eq_iff_iff, decide_eq_true_eq]
      exact (hrange.same _ (Or.inr (fits hrow).ofFamily)).symm
  show (if ascending then ((table.data.entries.filter fun p => _).map Prod.snd) else
    ((table.data.entries.filter fun p => _).map Prod.snd).reverse) = _
  rw [hfound]

theorem find_of_notNull {v : Value} (hv : v.isNull = false) :
    table.find v =
      match table.data.find (toKey v table.schema.primaryKeyType) with
      | some row => .ok row
      | none => .error ⟨.notFound, ascii "row not found in " ++ table.schema.name.name⟩ := by
  unfold find
  rw [hv]
  rfl

/-- **A lookup returns the row with the key**, or says that it is not there. -/
theorem find_spec (table : Table) {v : Value} (hv : v.isNull = false) :
    ∃ found : Option Row, table.rows.filter (fun row =>
        toKey (table.schema.primaryKeyOf row) table.schema.primaryKeyType
          = toKey v table.schema.primaryKeyType) = found.toList ∧
      table.find v =
        match found with
        | some row => .ok row
        | none => .error ⟨.notFound, ascii "row not found in " ++ table.schema.name.name⟩ := by
  refine ⟨_, ?_, find_of_notNull hv⟩
  rw [← SortedMap.filter_key]
  exact (filter_entries table (fun k => k = toKey v table.schema.primaryKeyType) _ fun _ _ => rfl).symm

end Table

end SqlDb.Sql
