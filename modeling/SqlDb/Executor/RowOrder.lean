/-
  THE ORDER OF ROWS.

  ORDER BY means: the columns decide one after the other, each in its direction, NULL comes before all
  values, and the primary key decides last (`comesBefore`).  The source sorts with a comparator that
  goes by the places of the columns, and compares values as SQL does.  On the rows of a table the two
  are the same (`rowLess_eq`): the values of a column all fit its type, so that SQL can compare them.

  The order tells any two rows apart (`totalOn_comesBefore`), so there is one way to sort them.
-/
import SqlDb.Executor.Executor

namespace SqlDb.Exec

open Sql Plan KeyCodecs KeyRange List

/-! ## The order that is meant -/

/-- NULL comes before all values. -/
def valueOrder (v w : Value) : Ordering :=
  if v.isNull then if w.isNull then .eq else .lt
  else if w.isNull then .gt
  else if v.Less w then .lt
  else if w.Less v then .gt
  else .eq

variable (schema : TableSchema)

/-- The value of a column; NULL for a column that does not exist. -/
def columnValue (column : Identifier) (row : Row) : Value :=
  (schema.lookup row column).getD .null

/-- ASC is the order of the values, DESC the opposite one. -/
def OrderDirection.apply (direction : OrderDirection) (o : Ordering) : Ordering :=
  match direction with
  | .asc => o
  | .desc => o.swap

def columnOrder (item : OrderByItem) (a b : Row) : Ordering :=
  OrderDirection.apply item.direction
    (valueOrder (columnValue schema item.column a) (columnValue schema item.column b))

def keyOrder (a b : Row) : Ordering :=
  valueOrder (schema.primaryKeyOf a) (schema.primaryKeyOf b)

/-- The ORDER BY columns decide, and then the primary key. -/
def comesBefore (orderBy : List OrderByItem) : Row → Row → Bool :=
  Sorting.lexLess (orderBy.map (columnOrder schema) ++ [keyOrder schema])

/-! ## Values of a column -/

/-- What a column of the type may hold. -/
def InColumn (t : DataType) (v : Value) : Prop := v = .null ∨ v.Fits t

section Values

variable {t : DataType} {v w : Value}

theorem Compares.unique {o o' : Ordering} {less greater : Prop} (h : Compares o less greater)
    (h' : Compares o' less greater) : o = o' := by
  have hlt := h.lt.trans h'.lt.symm
  have hgt := h.gt.trans h'.gt.symm
  revert hlt hgt
  cases o <;> cases o' <;> decide

/-- The order of the values of a column is that of their keys. -/
theorem compares_valueOrder (hv : InColumn t v) (hw : InColumn t w) :
    Compares (valueOrder v w) (keyIn (tagOf t) v < keyIn (tagOf t) w)
      (keyIn (tagOf t) w < keyIn (tagOf t) v) := by
  have hnull : ∀ x : Value, x.Fits t → keyIn (tagOf t) .null < keyIn (tagOf t) x := by
    intro x hx
    rw [Value.keyIn_of_notNull hx.notNull]
    exact nullKey_lt hx.ofFamily
  rcases hv with rfl | hv
  · rcases hw with rfl | hw
    · exact ⟨iff_of_false (by decide) (List.lt_irrefl _), iff_of_false (by decide) (List.lt_irrefl _)⟩
    · have ho : valueOrder .null w = .lt := by simp [valueOrder, show Value.null.isNull = true from rfl, hw.notNull]
      rw [ho]
      exact ⟨iff_of_true rfl (hnull w hw), iff_of_false (by decide) (List.lt_asymm (hnull w hw))⟩
  · rcases hw with rfl | hw
    · have ho : valueOrder v .null = .gt := by simp [valueOrder, show Value.null.isNull = true from rfl, hv.notNull]
      rw [ho]
      exact ⟨iff_of_false (by decide) (List.lt_asymm (hnull v hv)), iff_of_true rfl (hnull v hv)⟩
    · have hasymm : v.Less w → ¬ w.Less v := by
        rw [← Value.keyIn_lt_iff hv hw, ← Value.keyIn_lt_iff hw hv]
        exact List.lt_asymm
      rw [Value.keyIn_lt_iff hv hw, Value.keyIn_lt_iff hw hv]
      unfold valueOrder
      rw [hv.notNull, hw.notNull]
      simp only [Bool.false_eq_true, if_false]
      split_ifs with hlt hgt
      · exact ⟨iff_of_true rfl hlt, iff_of_false (by decide) (hasymm hlt)⟩
      · exact ⟨iff_of_false (by decide) hlt, iff_of_true rfl hgt⟩
      · exact ⟨iff_of_false (by decide) hlt, iff_of_false (by decide) hgt⟩

theorem valueOrder_eq (hv : InColumn t v) (hw : InColumn t w) :
    valueOrder v w = cmpBytes (keyIn (tagOf t) v) (keyIn (tagOf t) w) :=
  Compares.unique (compares_valueOrder hv hw) (compares_cmpBytes _ _)

/-- The comparator of the source orders the values of a column like this. -/
theorem compareForSort_eq (hv : InColumn t v) (hw : InColumn t w) :
    compareForSort v w = valueOrder v w := by
  by_cases hnull : v.isNull = true ∨ w.isNull = true
  · unfold compareForSort valueOrder
    rcases hnull with h | h
    · simp [h]
    · cases v.isNull <;> simp [h]
  · have hv := hv.resolve_left fun h => hnull (Or.inl (by simp [h, Value.isNull]))
    have hw := hw.resolve_left fun h => hnull (Or.inr (by simp [h, Value.isNull]))
    obtain ⟨o, ho, hlt, hgt, -⟩ := Value.exists_sqlOrder hv hw
    have hcompare : compareForSort v w = o := by
      simp [compareForSort, hv.notNull, hw.notNull, ho]
    rw [hcompare]
    exact Compares.unique ⟨hlt, hgt⟩ (compares_valueOrder (Or.inr hv) (Or.inr hw))

end Values

theorem cmpBytes_ne_gt (k k' : Key) : cmpBytes k k' ≠ .gt ↔ ¬ k' < k := not_congr (compares_cmpBytes k k').gt

/-- Keys are a measure to order by. -/
theorem lawfulOn_of_keys {A : Type} {P : A → Prop} {cmp : A → A → Ordering} (key : A → Key)
    (h : ∀ a b, P a → P b → cmp a b = cmpBytes (key a) (key b)) : Sorting.LawfulOn P cmp := by
  constructor
  · intro a b ha hb
    rw [h a b ha hb, h b a hb ha]
    have hab := compares_cmpBytes (key a) (key b)
    refine Compares.unique (compares_cmpBytes _ _) ⟨?_, ?_⟩
    · rw [← hab.gt]
      cases cmpBytes (key a) (key b) <;> decide
    · rw [← hab.lt]
      cases cmpBytes (key a) (key b) <;> decide
  · intro a b c ha hb hc hab hbc
    rw [h a b ha hb, cmpBytes_ne_gt] at hab
    rw [h b c hb hc, cmpBytes_ne_gt] at hbc
    rw [h a c ha hc, cmpBytes_ne_gt]
    exact fun hlt => hbc (HalfOpen.lt_of_lt_of_not_lt hlt hab)

/-! ## Rows of a table -/

section Rows

variable {table : Table} {a b : Row}

/-- The values of a column fit one type. -/
theorem exists_inColumn (table : Table) (i : Nat) :
    ∃ t, ∀ row ∈ table.rows, InColumn t (row[i]?.getD .null) := by
  cases hc : table.schema.columns[i]? with
  | none =>
    refine ⟨.unknownType, fun row hrow => Or.inl ?_⟩
    obtain ⟨hlength, -⟩ := TableSchema.length_of_validateRow (Table.exists_entry hrow).2
    rw [getElem?_eq_none_iff.mpr (hlength ▸ getElem?_eq_none_iff.mp hc)]
    rfl
  | some column =>
    refine ⟨column.type, fun row hrow => ?_⟩
    obtain ⟨value, hvalue, hfits⟩ := TableSchema.value_of_validateRow (Table.exists_entry hrow).2 hc
    rw [hvalue]
    exact hfits.imp_left And.left

theorem keyOrder_eq (ha : a ∈ table.rows) (hb : b ∈ table.rows) :
    keyOrder table.schema a b = cmpBytes
      (toKey (table.schema.primaryKeyOf a) table.schema.primaryKeyType)
      (toKey (table.schema.primaryKeyOf b) table.schema.primaryKeyType) := by
  rw [Value.toKey_eq_keyIn, Value.toKey_eq_keyIn]
  exact valueOrder_eq (Or.inr (Table.fits ha)) (Or.inr (Table.fits hb))

theorem keyOrder_of_lt (ha : a ∈ table.rows) (hb : b ∈ table.rows)
    (h : toKey (table.schema.primaryKeyOf a) table.schema.primaryKeyType
      < toKey (table.schema.primaryKeyOf b) table.schema.primaryKeyType) :
    keyOrder table.schema a b = .lt := by
  rw [keyOrder_eq ha hb]
  exact (compares_cmpBytes _ _).lt.mpr h

/-- No two rows have the same primary key. -/
theorem eq_of_keyOrder (ha : a ∈ table.rows) (hb : b ∈ table.rows)
    (h : keyOrder table.schema a b = .eq) : a = b := by
  rw [keyOrder_eq ha hb] at h
  have hcmp := compares_cmpBytes (toKey (table.schema.primaryKeyOf a) table.schema.primaryKeyType)
    (toKey (table.schema.primaryKeyOf b) table.schema.primaryKeyType)
  rw [h] at hcmp
  have hkey := key_eq_iff.mpr ⟨fun hlt => absurd (hcmp.lt.mpr hlt) (by decide),
    fun hlt => absurd (hcmp.gt.mpr hlt) (by decide)⟩
  exact (Prod.mk.inj (SortedMap.key_unique (Table.exists_entry ha).1 (Table.exists_entry hb).1 hkey)).2

theorem columnValue_of_index {schema : TableSchema} {column : Identifier} {i : Nat}
    (h : schema.columnIndex column = some i) (row : Row) :
    columnValue schema column row = row[i]?.getD .null := by
  simp [columnValue, TableSchema.lookup, h]

theorem exists_inColumn_columnValue (table : Table) (column : Identifier) :
    ∃ t, ∀ row ∈ table.rows, InColumn t (columnValue table.schema column row) := by
  cases hindex : table.schema.columnIndex column with
  | none => exact ⟨.unknownType, fun row _ => Or.inl (by simp [columnValue, TableSchema.lookup, hindex])⟩
  | some i =>
    obtain ⟨t, ht⟩ := exists_inColumn table i
    refine ⟨t, fun row hrow => ?_⟩
    rw [columnValue_of_index hindex]
    exact ht row hrow

theorem lawfulOn_columnOrder (table : Table) (item : OrderByItem) :
    Sorting.LawfulOn (· ∈ table.rows) (columnOrder table.schema item) := by
  obtain ⟨t, ht⟩ := exists_inColumn_columnValue table item.column
  have hvalues : Sorting.LawfulOn (· ∈ table.rows) fun a b => valueOrder
      (columnValue table.schema item.column a) (columnValue table.schema item.column b) :=
    lawfulOn_of_keys (fun row => keyIn (tagOf t) (columnValue table.schema item.column row))
      fun a b ha hb => valueOrder_eq (ht a ha) (ht b hb)
  unfold columnOrder
  cases item.direction with
  | asc => exact hvalues
  | desc => exact hvalues.reverse

theorem lawfulOn_keyOrder (table : Table) :
    Sorting.LawfulOn (· ∈ table.rows) (keyOrder table.schema) :=
  lawfulOn_of_keys _ fun _ _ ha hb => keyOrder_eq ha hb

/-- **The order tells any two rows apart.** -/
theorem totalOn_comesBefore (table : Table) (orderBy : List OrderByItem) :
    Sorting.TotalOn (· ∈ table.rows) (comesBefore table.schema orderBy) := by
  refine Sorting.totalOn_lexLess ?_ ⟨keyOrder table.schema, by simp, fun a b ha hb => eq_of_keyOrder ha hb⟩
  intro cmp hcmp
  rcases mem_snoc.mp hcmp with hcmp | hcmp
  · obtain ⟨item, -, rfl⟩ := mem_map.mp hcmp
    exact lawfulOn_columnOrder table item
  · rw [hcmp]
    exact lawfulOn_keyOrder table

/-! ## The comparator of the source -/

/-- The order at one place of the rows. -/
def placeOrder (key : SortKey) (a b : Row) : Ordering :=
  let o := compareForSort (a[key.index]?.getD .null) (b[key.index]?.getD .null)
  if key.ascending then o else o.swap

theorem rowLess_eq_lexLess {keys : List SortKey}
    (hkeys : ∀ key ∈ keys, key.index < a.length ∧ key.index < b.length) :
    rowLess keys a b = Sorting.lexLess (keys.map placeOrder) a b := by
  induction keys with
  | nil => rfl
  | cons key keys ih =>
    obtain ⟨⟨ha, hb⟩, hkeys⟩ := forall_mem_cons.mp hkeys
    rw [rowLess, map_cons, Sorting.lexLess, ← ih hkeys, getElem?_eq_getElem ha,
      getElem?_eq_getElem hb]
    simp only [placeOrder, getElem?_eq_getElem ha, getElem?_eq_getElem hb, Option.getD_some]
    cases compareForSort a[key.index] b[key.index] <;> cases key.ascending <;> rfl

/-- A column of an ORDER BY, and its place. -/
def PlaceOf (item : OrderByItem) (key : SortKey) : Prop :=
  schema.columnIndex item.column = some key.index ∧ key.ascending = decide (item.direction = .asc)

theorem orderKeys_spec {schema : TableSchema} {orderBy : List OrderByItem}
    (h : ∀ item ∈ orderBy, schema.columnIndex item.column ≠ none) :
    ∃ keys, orderKeys schema orderBy = .ok keys ∧ List.Forall₂ (PlaceOf schema) orderBy keys := by
  induction orderBy with
  | nil => exact ⟨[], rfl, .nil⟩
  | cons item rest ih =>
    obtain ⟨hitem, hrest⟩ := forall_mem_cons.mp h
    obtain ⟨i, hi⟩ := Option.ne_none_iff_exists'.mp hitem
    obtain ⟨keys, hkeys, hplaces⟩ := ih hrest
    refine ⟨⟨i, item.direction = .asc⟩ :: keys, ?_, .cons ⟨hi, rfl⟩ hplaces⟩
    rw [orderKeys, hi]
    dsimp only
    rw [hkeys]
    rfl

theorem placeOrder_eq (ha : a ∈ table.rows) (hb : b ∈ table.rows) {item : OrderByItem} {key : SortKey}
    (h : PlaceOf table.schema item key) : placeOrder key a b = columnOrder table.schema item a b := by
  obtain ⟨t, ht⟩ := exists_inColumn table key.index
  unfold placeOrder columnOrder
  rw [columnValue_of_index h.1, columnValue_of_index h.1, compareForSort_eq (ht a ha) (ht b hb), h.2]
  cases item.direction <;> rfl

theorem keyOrder_eq_placeOrder (ha : a ∈ table.rows) (hb : b ∈ table.rows) {i : Nat}
    (hi : table.schema.primaryKeyIndex = some i) :
    placeOrder ⟨i, true⟩ a b = keyOrder table.schema a b := by
  obtain ⟨t, ht⟩ := exists_inColumn table i
  have hkey : ∀ row, table.schema.primaryKeyOf row = row[i]?.getD .null := by
    intro row
    simp [TableSchema.primaryKeyOf, hi]
  unfold keyOrder
  rw [hkey, hkey]
  exact compareForSort_eq (ht a ha) (ht b hb)

/-- Both rows have a value at the place of a column. -/
theorem place_lt (ha : a ∈ table.rows) {column : Identifier} {i : Nat}
    (h : table.schema.columnIndex column = some i) : i < a.length := by
  rw [(TableSchema.length_of_validateRow (Table.exists_entry ha).2).1]
  exact (findIdx?_eq_some_iff_getElem.mp h).1

/-- **On the rows of a table the comparator of the source is the order that is meant.** -/
theorem rowLess_eq (ha : a ∈ table.rows) (hb : b ∈ table.rows) {orderBy : List OrderByItem}
    {keys : List SortKey} (h : List.Forall₂ (PlaceOf table.schema) orderBy keys) :
    rowLess (withPrimaryKey table.schema keys) a b = comesBefore table.schema orderBy a b := by
  obtain ⟨i, key, hi, -, -, hindex⟩ := TableSchema.primaryKey_of_validate table.valid
  have hplaces : ∀ k ∈ keys, k.index < a.length ∧ k.index < b.length := by
    clear hindex
    induction h with
    | nil => simp
    | cons hk _ ih => exact forall_mem_cons.mpr ⟨⟨place_lt ha hk.1, place_lt hb hk.1⟩, ih⟩
  have hall : Sorting.lexLess ((keys ++ [SortKey.mk i true]).map placeOrder) a b
      = comesBefore table.schema orderBy a b := by
    refine Sorting.lexLess_congr ?_
    rw [map_append]
    refine rel_append ?_ (.cons (keyOrder_eq_placeOrder ha hb hi) .nil)
    exact List.forall₂_map_left_iff.mpr (List.forall₂_map_right_iff.mpr
      (h.flip.imp fun k item hk => placeOrder_eq ha hb hk))
  rw [← hall]
  unfold withPrimaryKey
  rw [hi]
  dsimp only
  split
  · -- the primary key is the last column: to compare it once more changes nothing
    rename_i hlast
    rw [rowLess_eq_lexLess hplaces, map_append]
    refine (Sorting.lexLess_append fun hties => ?_).symm
    obtain ⟨k, hk, rfl⟩ := Option.map_eq_some_iff.mp hlast
    have htie := hties _ (mem_map_of_mem (mem_of_getLast? hk))
    unfold placeOrder at htie ⊢
    revert htie
    cases compareForSort (a[k.index]?.getD .null) (b[k.index]?.getD .null) <;> cases k.ascending <;>
      simp
  · rw [rowLess_eq_lexLess]
    refine forall_mem_append.mpr ⟨hplaces, forall_mem_singleton.mpr ?_⟩
    exact ⟨place_lt ha hindex, place_lt hb hindex⟩

end Rows

end SqlDb.Exec
