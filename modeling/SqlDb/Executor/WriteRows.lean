/-
  THE ROWS THAT ARE WRITTEN.

  The executor builds rows by code of its own, and `Table::insert` and `Table::update` check them again.
  An INSERT fills a row of NULLs by a list of places and values, from left to right, so that of two values
  for one place the LAST stays (`fillAll_spec`); an UPDATE changes the values of a row that was read.  If
  the validator has accepted the statement,

  * the rows of an INSERT are valid (`validateRow_insertedRow`).  If the primary key has one place in the
    column list, its value is the one that the validator has looked at; otherwise it need not be;
  * an updated row is valid, and its primary key is what it was (`assign_of_accepted`).
-/
import SqlDb.Executor.StoreScan
import SqlDb.Statement.Accepted

namespace SqlDb.Exec

open Sql Plan List
open Kv (Data)
open Interaction

/-! ## Places and values -/

/-- Values for places, from left to right. -/
def fillAll (places : List (Nat × Value)) (row : Row) : Row :=
  places.foldl (fun row p => row.set p.1 p.2) row

theorem length_fillAll (places : List (Nat × Value)) (row : Row) :
    (fillAll places row).length = row.length := by
  unfold fillAll
  induction places generalizing row with
  | nil => rfl
  | cons p places ih => rw [foldl_cons, ih, length_set]

/-- A place has a value that was given for it, or what was there before. -/
theorem fillAll_spec (places : List (Nat × Value)) {row : Row} {i : Nat} (hi : i < row.length) :
    (∃ p ∈ places, p.1 = i ∧ (fillAll places row)[i]? = some p.2) ∨
      ((∀ p ∈ places, p.1 ≠ i) ∧ (fillAll places row)[i]? = row[i]?) := by
  induction places generalizing row with
  | nil => exact Or.inr ⟨fun p hp => absurd hp (by simp), rfl⟩
  | cons p places ih =>
    have hstep : fillAll (p :: places) row = fillAll places (row.set p.1 p.2) := rfl
    rw [hstep]
    have hlonger : i < (row.set p.1 p.2).length := by rwa [length_set]
    rcases ih hlonger with ⟨q, hq, hplace, hval⟩ | ⟨hno, hval⟩
    · exact Or.inl ⟨q, mem_cons_of_mem _ hq, hplace, hval⟩
    · by_cases hp : p.1 = i
      · refine Or.inl ⟨p, mem_cons_self .., hp, ?_⟩
        rw [hval, hp, getElem?_set_self hi]
      · refine Or.inr ⟨forall_mem_cons.mpr ⟨hp, hno⟩, ?_⟩
        rw [hval, getElem?_set_ne hp]

/-! ## INSERT -/

section Insert

variable {schema : TableSchema} {columns : List Identifier} {targets : List Nat} {values : List Value}

/-- The row of an INSERT. -/
def insertedRow (schema : TableSchema) (targets : List Nat) (values : List Value) : Row :=
  fillAll (targets.zip values) (List.replicate schema.columns.length .null)

theorem length_insertedRow : (insertedRow schema targets values).length = schema.columns.length := by
  unfold insertedRow
  rw [length_fillAll, length_replicate]

theorem fill_eq {columns : List Identifier} {targets : List Nat}
    (h : List.Forall₂ (fun name i => schema.columnIndex name = some i) columns targets)
    (values : List Value) (row : Row) :
    fill schema columns values row = .ok (fillAll (targets.zip values) row) := by
  induction h generalizing values row with
  | nil => cases values <;> rfl
  | cons hname _ ih =>
    cases values with
    | nil => rfl
    | cons value values =>
      rw [fill, hname]
      exact ih values _

/-- All columns in their order. -/
theorem fillAll_range {values : List Value} (hlength : values.length = schema.columns.length) :
    insertedRow schema (List.range schema.columns.length) values = values := by
  refine ext_getElem? fun i => ?_
  by_cases hi : i < schema.columns.length
  · have hrow : i < (List.replicate schema.columns.length Value.null).length := by
      rwa [length_replicate]
    rcases fillAll_spec ((List.range schema.columns.length).zip values) hrow
      with ⟨p, hp, rfl, hval⟩ | ⟨hno, -⟩
    · obtain ⟨j, hj, hjv⟩ := getElem_of_mem hp
      rw [getElem_zip, getElem_range] at hjv
      unfold insertedRow
      rw [hval, ← hjv]
      exact (getElem?_eq_getElem _).symm
    · refine absurd rfl (hno (i, values[i]) ?_)
      rw [mem_iff_getElem]
      exact ⟨i, by simp [hi, hlength], by simp⟩
  · rw [getElem?_eq_none (by rw [length_insertedRow]; omega), getElem?_eq_none (by omega)]

/-- **What the executor makes of a row of VALUES.** -/
theorem buildRow_eq (htargets : Stmt.targetColumns schema columns = .ok targets)
    (hlength : values.length = targets.length) :
    buildRow schema columns values = .ok (insertedRow schema targets values) := by
  unfold Stmt.targetColumns at htargets
  unfold buildRow
  split_ifs at htargets with hcons
  · cases htargets
    rw [length_range] at hlength
    rw [if_pos hcons, if_neg (not_not.mpr hlength), fillAll_range hlength]
  · have hplaces : List.Forall₂ (fun name i => schema.columnIndex name = some i) columns targets := by
      refine (Fallible.mapM_eq_ok.mp htargets).imp fun name i h => ?_
      cases hindex : schema.columnIndex name with
      | none =>
        rw [hindex] at h
        simp at h
      | some j =>
        rw [hindex] at h
        rw [Except.ok.inj h]
    rw [if_neg hcons, if_neg (not_not.mpr (hlength.trans hplaces.length_eq.symm))]
    exact fill_eq hplaces values _

/-- The row is valid. -/
theorem validateRow_insertedRow (h : Stmt.RowAccepted schema targets values) :
    schema.validateRow (insertedRow schema targets values) = .ok := by
  refine TableSchema.validateRow_of_forall length_insertedRow fun i column value hcolumn hvalue => ?_
  have hi : i < (List.replicate schema.columns.length Value.null).length := by
    rw [length_replicate]
    exact lt_of_getElem? hcolumn
  rcases fillAll_spec (targets.zip values) hi with ⟨p, hp, rfl, hval⟩ | ⟨hno, hval⟩
  · obtain rfl : p.2 = value := Option.some.inj (hval.symm.trans hvalue)
    exact h.value p hp column hcolumn
  · -- no value was given, so that it is NULL
    have hnull : value = .null := by
      have hrep : (List.replicate schema.columns.length Value.null)[i]? = some .null := by
        rw [getElem?_replicate, if_pos (by simpa using hi)]
      exact Option.some.inj (hvalue.symm.trans (hval.trans hrep))
    have hmissing : i ∉ targets := by
      intro hmem
      obtain ⟨j, hj, rfl⟩ := getElem_of_mem hmem
      have hjv : j < values.length := by rw [h.length]; exact hj
      refine hno (targets[j], values[j]) ?_ rfl
      rw [mem_iff_getElem]
      exact ⟨j, by simp [hj, hjv], by simp⟩
    rw [hnull]
    exact TableSchema.validateValue_iff.mpr (Or.inl ⟨rfl, h.unmentioned i column hcolumn hmissing⟩)

/-- The primary key is not listed twice. -/
def NamesKeyOnce (schema : TableSchema) (columns : List Identifier) : Prop :=
  ∀ targets place, Stmt.targetColumns schema columns = .ok targets →
    schema.primaryKeyIndex = some place → targets.count place ≤ 1

theorem eq_of_count_one {l : List Nat} {a i j : Nat} (h : l.count a = 1) (hi : l[i]? = some a)
    (hj : l[j]? = some a) : i = j := by
  induction l generalizing i j with
  | nil => simp at hi
  | cons b l ih =>
    by_cases hb : b = a
    · -- there is no other one
      subst hb
      rw [count_cons_self, Nat.add_eq_right, count_eq_zero] at h
      have hzero : ∀ {k : Nat}, (b :: l)[k]? = some b → k = 0 := by
        intro k hk
        cases k with
        | zero => rfl
        | succ k => exact absurd (mem_of_getElem? (show l[k]? = some b from hk)) h
      rw [hzero hi, hzero hj]
    · rw [count_cons_of_ne hb] at h
      cases i with
      | zero => exact absurd (Option.some.inj hi) hb
      | succ i =>
        cases j with
        | zero => exact absurd (Option.some.inj hj) hb
        | succ j => rw [ih h hi hj]

/-- With one place for the primary key its value is the one that the validator has looked at. -/
theorem primaryKeyOf_insertedRow {place valueIndex : Nat} (hplace : schema.primaryKeyIndex = some place)
    (hcolumn : place < schema.columns.length) (hlength : values.length = targets.length)
    (honce : targets.count place = 1) (hindex : targets.idxOf? place = some valueIndex) :
    schema.primaryKeyOf (insertedRow schema targets values) = values[valueIndex]?.getD .null := by
  have hi : place < (List.replicate schema.columns.length Value.null).length := by
    rwa [length_replicate]
  obtain ⟨hbound, hat, -⟩ := idxOf?_eq_some_iff.mp hindex
  have hlisted : targets[valueIndex]? = some place := by rw [getElem?_eq_getElem hbound, hat]
  have hvalue : valueIndex < values.length := by rw [hlength]; exact hbound
  have hkey : (insertedRow schema targets values)[place]? = some values[valueIndex] := by
    rcases fillAll_spec (targets.zip values) hi with ⟨p, hp, hplace, hval⟩ | ⟨hno, -⟩
    · obtain ⟨j, hj, rfl⟩ := getElem_of_mem hp
      obtain ⟨hjt, hjv⟩ : j < targets.length ∧ j < values.length := by simpa using hj
      rw [getElem_zip] at hplace hval
      obtain rfl : j = valueIndex := eq_of_count_one honce
        (by rw [getElem?_eq_getElem hjt]; exact congrArg some hplace) hlisted
      exact hval
    · refine absurd hat (hno (targets[valueIndex], values[valueIndex]) ?_)
      rw [mem_iff_getElem]
      exact ⟨valueIndex, by simp [hbound, hvalue], by simp⟩
  simp [TableSchema.primaryKeyOf, hplace, hkey, hvalue]

/-- The key that a row of VALUES is written under. -/
def builtKey (view : TableView) (columns : List Identifier) (values : List Value) : Bytes :=
  view.encodeKey (view.schema.primaryKeyOf ((buildRow view.schema columns values).toOption.getD []))

/-- No two rows of VALUES have one key, and none has a key of the table. -/
def FreshKeys (data : Data) (view : TableView) (columns : List Identifier)
    (rows : List (List Value)) : Prop :=
  (rows.map (builtKey view columns)).Nodup ∧
    ∀ values ∈ rows, data.find (builtKey view columns values) = none

instance (data : Data) (view : TableView) (columns : List Identifier) (rows : List (List Value)) :
    Decidable (FreshKeys data view columns rows) := inferInstanceAs (Decidable (_ ∧ _))

theorem freshKeys_cons {data : Data} {view : TableView} {values : List Value}
    {rows : List (List Value)} {v : Bytes} :
    FreshKeys data view columns (values :: rows) ↔
      data.find (builtKey view columns values) = none ∧
        FreshKeys (data.insert (builtKey view columns values) v) view columns rows := by
  unfold FreshKeys
  rw [map_cons, nodup_cons, forall_mem_cons]
  constructor
  · rintro ⟨⟨hnew, hnodup⟩, hfirst, hrest⟩
    refine ⟨hfirst, hnodup, fun w hw => ?_⟩
    have hother : builtKey view columns w ≠ builtKey view columns values := by
      intro heq
      rw [← heq] at hnew
      exact hnew (mem_map_of_mem hw)
    rw [SortedMap.find_insert, if_neg hother]
    exact hrest w hw
  · rintro ⟨hfirst, hnodup, hrest⟩
    refine ⟨⟨fun hmem => ?_, hnodup⟩, hfirst, fun w hw => ?_⟩
    · obtain ⟨w, hw, hkey⟩ := mem_map.mp hmem
      have hnone := hrest w hw
      rw [SortedMap.find_insert, if_pos hkey] at hnone
      simp at hnone
    · have hnone := hrest w hw
      rw [SortedMap.find_insert] at hnone
      split at hnone
      · simp at hnone
      · exact hnone

/-- **An INSERT succeeds if its keys are fresh**, and only then. -/
theorem run_insertAll_isOk {view : TableView} {data : Data} (hheld : view.Held data)
    (htargets : Stmt.targetColumns view.schema columns = .ok targets) {rows : List (List Value)}
    (hrows : ∀ values ∈ rows, Stmt.RowAccepted view.schema targets values) :
    ((insertAll view columns rows).run.run Data.serve data).1.isOk = true ↔
      FreshKeys data view columns rows := by
  induction rows generalizing data with
  | nil =>
    refine iff_of_true rfl ⟨nodup_nil, fun _ h => absurd h (by simp)⟩
  | cons values rows ih =>
    rw [forall_mem_cons] at hrows
    have hbuild := buildRow_eq htargets hrows.1.length
    have hvalid := validateRow_insertedRow hrows.1
    have hnull := hheld.notNull hvalid
    have hkey : builtKey view columns values
        = view.encodeKey (view.schema.primaryKeyOf (insertedRow view.schema targets values)) := by
      unfold builtKey
      rw [hbuild]
      rfl
    rw [insertAll, run_bind_except, run_ofExcept, hbuild]
    dsimp only
    rw [run_bind_except, run_lift, TableView.run_insert,
      if_neg (not_not.mpr hvalid), if_neg (by rw [hnull]; simp), ← hkey]
    cases hfind : data.find (builtKey view columns values) with
    | some v =>
      refine iff_of_false (by simp [Except.isOk, Except.toBool]) fun hfresh => ?_
      have hnone := hfresh.2 values (mem_cons_self ..)
      rw [hfind] at hnone
      simp at hnone
    | none =>
      simp only [Option.isSome_none, Bool.false_eq_true, if_false]
      rw [freshKeys_cons (v := view.encodeRow (insertedRow view.schema targets values)),
        and_iff_right hfind, ← ih ?_ hrows.2]
      rw [hkey]
      exact hheld.put hvalid (Value.eq_self _)

/-- **One place for the primary key is enough**: then the validator has seen that the keys are fresh. -/
theorem freshKeys_of_accepted {data : Data} {current table : Identifier}
    (hfound : TableFound data current table)
    (hschema : KVCatalog.schemaOf data current table = some schema)
    (hheld : TableView.Held ⟨current, schema⟩ data) {query : InsertQuery} (htable : query.table = table)
    (htargets : Stmt.targetColumns schema query.columns = .ok targets)
    (hrows : ∀ values ∈ query.values, Stmt.RowAccepted schema targets values)
    (hkeys : ((Stmt.checkPrimaryKeyConflicts current schema query targets).run.run Data.serve
      data).1 = .ok ())
    (honce : NamesKeyOnce schema query.columns) :
    FreshKeys data ⟨current, schema⟩ query.columns query.values := by
  subst htable
  have hvalid : schema.validate = .ok := hheld.stored.valid
  obtain ⟨place, key, hplace, hcolumn, hnullable, -⟩ := TableSchema.primaryKey_of_validate hvalid
  have hkeyColumn : schema.primaryKeyColumn = some key := by
    simp [TableSchema.primaryKeyColumn, hplace, hcolumn]
  have htype : schema.primaryKeyType = key.type := by simp [TableSchema.primaryKeyType, hkeyColumn]
  rcases hvalues : query.values with _ | ⟨first, others⟩
  · exact ⟨nodup_nil, fun _ h => absurd h (by simp)⟩
  rw [← hvalues]
  -- the primary key is listed, so that the validator has looked for conflicts
  have hlisted : place ∈ targets := by
    by_contra hmissing
    have hfirst := hrows first (by rw [hvalues]; exact mem_cons_self ..)
    rw [hfirst.unmentioned place key hcolumn hmissing] at hnullable
    simp at hnullable
  have hcount : targets.count place = 1 :=
    Nat.le_antisymm (honce targets place htargets hplace) (count_pos_iff.mpr hlisted)
  obtain ⟨valueIndex, hindex⟩ : ∃ i, targets.idxOf? place = some i := by
    cases hindex : targets.idxOf? place with
    | some i => exact ⟨i, rfl⟩
    | none => exact absurd hlisted (idxOf?_eq_none_iff.mp hindex)
  have hat : ∀ values ∈ query.values, schema.primaryKeyOf (insertedRow schema targets values)
      = values[valueIndex]?.getD .null := fun values hvalues =>
    primaryKeyOf_insertedRow hplace (lt_of_getElem? hcolumn) (hrows values hvalues).length
      hcount hindex
  unfold Stmt.checkPrimaryKeyConflicts at hkeys
  rw [hplace, hkeyColumn] at hkeys
  simp only [hindex, ← htype] at hkeys
  obtain ⟨hnodup, -, habsent⟩ := Stmt.checkKeys_eq_ok hfound hschema hheld (fun values hvalues => by
    rw [← hat values hvalues]
    exact hheld.notNull (validateRow_insertedRow (hrows values hvalues))) hkeys
  have hkey : ∀ values ∈ query.values, builtKey ⟨current, schema⟩ query.columns values
      = TableView.encodeKey ⟨current, schema⟩ (values[valueIndex]?.getD .null) := by
    intro values hvalues
    unfold builtKey
    rw [buildRow_eq htargets (hrows values hvalues).length, ← hat values hvalues]
    rfl
  refine ⟨?_, fun values hvalues => by rw [hkey values hvalues]; exact habsent values hvalues⟩
  rw [map_congr_left hkey]
  -- the keys of the store are those of the values behind the prefix of the table
  have hmap : query.values.map (fun values =>
      TableView.encodeKey ⟨current, schema⟩ (values[valueIndex]?.getD .null))
      = (Stmt.keysAt schema valueIndex query.values).map
          fun k => TableView.keyPrefix ⟨current, schema⟩ ++ k := by
    unfold Stmt.keysAt
    rw [map_map]
    rfl
  rw [hmap]
  exact hnodup.map fun a b h => append_cancel_left h

end Insert

/-! ## UPDATE -/

section Update

variable {schema : TableSchema} {row : Row}

theorem validateRow_set (hrow : schema.validateRow row = .ok) {i : Nat} {column : ColumnDef}
    {value : Value} (hcolumn : schema.columns[i]? = some column)
    (hvalue : TableSchema.validateValue column value = .ok) :
    schema.validateRow (row.set i value) = .ok := by
  obtain ⟨hlength, hvalues⟩ := TableSchema.length_of_validateRow hrow
  refine TableSchema.validateRow_of_forall (by rwa [length_set]) fun j c w hc hw => ?_
  by_cases hij : i = j
  · subst hij
    have hbound : i < row.length := by
      rw [hlength]
      exact lt_of_getElem? hc
    rw [getElem?_set_self hbound] at hw
    cases hw
    obtain rfl := Option.some.inj (hc.symm.trans hcolumn)
    exact hvalue
  · rw [getElem?_set_ne hij] at hw
    exact TableSchema.validateValue_of_validateValues hvalues hc hw

/-- **An accepted SET list** makes a valid row of a valid row, and leaves the primary key. -/
theorem assign_of_accepted (hbuilt : schema.WellBuilt) {assignments : List Assignment}
    (h : ∀ assignment ∈ assignments, Stmt.checkAssignment schema assignment = .ok ())
    (hrow : schema.validateRow row = .ok) :
    ∃ updated, assign schema assignments row = .ok updated ∧ schema.validateRow updated = .ok ∧
      schema.primaryKeyOf updated = schema.primaryKeyOf row := by
  induction assignments generalizing row with
  | nil => exact ⟨row, rfl, hrow, rfl⟩
  | cons assignment rest ih =>
    rw [forall_mem_cons] at h
    obtain ⟨i, column, hindex, hcolumn, hvalue, hnotKey⟩ := Stmt.checkAssignment_eq_ok h.1
    obtain ⟨updated, hassign, hvalid, hkey⟩ := ih h.2 (validateRow_set hrow hcolumn hvalue)
    refine ⟨updated, ?_, hvalid, hkey.trans ?_⟩
    · rw [assign, hindex]
      exact hassign
    · -- the place of the primary key is another one
      unfold TableSchema.primaryKeyOf
      cases hplace : schema.primaryKeyIndex with
      | none => rfl
      | some place =>
        have hother : i ≠ place := by
          rintro rfl
          obtain ⟨c, hc, hmarked⟩ := (hbuilt.key i).mp hplace
          obtain rfl := Option.some.inj (hc.symm.trans hcolumn)
          rw [hnotKey] at hmarked
          simp at hmarked
        simp [getElem?_set_ne hother]

end Update

/-! ## Statements that find their rows -/

section Found

variable {view : TableView} {data : Data} {child : PlanNode}

theorem readable_held {S : Type} : Readable view (fun (_ : S) data => view.Held data)
    fun row => view.schema.validateRow row = .ok := by
  intro s data k v hheld hk hfind
  obtain ⟨row, hrow⟩ := hheld.reads hk hfind
  exact ⟨row, hrow.decoded, hrow.valid⟩

/-- **An accepted UPDATE succeeds.** -/
theorem succeeds_runUpdate (hheld : view.Held data) (hchild : IsScanChain child)
    {assignments : List Assignment}
    (h : ∀ assignment ∈ assignments, Stmt.checkAssignment view.schema assignment = .ok ()) :
    Succeeds Data.serve (runUpdate view child assignments) data fun _ data' => view.Held data' := by
  have hkeeps : Keeps (fun (_ : Nat) data => view.Held data)
      (fun row => view.schema.validateRow row = .ok) (updateRow view assignments) := by
    intro affected data row hheld hrow
    obtain ⟨updated, hassign, hvalid, hkey⟩ := assign_of_accepted hheld.stored.built h hrow
    have hnull := hheld.notNull hrow
    have hsame : (view.schema.primaryKeyOf updated).eq (view.schema.primaryKeyOf row) = true := by
      rw [hkey]
      exact Value.eq_self _
    unfold updateRow
    simp only [hnull, Bool.false_eq_true, if_false]
    refine succeeds_bind_ofExcept hassign (succeeds_bind_lift ?_)
    rw [TableView.run_update, if_neg (by rw [hnull]; simp), if_neg (not_not.mpr hvalid),
      if_neg (by rw [hsame]; simp)]
    exact succeeds_pure ⟨_, rfl, hheld.put hvalid hsame⟩
  refine (succeeds_visitPlan _ hchild readable_held hkeeps hheld).bind ?_
  rintro flow data' ⟨affected, rfl, hheld'⟩
  exact succeeds_pure hheld'

theorem succeeds_removeAll {primaryKeys : List Value}
    (h : ∀ primaryKey ∈ primaryKeys, primaryKey.isNull = false) :
    Succeeds Data.serve (removeAll view primaryKeys) data fun _ _ => True := by
  induction primaryKeys generalizing data with
  | nil => exact succeeds_pure trivial
  | cons primaryKey rest ih =>
    rw [forall_mem_cons] at h
    refine succeeds_bind_lift ?_
    rw [TableView.run_remove, if_neg (by rw [h.1]; simp)]
    exact ih h.2

/-- **A DELETE succeeds.** -/
theorem succeeds_runDelete (hheld : view.Held data) (hchild : IsScanChain child) :
    Succeeds Data.serve (runDelete view child) data fun _ _ => True := by
  have hkeeps : Keeps (fun (doomed : List Value) data => view.Held data ∧
      ∀ primaryKey ∈ doomed, primaryKey.isNull = false)
      (fun row => view.schema.validateRow row = .ok) (doomRow view) := by
    rintro doomed data row ⟨hheld, hdoomed⟩ hrow
    have hnull := hheld.notNull hrow
    unfold doomRow
    simp only [hnull, Bool.false_eq_true, if_false]
    refine succeeds_pure ⟨_, rfl, hheld, fun primaryKey hmem => ?_⟩
    rcases mem_snoc.mp hmem with hin | hin
    · exact hdoomed primaryKey hin
    · rw [hin]
      exact hnull
  have hread : Readable view (fun (doomed : List Value) data => view.Held data ∧
      ∀ primaryKey ∈ doomed, primaryKey.isNull = false)
      fun row => view.schema.validateRow row = .ok :=
    fun s data k v hinv => readable_held s data k v hinv.1
  refine (succeeds_visitPlan _ hchild hread hkeeps
    ⟨hheld, fun _ hmem => absurd hmem (by simp)⟩).bind ?_
  rintro flow data' ⟨doomed, rfl, -, hdoomed⟩
  exact (succeeds_removeAll hdoomed).bind fun _ _ _ => succeeds_pure trivial

end Found

end SqlDb.Exec
