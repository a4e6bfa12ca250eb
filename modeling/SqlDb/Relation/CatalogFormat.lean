/-
  WHAT THE CATALOG STORES, AS BYTES  (sql_types/schema.cpp, relation/kv_catalog.cpp).

  Three records: the schema of a table, a list of names (all databases, or the tables of a database),
  and the statistics of a table.  Each starts with a version byte; names are length-prefixed, so that a
  name may hold any byte.

  NAMES ARE READ BACK AS TEXT.  A name is stored without the quotes it was written in, and what is read
  goes through the constructor of `Identifier`, which takes off quotes around the text AGAIN.  So a name
  whose text is itself in quotes, such as the name written "'a'", comes back as another name
  (`quotedName_not_readBack`).  All other names are read back: those are the PLAIN ones, and the two
  formats are exact for schemas and lists of plain names, and only for them (`formats_exact`).
-/
import SqlDb.SqlTypes.RowFormat

namespace SqlDb.Sql

open List

/-! ## Plain names -/

namespace Identifier

/-- The text is within quotes of one kind. -/
def InQuotes (raw : Bytes) : Prop :=
  raw.length ≥ 2 ∧ ((raw.head? = some kDoubleQuote ∧ raw.getLast? = some kDoubleQuote) ∨
    (raw.head? = some kQuote ∧ raw.getLast? = some kQuote))

instance (raw : Bytes) : Decidable (InQuotes raw) :=
  inferInstanceAs (Decidable (_ ∧ (_ ∨ _)))

/-- A name that its text stands for, with a text short enough to be stored. -/
def Plain (id : Identifier) : Prop := ¬ InQuotes id.name ∧ id.name.length < 2 ^ 32

instance (id : Identifier) : Decidable id.Plain := inferInstanceAs (Decidable (_ ∧ _))

/-- The name as it is read back: how it was written is not stored. -/
def unquoted (id : Identifier) : Identifier := ⟨id.name, false⟩

theorem ofText_eq (raw : Bytes) :
    ofText raw = if InQuotes raw then ⟨raw.tail.dropLast, true⟩ else ⟨raw, false⟩ := rfl

theorem ofText_of_plain {id : Identifier} (h : id.Plain) : ofText id.name = id.unquoted := by
  rw [ofText_eq, if_neg h.1]
  rfl

theorem unquoted_eq (id : Identifier) : id.unquoted.eq id = true := by
  unfold eq
  exact decide_eq_true rfl

theorem length_eq_of_eq {a b : Identifier} (h : a.eq b = true) : a.name.length = b.name.length := by
  have hlower : a.lower = b.lower := of_decide_eq_true h
  simpa [lower] using congrArg List.length hlower

/-- A name that is equal to what is read back of it, from a length kept to 32 bits, is plain. -/
theorem plain_of_eq {id : Identifier}
    (h : (ofText (id.name.take (id.name.length % 2 ^ 32))).eq id = true) : id.Plain := by
  have hlen := length_eq_of_eq h
  -- taking off quotes, or cutting down the length, makes the name shorter
  have hshort : id.name.length < 2 ^ 32 := by
    by_contra hlong
    have hmod := Nat.mod_lt id.name.length (by decide : 0 < 2 ^ 32)
    rw [ofText_eq] at hlen
    split at hlen <;> simp at hlen <;> omega
  refine ⟨fun hquotes => ?_, hshort⟩
  rw [Nat.mod_eq_of_lt hshort, take_length, ofText_eq, if_pos hquotes] at hlen
  have htwo := hquotes.1
  simp at hlen
  omega

end Identifier

/-! ## Schemas -/

namespace DataType

/-- The types in the order of their codes. -/
def all : List DataType :=
  [.tinyInt, .smallInt, .int, .bigInt, .char, .varchar, .text, .boolean, .date, .time, .datetime,
    .nullType, .unknownType]

def code (t : DataType) : Nat := all.idxOf t

def ofCode (n : Nat) : Option DataType := all[n]?

theorem ofCode_code (t : DataType) : ofCode t.code = some t := by
  cases t <;> rfl

theorem code_lt (t : DataType) : t.code < 256 := by
  cases t <;> decide

end DataType

/-- `operator==`. -/
def ColumnDef.eq (a b : ColumnDef) : Bool :=
  a.name.eq b.name && a.type = b.type && a.length = b.length && a.nullable = b.nullable &&
    a.primaryKey = b.primaryKey

namespace TableSchema

/-- `operator==`; the error of building it is not compared. -/
def eq (a b : TableSchema) : Bool :=
  a.name.eq b.name && a.columns.isEqv b.columns ColumnDef.eq && a.primaryKeyIndex = b.primaryKeyIndex

/-- `TableSchema(name)`. -/
def ofName (name : Identifier) : TableSchema := ⟨name, [], none, .ok⟩

variable (schema : TableSchema)

/-- The first error is kept, and nothing is added after it. -/
def addColumn (column : ColumnDef) : TableSchema :=
  if schema.error ≠ .ok then schema
  else if column.type.validDeclaredLength column.length = false then
    { schema with error := .invalidColumnDef }
  else if column.primaryKey = true ∧ schema.hasPrimaryKey = true then
    { schema with error := .duplicatePrimaryKey }
  else if schema.columns.any (fun existing => existing.name.eq column.name) = true then
    { schema with error := .duplicateColumnName }
  else
    { schema with
      columns := schema.columns ++ [column]
      primaryKeyIndex :=
        if column.primaryKey then some schema.columns.length else schema.primaryKeyIndex }

/-- The schema of a new table. -/
def ofColumns (name : Identifier) (columns : List ColumnDef) : TableSchema :=
  columns.foldl addColumn (ofName name)

def kFormatVersion : UInt8 := 2

def kMaxColumns : Nat := 65535

/-- Bit 0: nullable; bit 1: primary key. -/
def columnFlags (column : ColumnDef) : UInt8 :=
  (if column.nullable then 0x01 else 0x00) ||| (if column.primaryKey then 0x02 else 0x00)

def serializeColumn (column : ColumnDef) : Bytes :=
  Codec.frame 4 column.name.name ++ (UInt8.ofNat column.type.code ::
    (Codec.bigEndian 4 column.length ++ [columnFlags column]))

/-- The slot in which the index of the primary key is stored, 0 for none. -/
def pkSlot : Nat :=
  match schema.primaryKeyIndex with
  | some i => i + 1
  | none => 0

def serialize : Bytes :=
  kFormatVersion :: (Codec.frame 4 schema.name.name ++
    (Codec.bigEndian 4 schema.pkSlot ++
      (Codec.bigEndian 4 schema.columns.length ++ schema.columns.flatMap serializeColumn)))

def readByte : Codec.Reader SchemaError UInt8 := do
  let n ← Codec.readNumber .invalidFormat 1
  pure (UInt8.ofNat n)

def readColumn : Codec.Reader SchemaError ColumnDef := do
  let name ← Codec.readFrame .invalidFormat 4
  let type ← readByte
  let length ← Codec.readNumber .invalidFormat 4
  let flags ← readByte
  match DataType.ofCode type.toNat with
  | none => Prog.throw .invalidFormat
  | some type =>
    if type.validDeclaredLength length = false then Prog.throw .invalidFormat
    else
      pure ⟨.ofText name, type, length, flags &&& 0x01 != 0, flags &&& 0x02 != 0⟩

/-- The last column that is marked as the primary key. -/
def lastPrimaryKey (columns : List ColumnDef) : Option Nat :=
  columns.zipIdx.foldl (fun index field => if field.1.primaryKey then some field.2 else index) none

def read : Codec.Reader SchemaError TableSchema := do
  let version ← readByte
  if version ≠ kFormatVersion then Prog.throw .invalidFormat
  else
    let name ← Codec.readFrame .invalidFormat 4
    let pkSlot ← Codec.readNumber .invalidFormat 4
    let columnCount ← Codec.readNumber .invalidFormat 4
    if columnCount > kMaxColumns then Prog.throw .invalidFormat
    else
      let columns ← Codec.readMany readColumn columnCount
      pure ⟨.ofText name, columns,
        if pkSlot > 0 ∧ pkSlot ≤ columnCount then some (pkSlot - 1) else lastPrimaryKey columns, .ok⟩

def deserialize (data : Bytes) : Except SchemaError TableSchema :=
  Codec.whole .invalidFormat read data

/-! ## Schemas that were built -/

/-- What `add_column` ensures. -/
structure WellBuilt (schema : TableSchema) : Prop where
  declared : ∀ column ∈ schema.columns, column.type.validDeclaredLength column.length = true
  distinct : schema.columns.Pairwise fun a b => a.name.eq b.name = false
  /-- The primary key is the one column that is marked as such. -/
  key : ∀ i, schema.primaryKeyIndex = some i ↔
    ∃ column, schema.columns[i]? = some column ∧ column.primaryKey = true

theorem wellBuilt_ofName (name : Identifier) : WellBuilt (ofName name) where
  declared := by simp [ofName]
  distinct := List.Pairwise.nil
  key := by simp [ofName]

theorem WellBuilt.hasPrimaryKey_iff {schema : TableSchema} (h : WellBuilt schema) :
    schema.hasPrimaryKey = true ↔ ∃ i, schema.primaryKeyIndex = some i := by
  unfold hasPrimaryKey primaryKeyColumn
  constructor
  · intro hsome
    obtain ⟨column, hcolumn⟩ := Option.isSome_iff_exists.mp hsome
    obtain ⟨i, hi, -⟩ := Option.bind_eq_some_iff.mp hcolumn
    exact ⟨i, hi⟩
  · rintro ⟨i, hi⟩
    obtain ⟨column, hcolumn, -⟩ := (h.key i).mp hi
    rw [hi, Option.bind_some, hcolumn]
    rfl

/-- What one call of `add_column` can do: record an error, or append the column. -/
theorem addColumn_cases (column : ColumnDef) :
    (∃ error, addColumn schema column = { schema with error := error }) ∨
    (schema.error = .ok ∧ column.type.validDeclaredLength column.length = true ∧
      ¬ (column.primaryKey = true ∧ schema.hasPrimaryKey = true) ∧
      (∀ existing ∈ schema.columns, existing.name.eq column.name = false) ∧
      addColumn schema column = { schema with
        columns := schema.columns ++ [column]
        primaryKeyIndex :=
          if column.primaryKey then some schema.columns.length else schema.primaryKeyIndex }) := by
  unfold addColumn
  split
  · exact Or.inl ⟨schema.error, rfl⟩
  · rename_i hok
    split
    · exact Or.inl ⟨_, rfl⟩
    · rename_i hdeclared
      split
      · exact Or.inl ⟨_, rfl⟩
      · rename_i hkey
        split
        · exact Or.inl ⟨_, rfl⟩
        · rename_i hname
          refine Or.inr ⟨not_not.mp hok, by simpa using hdeclared, hkey, ?_, rfl⟩
          simpa using hname

theorem WellBuilt.addColumn {schema : TableSchema} (h : WellBuilt schema) (column : ColumnDef) :
    WellBuilt (addColumn schema column) := by
  rcases addColumn_cases schema column with ⟨error, heq⟩ | ⟨-, hdeclared, hkey, hname, heq⟩
  · rw [heq]
    exact ⟨h.declared, h.distinct, h.key⟩
  · rw [heq]
    refine ⟨?_, ?_, fun i => ?_⟩
    · intro c hc
      rcases mem_snoc.mp hc with hc | hc
      · exact h.declared c hc
      · rwa [hc]
    · refine pairwise_append.mpr ⟨h.distinct, pairwise_singleton _ _, ?_⟩
      intro a ha b hb
      rw [mem_singleton.mp hb]
      exact hname a ha
    · dsimp only
      by_cases hpk : column.primaryKey = true
      · -- no column was the primary key before
        have hnone : ∀ i, schema.primaryKeyIndex ≠ some i := fun i hi =>
          hkey ⟨hpk, h.hasPrimaryKey_iff.mpr ⟨i, hi⟩⟩
        rw [if_pos hpk, Option.some.injEq]
        simp only [getElem?_snoc]
        constructor
        · rintro rfl
          exact ⟨column, Or.inr ⟨rfl, rfl⟩, hpk⟩
        · rintro ⟨c, hc | ⟨hi, -⟩, hcpk⟩
          · exact absurd ((h.key i).mpr ⟨c, hc, hcpk⟩) (hnone i)
          · exact hi.symm
      · rw [if_neg hpk, h.key i]
        simp only [getElem?_snoc]
        constructor
        · rintro ⟨c, hc, hcpk⟩
          exact ⟨c, Or.inl hc, hcpk⟩
        · rintro ⟨c, hc | ⟨-, rfl⟩, hcpk⟩
          · exact ⟨c, hc, hcpk⟩
          · exact absurd hcpk hpk

theorem wellBuilt_foldl (name : Identifier) (columns : List ColumnDef) :
    WellBuilt (columns.foldl TableSchema.addColumn (ofName name)) := by
  have hrun : ∀ schema, WellBuilt schema →
      WellBuilt (columns.foldl TableSchema.addColumn schema) := by
    induction columns with
    | nil => exact fun _ h => h
    | cons column columns ih => exact fun schema h => ih _ (h.addColumn column)
  exact hrun _ (wellBuilt_ofName name)

theorem addColumn_sub (column : ColumnDef) :
    (addColumn schema column).name = schema.name ∧
      (addColumn schema column).columns.length ≤ schema.columns.length + 1 ∧
      ∀ c ∈ (addColumn schema column).columns, c ∈ schema.columns ∨ c = column := by
  rcases addColumn_cases schema column with ⟨error, heq⟩ | ⟨-, -, -, -, heq⟩ <;> rw [heq]
  · exact ⟨rfl, Nat.le_succ _, fun c hc => Or.inl hc⟩
  · exact ⟨rfl, by simp, fun c hc => mem_snoc.mp hc⟩

/-- What is built has the name and columns that were given, in the same number at most. -/
theorem foldl_addColumn_sub (columns : List ColumnDef) :
    (columns.foldl addColumn schema).name = schema.name ∧
      (columns.foldl addColumn schema).columns.length ≤ schema.columns.length + columns.length ∧
      ∀ column ∈ (columns.foldl addColumn schema).columns,
        column ∈ schema.columns ∨ column ∈ columns := by
  induction columns generalizing schema with
  | nil => exact ⟨rfl, le_rfl, fun column hcolumn => Or.inl hcolumn⟩
  | cons first columns ih =>
    obtain ⟨hname, hlength, hmem⟩ := ih (addColumn schema first)
    obtain ⟨hname', hlength', hmem'⟩ := addColumn_sub schema first
    refine ⟨hname.trans hname', by rw [length_cons, foldl_cons]; omega, fun column hcolumn => ?_⟩
    rcases hmem column hcolumn with hold | hnew
    · rcases hmem' column hold with hold | rfl
      · exact Or.inl hold
      · exact Or.inr mem_cons_self
    · exact Or.inr (mem_cons_of_mem first hnew)

/-! ## Schemas are read back -/

theorem readByte_cons (b : UInt8) (rest : Bytes) : readByte (b :: rest) = (.ok b, rest) := by
  have hread : Codec.readNumber (.invalidFormat : SchemaError) 1 (b :: rest)
      = (.ok (0 * 256 + b.toNat), rest) := rfl
  unfold readByte
  rw [Prog.bind_apply_ok hread, Nat.zero_mul, Nat.zero_add, UInt8.ofNat_toNat]
  rfl

/-- A column as it is read back. -/
def unquotedColumn (column : ColumnDef) : ColumnDef := { column with name := column.name.unquoted }

/-- A schema as it is read back. -/
def unquoted : TableSchema :=
  { schema with
    name := schema.name.unquoted
    columns := schema.columns.map unquotedColumn
    error := .ok }

theorem length_lt_of_declared {column : ColumnDef}
    (h : column.type.validDeclaredLength column.length = true) : column.length < 256 ^ 4 := by
  unfold DataType.validDeclaredLength DataType.kMaxCharLength DataType.kMaxVarcharLength at h
  cases ht : column.type <;> simp [ht] at h <;> omega

theorem columnFlags_bits (column : ColumnDef) :
    (columnFlags column &&& 0x01 != 0) = column.nullable ∧
      (columnFlags column &&& 0x02 != 0) = column.primaryKey := by
  unfold columnFlags
  cases column.nullable <;> cases column.primaryKey <;> exact ⟨rfl, rfl⟩

theorem readColumn_append {column : ColumnDef} (hname : column.name.Plain)
    (hdeclared : column.type.validDeclaredLength column.length = true) (rest : Bytes) :
    readColumn (serializeColumn column ++ rest) = (.ok (unquotedColumn column), rest) := by
  have hcode : DataType.ofCode (UInt8.ofNat column.type.code).toNat = some column.type := by
    rw [UInt8.toNat_ofNat_of_lt' column.type.code_lt, DataType.ofCode_code]
  unfold readColumn serializeColumn
  rw [append_assoc, Prog.bind_apply_ok (Codec.readFrame_append _ _ hname.2), cons_append,
    Prog.bind_apply_ok (readByte_cons _ _), append_assoc,
    Prog.bind_apply_ok (Codec.readNumber_append _ _ (length_lt_of_declared hdeclared)),
    singleton_append, Prog.bind_apply_ok (readByte_cons _ _), hcode]
  dsimp only
  rw [if_neg (by simp [hdeclared]), (columnFlags_bits column).1, (columnFlags_bits column).2,
    Identifier.ofText_of_plain hname]
  rfl

/-- The name of a column that is read is made of the bytes its length was cut down to. -/
theorem name_of_readColumn {column column' : ColumnDef} {rest rest' : Bytes}
    (h : readColumn (serializeColumn column ++ rest) = (.ok column', rest')) :
    column'.name = .ofText (column.name.name.take (column.name.name.length % 2 ^ 32)) := by
  obtain ⟨name, rest₁, hname, h⟩ := Prog.bind_eq_ok.mp h
  rw [serializeColumn, append_assoc, Codec.readFrame_append_mod] at hname
  obtain rfl := Except.ok.inj (Prod.mk.inj hname).1
  obtain ⟨type, rest₂, -, h⟩ := Prog.bind_eq_ok.mp h
  obtain ⟨length, rest₃, -, h⟩ := Prog.bind_eq_ok.mp h
  obtain ⟨flags, rest₄, -, h⟩ := Prog.bind_eq_ok.mp h
  cases hcode : DataType.ofCode type.toNat with
  | none =>
    rw [hcode] at h
    simp at h
  | some type =>
    rw [hcode] at h
    dsimp only at h
    split at h
    · simp at h
    · obtain rfl := Except.ok.inj (Prod.mk.inj h).1
      rfl

theorem eq_unquotedColumn (column : ColumnDef) : (unquotedColumn column).eq column = true := by
  simp [ColumnDef.eq, unquotedColumn, Identifier.unquoted_eq]

theorem isEqv_map {A : Type} {eqv : A → A → Bool} {f : A → A} (h : ∀ a, eqv (f a) a = true)
    (l : List A) : (l.map f).isEqv l eqv = true := by
  induction l with
  | nil => rfl
  | cons a l ih =>
    show (eqv (f a) a && (l.map f).isEqv l eqv) = true
    rw [h, ih]
    rfl

theorem eq_unquoted : schema.unquoted.eq schema = true := by
  unfold eq
  rw [show schema.unquoted.name = schema.name.unquoted from rfl, Identifier.unquoted_eq,
    show schema.unquoted.columns = schema.columns.map unquotedColumn from rfl,
    isEqv_map eq_unquotedColumn]
  exact decide_eq_true rfl

/-- Columns that are equal to what is read back of them have plain names. -/
theorem plain_of_readColumns {columns columns' : List ColumnDef} {rest rest' : Bytes}
    (hdeclared : ∀ column ∈ columns, column.type.validDeclaredLength column.length = true)
    (h : Codec.readMany readColumn columns.length (columns.flatMap serializeColumn ++ rest)
      = (.ok columns', rest'))
    (heq : columns'.isEqv columns ColumnDef.eq = true) :
    ∀ column ∈ columns, column.name.Plain := by
  induction columns generalizing columns' rest' with
  | nil => simp
  | cons column columns ih =>
    rw [forall_mem_cons] at hdeclared ⊢
    rw [flatMap_cons, append_assoc, length_cons, Codec.readMany] at h
    obtain ⟨first, rest₁, hfirst, h⟩ := Prog.bind_eq_ok.mp h
    obtain ⟨others, rest₂, hothers, h⟩ := Prog.bind_eq_ok.mp h
    obtain rfl := Except.ok.inj (Prod.mk.inj h).1
    have heq : (first.eq column && others.isEqv columns ColumnDef.eq) = true := heq
    rw [Bool.and_eq_true] at heq
    have hname : column.name.Plain := by
      apply Identifier.plain_of_eq
      rw [← name_of_readColumn hfirst]
      have hparts := heq.1
      unfold ColumnDef.eq at hparts
      simp only [Bool.and_eq_true] at hparts
      exact hparts.1.1.1.1
    -- a plain name is read to its end, and the next column starts there
    rw [readColumn_append hname hdeclared.1] at hfirst
    rw [← (Prod.mk.inj hfirst).2] at hothers
    exact ⟨hname, ih hdeclared.2 hothers heq.2⟩

theorem lastPrimaryKey_eq_none {columns : List ColumnDef}
    (h : ∀ column ∈ columns, column.primaryKey = false) : lastPrimaryKey columns = none := by
  unfold lastPrimaryKey
  generalize 0 = start
  induction columns generalizing start with
  | nil => rfl
  | cons column columns ih =>
    rw [forall_mem_cons] at h
    rw [zipIdx_cons, foldl_cons, h.1]
    exact ih h.2 _

/-- The name that is read is made of the bytes its length was cut down to. -/
theorem name_of_read {schema schema' : TableSchema} {rest : Bytes}
    (h : read schema.serialize = (.ok schema', rest)) :
    schema'.name = .ofText (schema.name.name.take (schema.name.name.length % 2 ^ 32)) := by
  obtain ⟨version, rest₁, hversion, h⟩ := Prog.bind_eq_ok.mp h
  rw [serialize, readByte_cons] at hversion
  obtain ⟨rfl, rfl⟩ : _ ∧ _ := ⟨Except.ok.inj (Prod.mk.inj hversion).1, (Prod.mk.inj hversion).2⟩
  rw [if_neg (not_not.mpr rfl)] at h
  obtain ⟨name, rest₂, hname, h⟩ := Prog.bind_eq_ok.mp h
  rw [Codec.readFrame_append_mod] at hname
  obtain rfl := Except.ok.inj (Prod.mk.inj hname).1
  obtain ⟨pkSlot, rest₃, -, h⟩ := Prog.bind_eq_ok.mp h
  obtain ⟨columnCount, rest₄, -, h⟩ := Prog.bind_eq_ok.mp h
  split at h
  · simp at h
  · obtain ⟨columns, rest₅, -, h⟩ := Prog.bind_eq_ok.mp h
    obtain rfl := Except.ok.inj (Prod.mk.inj h).1
    rfl

section ReadBack

variable {schema : TableSchema} (hbuilt : schema.WellBuilt)
include hbuilt

theorem pkSlot_le : schema.pkSlot ≤ schema.columns.length := by
  unfold pkSlot
  cases hkey : schema.primaryKeyIndex with
  | none => exact Nat.zero_le _
  | some i =>
    obtain ⟨column, hcolumn, -⟩ := (hbuilt.key i).mp hkey
    exact lt_of_getElem? hcolumn

variable (hcount : schema.columns.length ≤ kMaxColumns)
include hcount

/-- With a plain name, reading comes to the columns. -/
theorem read_serialize (hname : schema.name.Plain) :
    read schema.serialize = (Codec.readMany readColumn schema.columns.length >>= fun columns =>
      pure ⟨schema.name.unquoted, columns,
        if schema.pkSlot > 0 ∧ schema.pkSlot ≤ schema.columns.length then some (schema.pkSlot - 1)
          else lastPrimaryKey columns,
        .ok⟩ : Codec.Reader SchemaError TableSchema) (schema.columns.flatMap serializeColumn) := by
  have hsmall : schema.columns.length < 256 ^ 4 := hcount.trans_lt (by decide)
  have hslot := (pkSlot_le hbuilt).trans_lt hsmall
  unfold read serialize
  rw [Prog.bind_apply_ok (readByte_cons _ _), if_neg (not_not.mpr rfl),
    Prog.bind_apply_ok (Codec.readFrame_append _ _ hname.2),
    Prog.bind_apply_ok (Codec.readNumber_append _ _ hslot),
    Prog.bind_apply_ok (Codec.readNumber_append _ _ hsmall), if_neg (Nat.not_lt.mpr hcount),
    Identifier.ofText_of_plain hname]

/-- **Schemas are read back**, up to how the names were written. -/
theorem deserialize_serialize (hname : schema.name.Plain)
    (hcolumns : ∀ column ∈ schema.columns, column.name.Plain) :
    deserialize schema.serialize = .ok schema.unquoted := by
  have hread := Codec.readMany_append_map [] serializeColumn unquotedColumn schema.columns
    fun column hmem => readColumn_append (hcolumns column hmem) (hbuilt.declared column hmem)
  rw [append_nil] at hread
  refine Codec.whole_eq_ok.mpr ?_
  rw [read_serialize hbuilt hcount hname, Prog.bind_apply_ok hread]
  unfold unquoted
  have hle := pkSlot_le hbuilt
  cases hkey : schema.primaryKeyIndex with
  | some i =>
    have hslot : schema.pkSlot = i + 1 := by rw [pkSlot, hkey]
    rw [if_pos ⟨by omega, hle⟩, hslot]
    rfl
  | none =>
    have hslot : schema.pkSlot = 0 := by rw [pkSlot, hkey]
    have hflags : ∀ column ∈ schema.columns.map unquotedColumn, column.primaryKey = false := by
      intro column hmem
      obtain ⟨c, hc, rfl⟩ := mem_map.mp hmem
      obtain ⟨i, hi⟩ := getElem?_of_mem hc
      by_contra hpk
      have hmarked : c.primaryKey = true := by simpa [unquotedColumn] using hpk
      have hsome := (hbuilt.key i).mpr ⟨c, hi, hmarked⟩
      rw [hkey] at hsome
      simp at hsome
    rw [if_neg (by omega), lastPrimaryKey_eq_none hflags]
    rfl

/-- **Exactly the schemas with plain names are read back.** -/
theorem readBack_iff :
    (∃ schema', deserialize schema.serialize = .ok schema' ∧ schema'.eq schema = true) ↔
      schema.name.Plain ∧ ∀ column ∈ schema.columns, column.name.Plain := by
  constructor
  · rintro ⟨schema', hread, heq⟩
    replace hread := Codec.whole_eq_ok.mp hread
    unfold eq at heq
    simp only [Bool.and_eq_true] at heq
    have hname : schema.name.Plain := by
      apply Identifier.plain_of_eq
      rw [← name_of_read hread]
      exact heq.1.1
    refine ⟨hname, ?_⟩
    rw [read_serialize hbuilt hcount hname] at hread
    obtain ⟨columns, rest, hcolumns, hread⟩ := Prog.bind_eq_ok.mp hread
    obtain rfl := Except.ok.inj (Prod.mk.inj hread).1
    rw [← append_nil (List.flatMap _ _)] at hcolumns
    exact plain_of_readColumns hbuilt.declared hcolumns heq.1.2
  · rintro ⟨hname, hcolumns⟩
    exact ⟨_, deserialize_serialize hbuilt hcount hname hcolumns, eq_unquoted schema⟩

end ReadBack

end TableSchema

/-! ## Lists of names -/

namespace KVCatalog

def kNameListVersion : UInt8 := 1

/-- A name in its original case, after its length. -/
def serializeName (name : Identifier) : Bytes :=
  Codec.littleEndian 4 name.name.length ++ name.name

def serializeNames (names : List Identifier) : Bytes :=
  kNameListVersion :: names.flatMap serializeName

def readName : Codec.Reader Unit Identifier := do
  let length ← Codec.readLittle () 4
  let raw ← Codec.takeBytes () length
  pure (.ofText raw)

/-- The names, up to the first that cannot be read; none if the version is another one. -/
def parseNames (data : Bytes) : List Identifier :=
  match data with
  | [] => []
  | version :: rest =>
    if version ≠ kNameListVersion then [] else Codec.readSome readName rest.length rest

theorem readName_append (name : Identifier) (rest : Bytes) :
    readName (serializeName name ++ rest)
      = (.ok (.ofText (name.name.take (name.name.length % 2 ^ 32))),
          name.name.drop (name.name.length % 2 ^ 32) ++ rest) := by
  unfold readName serializeName
  rw [append_assoc, Prog.bind_apply_ok (Codec.readLittle_append_mod _ _ 4 name.name.length),
    Prog.bind_apply_ok (Codec.takeBytes_cut _ _ (Nat.mod_le _ _))]
  rfl

theorem readName_plain {name : Identifier} (h : name.Plain) (rest : Bytes) :
    readName (serializeName name ++ rest) = (.ok name.unquoted, rest) := by
  rw [readName_append, Nat.mod_eq_of_lt h.2, take_length, drop_length,
    Identifier.ofText_of_plain h]
  rfl

theorem serializeName_ne_nil (name : Identifier) (rest : Bytes) :
    serializeName name ++ rest ≠ [] := by
  intro hnil
  have := congrArg List.length hnil
  simp [serializeName] at this

/-- Reading a written list of plain names. -/
theorem readSome_names {names : List Identifier} (h : ∀ name ∈ names, name.Plain) {fuel : Nat}
    (hfuel : names.length ≤ fuel) :
    Codec.readSome readName fuel (names.flatMap serializeName) = names.map Identifier.unquoted := by
  induction names generalizing fuel with
  | nil => cases fuel <;> rfl
  | cons name names ih =>
    rw [forall_mem_cons] at h
    rw [length_cons] at hfuel
    obtain ⟨fuel, rfl⟩ : ∃ n, fuel = n + 1 := ⟨fuel - 1, by omega⟩
    rw [flatMap_cons, Codec.readSome_cons _ (serializeName_ne_nil name _)
      (readName_plain h.1 _), ih h.2 (by omega)]
    rfl

theorem length_le_flatMap (names : List Identifier) :
    names.length ≤ (names.flatMap serializeName).length := by
  induction names with
  | nil => exact le_rfl
  | cons name names ih =>
    rw [flatMap_cons, length_append, length_cons]
    simp only [serializeName, length_append, Codec.length_littleEndian]
    omega

/-- **Lists of plain names are read back**, up to how the names were written. -/
theorem parseNames_serializeNames {names : List Identifier} (h : ∀ name ∈ names, name.Plain) :
    parseNames (serializeNames names) = names.map Identifier.unquoted :=
  readSome_names h (length_le_flatMap names)

/-- **Exactly the lists of plain names are read back.** -/
theorem parseNames_iff (names : List Identifier) :
    (parseNames (serializeNames names)).isEqv names Identifier.eq = true ↔
      ∀ name ∈ names, name.Plain := by
  constructor
  · show (Codec.readSome readName (names.flatMap serializeName).length
      (names.flatMap serializeName)).isEqv names Identifier.eq = true → _
    have hfuel := length_le_flatMap names
    generalize (names.flatMap serializeName).length = fuel at hfuel ⊢
    -- up to the first name that is not plain, the names are read as they were written
    induction names generalizing fuel with
    | nil => simp
    | cons name names ih =>
      rw [length_cons] at hfuel
      obtain ⟨fuel, rfl⟩ : ∃ n, fuel = n + 1 := ⟨fuel - 1, by omega⟩
      rw [flatMap_cons, Codec.readSome_cons _ (serializeName_ne_nil name _)
        (readName_append name _)]
      intro heq
      have hparts := Bool.and_eq_true_iff.mp heq
      have hname : name.Plain := Identifier.plain_of_eq hparts.1
      have hothers := hparts.2
      rw [Nat.mod_eq_of_lt hname.2, drop_length, nil_append] at hothers
      exact forall_mem_cons.mpr ⟨hname, ih fuel (by omega) hothers⟩
  · intro h
    rw [parseNames_serializeNames h]
    exact TableSchema.isEqv_map Identifier.unquoted_eq names

/-- **The two formats are exact for plain names.**  A schema built with `add_column` is read back as an
    equal schema, and a list of names as an equal list, if and only if no name is in quotes itself or
    too long for its length to be stored. -/
theorem formats_exact (name : Identifier) (columns : List ColumnDef) (names : List Identifier) :
    ((List.foldl TableSchema.addColumn (.ofName name) columns).error = .ok →
      (List.foldl TableSchema.addColumn (.ofName name) columns).columns.length
        ≤ TableSchema.kMaxColumns →
      ((∃ schema, TableSchema.deserialize
            (List.foldl TableSchema.addColumn (.ofName name) columns).serialize = .ok schema ∧
          schema.eq (List.foldl TableSchema.addColumn (.ofName name) columns) = true) ↔
        (List.foldl TableSchema.addColumn (.ofName name) columns).name.Plain ∧
        ∀ column ∈ (List.foldl TableSchema.addColumn (.ofName name) columns).columns,
          column.name.Plain)) ∧
    ((parseNames (serializeNames names)).isEqv names Identifier.eq = true ↔
      ∀ name ∈ names, name.Plain) := by
  refine ⟨fun _ hcount => ?_, parseNames_iff names⟩
  exact TableSchema.readBack_iff (TableSchema.wellBuilt_foldl name columns) hcount

/-- The name that is written "'a'", and a table of that name. -/
def quotedName : Identifier := .ofText (ascii "\"'a'\"")

def quotedTable : TableSchema :=
  [⟨.ofText (ascii "id"), .int, 0, false, true⟩].foldl TableSchema.addColumn (.ofName quotedName)

theorem quotedName_not_readBack :
    (parseNames (serializeNames [quotedName])).isEqv [quotedName] Identifier.eq = false ∧
      quotedTable.error = .ok ∧
      ∃ schema, TableSchema.deserialize quotedTable.serialize = .ok schema ∧
        schema.eq quotedTable = false := by
  refine ⟨by decide, by decide, ⟨⟨ascii "a", true⟩,
    [⟨⟨ascii "id", false⟩, .int, 0, false, true⟩], some 0, .ok⟩, by decide +kernel, by decide⟩

theorem formats_exact_users :
    ∃ schema, TableSchema.deserialize (TableSchema.addColumn (.ofName (.ofText (ascii "users")))
        ⟨.ofText (ascii "id"), .int, 0, false, true⟩).serialize = .ok schema ∧
      schema.eq (TableSchema.addColumn (.ofName (.ofText (ascii "users")))
        ⟨.ofText (ascii "id"), .int, 0, false, true⟩) = true :=
  ((formats_exact (.ofText (ascii "users")) [⟨.ofText (ascii "id"), .int, 0, false, true⟩] []).1
    (by decide) (by decide)).mpr (by decide)

/-! ## Statistics -/

def kStatsVersion : UInt8 := 2

/-- The two times and the number of rows; −1 is not known. -/
structure StatsRecord where
  createdAt : Int64
  lastWriteAt : Int64
  rowCount : Int64
deriving DecidableEq

def putI64 (v : Int64) : Bytes := Codec.littleEndian 8 v.toUInt64.toNat

def encodeStats (stats : StatsRecord) : Bytes :=
  kStatsVersion :: (putI64 stats.createdAt ++ (putI64 stats.lastWriteAt ++ putI64 stats.rowCount))

/-- The number that begins at `pos`. -/
def getI64 (data : Bytes) (pos : Nat) : Int64 :=
  (UInt64.ofNat (Codec.ofLittleEndian ((data.drop pos).take 8))).toInt64

/-- Records of the first version have no number of rows. -/
def decodeStats (data : Bytes) : Option StatsRecord :=
  match data with
  | [] => none
  | version :: _ =>
    if version = 1 ∧ data.length = 17 then some ⟨getI64 data 1, getI64 data 9, -1⟩
    else if version = 2 ∧ data.length = 25 then
      some ⟨getI64 data 1, getI64 data 9, getI64 data 17⟩
    else none

end KVCatalog

end SqlDb.Sql
