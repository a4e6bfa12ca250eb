/-
  SCHEMAS AND ROWS  (sql_types/schema.h, sql_types/schema.cpp, sql_types/row.h; the ranges of the types
  in sql_types/field_type.h).

  A row is a list of values, one for each column.  A value may go into a column if it is of the
  column's FAMILY and in the range of its type; of the dates, times and datetimes, which count
  different things, only a value of exactly the column's type may.  Two values that fit a column are
  compared by the SQL operators in the order that their keys have (`sqlOrder_of_fits`): for a date this
  needs the range, because the comparison is made on seconds, in 64 bits.
-/
import SqlDb.SqlTypes.Condition

namespace SqlDb.Sql

/-! ## Ranges of types -/

namespace DataType

def isSameFamily (a b : DataType) : Bool :=
  a = b || (a.isInteger && b.isInteger) || (a.isString && b.isString) || (a.isTemporal && b.isTemporal)

def integerMin (t : DataType) : Int64 :=
  match t.integerBytes with
  | 1 => -128
  | 2 => -32768
  | 4 => -2147483648
  | 8 => Int64.minValue
  | _ => 0

def integerMax (t : DataType) : Int64 :=
  match t.integerBytes with
  | 1 => 127
  | 2 => 32767
  | 4 => 2147483647
  | 8 => Int64.maxValue
  | _ => 0

def kTimeMinSeconds : Int64 := 0
def kTimeMaxSeconds : Int64 := 86399
def kDateTimeMinSeconds : Int64 := kDateMinDays * kSecondsPerDay
def kDateTimeMaxSeconds : Int64 := kDateMaxDays * kSecondsPerDay + kTimeMaxSeconds

/-- The number is in the range of the type. -/
def canRepresent (t : DataType) (v : Int64) : Bool :=
  if t.isInteger then t.integerMin ≤ v && v ≤ t.integerMax
  else if t.isBoolean then v = 0 || v = 1
  else
    match t with
    | .date => kDateMinDays ≤ v && v ≤ kDateMaxDays
    | .time => kTimeMinSeconds ≤ v && v ≤ kTimeMaxSeconds
    | .datetime => kDateTimeMinSeconds ≤ v && v ≤ kDateTimeMaxSeconds
    | _ => true

def kMaxCharLength : Nat := 255
def kMaxVarcharLength : Nat := 65535
def kMaxTextLength : Nat := 65535

/-- How many bytes a string of the type may have; a declared length of 0 is none. -/
def stringCapacity (t : DataType) (declaredLength : Nat) : Nat :=
  match t with
  | .char => if declaredLength = 0 then kMaxCharLength else declaredLength
  | .varchar => if declaredLength = 0 then kMaxVarcharLength else declaredLength
  | .text => kMaxTextLength
  | _ => 0

/-- A declared length is allowed: 0 is none, and only CHAR and VARCHAR can have another one. -/
def validDeclaredLength (t : DataType) (declaredLength : Nat) : Bool :=
  declaredLength = 0 ||
    match t with
    | .char => declaredLength ≤ kMaxCharLength
    | .varchar => declaredLength ≤ kMaxVarcharLength
    | _ => false

def canRepresentLength (t : DataType) (declaredLength byteLength : Nat) : Bool :=
  byteLength ≤ t.stringCapacity declaredLength

end DataType

/-- The number that a value is stored as; the source throws for a string and for NULL. -/
def Value.raw : Value → Option Int64
  | .int n _ _ => some n
  | .bool b => some (if b then 1 else 0)
  | _ => none

/-! ## Schemas -/

structure ColumnDef where
  name : Identifier
  type : DataType
  /-- The declared length of a string, 0 for none. -/
  length : Nat := 0
  nullable : Bool := true
  primaryKey : Bool := false
deriving DecidableEq

inductive SchemaError
  | ok
  | duplicatePrimaryKey | noPrimaryKey | duplicateColumnName | invalidRow | invalidFormat
  | valueOutOfRange | invalidColumnDef | columnNotFound
  | columnAttrNullMismatch | columnSizeMismatch | columnTypeMismatch
deriving DecidableEq

abbrev Row := List Value

/-- A table's columns, and which one is the primary key; −1 is `none`. -/
structure TableSchema where
  name : Identifier
  columns : List ColumnDef
  primaryKeyIndex : Option Nat
  /-- The first error of building it. -/
  error : SchemaError := .ok
deriving DecidableEq

namespace TableSchema

variable (schema : TableSchema)

def primaryKeyColumn : Option ColumnDef :=
  schema.primaryKeyIndex.bind fun i => schema.columns[i]?

def hasPrimaryKey : Bool := schema.primaryKeyColumn.isSome

/-- The empty name if there is no primary key. -/
def primaryKeyName : Identifier :=
  match schema.primaryKeyColumn with
  | some column => column.name
  | none => ⟨[], false⟩

/-- The first column of that name, upper or lower case. -/
def columnIndex (name : Identifier) : Option Nat :=
  schema.columns.findIdx? fun column => column.name.eq name

/-- The first error found, in the order in which it is looked for. -/
def validate : SchemaError :=
  if schema.error ≠ .ok then schema.error
  else
    match schema.primaryKeyColumn with
    | none => .noPrimaryKey
    | some key =>
      if key.nullable then .invalidRow
      else if ¬ schema.columns.Pairwise (fun a b => a.name.eq b.name = false) then .duplicateColumnName
      else if (schema.columns.filter ColumnDef.primaryKey).length > 1 then .duplicatePrimaryKey
      else .ok

/-- NULL first, then the type, then the size of the value in it. -/
def validateValue (column : ColumnDef) (value : Value) : SchemaError :=
  if value.isNull then if column.nullable then .ok else .columnAttrNullMismatch
  else if !column.type.isSameFamily value.type then .columnTypeMismatch
  else if column.type.isTemporal && value.type.isTemporal && column.type ≠ value.type then
    .columnTypeMismatch
  else if value.raw.any fun n => !column.type.canRepresent n then .valueOutOfRange
  else if value.asStr.any fun s => !column.type.canRepresentLength column.length s.length then
    .valueOutOfRange
  else .ok

/-- The error of the first value that does not go into its column. -/
def validateValues : List ColumnDef → Row → SchemaError
  | column :: columns, value :: row =>
    if validateValue column value = .ok then validateValues columns row else validateValue column value
  | _, _ => .ok

/-- A row has a value for each column. -/
def validateRow (row : Row) : SchemaError :=
  if row.length ≠ schema.columns.length then .columnSizeMismatch else validateValues schema.columns row

end TableSchema

/-! ## Values that fit a type -/

variable {t : DataType}

namespace DataType

theorem kind_of_isString (h : t.isString = true) :
    t.isInteger = false ∧ t.isBoolean = false ∧ t.isTemporal = false := by
  revert h
  cases t <;> decide

theorem kind_of_holdsInt64 (h : t.holdsInt64 = true) :
    t.isString = false ∧ t.isBoolean = false ∧ (t.isInteger = true ∨ t.isTemporal = true) := by
  revert h
  cases t <;> decide

/-- Types of one family are of the same kind. -/
theorem kind_of_sameFamily {t s : DataType} (h : t.isSameFamily s = true) :
    s.isInteger = t.isInteger ∧ s.isString = t.isString ∧ s.isBoolean = t.isBoolean ∧
      s.isTemporal = t.isTemporal := by
  revert h
  cases s <;> cases t <;> decide

end DataType

/-- A value that a column of the type takes, as far as family and range go; a number may be of any
    width. -/
structure Value.Fits (t : DataType) (v : Value) : Prop where
  notNull : v.isNull = false
  family : t.isSameFamily v.type = true
  temporal : t.isTemporal = true → v.type = t ∧ ∀ n ∈ v.raw, t.canRepresent n = true

namespace Value

variable {t : DataType} {v w : Value}

theorem Fits.of_integer (h : v.Fits t) (ht : t.isInteger = true) :
    ∃ n s hs, v = .int n s hs ∧ s.isInteger = true := by
  have hkind := (DataType.kind_of_sameFamily h.family).1.trans ht
  cases v with
  | int n s hs => exact ⟨n, s, hs, rfl, hkind⟩
  | str x s hs => simp [DataType.kind_of_isString hs] at hkind
  | null => exact absurd hkind (by decide)
  | bool b => simp [type, DataType.isInteger] at hkind

theorem Fits.of_string (h : v.Fits t) (ht : t.isString = true) : ∃ x s hs, v = .str x s hs := by
  have hkind := (DataType.kind_of_sameFamily h.family).2.1.trans ht
  cases v with
  | str x s hs => exact ⟨x, s, hs, rfl⟩
  | int n s hs => simp [DataType.kind_of_holdsInt64 hs] at hkind
  | null => exact absurd hkind (by decide)
  | bool b => simp [type, DataType.isString] at hkind

theorem Fits.of_boolean (h : v.Fits t) (ht : t.isBoolean = true) : ∃ b, v = .bool b := by
  have hkind := (DataType.kind_of_sameFamily h.family).2.2.1.trans ht
  cases v with
  | bool b => exact ⟨b, rfl⟩
  | int n s hs => simp [DataType.kind_of_holdsInt64 hs] at hkind
  | str x s hs => simp [DataType.kind_of_isString hs] at hkind
  | null => exact absurd hkind (by decide)

theorem Fits.of_temporal (h : v.Fits t) (ht : t.isTemporal = true) :
    ∃ n hs, v = .int n t hs ∧ t.canRepresent n = true := by
  obtain ⟨rfl, hrange⟩ := h.temporal ht
  cases v with
  | int n s hs => exact ⟨n, hs, rfl, hrange n rfl⟩
  | str x s hs => simp [DataType.kind_of_isString hs] at ht
  | null => exact absurd ht (by decide)
  | bool b => simp [type, DataType.isTemporal] at ht

/-- Only a type of one of the four families has values that fit. -/
theorem Fits.kind (h : v.Fits t) :
    t.isInteger = true ∨ t.isString = true ∨ t.isBoolean = true ∨ t.isTemporal = true := by
  obtain ⟨hint, hstr, hbool, htemp⟩ := DataType.kind_of_sameFamily h.family
  rw [← hint, ← hstr, ← hbool, ← htemp]
  cases v with
  | int n s hs =>
    rcases (DataType.kind_of_holdsInt64 hs).2.2 with h | h
    · exact Or.inl h
    · exact Or.inr (Or.inr (Or.inr h))
  | str x s hs => exact Or.inr (Or.inl hs)
  | null => exact absurd h.notNull (by simp [isNull])
  | bool b => exact Or.inr (Or.inr (Or.inl rfl))

end Value

/-! ## Order -/

instance decidableLess : (v w : Value) → Decidable (v.Less w)
  | .int a _ _, .int b _ _ => inferInstanceAs (Decidable (a < b))
  | .str a _ _, .str b _ _ => inferInstanceAs (Decidable (a < b))
  | .bool a, .bool b => inferInstanceAs (Decidable (a = false ∧ b = true))
  | .null, _ => inferInstanceAs (Decidable False)
  | .int .., .null | .int .., .bool _ | .int .., .str .. => inferInstanceAs (Decidable False)
  | .bool _, .null | .bool _, .int .. | .bool _, .str .. => inferInstanceAs (Decidable False)
  | .str .., .null | .str .., .int .. | .str .., .bool _ => inferInstanceAs (Decidable False)

/-- A three-way comparison that says which of two orders holds. -/
structure Compares (o : Ordering) (less greater : Prop) : Prop where
  lt : o = .lt ↔ less
  gt : o = .gt ↔ greater

theorem compares_cmpInt64 (a b : Int64) : Compares (cmpInt64 a b) (a < b) (b < a) := by
  unfold cmpInt64
  split_ifs with hne hlt
  · subst hne
    exact ⟨by simp [Int64.lt_irrefl], by simp [Int64.lt_irrefl]⟩
  · exact ⟨by simp [hlt], by simp [Int64.lt_asymm hlt]⟩
  · have hgt : b < a := Int64.lt_of_le_of_ne (Int64.not_lt.mp hlt) (Ne.symm hne)
    exact ⟨by simp [hlt], by simp [hgt]⟩

theorem compares_cmpBytes (a b : Bytes) : Compares (cmpBytes a b) (a < b) (b < a) := by
  unfold cmpBytes
  split_ifs with hne hlt
  · subst hne
    exact ⟨by simp [List.lt_irrefl], by simp [List.lt_irrefl]⟩
  · exact ⟨by simp [hlt], by simp [List.lt_asymm hlt]⟩
  · have hgt : b < a := by
      rcases trichotomous_of (fun s t : Bytes => s < t) a b with h | h | h
      · exact absurd h hlt
      · exact absurd h hne
      · exact h
    exact ⟨by simp [hlt], by simp [hgt]⟩

/-- The seconds of a date in range are counted without overflow. -/
theorem toInt_seconds {n : Int64} (h : DataType.date.canRepresent n = true) :
    (n * kSecondsPerDay).toInt = n.toInt * 86400 := by
  have hrange : kDateMinDays ≤ n ∧ n ≤ kDateMaxDays := by
    simpa [DataType.canRepresent, DataType.isInteger, DataType.isBoolean] using h
  rw [Int64.le_iff_toInt_le, Int64.le_iff_toInt_le, show kDateMinDays.toInt = -719162 by decide,
    show kDateMaxDays.toInt = 2932896 by decide] at hrange
  rw [Int64.toInt_mul, show kSecondsPerDay.toInt = 86400 by decide]
  exact Int.bmod_eq_of_le (by omega) (by omega)

theorem sqlOrder_temporal (ht : t.isTemporal = true) (n m : Int64) (hn hm) :
    sqlOrder (.int n t hn) (.int m t hm) =
      cmpOptional (Value.int n t hn).temporalSeconds (Value.int m t hm).temporalSeconds := by
  cases t <;> first | exact absurd ht (by decide) | rfl

/-- **Values that fit a type are compared in the order of the values.** -/
theorem sqlOrder_of_fits {v w : Value} (hv : v.Fits t) (hw : w.Fits t) :
    ∃ o, sqlOrder v w = some o ∧ Compares o (v.Less w) (w.Less v) := by
  rcases hv.kind with ht | ht | ht | ht
  · obtain ⟨n, s, hs, rfl, hint⟩ := hv.of_integer ht
    obtain ⟨m, s', hs', rfl, hint'⟩ := hw.of_integer ht
    refine ⟨cmpInt64 n m, ?_, compares_cmpInt64 n m⟩
    rw [sqlOrder_integer _ m hs' hint']
    simp [DataType.isNumeric, hint, Value.int64Of, cmpOptional]
  · obtain ⟨x, s, hs, rfl⟩ := hv.of_string ht
    obtain ⟨y, s', hs', rfl⟩ := hw.of_string ht
    refine ⟨cmpBytes x y, ?_, compares_cmpBytes x y⟩
    rw [sqlOrder_string _ y hs']
    simp [hs]
  · obtain ⟨b, rfl⟩ := hv.of_boolean ht
    obtain ⟨c, rfl⟩ := hw.of_boolean ht
    refine ⟨cmpInt64 (if b then 1 else 0) (if c then 1 else 0), rfl, ?_⟩
    cases b <;> cases c <;> exact ⟨by decide, by decide⟩
  · obtain ⟨n, hs, rfl, hn⟩ := hv.of_temporal ht
    obtain ⟨m, hs', rfl, hm⟩ := hw.of_temporal ht
    rw [sqlOrder_temporal ht]
    by_cases hdate : t = .date
    · subst hdate
      refine ⟨_, rfl, ?_⟩
      have h := compares_cmpInt64 (n * kSecondsPerDay) (m * kSecondsPerDay)
      rw [Int64.lt_iff_toInt_lt, Int64.lt_iff_toInt_lt, toInt_seconds hn, toInt_seconds hm] at h
      have hless : ∀ a b : Int64, a.toInt * 86400 < b.toInt * 86400 ↔ a < b := by
        intro a b
        rw [Int64.lt_iff_toInt_lt]
        omega
      rw [hless, hless] at h
      exact h
    · have hseconds : ∀ (k : Int64) (hk), (Value.int k t hk).temporalSeconds = some k := by
        intro k hk
        cases t <;> first | exact absurd rfl hdate | exact absurd ht (by decide) | rfl
      rw [hseconds, hseconds]
      exact ⟨cmpInt64 n m, rfl, compares_cmpInt64 n m⟩

/-! ## Valid schemas and rows -/

theorem Identifier.eq_self (id : Identifier) : id.eq id = true := by simp [Identifier.eq]

namespace TableSchema

variable {schema : TableSchema} {row : Row}

/-- A valid schema has a primary key that is not nullable, and is the only column of its name. -/
theorem primaryKey_of_validate (h : schema.validate = .ok) :
    ∃ i key, schema.primaryKeyIndex = some i ∧ schema.columns[i]? = some key ∧
      key.nullable = false ∧ schema.columnIndex key.name = some i := by
  unfold validate at h
  split at h
  · rename_i hne
    exact absurd h hne
  · split at h
    · simp at h
    · rename_i key hkey
      split at h
      · simp at h
      · rename_i hnullable
        split at h
        · simp at h
        · rename_i hpair
          obtain ⟨i, hi, hget⟩ := Option.bind_eq_some_iff.mp hkey
          refine ⟨i, key, hi, hget, by simpa using hnullable, ?_⟩
          obtain ⟨hlt, hget⟩ := List.getElem?_eq_some_iff.mp hget
          unfold columnIndex
          rw [List.findIdx?_eq_some_iff_getElem]
          refine ⟨hlt, by rw [hget]; exact key.name.eq_self, fun j hj => ?_⟩
          have hne := List.pairwise_iff_getElem.mp (not_not.mp hpair) j i (by omega) hlt hj
          rw [hget] at hne
          simpa using hne

variable {column : ColumnDef} {value : Value}

/-- What `validate_value` checks. -/
theorem validateValue_iff : validateValue column value = .ok ↔
      (value = .null ∧ column.nullable = true) ∨
      (value.isNull = false ∧ column.type.isSameFamily value.type = true ∧
        (column.type.isTemporal = true → value.type = column.type) ∧
        (∀ n ∈ value.raw, column.type.canRepresent n = true) ∧
        ∀ s ∈ value.asStr, column.type.canRepresentLength column.length s.length = true) := by
  cases hnull : value.isNull with
  | true =>
    obtain rfl : value = .null := by
      cases value <;> first | rfl | simp [Value.isNull] at hnull
    simp [validateValue, Value.isNull]
  | false =>
    have hne : value ≠ .null := by
      rintro rfl
      simp [Value.isNull] at hnull
    simp only [validateValue, hnull, hne, false_and, false_or, true_and, Bool.false_eq_true, if_false]
    by_cases hfamily : column.type.isSameFamily value.type = true
    · have hkind := (DataType.kind_of_sameFamily hfamily).2.2.2
      simp only [hfamily, hkind, Bool.not_true, Bool.false_eq_true, if_false, true_and, Bool.and_self]
      by_cases htemp : column.type.isTemporal = true ∧ column.type ≠ value.type
      · simp [htemp.1, htemp.2, Ne.symm htemp.2]
      · have htemp' : column.type.isTemporal = true → value.type = column.type := by
          intro ht
          by_contra hne
          exact htemp ⟨ht, Ne.symm hne⟩
        rw [if_neg (by simpa using htemp)]
        by_cases hraw : ∀ n ∈ value.raw, column.type.canRepresent n = true
        · rw [if_neg (by simpa [Option.any_eq_true] using hraw)]
          by_cases hstr : ∀ s ∈ value.asStr,
              column.type.canRepresentLength column.length s.length = true
          · rw [if_neg (by simpa [Option.any_eq_true] using hstr)]
            exact ⟨fun _ => ⟨htemp', hraw, hstr⟩, fun _ => rfl⟩
          · rw [if_pos (by simpa [Option.any_eq_true] using hstr)]
            exact ⟨fun h => absurd h (by simp), fun h => absurd h.2.2 hstr⟩
        · rw [if_pos (by simpa [Option.any_eq_true] using hraw)]
          exact ⟨fun h => absurd h (by simp), fun h => absurd h.2.1 hraw⟩
    · simp [hfamily]

/-- A value that may go into a column is the NULL of a nullable column, or fits its type. -/
theorem fits_of_validateValue (h : validateValue column value = .ok) :
    (value = .null ∧ column.nullable = true) ∨ value.Fits column.type := by
  rcases validateValue_iff.mp h with hnull | ⟨hnull, hfamily, htemp, hrange, _⟩
  · exact Or.inl hnull
  · exact Or.inr ⟨hnull, hfamily, fun ht => ⟨htemp ht, hrange⟩⟩

variable {columns : List ColumnDef}

theorem validateValues_cons {row : Row}
    (h : validateValues (column :: columns) (value :: row) = .ok) :
    validateValue column value = .ok ∧ validateValues columns row = .ok := by
  rw [validateValues] at h
  by_cases hfirst : validateValue column value = .ok
  · rw [if_pos hfirst] at h
    exact ⟨hfirst, h⟩
  · rw [if_neg hfirst] at h
    exact absurd h hfirst

theorem validateValue_of_mem_zip {row : Row}
    (h : validateValues columns row = .ok) {field : ColumnDef × Value}
    (hfield : field ∈ columns.zip row) : validateValue field.1 field.2 = .ok := by
  induction columns generalizing row with
  | nil => simp at hfield
  | cons column columns ih =>
    cases row with
    | nil => simp at hfield
    | cons value row =>
      obtain ⟨hfirst, hothers⟩ := validateValues_cons h
      rcases List.mem_cons.mp hfield with rfl | hmem
      · exact hfirst
      · exact ih hothers hmem

theorem validateValue_of_validateValues {row : Row} (h : validateValues columns row = .ok) {i : Nat}
    (hc : columns[i]? = some column) (hv : row[i]? = some value) : validateValue column value = .ok := by
  induction columns generalizing row i with
  | nil => simp at hc
  | cons c columns ih =>
    cases row with
    | nil => simp at hv
    | cons v row =>
      obtain ⟨hfirst, hothers⟩ := validateValues_cons h
      cases i with
      | zero =>
        obtain rfl : c = column := by simpa using hc
        obtain rfl : v = value := by simpa using hv
        exact hfirst
      | succ i => exact ih hothers hc hv

theorem length_of_validateRow (h : schema.validateRow row = .ok) :
    row.length = schema.columns.length ∧ validateValues schema.columns row = .ok := by
  unfold validateRow at h
  split at h
  · simp at h
  · rename_i hlength
    exact ⟨not_not.mp hlength, h⟩

theorem validateValues_of_forall {row : Row}
    (h : ∀ (i : Nat) column value, columns[i]? = some column → row[i]? = some value →
      validateValue column value = .ok) : validateValues columns row = .ok := by
  induction columns generalizing row with
  | nil => cases row <;> rfl
  | cons column columns ih =>
    cases row with
    | nil => rfl
    | cons value row =>
      rw [validateValues, if_pos (h 0 column value rfl rfl)]
      exact ih fun i => h (i + 1)

/-- A row is valid if each value goes into its column. -/
theorem validateRow_of_forall (hlength : row.length = schema.columns.length)
    (h : ∀ (i : Nat) column value, schema.columns[i]? = some column → row[i]? = some value →
      validateValue column value = .ok) : schema.validateRow row = .ok := by
  unfold validateRow
  rw [if_neg (not_not.mpr hlength)]
  exact validateValues_of_forall h

/-- A valid row has a value for each column, which may go into it. -/
theorem value_of_validateRow (h : schema.validateRow row = .ok) {i : Nat}
    (hc : schema.columns[i]? = some column) :
    ∃ value, row[i]? = some value ∧
      ((value = .null ∧ column.nullable = true) ∨ value.Fits column.type) := by
  obtain ⟨hlength, hvalues⟩ := length_of_validateRow h
  have hi : i < row.length := by
    rw [hlength]
    exact (List.getElem?_eq_some_iff.mp hc).1
  have hv : row[i]? = some row[i] := List.getElem?_eq_getElem hi
  exact ⟨row[i], hv, fits_of_validateValue (validateValue_of_validateValues hvalues hc hv)⟩

end TableSchema

end SqlDb.Sql
