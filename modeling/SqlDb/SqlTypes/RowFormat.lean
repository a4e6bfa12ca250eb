/-
  ROWS AS BYTES  (`Row::serialize`, `Row::deserialize`; sql_types/row.cpp, sql_types/byte_buffer.h).

  A version byte, the number of fields, and each field as a block: the key of the value, by the type of
  its column.  Nothing is delimited by a character, so that a value may hold any byte.

  Reading checks everything again: version, number of fields, that each field is a key of its column's
  family, that its value may go into the column, and that nothing follows.  A row that is read back is
  therefore always one that the schema accepts, whatever the bytes were; and the reader is LOCAL, so
  that data which was cut off or padded is noticed, wherever the cut is.

  Both counts are 32-bit numbers.  They hold for every schema that the system builds
  (`fitsFormat_of_declared`), not for one with 2^32 columns (`tooWide_not_readBack`).
-/
import SqlDb.SqlTypes.KeyDecode

namespace SqlDb.Sql

open KeyCodecs TableSchema

/-! ## The format -/

namespace Row

def kFormatVersion : UInt8 := 1

/-- `operator==`: value by value. -/
def eq (a b : Row) : Bool := a.isEqv b Value.eq

/-- The fields, each with the type of its column; a value without a column has its own. -/
def serializeFields : List ColumnDef → Row → Bytes
  | _, [] => []
  | [], value :: row => Codec.frame 4 (toKey value value.type) ++ serializeFields [] row
  | column :: columns, value :: row =>
    Codec.frame 4 (toKey value column.type) ++ serializeFields columns row

def serialize (row : Row) (schema : TableSchema) : Bytes :=
  kFormatVersion :: Codec.bigEndian 4 row.length ++ serializeFields schema.columns row

def readField (column : ColumnDef) : Codec.Reader SchemaError Value := do
  let field ← Codec.readFrame .invalidFormat 4
  if isValidKey field column.type = false then Prog.throw .invalidFormat
  else
    let value := fromKey field column.type
    -- what is stored may have been written by other means
    if validateValue column value ≠ .ok then Prog.throw (validateValue column value)
    else pure value

def readFields : List ColumnDef → Codec.Reader SchemaError Row
  | [] => pure []
  | column :: columns => do
    let value ← readField column
    let row ← readFields columns
    pure (value :: row)

def read (schema : TableSchema) : Codec.Reader SchemaError Row := do
  let version ← Codec.readNumber .invalidFormat 1
  if version ≠ kFormatVersion.toNat then Prog.throw .invalidFormat
  else
    let fieldCount ← Codec.readNumber .columnSizeMismatch 4
    if fieldCount ≠ schema.columns.length then Prog.throw .columnSizeMismatch
    else readFields schema.columns

def deserialize (data : Bytes) (schema : TableSchema) : Except SchemaError Row :=
  Codec.whole .invalidFormat (read schema) data

/-! ## Fields -/

variable {column : ColumnDef}

/-- The value that is read back from a column goes into it again. -/
theorem validateValue_of_eq {v w : Value}
    (hv : validateValue column v = .ok) (hw : Storable column.type w) (h : w.eq v = true) :
    validateValue column w = .ok := by
  rcases hw with rfl | ⟨hfamily, htemp⟩
  · have hnull : v = .null := by
      cases v <;> first | rfl | simp [Value.eq] at h
    rw [hnull] at hv
    exact hv
  · rcases validateValue_iff.mp hv with ⟨rfl, -⟩ | ⟨_, _, _, hraw, hstr⟩
    · cases w <;> first | exact hv | simp [Value.eq] at h
    · -- range and length are checked on the number and the string, which are the same
      have hsame : w.isNull = false ∧ w.raw = v.raw ∧ w.asStr = v.asStr := by
        cases w <;> cases v <;> simp_all [Value.eq, Value.isNull, Value.raw, Value.asStr]
        all_goals split at h <;> simp_all
      rw [← hsame.2.1] at hraw
      rw [← hsame.2.2] at hstr
      exact validateValue_iff.mpr (Or.inr ⟨hsame.1, hfamily, htemp, hraw, hstr⟩)

/-- What a column accepts is read back from its key, and accepted again. -/
theorem readBack {v : Value} (hv : validateValue column v = .ok) :
    isValidKey (toKey v column.type) column.type = true ∧
      (fromKey (toKey v column.type) column.type).eq v = true ∧
      validateValue column (fromKey (toKey v column.type) column.type) = .ok := by
  have hstorable := storable_of_validateValue hv
  by_cases ht : tagOf column.type = kTagNull
  · -- a type without a family holds NULL only
    obtain rfl : v = .null := by
      rcases fits_of_validateValue hv with ⟨hnull, -⟩ | hfits
      · exact hnull
      · exfalso
        have hkind := hfits.kind
        revert ht hkind
        cases column.type <;> decide
    rw [toKey_null, ht]
    exact ⟨rfl, rfl, hv⟩
  · obtain ⟨hvalid, heq⟩ := fromKey_toKey ht hstorable
    obtain ⟨rest, hkey⟩ := toKey_head_of_storable hstorable
    refine ⟨hvalid, heq, ?_⟩
    rw [hkey] at hvalid heq ⊢
    exact validateValue_of_eq hv (toKey_fromKey ht hvalid).1 heq

theorem readField_append {v : Value} (hv : validateValue column v = .ok)
    (hlen : (toKey v column.type).length < 2 ^ 32) (rest : Bytes) :
    readField column (Codec.frame 4 (toKey v column.type) ++ rest)
      = (.ok (fromKey (toKey v column.type) column.type), rest) := by
  obtain ⟨hvalid, _, hback⟩ := readBack hv
  unfold readField
  rw [Prog.bind_apply_ok (Codec.readFrame_append _ _ hlen), if_neg (by simp [hvalid]),
    if_neg (not_not.mpr hback)]
  rfl

theorem local_readField (column : ColumnDef) : Codec.Local (readField column) := by
  refine (Codec.local_readFrame 4).bind fun field => ?_
  exact Codec.local_throw.ite (Codec.local_throw.ite (Codec.local_pure _))

variable {input rest : Bytes}

/-- A field that is read goes into its column. -/
theorem validateValue_of_readField {v : Value}
    (h : readField column input = (.ok v, rest)) : validateValue column v = .ok := by
  obtain ⟨field, rest', -, h⟩ := Prog.bind_eq_ok.mp h
  split at h
  · simp at h
  · dsimp only at h
    split_ifs at h with hok
    · simp at h
    · obtain rfl := Except.ok.inj (Prod.mk.inj h).1
      exact not_not.mp hok

/-! ## Rows -/

/-- The counts of the format hold: fewer than 2^32 columns, and fewer than 2^32 bytes a field. -/
def FitsFormat (schema : TableSchema) (row : Row) : Prop :=
  schema.columns.length < 2 ^ 32 ∧
    ∀ field ∈ schema.columns.zip row, (toKey field.2 field.1.type).length < 2 ^ 32

variable {row : Row}

theorem readFields_append {columns : List ColumnDef}
    (hcount : row.length = columns.length) (hv : validateValues columns row = .ok)
    (hlen : ∀ field ∈ columns.zip row, (toKey field.2 field.1.type).length < 2 ^ 32)
    (rest : Bytes) :
    ∃ row', readFields columns (serializeFields columns row ++ rest) = (.ok row', rest) ∧
      eq row' row = true := by
  induction columns generalizing row with
  | nil =>
    obtain rfl := List.eq_nil_of_length_eq_zero hcount
    exact ⟨[], rfl, rfl⟩
  | cons column columns ih =>
    obtain ⟨v, row, rfl⟩ := List.exists_cons_of_length_eq_add_one hcount
    obtain ⟨hfirst, hothers⟩ := validateValues_cons hv
    rw [List.zip_cons_cons, List.forall_mem_cons] at hlen
    obtain ⟨row', hread, heq⟩ := ih (Nat.succ.inj hcount) hothers hlen.2
    refine ⟨fromKey (toKey v column.type) column.type :: row', ?_, ?_⟩
    · rw [serializeFields, List.append_assoc, readFields,
        Prog.bind_apply_ok (readField_append hfirst hlen.1 _), Prog.bind_apply_ok hread]
      rfl
    · show (Value.eq _ v && eq row' row) = true
      rw [(readBack hfirst).2.1, heq]
      rfl

theorem local_readFields (columns : List ColumnDef) : Codec.Local (readFields columns) := by
  induction columns with
  | nil => exact Codec.local_pure []
  | cons column columns ih =>
    exact (local_readField column).bind fun v => ih.bind fun row => Codec.local_pure (v :: row)

theorem validateValues_of_readFields {columns : List ColumnDef}
    (h : readFields columns input = (.ok row, rest)) :
    row.length = columns.length ∧ validateValues columns row = .ok := by
  induction columns generalizing input rest row with
  | nil =>
    obtain rfl := Except.ok.inj (Prod.mk.inj h).1
    exact ⟨rfl, rfl⟩
  | cons column columns ih =>
    obtain ⟨v, rest', hv, h⟩ := Prog.bind_eq_ok.mp h
    obtain ⟨row', rest'', hrow, h⟩ := Prog.bind_eq_ok.mp h
    obtain rfl := Except.ok.inj (Prod.mk.inj h).1
    obtain ⟨hcount, hothers⟩ := ih hrow
    refine ⟨congrArg (· + 1) hcount, ?_⟩
    rw [validateValues, if_pos (validateValue_of_readField hv), hothers]

theorem local_read (schema : TableSchema) : Codec.Local (read schema) := by
  refine (Codec.local_readNumber 1).bind fun version => ?_
  refine Codec.local_throw.ite ?_
  refine (Codec.local_readNumber 4).bind fun fieldCount => ?_
  exact Codec.local_throw.ite (local_readFields schema.columns)

variable {schema : TableSchema}

/-- A row that is read is one that the schema accepts. -/
theorem validateRow_of_read
    (h : read schema input = (.ok row, rest)) : schema.validateRow row = .ok := by
  obtain ⟨version, rest', -, h⟩ := Prog.bind_eq_ok.mp h
  split at h
  · simp at h
  · obtain ⟨fieldCount, rest'', -, h⟩ := Prog.bind_eq_ok.mp h
    split at h
    · simp at h
    · obtain ⟨hcount, hvalues⟩ := validateValues_of_readFields h
      unfold validateRow
      rw [if_neg (not_not.mpr hcount), hvalues]

/-- What `serialize` starts with is read as version and count; the count is kept to 32 bits. -/
theorem read_serialize (row : Row) (schema : TableSchema) :
    read schema (serialize row schema) =
      if row.length % 2 ^ 32 ≠ schema.columns.length then
        (.error .columnSizeMismatch, serializeFields schema.columns row)
      else readFields schema.columns (serializeFields schema.columns row) := by
  have hversion : Codec.readNumber (.invalidFormat : SchemaError) 1 (serialize row schema)
      = (.ok kFormatVersion.toNat,
          Codec.bigEndian 4 row.length ++ serializeFields schema.columns row) := rfl
  unfold read
  rw [Prog.bind_apply_ok hversion, if_neg (not_not.mpr rfl),
    Prog.bind_apply_ok (Codec.readNumber_append_mod _ _ 4 row.length)]
  show (if row.length % 2 ^ 32 ≠ schema.columns.length then Prog.throw _
    else readFields schema.columns) _ = _
  split <;> rfl

/-- The key of a value has at most two bytes for each byte of a string. -/
theorem length_toKey_le (v : Value) (t : DataType) (bound : Nat)
    (h : ∀ s ∈ v.asStr, s.length ≤ bound) : (toKey v t).length ≤ 2 * bound + 10 := by
  cases v with
  | null => simp [toKey_null]
  | int n s hs => simp [toKey, Value.isNull, encodeValue, length_encodeBe64]
  | bool b => simp [toKey, Value.isNull, encodeValue]
  | str x s hs =>
    have hlen := OrderedBytes.length_escape (0x00 : UInt8) 0xFF x
    have hx : x.length ≤ bound := h x rfl
    show (encodeString x).length + 1 + 1 ≤ _
    unfold encodeString
    omega

theorem stringCapacity_le {t : DataType} {declaredLength : Nat}
    (h : t.validDeclaredLength declaredLength = true) : t.stringCapacity declaredLength ≤ 65535 := by
  unfold DataType.validDeclaredLength DataType.kMaxCharLength DataType.kMaxVarcharLength at h
  unfold DataType.stringCapacity DataType.kMaxCharLength DataType.kMaxVarcharLength
    DataType.kMaxTextLength
  cases t <;> simp at h ⊢ <;> split <;> omega

/-- The declared lengths of a schema that `add_column` or `deserialize` has made bound its fields. -/
theorem fitsFormat_of_declared (hcount : schema.columns.length < 2 ^ 32)
    (hdeclared : ∀ column ∈ schema.columns,
      column.type.validDeclaredLength column.length = true)
    (hrow : schema.validateRow row = .ok) : FitsFormat schema row := by
  refine ⟨hcount, fun field hfield => ?_⟩
  have hvalid := validateValue_of_mem_zip (length_of_validateRow hrow).2 hfield
  have hcapacity := stringCapacity_le (hdeclared _ (List.of_mem_zip hfield).1)
  have hstr : ∀ s ∈ field.2.asStr, s.length ≤ 65535 := by
    intro s hs
    rcases validateValue_iff.mp hvalid with ⟨hnull, -⟩ | ⟨-, -, -, -, hlength⟩
    · rw [hnull] at hs
      simp [Value.asStr] at hs
    · exact (of_decide_eq_true (hlength s hs)).trans hcapacity
  have hkey := length_toKey_le field.2 field.1.type 65535 hstr
  omega

/-- A row that the schema accepts is read back as an equal row. -/
theorem deserialize_serialize (hrow : schema.validateRow row = .ok)
    (hfits : FitsFormat schema row) :
    ∃ row', deserialize (serialize row schema) schema = .ok row' ∧ eq row' row = true := by
  obtain ⟨hcount, hvalues⟩ := length_of_validateRow hrow
  obtain ⟨row', hread, heq⟩ := readFields_append hcount hvalues hfits.2 []
  refine ⟨row', Codec.whole_eq_ok.mpr ?_, heq⟩
  rw [read_serialize, if_neg (not_not.mpr ?_)]
  · rwa [List.append_nil] at hread
  · rw [hcount, Nat.mod_eq_of_lt hfits.1]

/-- **Rows are read back, and nothing else is.**  A row that the schema accepts is read back as an
    equal row, as long as the counts hold; the same bytes cut off or followed by more are refused.
    And whatever bytes are read give a row that the schema accepts. -/
theorem rowFormat_exact (schema : TableSchema) :
    (∀ row, schema.validateRow row = .ok → FitsFormat schema row →
      (∃ row', deserialize (serialize row schema) schema = .ok row' ∧ eq row' row = true) ∧
      (∀ data, data <+: serialize row schema → data ≠ serialize row schema →
        ∃ err, deserialize data schema = .error err) ∧
      (∀ more, more ≠ [] → ∃ err, deserialize (serialize row schema ++ more) schema = .error err)) ∧
    (∀ data row, deserialize data schema = .ok row → schema.validateRow row = .ok) := by
  refine ⟨fun row hrow hfits => ?_, fun data row h => ?_⟩
  · obtain ⟨row', hok, heq⟩ := deserialize_serialize hrow hfits
    refine ⟨⟨row', hok, heq⟩, fun data hcut hne => ?_, fun more hmore => ?_⟩
    · obtain ⟨more, hmore⟩ := hcut
      cases hdata : deserialize data schema with
      | error err => exact ⟨err, rfl⟩
      | ok row'' =>
        rw [← hmore] at hok
        have hnil := (local_read schema).whole_unique hdata hok
        rw [hnil, List.append_nil] at hmore
        exact absurd hmore hne
    · cases hdata : deserialize (serialize row schema ++ more) schema with
      | error err => exact ⟨err, rfl⟩
      | ok row'' => exact absurd ((local_read schema).whole_unique hok hdata) hmore
  · exact validateRow_of_read (Codec.whole_eq_ok.mp h)

/-- A key, a text and a number that may be missing. -/
def noteSchema : TableSchema where
  name := ⟨ascii "notes", false⟩
  columns := [⟨⟨ascii "id", false⟩, .bigInt, 0, false, true⟩,
    ⟨⟨ascii "text", false⟩, .varchar, 8, true, false⟩, ⟨⟨ascii "stars", false⟩, .int, 0, true, false⟩]
  primaryKeyIndex := some 0

/-- The row (7, 'ab', NULL). -/
theorem rowFormat_exact_note :
    let row : List Value := [.ofInt 7, .ofStr (ascii "ab"), .null]
    (∃ row', deserialize (serialize row noteSchema) noteSchema = .ok row' ∧ eq row' row = true) ∧
      ∃ err, deserialize (serialize row noteSchema ++ [0]) noteSchema = .error err := by
  obtain ⟨hread, -, hmore⟩ := (rowFormat_exact noteSchema).1 [.ofInt 7, .ofStr (ascii "ab"), .null]
    (by decide) ⟨by decide, by decide⟩
  exact ⟨hread, hmore [0] (by simp)⟩

/-- With 2^32 columns or more, the number of fields is cut down to 32 bits, and no row is read
    back. -/
theorem deserialize_tooWide (hwide : 2 ^ 32 ≤ schema.columns.length) :
    deserialize (serialize row schema) schema = .error .columnSizeMismatch := by
  unfold deserialize Codec.whole
  rw [read_serialize, if_pos]
  have := Nat.mod_lt row.length (by decide : 0 < 2 ^ 32)
  omega

theorem validateValues_replicate (n : Nat) (h : column.nullable = true) :
    validateValues (List.replicate n column) (List.replicate n .null) = .ok := by
  have hnull : validateValue column .null = .ok := validateValue_iff.mpr (Or.inl ⟨rfl, h⟩)
  induction n with
  | zero => rfl
  | succ n ih => rw [List.replicate_succ, List.replicate_succ, validateValues, if_pos hnull, ih]

theorem tooWide_not_readBack :
    ∃ (schema : TableSchema) (row : Row), schema.validateRow row = .ok ∧
      deserialize (serialize row schema) schema = .error .columnSizeMismatch := by
  refine ⟨⟨⟨[], false⟩, List.replicate (2 ^ 32) ⟨⟨[], false⟩, .int, 0, true, false⟩, none, .ok⟩,
    List.replicate (2 ^ 32) .null, ?_, ?_⟩
  · unfold validateRow
    rw [if_neg (by rw [List.length_replicate, List.length_replicate]; simp)]
    exact validateValues_replicate _ rfl
  · exact deserialize_tooWide List.length_replicate.symm.le

end Row

end SqlDb.Sql
