/-
  KEYS, READ BACK  (`KeyCodecs::from_key`, `is_valid_key`; sql_types/key.h).

  Keys are read back when a row is decoded, and a key that did not come from `to_key` must be noticed
  there.  `isValidKey` accepts EXACTLY the keys of the column's family: every number, every string of
  bytes, both booleans and NULL (`isValidKey_iff`).  It knows the family only: that a number is in the
  range of a TINYINT, or a string not longer than declared, is left to `validate_value`
  (`tinyInt_key_out_of_range`).

  The string right after a key, the upper bound of a scan that includes the key, is never a key.
-/
import SqlDb.SqlTypes.KeyCodec
import SqlDb.SqlTypes.Schema

namespace SqlDb.Sql

namespace KeyCodecs

/-! ## Decoding -/

/-- The first eight bytes, as a number. -/
def decodeBe64 (p : Bytes) : UInt64 := UInt64.ofNat (Codec.ofBigEndian (p.take 8))

def orderedToInt64 (v : UInt64) : Int64 := (v ^^^ 0x8000000000000000).toInt64

/-- The terminator has to be the last byte. -/
def decodeString (p : Bytes) : Option Bytes := OrderedBytes.unescape 0x00 0xFF p

theorem holdsInt64_of_isTemporal {type : DataType} (h : type.isTemporal = true) :
    type.holdsInt64 = true := by
  unfold DataType.holdsInt64
  rw [h, Bool.or_true]

/-- The value that follows tag and flag in a key; NULL if it cannot be read. -/
def decodeValue (payload : Bytes) (tag : UInt8) (type : DataType) : Value :=
  if tag = kTagBool then
    match payload with
    | [b] => .bool (b ≠ 0x00)
    | _ => .null
  else if tag = kTagInt64 then
    if payload.length ≠ 8 then .null
    else
      let v := orderedToInt64 (decodeBe64 payload)
      -- dates, times and datetimes keep the type that was asked for; integers become BIGINT
      if h : type.isTemporal = true then .int v type (holdsInt64_of_isTemporal h) else .ofInt v
  else if tag = kTagString then
    match decodeString payload with
    | some out => if h : type.isString = true then .str out type h else .ofStr out
    | none => .null
  else .null

/-- The value of a key of a column; NULL if the key cannot be read. -/
def fromKey (key : Key) (type : DataType) : Value :=
  match key with
  | tag :: flag :: payload =>
    if tag = kTagNull then .null
    else if tag ≠ tagOf type then .null
    else if flag = kNullFlag then .null
    else if flag ≠ kValueFlag then .null
    else decodeValue payload tag type
  | _ => .null

/-- What follows tag and flag is a value of the family. -/
def isValidPayload (payload : Bytes) (tag : UInt8) : Bool :=
  if tag = kTagInt64 then payload.length = 8
  else if tag = kTagBool then payload = [0x00] || payload = [0x01]
  else if tag = kTagString then (decodeString payload).isSome
  else false

/-- The key is one that `to_key` makes for the type, or the NULL of no family. -/
def isValidKey (key : Key) (type : DataType) : Bool :=
  match key with
  | tag :: flag :: payload =>
    if tag = kTagNull then payload = []
    else if tag ≠ tagOf type then false
    else if flag = kNullFlag then payload = []
    else if flag ≠ kValueFlag then false
    else isValidPayload payload tag
  | _ => false

/-! ## Numbers and strings -/

theorem orderedToInt64_int64ToOrdered (v : Int64) : orderedToInt64 (int64ToOrdered v) = v := by
  unfold orderedToInt64 int64ToOrdered
  rw [UInt64.xor_assoc, UInt64.xor_self, UInt64.xor_zero]
  rfl

theorem int64ToOrdered_orderedToInt64 (v : UInt64) : int64ToOrdered (orderedToInt64 v) = v := by
  unfold orderedToInt64 int64ToOrdered
  rw [UInt64.toUInt64_toInt64, UInt64.xor_assoc, UInt64.xor_self, UInt64.xor_zero]

theorem length_encodeBe64 (v : UInt64) : (encodeBe64 v).length = 8 := Codec.length_bigEndian 8 _

theorem decodeBe64_encodeBe64 (v : UInt64) : decodeBe64 (encodeBe64 v) = v := by
  unfold decodeBe64
  rw [List.take_of_length_le (Nat.le_of_eq (length_encodeBe64 v)), encodeBe64,
    Codec.ofBigEndian_bigEndian v.toNat_lt]
  exact UInt64.ofNat_toNat

theorem encodeBe64_decodeBe64 {p : Bytes} (h : p.length = 8) : encodeBe64 (decodeBe64 p) = p := by
  have hlt : Codec.ofBigEndian p < 2 ^ 64 := by
    have := Codec.ofBigEndian_lt p
    rwa [h] at this
  unfold decodeBe64 encodeBe64
  rw [List.take_of_length_le h.le, UInt64.toNat_ofNat_of_lt' hlt, ← h]
  exact Codec.bigEndian_ofBigEndian p

theorem decodeString_eq_some {p s : Bytes} : decodeString p = some s ↔ p = encodeString s :=
  OrderedBytes.unescape_eq_some

/-! ## Values a column can hold -/

/-- A value that a column of the type can hold, whatever its range and its length: NULL, or a value
    of the family, and of exactly the type for dates, times and datetimes. -/
def Storable (t : DataType) (v : Value) : Prop :=
  v = .null ∨ t.isSameFamily v.type = true ∧ (t.isTemporal = true → v.type = t)

theorem storable_of_validateValue {column : ColumnDef} {v : Value}
    (h : TableSchema.validateValue column v = .ok) : Storable column.type v := by
  rcases TableSchema.fits_of_validateValue h with ⟨hnull, _⟩ | hfits
  · exact Or.inl hnull
  · exact Or.inr ⟨hfits.family, fun ht => (hfits.temporal ht).1⟩

theorem tagOf_sameFamily {t s : DataType} (h : t.isSameFamily s = true) : tagOf s = tagOf t := by
  obtain ⟨hint, hstr, hbool, htemp⟩ := DataType.kind_of_sameFamily h
  unfold tagOf
  rw [hint, hstr, hbool, htemp]

theorem toKey_head_of_storable {t : DataType} {v : Value} (h : Storable t v) :
    ∃ rest, toKey v t = tagOf t :: rest := by
  rcases h with rfl | ⟨hfamily, -⟩
  · exact ⟨_, rfl⟩
  · cases hnull : v.isNull with
    | true =>
      unfold toKey
      rw [hnull]
      exact ⟨_, rfl⟩
    | false => exact toKey_head (Or.inr ⟨hnull, tagOf_sameFamily hfamily⟩)

/-- What a column with numbers decodes, and that it can hold it. -/
theorem decodeValue_int {t : DataType} (ht : tagOf t = kTagInt64) {payload : Bytes}
    (hlen : payload.length = 8) :
    ∃ s hs, decodeValue payload (tagOf t) t = .int (orderedToInt64 (decodeBe64 payload)) s hs ∧
      s = (if t.isTemporal then t else .bigInt) := by
  unfold decodeValue
  rw [ht, if_neg (by decide), if_pos rfl, if_neg (not_not.mpr hlen)]
  by_cases htemp : t.isTemporal = true
  · rw [dif_pos htemp, if_pos htemp]
    exact ⟨t, _, rfl, rfl⟩
  · rw [dif_neg htemp, if_neg htemp]
    exact ⟨_, _, rfl, rfl⟩

theorem decodeValue_str {t : DataType} (ht : tagOf t = kTagString) (s : Bytes) :
    ∃ h, decodeValue (encodeString s) (tagOf t) t = .str s t h := by
  have hstring : t.isString = true := by
    revert ht
    cases t <;> decide
  unfold decodeValue
  rw [ht, if_neg (by decide), if_neg (by decide), if_pos rfl, decodeString_eq_some.mpr rfl]
  exact ⟨hstring, dif_pos hstring⟩

/-! ## Exact validity -/

section Payload

variable {tag : UInt8} {payload : Bytes}

theorem payload_int (htag : tag = kTagInt64) (h : isValidPayload payload tag = true) :
    payload.length = 8 := by
  subst htag
  exact of_decide_eq_true h

theorem payload_str (htag : tag = kTagString) (h : isValidPayload payload tag = true) :
    ∃ s, payload = encodeString s := by
  subst htag
  have hsome : (decodeString payload).isSome = true := h
  obtain ⟨s, hs⟩ := Option.isSome_iff_exists.mp hsome
  exact ⟨s, decodeString_eq_some.mp hs⟩

theorem payload_bool (htag : tag = kTagBool) (h : isValidPayload payload tag = true) :
    payload = [0x00] ∨ payload = [0x01] := by
  subst htag
  have hbyte : (payload = [0x00] || payload = [0x01]) = true := h
  simpa using hbyte

end Payload

section Family

variable {t : DataType} (ht : tagOf t ≠ kTagNull)
include ht

/-- A type with a family has one of three tags. -/
theorem tagOf_cases : tagOf t = kTagInt64 ∨ tagOf t = kTagString ∨ tagOf t = kTagBool := by
  revert ht
  cases t <;> decide

/-- Past the tag, `is_valid_key` looks at the flag. -/
theorem isValidKey_family (flag : UInt8) (payload : Bytes) :
    isValidKey (tagOf t :: flag :: payload) t =
      if flag = kNullFlag then decide (payload = [])
      else if flag ≠ kValueFlag then false else isValidPayload payload (tagOf t) :=
  (if_neg ht).trans (if_neg (not_not.mpr rfl))

theorem fromKey_family (flag : UInt8) (payload : Bytes) :
    fromKey (tagOf t :: flag :: payload) t =
      if flag = kNullFlag then .null
      else if flag ≠ kValueFlag then .null else decodeValue payload (tagOf t) t :=
  (if_neg ht).trans (if_neg (not_not.mpr rfl))

theorem isValidKey_value (payload : Bytes) :
    isValidKey (tagOf t :: kValueFlag :: payload) t = isValidPayload payload (tagOf t) := by
  rw [isValidKey_family ht, if_neg (by decide), if_neg (by decide)]

theorem fromKey_value (payload : Bytes) :
    fromKey (tagOf t :: kValueFlag :: payload) t = decodeValue payload (tagOf t) t := by
  rw [fromKey_family ht, if_neg (by decide), if_neg (by decide)]

theorem fromKey_null (payload : Bytes) : fromKey (tagOf t :: kNullFlag :: payload) t = .null := by
  rw [fromKey_family ht, if_pos rfl]

/-- A valid key of the family is NULL's or holds a valid value. -/
theorem isValidKey_cases {rest : Bytes} (h : isValidKey (tagOf t :: rest) t = true) :
    rest = [kNullFlag] ∨ ∃ payload, rest = kValueFlag :: payload ∧
      isValidPayload payload (tagOf t) = true := by
  cases rest with
  | nil => simp [isValidKey] at h
  | cons flag payload =>
    by_cases hvalue : flag = kValueFlag
    · subst hvalue
      rw [isValidKey_value ht] at h
      exact Or.inr ⟨payload, rfl, h⟩
    · rw [isValidKey_family ht, if_pos hvalue] at h
      by_cases hnull : flag = kNullFlag
      · rw [if_pos hnull] at h
        rw [hnull, of_decide_eq_true h]
        exact Or.inl rfl
      · rw [if_neg hnull] at h
        simp at h

/-- **Keys are read back.**  The key of a value is valid and gives the value back. -/
theorem fromKey_toKey {v : Value} (hv : Storable t v) :
    isValidKey (toKey v t) t = true ∧ (fromKey (toKey v t) t).eq v = true := by
  rcases hv with rfl | ⟨hfamily, htemporal⟩
  · rw [toKey_null]
    rw [isValidKey_family ht, fromKey_null ht, if_pos rfl]
    exact ⟨rfl, rfl⟩
  · have htag := tagOf_sameFamily hfamily
    cases v with
    | null => exact absurd htag.symm ht
    | int n s hs =>
      have hkey : toKey (.int n s hs) t
          = tagOf t :: kValueFlag :: encodeBe64 (int64ToOrdered n) := by rw [← htag]; rfl
      have hint : tagOf t = kTagInt64 := htag.symm.trans (tagOf_holdsInt64 hs)
      rw [hkey, isValidKey_value ht, fromKey_value ht]
      obtain ⟨s', hs', hdecode, htype⟩ := decodeValue_int hint (length_encodeBe64 (int64ToOrdered n))
      rw [hdecode, decodeBe64_encodeBe64, orderedToInt64_int64ToOrdered]
      refine ⟨by rw [hint]; simp [isValidPayload, length_encodeBe64], ?_⟩
      -- a date, time or datetime comes back with its own type, and no other number is one
      have hkind := (DataType.kind_of_sameFamily hfamily).2.2.2
      by_cases htemp : t.isTemporal = true
      · rw [if_pos htemp] at htype
        have hst : s = t := htemporal htemp
        simp [Value.eq, htype, hst]
      · rw [if_neg htemp] at htype
        have hst : s.isTemporal = false := by
          rw [Bool.not_eq_true] at htemp
          exact hkind.trans htemp
        have hbig : DataType.bigInt.isTemporal = false := rfl
        simp [Value.eq, htype, hst, hbig]
    | bool b =>
      have hkey : toKey (.bool b) t = tagOf t :: kValueFlag :: [if b then 0x01 else 0x00] := by
        rw [← htag]; rfl
      have hbool : tagOf t = kTagBool := htag.symm
      rw [hkey, isValidKey_value ht, fromKey_value ht, hbool]
      cases b <;> exact ⟨rfl, rfl⟩
    | str x s hs =>
      have hkey : toKey (.str x s hs) t = tagOf t :: kValueFlag :: encodeString x := by
        rw [← htag]; rfl
      have hstr : tagOf t = kTagString := htag.symm.trans (tagOf_isString hs)
      rw [hkey, isValidKey_value ht, fromKey_value ht]
      obtain ⟨h, hdecode⟩ := decodeValue_str hstr x
      rw [hdecode]
      refine ⟨?_, by simp [Value.eq]⟩
      rw [hstr]
      unfold isValidPayload
      rw [if_neg (by decide), if_neg (by decide), if_pos rfl, decodeString_eq_some.mpr rfl]
      rfl

/-- **Only keys are valid.**  A valid key of the family is the key of the value read from it. -/
theorem toKey_fromKey {rest : Bytes} (h : isValidKey (tagOf t :: rest) t = true) :
    Storable t (fromKey (tagOf t :: rest) t) ∧
      toKey (fromKey (tagOf t :: rest) t) t = tagOf t :: rest := by
  rcases isValidKey_cases ht h with rfl | ⟨payload, rfl, hpayload⟩
  · rw [fromKey_null ht]
    exact ⟨Or.inl rfl, rfl⟩
  · rw [fromKey_value ht]
    rcases tagOf_cases ht with hint | hstr | hbool
    · have hlen := payload_int hint hpayload
      obtain ⟨s, hs, hdecode, htype⟩ := decodeValue_int hint hlen
      rw [hdecode]
      refine ⟨Or.inr ⟨?_, ?_⟩, ?_⟩
      · show t.isSameFamily s = true
        revert hint
        rw [htype]
        cases t <;> decide
      · intro htemp
        exact htype.trans (if_pos htemp)
      · show tagOf s :: kValueFlag :: encodeBe64 (int64ToOrdered _) = _
        rw [int64ToOrdered_orderedToInt64, encodeBe64_decodeBe64 hlen, tagOf_holdsInt64 hs, hint]
    · obtain ⟨x, rfl⟩ := payload_str hstr hpayload
      obtain ⟨hs, hdecode⟩ := decodeValue_str hstr x
      rw [hdecode]
      refine ⟨Or.inr ⟨by simp [DataType.isSameFamily, Value.type], fun _ => rfl⟩, rfl⟩
    · have hboolean : t = .boolean := by
        revert hbool
        cases t <;> decide
      subst hboolean
      rcases payload_bool hbool hpayload with rfl | rfl
      · exact ⟨Or.inr ⟨rfl, fun h => absurd h (by decide)⟩, rfl⟩
      · exact ⟨Or.inr ⟨rfl, fun h => absurd h (by decide)⟩, rfl⟩

/-- **Exact validity.**  Among the strings that start with the family's tag, the valid keys are the
    keys of the values that a column of the type can hold. -/
theorem isValidKey_iff {key : Key} (hhead : key.head? = some (tagOf t)) :
    isValidKey key t = true ↔ ∃ v, Storable t v ∧ key = toKey v t := by
  obtain ⟨rest, rfl⟩ := List.head?_eq_some_iff.mp hhead
  constructor
  · intro h
    obtain ⟨hv, hkey⟩ := toKey_fromKey ht h
    exact ⟨_, hv, hkey.symm⟩
  · rintro ⟨v, hv, hkey⟩
    rw [hkey]
    exact (fromKey_toKey ht hv).1

/-- The string right after a key of the family. -/
theorem isValidKey_next {rest : Bytes} (h : isValidKey (tagOf t :: rest) t = true) :
    isValidKey (tagOf t :: rest ++ [0x00]) t = false := by
  rcases isValidKey_cases ht h with rfl | ⟨payload, rfl, hpayload⟩
  · exact isValidKey_family ht kNullFlag [0x00]
  · show isValidKey (tagOf t :: kValueFlag :: (payload ++ [0x00])) t = false
    rw [isValidKey_value ht]
    rcases tagOf_cases ht with hint | hstr | hbool
    · have hlen := payload_int hint hpayload
      rw [hint]
      simp [isValidPayload, hlen]
    · -- a terminator before the end
      rw [← Bool.not_eq_true]
      intro hnext
      obtain ⟨x, rfl⟩ := payload_str hstr hpayload
      obtain ⟨y, hy⟩ := payload_str hstr hnext
      exact absurd (OrderedBytes.escape_append_cons hy) (by decide)
    · rw [hbool]
      rcases payload_bool hbool hpayload with rfl | rfl <;> rfl

end Family

/-- The string right after a valid key is not valid. -/
theorem isValidKey_inclusiveUpperBound {key : Key} {t : DataType} (h : isValidKey key t = true) :
    isValidKey (inclusiveUpperBound key) t = false := by
  match key, h with
  | tag :: flag :: payload, h =>
    by_cases hnull : tag = kTagNull
    · subst hnull
      obtain rfl : payload = [] := of_decide_eq_true h
      rfl
    · by_cases htag : tag = tagOf t
      · subst htag
        exact isValidKey_next hnull h
      · unfold isValidKey at h
        simp only [if_neg hnull, if_pos htag] at h
        simp at h

/-- **The codec is exact.**  Every value that a column of the type takes is read back from its key.
    Among the strings that start with the family's tag, the valid ones are the keys of NULL and of
    the values of the family (any number, any string, any boolean), and each is the key of the value
    read from it.  The string right after a valid key is never valid. -/
theorem keyCodec_exact (t : DataType) (ht : tagOf t ≠ kTagNull) :
    (∀ column v, column.type = t → TableSchema.validateValue column v = .ok →
      Storable t v) ∧
    (∀ v, Storable t v → (fromKey (toKey v t) t).eq v = true) ∧
    (∀ key : Key, key.head? = some (tagOf t) →
      (isValidKey key t = true ↔ ∃ v, Storable t v ∧ key = toKey v t) ∧
      (isValidKey key t = true → toKey (fromKey key t) t = key)) ∧
    (∀ key, isValidKey key t = true → isValidKey (inclusiveUpperBound key) t = false) := by
  refine ⟨?_, fun v hv => (fromKey_toKey ht hv).2, fun key hhead => ⟨isValidKey_iff ht hhead, ?_⟩,
    fun key h => isValidKey_inclusiveUpperBound h⟩
  · rintro column v rfl hv
    exact storable_of_validateValue hv
  · obtain ⟨rest, rfl⟩ := List.head?_eq_some_iff.mp hhead
    exact fun h => (toKey_fromKey ht h).2

theorem keyCodec_exact_date :
    (fromKey (toKey (.int 19000 .date rfl) .date) .date).eq (.int 19000 .date rfl) = true ∧
      isValidKey (inclusiveUpperBound (toKey (.ofStr [0x00]) .text)) .text = false :=
  ⟨(keyCodec_exact .date (by decide)).2.1 _ (Or.inr ⟨rfl, fun _ => rfl⟩),
    (keyCodec_exact .text (by decide)).2.2.2 _ (by decide)⟩

/-- The range of a type is not part of the format: the key of 300 is a valid key of a TINYINT, and
    no TINYINT takes 300. -/
theorem tinyInt_key_out_of_range :
    ∃ key : Key, key.head? = some (tagOf .tinyInt) ∧ isValidKey key .tinyInt = true ∧
      ¬ ∃ column v, column.type = .tinyInt ∧ TableSchema.validateValue column v = .ok ∧
        key = toKey v .tinyInt := by
  refine ⟨toKey (.ofInt 300) .tinyInt, rfl, by decide, ?_⟩
  rintro ⟨column, v, htype, hv, hkey⟩
  -- what the key reads back as is 300, so the value would be 300
  have hback := (fromKey_toKey (by decide) (htype ▸ storable_of_validateValue hv)).2
  rw [← hkey, show fromKey (toKey (.ofInt 300) .tinyInt) .tinyInt = .ofInt 300 by decide] at hback
  cases v with
  | null => exact absurd hback (by decide)
  | bool | str => simp [Value.ofInt, Value.eq] at hback
  | int n s hs =>
    have hn : n = 300 := by
      simp only [Value.ofInt, Value.eq] at hback
      split at hback <;> simp_all
    subst hn
    unfold TableSchema.validateValue at hv
    rw [htype] at hv
    revert hv
    cases s <;> simp [Value.isNull, Value.type, Value.raw] <;> decide

end KeyCodecs

end SqlDb.Sql
