/-
  KEYS  (`KeyCodecs`, sql_types/key.h).

  The key of a value is a byte string: a tag for its encoding FAMILY, a flag that tells NULL from a
  value, and the value.  All numbers form one family, all strings one, the booleans one.  The order
  of the bytes is the order of the values within a family, NULL comes first, and the families do not
  mix (`key_order`): range scans, the elimination of sorts and early stops rest on it.
-/
import SqlDb.Lib.OrderedBytes
import SqlDb.SqlTypes.Value

namespace SqlDb.Sql

abbrev Key := Bytes

namespace KeyCodecs

def kTagNull : UInt8 := 0x00
def kTagInt64 : UInt8 := 0x01
def kTagString : UInt8 := 0x02
def kTagBool : UInt8 := 0x03
def kNullFlag : UInt8 := 0x00
def kValueFlag : UInt8 := 0x01

/-- The tag of a type's family; `kTagNull` for a type without one. -/
def tagOf (type : DataType) : UInt8 :=
  if type.isInteger || type.isTemporal then kTagInt64
  else if type.isString then kTagString
  else if type.isBoolean then kTagBool
  else kTagNull

/-- The NULL of a family, and its smallest key. -/
def makeNullKey (tag : UInt8) : Key := [tag, kNullFlag]

/-! ## Encoding -/

def encodeBe64 (v : UInt64) : Key := Codec.bigEndian 8 v.toNat

/-- Signed to unsigned, in order. -/
def int64ToOrdered (v : Int64) : UInt64 := v.toUInt64 ^^^ 0x8000000000000000

/-- `0x00` becomes `0x00 0xFF`, and `0x00` ends the string. -/
def encodeString (s : Bytes) : Key := OrderedBytes.escape 0x00 0xFF s

/-- The key of a value that is not NULL, by the value's own family. -/
def encodeValue (val : Value) : Key :=
  tagOf val.type :: kValueFlag ::
    match val with
    | .bool b => [if b then 0x01 else 0x00]
    | .int v _ _ => encodeBe64 (int64ToOrdered v)
    | .str s _ _ => encodeString s
    | .null => []

/-- The key of a value of a column. -/
def toKey (val : Value) (columnType : DataType) : Key :=
  if val.isNull then makeNullKey (tagOf columnType) else encodeValue val

/-- The key of a value without a column: NULL has the tag of no family. -/
def toKeyUntyped (val : Value) : Key :=
  if val.isNull then makeNullKey kTagNull else encodeValue val

/-- The string right after `k`. -/
def inclusiveUpperBound (k : Key) : Key := k ++ [0x00]

def minKeyForType (type : DataType) : Key := makeNullKey (tagOf type)

def upperKeyForType (type : DataType) : Key :=
  if tagOf type = kTagNull then [0xFF] else [tagOf type + 1]

def nullKeyForType (type : DataType) : Key := minKeyForType type

/-! ## Families -/

/-- A value of the family, not NULL. -/
def OfFamily (tag : UInt8) (v : Value) : Prop := v.isNull = false ∧ tagOf v.type = tag

theorem tagOf_holdsInt64 {t : DataType} (h : t.holdsInt64 = true) : tagOf t = kTagInt64 := by
  cases t <;> first | rfl | exact absurd h (by decide)

theorem tagOf_isString {t : DataType} (h : t.isString = true) : tagOf t = kTagString := by
  cases t <;> first | rfl | exact absurd h (by decide)

theorem tagOf_int (v : Int64) (t : DataType) (h : t.holdsInt64 = true) :
    tagOf (Value.int v t h).type = kTagInt64 := tagOf_holdsInt64 h

theorem tagOf_bool (b : Bool) : tagOf (Value.bool b).type = kTagBool := rfl

theorem tagOf_str (s : Bytes) (t : DataType) (h : t.isString = true) :
    tagOf (Value.str s t h).type = kTagString := tagOf_isString h

theorem tagOf_lt (t : DataType) : (tagOf t).toNat < 4 := by
  cases t <;> decide

theorem toKey_null (t : DataType) : toKey .null t = [tagOf t, kNullFlag] := rfl

theorem toKey_value {v : Value} (h : v.isNull = false) (t : DataType) :
    toKey v t = encodeValue v := by
  unfold toKey
  rw [h]
  rfl

/-- Every key starts with its family's tag. -/
theorem toKey_head {v : Value} {t : DataType} (h : v = .null ∨ OfFamily (tagOf t) v) :
    ∃ rest, toKey v t = tagOf t :: rest := by
  rcases h with rfl | ⟨hnull, htag⟩
  · exact ⟨_, rfl⟩
  · rw [toKey_value hnull]
    unfold encodeValue
    rw [htag]
    exact ⟨_, rfl⟩

/-! ## Order -/

theorem toNat_int64ToOrdered (v : Int64) : ((int64ToOrdered v).toNat : Int) = v.toInt + 2 ^ 63 := by
  have hlt := v.toUInt64.toNat_lt
  have hxor : (int64ToOrdered v).toNat = (v.toUInt64.toNat + 2 ^ 63) % 2 ^ 64 := by
    unfold int64ToOrdered
    rw [UInt64.toNat_xor, show (0x8000000000000000 : UInt64).toNat = 2 ^ 63 from rfl]
    exact OrderedBytes.xor_top_bit hlt
  have hint : v.toInt = if 2 * v.toUInt64.toNat < 2 ^ 64 then (v.toUInt64.toNat : Int)
      else v.toUInt64.toNat - 2 ^ 64 := BitVec.toInt_eq_toNat_cond _
  rw [hxor, hint]
  split <;> omega

theorem encodeBe64_lt_iff (a b : UInt64) : encodeBe64 a < encodeBe64 b ↔ a.toNat < b.toNat := by
  unfold encodeBe64
  rw [OrderedBytes.bigEndian_lt_iff, Nat.mod_eq_of_lt (by exact a.toNat_lt),
    Nat.mod_eq_of_lt (by exact b.toNat_lt)]

/-- Numbers, the two extremes included. -/
theorem encodeInt_lt_iff (a b : Int64) :
    encodeBe64 (int64ToOrdered a) < encodeBe64 (int64ToOrdered b) ↔ a < b := by
  have ha := toNat_int64ToOrdered a
  have hb := toNat_int64ToOrdered b
  rw [encodeBe64_lt_iff, Int64.lt_iff_toInt_lt]
  omega

instance byteOrder : IsStrictTotalOrder UInt8 (· < ·) where
  irrefl := fun a => UInt8.lt_irrefl a
  trans := fun _ _ _ => UInt8.lt_trans
  trichotomous := fun _ _ hab hba => UInt8.le_antisymm (UInt8.not_lt.mp hba) (UInt8.not_lt.mp hab)

/-- Strings, embedded zero bytes included. -/
theorem encodeString_lt_iff (a b : Bytes) : encodeString a < encodeString b ↔ a < b :=
  OrderedBytes.escape_lt_iff (fun c => by simp) 0xFF a b

/-- Within a family the keys are in the order of the values. -/
theorem encodeValue_lt_iff {a b : Value} {tag : UInt8} (ha : OfFamily tag a) (hb : OfFamily tag b) :
    encodeValue a < encodeValue b ↔ a.Less b := by
  obtain ⟨hna, hta⟩ := ha
  obtain ⟨hnb, htb⟩ := hb
  unfold encodeValue
  rw [hta, htb, OrderedBytes.cons_lt_cons_self, OrderedBytes.cons_lt_cons_self]
  subst hta
  -- two values of one family are of one kind, since the three tags differ
  cases a with
  | null => simp [Value.isNull] at hna
  | int x s hs =>
    rw [tagOf_int] at htb
    cases b with
    | null => simp [Value.isNull] at hnb
    | int y t ht => exact encodeInt_lt_iff x y
    | bool y => exact absurd ((tagOf_bool y).symm.trans htb) (by decide)
    | str y t ht => exact absurd ((tagOf_str y t ht).symm.trans htb) (by decide)
  | bool x =>
    rw [tagOf_bool] at htb
    cases b with
    | null => simp [Value.isNull] at hnb
    | int y t ht => exact absurd ((tagOf_int y t ht).symm.trans htb) (by decide)
    | bool y => cases x <;> cases y <;> simp [Value.Less] <;> decide
    | str y t ht => exact absurd ((tagOf_str y t ht).symm.trans htb) (by decide)
  | str x s hs =>
    rw [tagOf_str] at htb
    cases b with
    | null => simp [Value.isNull] at hnb
    | int y t ht => exact absurd ((tagOf_int y t ht).symm.trans htb) (by decide)
    | bool y => exact absurd ((tagOf_bool y).symm.trans htb) (by decide)
    | str y t ht => exact encodeString_lt_iff x y

/-- NULL comes first in its family. -/
theorem nullKey_lt {tag : UInt8} {v : Value} (h : OfFamily tag v) :
    makeNullKey tag < encodeValue v := by
  unfold makeNullKey encodeValue
  rw [h.2, OrderedBytes.cons_lt_cons_self]
  exact List.cons_lt_cons_iff.mpr (Or.inl (by decide))

/-- The tag decides on which side of a family's bounds a key lies. -/
theorem cons_lt_upper_iff {t : DataType} (ht : tagOf t ≠ kTagNull) (tag : UInt8) (rest : Key) :
    tag :: rest < upperKeyForType t ↔ tag ≤ tagOf t := by
  have hlt := tagOf_lt t
  unfold upperKeyForType
  rw [if_neg ht, List.cons_lt_cons_iff, UInt8.lt_iff_toNat_lt, UInt8.le_iff_toNat_le,
    UInt8.toNat_add, UInt8.toNat_one, Nat.mod_eq_of_lt (by omega)]
  simp only [List.not_lt_nil, and_false, or_false]
  omega

/-- **The keys are in order.**  Within a family the order of the keys is the order of the values and
    NULL comes first; and the keys of the family are exactly those between its bounds. -/
theorem key_order (t : DataType) (ht : tagOf t ≠ kTagNull) :
    (∀ a b, OfFamily (tagOf t) a → OfFamily (tagOf t) b → (toKey a t < toKey b t ↔ a.Less b)) ∧
    (∀ a, OfFamily (tagOf t) a → toKey .null t < toKey a t) ∧
    (∀ a, a = .null ∨ OfFamily (tagOf t) a →
      minKeyForType t ≤ toKey a t ∧ toKey a t < upperKeyForType t) ∧
    (∀ a t', tagOf t' ≠ tagOf t → a = .null ∨ OfFamily (tagOf t') a →
      ¬ (minKeyForType t ≤ toKey a t' ∧ toKey a t' < upperKeyForType t)) := by
  refine ⟨fun a b ha hb => ?_, fun a ha => ?_, fun a ha => ⟨?_, ?_⟩, fun a t' hne ha => ?_⟩
  · rw [toKey_value ha.1, toKey_value hb.1]
    exact encodeValue_lt_iff ha hb
  · rw [toKey_value ha.1]
    exact nullKey_lt ha
  · rcases ha with rfl | ha
    · exact List.le_refl _
    · rw [toKey_value ha.1]
      exact List.le_of_lt (nullKey_lt ha)
  · obtain ⟨rest, hrest⟩ := toKey_head ha
    rw [hrest, cons_lt_upper_iff ht]
    exact UInt8.le_refl _
  · -- a key of another family has a smaller or a larger tag
    rintro ⟨hlow, hhigh⟩
    obtain ⟨rest, hrest⟩ := toKey_head ha
    rw [hrest] at hlow hhigh
    rw [cons_lt_upper_iff ht] at hhigh
    apply hlow
    exact List.cons_lt_cons_iff.mpr
      (Or.inl (UInt8.lt_of_le_of_ne hhigh hne))

theorem key_order_extremes :
    toKey (.ofInt Int64.minValue) .int < toKey (.ofInt Int64.maxValue) .int :=
  ((key_order .int (by decide)).1 _ _ ⟨rfl, rfl⟩ ⟨rfl, rfl⟩).mpr
    (show Int64.minValue < Int64.maxValue by decide)

end KeyCodecs

end SqlDb.Sql
