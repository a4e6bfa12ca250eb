/-
  TYPES AND VALUES  (sql_types/field_type.h, sql_types/value.h).

  A value is NULL, a 64-bit number, a boolean or a string.  Numbers and strings also carry a logical
  type: all integer widths, dates, times and datetimes are stored as `int64_t`, and the three string
  types as `std::string`.  The logical type of a number is one that is stored as a number, and that
  of a string is a string type: a `Value` carries the proof, as the constructors of the source assert
  it.
-/
import SqlDb.Storage.KvEngine

namespace SqlDb.Sql

inductive DataType
  | tinyInt | smallInt | int | bigInt
  | char | varchar | text
  | boolean
  | date | time | datetime
  | nullType
  | unknownType
deriving DecidableEq, Repr

namespace DataType

def isInteger : DataType → Bool
  | .tinyInt | .smallInt | .int | .bigInt => true
  | _ => false

def isString : DataType → Bool
  | .char | .varchar | .text => true
  | _ => false

def isBoolean (t : DataType) : Bool := t = .boolean

def isTemporal : DataType → Bool
  | .date | .time | .datetime => true
  | _ => false

def isNumeric (t : DataType) : Bool := t.isInteger || t.isBoolean

/-- The type is stored as a number. -/
def holdsInt64 (t : DataType) : Bool := t.isInteger || t.isTemporal

end DataType

/-- A value of the logical layer. -/
inductive Value
  | null
  | int (v : Int64) (type : DataType) (h : type.holdsInt64 = true)
  | bool (b : Bool)
  | str (s : Bytes) (type : DataType) (h : type.isString = true)
deriving DecidableEq

namespace Value

/-- `Value(int64_t)`. -/
def ofInt (v : Int64) : Value := .int v .bigInt rfl

/-- `Value(std::string)`. -/
def ofStr (s : Bytes) : Value := .str s .varchar rfl

def type : Value → DataType
  | .null => .nullType
  | .int _ t _ => t
  | .bool _ => .boolean
  | .str _ t _ => t

def isNull : Value → Bool
  | .null => true
  | _ => false

/-- `operator==`: equality for containers, not the `=` of SQL.  Numbers of different widths are
    equal if their values are; dates, times and datetimes only within one type. -/
def eq : Value → Value → Bool
  | .null, .null => true
  | .int a s _, .int b t _ =>
    if s.isTemporal || t.isTemporal then s = t && a = b else a = b
  | .bool a, .bool b => a = b
  | .str a _ _, .str b _ _ => a = b
  | _, _ => false

theorem eq_self (v : Value) : v.eq v = true := by
  cases v <;> simp [eq]

/-- The logical order of two values of one kind. -/
def Less : Value → Value → Prop
  | .int a _ _, .int b _ _ => a < b
  | .str a _ _, .str b _ _ => a < b
  | .bool a, .bool b => a = false ∧ b = true
  | _, _ => False

end Value

end SqlDb.Sql
