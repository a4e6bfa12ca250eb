/-
  NUMBERS, DATES AND TIMES AS TEXT  (`parse_int64_strict`, sql_types/field_type.h; sql_types/temporal.cpp).

  A DATE is stored as its number of days since 1970-01-01, a TIME as its second of the day, and a
  DATETIME as its number of seconds since 1970.  The calendar computes with `int64_t` for days and
  years, and with `unsigned` inside an era of 400 years: the model does the same with `Int64` and
  `UInt32`, so that a wrap-around of the source is one of the model.  (A signed overflow, which C++
  leaves undefined, wraps around too.)
-/
import SqlDb.Storage.KvEngine

namespace SqlDb.Sql

/-! ## Numbers -/

def byte (c : Char) : UInt8 := UInt8.ofNat c.toNat

def kQuote : UInt8 := 39

def kDoubleQuote : UInt8 := 34

def kBackslash : UInt8 := 92

def isDigit (c : UInt8) : Bool := byte '0' ≤ c && c ≤ byte '9'

/-- The decimal digits of a number. -/
def digits (n : Nat) : Bytes := (Nat.toDigits 10 n).map byte

/-- The number that digits stand for. -/
def digitsValue (s : Bytes) : Nat := s.foldl (fun n c => n * 10 + (c - byte '0').toNat) 0

/-- `std::to_string`. -/
def decimal (v : Int64) : Bytes :=
  if v < 0 then byte '-' :: digits v.toInt.natAbs else digits v.toInt.natAbs

/-- `std::from_chars`: an optional minus sign, then digits as far as they go.  The number and the
    rest of the text; nothing if there is no digit or the number is out of range. -/
def fromChars (text : Bytes) : Option (Int64 × Bytes) :=
  let negative := text.head? = some (byte '-')
  let body := if negative then text.tail else text
  let number := body.takeWhile isDigit
  let n : Int := if negative then -digitsValue number else digitsValue number
  if number = [] then none
  else if n < Int64.minValue.toInt ∨ Int64.maxValue.toInt < n then none
  else some (Int64.ofInt n, body.drop number.length)

/-- The source skips a sign of either kind before it calls `from_chars`, which takes a minus sign
    itself. -/
def parseInt64Strict (text : Bytes) : Option Int64 :=
  let signed := text.head? = some (byte '+') ∨ text.head? = some (byte '-')
  let body := if signed then text.tail else text
  if body = [] then none
  else
    match fromChars body with
    | some (n, []) => some n
    | _ => none

/-! ## The calendar -/

def kDateMinDays : Int64 := -719162

def kDateMaxDays : Int64 := 2932896

def kSecondsPerDay : Int64 := 86400

namespace Temporal

/-- `static_cast<unsigned>`. -/
def toUnsigned (v : Int64) : UInt32 := v.toUInt64.toUInt32

/-- `static_cast<int64_t>` of an unsigned number. -/
def ofUnsigned (u : UInt32) : Int64 := u.toUInt64.toInt64

def isLeapYear (year : Int64) : Bool :=
  (year % 4 == 0 && year % 100 != 0) || year % 400 == 0

def kDays : List Int64 := [31, 28, 31, 30, 31, 30, 31, 31, 30, 31, 30, 31]

def daysInMonth (year : Int64) (month : UInt32) : Int64 :=
  if month < 1 || month > 12 then 0
  else if month == 2 && isLeapYear year then 29
  else kDays.getD (month - 1).toNat 0

def daysFromCivil (year : Int64) (month day : UInt32) : Int64 :=
  let y := if month ≤ 2 then year - 1 else year
  let era := (if y ≥ 0 then y else y - 399) / 400
  let yoe := toUnsigned (y - era * 400)
  let doy := (153 * (month + (if month > 2 then -3 else 9)) + 2) / 5 + day - 1
  let doe := yoe * 365 + yoe / 4 - yoe / 100 + doy
  era * 146097 + ofUnsigned doe - 719468

structure Civil where
  year : Int64
  month : UInt32
  day : UInt32
deriving DecidableEq

def civilFromDays (days : Int64) : Civil :=
  let days := days + 719468
  let era := (if days ≥ 0 then days else days - 146096) / 146097
  let doe := toUnsigned (days - era * 146097)
  let yoe := (doe - doe / 1460 + doe / 36524 - doe / 146096) / 365
  let y := ofUnsigned yoe + era * 400
  let doy := doe - (365 * yoe + yoe / 4 - yoe / 100)
  let mp := (5 * doy + 2) / 153
  let day := doy - (153 * mp + 2) / 5 + 1
  let month := mp + (if mp < 10 then 3 else -9)
  ⟨if month ≤ 2 then y + 1 else y, month, day⟩

/-! ## Reading -/

/-- `count` digits from `pos` on. -/
def readDigits (s : Bytes) (pos count : Nat) : Option Int64 :=
  let part := (s.drop pos).take count
  if pos + count > s.length then none
  else if part.all isDigit then some (Int64.ofNat (digitsValue part))
  else none

def readSeparator (s : Bytes) (pos : Nat) (expected : Char) : Bool := s[pos]? = some (byte expected)

/-- `YYYY-MM-DD`. -/
def parseDate (text : Bytes) : Option Int64 :=
  if text.length ≠ 10 then none
  else
    match readDigits text 0 4, readDigits text 5 2, readDigits text 8 2 with
    | some year, some month, some day =>
      if !readSeparator text 4 '-' || !readSeparator text 7 '-' then none
      else if month < 1 || month > 12 || day < 1 || day > daysInMonth year (toUnsigned month) then none
      else
        let days := daysFromCivil year (toUnsigned month) (toUnsigned day)
        if days < kDateMinDays || days > kDateMaxDays then none else some days
    | _, _, _ => none

/-- `HH:MM` or `HH:MM:SS`. -/
def parseTime (text : Bytes) : Option Int64 :=
  if text.length ≠ 5 ∧ text.length ≠ 8 then none
  else
    let seconds := if text.length = 8 then
        if readSeparator text 5 ':' then readDigits text 6 2 else none
      else some 0
    match readDigits text 0 2, readDigits text 3 2, seconds with
    | some hour, some minute, some second =>
      if !readSeparator text 2 ':' then none
      else if hour < 0 || hour > 23 || minute < 0 || minute > 59 || second < 0 || second > 59 then none
      else some (hour * 3600 + minute * 60 + second)
    | _, _, _ => none

/-- A date, one of the separators and a time. -/
def parseDatetime (text : Bytes) : Option Int64 :=
  if text.length < 16 then none
  else
    match parseDate (text.take 10) with
    | none => none
    | some days =>
      if !(readSeparator text 10 ' ' || readSeparator text 10 'T' || readSeparator text 10 't') then none
      else (parseTime (text.drop 11)).map fun secs => days * kSecondsPerDay + secs

/-! ## Writing -/

/-- `snprintf` with `%0<width>lld` into eight bytes, of which the last one ends the string. -/
def pad (width : Nat) (v : Int64) : Bytes :=
  let sign := if v < 0 then [byte '-'] else []
  let number := digits v.toInt.natAbs
  let zeros := List.replicate (width - sign.length - number.length) (byte '0')
  (sign ++ zeros ++ number).take 7

def formatDate (days : Int64) : Bytes :=
  let civil := civilFromDays days
  pad 4 civil.year ++ [byte '-'] ++ pad 2 (ofUnsigned civil.month) ++ [byte '-']
    ++ pad 2 (ofUnsigned civil.day)

def formatTime (seconds : Int64) : Bytes :=
  pad 2 (seconds / 3600) ++ [byte ':'] ++ pad 2 (seconds % 3600 / 60) ++ [byte ':']
    ++ pad 2 (seconds % 60)

def formatDatetime (seconds : Int64) : Bytes :=
  let days := seconds / kSecondsPerDay
  let rest := seconds % kSecondsPerDay
  -- division truncates: before 1970 the rest is negative
  let (days, rest) := if rest < 0 then (days - 1, rest + kSecondsPerDay) else (days, rest)
  formatDate days ++ [byte ' '] ++ formatTime rest

end Temporal

end SqlDb.Sql
