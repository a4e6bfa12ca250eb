/-
  THE KEY-VALUE ENGINE'S VOCABULARY  (storage/kv_engine/kv_engine.h).

  Keys and values are byte strings, ordered as `std::string` orders them (lexicographically, bytes
  as unsigned numbers).  A `WriteBatch` is an ordered list of operations; a `KeyRange` is a
  half-open interval with optional ends.
-/
import Mathlib.Data.List.Basic

namespace SqlDb

/-- A `std::string` used as binary data. -/
abbrev Bytes := List UInt8

/-- The bytes of an ASCII text. -/
def ascii (s : String) : Bytes := s.toList.map fun c => UInt8.ofNat c.toNat

namespace Kv

/-- Result of a storage operation. -/
inductive Status
  | ok | notFound | alreadyExists | invalidArgument | notSupported | ioError | internalError
  | transactionConflict | busy | timeout | notLeader | crossGroupTransaction
deriving DecidableEq, Repr

def statusToString : Status → String
  | .ok => "OK"
  | .notFound => "NotFound"
  | .alreadyExists => "AlreadyExists"
  | .invalidArgument => "InvalidArgument"
  | .notSupported => "NotSupported"
  | .ioError => "IOError"
  | .internalError => "InternalError"
  | .transactionConflict => "TransactionConflict"
  | .busy => "Busy"
  | .timeout => "Timeout"
  | .notLeader => "NotLeader"
  | .crossGroupTransaction => "CrossGroupTransaction"

/-- One operation of a batch.  `removeRange b e` deletes the keys in `[b, e)`. -/
inductive Op
  | put (key value : Bytes)
  | remove (key : Bytes)
  | removeRange (start stop : Bytes)
deriving DecidableEq, Repr

def Op.isRange : Op → Bool
  | .removeRange _ _ => true
  | _ => false

/-- An ordered list of operations, applied as a whole. -/
abbrev WriteBatch := List Op

inductive ScanDirection
  | forward | reverse
deriving DecidableEq, Repr

/-- The interval `[start, stop)`; a missing end is unbounded.  `limit = 0` is no limit. -/
structure KeyRange where
  start : Option Bytes := none
  stop : Option Bytes := none
  limit : Nat := 0
  direction : ScanDirection := .forward
deriving DecidableEq, Repr

def KeyRange.contains (r : KeyRange) (key : Bytes) : Bool :=
  (match r.start with
   | some s => !decide (key < s)
   | none => true) &&
  (match r.stop with
   | some e => decide (key < e)
   | none => true)

end Kv

end SqlDb
