/-
  THE IN-MEMORY STORE  (`MockStore`, storage/mock_engine/mock_engine.{h,cpp}).

  The store is a `std::map` from keys to values, here a `SortedMap`.  A batch is checked as a WHOLE
  before any of it is applied, so a rejected batch changes nothing (`writeBatch_error`), and applied
  operation by operation, so later operations win.

  Every operation of a batch decides about each key on its own.  Hence what a batch does INSIDE a
  range of keys depends on nothing outside it (`applyOps_keep`): this is what lets a raft group own
  a range of a shared store.

  Locks, the write slot and transactions belong to connections and are not part of this module.
-/
import SqlDb.Lib.OrderedBytes
import SqlDb.Lib.SortedMap
import SqlDb.Storage.KvEngine

namespace SqlDb.Kv

/-- The content of a store. -/
abbrev Data := SortedMap Bytes Bytes

structure MockStore where
  data : Data := default
  isOpen : Bool := false
  /-- Fault injection: every batch fails. -/
  failWrites : Bool := false
deriving DecidableEq

/-! ## Writing -/

/-- The effect of one operation on the content. -/
def applyOp (data : Data) : Op → Data
  | .put key value => data.insert key value
  | .remove key => data.erase key
  | .removeRange start stop => data.keep fun k => decide (k < start) || !decide (k < stop)

def applyOps (ops : WriteBatch) (data : Data) : Data := ops.foldl applyOp data

/-- The check a batch has to pass: a range must not be empty. -/
def Op.valid : Op → Bool
  | .removeRange start stop => decide (start < stop)
  | _ => true

namespace MockStore

/-- `MockStore::write_batch` with `apply_batch_locked`. -/
def writeBatch (s : MockStore) (batch : WriteBatch) : Status × MockStore :=
  if !s.isOpen then (.internalError, s)
  else if s.failWrites then (.ioError, s)
  else if !batch.all Op.valid then (.invalidArgument, s)
  else (.ok, { s with data := applyOps batch s.data })

/-- A batch is applied as a whole or not at all. -/
theorem writeBatch_error {s t : MockStore} {batch : WriteBatch} {status : Status}
    (h : s.writeBatch batch = (status, t)) (hne : status ≠ .ok) : t = s := by
  unfold writeBatch at h
  split_ifs at h
  · exact (Prod.mk.inj h).2.symm
  · exact (Prod.mk.inj h).2.symm
  · exact (Prod.mk.inj h).2.symm
  · exact absurd (Prod.mk.inj h).1.symm hne

theorem writeBatch_ok {s t : MockStore} {batch : WriteBatch}
    (h : s.writeBatch batch = (.ok, t)) : t = { s with data := applyOps batch s.data } := by
  unfold writeBatch at h
  split_ifs at h
  · simp at h
  · simp at h
  · simp at h
  · exact (Prod.mk.inj h).2.symm

/-! ## Scanning -/

/-- The rows of an interval, in increasing order: from the first key that is not below `start`, up
    to the first one that is not below `stop`. -/
def materialize (data : Data) (range : KeyRange) : List (Bytes × Bytes) :=
  let rows := match range.start with
    | some start => data.entries.dropWhile fun p => p.1 < start
    | none => data.entries
  match range.stop with
  | some stop => rows.takeWhile fun p => p.1 < stop
  | none => rows

/-- The rows a new iterator visits from `seek_to_first` on; a closed store has no iterator. -/
def newIterator (s : MockStore) (range : KeyRange) : Option (List (Bytes × Bytes)) :=
  if !s.isOpen then none
  else
    let rows := materialize s.data range
    some (match range.direction with
      | .forward => rows
      | .reverse => rows.reverse)

end MockStore

/-! ## Batches -/

theorem applyOps_append (ops more : WriteBatch) (data : Data) :
    applyOps (ops ++ more) data = applyOps more (applyOps ops data) := List.foldl_append

theorem applyOps_puts (rows : List (Bytes × Bytes)) (data : Data) :
    applyOps (rows.map fun p => .put p.1 p.2) data = data.insertAll rows := by
  unfold applyOps SortedMap.insertAll
  rw [List.foldl_map]
  rfl

theorem mem_applyOps_removes (rows : List (Bytes × Bytes)) (data : Data) {e : Bytes × Bytes} :
    e ∈ (applyOps (rows.map fun p => .remove p.1) data).entries ↔
      e ∈ data.entries ∧ ∀ p ∈ rows, e.1 ≠ p.1 := by
  induction rows generalizing data with
  | nil => simp [applyOps]
  | cons p rows ih =>
    have hstep : applyOps ((p :: rows).map fun p => .remove p.1) data
        = applyOps (rows.map fun p => .remove p.1) (data.erase p.1) := rfl
    rw [hstep, ih]
    simp [SortedMap.erase, and_assoc]

/-! ## A range of keys -/

/-- What lies in a range. -/
def Data.inside (range : KeyRange) (data : Data) : Data := data.keep range.contains

/-- A scan finds exactly what lies in the range. -/
theorem materialize_eq (data : Data) (range : KeyRange) :
    MockStore.materialize data range = (data.inside range).entries := by
  have hkeep : ∀ p : Bytes × Bytes, range.contains p.1 =
      ((match range.start with
        | some start => !decide (p.1 < start)
        | none => true) &&
      (match range.stop with
        | some stop => decide (p.1 < stop)
        | none => true)) := fun _ => rfl
  unfold MockStore.materialize Data.inside SortedMap.keep
  simp only [hkeep]
  cases range.start with
  | none =>
    cases range.stop with
    | none => simp
    | some stop => simpa using SortedMap.takeWhile_lt data.sorted stop
  | some start =>
    simp only [SortedMap.dropWhile_lt data.sorted start]
    cases range.stop with
    | none => simp
    | some stop =>
      simp only [SortedMap.takeWhile_lt (data.sorted.filter _) stop, List.filter_filter]
      exact List.filter_congr fun p _ => Bool.and_comm _ _

/-- An operation treats the keys of a range without looking at the others. -/
theorem applyOp_keep (p : Bytes → Bool) (data : Data) (op : Op) :
    (applyOp data op).keep p = (applyOp (data.keep p) op).keep p := by
  cases op with
  | put key value => exact SortedMap.keep_insert p data key value
  | remove | removeRange => exact SortedMap.keep_keep p _ data

/-- **A batch acts on a range by itself.** -/
theorem applyOps_keep (p : Bytes → Bool) (ops : WriteBatch) (data : Data) :
    (applyOps ops data).keep p = (applyOps ops (data.keep p)).keep p := by
  induction ops generalizing data with
  | nil =>
    refine SortedMap.ext_mem fun e => ?_
    simp only [applyOps, List.foldl_nil, SortedMap.mem_keep, and_assoc, and_self]
  | cons op ops ih =>
    show (applyOps ops (applyOp data op)).keep p = (applyOps ops (applyOp (data.keep p) op)).keep p
    rw [ih, applyOp_keep, ← ih]

end SqlDb.Kv
