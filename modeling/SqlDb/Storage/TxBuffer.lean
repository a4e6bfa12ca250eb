/-
  THE TRANSACTION BUFFER  (`TxBuffer`, storage/kv_engine/tx_buffer.{h,cpp}).

  A transaction does not touch the store.  Its writes are kept TWICE:

    * the view — per key, the last put or remove, plus a list of range deletes; it answers what the
      transaction reads (`lookup`).  A range delete is not spread over keys: it carries a sequence
      number and wins over what was written before it;
    * the log — the operations in order, which become one batch at commit (`toBatch`).

  `lookup_write` says what one operation does to the answers of the view: it answers for the keys it
  touches, and leaves the others to whoever answered before.  Operations act on a store in the same
  way (`find_applyOp`), so the two representations agree whatever the order (`lookup_eq_commit`).
-/
import SqlDb.Storage.MockEngine

namespace SqlDb.Kv

/-! ## Answers -/

/-- What an overlay says about a key: nothing, a new value, or that the key is gone. -/
inductive OverlayOp
  | none
  | value (v : Bytes)
  | tombstone
deriving DecidableEq, Repr

namespace OverlayOp

def isTombstone (op : OverlayOp) : Bool := op = .tombstone

/-- The newer answer `a`, or the older one `b` where `a` has none. -/
def onTop : OverlayOp → OverlayOp → OverlayOp
  | .none, b => b
  | a, _ => a

/-- The value of a key for which the layer below has `below`. -/
def resolve (below : Option Bytes) : OverlayOp → Option Bytes
  | .none => below
  | .value v => some v
  | .tombstone => Option.none

theorem resolve_onTop (a b : OverlayOp) (below : Option Bytes) :
    (a.onTop b).resolve below = a.resolve (b.resolve below) := by
  cases a <;> rfl

end OverlayOp

/-- What one operation says about a key. -/
def Op.answer (op : Op) (k : Bytes) : OverlayOp :=
  match op with
  | .put key value => if k = key then .value value else .none
  | .remove key => if k = key then .tombstone else .none
  | .removeRange start stop => if !decide (k < start) && decide (k < stop) then .tombstone else .none

/-- An operation acts on a store as it answers. -/
theorem find_applyOp (data : Data) (op : Op) (k : Bytes) :
    (applyOp data op).find k = (op.answer k).resolve (data.find k) := by
  cases op with
  | put key value =>
    simp only [applyOp, Op.answer, SortedMap.find_insert]
    split <;> rfl
  | remove key =>
    simp only [applyOp, Op.answer, SortedMap.erase, SortedMap.find_keep]
    by_cases hk : k = key <;> simp [hk, OverlayOp.resolve]
  | removeRange start stop =>
    simp only [applyOp, Op.answer, SortedMap.find_keep]
    by_cases h1 : k < start <;> by_cases h2 : k < stop <;> simp [h1, h2, OverlayOp.resolve]

/-! ## The buffer -/

structure TxEntry where
  op : OverlayOp
  seq : Nat
deriving DecidableEq

structure TxRangeDelete where
  start : Bytes
  stop : Bytes
  seq : Nat
deriving DecidableEq

def TxRangeDelete.covers (r : TxRangeDelete) (k : Bytes) : Bool :=
  !decide (k < r.start) && decide (k < r.stop)

/-- The newest sequence number seen so far that concerns `key`. -/
def TxRangeDelete.newest (key : Bytes) (seq : Nat) (r : TxRangeDelete) : Nat :=
  if r.covers key && decide (seq < r.seq) then r.seq else seq

theorem emptyView_ok :
    ∀ p ∈ (default : SortedMap Bytes TxEntry).entries, p.2.seq < 1 ∧ p.2.op ≠ .none := by
  simp [default]

theorem noRanges_ok : ∀ r ∈ ([] : List TxRangeDelete), r.seq < 1 := by simp

/-- The writes of a transaction.  Everything in the view has an opinion, and all sequence numbers
    have been given out. -/
structure TxBuffer where
  view : SortedMap Bytes TxEntry := default
  rangeDeletes : List TxRangeDelete := []
  log : WriteBatch := []
  bytes : Nat := 0
  nextSeq : Nat := 1
  view_ok : ∀ p ∈ view.entries, p.2.seq < nextSeq ∧ p.2.op ≠ .none := by exact SqlDb.Kv.emptyView_ok
  ranges_ok : ∀ r ∈ rangeDeletes, r.seq < nextSeq := by exact SqlDb.Kv.noRanges_ok
  seq_pos : 0 < nextSeq := by exact Nat.one_pos
deriving DecidableEq

namespace TxBuffer

def entryCost (keySize valueSize : Nat) : Nat := keySize + valueSize + 64

def kDefaultLimit : Nat := 64 * 1024 * 1024

variable (buf : TxBuffer)

theorem view_insert_ok (key : Bytes) {op : OverlayOp} (hop : op ≠ .none) :
    ∀ p ∈ (buf.view.insert key ⟨op, buf.nextSeq⟩).entries,
      p.2.seq < buf.nextSeq + 1 ∧ p.2.op ≠ .none := by
  intro p hp
  rcases SortedMap.mem_insert.mp hp with rfl | ⟨hp, -⟩
  · exact ⟨Nat.lt_succ_self _, hop⟩
  · obtain ⟨hlt, hne⟩ := buf.view_ok p hp
    exact ⟨Nat.lt_succ_of_lt hlt, hne⟩

def put (key value : Bytes) : TxBuffer where
  view := buf.view.insert key ⟨.value value, buf.nextSeq⟩
  rangeDeletes := buf.rangeDeletes
  log := buf.log ++ [.put key value]
  bytes := buf.bytes + entryCost key.length value.length
  nextSeq := buf.nextSeq + 1
  view_ok := buf.view_insert_ok key (by simp)
  ranges_ok := fun r hr => Nat.lt_succ_of_lt (buf.ranges_ok r hr)
  seq_pos := Nat.succ_pos _

def remove (key : Bytes) : TxBuffer where
  view := buf.view.insert key ⟨.tombstone, buf.nextSeq⟩
  rangeDeletes := buf.rangeDeletes
  log := buf.log ++ [.remove key]
  bytes := buf.bytes + entryCost key.length 0
  nextSeq := buf.nextSeq + 1
  view_ok := buf.view_insert_ok key (by simp)
  ranges_ok := fun r hr => Nat.lt_succ_of_lt (buf.ranges_ok r hr)
  seq_pos := Nat.succ_pos _

def removeRange (start stop : Bytes) : TxBuffer where
  view := buf.view
  rangeDeletes := buf.rangeDeletes ++ [⟨start, stop, buf.nextSeq⟩]
  log := buf.log ++ [.removeRange start stop]
  bytes := buf.bytes + entryCost start.length stop.length
  nextSeq := buf.nextSeq + 1
  view_ok := fun p hp => ⟨Nat.lt_succ_of_lt (buf.view_ok p hp).1, (buf.view_ok p hp).2⟩
  ranges_ok := by
    intro r hr
    rcases mem_snoc.mp hr with hr | hr
    · exact Nat.lt_succ_of_lt (buf.ranges_ok r hr)
    · rw [hr]
      exact Nat.lt_succ_self _
  seq_pos := Nat.succ_pos _

/-- The newest range delete that covers `key`, by its sequence number. -/
def rangeSeq (key : Bytes) : Nat :=
  buf.rangeDeletes.foldl (TxRangeDelete.newest key) 0

def lookup (key : Bytes) : OverlayOp :=
  let entry := buf.view.find key
  let keySeq := match entry with
    | some e => e.seq
    | none => 0
  if keySeq < buf.rangeSeq key then .tombstone
  else
    match entry with
    | none => .none
    | some e => e.op

def toBatch : WriteBatch := buf.log

def exceeds : Bool := kDefaultLimit < buf.bytes

/-- One operation of a batch goes to the buffer. -/
def write : Op → TxBuffer
  | .put key value => buf.put key value
  | .remove key => buf.remove key
  | .removeRange start stop => buf.removeRange start stop

def writeAll (ops : List Op) : TxBuffer := ops.foldl write buf

/-! ## What a write does to the answers -/

theorem foldl_newest_lt {n : Nat} (key : Bytes) {l : List TxRangeDelete} (h : ∀ r ∈ l, r.seq < n)
    {seq : Nat} (hseq : seq < n) : l.foldl (TxRangeDelete.newest key) seq < n := by
  induction l generalizing seq with
  | nil => exact hseq
  | cons r l ih =>
    refine ih (fun r' hr' => h r' (List.mem_cons_of_mem r hr')) ?_
    unfold TxRangeDelete.newest
    split
    · exact h r (List.mem_cons_self ..)
    · exact hseq

/-- No range delete is newer than the next operation. -/
theorem rangeSeq_lt (key : Bytes) : buf.rangeSeq key < buf.nextSeq :=
  foldl_newest_lt key buf.ranges_ok buf.seq_pos

theorem rangeSeq_removeRange (start stop key : Bytes) :
    (buf.removeRange start stop).rangeSeq key
      = if !decide (key < start) && decide (key < stop) then buf.nextSeq else buf.rangeSeq key := by
  have hstep : (buf.removeRange start stop).rangeSeq key
      = TxRangeDelete.newest key (buf.rangeSeq key) ⟨start, stop, buf.nextSeq⟩ := by
    unfold rangeSeq removeRange
    rw [List.foldl_append]
    rfl
  have hlt : decide (buf.rangeSeq key < buf.nextSeq) = true := decide_eq_true (buf.rangeSeq_lt key)
  rw [hstep, TxRangeDelete.newest, hlt, Bool.and_true]
  rfl

/-- The newest entry of a key is newer than every range delete. -/
theorem lookup_insert (buf buf' : TxBuffer) (key : Bytes) (op : OverlayOp)
    (hview : buf'.view = buf.view.insert key ⟨op, buf.nextSeq⟩)
    (hranges : buf'.rangeDeletes = buf.rangeDeletes) (k : Bytes) :
    buf'.lookup k = if k = key then op else buf.lookup k := by
  have hseq : buf'.rangeSeq k = buf.rangeSeq k := by
    unfold rangeSeq
    rw [hranges]
  have hlt := buf.rangeSeq_lt k
  unfold lookup
  rw [hseq, hview, SortedMap.find_insert]
  by_cases hk : k = key
  · simp only [if_pos hk]
    exact if_neg (by omega)
  · simp only [if_neg hk]

/-- **One write.**  The operation answers for the keys it touches. -/
theorem lookup_write (op : Op) (k : Bytes) :
    (buf.write op).lookup k = (op.answer k).onTop (buf.lookup k) := by
  cases op with
  | put key value =>
    show (buf.put key value).lookup k = _
    rw [lookup_insert buf (buf.put key value) key (.value value) rfl rfl]
    by_cases hk : k = key <;> simp [Op.answer, hk, OverlayOp.onTop]
  | remove key =>
    show (buf.remove key).lookup k = _
    rw [lookup_insert buf (buf.remove key) key .tombstone rfl rfl]
    by_cases hk : k = key <;> simp [Op.answer, hk, OverlayOp.onTop]
  | removeRange start stop =>
    have hview : (buf.removeRange start stop).view = buf.view := rfl
    show (buf.removeRange start stop).lookup k = _
    simp only [lookup, Op.answer, rangeSeq_removeRange, hview]
    by_cases hcover : (!decide (k < start) && decide (k < stop)) = true
    · -- the range delete is newer than the key's entry
      simp only [if_pos hcover]
      cases hf : buf.view.find k with
      | none => exact if_pos buf.seq_pos
      | some e => exact if_pos (buf.view_ok _ (SortedMap.find_eq_some.mp hf)).1
    · simp only [if_neg hcover]
      rfl

theorem log_writeAll (ops : List Op) :
    (buf.writeAll ops).log = buf.log ++ ops := by
  induction ops generalizing buf with
  | nil => exact (List.append_nil _).symm
  | cons op ops ih =>
    have hlog : (buf.write op).log = buf.log ++ [op] := by cases op <;> rfl
    show ((buf.write op).writeAll ops).log = _
    rw [ih, hlog, List.append_assoc]
    rfl

/-- The answers of a buffer and the effect of its operations on any data. -/
theorem resolve_writeAll (ops : List Op) (buf : TxBuffer) (data : Data) (base : Option Bytes)
    (k : Bytes) (h : (buf.lookup k).resolve base = data.find k) :
    ((buf.writeAll ops).lookup k).resolve base = (applyOps ops data).find k := by
  induction ops generalizing buf data with
  | nil => exact h
  | cons op ops ih =>
    refine ih (buf.write op) (applyOp data op) ?_
    rw [lookup_write, OverlayOp.resolve_onTop, h, find_applyOp]

theorem rangeDeletes_writeAll {ops : List Op} (h : ∀ op ∈ ops, op.isRange = false)
    (buf : TxBuffer) : (buf.writeAll ops).rangeDeletes = buf.rangeDeletes := by
  induction ops generalizing buf with
  | nil => rfl
  | cons op ops ih =>
    rw [List.forall_mem_cons] at h
    refine (ih h.2 (buf.write op)).trans ?_
    cases op with
    | put | remove => rfl
    | removeRange start stop => exact absurd h.1 (by simp [Op.isRange])

/-- Without deletes of ranges a key that is not in the view is not touched. -/
theorem lookup_of_noRanges {buf : TxBuffer} (h : buf.rangeDeletes = []) {k : Bytes}
    (hk : buf.view.find k = none) : buf.lookup k = .none := by
  unfold lookup rangeSeq
  rw [hk, h]
  rfl

/-- **Read your writes.**  What a transaction reads of a key is what the key holds after its commit. -/
theorem lookup_eq_commit (data : Data) (ops : List Op) (hvalid : ∀ op ∈ ops, op.valid = true)
    (k : Bytes) :
    ∃ store, ({ data, isOpen := true } : MockStore).writeBatch (({} : TxBuffer).writeAll ops).toBatch
        = (.ok, store) ∧
      ((({} : TxBuffer).writeAll ops).lookup k).resolve (data.find k) = store.data.find k := by
  have hlog : (({} : TxBuffer).writeAll ops).toBatch = ops := log_writeAll {} ops
  refine ⟨{ data := applyOps ops data, isOpen := true }, ?_, resolve_writeAll ops {} data _ k rfl⟩
  have hall : ops.all Op.valid = true := List.all_eq_true.mpr hvalid
  rw [hlog]
  simp [MockStore.writeBatch, hall]

/-- A key is written, its range is deleted, and another key of the range is written again. -/
theorem lookup_eq_commit_range :
    ∃ store, ({ data := default, isOpen := true } : MockStore).writeBatch
        (({} : TxBuffer).writeAll [.put [1] [7], .removeRange [0] [9], .put [2] [8]]).toBatch
        = (.ok, store) ∧
      ((({} : TxBuffer).writeAll [.put [1] [7], .removeRange [0] [9], .put [2] [8]]).lookup
        [1]).resolve ((default : Data).find [1]) = store.data.find [1] :=
  lookup_eq_commit default _ (by decide) [1]

end TxBuffer

end SqlDb.Kv
