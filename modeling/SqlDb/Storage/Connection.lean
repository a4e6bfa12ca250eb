/-
  CONNECTIONS  (`MockEngine`, storage/mock_engine/mock_engine.cpp, and `LevelDBEngine`,
  storage/leveldb_engine/leveldb_engine.cpp).

  A store is shared by any number of connections.  A connection has a transaction buffer while a
  transaction is open, a SNAPSHOT (the committed content as it was when the transaction began) and a
  flag that says whether it holds the store's one WRITE SLOT.  Who holds the slot is thus recorded
  twice: on the connection and, as `writeOwner`, on the store.

    * Reads ask the buffer first, then the snapshot if there is one, then the store (`visible`).
    * The first write of a transaction takes the slot and drops the snapshot.
    * A write outside a transaction takes the slot, writes and gives the slot back.
    * Commit writes the buffer as one batch and gives the slot back.

  The two engines are the same code over two stores; `Backend` says which one, since they differ in
  what a batch does, in which check comes first, in whether an empty batch takes the slot, and in the
  iterator under a scan: leveldb's comes to no row at all if a reverse scan finds no key at or after
  its end (`Reaches`).

  So point reads and scans agree exactly when each row that the buffer has no entry for is let through
  by the buffer and reached by the iterator, or neither (`scan_agrees_iff`).  The merging iterator asks
  the buffer only about keys that have an entry: a row that is deleted by a range delete ALONE is shown.
-/
import SqlDb.Storage.LevelDb
import SqlDb.Storage.LevelDbIterator
import SqlDb.Storage.MergingIterator

namespace SqlDb.Kv

/-- A connection, by the order of its `connect`. -/
abbrev ConnId := Nat

inductive Backend
  | mock | levelDb
deriving DecidableEq, Repr

/-! ## The store -/

structure SharedStore where
  backend : Backend := .mock
  data : Data := default
  isOpen : Bool := true
  /-- Writes to the database fail. -/
  failWrites : Bool := false
  /-- The connection that holds the write slot. -/
  writeOwner : Option ConnId := none

namespace SharedStore

variable (s : SharedStore)

def acquireWriteSlot (owner : ConnId) : Status × SharedStore :=
  if !s.isOpen then (.internalError, s)
  else if s.writeOwner ≠ none ∧ s.writeOwner ≠ some owner then (.busy, s)
  else (.ok, { s with writeOwner := some owner })

def releaseWriteSlot (owner : ConnId) : Status × SharedStore :=
  if s.writeOwner ≠ some owner then (.notFound, s)
  else (.ok, { s with writeOwner := none })

/-- The status and the value of a lookup. -/
def found : Option Bytes → Status × Option Bytes
  | some value => (.ok, some value)
  | none => (.notFound, none)

def get (key : Bytes) : Status × Option Bytes :=
  if !s.isOpen then (.internalError, none) else found (s.data.find key)

/-- `exists` is a keyword here. -/
def existsKey (key : Bytes) : Bool := s.isOpen && (s.data.find key).isSome

/-- The mock store's single writes do not look at the injected fault. -/
def writeFails : Bool :=
  match s.backend with
  | .mock => false
  | .levelDb => s.failWrites

def put (key value : Bytes) : Status × SharedStore :=
  if !s.isOpen then (.internalError, s)
  else if s.writeFails then (.ioError, s)
  else (.ok, { s with data := s.data.insert key value })

def remove (key : Bytes) : Status × SharedStore :=
  if !s.isOpen then (.internalError, s)
  else if s.data.find key = none then (.notFound, s)
  else if s.writeFails then (.ioError, s)
  else (.ok, { s with data := s.data.erase key })

def writeBatch (batch : WriteBatch) : Status × SharedStore :=
  match s.backend with
  | .mock =>
    let (status, t) := MockStore.writeBatch ⟨s.data, s.isOpen, s.failWrites⟩ batch
    (status, { s with data := t.data })
  | .levelDb =>
    if !s.isOpen then (.internalError, s)
    else if batch.isEmpty then (.ok, s)
    else
      let (status, t) := LevelDbStore.applyBatchLocked ⟨s.data, s.isOpen, s.failWrites⟩ batch
      (status, { s with data := t.data })

end SharedStore

/-! ## A connection -/

/-- What a connection keeps for itself. -/
structure Engine where
  tx : Option TxBuffer := none
  snapshot : Option Data := none
  writeSlot : Bool := false

/-- A connection at work: its own part and the store. -/
structure Conn where
  store : SharedStore
  engine : Engine

/-- The iterator of a store, of the store's own kind. -/
inductive StoreIterator
  | mock (it : MockIterator)
  | levelDb (it : LevelDbIterator)

instance : Iterator StoreIterator where
  valid
    | .mock it => Iterator.valid it
    | .levelDb it => Iterator.valid it
  key
    | .mock it => Iterator.key it
    | .levelDb it => Iterator.key it
  value
    | .mock it => Iterator.value it
    | .levelDb it => Iterator.value it
  next
    | .mock it => .mock (Iterator.next it)
    | .levelDb it => .levelDb (Iterator.next it)

theorem StoreIterator.yields_mock {it : MockIterator} {rows : List (Bytes × Bytes)} :
    Yields (StoreIterator.mock it) rows ↔ Yields it rows :=
  yields_wrap StoreIterator.mock (fun _ => rfl) (fun _ => rfl) (fun _ => rfl) fun _ => rfl

theorem StoreIterator.yields_levelDb {it : LevelDbIterator} {rows : List (Bytes × Bytes)} :
    Yields (StoreIterator.levelDb it) rows ↔ Yields it rows :=
  yields_wrap StoreIterator.levelDb (fun _ => rfl) (fun _ => rfl) (fun _ => rfl) fun _ => rfl

/-- What `new_iterator` returns. -/
inductive Scan
  | plain (it : StoreIterator)
  | merged (it : MergingIterator StoreIterator)

instance : Iterator Scan where
  valid
    | .plain it => Iterator.valid it
    | .merged it => Iterator.valid it
  key
    | .plain it => Iterator.key it
    | .merged it => Iterator.key it
  value
    | .plain it => Iterator.value it
    | .merged it => Iterator.value it
  next
    | .plain it => .plain (Iterator.next it)
    | .merged it => .merged (Iterator.next it)

theorem Scan.yields_plain {it : StoreIterator} {rows : List (Bytes × Bytes)} :
    Yields (Scan.plain it) rows ↔ Yields it rows :=
  yields_wrap Scan.plain (fun _ => rfl) (fun _ => rfl) (fun _ => rfl) fun _ => rfl

theorem Scan.yields_merged {it : MergingIterator StoreIterator} {rows : List (Bytes × Bytes)} :
    Yields (Scan.merged it) rows ↔ Yields it rows :=
  yields_wrap Scan.merged (fun _ => rfl) (fun _ => rfl) (fun _ => rfl) fun _ => rfl

namespace Conn

variable (c : Conn)

/-- What the transaction's own writes say about a key. -/
def overlay (key : Bytes) : OverlayOp :=
  match c.engine.tx with
  | some tx => tx.lookup key
  | none => .none

def get (key : Bytes) : Status × Option Bytes :=
  if !c.store.isOpen then (.internalError, none)
  else
    match c.overlay key with
    | .tombstone => (.notFound, none)
    | .value v => (.ok, some v)
    | .none =>
      match c.engine.snapshot with
      | some snapshot => SharedStore.found (snapshot.find key)
      | none => c.store.get key

def existsKey (key : Bytes) : Bool :=
  if !c.store.isOpen then false
  else
    match c.overlay key with
    | .tombstone => false
    | .value _ => true
    | .none =>
      match c.engine.snapshot with
      | some snapshot => (snapshot.find key).isSome
      | none => c.store.existsKey key

/-- The content under the buffer: the snapshot or what is committed. -/
def base : Data := c.engine.snapshot.getD c.store.data

/-- The store's iterator over the base. -/
def baseIterator (range : KeyRange) : StoreIterator :=
  match c.store.backend with
  | .mock => .mock (MockIterator.create (MockStore.materialize c.base range) range)
  | .levelDb => .levelDb (LevelDbIterator.create c.base range)

def newIterator (range : KeyRange) : Option Scan :=
  if !c.store.isOpen then none
  else
    match c.engine.tx with
    | none => some (.plain (c.baseIterator range))
    | some tx => some (.merged (MergingIterator.create (c.baseIterator range) tx range))

def beginTransaction : Status × Conn :=
  if !c.store.isOpen then (.internalError, c)
  else if c.engine.tx.isSome then (.busy, c)
  else (.ok, { c with engine := { c.engine with tx := some {}, snapshot := some c.store.data } })

def acquireWriteSlot (self : ConnId) : Status × Conn :=
  if c.engine.writeSlot then (.ok, c)
  else if !c.store.isOpen then (.internalError, c)
  else
    match c.store.acquireWriteSlot self with
    | (.ok, store) => (.ok, ⟨store, { c.engine with snapshot := none, writeSlot := true }⟩)
    | (status, store) => (status, { c with store := store })

def releaseWriteSlot (self : ConnId) : Conn :=
  if !c.engine.writeSlot then c
  else ⟨(c.store.releaseWriteSlot self).2, { c.engine with writeSlot := false }⟩

def ensureWriteSlot (self : ConnId) : Status × Conn :=
  if c.engine.writeSlot then (.ok, c) else c.acquireWriteSlot self

/-- Writes inside a transaction: take the slot, then go to the buffer. -/
def bufferWrites (self : ConnId) (tx : TxBuffer) (ops : List Op) : Status × Conn :=
  match c.ensureWriteSlot self with
  | (.ok, c) => (.ok, { c with engine := { c.engine with tx := some (tx.writeAll ops) } })
  | (status, c) => (status, c)

/-- A write outside a transaction holds the slot while it writes. -/
def autoCommit (self : ConnId) (write : SharedStore → Status × SharedStore) :
    Status × Conn :=
  match c.store.acquireWriteSlot self with
  | (.ok, store) =>
    let (status, store) := write store
    (status, { c with store := (store.releaseWriteSlot self).2 })
  | (status, store) => (status, { c with store := store })

def put (self : ConnId) (key value : Bytes) : Status × Conn :=
  if !c.store.isOpen then (.internalError, c)
  else
    match c.engine.tx with
    | some tx => c.bufferWrites self tx [.put key value]
    | none => c.autoCommit self fun store => store.put key value

def remove (self : ConnId) (key : Bytes) : Status × Conn :=
  if !c.store.isOpen then (.internalError, c)
  else
    match c.engine.tx with
    | some tx => c.bufferWrites self tx [.remove key]
    | none => c.autoCommit self fun store => store.remove key

/-- leveldb's engine returns at once on an empty batch, the mock engine only outside a
    transaction. -/
def writeBatch (self : ConnId) (batch : WriteBatch) : Status × Conn :=
  if !c.store.isOpen then (.internalError, c)
  else
    match c.engine.tx with
    | some tx =>
      if c.store.backend = .levelDb ∧ batch = [] then (.ok, c)
      else c.bufferWrites self tx batch
    | none =>
      if batch = [] then (.ok, c)
      else c.autoCommit self fun store => store.writeBatch batch

/-- The end of a transaction. -/
def finish (self : ConnId) : Conn :=
  releaseWriteSlot { c with engine := { c.engine with tx := none, snapshot := none } } self

def commitTransaction (self : ConnId) : Status × Conn :=
  if !c.store.isOpen then (.internalError, c)
  else
    match c.engine.tx with
    | none => (.notFound, c)
    | some tx =>
      if tx.exceeds then (.invalidArgument, c)
      else
        match c.store.writeBatch tx.toBatch with
        | (.ok, store) => (.ok, finish { c with store := store } self)
        | (status, store) => (status, { c with store := store })

def rollbackTransaction (self : ConnId) : Status × Conn :=
  if !c.store.isOpen then (.internalError, c)
  else
    match c.engine.tx with
    | none => (.notFound, c)
    | some _ => (.ok, c.finish self)

/-! ## Reads -/

/-- The value of a key as the connection sees it. -/
def visible (key : Bytes) : Option Bytes := (c.overlay key).resolve (c.base.find key)

theorem get_eq {c : Conn} (hopen : c.store.isOpen = true) (key : Bytes) :
    c.get key = SharedStore.found (c.visible key) := by
  unfold get visible base SharedStore.get
  rw [hopen]
  cases c.overlay key with
  | none => cases c.engine.snapshot <;> rfl
  | value | tombstone => rfl

theorem existsKey_eq {c : Conn} (hopen : c.store.isOpen = true) (key : Bytes) :
    c.existsKey key = (c.visible key).isSome := by
  unfold existsKey visible base SharedStore.existsKey
  rw [hopen]
  cases c.overlay key with
  | none => cases c.engine.snapshot <;> rfl
  | value | tombstone => rfl

theorem found_eq_ok {o : Option Bytes} {v : Bytes} :
    SharedStore.found o = (.ok, some v) ↔ o = some v := by
  cases o <;> simp [SharedStore.found]

/-- The iterator under a scan comes to the rows of the range.  leveldb's does not if a reverse scan
    finds no key that shows where the range ends. -/
def Reaches (range : KeyRange) : Prop :=
  c.store.backend = .levelDb → range.direction = .reverse → EndSeen c.base range

/-- The buffer, if there is one, has no entry for the key. -/
def Unbuffered (key : Bytes) : Prop :=
  ∀ tx, c.engine.tx = some tx → tx.view.find key = none

theorem yields_baseIterator (range : KeyRange) :
    ∃ ds, Yields (c.baseIterator range) ds ∧
      ds.Pairwise (fun p q => range.direction.before p.1 q.1) ∧
      ∀ p, p ∈ ds ↔ c.Reaches range ∧ range.contains p.1 = true ∧ c.base.find p.1 = some p.2 := by
  have hsorted := range.direction.order_sorted (c.base.inside range).sorted
  have hmem : ∀ p, p ∈ range.direction.order (c.base.inside range).entries ↔
      range.contains p.1 = true ∧ c.base.find p.1 = some p.2 := by
    intro p
    rw [range.direction.mem_order, SortedMap.find_eq_some, and_comm]
    exact SortedMap.mem_keep
  unfold baseIterator
  cases hb : c.store.backend with
  | mock =>
    have hreach : c.Reaches range := fun h => absurd (hb.symm.trans h) (by decide)
    refine ⟨_, StoreIterator.yields_mock.mpr ?_, hsorted,
      fun p => by rw [hmem, and_iff_right hreach]⟩
    rw [materialize_eq]
    exact MockIterator.yields_create fun p hp => (SortedMap.mem_keep.mp hp).2
  | levelDb =>
    have hiff : c.Reaches range ↔ IteratorCall.Safe c.base range .seekToFirst :=
      ⟨fun h => h hb, fun h _ => h⟩
    by_cases hsafe : IteratorCall.Safe c.base range .seekToFirst
    · refine ⟨_, StoreIterator.yields_levelDb.mpr ?_, hsorted,
        fun p => by rw [hmem, and_iff_right (hiff.mpr hsafe)]⟩
      rw [← materialize_eq]
      exact yields_levelDb c.base range hsafe
    · refine ⟨[], StoreIterator.yields_levelDb.mpr (yields_levelDb_nil c.base range hsafe), .nil,
        fun p => ?_⟩
      exact iff_of_false (by simp) fun h => hsafe (hiff.mp h.1)

/-- A scan on an open store visits, in scan order, for every key of the range what the buffer's own
    entry for it says, and where there is none the row that the iterator below comes to. -/
theorem yields_newIterator {c : Conn} (hopen : c.store.isOpen = true) (range : KeyRange) :
    ∃ it rows, c.newIterator range = some it ∧ Yields it rows ∧
      rows.Pairwise (fun p q => range.direction.before p.1 q.1) ∧
      ∀ p, p ∈ rows ↔ range.contains p.1 = true ∧
        ((¬ c.Unbuffered p.1 ∧ c.overlay p.1 = .value p.2) ∨
          (c.Unbuffered p.1 ∧ c.Reaches range ∧ c.base.find p.1 = some p.2)) := by
  obtain ⟨ds, hds, hsorted, hmem⟩ := c.yields_baseIterator range
  unfold newIterator Unbuffered overlay
  rw [hopen]
  cases c.engine.tx with
  | none =>
    refine ⟨_, ds, rfl, Scan.yields_plain.mpr hds, hsorted, fun p => ?_⟩
    rw [hmem]
    simp [and_left_comm]
  | some tx =>
    obtain ⟨rows, hrows, hrows_sorted, hrows_mem⟩ := MergingIterator.yields_create tx hds hsorted
      fun p hp => ((hmem p).mp hp).2.1
    refine ⟨_, rows, rfl, Scan.yields_merged.mpr hrows, hrows_sorted, fun p => ?_⟩
    rw [hrows_mem, hmem]
    simp only [Option.some.injEq, forall_eq']
    refine and_congr_right fun hin => or_congr_right (and_congr_right fun _ => ?_)
    rw [and_iff_right hin]

/-- A scan and point reads agree: the scan visits, in scan order, exactly the keys of the range that
    `get` finds, each with the value `get` returns. -/
def ScanAgrees (range : KeyRange) : Prop :=
  ∃ it rows, c.newIterator range = some it ∧ Yields it rows ∧
    rows.Pairwise (fun p q => range.direction.before p.1 q.1) ∧
    ∀ p, p ∈ rows ↔ range.contains p.1 = true ∧ c.get p.1 = (.ok, some p.2)

/-- The rows of the range that the buffer has no entry for: the buffer lets them through exactly if the
    iterator below comes to them.  It does not where a range delete covers the key. -/
def ShownAlike (range : KeyRange) : Prop :=
  ∀ k, range.contains k = true → c.base.find k ≠ none → c.Unbuffered k →
    (c.overlay k = .none ↔ c.Reaches range)

/-- A key without an entry is either untouched or deleted by a range. -/
theorem overlay_of_unbuffered {c : Conn} {key : Bytes} (h : c.Unbuffered key) :
    c.overlay key = .none ∨ c.overlay key = .tombstone := by
  unfold overlay
  split
  · rename_i tx htx
    unfold TxBuffer.lookup
    rw [h tx htx]
    dsimp only
    split
    · exact Or.inr rfl
    · exact Or.inl rfl
  · exact Or.inl rfl

theorem overlay_of_buffered {c : Conn} {key : Bytes} (h : ¬ c.Unbuffered key) :
    c.overlay key ≠ .none := by
  unfold Unbuffered at h
  push Not at h
  obtain ⟨tx, htx, hview⟩ := h
  obtain ⟨e, he⟩ := Option.ne_none_iff_exists'.mp hview
  unfold overlay
  rw [htx]
  exact MergingIterator.lookup_of_view he

/-- What a scan says about one key is what `get` says about it. -/
theorem shown_iff {c : Conn} {range : KeyRange} {p : Bytes × Bytes}
    (h : c.base.find p.1 ≠ none → c.Unbuffered p.1 → (c.overlay p.1 = .none ↔ c.Reaches range)) :
    ((¬ c.Unbuffered p.1 ∧ c.overlay p.1 = .value p.2) ∨
        (c.Unbuffered p.1 ∧ c.Reaches range ∧ c.base.find p.1 = some p.2)) ↔
      c.visible p.1 = some p.2 := by
  unfold visible
  by_cases hbare : c.Unbuffered p.1
  · rw [and_iff_right hbare, or_iff_right fun h => h.1 hbare]
    rcases overlay_of_unbuffered hbare with hnone | htomb
    · rw [hnone]
      refine ⟨fun hshown => hshown.2, fun hv => ⟨(h ?_ hbare).mp hnone, hv⟩⟩
      simp [show c.base.find p.1 = some p.2 from hv]
    · rw [htomb]
      refine iff_of_false (fun hshown => ?_) (by simp [OverlayOp.resolve])
      have hnone := (h (by simp [hshown.2]) hbare).mpr hshown.1
      rw [htomb] at hnone
      simp at hnone
  · rw [and_iff_right hbare, or_iff_left fun h => hbare h.1]
    have hne := overlay_of_buffered hbare
    cases hover : c.overlay p.1 with
    | none => exact absurd hover hne
    | value v => simp [OverlayOp.resolve]
    | tombstone => simp [OverlayOp.resolve]

theorem scanAgrees_of_shownAlike {c : Conn} {range : KeyRange} (hopen : c.store.isOpen = true)
    (h : c.ShownAlike range) : c.ScanAgrees range := by
  obtain ⟨it, rows, hit, hrows, hsorted, hmem⟩ := c.yields_newIterator hopen range
  refine ⟨it, rows, hit, hrows, hsorted, fun p => ?_⟩
  rw [hmem, get_eq hopen, found_eq_ok]
  exact and_congr_right fun hin => shown_iff (h p.1 hin)

/-- **Scans agree with point reads exactly when each row of the range without an entry in the buffer is
    let through by the buffer and reached by the iterator, or neither**: on both stores, in every range
    and direction. -/
theorem scan_agrees_iff (c : Conn) (range : KeyRange) (hopen : c.store.isOpen = true) :
    c.ScanAgrees range ↔ c.ShownAlike range := by
  refine ⟨?_, scanAgrees_of_shownAlike hopen⟩
  rintro ⟨it', rows', hit', hrows', -, hmem'⟩ k hin hbase hbare
  obtain ⟨it, rows, hit, hrows, -, hmem⟩ := c.yields_newIterator hopen range
  rw [hit] at hit'
  cases hit'
  rw [← hrows.unique hrows'] at hmem'
  obtain ⟨v, hv⟩ := Option.ne_none_iff_exists'.mp hbase
  -- the row is visited if the iterator comes to it, and found if the buffer lets it through
  have hiff := (hmem (k, v)).symm.trans (hmem' (k, v))
  simp only [hin, true_and, hbare, not_true_eq_false, false_and, false_or, hv, and_true,
    get_eq hopen, found_eq_ok, visible] at hiff
  rw [hiff]
  rcases overlay_of_unbuffered hbare with hnone | htomb
  · rw [hnone]
    exact iff_of_true rfl rfl
  · rw [htomb]
    exact iff_of_false (by simp) (by simp [OverlayOp.resolve])

/-- A transaction on leveldb that has put one key, and a reverse scan up to a key that is there. -/
theorem scan_agrees_put : ScanAgrees
    ⟨{ backend := .levelDb, data := ((default : Data).insert [1] [7]).insert [9] [0] },
      { tx := some (TxBuffer.put {} [2] [8]) }⟩ { stop := some [9], direction := .reverse } := by
  refine (scan_agrees_iff _ _ rfl).mpr fun k _ _ hbare => iff_of_true ?_ fun _ _ => ?_
  · show TxBuffer.lookup (TxBuffer.put {} [2] [8]) k = _
    unfold TxBuffer.lookup
    rw [hbare _ rfl]
    rfl
  · exact Or.inr ⟨([9], [0]), by decide, by decide⟩

/-- The store has one row, and the transaction has deleted a range around it. -/
def rangeDeleted : Conn :=
  ⟨{ data := (default : Data).insert [1] [7] }, { tx := some (TxBuffer.removeRange {} [0] [9]) }⟩

/-- The row is gone for `get`, but the scan still visits it. -/
theorem range_delete_scanned : rangeDeleted.get [1] = (.notFound, none) ∧
    (∃ it, rangeDeleted.newIterator {} = some it ∧ Yields it [([1], [7])]) ∧
    ¬ rangeDeleted.ScanAgrees {} := by
  have hget : rangeDeleted.get [1] = (.notFound, none) := by decide +kernel
  obtain ⟨it, hit, hy⟩ : ∃ it, rangeDeleted.newIterator {} = some it ∧ Yields it [([1], [7])] :=
    ⟨_, rfl, rfl, rfl, rfl, rfl⟩
  refine ⟨hget, ⟨it, hit, hy⟩, ?_⟩
  rintro ⟨it', rows, hit', hy', -, hmem⟩
  rw [hit] at hit'
  cases hit'
  rw [← hy.unique hy'] at hmem
  have hfound := ((hmem ([1], [7])).mp (List.mem_singleton_self _)).2
  rw [hget] at hfound
  simp at hfound

end Conn

end SqlDb.Kv
