/-
  THE ENGINE AS THOSE ABOVE IT USE IT  (`KVEngine`, storage/kv_engine/kv_engine.h).

  The catalog, the tables and the session are programs that make REQUESTS of the engine.  What they
  compute depends on the engine only through the answers, so one program is run against

  * a connection (`Conn.serve`): the engine as it is, with the transaction's buffer over its snapshot or
    over the store;
  * plain CONTENT (`Data.serve`): the key-value pairs, and nothing else.

  The last one is what the programs are understood with.  A connection that holds the slot in a
  transaction acts like its content — the buffer's operations applied to what is below it — as long as
  its scans agree with its point reads (`run_body`); what only looks up keys need not hold the slot
  (`run_lookups`).
-/
import SqlDb.Lib.Interaction
import SqlDb.Storage.WriteSlot

namespace SqlDb.Kv

/-! ## Requests -/

inductive Request
  | isOpen
  | get (key : Bytes)
  | existsKey (key : Bytes)
  /-- `new_iterator`, and the loop that walks it to its end. -/
  | scan (range : KeyRange)
  | put (key value : Bytes)
  | remove (key : Bytes)
  | writeBatch (batch : WriteBatch)
  | inTransaction
  | beginTransaction
  | acquireWriteSlot
  | releaseWriteSlot
  | commitTransaction
  | rollbackTransaction

abbrev Request.Answer : Request → Type
  | .isOpen => Bool
  | .get _ => Status × Option Bytes
  | .existsKey _ => Bool
  | .scan _ => Status × List (Bytes × Bytes)
  | .put _ _ => Status
  | .remove _ => Status
  | .writeBatch _ => Status
  | .inTransaction => Bool
  | .beginTransaction => Status
  | .acquireWriteSlot => Status
  | .releaseWriteSlot => Unit
  | .commitTransaction => Status
  | .rollbackTransaction => Status

/-- A program that uses the engine. -/
abbrev Access := Interaction Request Request.Answer

namespace Request

/-- The request asks about a key, or whether there is a store. -/
def isLookup : Request → Bool
  | .isOpen => true
  | .get _ => true
  | .existsKey _ => true
  | _ => false

/-- The request asks about the content only. -/
def isRead : Request → Bool
  | .scan _ => true
  | r => r.isLookup

/-- What the request writes. -/
def ops : Request → List Op
  | .put key value => [.put key value]
  | .remove key => [.remove key]
  | .writeBatch batch => batch
  | _ => []

/-- Reads and writes, as against what begins and ends transactions. -/
def isData : Request → Bool
  | .put _ _ => true
  | .remove _ => true
  | .writeBatch _ => true
  | r => r.isRead

/-- Reads and writes, but no range of keys is deleted. -/
def isPoint (r : Request) : Bool := r.isData && r.ops.all fun op => !op.isRange

end Request

/-! ## Content -/

/-- The rows of a range in scan order. -/
def Data.scan (range : KeyRange) (data : Data) : List (Bytes × Bytes) :=
  range.direction.order (data.inside range).entries

theorem Data.mem_scan {range : KeyRange} {data : Data} {p : Bytes × Bytes} :
    p ∈ data.scan range ↔ range.contains p.1 = true ∧ data.find p.1 = some p.2 := by
  unfold Data.scan
  rw [range.direction.mem_order, SortedMap.find_eq_some, and_comm]
  exact SortedMap.mem_keep

/-- Plain content answers.  Whoever removes a key is told that this is done, as inside a
    transaction. -/
def Data.serve : Interaction.Handler Request Request.Answer Data
  | .isOpen, data => (true, data)
  | .get key, data => (SharedStore.found (data.find key), data)
  | .existsKey key, data => ((data.find key).isSome, data)
  | .scan range, data => ((.ok, data.scan range), data)
  | .put key value, data => (.ok, applyOp data (.put key value))
  | .remove key, data => (.ok, applyOp data (.remove key))
  | .writeBatch batch, data => (.ok, applyOps batch data)
  | .inTransaction, data => (true, data)
  | .beginTransaction, data => (.ok, data)
  | .acquireWriteSlot, data => (.ok, data)
  | .releaseWriteSlot, data => ((), data)
  | .commitTransaction, data => (.ok, data)
  | .rollbackTransaction, data => (.ok, data)

theorem Data.serve_state (r : Request) (data : Data) :
    (Data.serve r data).2 = applyOps r.ops data := by
  cases r <;> rfl

/-- What only looks up keys writes nothing. -/
theorem Data.run_looks {A : Type} {m : Access A} {data : Data}
    (hm : m.Asks fun r => r.isLookup = true) : (m.run Data.serve data).2 = data := by
  refine Interaction.run_inv (I := fun d => d = data) (fun r d hr hd => ?_) hm rfl
  rw [Data.serve_state, hd]
  cases r <;> first | rfl | simp [Request.isLookup] at hr

/-! ## A connection -/

/-- The loop `while (it.valid()) { …; it.next(); }`. -/
def drain {I : Type} [Iterator I] : Nat → I → List (Bytes × Bytes)
  | 0, _ => []
  | fuel + 1, it =>
    if Iterator.valid it then
      (Iterator.key it, Iterator.value it) :: drain fuel (Iterator.next it)
    else []

theorem drain_of_yields {I : Type} [Iterator I] {it : I} {rows : List (Bytes × Bytes)}
    (h : Yields it rows) {fuel : Nat} (hfuel : rows.length ≤ fuel) : drain fuel it = rows := by
  induction rows generalizing it fuel with
  | nil =>
    have hvalid : Iterator.valid it = false := h
    cases fuel <;> simp [drain, hvalid]
  | cons p rows ih =>
    obtain ⟨hvalid, hkey, hvalue, hrest⟩ := h
    rw [List.length_cons] at hfuel
    obtain ⟨fuel, rfl⟩ : ∃ n, fuel = n + 1 := ⟨fuel - 1, by omega⟩
    have hdrain : drain fuel (Iterator.next it) = rows := ih hrest (by omega)
    simp [drain, hvalid, hkey, hvalue, hdrain]

namespace Conn

/-- The keys that the buffer has entries for. -/
def buffered (c : Conn) : List Bytes :=
  match c.engine.tx with
  | some tx => tx.view.entries.map Prod.fst
  | none => []

theorem mem_buffered {c : Conn} {key : Bytes} (h : ¬ c.Unbuffered key) : key ∈ c.buffered := by
  unfold Unbuffered at h
  push Not at h
  obtain ⟨tx, htx, hview⟩ := h
  obtain ⟨e, he⟩ := Option.ne_none_iff_exists'.mp hview
  unfold buffered
  rw [htx]
  exact List.mem_map.mpr ⟨(key, e), SortedMap.find_eq_some.mp he, rfl⟩

/-- No scan visits more rows than there are keys below and in the buffer. -/
def scanBound (c : Conn) : Nat := c.base.entries.length + c.buffered.length

/-- Without an iterator the engine's `last_error` is reported. -/
def scan (c : Conn) (range : KeyRange) : Status × List (Bytes × Bytes) :=
  match c.newIterator range with
  | some it => (.ok, drain c.scanBound it)
  | none => (.internalError, [])

def serve (self : ConnId) : Interaction.Handler Request Request.Answer Conn
  | .isOpen, c => (c.store.isOpen, c)
  | .get key, c => (c.get key, c)
  | .existsKey key, c => (c.existsKey key, c)
  | .scan range, c => (c.scan range, c)
  | .put key value, c => c.put self key value
  | .remove key, c => c.remove self key
  | .writeBatch batch, c => c.writeBatch self batch
  | .inTransaction, c => (c.engine.tx.isSome, c)
  | .beginTransaction, c => c.beginTransaction
  | .acquireWriteSlot, c => c.acquireWriteSlot self
  | .releaseWriteSlot, c => ((), c.releaseWriteSlot self)
  | .commitTransaction, c => c.commitTransaction self
  | .rollbackTransaction, c => c.rollbackTransaction self

/-! ## What a connection shows -/

/-- The buffer's answers come from its operations. -/
def Wf (c : Conn) : Prop := ∀ tx, c.engine.tx = some tx → tx = ({} : TxBuffer).writeAll tx.log

/-- The buffer's operations, applied to what is below it. -/
def content (c : Conn) : Data :=
  match c.engine.tx with
  | some tx => applyOps tx.log c.base
  | none => c.base

section Shows

variable {c : Conn} (hopen : c.store.isOpen = true) (hwf : c.Wf)

include hwf in
theorem visible_eq (k : Bytes) : c.visible k = c.content.find k := by
  unfold visible content overlay
  cases htx : c.engine.tx with
  | none => rfl
  | some tx =>
    have h := TxBuffer.resolve_writeAll tx.log {} c.base (c.base.find k) k rfl
    rwa [← hwf tx htx] at h

include hopen

/-- The scan is walked to its end. -/
theorem scan_of_yields {range : KeyRange} {it : Scan} {rows : List (Bytes × Bytes)}
    (hit : c.newIterator range = some it) (hrows : Yields it rows) : c.scan range = (.ok, rows) := by
  obtain ⟨it', rows', hit', hrows', hsorted, hmem⟩ := c.yields_newIterator hopen range
  rw [hit] at hit'
  cases hit'
  obtain rfl := hrows.unique hrows'
  have hnodup : (rows.map Prod.fst).Nodup := by
    refine List.pairwise_map.mpr (hsorted.imp fun {p q} hpq heq => ?_)
    rw [heq] at hpq
    exact Std.Irrefl.irrefl (r := range.direction.before) q.1 hpq
  -- every row is below the buffer or in it
  have hbound : rows.length ≤ c.scanBound := by
    have hsub : rows.map Prod.fst ⊆ c.base.entries.map Prod.fst ++ c.buffered := by
      intro k hk
      obtain ⟨p, hp, rfl⟩ := List.mem_map.mp hk
      rw [List.mem_append]
      rcases ((hmem p).mp hp).2 with ⟨hown, -⟩ | ⟨-, -, hbase⟩
      · exact Or.inr (mem_buffered hown)
      · exact Or.inl (List.mem_map.mpr ⟨p, SortedMap.find_eq_some.mp hbase, rfl⟩)
    simpa [scanBound] using (List.subperm_of_subset hnodup hsub).length_le
  unfold scan
  rw [hit]
  exact congrArg (Prod.mk _) (drain_of_yields hrows hbound)

include hwf

/-- **A scan shows what lies in the range.** -/
theorem scan_eq {range : KeyRange} (hagree : c.ShownAlike range) :
    c.scan range = (.ok, c.content.scan range) := by
  obtain ⟨it, rows, hit, hrows, hsorted, hmem⟩ := scanAgrees_of_shownAlike hopen hagree
  rw [scan_of_yields hopen hit hrows]
  refine congrArg (Prod.mk _) (SortedMap.eq_of_mem_iff (r := range.direction.before) hsorted
    (range.direction.order_sorted (c.content.inside range).sorted) fun p => ?_)
  rw [hmem, Data.mem_scan, get_eq hopen, found_eq_ok, visible_eq hwf]

/-- **Lookups and scans show the content.** -/
theorem serve_read_eq (self : ConnId) {r : Request} (hr : r.isRead = true)
    (hscan : ∀ range, r = .scan range → c.ShownAlike range) :
    (serve self r c).1 = (Data.serve r c.content).1 := by
  cases r with
  | isOpen => exact hopen
  | get key =>
    show c.get key = SharedStore.found (c.content.find key)
    rw [get_eq hopen, visible_eq hwf]
  | existsKey key =>
    show c.existsKey key = (c.content.find key).isSome
    rw [existsKey_eq hopen, visible_eq hwf]
  | scan range => exact scan_eq hopen hwf (hscan range rfl)
  | _ => simp [Request.isRead, Request.isLookup] at hr

end Shows

theorem serve_read (self : ConnId) {r : Request} (h : r.isRead = true) (c : Conn) :
    (serve self r c).2 = c := by
  cases r <;> first | rfl | simp [Request.isRead, Request.isLookup] at h

/-! ## Writing in a transaction -/

/-- In a transaction and with the slot. -/
structure Writing (c : Conn) (tx : TxBuffer) : Prop where
  isOpen : c.store.isOpen = true
  inTx : c.engine.tx = some tx
  slot : c.engine.writeSlot = true

/-- The connection with another buffer. -/
def withTx (c : Conn) (tx : TxBuffer) : Conn := { c with engine := { c.engine with tx := some tx } }

section Writes

variable {c : Conn} {tx : TxBuffer} {self : ConnId}

theorem Writing.withTx (h : c.Writing tx) (tx' : TxBuffer) : (c.withTx tx').Writing tx' :=
  ⟨h.isOpen, rfl, h.slot⟩

theorem Writing.bufferWrites (h : c.Writing tx) (ops : List Op) :
    c.bufferWrites self tx ops = (.ok, c.withTx (tx.writeAll ops)) := by
  unfold Conn.bufferWrites ensureWriteSlot
  rw [h.slot]
  rfl

theorem Writing.self_eq (h : c.Writing tx) : c.withTx tx = c := by
  unfold Conn.withTx
  rw [← h.inTx]

/-- **A request in a transaction** adds its operations to the buffer, and nothing else. -/
theorem Writing.serve_state (h : c.Writing tx) {r : Request} (hr : r.isData = true) :
    (serve self r c).2 = c.withTx (tx.writeAll r.ops) := by
  have hopen : (!c.store.isOpen) = false := by rw [h.isOpen]; rfl
  cases r with
  | put key value =>
    show (c.put self key value).2 = _
    simp only [Conn.put, hopen, h.inTx, h.bufferWrites]
    rfl
  | remove key =>
    show (c.remove self key).2 = _
    simp only [Conn.remove, hopen, h.inTx, h.bufferWrites]
    rfl
  | writeBatch batch =>
    show (c.writeBatch self batch).2 = _
    simp only [Conn.writeBatch, hopen, h.inTx, h.bufferWrites, Bool.false_eq_true, if_false]
    split_ifs with hempty
    · rw [show (Request.writeBatch batch).ops = [] from hempty.2]
      exact h.self_eq.symm
    · rfl
  | isOpen | get | existsKey | scan => exact h.self_eq.symm
  | _ => simp [Request.isData, Request.isRead, Request.isLookup] at hr

theorem Writing.serve_answer (h : c.Writing tx) (hwf : c.Wf) {r : Request} (hr : r.isData = true)
    (hscan : ∀ range, r = .scan range → c.ShownAlike range) :
    (serve self r c).1 = (Data.serve r c.content).1 := by
  have hopen : (!c.store.isOpen) = false := by rw [h.isOpen]; rfl
  cases r with
  | put key value =>
    show (c.put self key value).1 = _
    simp only [Conn.put, hopen, h.inTx, h.bufferWrites]
    rfl
  | remove key =>
    show (c.remove self key).1 = _
    simp only [Conn.remove, hopen, h.inTx, h.bufferWrites]
    rfl
  | writeBatch batch =>
    show (c.writeBatch self batch).1 = _
    simp only [Conn.writeBatch, hopen, h.inTx, h.bufferWrites, Bool.false_eq_true, if_false]
    split <;> rfl
  | _ => exact serve_read_eq h.isOpen hwf self hr hscan

theorem wf_withTx (hwf : c.Wf) (htx : c.engine.tx = some tx) (ops : List Op) :
    (c.withTx (tx.writeAll ops)).Wf := by
  intro tx' htx'
  cases htx'
  rw [TxBuffer.log_writeAll]
  have h := hwf tx htx
  unfold TxBuffer.writeAll at h ⊢
  rw [List.foldl_append, ← h]

theorem content_withTx (htx : c.engine.tx = some tx) (ops : List Op) :
    (c.withTx (tx.writeAll ops)).content = applyOps ops c.content := by
  unfold content
  rw [htx]
  show applyOps (tx.writeAll ops).log c.base = _
  rw [TxBuffer.log_writeAll, applyOps_append]

end Writes

/-! ## Whole programs -/

/-- A scan shows what point reads find: no row is hidden by a range delete alone or lost below. -/
def HonestScan (r : Request) (c : Conn) : Prop := ∀ range, r = .scan range → c.ShownAlike range

/-- The requests a body may make. -/
def Honest (r : Request) (c : Conn) : Prop := r.isData = true ∧ HonestScan r c

/-- **A body in a transaction** does what it does to the content. -/
theorem run_body {A : Type} {self : ConnId} {m : Access A} {c : Conn} {tx : TxBuffer}
    (hwriting : c.Writing tx) (hwf : c.Wf) (hm : Interaction.Meets (serve self) Honest m c) :
    (m.run (serve self) c).1 = (m.run Data.serve c.content).1 ∧
      ∃ ops, (m.run (serve self) c).2 = c.withTx (tx.writeAll ops) ∧
        (m.run Data.serve c.content).2 = applyOps ops c.content := by
  let rel (c' : Conn) (data : Data) : Prop :=
    ∃ ops, c' = c.withTx (tx.writeAll ops) ∧ data = applyOps ops c.content
  have hstep : ∀ r c' data, rel c' data → Honest r c' →
      (serve self r c').1 = (Data.serve r data).1 ∧ rel (serve self r c').2 (Data.serve r data).2 := by
    rintro r c' data ⟨ops, rfl, rfl⟩ ⟨hr, hscan⟩
    have hw := hwriting.withTx (tx.writeAll ops)
    refine ⟨?_, ops ++ r.ops, ?_, ?_⟩
    · rw [hw.serve_answer (wf_withTx hwf hwriting.inTx ops) hr hscan, content_withTx hwriting.inTx]
    · rw [hw.serve_state hr]
      unfold TxBuffer.writeAll
      rw [List.foldl_append]
      rfl
    · rw [Data.serve_state, applyOps_append]
  exact Interaction.run_simulate hstep ⟨[], hwriting.self_eq.symm, rfl⟩ hm

/-- Without deletes of ranges every scan over the mock store is honest. -/
theorem meets_honestScan {A : Type} {self : ConnId} {m : Access A} {c : Conn} {tx : TxBuffer}
    (hwriting : c.Writing tx) (hmock : c.store.backend = .mock) (hranges : tx.rangeDeletes = [])
    (hm : m.Asks fun r => r.isPoint = true) : Interaction.Meets (serve self) HonestScan m c := by
  induction m generalizing c tx with
  | done a => trivial
  | ask r next ih =>
    obtain ⟨hdata, hpoint⟩ := Bool.and_eq_true_iff.mp hm.1
    refine ⟨fun range _ k _ _ hbare => iff_of_true ?_ fun h => ?_, ?_⟩
    · unfold overlay
      rw [hwriting.inTx]
      exact TxBuffer.lookup_of_noRanges hranges (hbare tx hwriting.inTx)
    · rw [hmock] at h
      cases h
    · have hnext := ih (serve self r c).1 (hwriting.withTx (tx.writeAll r.ops)) hmock
        (by
          rw [TxBuffer.rangeDeletes_writeAll fun op hop => by simpa using List.all_eq_true.mp hpoint op hop]
          exact hranges) (hm.2 _)
      rw [hwriting.serve_state hdata]
      exact hnext

/-- **A program that only looks up keys** sees the content, and changes nothing. -/
theorem run_lookups {A : Type} {self : ConnId} {m : Access A} {c : Conn}
    (hopen : c.store.isOpen = true) (hwf : c.Wf) (hm : m.Asks fun r => r.isLookup = true) :
    m.run (serve self) c = ((m.run Data.serve c.content).1, c) ∧
      (m.run Data.serve c.content).2 = c.content := by
  induction m with
  | done a => exact ⟨rfl, rfl⟩
  | ask r next ih =>
    obtain ⟨hr, hnext⟩ := hm
    have hread : r.isRead = true := by cases r <;> simp_all [Request.isRead, Request.isLookup]
    have hdata : (Data.serve r c.content).2 = c.content := by
      cases r <;> first | rfl | simp [Request.isLookup] at hr
    have hanswer : (serve self r c).1 = (Data.serve r c.content).1 :=
      serve_read_eq hopen hwf self hread fun range h => by
        rw [h] at hr
        simp [Request.isLookup] at hr
    have h := ih (Data.serve r c.content).1 (hnext _)
    show (Interaction.run (serve self) (next (serve self r c).1) (serve self r c).2 = _) ∧ _
    rw [serve_read self hread, hanswer, h.1]
    show _ ∧ (Interaction.run Data.serve (next (Data.serve r c.content).1)
      (Data.serve r c.content).2).2 = _
    refine ⟨?_, ?_⟩
    · show _ = ((Interaction.run Data.serve (next (Data.serve r c.content).1)
        (Data.serve r c.content).2).1, c)
      rw [hdata]
    · rw [hdata]
      exact h.2

end Conn

end SqlDb.Kv
