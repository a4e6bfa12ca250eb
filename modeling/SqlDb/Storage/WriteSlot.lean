/-
  THE WRITE SLOT  (storage/mock_engine/mock_engine.cpp, storage/leveldb_engine/leveldb_engine.cpp).

  Any number of connections work on one open store, in any order.  `Conn.Step` says once what a call
  can do to its connection and to the store; everything below is derived from it.

  The slot is recorded on the connection (`writeSlot`) and on the store (`writeOwner`).  The two stay
  in step — `SingleWriter` — EXACTLY as long as no connection writes outside a transaction while it
  holds the slot: such a write gives the slot back when it is done, and the connection does not
  notice (`single_writer`).

  Even then a connection may change the committed content while another one holds the slot: by
  committing a buffer after it has given its slot away.  Without that (`ReleasesWrites`), what is
  committed changes only through the holder of the slot (`data_of_held`).
-/
import SqlDb.Storage.Connection

namespace SqlDb.Kv

/-- The calls that change a connection or the store. -/
inductive Call
  | beginTransaction
  | put (key value : Bytes)
  | remove (key : Bytes)
  | writeBatch (batch : WriteBatch)
  | acquireWriteSlot
  | releaseWriteSlot
  | commitTransaction
  | rollbackTransaction
deriving DecidableEq

/-- The call writes when it is made outside a transaction. -/
def Call.writes : Call → Bool
  | .put _ _ => true
  | .remove _ => true
  | .writeBatch batch => !batch.isEmpty
  | _ => false

namespace Conn

def call (c : Conn) (self : ConnId) : Call → Status × Conn
  | .beginTransaction => c.beginTransaction
  | .put key value => c.put self key value
  | .remove key => c.remove self key
  | .writeBatch batch => c.writeBatch self batch
  | .acquireWriteSlot => c.acquireWriteSlot self
  | .releaseWriteSlot => (.ok, c.releaseWriteSlot self)
  | .commitTransaction => c.commitTransaction self
  | .rollbackTransaction => c.rollbackTransaction self

/-! ## What a call can do -/

/-- The slot can be had. -/
def CanTake (c : Conn) (self : ConnId) : Prop :=
  c.engine.writeSlot = true ∨ c.store.writeOwner = none ∨ c.store.writeOwner = some self

/-- The connection with the slot; a snapshot goes when the slot is taken anew. -/
def take (c : Conn) (self : ConnId) : Conn :=
  if c.engine.writeSlot then c
  else ⟨{ c.store with writeOwner := some self },
    { c.engine with snapshot := none, writeSlot := true }⟩

/-- What one call can do: nothing, or one of the following. -/
inductive Step (self : ConnId) : Call → Conn → Conn → Prop
  | same (call : Call) (c : Conn) : Step self call c c
  | begin {c : Conn} (htx : c.engine.tx = none) : Step self .beginTransaction c
      { c with engine := { c.engine with tx := some {}, snapshot := some c.store.data } }
  | acquire {c : Conn} (hcan : c.CanTake self) : Step self .acquireWriteSlot c (c.take self)
  | release {c : Conn} : Step self .releaseWriteSlot c (c.releaseWriteSlot self)
  | buffer {call : Call} {c : Conn} {tx : TxBuffer} (htx : c.engine.tx = some tx)
      (hcan : c.CanTake self) (ops : List Op) : Step self call c
      { c.take self with engine := { (c.take self).engine with tx := some (tx.writeAll ops) } }
  | autoCommit {call : Call} {c : Conn} (hcall : call.writes = true) (htx : c.engine.tx = none)
      (howner : c.store.writeOwner = none ∨ c.store.writeOwner = some self) (data : Data) :
      Step self call c { c with store := { c.store with data := data, writeOwner := none } }
  | commit {c : Conn} {tx : TxBuffer} (htx : c.engine.tx = some tx) (data : Data)
      (hdata : tx.log = [] → data = c.store.data) :
      Step self .commitTransaction c (finish { c with store := { c.store with data := data } } self)
  | rollback {c : Conn} {tx : TxBuffer} (htx : c.engine.tx = some tx) :
      Step self .rollbackTransaction c (c.finish self)

section Steps

variable {c : Conn} {self : ConnId}

theorem acquire_cases (s : SharedStore) (self : ConnId) :
    (∃ status, status ≠ .ok ∧ s.acquireWriteSlot self = (status, s)) ∨
      ((s.writeOwner = none ∨ s.writeOwner = some self) ∧
        s.acquireWriteSlot self = (.ok, { s with writeOwner := some self })) := by
  unfold SharedStore.acquireWriteSlot
  split_ifs with _ h
  · exact Or.inl ⟨_, by simp, rfl⟩
  · exact Or.inl ⟨_, by simp, rfl⟩
  · refine Or.inr ⟨?_, rfl⟩
    by_cases hnone : s.writeOwner = none
    · exact Or.inl hnone
    · exact Or.inr (by_contra fun hself => h ⟨hnone, hself⟩)

theorem acquireWriteSlot_cases (c : Conn) (self : ConnId) :
    (∃ status, status ≠ .ok ∧ c.acquireWriteSlot self = (status, c)) ∨
      (c.CanTake self ∧ c.acquireWriteSlot self = (.ok, c.take self)) := by
  unfold acquireWriteSlot
  split_ifs with hslot
  · exact Or.inr ⟨Or.inl hslot, by rw [take, if_pos hslot]⟩
  · exact Or.inl ⟨_, by simp, rfl⟩
  · rcases acquire_cases c.store self with ⟨status, hne, hfail⟩ | ⟨howner, hok⟩
    · rw [hfail]
      cases status with
      | ok => exact absurd rfl hne
      | _ => exact Or.inl ⟨_, hne, rfl⟩
    · refine Or.inr ⟨Or.inr howner, ?_⟩
      rw [hok, take, if_neg hslot]

theorem ensureWriteSlot_eq (c : Conn) (self : ConnId) :
    c.ensureWriteSlot self = c.acquireWriteSlot self := by
  unfold ensureWriteSlot acquireWriteSlot
  split <;> rfl

theorem step_bufferWrites {call : Call} {tx : TxBuffer} (htx : c.engine.tx = some tx)
    (ops : List Op) : Step self call c (c.bufferWrites self tx ops).2 := by
  unfold bufferWrites
  rw [ensureWriteSlot_eq]
  rcases acquireWriteSlot_cases c self with ⟨status, hne, hfail⟩ | ⟨hcan, hok⟩
  · rw [hfail]
    cases status with
    | ok => exact absurd rfl hne
    | _ => exact .same call c
  · rw [hok]
    exact .buffer htx hcan ops

/-- A write of the store changes its content only. -/
def WritesData (write : SharedStore → Status × SharedStore) : Prop :=
  ∀ s, ∃ data, (write s).2 = { s with data := data }

theorem step_autoCommit {call : Call} (hcall : call.writes = true) (htx : c.engine.tx = none)
    {write : SharedStore → Status × SharedStore} (hwrite : WritesData write) :
    Step self call c (c.autoCommit self write).2 := by
  unfold autoCommit
  rcases acquire_cases c.store self with ⟨status, hne, hfail⟩ | ⟨howner, hok⟩
  · rw [hfail]
    cases status with
    | ok => exact absurd rfl hne
    | _ => exact .same call c
  · rw [hok]
    obtain ⟨data, hdata⟩ := hwrite { c.store with writeOwner := some self }
    have hrel : ((write { c.store with writeOwner := some self }).2.releaseWriteSlot self).2
        = { c.store with data := data, writeOwner := none } := by
      rw [hdata]
      simp [SharedStore.releaseWriteSlot]
    show Step self call c { c with store := (SharedStore.releaseWriteSlot _ self).2 }
    rw [hrel]
    exact .autoCommit hcall htx howner data

theorem writesData_put (key value : Bytes) : WritesData fun s => s.put key value := by
  intro s
  dsimp only
  unfold SharedStore.put
  split_ifs
  · exact ⟨s.data, rfl⟩
  · exact ⟨s.data, rfl⟩
  · exact ⟨_, rfl⟩

theorem writesData_remove (key : Bytes) : WritesData fun s => s.remove key := by
  intro s
  dsimp only
  unfold SharedStore.remove
  split_ifs
  · exact ⟨s.data, rfl⟩
  · exact ⟨s.data, rfl⟩
  · exact ⟨s.data, rfl⟩
  · exact ⟨_, rfl⟩

theorem writesData_writeBatch (batch : WriteBatch) : WritesData fun s => s.writeBatch batch := by
  intro s
  dsimp only
  unfold SharedStore.writeBatch
  split
  · exact ⟨_, rfl⟩
  · split_ifs
    · exact ⟨s.data, rfl⟩
    · exact ⟨s.data, rfl⟩
    · exact ⟨_, rfl⟩

/-- An empty batch changes nothing, and a batch that fails neither. -/
theorem writeBatch_data {s : SharedStore} {batch : WriteBatch}
    (h : batch = [] ∨ (s.writeBatch batch).1 ≠ .ok) : (s.writeBatch batch).2.data = s.data := by
  obtain ⟨backend, data, isOpen, failWrites, owner⟩ := s
  cases backend with
  | mock =>
    simp only [SharedStore.writeBatch, MockStore.writeBatch] at h ⊢
    split_ifs
    · rfl
    · rfl
    · rfl
    · rename_i h1 h2 h3
      rw [if_neg h1, if_neg h2, if_neg h3] at h
      rw [h.resolve_right (by simp)]
      rfl
  | levelDb =>
    simp only [SharedStore.writeBatch, LevelDbStore.applyBatchLocked] at h ⊢
    split
    · rfl
    · split
      · rfl
      · rename_i h1 h2
        rw [if_neg h1, if_neg h2, if_neg h1] at h
        split_ifs
        · rfl
        · rfl
        · rename_i h3 h4
          rw [if_neg h3, if_neg h4] at h
          rw [h.resolve_right (by simp)] at h2
          simp at h2

theorem step_commit : Step self .commitTransaction c (c.commitTransaction self).2 := by
  unfold commitTransaction
  split
  · exact .same _ c
  · split
    · exact .same _ c
    · rename_i tx htx
      split
      · exact .same _ c
      · obtain ⟨data, hdata⟩ : ∃ data, (c.store.writeBatch tx.toBatch).2
            = { c.store with data := data } := writesData_writeBatch tx.toBatch c.store
        have hfail : tx.toBatch = [] ∨ (c.store.writeBatch tx.toBatch).1 ≠ .ok → _ :=
          writeBatch_data
        rw [hdata] at hfail
        generalize c.store.writeBatch tx.toBatch = r at hdata hfail
        obtain ⟨status, store⟩ := r
        cases hdata
        cases status with
        | ok => exact .commit htx data fun hnil => hfail (Or.inl hnil)
        | _ =>
          rw [show data = c.store.data from hfail (Or.inr (by simp))]
          exact .same _ c

/-- **What a call can do**, whatever it returns. -/
theorem step_call (c : Conn) (self : ConnId) (call : Call) :
    Step self call c (c.call self call).2 := by
  cases call with
  | beginTransaction =>
    simp only [Conn.call, beginTransaction]
    split_ifs with _ htx
    · exact .same _ c
    · exact .same _ c
    · exact .begin (by simpa using htx)
  | put key value =>
    simp only [Conn.call, put]
    split
    · exact .same _ c
    · split
      · rename_i tx htx
        exact step_bufferWrites htx _
      · rename_i htx
        exact step_autoCommit rfl htx (writesData_put key value)
  | remove key =>
    simp only [Conn.call, remove]
    split
    · exact .same _ c
    · split
      · rename_i tx htx
        exact step_bufferWrites htx _
      · rename_i htx
        exact step_autoCommit rfl htx (writesData_remove key)
  | writeBatch batch =>
    simp only [Conn.call, writeBatch]
    split
    · exact .same _ c
    · split
      · rename_i tx htx
        split
        · exact .same _ c
        · exact step_bufferWrites htx _
      · rename_i htx
        split_ifs with hne
        · exact .same _ c
        · exact step_autoCommit (by simpa [Call.writes] using hne) htx (writesData_writeBatch batch)
  | acquireWriteSlot =>
    show Step self _ c (c.acquireWriteSlot self).2
    rcases acquireWriteSlot_cases c self with ⟨status, -, hfail⟩ | ⟨hcan, hok⟩
    · rw [hfail]
      exact .same _ c
    · rw [hok]
      exact .acquire hcan
  | releaseWriteSlot => exact .release
  | commitTransaction => exact step_commit
  | rollbackTransaction =>
    simp only [Conn.call, rollbackTransaction]
    split
    · exact .same _ c
    · split
      · exact .same _ c
      · rename_i tx htx
        exact .rollback htx

end Steps

/-! ## One connection's step -/

/-- What the connection may believe about the slot. -/
def Owns (c : Conn) (self : ConnId) : Prop :=
  c.engine.writeSlot = true → c.store.writeOwner = some self

/-- Whoever has buffered writes holds the slot. -/
def HoldsForWrites (c : Conn) : Prop :=
  ∀ tx, c.engine.tx = some tx → tx.log ≠ [] → c.engine.writeSlot = true

section Inversion

variable {c c' : Conn} {self other : ConnId} {call : Call}

theorem take_slot (c : Conn) (self : ConnId) : (c.take self).engine.writeSlot = true := by
  unfold take
  split
  · assumption
  · rfl

theorem take_tx (c : Conn) (self : ConnId) : (c.take self).engine.tx = c.engine.tx := by
  unfold take
  split <;> rfl

theorem take_store (c : Conn) (self : ConnId) :
    (c.take self).store.isOpen = c.store.isOpen ∧ (c.take self).store.data = c.store.data := by
  unfold take
  split <;> exact ⟨rfl, rfl⟩

theorem take_owner (h : c.Owns self) : (c.take self).store.writeOwner = some self := by
  unfold take
  split
  · exact h ‹_›
  · rfl

/-- The slot cannot be had while another connection owns it. -/
theorem not_canTake (h : c.Owns self) (hne : other ≠ self)
    (hother : c.store.writeOwner = some other) : ¬ c.CanTake self := by
  rintro (hslot | hnone | hself)
  · exact hne (Option.some.inj (hother.symm.trans (h hslot)))
  · simp [hother] at hnone
  · exact hne (Option.some.inj (hother.symm.trans hself))

theorem releaseWriteSlot_slot (c : Conn) (self : ConnId) :
    (c.releaseWriteSlot self).engine.writeSlot = false := by
  unfold releaseWriteSlot
  split
  · simpa using ‹(!c.engine.writeSlot) = true›
  · rfl

theorem releaseWriteSlot_store (c : Conn) (self : ConnId) :
    (c.releaseWriteSlot self).store.isOpen = c.store.isOpen ∧
      (c.releaseWriteSlot self).store.data = c.store.data := by
  unfold releaseWriteSlot SharedStore.releaseWriteSlot
  split
  · exact ⟨rfl, rfl⟩
  · split <;> exact ⟨rfl, rfl⟩

theorem releaseWriteSlot_tx (c : Conn) (self : ConnId) :
    (c.releaseWriteSlot self).engine.tx = c.engine.tx := by
  unfold releaseWriteSlot
  split <;> rfl

/-- Only its owner gives the slot back. -/
theorem releaseWriteSlot_owner (hne : other ≠ self) (hother : c.store.writeOwner = some other) :
    (c.releaseWriteSlot self).store.writeOwner = some other := by
  unfold releaseWriteSlot SharedStore.releaseWriteSlot
  split
  · exact hother
  · have h : c.store.writeOwner ≠ some self := by
      rw [hother]
      exact fun h => hne (Option.some.inj h)
    rw [if_pos h]
    exact hother

theorem Step.isOpen (h : Step self call c c') : c'.store.isOpen = c.store.isOpen := by
  cases h with
  | same | begin | autoCommit => rfl
  | acquire | buffer => exact (c.take_store self).1
  | release | commit | rollback => exact (releaseWriteSlot_store _ self).1

/-- A connection goes on owning the slot it believes to hold — unless it writes outside a
    transaction while it holds it. -/
theorem Step.owns (h : Step self call c c') (hc : c.Owns self)
    (hok : call.writes = true → c.engine.tx = none → c.engine.writeSlot = false) :
    c'.Owns self := by
  cases h with
  | same | begin => exact hc
  | acquire | buffer => exact fun _ => take_owner hc
  | release =>
    intro hslot
    rw [releaseWriteSlot_slot] at hslot
    simp at hslot
  | autoCommit hcall htx howner data =>
    intro hslot
    rw [show c.engine.writeSlot = true from hslot] at hok
    exact absurd (hok hcall htx) (by simp)
  | commit | rollback =>
    intro hslot
    rw [finish, releaseWriteSlot_slot] at hslot
    simp at hslot

/-- No connection takes the slot away from another. -/
theorem Step.other_owner (h : Step self call c c') (hc : c.Owns self) (hne : other ≠ self)
    (hother : c.store.writeOwner = some other) : c'.store.writeOwner = some other := by
  cases h with
  | same | begin => exact hother
  | acquire hcan | buffer htx hcan ops => exact absurd hcan (not_canTake hc hne hother)
  | release | commit | rollback => exact releaseWriteSlot_owner hne hother
  | autoCommit hcall htx howner data => exact absurd (Or.inr howner) (not_canTake hc hne hother)

theorem Step.holdsForWrites (h : Step self call c c') (hc : c.HoldsForWrites)
    (hok : call = .releaseWriteSlot → ∀ tx, c.engine.tx = some tx → c.engine.writeSlot = true →
      tx.log = []) : c'.HoldsForWrites := by
  intro tx htx' hlog
  cases h with
  | same | autoCommit => exact hc tx htx' hlog
  | begin htx =>
    cases htx'
    exact absurd rfl hlog
  | acquire | buffer => exact take_slot c self
  | release =>
    rw [releaseWriteSlot_tx] at htx'
    exact absurd (hok rfl tx htx' (hc tx htx' hlog)) hlog
  | commit | rollback =>
    rw [finish, releaseWriteSlot_tx] at htx'
    simp at htx'

/-- What is committed does not change while another connection owns the slot. -/
theorem Step.data (h : Step self call c c') (hc : c.Owns self) (hw : c.HoldsForWrites)
    (hne : other ≠ self) (hother : c.store.writeOwner = some other) :
    c'.store.data = c.store.data := by
  cases h with
  | same | begin => rfl
  | acquire | buffer => exact (c.take_store self).2
  | release | rollback => exact (releaseWriteSlot_store _ self).2
  | autoCommit hcall htx howner data => exact absurd (Or.inr howner) (not_canTake hc hne hother)
  | commit htx data hdata =>
    rename_i tx
    -- a buffer with writes would need the slot
    refine (releaseWriteSlot_store _ self).2.trans (hdata (by_contra fun hlog => ?_))
    exact not_canTake hc hne hother (Or.inl (hw tx htx hlog))

/-- A write outside a transaction leaves the slot free, whoever made it. -/
theorem autoCommit_owner (hopen : c.store.isOpen = true)
    (howner : c.store.writeOwner = some self) {write : SharedStore → Status × SharedStore}
    (hwrite : WritesData write) :
    (c.autoCommit self write).2.store.writeOwner = none ∧
      (c.autoCommit self write).2.engine = c.engine := by
  have hok : c.store.acquireWriteSlot self = (.ok, { c.store with writeOwner := some self }) := by
    simp [SharedStore.acquireWriteSlot, hopen, howner]
  unfold autoCommit
  rw [hok]
  obtain ⟨data, hdata⟩ := hwrite { c.store with writeOwner := some self }
  dsimp only
  rw [hdata]
  simp [SharedStore.releaseWriteSlot]

theorem call_owner (hopen : c.store.isOpen = true) (hcall : call.writes = true)
    (htx : c.engine.tx = none) (howner : c.store.writeOwner = some self) :
    (c.call self call).2.store.writeOwner = none ∧ (c.call self call).2.engine = c.engine := by
  cases call with
  | put key value =>
    simp only [Conn.call, put, hopen, htx]
    exact autoCommit_owner hopen howner (writesData_put key value)
  | remove key =>
    simp only [Conn.call, remove, hopen, htx]
    exact autoCommit_owner hopen howner (writesData_remove key)
  | writeBatch batch =>
    have hne : batch ≠ [] := by simpa [Call.writes] using hcall
    simp only [Conn.call, writeBatch, hopen, htx, hne]
    exact autoCommit_owner hopen howner (writesData_writeBatch batch)
  | _ => simp [Call.writes] at hcall

end Inversion

end Conn

/-! ## Any number of connections -/

/-- A store and the connections to it, in the order they were made. -/
structure Database where
  store : SharedStore
  engines : List Engine := []

inductive Action
  | connect
  | call (conn : ConnId) (call : Call)

/-- The action is one of connection `i`. -/
def Action.isBy (i : ConnId) : Action → Prop
  | .connect => False
  | .call j _ => j = i

namespace Database

/-- A store that has just been opened. -/
def opened (backend : Backend) (data : Data) (failWrites : Bool) : Database :=
  { store := { backend := backend, data := data, failWrites := failWrites } }

/-- A call of a connection that does not exist is no call. -/
def step (db : Database) : Action → Database
  | .connect => { db with engines := db.engines ++ [{}] }
  | .call i call =>
    match db.engines[i]? with
    | none => db
    | some e =>
      let c := (Conn.call ⟨db.store, e⟩ i call).2
      ⟨c.store, db.engines.set i c.engine⟩

def run (db : Database) (actions : List Action) : Database := actions.foldl step db

/-- Connection `i` takes itself for the holder of the slot. -/
def Holds (db : Database) (i : ConnId) : Prop := ∃ e, db.engines[i]? = some e ∧ e.writeSlot = true

/-- At most one connection holds the slot, and it is the store's owner. -/
def SingleWriter (db : Database) : Prop :=
  (∀ i j, db.Holds i → db.Holds j → i = j) ∧ ∀ i, db.Holds i → db.store.writeOwner = some i

/-- A connection writes outside a transaction while it holds the slot. -/
def WritesWhileHolding (db : Database) : Action → Prop
  | .connect => False
  | .call i call => call.writes = true ∧
      ∃ e, db.engines[i]? = some e ∧ e.tx = none ∧ e.writeSlot = true

/-- A connection gives the slot back while its transaction has writes to commit. -/
def ReleasesWrites (db : Database) : Action → Prop
  | .call i .releaseWriteSlot =>
      ∃ e tx, db.engines[i]? = some e ∧ e.tx = some tx ∧ e.writeSlot = true ∧ tx.log ≠ []
  | _ => False

variable {db : Database}

theorem step_call {i : ConnId} {e : Engine} (he : db.engines[i]? = some e)
    (call : Call) : db.step (.call i call) = ⟨(Conn.call ⟨db.store, e⟩ i call).2.store,
      db.engines.set i (Conn.call ⟨db.store, e⟩ i call).2.engine⟩ := by
  simp only [step, he]

/-- **What an action can do.** -/
theorem step_cases (db : Database) (a : Action) :
    (db.step a = db) ∨ (a = .connect ∧ db.step a = { db with engines := db.engines ++ [{}] }) ∨
      ∃ i call e c, a = .call i call ∧ db.engines[i]? = some e ∧ Conn.Step i call ⟨db.store, e⟩ c ∧
        db.step a = ⟨c.store, db.engines.set i c.engine⟩ := by
  cases a with
  | connect => exact Or.inr (Or.inl ⟨rfl, rfl⟩)
  | call i call =>
    cases he : db.engines[i]? with
    | none => exact Or.inl (by simp only [step, he])
    | some e =>
      exact Or.inr (Or.inr ⟨i, call, e, _, rfl, he, Conn.step_call _ i call, step_call he call⟩)

/-- The connections after a call: the caller's new state, and the others as they were. -/
theorem getElem?_set_cases {engines : List Engine} {i j : ConnId} {e f : Engine}
    (hj : (engines.set i e)[j]? = some f) :
    (j = i ∧ f = e) ∨ (j ≠ i ∧ engines[j]? = some f) := by
  rw [List.getElem?_set] at hj
  split at hj
  · rename_i hij
    split at hj
    · exact Or.inl ⟨hij.symm, (Option.some.inj hj).symm⟩
    · simp at hj
  · rename_i hij
    exact Or.inr ⟨fun h => hij h.symm, hj⟩

/-- Every connection that believes to hold the slot owns it. -/
def OwnsSlot (db : Database) : Prop :=
  ∀ i e, db.engines[i]? = some e → Conn.Owns ⟨db.store, e⟩ i

theorem singleWriter_iff : db.SingleWriter ↔ db.OwnsSlot := by
  constructor
  · rintro ⟨-, h⟩ i e he hslot
    exact h i ⟨e, he, hslot⟩
  · intro h
    have howner : ∀ i, db.Holds i → db.store.writeOwner = some i := fun i ⟨e, he, hslot⟩ =>
      h i e he hslot
    exact ⟨fun i j hi hj => Option.some.inj ((howner i hi).symm.trans (howner j hj)), howner⟩

variable {a : Action}

theorem ownsSlot_step (h : db.OwnsSlot)
    (hok : ¬ db.WritesWhileHolding a) : (db.step a).OwnsSlot := by
  rcases db.step_cases a with hs | ⟨-, hs⟩ | ⟨i, call, e, c, rfl, he, hstep, hs⟩
  · rwa [hs]
  · rw [hs]
    intro j f hf hslot
    rcases getElem?_snoc.mp hf with hf | ⟨-, rfl⟩
    · exact h j f hf hslot
    · simp at hslot
  · rw [hs]
    intro j f hf
    rcases getElem?_set_cases hf with ⟨rfl, rfl⟩ | ⟨hji, hf⟩
    · refine hstep.owns (h j e he) fun hcall htx => ?_
      cases hslot : e.writeSlot with
      | false => rfl
      | true => exact absurd ⟨hcall, e, he, htx, hslot⟩ hok
    · exact fun hslot => hstep.other_owner (h i e he) hji (h j f hf hslot)

/-- A write outside a transaction while holding breaks the agreement of the two records. -/
theorem not_ownsSlot_step (hopen : db.store.isOpen = true) (h : db.OwnsSlot)
    (hbad : db.WritesWhileHolding a) : ¬ (db.step a).OwnsSlot := by
  cases a with
  | connect => exact absurd hbad id
  | call i call =>
    obtain ⟨hcall, e, he, htx, hslot⟩ := hbad
    obtain ⟨hnone, hengine⟩ := Conn.call_owner (c := ⟨db.store, e⟩) hopen hcall htx
      (h i e he hslot)
    rw [step_call he, hengine]
    intro hnew
    have hi : i < db.engines.length := lt_of_getElem? he
    have := hnew i e (by simp [hi]) hslot
    rw [show (Conn.call ⟨db.store, e⟩ i call).2.store.writeOwner = none from hnone] at this
    simp at this

theorem isOpen_step (db : Database) (a : Action) :
    (db.step a).store.isOpen = db.store.isOpen := by
  rcases db.step_cases a with hs | ⟨-, hs⟩ | ⟨i, call, e, c, rfl, he, hstep, hs⟩
  · rw [hs]
  · rw [hs]
  · rw [hs]
    exact hstep.isOpen

/-- Whoever has buffered writes holds the slot. -/
def WritersHold (db : Database) : Prop :=
  ∀ (i : ConnId) e, db.engines[i]? = some e → Conn.HoldsForWrites ⟨db.store, e⟩

theorem writersHold_step (h : db.WritersHold)
    (hok : ¬ db.ReleasesWrites a) : (db.step a).WritersHold := by
  rcases db.step_cases a with hs | ⟨-, hs⟩ | ⟨i, call, e, c, rfl, he, hstep, hs⟩
  · rwa [hs]
  · rw [hs]
    intro j f hf tx htx hlog
    rcases getElem?_snoc.mp hf with hf | ⟨-, rfl⟩
    · exact h j f hf tx htx hlog
    · simp at htx
  · rw [hs]
    intro j f hf
    rcases getElem?_set_cases hf with ⟨rfl, rfl⟩ | ⟨-, hf⟩
    · refine hstep.holdsForWrites (h j e he) ?_
      rintro rfl tx htx hslot
      exact by_contra fun hlog => hok ⟨e, tx, he, htx, hslot, hlog⟩
    · exact h j f hf

/-- What is committed does not change while another connection holds the slot. -/
theorem data_of_held (howns : db.OwnsSlot) (hw : db.WritersHold) {j : ConnId}
    (hj : db.Holds j) (ha : ¬ a.isBy j) : (db.step a).store.data = db.store.data := by
  rcases db.step_cases a with hs | ⟨-, hs⟩ | ⟨i, call, e, c, rfl, he, hstep, hs⟩
  · rw [hs]
  · rw [hs]
  · rw [hs]
    obtain ⟨f, hf, hslot⟩ := hj
    exact hstep.data (howns i e he) (hw i e he) (fun h => ha h.symm) (howns j f hf hslot)

/-! ## Whole runs -/

variable {actions : List Action}

theorem run_take_succ (db : Database) {i : Nat} (h : actions[i]? = some a) :
    db.run (actions.take (i + 1)) = (db.run (actions.take i)).step a := by
  unfold run
  rw [List.take_add_one, h]
  simp

theorem run_take_end (db : Database) {i : Nat} (h : actions[i]? = none) :
    db.run (actions.take (i + 1)) = db.run (actions.take i) := by
  rw [List.take_add_one, h]
  simp

/-- Induction over the states of a run. -/
theorem run_rule {P : Database → Prop} (hinit : P db)
    (hstep : ∀ i a, actions[i]? = some a → P (db.run (actions.take i)) →
      P ((db.run (actions.take i)).step a)) (i : Nat) : P (db.run (actions.take i)) := by
  induction i with
  | zero => simpa [run] using hinit
  | succ i ih =>
    cases h : actions[i]? with
    | none => rwa [run_take_end db h]
    | some a =>
      rw [run_take_succ db h]
      exact hstep i a h ih

variable (backend : Backend) (data : Data) (failWrites : Bool) (actions : List Action)

/-- The state after the first `i` actions on a store that has just been opened. -/
def stateAt (i : Nat) : Database := (opened backend data failWrites).run (actions.take i)

theorem isOpen_at (i : Nat) : (stateAt backend data failWrites actions i).store.isOpen = true :=
  run_rule (P := fun db => db.store.isOpen = true) rfl
    (fun _ _ _ h => (isOpen_step _ _).trans h) i

theorem ownsSlot_at (hok : ∀ i a, actions[i]? = some a →
      ¬ (stateAt backend data failWrites actions i).WritesWhileHolding a)
    (i : Nat) : (stateAt backend data failWrites actions i).OwnsSlot :=
  run_rule (by simp [OwnsSlot, opened]) (fun i a ha h => ownsSlot_step h (hok i a ha)) i

theorem writersHold_at (hok : ∀ i a, actions[i]? = some a →
      ¬ (stateAt backend data failWrites actions i).ReleasesWrites a)
    (i : Nat) : (stateAt backend data failWrites actions i).WritersHold :=
  run_rule (by simp [WritersHold, opened]) (fun i a ha h => writersHold_step h (hok i a ha)) i

/-- **The single writer.**  In every run on an open store at most one connection holds the slot, and
    it is the store's owner, EXACTLY if no connection writes outside a transaction while it holds the
    slot.  If moreover no connection gives the slot back with writes to commit, what is committed
    does not change while another connection holds the slot. -/
theorem single_writer :
    ((∀ i, (stateAt backend data failWrites actions i).SingleWriter) ↔
      ∀ i a, actions[i]? = some a →
        ¬ (stateAt backend data failWrites actions i).WritesWhileHolding a) ∧
    ((∀ i a, actions[i]? = some a →
        ¬ (stateAt backend data failWrites actions i).WritesWhileHolding a ∧
        ¬ (stateAt backend data failWrites actions i).ReleasesWrites a) →
      ∀ i a j, actions[i]? = some a → (stateAt backend data failWrites actions i).Holds j →
        ¬ a.isBy j → (stateAt backend data failWrites actions (i + 1)).store.data
          = (stateAt backend data failWrites actions i).store.data) := by
  refine ⟨⟨fun h i a ha hbad => ?_, fun hok i => ?_⟩, fun hok i a j ha hj hne => ?_⟩
  · have hnext := singleWriter_iff.mp (h (i + 1))
    unfold stateAt at hnext
    rw [run_take_succ _ ha] at hnext
    exact not_ownsSlot_step (isOpen_at backend data failWrites actions i)
      (singleWriter_iff.mp (h i)) hbad hnext
  · exact singleWriter_iff.mpr (ownsSlot_at backend data failWrites actions hok i)
  · unfold stateAt
    rw [run_take_succ _ ha]
    exact data_of_held
      (ownsSlot_at backend data failWrites actions (fun i a ha => (hok i a ha).1) i)
      (writersHold_at backend data failWrites actions (fun i a ha => (hok i a ha).2) i) hj hne

/-- Two connections; the second has the slot and a buffered write, the first is turned away. -/
def twoWriters : List Action :=
  [.connect, .connect, .call 1 .beginTransaction, .call 1 (.put [2] [8]), .call 0 (.put [1] [7])]

theorem single_writer_busy : (stateAt .mock default false twoWriters 5).store.data = default := by
  have hok : ∀ i a, twoWriters[i]? = some a →
      ¬ (stateAt .mock default false twoWriters i).WritesWhileHolding a ∧
      ¬ (stateAt .mock default false twoWriters i).ReleasesWrites a := by
    intro i a ha
    match i with
    | 0 | 1 =>
      cases ha
      exact ⟨id, id⟩
    | 2 =>
      cases ha
      exact ⟨fun h => absurd h.1 (by decide), id⟩
    | 3 =>
      cases ha
      refine ⟨?_, id⟩
      rintro ⟨-, e, he, htx, -⟩
      cases he
      cases htx
    | 4 =>
      cases ha
      refine ⟨?_, id⟩
      rintro ⟨-, e, he, -, hslot⟩
      cases he
      cases hslot
  have hkeep := (single_writer .mock default false twoWriters).2 hok 4 (.call 0 (.put [1] [7])) 1 rfl
    ⟨_, rfl, rfl⟩ (by simp [Action.isBy])
  rw [hkeep]
  rfl

/-- A connection acquires the slot, writes outside a transaction, and a second one acquires the slot
    too. -/
def autoCommitWhileHolding : List Action :=
  [.connect, .connect, .call 0 .acquireWriteSlot, .call 0 (.put [1] [7]), .call 1 .acquireWriteSlot]

theorem two_holders : (stateAt .mock default false autoCommitWhileHolding 5).Holds 0 ∧
    (stateAt .mock default false autoCommitWhileHolding 5).Holds 1 ∧
    ¬ (stateAt .mock default false autoCommitWhileHolding 5).SingleWriter := by
  have h0 : (stateAt .mock default false autoCommitWhileHolding 5).Holds 0 := ⟨_, rfl, rfl⟩
  have h1 : (stateAt .mock default false autoCommitWhileHolding 5).Holds 1 := ⟨_, rfl, rfl⟩
  exact ⟨h0, h1, fun h => absurd (h.1 0 1 h0 h1) (by decide)⟩

end Database

end SqlDb.Kv
