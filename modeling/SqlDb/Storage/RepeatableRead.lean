/-
  REPEATABLE READS  (the transaction contract of storage/kv_engine/kv_engine.h).

  A transaction reads from the snapshot it took when it began.  Its first write takes the slot and
  DROPS the snapshot: from then on it reads what is committed, which nobody else can change while the
  slot is held.  Between the two there is a gap — what others committed after the transaction began
  and before it took the slot becomes visible at that moment.

  Hence a key the transaction has not written is read alike throughout EXACTLY if its committed value
  is still the snapshot's when the snapshot is dropped, and the scans over the key come to its row
  (`repeatable_read_iff`).  This is said for a run in which the slot does its work: nobody writes
  outside a transaction while holding it or gives it back with writes to commit, and the transaction
  keeps it to its end.

  The induction is on the actions of the run; `Held` — who has no snapshot has the slot — carries it.
-/
import SqlDb.Storage.WriteSlot

namespace SqlDb.Kv

/-- The ways to read a key. -/
inductive Read
  | get
  | existsKey
  | scan (range : KeyRange)

/-- The read finds `v` for the key; a scan says something about the keys of its range only. -/
def Conn.Finds (c : Conn) (key : Bytes) (v : Option Bytes) : Read → Prop
  | .get => c.get key = SharedStore.found v
  | .existsKey => c.existsKey key = v.isSome
  | .scan range => range.contains key = true →
      ∃ it rows, c.newIterator range = some it ∧ Yields it rows ∧ ∀ w, (key, w) ∈ rows ↔ v = some w

/-- The read comes to the row of the key, if there is one.  A scan over it may not, on leveldb. -/
def Conn.ReadReaches (c : Conn) (key : Bytes) : Read → Prop
  | .scan range => range.contains key = true → c.base.find key ≠ none → c.Reaches range
  | _ => True

theorem SharedStore.found_injective {a b : Option Bytes}
    (h : SharedStore.found a = SharedStore.found b) : a = b := by
  cases a <;> cases b <;> simp_all [SharedStore.found]

/-- Whatever way a key is read that the transaction has not written, it is the base that answers. -/
theorem Conn.finds_base_iff {c : Conn} {tx : TxBuffer} {key : Bytes} (hopen : c.store.isOpen = true)
    (htx : c.engine.tx = some tx) (hnone : tx.lookup key = .none) (r : Read) :
    c.Finds key (c.base.find key) r ↔ c.ReadReaches key r := by
  have hoverlay : c.overlay key = .none := by
    unfold overlay
    rw [htx]
    exact hnone
  have hvisible : c.visible key = c.base.find key := by
    unfold visible
    rw [hoverlay]
    rfl
  cases r with
  | get =>
    refine iff_of_true ?_ trivial
    show c.get key = _
    rw [get_eq hopen, hvisible]
  | existsKey =>
    refine iff_of_true ?_ trivial
    show c.existsKey key = _
    rw [existsKey_eq hopen, hvisible]
  | scan range =>
    refine forall_congr' fun hin => ?_
    have hbare : c.Unbuffered key := by
      by_contra h
      exact overlay_of_buffered h hoverlay
    obtain ⟨it, rows, hit, hrows, -, hmem⟩ := c.yields_newIterator hopen range
    have hrow : ∀ w, (key, w) ∈ rows ↔ c.Reaches range ∧ c.base.find key = some w := by
      intro w
      rw [hmem]
      simp [hin, hbare]
    constructor
    · rintro ⟨it', rows', hit', hrows', hfinds⟩ hbase
      rw [hit] at hit'
      cases hit'
      obtain ⟨w, hw⟩ := Option.ne_none_iff_exists'.mp hbase
      rw [← hrows.unique hrows'] at hfinds
      exact ((hrow w).mp ((hfinds w).mpr hw)).1
    · intro hreach
      refine ⟨it, rows, hit, hrows, fun w => (hrow w).trans ⟨And.right, fun hw => ⟨hreach ?_, hw⟩⟩⟩
      simp [hw]

theorem OverlayOp.onTop_eq_none {a b : OverlayOp} (h : a.onTop b = .none) : b = .none := by
  cases a with
  | none => exact h
  | value | tombstone => simp [OverlayOp.onTop] at h

/-- What is written stays written. -/
theorem TxBuffer.lookup_of_writeAll {tx : TxBuffer} {ops : List Op} {key : Bytes}
    (h : (tx.writeAll ops).lookup key = .none) : tx.lookup key = .none := by
  induction ops generalizing tx with
  | nil => exact h
  | cons op ops ih =>
    have hstep : (tx.write op).lookup key = .none := ih h
    rw [TxBuffer.lookup_write] at hstep
    exact OverlayOp.onTop_eq_none hstep

namespace Database

/-! ## One action inside a transaction -/

/-- What an action does to a connection whose transaction stays open over it: its buffer grows; and
    either its view of the store stays what it was, with nothing committed by others if it holds the
    slot, or it takes the slot, drops the snapshot and nothing is committed. -/
theorem tx_step {db : Database} (howns : db.OwnsSlot) (hw : db.WritersHold) {a : Action}
    {i : ConnId} {f f' : Engine} {tx tx' : TxBuffer} (hrel : a ≠ .call i .releaseWriteSlot)
    (hf : db.engines[i]? = some f) (htx : f.tx = some tx)
    (hf' : (db.step a).engines[i]? = some f') (htx' : f'.tx = some tx') :
    (∃ ops, tx' = tx.writeAll ops) ∧
      ((f'.snapshot = f.snapshot ∧ f'.writeSlot = f.writeSlot ∧
          (f.writeSlot = true → (db.step a).store.data = db.store.data)) ∨
        (f'.snapshot = none ∧ f'.writeSlot = true ∧ (db.step a).store.data = db.store.data)) := by
  have hsame : f' = f → (∃ ops, tx' = tx.writeAll ops) := by
    rintro rfl
    rw [htx] at htx'
    exact ⟨[], (Option.some.inj htx').symm⟩
  by_cases hby : a.isBy i
  · -- an action of the connection itself
    rcases db.step_cases a with hs | ⟨rfl, -⟩ | ⟨j, call, e, c, rfl, he, hstep, hs⟩
    · rw [hs] at hf'
      have hff : f' = f := Option.some.inj (hf'.symm.trans hf)
      exact ⟨hsame hff, Or.inl ⟨by rw [hff], by rw [hff], fun _ => by rw [hs]⟩⟩
    · exact absurd hby id
    · obtain rfl : j = i := hby
      obtain rfl : e = f := Option.some.inj (he.symm.trans hf)
      rw [hs] at hf' ⊢
      rcases getElem?_set_cases hf' with ⟨-, rfl⟩ | ⟨hne, -⟩
      swap
      · exact absurd rfl hne
      have htake : ((Conn.take ⟨db.store, e⟩ j).engine.snapshot = e.snapshot ∧
            (Conn.take ⟨db.store, e⟩ j).engine.writeSlot = e.writeSlot ∧
            (e.writeSlot = true → (Conn.take ⟨db.store, e⟩ j).store.data = db.store.data)) ∨
          ((Conn.take ⟨db.store, e⟩ j).engine.snapshot = none ∧
            (Conn.take ⟨db.store, e⟩ j).engine.writeSlot = true ∧
            (Conn.take ⟨db.store, e⟩ j).store.data = db.store.data) := by
        unfold Conn.take
        split
        · exact Or.inl ⟨rfl, rfl, fun _ => rfl⟩
        · exact Or.inr ⟨rfl, rfl, rfl⟩
      cases hstep with
      | same => exact ⟨hsame rfl, Or.inl ⟨rfl, rfl, fun _ => rfl⟩⟩
      | begin hnone | autoCommit hcall hnone howner data =>
        rw [show e.tx = none from hnone] at htx
        simp at htx
      | acquire hcan =>
        rw [Conn.take_tx] at htx'
        exact ⟨⟨[], Option.some.inj (htx'.symm.trans htx)⟩, htake⟩
      | release => exact absurd rfl hrel
      | buffer hbuf hcan ops =>
        rw [show e.tx = some _ from hbuf] at htx
        cases htx
        exact ⟨⟨ops, (Option.some.inj htx').symm⟩, htake⟩
      | commit | rollback =>
        rw [Conn.finish, Conn.releaseWriteSlot_tx] at htx'
        simp at htx'
  · -- an action of somebody else leaves the connection alone
    have hff : f' = f := by
      rcases db.step_cases a with hs | ⟨-, hs⟩ | ⟨j, call, e, c, rfl, he, hstep, hs⟩
      · rw [hs] at hf'
        exact Option.some.inj (hf'.symm.trans hf)
      · rw [hs] at hf'
        have hlt : i < db.engines.length := lt_of_getElem? hf
        rw [show ({ db with engines := db.engines ++ [{}] } : Database).engines
          = db.engines ++ [{}] from rfl, List.getElem?_append_left hlt] at hf'
        exact Option.some.inj (hf'.symm.trans hf)
      · rw [hs] at hf'
        rcases getElem?_set_cases hf' with ⟨hij, -⟩ | ⟨-, hf'⟩
        · exact absurd hij.symm hby
        · exact Option.some.inj (hf'.symm.trans hf)
    refine ⟨hsame hff, Or.inl ⟨by rw [hff], by rw [hff], fun hslot => ?_⟩⟩
    exact data_of_held howns hw ⟨f, hf, hslot⟩ hby

/-! ## One transaction of a run -/

/-- The actions of a run, and the store they begin with. -/
structure History where
  backend : Backend := .mock
  data : Data := default
  failWrites : Bool := false
  actions : List Action

/-- The state before action `n`. -/
def History.state (run : History) : Nat → Database :=
  stateAt run.backend run.data run.failWrites run.actions

section Transaction

variable (run : History)

/-- Action `start` begins a transaction of connection `i`, which stays open up to state `stop` and
    has not written `key` by then. -/
structure Transaction (i : ConnId) (start stop : Nat) (key : Bytes) : Prop where
  begins : run.actions[start]? = some (.call i .beginTransaction)
  idle : ∃ f, (run.state start).engines[i]? = some f ∧ f.tx = none
  stays : ∀ n, start < n → n ≤ stop → ∃ f tx,
    (run.state n).engines[i]? = some f ∧ f.tx = some tx
  unwritten : ∀ f tx, (run.state stop).engines[i]? = some f →
    f.tx = some tx → tx.lookup key = .none

/-- The slot does its work in the run, and the transaction keeps it. -/
structure KeepsSlot (i : ConnId) (start stop : Nat) : Prop where
  outside : ∀ n a, run.actions[n]? = some a →
    ¬ (run.state n).WritesWhileHolding a
  writes : ∀ n a, run.actions[n]? = some a →
    ¬ (run.state n).ReleasesWrites a
  keeps : ∀ n, start < n → n < stop → run.actions[n]? ≠ some (.call i .releaseWriteSlot)

/-- The connection as it is before action `n`. -/
def ConnAt (i : ConnId) (n : Nat) (c : Conn) : Prop :=
  c.store = (run.state n).store ∧ (run.state n).engines[i]? = some c.engine

/-- Every read of the key, in the ways `reads`, finds the same. -/
def RepeatableRead (reads : Set Read) (i : ConnId) (start stop : Nat) (key : Bytes) : Prop :=
  ∃ v, ∀ n c, start < n → n ≤ stop → ConnAt run i n c → ∀ r ∈ reads, c.Finds key v r

/-- Every read of the key comes to its row. -/
def ReadsReach (reads : Set Read) (i : ConnId) (start stop : Nat) (key : Bytes) : Prop :=
  ∀ n c, start < n → n ≤ stop → ConnAt run i n c → ∀ r ∈ reads, c.ReadReaches key r

/-- When the transaction drops its snapshot, the key's committed value is still the snapshot's. -/
def DropsCurrentSnapshot (i : ConnId) (start stop : Nat) (key : Bytes) : Prop :=
  ∀ n f f' snapshot, start < n → n < stop →
    (run.state n).engines[i]? = some f →
    (run.state (n + 1)).engines[i]? = some f' →
    f.snapshot = some snapshot → f'.snapshot = none →
    snapshot.find key = (run.state n).store.data.find key

variable {run} {i : ConnId} {start stop : Nat} {key : Bytes}

/-- `tx_step` in the run. -/
theorem KeepsSlot.step (hk : KeepsSlot run i start stop) {n : Nat}
    (hlo : start < n) (hhi : n < stop) {f f' : Engine} {tx tx' : TxBuffer}
    (hf : (run.state n).engines[i]? = some f) (htx : f.tx = some tx)
    (hf' : (run.state (n + 1)).engines[i]? = some f')
    (htx' : f'.tx = some tx') :
    (∃ ops, tx' = tx.writeAll ops) ∧
      ((f'.snapshot = f.snapshot ∧ f'.writeSlot = f.writeSlot ∧
          (f.writeSlot = true → (run.state (n + 1)).store.data
            = (run.state n).store.data)) ∨
        (f'.snapshot = none ∧ f'.writeSlot = true ∧
          (run.state (n + 1)).store.data
            = (run.state n).store.data)) := by
  cases ha : run.actions[n]? with
  | none =>
    have hsame : run.state (n + 1)
        = run.state n := run_take_end _ ha
    rw [hsame] at hf' ⊢
    have hff : f' = f := Option.some.inj (hf'.symm.trans hf)
    subst hff
    exact ⟨⟨[], Option.some.inj (htx'.symm.trans htx)⟩, Or.inl ⟨rfl, rfl, fun _ => rfl⟩⟩
  | some a =>
    have hs : run.state (n + 1)
        = (run.state n).step a := run_take_succ _ ha
    rw [hs] at hf' ⊢
    refine tx_step (ownsSlot_at _ _ _ _ hk.outside n) (writersHold_at _ _ _ _ hk.writes n) ?_
      hf htx hf' htx'
    rintro rfl
    exact hk.keeps n hlo hhi ha

/-- The key is unwritten throughout. -/
theorem Transaction.lookup (h : Transaction run i start stop key)
    (hk : KeepsSlot run i start stop) (d : Nat) :
    ∀ n f tx, start < n → n + d = stop →
      (run.state n).engines[i]? = some f → f.tx = some tx →
      tx.lookup key = .none := by
  -- backwards from the last state: what is written stays written
  induction d with
  | zero =>
    intro n f tx _ hn hf htx
    exact h.unwritten f tx (by rwa [show stop = n by omega]) htx
  | succ d ih =>
    intro n f tx hlo hn hf htx
    obtain ⟨f', tx', hf', htx'⟩ := h.stays (n + 1) (by omega) (by omega)
    obtain ⟨⟨ops, rfl⟩, -⟩ := hk.step hlo (by omega) hf htx hf' htx'
    exact TxBuffer.lookup_of_writeAll (ih (n + 1) f' _ (by omega) (by omega) hf' htx')

/-- Who has no snapshot has the slot. -/
def Held (f : Engine) : Prop := f.snapshot = none → f.writeSlot = true

section

variable (h : Transaction run i start stop key)
include h

theorem Transaction.first {f : Engine}
    (hf : (run.state (start + 1)).engines[i]? = some f) : Held f := by
  obtain ⟨e, he, htx⟩ := h.idle
  have hopen : (run.state start).store.isOpen = true := isOpen_at _ _ _ _ start
  have hs : run.state (start + 1)
      = (run.state start).step (.call i .beginTransaction) :=
    run_take_succ _ h.begins
  rw [hs, step_call he] at hf
  have hbegin : Conn.call ⟨(run.state start).store, e⟩ i
      .beginTransaction = (.ok, ⟨(run.state start).store,
        { e with tx := some {}, snapshot := some (run.state start).store.data }⟩) := by
    simp [Conn.call, Conn.beginTransaction, hopen, htx]
  rw [hbegin] at hf
  rcases getElem?_set_cases hf with ⟨-, rfl⟩ | ⟨hne, -⟩
  · intro hnone
    simp at hnone
  · exact absurd rfl hne

theorem Transaction.held (hk : KeepsSlot run i start stop) (d : Nat) :
    ∀ f, start + 1 + d ≤ stop →
      (run.state (start + 1 + d)).engines[i]? = some f → Held f := by
  induction d with
  | zero => exact fun f _ hf => h.first hf
  | succ d ih =>
    intro f' hd hf' hnone
    obtain ⟨f, tx, hf, htx⟩ := h.stays (start + 1 + d) (by omega) (by omega)
    obtain ⟨g, tx', hg, htx'⟩ := h.stays (start + 1 + d + 1) (by omega) (by omega)
    obtain rfl : g = f' := Option.some.inj (hg.symm.trans hf')
    rcases (hk.step (by omega) (by omega) hf htx hf' htx').2 with ⟨hsnap, hslot, -⟩ | ⟨-, hslot, -⟩
    · rw [hslot]
      exact ih f (by omega) hf (hsnap.symm.trans hnone)
    · exact hslot

/-- What lies under the buffer for the key stays what it was. -/
theorem Transaction.base_eq (hk : KeepsSlot run i start stop)
    (hdrop : DropsCurrentSnapshot run i start stop key) {f₀ : Engine}
    (hf₀ : (run.state (start + 1)).engines[i]? = some f₀) (d : Nat) :
    ∀ f, start + 1 + d ≤ stop →
      (run.state (start + 1 + d)).engines[i]? = some f →
      (Conn.base ⟨(run.state (start + 1 + d)).store, f⟩).find key
        = (Conn.base ⟨(run.state (start + 1)).store, f₀⟩).find key := by
  induction d with
  | zero =>
    intro f _ hf
    obtain rfl : f = f₀ := Option.some.inj (hf.symm.trans hf₀)
    rfl
  | succ d ih =>
    intro f' hd hf'
    obtain ⟨f, tx, hf, htx⟩ := h.stays (start + 1 + d) (by omega) (by omega)
    obtain ⟨g, tx', hg, htx'⟩ := h.stays (start + 1 + d + 1) (by omega) (by omega)
    obtain rfl : g = f' := Option.some.inj (hg.symm.trans hf')
    rw [← ih f (by omega) hf]
    unfold Conn.base
    rcases (hk.step (by omega) (by omega) hf htx hf' htx').2 with
      ⟨hsnap, -, hdata⟩ | ⟨hnone, -, hdata⟩
    · -- the view is the same one: a snapshot, or what is committed under the slot
      dsimp only
      rw [hsnap]
      cases hs : f.snapshot with
      | some snapshot => rfl
      | none =>
        show (run.state (start + 1 + d + 1)).store.data.find key = _
        rw [hdata (h.held hk d f (by omega) hf hs)]
        rfl
    · dsimp only
      rw [hnone]
      show (run.state (start + 1 + d + 1)).store.data.find key = _
      rw [hdata]
      cases hs : f.snapshot with
      | some snapshot =>
        exact (hdrop _ f g snapshot (by omega) (by omega) hf hf' hs hnone).symm
      | none => rfl

/-- What a read of the key finds: the base's value, if it comes to it. -/
theorem Transaction.finds_iff (hk : KeepsSlot run i start stop)
    {n : Nat} {c : Conn} (hlo : start < n) (hhi : n ≤ stop) (hc : ConnAt run i n c) (r : Read) :
    c.Finds key (c.base.find key) r ↔ c.ReadReaches key r := by
  obtain ⟨f, tx, hf, htx⟩ := h.stays n hlo hhi
  obtain rfl : c.engine = f := Option.some.inj (hc.2.symm.trans hf)
  refine Conn.finds_base_iff ?_ htx (h.lookup hk (stop - n) n _ tx hlo (by omega) hf htx) r
  rw [hc.1]
  exact isOpen_at _ _ _ _ n

/-- What `get` finds is the base's value. -/
theorem Transaction.base_of_get (hk : KeepsSlot run i start stop) {n : Nat} {c : Conn}
    {v : Option Bytes} (hlo : start < n) (hhi : n ≤ stop) (hc : ConnAt run i n c)
    (hget : c.Finds key v .get) : v = c.base.find key :=
  SharedStore.found_injective (hget.symm.trans ((h.finds_iff hk hlo hhi hc .get).mpr trivial))

end

/-- **Repeatable reads.**  A key that a transaction has not written is read alike throughout exactly
    if its committed value is still the snapshot's when the snapshot is dropped, and all scans come to
    its row. -/
theorem repeatable_read_iff {reads : Set Read} (hget : .get ∈ reads)
    (h : Transaction run i start stop key) (hk : KeepsSlot run i start stop) :
    RepeatableRead run reads i start stop key ↔
      DropsCurrentSnapshot run i start stop key ∧ ReadsReach run reads i start stop key := by
  constructor
  · rintro ⟨v, hv⟩
    have hbase : ∀ {n c}, start < n → n ≤ stop → ConnAt run i n c → v = c.base.find key :=
      fun hlo hhi hc => h.base_of_get hk hlo hhi hc (hv _ _ hlo hhi hc _ hget)
    refine ⟨fun n f f' snapshot hlo hhi hf hf' hsnap hnone => ?_, fun n c hlo hhi hc r hr => ?_⟩
    · -- the reads before and after the drop
      have hbefore := hbase (c := ⟨_, f⟩) hlo (by omega) ⟨rfl, hf⟩
      have hafter := hbase (c := ⟨_, f'⟩) (by omega) hhi ⟨rfl, hf'⟩
      obtain ⟨g, tx, hg, htx⟩ := h.stays n hlo (by omega)
      obtain ⟨g', tx', hg', htx'⟩ := h.stays (n + 1) (by omega) (by omega)
      obtain rfl : g = f := Option.some.inj (hg.symm.trans hf)
      obtain rfl : g' = f' := Option.some.inj (hg'.symm.trans hf')
      have hdata : (run.state (n + 1)).store.data = (run.state n).store.data := by
        rcases (hk.step hlo hhi hf htx hf' htx').2 with ⟨hsame, -, -⟩ | ⟨-, -, hdata⟩
        · rw [hsame, hsnap] at hnone
          simp at hnone
        · exact hdata
      unfold Conn.base at hbefore hafter
      rw [hsnap] at hbefore
      rw [hnone] at hafter
      rw [← hdata]
      exact hbefore.symm.trans hafter
    · rw [← h.finds_iff hk hlo hhi hc, ← hbase hlo hhi hc]
      exact hv n c hlo hhi hc r hr
  · rintro ⟨hdrop, hreach⟩
    by_cases hlt : start + 1 ≤ stop
    · obtain ⟨f₀, tx₀, hf₀, -⟩ := h.stays (start + 1) (by omega) hlt
      refine ⟨(Conn.base ⟨(run.state (start + 1)).store, f₀⟩).find key,
        fun n c hlo hhi hc r hr => ?_⟩
      obtain ⟨d, rfl⟩ : ∃ d, n = start + 1 + d := ⟨n - (start + 1), by omega⟩
      obtain ⟨store, f⟩ := c
      obtain ⟨rfl, hf⟩ := hc
      rw [← h.base_eq hk hdrop hf₀ d f hhi hf]
      exact (h.finds_iff hk hlo hhi ⟨rfl, hf⟩ r).mpr (hreach _ _ hlo hhi ⟨rfl, hf⟩ r hr)
    · exact ⟨none, fun n c hlo hhi => absurd hhi (by omega)⟩

end Transaction

/-- Connection 0 reads in a transaction and then writes another key, while connection 1 waits. -/
def quietRun : History where
  actions := [.connect, .connect, .call 0 .beginTransaction, .call 0 (.put [2] [8]), .call 1 (.put [1] [7])]

theorem repeatable_read_quiet : RepeatableRead quietRun Set.univ 0 2 5 [1] := by
  have htx : Transaction quietRun 0 2 5 [1] := by
    refine ⟨rfl, ⟨_, rfl, rfl⟩, fun n hlo hhi => ?_, fun f tx hf htx => ?_⟩
    · obtain rfl | rfl | rfl : n = 3 ∨ n = 4 ∨ n = 5 := by omega
      all_goals exact ⟨_, _, rfl, rfl⟩
    · cases hf
      cases htx
      decide +kernel
  have hslot : KeepsSlot quietRun 0 2 5 := by
    constructor
    · intro n a ha
      match n with
      | 0 | 1 =>
        cases ha
        exact id
      | 2 =>
        cases ha
        exact fun h => absurd h.1 (by decide)
      | 3 =>
        cases ha
        rintro ⟨-, e, he, htx, -⟩
        cases he
        cases htx
      | 4 =>
        cases ha
        rintro ⟨-, e, he, -, hslot⟩
        cases he
        cases hslot
    · intro n a ha
      match n with
      | 0 | 1 | 2 | 3 | 4 =>
        cases ha
        exact id
    · intro n hlo hhi h
      obtain rfl | rfl : n = 3 ∨ n = 4 := by omega
      all_goals cases h
  refine (repeatable_read_iff (Set.mem_univ _) htx hslot).mpr ⟨?_, fun n c hlo hhi hc r _ => ?_⟩
  swap
  · have hmock : c.store.backend = .mock := by
      obtain rfl | rfl | rfl : n = 3 ∨ n = 4 ∨ n = 5 := by omega
      all_goals
        rw [hc.1]
        rfl
    cases r with
    | scan => exact fun _ _ h => absurd (hmock.symm.trans h) (by decide)
    | _ => trivial
  intro n f f' snapshot hlo hhi hf hf' hsnap hnone
  obtain rfl | rfl : n = 3 ∨ n = 4 := by omega
  · cases hf
    cases hsnap
    rfl
  · cases hf
    cases hsnap

/-- Connection 1 commits a key between the beginning of connection 0's transaction and its first
    write. -/
def commitInBetween : History where
  actions := [.connect, .connect, .call 0 .beginTransaction, .call 1 (.put [1] [7]), .call 0 (.put [2] [8])]

/-- The key is not there, and then it is. -/
theorem unrepeatable_read :
    Transaction commitInBetween 0 2 5 [1] ∧
    (∃ f, (commitInBetween.state 4).engines[0]? = some f ∧
      Conn.get ⟨(commitInBetween.state 4).store, f⟩ [1] = (.notFound, none)) ∧
    (∃ f, (commitInBetween.state 5).engines[0]? = some f ∧
      Conn.get ⟨(commitInBetween.state 5).store, f⟩ [1] = (.ok, some [7])) := by
  refine ⟨?_, ⟨_, rfl, by decide +kernel⟩, ⟨_, rfl, by decide +kernel⟩⟩
  refine ⟨rfl, ⟨_, rfl, rfl⟩, fun n hlo hhi => ?_, fun f tx hf htx => ?_⟩
  · obtain rfl | rfl | rfl : n = 3 ∨ n = 4 ∨ n = 5 := by omega
    all_goals exact ⟨_, _, rfl, rfl⟩
  · cases hf
    cases htx
    decide +kernel

end Database

end SqlDb.Kv
