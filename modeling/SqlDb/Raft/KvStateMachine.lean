/-
  THE REPLICATED STORE  (`KVStateMachine`, raft/kv_state_machine.{h,cpp}, and
  `MemoryRequestResultStore`, raft/request_result_store.h).

  Applying an entry decodes its payload, asks the request-result store whether the client's request
  is NEW, and only then writes the batch.  The request-result store keeps the latest request of each
  client: the same id again is answered from the store, an older id is an error.

  A snapshot is the rows of the group's range and nothing else; in particular the request-result
  store is NOT part of it.  `snapshotBlob` is the format, `restore_snapshotBlob` the round trip:
  restoring makes the range equal to the sender's and leaves the rest of the store alone.
-/
import SqlDb.Raft.Node
import SqlDb.Raft.ProposalPayload
import SqlDb.Storage.MockEngine

namespace SqlDb.Raft

open Codec Kv

/-! ## Request results -/

/-- The latest request of each client, with its result. -/
structure RequestResultStore where
  entries : OrdMap (Nat × String) := []
deriving DecidableEq

namespace RequestResultStore

variable (s : RequestResultStore)

def find (clientId requestId : Nat) : Except Error (Option String) :=
  match s.entries.find clientId with
  | none => .ok none
  | some (latest, result) =>
    if latest = requestId then .ok (some result)
    else if requestId < latest then
      .error ⟨.invalidArgument, "request id is older than the client's latest applied request"⟩
    else .ok none

def save (clientId requestId : Nat) (result : String) :
    RequestResultStore :=
  { entries := s.entries.insert clientId (requestId, result) }

/-- The id of a client's latest request. -/
def latest (clientId : Nat) : Option Nat :=
  (s.entries.find clientId).map Prod.fst

theorem latest_save (c r : Nat) (result : String) (d : Nat) :
    (s.save c r result).latest d = if d = c then some r else s.latest d := by
  unfold latest save
  rw [OrdMap.find_insert]
  split <;> rfl

/-- What `find` answers depends on the latest id only. -/
theorem find_cases (c r : Nat) :
    (∃ result, s.latest c = some r ∧ s.find c r = .ok (some result)) ∨
    (∃ l e, s.latest c = some l ∧ r < l ∧ s.find c r = .error e) ∨
    ((∀ l, s.latest c = some l → l < r) ∧ s.find c r = .ok none) := by
  unfold latest find
  cases h : s.entries.find c with
  | none => exact Or.inr (Or.inr ⟨by simp, rfl⟩)
  | some p =>
    obtain ⟨l, result⟩ := p
    dsimp only
    by_cases heq : l = r
    · subst heq
      exact Or.inl ⟨result, rfl, if_pos rfl⟩
    · rw [if_neg heq]
      by_cases hlt : r < l
      · rw [if_pos hlt]
        exact Or.inr (Or.inl ⟨l, _, rfl, hlt, rfl⟩)
      · rw [if_neg hlt]
        refine Or.inr (Or.inr ⟨fun l' hl' => ?_, rfl⟩)
        obtain rfl : l = l' := Option.some.inj hl'
        omega

end RequestResultStore

/-! ## The state machine -/

structure KvStateMachine where
  localStore : MockStore := {}
  requestResults : RequestResultStore := {}
deriving DecidableEq

def kvStatusToError (status : Status) : Error :=
  { code := match status with
      | .invalidArgument => .invalidArgument
      | .ioError => .ioError
      | _ => .internalError
    message := "local kv write failed: " ++ statusToString status }

def kSnapshotMagic : Bytes := ascii "SQSN"

def kSnapshotVersion : Nat := 1

/-- The snapshot of some rows: magic, version, their number, then key and value of each. -/
def snapshotBlob (rows : List (Bytes × Bytes)) : Bytes :=
  kSnapshotMagic ++ bigEndian 4 kSnapshotVersion ++ bigEndian 8 rows.length ++
    rows.flatMap fun p => block p.1 ++ block p.2

def truncatedSnapshot : Error := ⟨.invalidArgument, "truncated raft snapshot"⟩

def readRow : Reader Error (Bytes × Bytes) := do
  let key ← readBlock truncatedSnapshot
  let value ← readBlock truncatedSnapshot
  pure (key, value)

/-- A range that can be snapshotted has a start and is not empty. -/
def usableRange (range : KeyRange) : Bool :=
  match range.start with
  | none => false
  | some start =>
    match range.stop with
    | none => true
    | some stop => decide (start < stop)

variable {m m' : KvStateMachine} {entry : LogEntry}

namespace KvStateMachine

def apply (m : KvStateMachine) (entry : LogEntry) : Except Error String × KvStateMachine :=
  if entry.data = [] then (.ok "noop", m)
  else
    match decodeProposalPayload entry.data with
    | .error e => (.error e, m)
    | .ok payload =>
      match m.requestResults.find payload.clientId payload.requestId with
      | .error e => (.error e, m)
      | .ok (some previous) => (.ok previous, m)
      | .ok none =>
        match m.localStore.writeBatch payload.batch with
        | (.ok, store) =>
          (.ok "applied", { localStore := store,
                            requestResults := m.requestResults.save payload.clientId
                              payload.requestId "applied" })
        | (status, store) => (.error (kvStatusToError status), { m with localStore := store })

def snapshot (m : KvStateMachine) (range : KeyRange) : Except Error Bytes :=
  if !usableRange range then
    .error ⟨.invalidArgument, "raft snapshots require a start bound and a non-empty key range"⟩
  else if range.direction ≠ .forward then
    .error ⟨.invalidArgument, "P0 raft snapshots require a forward key range"⟩
  else
    match m.localStore.newIterator range with
    | none => .error ⟨.internalError, "failed to create raft snapshot iterator"⟩
    | some rows => .ok (snapshotBlob rows)

/-- The operations that empty a range.  Without an upper bound the keys are removed one by one. -/
def clearOps (m : KvStateMachine) (range : KeyRange) : Except Error WriteBatch :=
  match range.stop with
  | some stop => .ok [.removeRange (range.start.getD []) stop]
  | none =>
    match m.localStore.newIterator { range with limit := 0, direction := .forward } with
    | none => .error ⟨.internalError, "failed to create raft snapshot clear iterator"⟩
    | some rows => .ok (rows.map fun p => .remove p.1)

/-- What `restore` reads after the magic; `size` is the size of the whole snapshot. -/
def restoreBatch (m : KvStateMachine) (range : KeyRange) (size : Nat) :
    Reader Error WriteBatch := do
  let version ← readNumber truncatedSnapshot 4
  if version ≠ kSnapshotVersion then
    Prog.throw ⟨.invalidArgument, "unsupported raft snapshot version"⟩
  else
    let count ← readNumber truncatedSnapshot 8
    if size < count then Prog.throw ⟨.invalidArgument, "invalid raft snapshot count"⟩
    else if !usableRange range then
      Prog.throw ⟨.invalidArgument,
        "raft snapshot restore requires a start bound and a non-empty range"⟩
    else if range.direction ≠ .forward then
      Prog.throw ⟨.invalidArgument, "P0 raft snapshot restore requires a forward key range"⟩
    else
      let clear ← Prog.lift (m.clearOps range)
      let rows ← readMany readRow count
      let left ← Prog.get
      if left ≠ [] then Prog.throw ⟨.invalidArgument, "trailing bytes in raft snapshot"⟩
      else pure (clear ++ rows.map fun p => .put p.1 p.2)

def restore (m : KvStateMachine) (range : KeyRange) (blob : Bytes) :
    Except Error Unit × KvStateMachine :=
  if blob.length < kSnapshotMagic.length + 4 + 8 ∨
      blob.take kSnapshotMagic.length ≠ kSnapshotMagic then
    (.error ⟨.invalidArgument, "invalid raft snapshot magic"⟩, m)
  else
    match (m.restoreBatch range blob.length (blob.drop kSnapshotMagic.length)).1 with
    | .error e => (.error e, m)
    | .ok batch =>
      match m.localStore.writeBatch batch with
      | (.ok, store) => (.ok (), { m with localStore := store })
      | (status, store) => (.error (kvStatusToError status), { m with localStore := store })

instance : StateMachine KvStateMachine where
  apply := apply
  snapshot := snapshot
  restore := restore

/-! ## What applying an entry does -/

/-- The successful ways to apply an entry. -/
inductive Applies (m : KvStateMachine) (entry : LogEntry) : KvStateMachine → Prop
  /-- The entry of a new leader has no effect … -/
  | noop (hdata : entry.data = []) : Applies m entry m
  /-- … nor has a request that is its client's latest one. -/
  | repeated (p : ProposalPayload) (hdata : entry.data ≠ [])
      (hdecode : decodeProposalPayload entry.data = .ok p)
      (hlatest : m.requestResults.latest p.clientId = some p.requestId) : Applies m entry m
  | written (p : ProposalPayload) (hdata : entry.data ≠ [])
      (hdecode : decodeProposalPayload entry.data = .ok p)
      (hnew : ∀ l, m.requestResults.latest p.clientId = some l → l < p.requestId) :
      Applies m entry {
        localStore := { m.localStore with data := applyOps p.batch m.localStore.data }
        requestResults := m.requestResults.save p.clientId p.requestId "applied" }

theorem applies_of_ok {result : String}
    (h : m.apply entry = (.ok result, m')) : Applies m entry m' := by
  unfold apply at h
  split at h
  · rename_i hdata
    obtain rfl := (Prod.mk.inj h).2
    exact .noop hdata
  · rename_i hdata
    split at h
    · simp at h
    · rename_i p hdecode
      rcases m.requestResults.find_cases p.clientId p.requestId with
        ⟨previous, hlatest, hfind⟩ | ⟨l, e, -, -, hfind⟩ | ⟨hnew, hfind⟩
      · rw [hfind] at h
        obtain rfl := (Prod.mk.inj h).2
        exact .repeated p hdata hdecode hlatest
      · rw [hfind] at h
        simp at h
      · rw [hfind] at h
        dsimp only at h
        split at h
        · rename_i store hwrite
          obtain rfl := (Prod.mk.inj h).2
          rw [MockStore.writeBatch_ok hwrite]
          exact .written p hdata hdecode hnew
        · simp at h

/-- An entry that cannot be applied leaves the machine as it is. -/
theorem apply_error {e : Error} (h : m.apply entry = (.error e, m')) : m' = m := by
  unfold apply at h
  split at h
  · simp at h
  · split at h
    · exact (Prod.mk.inj h).2.symm
    · rename_i p hdecode
      split at h
      · exact (Prod.mk.inj h).2.symm
      · simp at h
      · split at h
        · simp at h
        · rename_i status store hne hwrite
          obtain rfl := (Prod.mk.inj h).2
          rw [MockStore.writeBatch_error hwrite hne]

end KvStateMachine

/-- The client and the request an entry belongs to; a no-op entry belongs to nobody. -/
def LogEntry.request (entry : LogEntry) : Option (Nat × Nat) :=
  if entry.data = [] then none
  else
    match decodeProposalPayload entry.data with
    | .ok p => some (p.clientId, p.requestId)
    | .error _ => none

theorem LogEntry.request_eq {p : ProposalPayload} (hdata : entry.data ≠ [])
    (hdecode : decodeProposalPayload entry.data = .ok p) :
    entry.request = some (p.clientId, p.requestId) := by
  unfold request
  rw [if_neg hdata, hdecode]

namespace KvStateMachine

/-- The latest request of a client. -/
def latest (m : KvStateMachine) (c : Nat) : Option Nat := m.requestResults.latest c

/-- **Request ids.**  An applied entry of client `c` becomes or already was the client's latest
    request, and it is not older than the one before; no other client is affected. -/
theorem Applies.latest (h : Applies m entry m') (c : Nat) : (∀ r, entry.request = some (c, r) →
      m'.latest c = some r ∧ ∀ l, m.latest c = some l → l ≤ r) ∧
    ((∀ r, entry.request ≠ some (c, r)) → m'.latest c = m.latest c) := by
  cases h with
  | noop hdata =>
    have hnone : entry.request = none := if_pos hdata
    rw [hnone]
    simp
  | repeated p hdata hdecode hlatest =>
    rw [LogEntry.request_eq hdata hdecode]
    refine ⟨?_, fun _ => rfl⟩
    rintro r hr
    cases hr
    refine ⟨hlatest, fun l hl => ?_⟩
    rw [show m.latest p.clientId = some p.requestId from hlatest] at hl
    exact Nat.le_of_eq (Option.some.inj hl).symm
  | written p hdata hdecode hnew =>
    rw [LogEntry.request_eq hdata hdecode]
    have hsave : ∀ d, KvStateMachine.latest {
        localStore := { m.localStore with data := applyOps p.batch m.localStore.data }
        requestResults := m.requestResults.save p.clientId p.requestId "applied" } d
        = if d = p.clientId then some p.requestId else m.latest d :=
      RequestResultStore.latest_save m.requestResults p.clientId p.requestId "applied"
    constructor
    · rintro r hr
      cases hr
      rw [hsave, if_pos rfl]
      exact ⟨rfl, fun l hl => Nat.le_of_lt (hnew l hl)⟩
    · intro hne
      rw [hsave, if_neg]
      rintro rfl
      exact hne _ rfl

/-! ## Snapshots -/

theorem length_le_snapshotBlob (rows : List (Bytes × Bytes)) :
    rows.length ≤ (snapshotBlob rows).length ∧
      ∀ p ∈ rows, p.1.length + p.2.length ≤ (snapshotBlob rows).length := by
  have hrows : rows.length ≤ (rows.flatMap fun p => block p.1 ++ block p.2).length ∧
      ∀ p ∈ rows, p.1.length + p.2.length
        ≤ (rows.flatMap fun p => block p.1 ++ block p.2).length := by
    induction rows with
    | nil => simp
    | cons a rows ih =>
      obtain ⟨hcount, hsize⟩ := ih
      have hlen : ((a :: rows).flatMap fun p => block p.1 ++ block p.2).length
          = 16 + a.1.length + a.2.length
            + (rows.flatMap fun p => block p.1 ++ block p.2).length := by
        simp only [List.flatMap_cons, List.length_append, block, length_bigEndian]
        omega
      rw [hlen]
      refine ⟨by simp only [List.length_cons]; omega, fun p hp => ?_⟩
      rcases List.mem_cons.mp hp with rfl | hp
      · omega
      · have := hsize p hp
        omega
  have hle : (rows.flatMap fun p => block p.1 ++ block p.2).length
      ≤ (snapshotBlob rows).length := by
    unfold snapshotBlob
    rw [List.length_append]
    exact Nat.le_add_left _ _
  exact ⟨hrows.1.trans hle, fun p hp => (hrows.2 p hp).trans hle⟩

theorem readRow_append {p : Bytes × Bytes} (h : p.1.length + p.2.length < 256 ^ 8) (rest : Bytes) :
    readRow (block p.1 ++ block p.2 ++ rest) = (.ok p, rest) := by
  unfold readRow
  rw [List.append_assoc, Prog.bind_apply_ok (readBlock_append _ _ (by omega)),
    Prog.bind_apply_ok (readBlock_append _ _ (by omega))]
  rfl

variable {m : KvStateMachine} {range : KeyRange}

/-- The clear operations remove exactly what lies in the range. -/
theorem applyOps_clearOps {ops : WriteBatch}
    (husable : usableRange range = true) (h : m.clearOps range = .ok ops) :
    applyOps ops m.localStore.data = m.localStore.data.keep fun k => !range.contains k := by
  unfold clearOps at h
  cases hstop : range.stop with
  | some stop =>
    cases hstart : range.start with
    | none => simp [usableRange, hstart] at husable
    | some start =>
      rw [hstop] at h
      cases h
      simp [applyOps, applyOp, KeyRange.contains, hstart, hstop]
  | none =>
    have hcontains : KeyRange.contains { start := range.start } = range.contains := by
      funext k
      simp [KeyRange.contains, hstop]
    rw [hstop] at h
    dsimp only [MockStore.newIterator] at h
    cases hopen : m.localStore.isOpen with
    | false => simp [hopen] at h
    | true =>
      simp only [hopen, Bool.not_true, Bool.false_eq_true, if_false, materialize_eq, Data.inside,
        hcontains] at h
      cases h
      -- the keys found by the scan are removed one by one
      refine SortedMap.ext_mem fun e => ?_
      rw [mem_applyOps_removes]
      simp only [SortedMap.mem_keep, Bool.not_eq_true']
      refine and_congr_right fun he => ⟨fun hall => ?_, fun hout p hp heq => ?_⟩
      · by_contra hin
        exact hall e ⟨he, (Bool.not_eq_false _).mp hin⟩ rfl
      · rw [heq, hp.2] at hout
        simp at hout

/-- What `restore` reads from a snapshot of `rows`. -/
theorem restoreBatch_snapshotBlob {batch : WriteBatch}
    {rows : List (Bytes × Bytes)} (hfit : (snapshotBlob rows).length < 256 ^ 8) :
    (m.restoreBatch range (snapshotBlob rows).length
      ((snapshotBlob rows).drop kSnapshotMagic.length)).1 = .ok batch ↔
    usableRange range = true ∧ range.direction = .forward ∧ ∃ clear, m.clearOps range = .ok clear ∧
      batch = clear ++ rows.map fun p => .put p.1 p.2 := by
  obtain ⟨hcount, hsize⟩ := length_le_snapshotBlob rows
  have hread : readMany readRow rows.length (rows.flatMap fun p => block p.1 ++ block p.2)
      = (.ok rows, []) := by
    have := readMany_append [] (fun p => block p.1 ++ block p.2) rows fun p hp rest =>
      readRow_append ((hsize p hp).trans_lt hfit) rest
    rwa [List.append_nil] at this
  have hrest : (snapshotBlob rows).drop kSnapshotMagic.length = bigEndian 4 kSnapshotVersion ++
      (bigEndian 8 rows.length ++ rows.flatMap fun p => block p.1 ++ block p.2) := by
    unfold snapshotBlob
    rw [List.append_assoc, List.append_assoc, List.drop_left]
  rw [hrest]
  unfold restoreBatch
  rw [Prog.bind_apply_ok (readNumber_append _ _ (by decide)), if_neg (by simp),
    Prog.bind_apply_ok (readNumber_append _ _ (hcount.trans_lt hfit)),
    if_neg (by omega)]
  by_cases husable : usableRange range = true
  · by_cases hdir : range.direction = .forward
    · rw [if_neg (by simp [husable]), if_neg (by simp [hdir])]
      cases hclear : m.clearOps range with
      | error e => simp
      | ok clear =>
        rw [Prog.lift_ok_bind, Prog.bind_apply_ok hread, Prog.get_bind_apply, if_neg (by simp)]
        simp [husable, hdir, eq_comm]
    · simp [husable, hdir]
  · simp [husable]

/-- **Snapshot and restore.**  After a snapshot of `d` has been restored, the store holds `d` inside
    the range and what it held before outside of it; the request results are as before. -/
theorem restore_snapshotBlob {d : Data} (hfit : (snapshotBlob d.entries).length < 256 ^ 8)
    (hin : ∀ e ∈ d.entries, range.contains e.1 = true)
    (h : m.restore range (snapshotBlob d.entries) = (.ok (), m')) :
    m'.requestResults = m.requestResults ∧ m'.localStore.data.inside range = d ∧
      m'.localStore.data.keep (fun k => !range.contains k)
        = m.localStore.data.keep fun k => !range.contains k := by
  unfold restore at h
  split at h
  · simp at h
  split at h
  · simp at h
  rename_i batch hbatch
  split at h
  · rename_i store hwrite
    obtain rfl := (Prod.mk.inj h).2
    obtain ⟨husable, -, clear, hclear, rfl⟩ := (restoreBatch_snapshotBlob hfit).mp hbatch
    rw [MockStore.writeBatch_ok hwrite]
    simp only [applyOps_append, applyOps_clearOps husable hclear, applyOps_puts, Data.inside]
    refine ⟨trivial, SortedMap.ext_mem fun e => ?_, SortedMap.ext_mem fun e => ?_⟩
    · simp only [SortedMap.mem_keep, SortedMap.mem_insertAll d.sorted, Bool.not_eq_true']
      constructor
      · rintro ⟨he | ⟨⟨-, hout⟩, -⟩, hc⟩
        · exact he
        · rw [hout] at hc
          simp at hc
      · exact fun he => ⟨Or.inl he, hin e he⟩
    · simp only [SortedMap.mem_keep, SortedMap.mem_insertAll d.sorted, Bool.not_eq_true']
      constructor
      · rintro ⟨he | ⟨he, -⟩, hout⟩
        · rw [hin e he] at hout
          simp at hout
        · exact he
      · rintro ⟨he, hout⟩
        refine ⟨Or.inr ⟨⟨he, hout⟩, fun q hq heq => ?_⟩, hout⟩
        rw [heq, hin q hq] at hout
        simp at hout
  · simp at h

/-- A snapshot that cannot be restored leaves the machine as it is. -/
theorem restore_error {blob : Bytes} {e : Error}
    (h : m.restore range blob = (.error e, m')) : m' = m := by
  unfold restore at h
  split at h
  · exact (Prod.mk.inj h).2.symm
  · split at h
    · exact (Prod.mk.inj h).2.symm
    · split at h
      · simp at h
      · rename_i status store hne hwrite
        obtain rfl := (Prod.mk.inj h).2
        rw [MockStore.writeBatch_error hwrite hne]

/-- What a snapshot holds. -/
theorem snapshot_ok {blob : Bytes} (h : m.snapshot range = .ok blob) :
    blob = snapshotBlob (m.localStore.data.inside range).entries := by
  unfold snapshot at h
  split at h
  · simp at h
  · split at h
    · simp at h
    · rename_i hdir
      rw [not_not] at hdir
      cases hrows : m.localStore.newIterator range with
      | none =>
        rw [hrows] at h
        simp at h
      | some rows =>
        rw [hrows] at h
        cases h
        unfold MockStore.newIterator at hrows
        split at hrows
        · simp at hrows
        · rw [hdir, materialize_eq] at hrows
          rw [← Option.some.inj hrows]

/-- An open store can be cleared, by operations that pass the check of a batch. -/
theorem clearOps_valid (husable : usableRange range = true) (hopen : m.localStore.isOpen = true) :
    ∃ ops, m.clearOps range = .ok ops ∧ ops.all Op.valid = true := by
  unfold clearOps
  cases hstop : range.stop with
  | some stop =>
    cases hstart : range.start with
    | none => simp [usableRange, hstart] at husable
    | some start => exact ⟨_, rfl, by simpa [usableRange, hstart, hstop, Op.valid] using husable⟩
  | none =>
    rw [MockStore.newIterator, hopen]
    exact ⟨_, rfl, List.all_map.trans (List.all_eq_true.mpr fun _ _ => rfl)⟩

/-- **Snapshots**: a snapshot of any content is restored on any other one; the range then holds what
    it held at the sender, and the rest is as before.  What is not accepted changes nothing. -/
theorem snapshot_round_trip (a b : KvStateMachine) (range : KeyRange)
    (ha : a.localStore.isOpen = true) (hb : b.localStore.isOpen = true)
    (hwrites : b.localStore.failWrites = false) (husable : usableRange range = true)
    (hdir : range.direction = .forward)
    (hfit : (snapshotBlob (a.localStore.data.inside range).entries).length < 256 ^ 8) :
    (∃ blob b', a.snapshot range = .ok blob ∧ b.restore range blob = (.ok (), b') ∧
      b'.localStore.data.inside range = a.localStore.data.inside range ∧
      b'.localStore.data.keep (fun k => !range.contains k)
        = b.localStore.data.keep fun k => !range.contains k) ∧
    ∀ blob e b', b.restore range blob = (.error e, b') → b' = b := by
  refine ⟨?_, fun _ _ _ => restore_error⟩
  obtain ⟨clear, hclear, hvalid⟩ := clearOps_valid husable hb
  have hsnapshot : a.snapshot range
      = .ok (snapshotBlob (a.localStore.data.inside range).entries) := by
    simp [snapshot, husable, hdir, MockStore.newIterator, ha, materialize_eq]
  have hbatch := (restoreBatch_snapshotBlob hfit).mpr ⟨husable, hdir, clear, hclear, rfl⟩
  have hlength : ¬ ((snapshotBlob (a.localStore.data.inside range).entries).length
      < kSnapshotMagic.length + 4 + 8) := by
    simp only [snapshotBlob, List.length_append, length_bigEndian]
    omega
  have hmagic : (snapshotBlob (a.localStore.data.inside range).entries).take kSnapshotMagic.length
      = kSnapshotMagic := by
    simp only [snapshotBlob, List.append_assoc, List.take_left]
  obtain ⟨b', hrestore⟩ : ∃ b', b.restore range
      (snapshotBlob (a.localStore.data.inside range).entries) = (.ok (), b') := by
    unfold restore
    rw [if_neg (by simp [hlength, hmagic]), hbatch]
    simp [MockStore.writeBatch, hb, hwrites, hvalid, Op.valid]
  refine ⟨_, b', hsnapshot, hrestore, (restore_snapshotBlob hfit ?_ hrestore).2⟩
  exact fun e he => (SortedMap.mem_keep.mp he).2

/-- A machine with these rows. -/
def holding (rows : List (Bytes × Bytes)) : KvStateMachine where
  localStore := { isOpen := true, data := rows.foldl (fun data p => data.insert p.1 p.2) default }

/-- Of the keys from 2 up to 8 one is replaced by two others; those outside stay. -/
theorem snapshot_round_trip_rows :
    let range : KeyRange := { start := some [2], stop := some [8] }
    ∃ blob b', (holding [([1], [10]), ([3], [30]), ([7], [70])]).snapshot range = .ok blob ∧
      (holding [([1], [11]), ([2], [22]), ([9], [99])]).restore range blob = (.ok (), b') ∧
      (b'.localStore.data.inside range).entries = [([3], [30]), ([7], [70])] ∧
      (b'.localStore.data.keep fun k => !range.contains k).entries = [([1], [11]), ([9], [99])] := by
  obtain ⟨⟨blob, b', hsnapshot, hrestore, hinside, houtside⟩, -⟩ :=
    snapshot_round_trip (holding [([1], [10]), ([3], [30]), ([7], [70])])
      (holding [([1], [11]), ([2], [22]), ([9], [99])]) { start := some [2], stop := some [8] }
      rfl rfl rfl rfl rfl (by decide)
  exact ⟨blob, b', hsnapshot, hrestore, hinside ▸ by decide, houtside ▸ by decide⟩

end KvStateMachine

end SqlDb.Raft
