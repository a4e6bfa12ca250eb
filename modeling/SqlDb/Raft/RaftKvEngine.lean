/-
  A SESSION'S CONNECTION TO THE RAFT GROUPS  (`RaftKVEngine`, raft/raft_kv_store.{h,cpp}).

  Reads are served from the local store, after the leader of the key's group has been asked; writes
  are proposed to the group of their keys.  Inside a transaction writes go to a buffer, which is
  proposed as a whole at commit.

  What the node around the connection answers during a call is given with the call (`NodeView`): a
  call asks each question at most once.  What the connection does to the node, and which data it has
  read and written, is kept in a TRACE (`EngineEvent`).

  `EngineStep` says once what a call can do, write by write.  Each program is walked through once to
  show that it consists of such steps (`run_call`); what is true of whole runs is then proved by
  looking at the steps.
-/
import Mathlib.Data.List.Dedup
import SqlDb.Lib.Prog
import SqlDb.Raft.GroupRouter
import SqlDb.Raft.ProposalPayload
import SqlDb.Storage.Connection

namespace SqlDb.Raft

open Kv (Op WriteBatch TxBuffer Status KeyRange Data Conn Scan)

/-! ## The connection and the node -/

/-- What a connection has done. -/
inductive EngineEvent
  | began
  | ended
  | acquired (group : Nat)
  | released (group : Nat)
  /-- Keys have been looked up. -/
  | looked (keys : List Bytes)
  /-- An iterator over the range has been handed out. -/
  | scanned (range : KeyRange)
  /-- The batch has gone into the transaction's buffer. -/
  | buffered (batch : WriteBatch)
  /-- The executor of the group has been handed a payload, by a transaction bound to `bound`. -/
  | proposed (group : Nat) (bound : Option Nat) (payload : ProposalPayload)
  /-- A proposal has found no executor. -/
  | unrouted (group : Nat)

/-- The source's `write_slot_` and `write_group_` are set and cleared together: `writeGroup` is both.
    The local engine is there for its snapshot only. -/
structure RaftKvEngine where
  clientId : Nat
  nextRequestId : Nat := 1
  lastError : Status := .ok
  snapshot : Option Data := none
  tx : Option TxBuffer := none
  writeGroup : Option Nat := none
  boundGroup : Option Nat := none
  crossedGroups : Bool := false
  wrote : Bool := false
  looseCrossGroupReads : Bool := false
  provenReadGroups : List Nat := []
  crossGroupFrom : Option Nat := none
  crossGroupTo : Option Nat := none
  trace : List EngineEvent := []

/-- The store and its executors. -/
structure NodeView where
  router : GroupRouter := {}
  /-- The groups that have an executor. -/
  executors : List Nat := [0]
  isOpen : Bool := true
  /-- The kind of the local store. -/
  backend : Kv.Backend := .levelDb
  data : Data := default
  slotFree : Nat → Bool := fun _ => true
  /-- How asking the group's leader for a read ends. -/
  barrier : Nat → Status := fun _ => .ok
  localBegin : Status := .ok
  /-- How a proposal ends; all but `ok` leave open what becomes of the entry. -/
  proposal : Status := .ok

/-- Why a call stops. -/
inductive Stop
  | status (status : Status)
  /-- `executor_for` has thrown. -/
  | outOfRange (group : Nat)
deriving DecidableEq

namespace RaftKvEngine

/-- The group that the transaction, if there is one, is bound to. -/
def txGroup (s : RaftKvEngine) : Option Nat := if s.tx.isSome then s.boundGroup else none

abbrev Act := Prog RaftKvEngine Stop

/-- `return last_error_ = …` -/
def fail {A : Type} (status : Status) : Act A := do
  Prog.modify fun s => { s with lastError := status }
  Prog.throw (.status status)

def record (e : EngineEvent) (s : RaftKvEngine) : RaftKvEngine := { s with trace := s.trace ++ [e] }

def noError : Act Unit := Prog.modify fun s => { s with lastError := .ok }

/-! ## Reads -/

def holdsSnapshot (s : RaftKvEngine) : Bool := s.tx.isSome && s.snapshot.isSome

variable (node : NodeView)

def ensureReadable (group : Nat) : Act Unit := do
  let s ← Prog.get
  if s.holdsSnapshot ∧ group ∈ s.provenReadGroups then noError
  else if group ∉ node.executors then Prog.throw (.outOfRange group)
  else if node.barrier group ≠ .ok then fail (node.barrier group)
  else
    Prog.modify fun s => { s with
      provenReadGroups :=
        if s.holdsSnapshot then group :: s.provenReadGroups else s.provenReadGroups
      lastError := .ok }

/-- The rules for transactions that touch more than one group. -/
def checkGroup (group : Nat) (isWrite : Bool) : Act Unit := do
  let s ← Prog.get
  match s.boundGroup with
  | none => Prog.modify fun s => { s with boundGroup := some group }
  | some bound =>
    if bound ≠ group then do
      Prog.modify fun s => { s with crossGroupFrom := some bound, crossGroupTo := some group }
      if isWrite then fail .crossGroupTransaction
      else if s.wrote then fail .crossGroupTransaction
      else do
        Prog.modify fun s => { s with crossedGroups := true }
        if !s.looseCrossGroupReads then fail .crossGroupTransaction else pure ()
    else if s.crossedGroups && isWrite then fail .crossGroupTransaction
    else pure ()

/-- In a transaction, data of a group is read by its rules. -/
def touch (group : Nat) : Act Unit := do
  let s ← Prog.get
  Prog.when (s.tx.isSome = true) (checkGroup group false)

/-- What the local engine and the buffer show. -/
def view (s : RaftKvEngine) : Kv.Conn where
  store := { backend := node.backend, data := node.data, isOpen := node.isOpen }
  engine := { tx := s.tx, snapshot := s.snapshot }

/-- What comes before data is read from `key` on; keys of the catalog bind no transaction. -/
def admitRead (key : Bytes) (group : Nat) : Act Unit := do
  Prog.when (GroupRouter.isSystemKey key = false) (touch group)
  ensureReadable node group

/-- `read_key`: the buffer first, then the first row of an iterator from the key on. -/
def readKey (key : Bytes) : Act (Option Bytes) := do
  let s ← Prog.get
  match (s.view node).overlay key with
  | .tombstone => do
    Prog.modify (record (.looked [key]))
    pure none
  | .value v => do
    Prog.modify (record (.looked [key]))
    pure (some v)
  | .none =>
    match (s.view node).newIterator { start := some key } with
    | none => fail .internalError
    | some it => do
      Prog.modify (record (.looked [key]))
      pure (if Kv.Iterator.valid it && Kv.Iterator.key it = key then some (Kv.Iterator.value it)
        else none)

/-- `get`: without a value the status is NotFound. -/
def get (key : Bytes) : Act (Option Bytes) := do
  admitRead node key (node.router.groupFor key)
  readKey node key

/-- `exists`; whatever fails, the answer is no. -/
def existsKey (key : Bytes) : Act Bool := do
  match ← Prog.attempt (get node key) with
  | .ok value => pure value.isSome
  | .error (.status _) => pure false
  | .error stop => Prog.throw stop

/-- The groups of the keys that are data, each once and in ascending order. -/
def dataGroups (router : GroupRouter) (keys : List Bytes) : List Nat :=
  ((keys.filter fun key => !GroupRouter.isSystemKey key).map router.groupFor).dedup.mergeSort

/-- `get_batch`, up to the values. -/
def getBatch (keys : List Bytes) : Act Unit := do
  let s ← Prog.get
  match s.tx, dataGroups node.router keys with
  | none, first :: second :: _ => do
    Prog.modify fun s => { s with crossGroupFrom := some first, crossGroupTo := some second }
    fail .crossGroupTransaction
  | _, groups => do
    groups.forM fun group => do
      touch group
      ensureReadable node group
    Prog.modify (record (.looked keys))

def newIterator (range : KeyRange) : Act Kv.Scan := do
  if !node.isOpen then fail .internalError
  else
    let start := range.start.getD []
    match node.router.rangeGroup start range.stop with
    | none => fail .crossGroupTransaction
    | some group => do
      admitRead node start group
      let s ← Prog.get
      match (s.view node).newIterator range with
      | none => fail .internalError
      | some it => do
        Prog.modify (record (.scanned range))
        pure it

/-! ## The write slot -/

/-- `RaftKVStore::acquire_write_slot`. -/
def takeSlot (group : Nat) : Act Unit :=
  if !node.slotFree group then fail .busy
  else Prog.modify fun s => record (.acquired group) { s with writeGroup := some group }

def acquireWriteSlotFor (group : Nat) : Act Unit := do
  let s ← Prog.get
  if s.writeGroup.isSome then pure ()
  else do
    takeSlot node group
    Prog.modify fun s => { s with snapshot := none }

/-- `acquire_write_slot`, without and with a group. -/
def acquireWriteSlot (group : Option Nat) : Act Unit := do
  let s ← Prog.get
  acquireWriteSlotFor node (group.getD (s.boundGroup.getD 0))

def releaseWriteSlot : Act Unit := do
  let s ← Prog.get
  match s.writeGroup with
  | none => pure ()
  | some group => Prog.modify fun s => record (.released group) { s with writeGroup := none }

/-! ## Writes -/

/-- The loop of `write_batch` over the groups of the operations. -/
def routeOps (router : GroupRouter) : Option Nat → List Op → Act (Option Nat)
  | group, [] => pure group
  | group, op :: rest =>
    match router.opGroup op with
    | none => fail .crossGroupTransaction
    | some opGroup =>
      match group with
      | none => routeOps router (some opGroup) rest
      | some first =>
        if first ≠ opGroup then do
          Prog.modify fun s => { s with crossGroupFrom := some first, crossGroupTo := some opGroup }
          fail .crossGroupTransaction
        else routeOps router (some first) rest

/-- Outside a transaction the slot is given back when the proposal has ended. -/
def dropSlotOutside : Act Unit := do
  let s ← Prog.get
  Prog.when (s.tx = none) releaseWriteSlot

/-- Each proposal has a request id of its own. -/
def submit (group : Nat) (batch : WriteBatch) : Act Unit := do
  let s ← Prog.get
  let next := (s.nextRequestId + 1) % 2 ^ 64
  if group ∉ node.executors then do
    Prog.modify fun s => record (.unrouted group) { s with nextRequestId := next }
    Prog.throw (.outOfRange group)
  else do
    Prog.modify fun s => record (.proposed group s.txGroup ⟨s.clientId, s.nextRequestId, batch⟩)
      { s with nextRequestId := next }
    dropSlotOutside
    if node.proposal ≠ .ok then fail node.proposal else noError

def proposeBatch (group : Nat) (batch : WriteBatch) : Act Unit := do
  let s ← Prog.get
  if s.writeGroup.any (fun held => held ≠ group) then fail .crossGroupTransaction
  else do
    Prog.when (s.writeGroup = none) (takeSlot node group)
    Prog.modify fun s => { s with snapshot := if s.tx.isSome then none else s.snapshot }
    submit node group batch

/-- The operations of a batch go into the buffer. -/
def bufferOps (batch : WriteBatch) (s : RaftKvEngine) : RaftKvEngine :=
  record (.buffered batch) { s with tx := s.tx.map fun tx => tx.writeAll batch, wrote := true }

def writeBatch (batch : WriteBatch) : Act Unit := do
  if !node.isOpen then Prog.throw (.status .internalError)
  else
    match ← routeOps node.router none batch with
    | none => pure () -- an empty batch
    | some group => do
      let s ← Prog.get
      if s.tx.isNone then proposeBatch node group batch
      else do
        checkGroup group true
        acquireWriteSlotFor node group
        Prog.modify (bufferOps batch)

/-! ## Transactions -/

def beginTransaction : Act Unit := do
  let s ← Prog.get
  if !node.isOpen then Prog.throw (.status .internalError)
  else if s.tx.isSome then Prog.throw (.status .busy)
  else do
    Prog.when (node.executors.length = 1) (ensureReadable node 0)
    if node.localBegin ≠ .ok then Prog.throw (.status node.localBegin)
    else
      Prog.modify fun s => record .began { s with
        snapshot := some node.data
        tx := some {}
        boundGroup := none
        crossedGroups := false
        wrote := false
        provenReadGroups := if node.executors.length = 1 then [0] else [] }

/-- The buffer, the snapshot and the slot are given up. -/
def finish : Act Unit := do
  Prog.modify fun s => record .ended { s with tx := none, snapshot := none }
  releaseWriteSlot

def commitTransaction : Act Unit := do
  let s ← Prog.get
  if !node.isOpen then Prog.throw (.status .internalError)
  else
    match s.tx with
    | none => Prog.throw (.status .notFound)
    | some tx =>
      if tx.exceeds then Prog.throw (.status .invalidArgument)
      else if tx.log = [] then finish
      else
        match s.writeGroup with
        | none => fail .internalError
        | some group => do
          proposeBatch node group tx.toBatch
          finish

def rollbackTransaction : Act Unit := do
  let s ← Prog.get
  if s.tx.isNone then Prog.throw (.status .notFound) else finish

/-! ## Calls -/

inductive Call
  | get (key : Bytes)
  | existsKey (key : Bytes)
  | getBatch (keys : List Bytes)
  | newIterator (range : KeyRange)
  | put (key value : Bytes)
  | remove (key : Bytes)
  | writeBatch (batch : WriteBatch)
  | beginTransaction
  | commitTransaction
  | rollbackTransaction
  | acquireWriteSlot (group : Option Nat)
  | releaseWriteSlot

/-- A call, without the value it returns. -/
def call : Call → Act Unit
  | .get key => do
    let _ ← get node key
    pure ()
  | .existsKey key => do
    let _ ← existsKey node key
    pure ()
  | .getBatch keys => getBatch node keys
  | .newIterator range => do
    let _ ← newIterator node range
    pure ()
  | .put key value => writeBatch node [.put key value]
  | .remove key => writeBatch node [.remove key]
  | .writeBatch batch => writeBatch node batch
  | .beginTransaction => beginTransaction node
  | .commitTransaction => commitTransaction node
  | .rollbackTransaction => rollbackTransaction
  | .acquireWriteSlot group => acquireWriteSlot node group
  | .releaseWriteSlot => releaseWriteSlot

/-! ## What a call can do -/

/-- In a transaction, data of the group may be read now. -/
def MayRead (s : RaftKvEngine) (group : Nat) : Prop :=
  s.tx.isSome = true → s.boundGroup = some group ∨
    (s.crossedGroups = true ∧ s.wrote = false ∧ s.looseCrossGroupReads = true)

/-- One write of a call. -/
inductive EngineStep (router : GroupRouter) : RaftKvEngine → RaftKvEngine → Prop
  /-- What no rule depends on. -/
  | noted {s : RaftKvEngine} (lastError : Status) (snapshot : Option Data)
      (provenReadGroups : List Nat) (crossGroupFrom crossGroupTo : Option Nat) :
      EngineStep router s { s with lastError, snapshot, provenReadGroups, crossGroupFrom, crossGroupTo }
  | bound {s : RaftKvEngine} (group : Nat) (hfree : s.boundGroup = none) :
      EngineStep router s { s with boundGroup := some group }
  | crossed {s : RaftKvEngine} (hbound : s.boundGroup.isSome = true) (hwrote : s.wrote = false) :
      EngineStep router s { s with crossedGroups := true }
  | acquired {s : RaftKvEngine} (group : Nat) (hfree : s.writeGroup = none) :
      EngineStep router s (record (.acquired group) { s with writeGroup := some group })
  | released {s : RaftKvEngine} (group : Nat) (hheld : s.writeGroup = some group) :
      EngineStep router s (record (.released group) { s with writeGroup := none })
  | looked {s : RaftKvEngine} (keys : List Bytes)
      (hmay : ∀ key ∈ keys, GroupRouter.isSystemKey key = false → s.MayRead (router.groupFor key)) :
      EngineStep router s (record (.looked keys) s)
  | scanned {s : RaftKvEngine} (range : KeyRange) (group : Nat)
      (hgroup : router.rangeGroup (range.start.getD []) range.stop = some group)
      (hmay : GroupRouter.isSystemKey (range.start.getD []) = false → s.MayRead group) :
      EngineStep router s (record (.scanned range) s)
  | buffered {s : RaftKvEngine} (batch : WriteBatch) (group : Nat) (htx : s.tx.isSome = true)
      (hbound : s.boundGroup = some group) (hcrossed : s.crossedGroups = false)
      (hheld : s.writeGroup.isSome = true) (hops : ∀ op ∈ batch, router.opGroup op = some group) :
      EngineStep router s (bufferOps batch s)
  | unrouted {s : RaftKvEngine} (group : Nat) :
      EngineStep router s
        (record (.unrouted group) { s with nextRequestId := (s.nextRequestId + 1) % 2 ^ 64 })
  | proposed {s : RaftKvEngine} (batch : WriteBatch) (group : Nat) (hheld : s.writeGroup = some group)
      (hbatch : (s.tx = none ∧ ∀ op ∈ batch, router.opGroup op = some group) ∨
        ∃ tx, s.tx = some tx ∧ tx.log = batch ∧ batch ≠ []) :
      EngineStep router s (record (.proposed group s.txGroup ⟨s.clientId, s.nextRequestId, batch⟩)
        { s with nextRequestId := (s.nextRequestId + 1) % 2 ^ 64 })
  | began {s : RaftKvEngine} (snapshot : Option Data) (provenReadGroups : List Nat)
      (hfree : s.tx = none) :
      EngineStep router s (record .began { s with
        snapshot, provenReadGroups, tx := some {}, boundGroup := none, crossedGroups := false,
        wrote := false })
  | ended {s : RaftKvEngine} (htx : s.tx.isSome = true) :
      EngineStep router s (record .ended { s with tx := none, snapshot := none })

/-- Only what no rule depends on has changed. -/
def Noted (s s' : RaftKvEngine) : Prop :=
  ∃ lastError snapshot provenReadGroups crossGroupFrom crossGroupTo,
    s' = { s with lastError, snapshot, provenReadGroups, crossGroupFrom, crossGroupTo }

/-- A transaction that has touched no group has not crossed any. -/
def Wf (s : RaftKvEngine) : Prop := s.boundGroup = none → s.crossedGroups = false

section Walk

open Prog (Run run_bind run_get_bind run_modify run_modify_bind run_pure run_throw run_ite)

variable {router : GroupRouter} {s s' : RaftKvEngine}

abbrev Path (router : GroupRouter) := Relation.ReflTransGen (EngineStep router)

theorem Noted.path (h : Noted s s') : Path router s s' := by
  obtain ⟨e, snapshot, proven, first, second, rfl⟩ := h
  exact .single (.noted e snapshot proven first second)

theorem wf_step (h : EngineStep router s s') (hwf : s.Wf) : s'.Wf := by
  cases h with
  | bound group hfree => exact fun hnone => absurd hnone (by simp)
  | crossed hbound hwrote =>
    intro hnone
    simp only at hnone
    rw [hnone] at hbound
    simp at hbound
  | began snapshot proven hfree => exact fun _ => rfl
  | _ => exact hwf

/-- What every step keeps, a path keeps. -/
theorem path_induction {I : RaftKvEngine → Prop}
    (hstep : ∀ {s s'}, EngineStep router s s' → I s → I s')
    (h : Path router s s') (hs : I s) : I s' := by
  induction h with
  | refl => exact hs
  | tail _ h ih => exact hstep h ih

theorem wf_path (h : Path router s s') (hwf : s.Wf) : s'.Wf :=
  path_induction wf_step h hwf

theorem run_fail {A : Type} {status : Status} {Q : Except Stop A → RaftKvEngine → Prop}
    (h : ∀ s', Noted s s' → Q (.error (.status status)) s') :
    Run (EngineStep router) (fail status : Act A) s Q :=
  have hnoted : Noted s { s with lastError := status } := ⟨_, _, _, _, _, rfl⟩
  run_modify_bind hnoted.path (run_throw (h _ hnoted))

theorem Noted.refl (s : RaftKvEngine) : Noted s s := ⟨_, _, _, _, _, rfl⟩

theorem run_ensureReadable (group : Nat) :
    Run (EngineStep router) (ensureReadable node group) s fun _ s' => Noted s s' := by
  have hnoted : ∀ proven, Noted s { s with provenReadGroups := proven, lastError := .ok } :=
    fun _ => ⟨_, _, _, _, _, rfl⟩
  refine run_get_bind (run_ite (fun _ => ?_) fun _ => run_ite (fun _ => run_throw (Noted.refl s))
    fun _ => run_ite (fun _ => run_fail fun _ h => h) fun _ => ?_)
  · exact run_modify (hnoted s.provenReadGroups).path (hnoted s.provenReadGroups)
  · exact run_modify (hnoted _).path (hnoted _)

/-! ### The rules for several groups -/

/-- What a check does not change, and what it never takes back. -/
structure Checked (s s' : RaftKvEngine) : Prop where
  tx : s'.tx = s.tx
  writeGroup : s'.writeGroup = s.writeGroup
  mayRead : ∀ group, s.MayRead group → s'.MayRead group

theorem Noted.checked (h : Noted s s') : Checked s s' := by
  obtain ⟨_, _, _, _, _, rfl⟩ := h
  exact ⟨rfl, rfl, fun _ hmay => hmay⟩

theorem Checked.trans {t u : RaftKvEngine} (h : Checked s t) (h' : Checked t u) : Checked s u :=
  ⟨h'.tx.trans h.tx, h'.writeGroup.trans h.writeGroup, fun g hg => h'.mayRead g (h.mayRead g hg)⟩

/-- A read of the group that is let through may be made; after a write that is let through, the
    transaction has touched no other group. -/
theorem run_checkGroup (group : Nat) (isWrite : Bool) :
    Run (EngineStep router) (checkGroup group isWrite) s fun x s' => Checked s s' ∧
      (x = .ok () → if isWrite then s.Wf → s'.boundGroup = some group ∧ s'.crossedGroups = false
        else s'.MayRead group) := by
  have hfails : ∀ {P : RaftKvEngine → Prop} t, Checked s t → Run (EngineStep router)
      (fail .crossGroupTransaction : Act Unit) t fun x s' => Checked s s' ∧ (x = .ok () → P s') :=
    fun t ht => run_fail fun s' h => ⟨ht.trans h.checked, nofun⟩
  refine run_get_bind ?_
  cases hbound : s.boundGroup with
  | none =>
    refine run_modify (.single (.bound group hbound)) ⟨⟨rfl, rfl, fun g hmay htx => ?_⟩, fun _ => ?_⟩
    · exact Or.inr ((hmay htx).resolve_left (by simp [hbound]))
    · split
      · exact fun hwf => ⟨rfl, hwf hbound⟩
      · exact fun _ => Or.inl rfl
  | some bound =>
    refine run_ite (fun hne => ?_) fun hsame => ?_
    · have hnoted : Noted s { s with crossGroupFrom := some bound, crossGroupTo := some group } :=
        ⟨_, _, _, _, _, rfl⟩
      refine run_modify_bind hnoted.path ?_
      refine run_ite (fun _ => hfails _ hnoted.checked) fun hread =>
        run_ite (fun _ => hfails _ hnoted.checked) fun hwrote => ?_
      have hcross : EngineStep router
          { s with crossGroupFrom := some bound, crossGroupTo := some group } _ :=
        .crossed (by simp [hbound]) (by simpa using hwrote)
      have hchecked : Checked s { s with
          crossGroupFrom := some bound, crossGroupTo := some group, crossedGroups := true } :=
        ⟨rfl, rfl, fun g hmay htx => (hmay htx).imp id fun h => ⟨rfl, h.2⟩⟩
      refine run_modify_bind (.single hcross) ?_
      refine run_ite (fun _ => hfails _ hchecked) fun hloose => run_pure ⟨hchecked, fun _ => ?_⟩
      rw [if_neg hread]
      exact fun _ => Or.inr ⟨rfl, by simpa using hwrote, by simpa using hloose⟩
    · obtain rfl : bound = group := not_not.mp hsame
      refine run_ite (fun _ => hfails s (Noted.refl s).checked) fun hcrossed => ?_
      refine run_pure ⟨(Noted.refl s).checked, fun _ => ?_⟩
      split_ifs with hwrite
      · exact fun _ => ⟨hbound, by simpa [hwrite] using hcrossed⟩
      · exact fun _ => Or.inl hbound

theorem run_touch (group : Nat) : Run (EngineStep router) (touch group) s fun x s' =>
    Checked s s' ∧ (x = .ok () → s'.MayRead group) := by
  refine run_get_bind (run_ite (fun _ => run_checkGroup group false) fun htx => ?_)
  exact run_pure ⟨(Noted.refl s).checked, fun _ hsome => absurd hsome htx⟩

/-- Leave to read data of the group, unless the key is one of the catalog. -/
theorem run_admitRead (key : Bytes) (group : Nat) :
    Run (EngineStep router) (admitRead node key group) s fun x s' => x = .ok () →
      GroupRouter.isSystemKey key = false → s'.MayRead group := by
  have hfirst : Run (EngineStep router)
      (Prog.when (GroupRouter.isSystemKey key = false) (touch group) : Act Unit) s fun x s' =>
      x = .ok () → GroupRouter.isSystemKey key = false → s'.MayRead group := by
    refine run_ite (fun _ => (run_touch group).weaken fun x s' _ h hok _ => h.2 hok) fun hsystem => ?_
    exact run_pure fun _ hnot => absurd hnot hsystem
  refine run_bind hfirst (fun _ t _ ht => ?_) fun _ _ _ _ => nofun
  exact (run_ensureReadable node group).weaken fun _ s' _ h _ hnot =>
    h.checked.mayRead group (ht rfl hnot)

/-! ### Reads -/

theorem run_readKey (key : Bytes)
    (hmay : GroupRouter.isSystemKey key = false → s.MayRead (node.router.groupFor key)) :
    Run (EngineStep node.router) (readKey node key) s fun _ _ => True := by
  have hfound : ∀ v, Run (EngineStep node.router)
      (do Prog.modify (record (.looked [key])); pure v : Act (Option Bytes)) s fun _ _ => True :=
    fun v => run_modify_bind (.single (.looked [key] (by simpa using hmay))) (run_pure trivial)
  refine run_get_bind ?_
  split
  · exact hfound _
  · exact hfound _
  · split
    · exact run_fail fun _ _ => trivial
    · exact hfound _

theorem run_getKey (key : Bytes) :
    Run (EngineStep node.router) (get node key) s fun _ _ => True :=
  run_bind (run_admitRead node key _) (fun _ _ _ ht => run_readKey node key (ht rfl))
    fun _ _ _ _ => trivial

theorem existsKey_state (key : Bytes) (s : RaftKvEngine) :
    (existsKey node key s).2 = (get node key s).2 := by
  have hexists : existsKey node key s = (match (get node key s).1 with
      | .ok value => pure value.isSome
      | .error (.status _) => pure false
      | .error stop => Prog.throw stop : Act Bool) (get node key s).2 := rfl
  rw [hexists]
  rcases (get node key s).1 with (status | group) | value <;> rfl

theorem run_touchAll (groups : List Nat) :
    Run (EngineStep router) (groups.forM fun group => do
      touch group
      ensureReadable node group : Act Unit) s fun x s' =>
      Checked s s' ∧ (x = .ok () → ∀ group ∈ groups, s'.MayRead group) := by
  induction groups generalizing s with
  | nil => exact run_pure ⟨(Noted.refl s).checked, fun _ => by simp⟩
  | cons group rest ih =>
    have hone : Run (EngineStep router) (do
        touch group
        ensureReadable node group : Act Unit) s fun x s' =>
        Checked s s' ∧ (x = .ok () → s'.MayRead group) := by
      refine run_bind (run_touch group) (fun _ t _ ht => ?_) fun e _ _ h => ⟨h.1, nofun⟩
      exact (run_ensureReadable node group).weaken fun _ s' _ h =>
        ⟨ht.1.trans h.checked, fun _ => h.checked.mayRead group (ht.2 rfl)⟩
    refine run_bind hone (fun _ t _ ht => ?_) fun e _ _ h => ⟨h.1, nofun⟩
    refine ih.weaken fun x s' _ h => ⟨ht.1.trans h.1, fun hok => ?_⟩
    exact List.forall_mem_cons.mpr ⟨h.1.mayRead group (ht.2 rfl), h.2 hok⟩

theorem mem_dataGroups {keys : List Bytes} {key : Bytes} (hkey : key ∈ keys)
    (hdata : GroupRouter.isSystemKey key = false) : router.groupFor key ∈ dataGroups router keys := by
  unfold dataGroups
  rw [List.mem_mergeSort, List.mem_dedup]
  exact List.mem_map_of_mem (List.mem_filter.mpr ⟨hkey, by simp [hdata]⟩)

theorem run_getBatch (keys : List Bytes) :
    Run (EngineStep node.router) (getBatch node keys) s fun _ _ => True := by
  refine run_get_bind ?_
  split
  · have hnoted : ∀ first second, Noted s { s with crossGroupFrom := first, crossGroupTo := second } :=
      fun _ _ => ⟨_, _, _, _, _, rfl⟩
    exact run_modify_bind (hnoted _ _).path (run_fail fun _ _ => trivial)
  · refine run_bind (run_touchAll node _) (fun _ t _ ht => ?_) fun _ _ _ _ => trivial
    refine run_modify (.single (.looked keys fun key hkey hdata => ?_)) trivial
    exact ht.2 rfl _ (mem_dataGroups hkey hdata)

theorem run_newIterator (range : KeyRange) :
    Run (EngineStep node.router) (newIterator node range) s fun _ _ => True := by
  refine run_ite (fun _ => run_fail fun _ _ => trivial) fun _ => ?_
  dsimp only
  split
  · exact run_fail fun _ _ => trivial
  · rename_i group hgroup
    refine run_bind (run_admitRead node _ group) (fun _ t _ ht => run_get_bind ?_)
      fun _ _ _ _ => trivial
    split
    · exact run_fail fun _ _ => trivial
    · exact run_modify_bind (.single (.scanned range group hgroup (ht rfl))) (run_pure trivial)

/-! ### The write slot -/

/-- What taking the slot leaves alone. -/
structure Kept (s s' : RaftKvEngine) : Prop where
  tx : s'.tx = s.tx
  boundGroup : s'.boundGroup = s.boundGroup
  crossedGroups : s'.crossedGroups = s.crossedGroups

theorem Noted.kept (h : Noted s s') : Kept s s' := by
  obtain ⟨_, _, _, _, _, rfl⟩ := h
  exact ⟨rfl, rfl, rfl⟩

theorem run_takeSlot (group : Nat) (hfree : s.writeGroup = none) :
    Run (EngineStep router) (takeSlot node group) s fun x s' =>
      Kept s s' ∧ (x = .ok () → s'.writeGroup = some group) := by
  refine run_ite (fun _ => ?_) fun _ => ?_
  · exact run_fail fun s' h => ⟨h.kept, nofun⟩
  · exact run_modify (.single (.acquired group hfree)) ⟨⟨rfl, rfl, rfl⟩, fun _ => rfl⟩

theorem run_acquireWriteSlotFor (group : Nat) :
    Run (EngineStep router) (acquireWriteSlotFor node group) s fun x s' =>
      Kept s s' ∧ (x = .ok () → s'.writeGroup.isSome = true) := by
  refine run_get_bind (run_ite (fun hheld => ?_) fun hfree => ?_)
  · exact run_pure ⟨⟨rfl, rfl, rfl⟩, fun _ => hheld⟩
  · refine run_bind (run_takeSlot node group (by simpa using hfree)) (fun _ t _ ht => ?_)
      fun _ _ _ h => ⟨h.1, nofun⟩
    have hnoted : Noted t { t with snapshot := none } := ⟨_, _, _, _, _, rfl⟩
    refine run_modify hnoted.path ⟨⟨ht.1.tx, ht.1.boundGroup, ht.1.crossedGroups⟩, fun _ => ?_⟩
    show t.writeGroup.isSome = true
    rw [ht.2 rfl]
    rfl

theorem run_releaseWriteSlot :
    Run (EngineStep router) releaseWriteSlot s fun _ s' => s'.tx = s.tx := by
  refine run_get_bind ?_
  split
  · exact run_pure rfl
  · rename_i group hheld
    exact run_modify (.single (.released group hheld)) rfl

/-! ### Writes -/

/-- The groups of the operations are one group. -/
theorem run_routeOps (group : Option Nat) (ops : List Op) :
    Run (EngineStep router) (routeOps router group ops) s fun x _ =>
      ∀ found, x = .ok found → (∀ first, group = some first → found = some first) ∧
        ∀ g, found = some g → ∀ op ∈ ops, router.opGroup op = some g := by
  induction ops generalizing s group with
  | nil =>
    refine run_pure fun found hfound => ?_
    cases hfound
    exact ⟨fun _ h => h, by simp⟩
  | cons op rest ih =>
    unfold routeOps
    split
    · exact run_fail fun _ _ => nofun
    · rename_i opGroup hop
      -- the rest is gone through with the group of this operation
      have hrest : (∀ first, group = some first → opGroup = first) → Run (EngineStep router)
          (routeOps router (some opGroup) rest) s fun x _ => ∀ found, x = .ok found →
            (∀ first, group = some first → found = some first) ∧
              ∀ g, found = some g → ∀ o ∈ op :: rest, router.opGroup o = some g := by
        refine fun hgroup => (ih (some opGroup)).weaken fun x s' _ h found hok => ?_
        obtain ⟨hfirst, hrest⟩ := h found hok
        refine ⟨fun first hsome => ?_, fun g hg => List.forall_mem_cons.mpr ⟨?_, hrest g hg⟩⟩
        · rw [hfirst opGroup rfl, hgroup first hsome]
        · rw [hop, ← hfirst opGroup rfl, hg]
      split
      · exact hrest (by simp)
      · rename_i first
        refine run_ite (fun _ => ?_) fun hsame => ?_
        · have hnoted : Noted s { s with crossGroupFrom := some first, crossGroupTo := some opGroup } :=
            ⟨_, _, _, _, _, rfl⟩
          exact run_modify_bind hnoted.path (run_fail fun _ _ => nofun)
        · obtain rfl : first = opGroup := not_not.mp hsame
          exact hrest fun _ h => Option.some.inj h

/-- A batch that may be handed to the group: the operations of one write, or the whole buffer. -/
def Submittable (router : GroupRouter) (s : RaftKvEngine) (group : Nat) (batch : WriteBatch) : Prop :=
  (s.tx = none ∧ ∀ op ∈ batch, router.opGroup op = some group) ∨
    ∃ tx, s.tx = some tx ∧ tx.log = batch ∧ batch ≠ []

theorem run_submit (group : Nat) (batch : WriteBatch)
    (hheld : s.writeGroup = some group) (hbatch : Submittable router s group batch) :
    Run (EngineStep router) (submit node group batch) s fun _ s' => s'.tx = s.tx := by
  refine run_get_bind ?_
  refine run_ite (fun _ => ?_) fun _ => ?_
  · exact run_modify_bind (.single (.unrouted group)) (run_throw rfl)
  · refine run_modify_bind (.single (.proposed batch group hheld hbatch)) ?_
    have hdrop : ∀ t : RaftKvEngine,
        Run (EngineStep router) dropSlotOutside t fun _ s' => s'.tx = t.tx := fun t =>
      run_get_bind (run_ite (fun _ => run_releaseWriteSlot) fun _ => run_pure rfl)
    refine run_bind (hdrop _) (fun _ t _ ht => ?_) fun _ _ _ h => h
    exact run_ite (fun _ => run_fail fun _ h => h.kept.tx.trans ht) fun _ =>
      run_modify (Noted.path ⟨_, _, _, _, _, rfl⟩) ht

theorem run_proposeBatch (group : Nat) (batch : WriteBatch)
    (hbatch : Submittable router s group batch) :
    Run (EngineStep router) (proposeBatch node group batch) s fun _ s' => s'.tx = s.tx := by
  refine run_get_bind (run_ite (fun _ => ?_) fun hheld => ?_)
  · exact run_fail fun _ h => h.kept.tx
  · have hslot : Run (EngineStep router)
        (Prog.when (s.writeGroup = none) (takeSlot node group) : Act Unit) s fun x t =>
        Kept s t ∧ (x = .ok () → t.writeGroup = some group) := by
      refine run_ite (fun hfree => run_takeSlot node group hfree) fun hsome => ?_
      obtain ⟨held, heq⟩ := Option.ne_none_iff_exists'.mp hsome
      rw [heq] at hheld
      refine run_pure ⟨⟨rfl, rfl, rfl⟩, fun _ => ?_⟩
      rw [heq]
      simpa using hheld
    refine run_bind hslot (fun _ t _ ht => ?_) fun _ _ _ h => h.1.tx
    have hnoted : Noted t { t with snapshot := if t.tx.isSome then none else t.snapshot } :=
      ⟨_, _, _, _, _, rfl⟩
    refine run_modify_bind hnoted.path ?_
    have hheld' : { t with snapshot := if t.tx.isSome then none else t.snapshot }.writeGroup
        = some group := ht.2 rfl
    refine (run_submit node group batch hheld' ?_).weaken fun _ _ _ h => h.trans ht.1.tx
    unfold Submittable at hbatch ⊢
    rwa [ht.1.tx]

theorem run_writeBatch (batch : WriteBatch) (hwf : s.Wf) :
    Run (EngineStep node.router) (writeBatch node batch) s fun _ _ => True := by
  refine run_ite (fun _ => run_throw trivial) fun _ => ?_
  refine run_bind (run_routeOps none batch) (fun found t hpath hfound => ?_)
    fun _ _ _ _ => trivial
  cases found with
  | none => exact run_pure trivial
  | some group =>
    have hops := (hfound (some group) rfl).2 group rfl
    refine run_get_bind (run_ite (fun hnone => ?_) fun hsome => ?_)
    · refine (run_proposeBatch node group batch (Or.inl ⟨?_, hops⟩)).weaken fun _ _ _ _ => trivial
      simpa using hnone
    · refine run_bind (run_checkGroup group true) (fun _ u _ hu => ?_)
        fun _ _ _ _ => trivial
      refine run_bind (run_acquireWriteSlotFor node group) (fun _ v _ hv => ?_) fun _ _ _ _ => trivial
      obtain ⟨hbound, hcrossed⟩ := hu.2 rfl (wf_path hpath hwf)
      refine run_modify (.single (.buffered batch group ?_ ?_ ?_ (hv.2 rfl) hops)) trivial
      · rw [hv.1.tx, hu.1.tx]
        exact Option.isSome_iff_ne_none.mpr (by simpa using hsome)
      · rw [hv.1.boundGroup, hbound]
      · rw [hv.1.crossedGroups, hcrossed]

/-! ### Transactions -/

theorem run_finish (htx : s.tx.isSome = true) :
    Run (EngineStep router) finish s fun _ _ => True :=
  run_modify_bind (.single (.ended htx)) (run_releaseWriteSlot.weaken fun _ _ _ _ => trivial)

theorem run_beginTransaction :
    Run (EngineStep router) (beginTransaction node) s fun _ _ => True := by
  refine run_get_bind (run_ite (fun _ => run_throw trivial) fun _ => ?_)
  refine run_ite (fun _ => run_throw trivial) fun hnone => ?_
  have hbarrier : Run (EngineStep router)
      (Prog.when (node.executors.length = 1) (ensureReadable node 0) : Act Unit) s
      fun _ t => Noted s t :=
    run_ite (fun _ => run_ensureReadable node 0) fun _ => run_pure (Noted.refl s)
  refine run_bind hbarrier (fun _ t _ ht => ?_) fun _ _ _ _ => trivial
  refine run_ite (fun _ => run_throw trivial) fun _ => ?_
  refine run_modify (.single (.began _ _ ?_)) trivial
  rw [ht.kept.tx]
  simpa using hnone

theorem run_commitTransaction :
    Run (EngineStep router) (commitTransaction node) s fun _ _ => True := by
  refine run_get_bind (run_ite (fun _ => run_throw trivial) fun _ => ?_)
  split
  · exact run_throw trivial
  · rename_i tx htx
    have hsome : s.tx.isSome = true := by simp [htx]
    refine run_ite (fun _ => run_throw trivial) fun _ => ?_
    refine run_ite (fun _ => run_finish hsome) fun hlog => ?_
    split
    · exact run_fail fun _ _ => trivial
    · rename_i group _
      refine run_bind (run_proposeBatch node group tx.toBatch (Or.inr ⟨tx, htx, rfl, hlog⟩))
        (fun _ t _ ht => run_finish ?_) fun _ _ _ _ => trivial
      rw [ht, hsome]

theorem run_rollbackTransaction : Run (EngineStep router) rollbackTransaction s fun _ _ => True :=
  run_get_bind (run_ite (fun _ => run_throw trivial) fun hsome =>
    run_finish (Option.isSome_iff_ne_none.mpr (by simpa using hsome)))

theorem call_get (key : Bytes) :
    (call node (.get key) s).2 = (get node key s).2 := Prog.bind_pure_state _ _

theorem call_existsKey (key : Bytes) :
    (call node (.existsKey key) s).2 = (get node key s).2 :=
  (Prog.bind_pure_state _ _).trans (existsKey_state node key s)

theorem call_newIterator (range : KeyRange) :
    (call node (.newIterator range) s).2 = (newIterator node range s).2 := Prog.bind_pure_state _ _

/-- **Every call is a path of steps**, whatever the node answers. -/
theorem run_call (c : Call) (hwf : s.Wf) :
    Path node.router s (call node c s).2 := by
  cases c with
  | get key =>
    rw [call_get]
    exact (run_getKey node key).path
  | existsKey key =>
    rw [call_existsKey]
    exact (run_getKey node key).path
  | getBatch keys => exact (run_getBatch node keys).path
  | newIterator range =>
    rw [call_newIterator]
    exact (run_newIterator node range).path
  | put | remove => exact (run_writeBatch node _ hwf).path
  | writeBatch batch => exact (run_writeBatch node batch hwf).path
  | beginTransaction => exact (run_beginTransaction node).path
  | commitTransaction => exact (run_commitTransaction node).path
  | rollbackTransaction => exact run_rollbackTransaction.path
  | acquireWriteSlot group => exact (run_acquireWriteSlotFor node _).path
  | releaseWriteSlot => exact run_releaseWriteSlot.path

end Walk

end RaftKvEngine

end SqlDb.Raft
