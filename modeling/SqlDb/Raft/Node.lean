/-
  ONE RAFT NODE  (raft/raft_node.h and raft/raft_node.cpp).

  The node is a record of the class's fields; the objects it only refers to are fields too: the log
  store, the state machine (any `StateMachine σ`), and the time the clock shows during the current
  step.  Calls to the transport append to `outbox`, which the surrounding group empties.

    * a method that returns `std::expected<T, Error>` is an `Act σ T`: it may stop with an error and
      keeps the fields it has already written;
    * a `void` method that cannot fail is a function on the record;
    * `if (auto r = f(); !r.has_value()) record_error(r.error());` is `recording f`.

  Left out: the wall-clock counters of the apply path and the group id (one group is modelled, and
  every message of it carries the same id).
-/
import SqlDb.Lib.Prog
import SqlDb.Lib.OrdMap
import SqlDb.Raft.LogStore
import Mathlib.Algebra.Order.Ring.Nat
import Mathlib.Data.List.Sort

namespace SqlDb.Raft

/-- The interface of raft/state_machine.h.  `apply` and `restore` may change the machine even when
    they fail. -/
class StateMachine (σ : Type) where
  apply : σ → LogEntry → Except Error String × σ
  snapshot : σ → Kv.KeyRange → Except Error Bytes
  restore : σ → Kv.KeyRange → Bytes → Except Error Unit × σ

/-- A read that waits for `round` to be acknowledged and `targetIndex` to be applied. -/
structure PendingReadBarrier where
  round : Nat
  targetIndex : Nat
  completion : CompletionId
deriving DecidableEq, Repr

/-- A snapshot that is being received chunk by chunk. -/
structure PendingSnapshot where
  term : Nat
  lastIncludedIndex : Nat
  lastIncludedTerm : Nat
  buffer : Bytes
deriving DecidableEq, Repr

structure RaftNode (σ : Type) where
  config : NodeConfig
  logStore : LogStore
  stateMachine : σ
  now : Nat := 0
  hardState : HardState := {}
  role : Role := .follower
  leaderId : Option NodeId := none
  lastLogIndex : Nat := 0
  lastIncludedIndex : Nat := 0
  lastIncludedTerm : Nat := 0
  commitIndex : Nat := 0
  lastApplied : Nat := 0
  applyCount : Nat := 0
  readBarrierCount : Nat := 0
  nextIndex : OrdMap Nat := []
  matchIndex : OrdMap Nat := []
  votesReceived : List NodeId := []
  pendingProposals : OrdMap CompletionId := []
  pendingReadBarriers : List PendingReadBarrier := []
  heartbeatRound : Nat := 0
  peerAckedRound : OrdMap Nat := []
  pendingSnapshot : Option PendingSnapshot := none
  electionDeadline : Nat := 0
  nextHeartbeat : Nat := 0
  lastError : Option Error := none
  /-- Messages handed to the transport during the current step. -/
  outbox : List (NodeId × Message) := []
  /-- What happened during the current step. -/
  events : List Event := []
  /-- How many completions this node has created. -/
  nextCompletion : CompletionId := 0

/-- A method that may fail. -/
abbrev Act (σ A : Type) := Prog (RaftNode σ) Error A

/-- Leader snapshot transfer chunk size. -/
def kSnapshotChunkBytes : Nat := 2 ^ 20

/-- Follower-side guard against a broken leader filling memory with chunks. -/
def kMaxPendingSnapshotBytes : Nat := 2 ^ 30

def logIsUpToDate (lastLogIndex lastLogTerm candidateIndex candidateTerm : Nat) : Bool :=
  if candidateTerm ≠ lastLogTerm then decide (lastLogTerm < candidateTerm)
  else decide (lastLogIndex ≤ candidateIndex)

namespace RaftNode

variable {σ : Type}

/-! ## Small helpers -/

def send (dst : NodeId) (message : Message) (x : RaftNode σ) : RaftNode σ :=
  { x with outbox := x.outbox ++ [(dst, message)] }

def emit (event : Event) (x : RaftNode σ) : RaftNode σ :=
  { x with events := x.events ++ [event] }

/-- `completion->finish(error, result)` on each of the given completions. -/
def finish (ids : List CompletionId) (error : Option Error) (x : RaftNode σ) : RaftNode σ :=
  { x with events := x.events ++ ids.map fun id => .finished id error x.lastApplied }

def recordError (error : Error) (x : RaftNode σ) : RaftNode σ :=
  { x with lastError := some error }

def recording (m : Act σ Unit) : Act σ Unit := Prog.orElse m recordError

/-- A write to the log store; a refused write leaves the node unchanged. -/
def writeLog (op : LogStore → Except Error LogStore) : Act σ Unit := do
  let x ← Prog.get
  let store ← Prog.lift (op x.logStore)
  Prog.modify fun x => { x with logStore := store }

variable (x : RaftNode σ)

/-- A deterministic offset breaks ties between nodes. -/
def resetElectionDeadline : RaftNode σ :=
  let offset := (x.config.nodeId % 5) * (x.config.electionTimeoutMs / 10)
  { x with electionDeadline := x.now + x.config.electionTimeoutMs + offset }

def hasQuorum (count : Nat) : Bool :=
  decide (x.config.peers.length / 2 + 1 ≤ count)

/-- `match_index_` of a peer, `0` when it has none. -/
def matchOf (peer : NodeId) : Nat := (x.matchIndex.find peer).getD 0

/-- The match indexes in decreasing order, and of these the one in the middle. -/
def quorumMatchIndex : Nat :=
  let sorted := (x.config.peers.map x.matchOf).insertionSort (· ≥ ·)
  sorted.getD ((sorted.length - 1) / 2) 0

def quorumAcknowledged (round : Nat) : Bool :=
  let acked := x.config.peers.filter fun peer =>
    peer != x.config.nodeId &&
      match x.peerAckedRound.find peer with
      | some r => decide (round ≤ r)
      | none => false
  x.hasQuorum (1 + acked.length)

def snapshotRange : Kv.KeyRange :=
  { x.config.groupRange with
    start := some (x.config.groupRange.start.getD [])
    direction := .forward }

def lastLogTerm : Except Error Nat :=
  if x.lastLogIndex = 0 then .ok 0
  else (x.logStore.entryAt x.lastLogIndex).map LogEntry.term

def initializeLeaderProgress : RaftNode σ :=
  { x with
    nextIndex := x.config.peers.foldl (fun m peer => m.insert peer (x.lastLogIndex + 1)) []
    matchIndex := x.config.peers.foldl
      (fun m peer => m.insert peer (if peer = x.config.nodeId then x.lastLogIndex else 0)) []
    peerAckedRound := []
    heartbeatRound := 0 }

/-! ## Completions -/

def completeAppliedProposal (index : Nat) (x : RaftNode σ) : RaftNode σ :=
  match x.pendingProposals.find index with
  | none => x
  | some id => finish [id] none { x with pendingProposals := x.pendingProposals.erase index }

def completeAppliedProposalsUpto (index : Nat) (x : RaftNode σ) : RaftNode σ :=
  let done := x.pendingProposals.filter fun p => p.1 ≤ index
  finish (done.map Prod.snd) none
    { x with pendingProposals := x.pendingProposals.filter fun p => ¬ p.1 ≤ index }

def failPendingProposals (fromIndex : Option Nat) (error : Error) (x : RaftNode σ) :
    RaftNode σ :=
  let hit (p : Nat × CompletionId) : Bool :=
    match fromIndex with
    | none => true
    | some i => decide (i ≤ p.1)
  finish ((x.pendingProposals.filter hit).map Prod.snd) (some error)
    { x with pendingProposals := x.pendingProposals.filter fun p => !hit p }

def failReadBarriers (error : Error) (x : RaftNode σ) : RaftNode σ :=
  finish (x.pendingReadBarriers.map PendingReadBarrier.completion) (some error)
    { x with pendingReadBarriers := [] }

/-- The barrier's round is acknowledged by a majority and its index is applied. -/
def barrierReady (b : PendingReadBarrier) : Bool :=
  x.quorumAcknowledged b.round && decide (b.targetIndex ≤ x.lastApplied)

def evaluateReadBarriers : RaftNode σ :=
  finish ((x.pendingReadBarriers.filter x.barrierReady).map PendingReadBarrier.completion) none
    { x with pendingReadBarriers := x.pendingReadBarriers.filter fun b => !x.barrierReady b }

/-! ## Applying -/

variable [StateMachine σ]

/-- The loop of `apply_committed`; each iteration applies one entry, so `commitIndex - lastApplied`
    iterations reach its end. -/
def applyLoop : Nat → Act σ Unit
  | 0 => pure ()
  | fuel + 1 => do
    let x ← Prog.get
    if x.lastApplied < x.commitIndex then
      let entry ← Prog.lift (x.logStore.entryAt (x.lastApplied + 1))
      let (result, machine) := StateMachine.apply x.stateMachine entry
      Prog.modify fun x => { x with stateMachine := machine, applyCount := x.applyCount + 1 }
      match result with
      | .error e =>
        Prog.modify (emit (.applied x.hardState.term entry (some e)))
        Prog.modify (failPendingProposals (some (x.lastApplied + 1)) e)
        Prog.modify (failReadBarriers e)
        Prog.throw e
      | .ok _ =>
        Prog.modify (emit (.applied x.hardState.term entry none))
        Prog.modify fun x => { x with lastApplied := x.lastApplied + 1 }
        Prog.modify (completeAppliedProposal (x.lastApplied + 1))
        applyLoop fuel
    else pure ()

def applyCommitted : Act σ Unit := do
  let x ← Prog.get
  applyLoop (x.commitIndex - x.lastApplied)
  Prog.modify evaluateReadBarriers

/-! ## Sending -/

/-- The chunks of a snapshot, from `offset` on.  Each takes at least one byte, so `blob.length`
    iterations reach the end. -/
def snapshotChunks (header : InstallSnapshotRequest) (blob : Bytes) :
    Nat → Nat → List InstallSnapshotRequest
  | 0, _ => []
  | fuel + 1, offset =>
    if offset < blob.length then
      let take := min kSnapshotChunkBytes (blob.length - offset)
      { header with
        offset := offset
        done := offset + take == blob.length
        data := (blob.drop offset).take take } :: snapshotChunks header blob fuel (offset + take)
    else []

/-- The messages that carry a snapshot; an empty one still needs one frame. -/
def snapshotMessages (header : InstallSnapshotRequest) (blob : Bytes) :
    List InstallSnapshotRequest :=
  if blob = [] then [{ header with offset := 0, done := true, data := [] }]
  else snapshotChunks header blob blob.length 0

def sendSnapshot (dst : NodeId) : Act σ Unit := do
  let x ← Prog.get
  if x.lastIncludedIndex = 0 then pure ()
  else
    let blob ← Prog.lift (StateMachine.snapshot x.stateMachine x.snapshotRange)
    let includedIndex := x.lastApplied
    let includedTerm ← Prog.lift
      (if includedIndex = x.lastIncludedIndex then .ok x.lastIncludedTerm
       else (x.logStore.entryAt includedIndex).map LogEntry.term)
    let header : InstallSnapshotRequest :=
      { term := x.hardState.term, leaderId := x.config.nodeId,
        lastIncludedIndex := includedIndex, lastIncludedTerm := includedTerm,
        offset := 0, done := true, data := [] }
    (snapshotMessages header blob).forM fun request =>
      Prog.modify (send dst (.installSnapshot request))
    -- optimistically move the follower past the snapshot
    Prog.modify fun x => { x with
      nextIndex := x.nextIndex.insert dst (includedIndex + 1)
      matchIndex := x.matchIndex.insert dst (max (x.matchOf dst) includedIndex) }

/-- The entries `next, next + 1, …`, `count` of them. -/
def entriesFrom (store : LogStore) (next : Nat) : Nat → Except Error (List LogEntry)
  | 0 => .ok []
  | count + 1 =>
    match store.entryAt next with
    | .error e => .error e
    | .ok entry => (entriesFrom store (next + 1) count).map (entry :: ·)

def sendAppendEntries (dst : NodeId) : Act σ Unit := do
  Prog.modify fun x => { x with
    nextIndex := x.nextIndex.touch dst (x.lastLogIndex + 1)
    matchIndex := x.matchIndex.touch dst 0 }
  let x ← Prog.get
  let next := (x.nextIndex.find dst).getD 0
  if next ≤ x.lastIncludedIndex then sendSnapshot dst
  else
    let prevIndex := next - 1
    let prevTerm ← Prog.lift
      (if prevIndex = x.lastIncludedIndex then .ok x.lastIncludedTerm
       else if prevIndex ≠ 0 then (x.logStore.entryAt prevIndex).map LogEntry.term
       else .ok 0)
    let entries ← Prog.lift (entriesFrom x.logStore next (x.lastLogIndex + 1 - next))
    Prog.modify (send dst (.appendEntries
      { term := x.hardState.term, leaderId := x.config.nodeId, prevLogIndex := prevIndex,
        prevLogTerm := prevTerm, entries := entries, leaderCommit := x.commitIndex,
        round := x.heartbeatRound }))

/-- The peers other than the node itself. -/
def others : List NodeId := x.config.peers.filter (· ≠ x.config.nodeId)

def sendToPeers : Act σ Unit := do
  let x ← Prog.get
  x.others.forM fun peer => recording (sendAppendEntries peer)

def sendHeartbeats : Act σ Unit := do
  Prog.modify fun x => { x with heartbeatRound := x.heartbeatRound + 1 }
  sendToPeers

/-! ## Committing and compacting -/

def advanceCommit : Act σ Unit := do
  let x ← Prog.get
  let candidate := x.quorumMatchIndex
  if candidate ≤ x.commitIndex ∨ x.lastLogIndex < candidate then pure ()
  else
    let entry ← Prog.lift (x.logStore.entryAt candidate)
    if entry.term ≠ x.hardState.term then pure ()
    else
      Prog.modify fun x => { x with commitIndex := candidate }
      applyCommitted
      if 1 < x.config.peers.length then sendHeartbeats else pure ()

def maybeCompactLog : Act σ Unit := do
  let x ← Prog.get
  if x.role ≠ .leader ∧ x.role ≠ .follower then pure ()
  else if x.config.snapshotEntriesThreshold = 0 then pure ()
  else if x.lastLogIndex - x.lastIncludedIndex < x.config.snapshotEntriesThreshold then pure ()
  else
    let target := x.lastApplied
    if target = 0 ∨ target ≤ x.lastIncludedIndex then pure ()
    else
      let entry ← Prog.lift (x.logStore.entryAt target)
      writeLog (·.installSnapshot ⟨target, entry.term⟩)
      Prog.modify fun x => { x with lastIncludedIndex := target, lastIncludedTerm := entry.term }

/-! ## Roles -/

/-- The part of `become_follower` that cannot fail. -/
def relinquish (leaderId : Option NodeId) (x : RaftNode σ) : RaftNode σ :=
  let y := { x with role := .follower }
  let y := if x.role = .leader then
      failReadBarriers
          ⟨.notLeader, "leadership was lost before the read barrier completed"⟩
        (failPendingProposals none ⟨.notLeader, "leadership was lost before commit"⟩ y)
    else y
  resetElectionDeadline
    { y with leaderId := leaderId, votesReceived := [], pendingSnapshot := none }

def becomeFollower (term : Nat) (leaderId : Option NodeId) : Act σ Unit := do
  let x ← Prog.get
  if x.hardState.term < term then
    -- the source writes the field first and puts it back when the store refuses
    let hardState : HardState := { term := term, votedFor := none }
    writeLog (·.saveHardState hardState)
    Prog.modify fun x => relinquish leaderId { x with hardState := hardState }
  else
    Prog.modify (relinquish leaderId)

def becomeLeader : Act σ Unit := do
  let x ← Prog.get
  if x.role ≠ .candidate then pure ()
  else
    Prog.modify fun x => initializeLeaderProgress
      { x with role := .leader, leaderId := some x.config.nodeId }
    let index := x.lastLogIndex + 1
    match x.logStore.append { index := index, term := x.hardState.term, data := [] } with
    | .error e =>
      becomeFollower x.hardState.term none
      Prog.throw e
    | .ok store =>
      Prog.modify fun x => { x with
        logStore := store
        lastLogIndex := index
        matchIndex := x.matchIndex.insert x.config.nodeId index
        nextIndex := x.nextIndex.insert x.config.nodeId (index + 1) }
      sendHeartbeats
      advanceCommit

def startElection : Act σ Unit := do
  let x ← Prog.get
  let hardState : HardState :=
    { term := x.hardState.term + 1, votedFor := some x.config.nodeId }
  match x.logStore.saveHardState hardState with
  | .error e =>
    -- term, vote and role are put back; the leader hint is not
    Prog.modify fun x => { x with leaderId := none }
    Prog.throw e
  | .ok store =>
    Prog.modify fun x => resetElectionDeadline { x with
      logStore := store
      role := .candidate
      hardState := hardState
      leaderId := none
      votesReceived := [x.config.nodeId] }
    let x ← Prog.get
    if x.hasQuorum 1 then becomeLeader
    else
      let lastTerm ← Prog.lift x.lastLogTerm
      x.others.forM fun peer =>
        Prog.modify (send peer (.requestVote
          { term := x.hardState.term, candidateId := x.config.nodeId,
            lastLogIndex := x.lastLogIndex, lastLogTerm := lastTerm }))

/-! ## The public operations -/

/-- The configuration checks of `start`. -/
def checkConfig (config : NodeConfig) : Except Error Unit :=
  if config.nodeId = 0 ∨ config.peers = [] then
    .error ⟨.invalidArgument, "node id and peers are required"⟩
  else if config.nodeId ∉ config.peers then
    .error ⟨.invalidArgument, "the local node id must be included in peers"⟩
  else if ¬ config.peers.Nodup then
    .error ⟨.invalidArgument, "peers must be unique"⟩
  else if config.electionTimeoutMs ≤ config.heartbeatIntervalMs then
    .error ⟨.invalidArgument, "heartbeat interval must be smaller than election timeout"⟩
  else .ok ()

/-- The constructor keeps a timeout of `0` as `1`. -/
def normalizeConfig (config : NodeConfig) : NodeConfig :=
  { config with
    electionTimeoutMs := max config.electionTimeoutMs 1
    heartbeatIntervalMs := max config.heartbeatIntervalMs 1 }

def create (config : NodeConfig) (logStore : LogStore) (machine : σ) (now : Nat) : RaftNode σ where
  config := normalizeConfig config
  logStore := logStore
  stateMachine := machine
  now := now

def start : Act σ Unit := do
  let x ← Prog.get
  Prog.lift (checkConfig x.config)
  Prog.modify fun x => resetElectionDeadline { x with
    hardState := x.logStore.hardState
    lastLogIndex := x.logStore.lastIndex
    lastIncludedIndex := x.logStore.snapshotMeta.lastIncludedIndex
    lastIncludedTerm := x.logStore.snapshotMeta.lastIncludedTerm
    lastApplied := x.logStore.snapshotMeta.lastIncludedIndex
    commitIndex := x.logStore.snapshotMeta.lastIncludedIndex
    role := .follower
    leaderId := none
    votesReceived := []
    heartbeatRound := 0
    peerAckedRound := []
    pendingReadBarriers := []
    pendingSnapshot := none }

/-- The heartbeat and the election timer. -/
def tickTimers : Act σ Unit := do
  let x ← Prog.get
  if x.role = .leader then
    Prog.when (x.nextHeartbeat ≤ x.now) do
      sendHeartbeats
      Prog.modify fun x => { x with nextHeartbeat := x.now + x.config.heartbeatIntervalMs }
  else Prog.when (x.electionDeadline ≤ x.now) (recording startElection)

def tick : Act σ Unit := do
  tickTimers
  recording applyCommitted
  recording maybeCompactLog

def propose (data : Bytes) : Act σ Proposal := do
  let x ← Prog.get
  if x.role ≠ .leader then
    Prog.throw ⟨.notLeader, "proposal requires the leader role"⟩
  else
    let entry : LogEntry :=
      { index := x.lastLogIndex + 1, term := x.hardState.term, data := data }
    let store ← Prog.lift (x.logStore.append entry)
    Prog.modify fun x => emit (.proposed x.nextCompletion entry) { x with
      logStore := store
      lastLogIndex := entry.index
      matchIndex := x.matchIndex.insert x.config.nodeId entry.index
      nextIndex := x.nextIndex.insert x.config.nodeId (entry.index + 1)
      pendingProposals := x.pendingProposals.insert entry.index x.nextCompletion
      nextCompletion := x.nextCompletion + 1 }
    recording advanceCommit
    sendHeartbeats
    let y ← Prog.get
    pure { index := entry.index, term := entry.term, data := data,
           committed := decide (entry.index ≤ y.commitIndex), completion := x.nextCompletion }

/-- The new completion is finished at once, or its barrier waits. -/
def openBarrier (barrier : PendingReadBarrier) (x : RaftNode σ) : RaftNode σ :=
  let y := { x with nextCompletion := x.nextCompletion + 1 }
  if x.barrierReady barrier then finish [barrier.completion] none y
  else { y with pendingReadBarriers := y.pendingReadBarriers ++ [barrier] }

def readBarrier : Act σ ReadIndex := do
  Prog.modify fun x => { x with readBarrierCount := x.readBarrierCount + 1 }
  let x ← Prog.get
  if x.role ≠ .leader then
    Prog.throw ⟨.notLeader, "read barrier requires the leader role"⟩
  else
    let target := x.commitIndex
    sendHeartbeats
    let y ← Prog.get
    let barrier : PendingReadBarrier :=
      { round := y.heartbeatRound, targetIndex := target, completion := x.nextCompletion }
    Prog.modify (openBarrier barrier)
    pure { index := target, term := x.hardState.term, completion := x.nextCompletion }

/-! ## Handling messages -/

def handleRequestVote (src : NodeId) (request : RequestVoteRequest) : Act σ Unit := do
  let x ← Prog.get
  if request.term < x.hardState.term then
    Prog.modify (send src (.requestVoteResponse ⟨x.hardState.term, false⟩))
  else
    Prog.when (x.hardState.term < request.term) (becomeFollower request.term none)
    let x ← Prog.get
    let lastTerm ← Prog.lift x.lastLogTerm
    let canVote :=
      x.hardState.votedFor = none ∨ x.hardState.votedFor = some request.candidateId
    let logOk :=
      logIsUpToDate x.lastLogIndex lastTerm request.lastLogIndex request.lastLogTerm
    if canVote ∧ logOk then
      let hardState : HardState := { x.hardState with votedFor := some request.candidateId }
      writeLog (·.saveHardState hardState)
      Prog.modify fun x => resetElectionDeadline { x with hardState := hardState }
      Prog.modify (send src (.requestVoteResponse ⟨x.hardState.term, true⟩))
    else
      Prog.modify (send src (.requestVoteResponse ⟨x.hardState.term, false⟩))

def handleRequestVoteResponse (src : NodeId) (response : RequestVoteResponse) :
    Act σ Unit := do
  let x ← Prog.get
  if x.hardState.term < response.term then recording (becomeFollower response.term none)
  else if x.role ≠ .candidate ∨ response.term ≠ x.hardState.term ∨ !response.voteGranted then
    pure ()
  else
    Prog.modify fun x => { x with votesReceived := x.votesReceived.insert src }
    let x ← Prog.get
    if x.hasQuorum x.votesReceived.length then recording becomeLeader else pure ()

/-- An entry of the log that contradicts the leader's is cut off, with everything after it. -/
def resolveConflict (entry : LogEntry) (index : Nat) : Act σ Unit := do
  let x ← Prog.get
  if index ≤ x.lastLogIndex then
    let existing ← Prog.lift (x.logStore.entryAt index)
    if existing.term ≠ entry.term then
      let store ← Prog.lift (x.logStore.truncateSuffix index)
      Prog.modify fun x => failPendingProposals (some index)
        ⟨.notLeader, "proposal log suffix was truncated by a new leader"⟩
        { x with logStore := store, lastLogIndex := index - 1 }
    else if existing.data ≠ entry.data then
      Prog.throw ⟨.internalError, "same log position has different data in the same term"⟩
    else pure ()
  else pure ()

def appendMissing (entry : LogEntry) (index : Nat) : Act σ Unit := do
  let x ← Prog.get
  if x.lastLogIndex < index then
    let store ← Prog.lift (x.logStore.append entry)
    Prog.modify fun x => { x with logStore := store, lastLogIndex := index }
  else pure ()

/-- The loop over the carried entries; it returns the last index it reached. -/
def appendLoop (requestTerm : Nat) : List LogEntry → Nat → Act σ Nat
  | [], index => pure index
  | entry :: rest, index =>
    if entry.index ≠ index + 1 ∨ entry.term ≠ requestTerm then
      Prog.throw
        ⟨.invalidArgument, "append entries request has inconsistent index or term"⟩
    else do
      resolveConflict entry (index + 1)
      appendMissing entry (index + 1)
      appendLoop requestTerm rest (index + 1)

/-- The term this node knows at `index`, for the consistency check. -/
def termForCheck (index : Nat) : Except Error Nat :=
  if index = x.lastIncludedIndex then .ok x.lastIncludedTerm
  else (x.logStore.entryAt index).map LogEntry.term

/-- A request of the current or a later term comes from the leader of that term. -/
def followLeader (term : Nat) (leaderId : NodeId) : Act σ Unit := do
  let x ← Prog.get
  if x.hardState.term < term ∨ x.role ≠ .follower then becomeFollower term (some leaderId)
  else Prog.modify fun x => resetElectionDeadline { x with leaderId := some leaderId }

/-- The part of `handle_append_entries` after the term has been dealt with. -/
def acceptEntries (src : NodeId) (request : AppendEntriesRequest) : Act σ Unit := do
  let x ← Prog.get
  let reject := Prog.modify (send src (.appendEntriesResponse
    { term := x.hardState.term, success := false, matchIndex := 0, round := request.round,
      hintLastIndex := x.lastLogIndex }))
  if x.lastLogIndex < request.prevLogIndex then reject
  else if request.prevLogIndex < x.lastIncludedIndex then reject
  else
    let prevTerm ← Prog.lift
      (if request.prevLogIndex = 0 then .ok request.prevLogTerm
       else x.termForCheck request.prevLogIndex)
    if prevTerm ≠ request.prevLogTerm then reject
    else
      let matched ← appendLoop request.term request.entries request.prevLogIndex
      Prog.modify fun x =>
        if x.commitIndex < request.leaderCommit then
          { x with commitIndex := min request.leaderCommit x.lastLogIndex }
        else x
      -- the reply is sent whether or not applying succeeded; the error is reported after it
      let result ← Prog.attempt applyCommitted
      let y ← Prog.get
      Prog.modify (send src (.appendEntriesResponse
        { term := y.hardState.term, success := true, matchIndex := matched,
          round := request.round }))
      Prog.lift result

def handleAppendEntries (src : NodeId) (request : AppendEntriesRequest) : Act σ Unit := do
  let x ← Prog.get
  if request.term < x.hardState.term then
    Prog.modify (send src (.appendEntriesResponse
      { term := x.hardState.term, success := false, matchIndex := 0, round := request.round }))
  else
    followLeader request.term request.leaderId
    acceptEntries src request

def handleAppendEntriesResponse (src : NodeId) (response : AppendEntriesResponse) :
    Act σ Unit := do
  let x ← Prog.get
  if x.hardState.term < response.term then recording (becomeFollower response.term none)
  else if x.role ≠ .leader ∨ response.term ≠ x.hardState.term then pure ()
  else if response.success then
    let matched := max (x.matchOf src) response.matchIndex
    Prog.modify fun x => { x with
      matchIndex := x.matchIndex.insert src matched
      nextIndex := x.nextIndex.insert src
        (max ((x.nextIndex.find src).getD 0) (matched + 1))
      peerAckedRound := x.peerAckedRound.insert src
        (max ((x.peerAckedRound.find src).getD 0) response.round) }
    recording do
      advanceCommit
      Prog.modify evaluateReadBarriers
      let y ← Prog.get
      if y.matchOf src < y.lastLogIndex ∨ y.commitIndex ≠ x.commitIndex then
        sendAppendEntries src
      else pure ()
  else
    let next := (x.nextIndex.find src).getD 0
    if 1 < next ∧ response.hintLastIndex < x.lastIncludedIndex then
      recording (sendSnapshot src)
    else
      Prog.modify fun x => { x with
        nextIndex := x.nextIndex.insert src (if 1 < next then next - 1 else next) }
      recording (sendAppendEntries src)

/-- The part of `handle_install_snapshot` that runs once the last chunk has arrived. -/
def completeInstall (src : NodeId) (pending : PendingSnapshot) : Act σ Unit := do
  let x ← Prog.get
  let refuse := Prog.modify fun x : RaftNode σ =>
    send src (.installSnapshotResponse ⟨x.hardState.term, false⟩)
      { x with pendingSnapshot := none }
  let (result, machine) :=
    StateMachine.restore x.stateMachine x.snapshotRange pending.buffer
  Prog.modify fun x => { x with stateMachine := machine }
  match result with
  | .error e =>
    refuse
    Prog.throw e
  | .ok () =>
    let boundary : SnapshotMetadata := ⟨pending.lastIncludedIndex, pending.lastIncludedTerm⟩
    match x.logStore.installSnapshot boundary with
    | .error e =>
      -- the machine is now ahead of the log
      Prog.modify (emit .unrecorded)
      refuse
      Prog.throw e
    | .ok store =>
      Prog.modify fun x =>
        evaluateReadBarriers (completeAppliedProposalsUpto boundary.lastIncludedIndex { x with
          logStore := store
          pendingSnapshot := none
          lastIncludedIndex := boundary.lastIncludedIndex
          lastIncludedTerm := boundary.lastIncludedTerm
          lastLogIndex := max x.lastLogIndex boundary.lastIncludedIndex
          lastApplied := max x.lastApplied boundary.lastIncludedIndex
          commitIndex := max x.commitIndex boundary.lastIncludedIndex })
      Prog.modify fun x => send src (.installSnapshotResponse ⟨x.hardState.term, true⟩) x

/-- Add a chunk to the snapshot being received. -/
def acceptChunk (src : NodeId) (request : InstallSnapshotRequest) (termChanged : Bool) :
    Act σ Unit := do
  let x ← Prog.get
  let refuse := Prog.modify fun x : RaftNode σ =>
    send src (.installSnapshotResponse ⟨x.hardState.term, false⟩)
      { x with pendingSnapshot := none }
  let fresh : PendingSnapshot :=
    ⟨request.term, request.lastIncludedIndex, request.lastIncludedTerm, []⟩
  let pending :=
    if request.offset = 0 ∨ termChanged then fresh else x.pendingSnapshot.getD fresh
  if pending.lastIncludedIndex ≠ request.lastIncludedIndex ∨
      pending.lastIncludedTerm ≠ request.lastIncludedTerm ∨
      request.offset ≠ pending.buffer.length then
    refuse
  else
    let pending := { pending with buffer := pending.buffer ++ request.data }
    if kMaxPendingSnapshotBytes < pending.buffer.length then
      refuse
      Prog.throw
        ⟨.invalidArgument, "raft snapshot exceeds the pending-buffer size limit"⟩
    else
      Prog.modify fun x => { x with pendingSnapshot := some pending }
      if request.done then completeInstall src pending else pure ()

def handleInstallSnapshot (src : NodeId) (request : InstallSnapshotRequest) :
    Act σ Unit := do
  let x ← Prog.get
  if request.term < x.hardState.term then
    Prog.modify (send src (.installSnapshotResponse ⟨x.hardState.term, false⟩))
  else
    let termChanged := decide (x.hardState.term < request.term)
    followLeader request.term request.leaderId
    let x ← Prog.get
    if request.lastIncludedIndex = 0 ∨ request.lastIncludedTerm = 0 then
      Prog.modify (send src (.installSnapshotResponse ⟨x.hardState.term, false⟩))
    else if request.lastIncludedIndex < x.lastApplied then
      Prog.modify (send src (.installSnapshotResponse ⟨x.hardState.term, false⟩))
    else acceptChunk src request termChanged

def handleInstallSnapshotResponse (src : NodeId) (response : InstallSnapshotResponse) :
    Act σ Unit := do
  let x ← Prog.get
  if x.hardState.term < response.term then recording (becomeFollower response.term none)
  else if x.role ≠ .leader ∨ response.term ≠ x.hardState.term then pure ()
  else if response.success then
    if x.matchOf src < x.lastLogIndex then recording (sendAppendEntries src)
    else pure ()
  else
    Prog.modify (recordError ⟨.internalError, "peer failed to install the raft snapshot"⟩)

def handleMessage (src : NodeId) (message : Message) : Act σ Unit :=
  match message with
  | .requestVote request => recording (handleRequestVote src request)
  | .requestVoteResponse response => handleRequestVoteResponse src response
  | .appendEntries request => recording (handleAppendEntries src request)
  | .appendEntriesResponse response => handleAppendEntriesResponse src response
  | .installSnapshot request => recording (handleInstallSnapshot src request)
  | .installSnapshotResponse response => handleInstallSnapshotResponse src response

end RaftNode

end SqlDb.Raft
