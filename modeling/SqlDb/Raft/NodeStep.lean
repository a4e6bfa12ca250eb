/-
  WHAT ONE NODE CAN DO.

  `NodeStep J inp x y` lists, once and for all, the changes a node makes to itself while it handles
  `inp` (the message being delivered, if any), each with everything the code has CHECKED by then.
  The handlers of `Node.lean` are sequences of these steps (shown in `NodeRun.lean`), so whatever
  every step preserves, every handler preserves — and no later proof opens a handler again.

  The steps are cut where the node is in a state that makes sense on its own.  Two places where the
  source passes through a state that does not are single steps here: stepping down (role, term,
  vote and the waiting clients change together) and taking office (the role changes together with
  the no-op entry).
-/
import SqlDb.Raft.Node

namespace SqlDb.Raft

/-- The term an append request asserts for index `i`, for `i` between `prevLogIndex` and the last
    entry it carries. -/
def AppendEntriesRequest.termAt (q : AppendEntriesRequest) (i : Nat) : Option Nat :=
  if i = q.prevLogIndex then some q.prevLogTerm
  else (q.entries[i - q.prevLogIndex - 1]?).map LogEntry.term

/-- The last index an append request speaks about. -/
def AppendEntriesRequest.lastIndex (q : AppendEntriesRequest) : Nat :=
  q.prevLogIndex + q.entries.length

namespace RaftNode

variable {σ : Type}

/-- The node without the fields no safety argument depends on. -/
def core (x : RaftNode σ) : RaftNode σ :=
  { x with
    now := 0, leaderId := none, applyCount := 0, readBarrierCount := 0, nextIndex := [],
    electionDeadline := 0, nextHeartbeat := 0, lastError := none }

/-- The node's log and the request agree on the term at index `i`. -/
def MatchesAt (x : RaftNode σ) (q : AppendEntriesRequest) (i : Nat) : Prop :=
  x.lastIncludedIndex ≤ i ∧ i ≤ x.lastLogIndex ∧
    (i = 0 ∨ ∃ e, x.logStore.entryAt i = .ok e ∧ q.termAt i = some e.term)

/-- An append request that a leader may build from its own log. -/
structure BuiltBy (x : RaftNode σ) (q : AppendEntriesRequest) : Prop where
  term : q.term = x.hardState.term
  leaderId : q.leaderId = x.config.nodeId
  leaderCommit : q.leaderCommit = x.commitIndex
  round : q.round = x.heartbeatRound
  last : q.lastIndex = x.lastLogIndex
  prev : q.prevLogIndex = 0 ∨
    ∃ e, x.logStore.entryAt q.prevLogIndex = .ok e ∧ e.term = q.prevLogTerm
  above : x.lastIncludedIndex ≤ q.prevLogIndex
  entries : ∀ (k : Nat) e, q.entries[k]? = some e →
    x.logStore.entryAt (q.prevLogIndex + k + 1) = .ok e

/-- No index above the commit index is ripe: the median of the match indexes does not exceed it, or
    is out of the log, or holds an entry of another term. -/
def Settled (x : RaftNode σ) : Prop :=
  x.quorumMatchIndex ≤ x.commitIndex ∨ x.lastLogIndex < x.quorumMatchIndex ∨
    ∀ e, x.logStore.entryAt x.quorumMatchIndex = .ok e → e.term ≠ x.hardState.term

/-- The node's log goes on from the snapshot `boundary`: it ends there, or holds an entry of the same
    term at that place. -/
def Joins (x : RaftNode σ) (boundary : SnapshotMetadata) : Prop :=
  x.lastLogIndex ≤ boundary.lastIncludedIndex ∨
    (x.logStore.entryAt boundary.lastIncludedIndex).map LogEntry.term = .ok boundary.lastIncludedTerm

instance (x : RaftNode σ) (boundary : SnapshotMetadata) : Decidable (x.Joins boundary) :=
  inferInstanceAs (Decidable (_ ∨ _))

variable [StateMachine σ]

/-- What must hold of a node that sends `message` to `dst` while handling `inp`. -/
def Sendable (inp : Option (NodeId × Message)) (x : RaftNode σ) (dst : NodeId) : Message → Prop
  | .requestVote r =>
    x.role = .candidate ∧ dst ≠ x.config.nodeId ∧ r.term = x.hardState.term ∧
      r.candidateId = x.config.nodeId ∧ r.lastLogIndex = x.lastLogIndex ∧
      x.lastLogTerm = .ok r.lastLogTerm
  | .requestVoteResponse r =>
    r.term = x.hardState.term ∧ (r.voteGranted = true → ∃ q, inp = some (dst, .requestVote q) ∧
      q.term = x.hardState.term ∧ x.hardState.votedFor = some q.candidateId)
  | .appendEntries q =>
    x.role = .leader ∧ (x.nextIndex.find dst).getD 0 = q.prevLogIndex + 1 ∧ x.BuiltBy q
  | .appendEntriesResponse r =>
    r.term = x.hardState.term ∧ (r.success = true → ∃ q, inp = some (dst, .appendEntries q) ∧
      q.term = x.hardState.term ∧ x.role = .follower ∧ r.round = q.round ∧
      r.matchIndex = q.lastIndex ∧ x.MatchesAt q q.lastIndex)
  | .installSnapshot r =>
    x.role = .leader ∧ r.term = x.hardState.term ∧ r.leaderId = x.config.nodeId ∧
      r.lastIncludedIndex = x.lastApplied ∧
      (∃ e, x.logStore.entryAt x.lastApplied = .ok e ∧ e.term = r.lastIncludedTerm) ∧
      ∃ blob, StateMachine.snapshot x.stateMachine x.snapshotRange = .ok blob ∧
        r ∈ snapshotMessages r blob
  | .installSnapshotResponse r => r.term = x.hardState.term

/-- Taking office: the leader's bookkeeping and the no-op entry. -/
def takeOffice (store : LogStore) (x : RaftNode σ) : RaftNode σ :=
  let y := initializeLeaderProgress
    { x with role := .leader, leaderId := some x.config.nodeId }
  { y with
    logStore := store
    lastLogIndex := x.lastLogIndex + 1
    matchIndex := y.matchIndex.insert x.config.nodeId (x.lastLogIndex + 1)
    nextIndex := y.nextIndex.insert x.config.nodeId (x.lastLogIndex + 2) }

/-- Storing a proposal and creating its completion. -/
def appendOwn (store : LogStore) (entry : LogEntry) (x : RaftNode σ) : RaftNode σ :=
  emit (.proposed x.nextCompletion entry) { x with
    logStore := store
    lastLogIndex := entry.index
    matchIndex := x.matchIndex.insert x.config.nodeId entry.index
    nextIndex := x.nextIndex.insert x.config.nodeId (entry.index + 1)
    pendingProposals := x.pendingProposals.insert entry.index x.nextCompletion
    nextCompletion := x.nextCompletion + 1 }

/-- Applying the next entry succeeded. -/
def applied (machine : σ) (entry : LogEntry) (x : RaftNode σ) : RaftNode σ :=
  completeAppliedProposal (x.lastApplied + 1)
    { emit (.applied x.hardState.term entry none)
        { x with stateMachine := machine, applyCount := x.applyCount + 1 } with
      lastApplied := x.lastApplied + 1 }

/-- Applying the next entry failed: everyone who waits is told. -/
def applyFailed (machine : σ) (entry : LogEntry) (e : Error) (x : RaftNode σ) : RaftNode σ :=
  failReadBarriers e (failPendingProposals (some (x.lastApplied + 1)) e
    (emit (.applied x.hardState.term entry (some e))
      { x with stateMachine := machine, applyCount := x.applyCount + 1 }))

/-- The snapshot `boundary` has been restored and recorded. -/
def installed (store : LogStore) (machine : σ) (boundary : SnapshotMetadata) (x : RaftNode σ) :
    RaftNode σ :=
  evaluateReadBarriers (completeAppliedProposalsUpto boundary.lastIncludedIndex { x with
    stateMachine := machine
    logStore := store
    pendingSnapshot := none
    lastIncludedIndex := boundary.lastIncludedIndex
    lastIncludedTerm := boundary.lastIncludedTerm
    lastLogIndex := max x.lastLogIndex boundary.lastIncludedIndex
    lastApplied := max x.lastApplied boundary.lastIncludedIndex
    commitIndex := max x.commitIndex boundary.lastIncludedIndex })

/-- One change a node makes to itself while it handles `inp`.  Under `J` it only installs snapshots
    that its log goes on from. -/
inductive NodeStep (J : Prop) (inp : Option (NodeId × Message)) :
    RaftNode σ → RaftNode σ → Prop
  -- bookkeeping
  | quiet {x y : RaftNode σ} (h : core x = core y) : NodeStep J inp x y
  | touchMatch (x : RaftNode σ) (m : OrdMap Nat) (h : ∀ p, (m.find p).getD 0 = x.matchOf p) :
      NodeStep J inp x { x with matchIndex := m }
  | send (x : RaftNode σ) (dst : NodeId) (message : Message) (h : Sendable inp x dst message) :
      NodeStep J inp x (x.send dst message)
  -- terms, votes and roles
  | stepDown (x : RaftNode σ) (leaderId : Option NodeId) :
      NodeStep J inp x (relinquish leaderId x)
  | newTerm (x : RaftNode σ) (term : Nat) (leaderId : Option NodeId) (store : LogStore)
      (hterm : x.hardState.term < term)
      (hsave : x.logStore.saveHardState ⟨term, none⟩ = .ok store) :
      NodeStep J inp x
        (relinquish leaderId { x with logStore := store, hardState := ⟨term, none⟩ })
  | campaign (x : RaftNode σ) (store : LogStore) (hrole : x.role ≠ .leader)
      (hsave : x.logStore.saveHardState
        ⟨x.hardState.term + 1, some x.config.nodeId⟩ = .ok store) :
      NodeStep J inp x (resetElectionDeadline { x with
        logStore := store, role := .candidate, leaderId := none,
        hardState := ⟨x.hardState.term + 1, some x.config.nodeId⟩,
        votesReceived := [x.config.nodeId] })
  | grant (x : RaftNode σ) (src : NodeId) (q : RequestVoteRequest) (store : LogStore)
      (lastTerm : Nat) (hinp : inp = some (src, .requestVote q))
      (hterm : q.term = x.hardState.term)
      (hvote : x.hardState.votedFor = none ∨ x.hardState.votedFor = some q.candidateId)
      (hlast : x.lastLogTerm = .ok lastTerm)
      (hlog : logIsUpToDate x.lastLogIndex lastTerm q.lastLogIndex q.lastLogTerm = true)
      (hsave : x.logStore.saveHardState
        { x.hardState with votedFor := some q.candidateId } = .ok store) :
      NodeStep J inp x (resetElectionDeadline { x with
        logStore := store, hardState := { x.hardState with votedFor := some q.candidateId } })
  | countVote (x : RaftNode σ) (src : NodeId) (r : RequestVoteResponse)
      (hinp : inp = some (src, .requestVoteResponse r)) (hrole : x.role = .candidate)
      (hterm : r.term = x.hardState.term) (hgranted : r.voteGranted = true) :
      NodeStep J inp x { x with votesReceived := x.votesReceived.insert src }
  | takeOffice (x : RaftNode σ) (store : LogStore) (hrole : x.role = .candidate)
      (hquorum : x.hasQuorum x.votesReceived.length = true)
      (happend : x.logStore.append ⟨x.lastLogIndex + 1, x.hardState.term, []⟩ = .ok store) :
      NodeStep J inp x (x.takeOffice store)
  | abandon (x : RaftNode σ) (hrole : x.role = .candidate) :
      NodeStep J inp x (relinquish none (initializeLeaderProgress
        { x with role := .leader, leaderId := some x.config.nodeId }))
  -- the log
  | appendOwn (x : RaftNode σ) (store : LogStore) (data : Bytes) (hrole : x.role = .leader)
      (happend : x.logStore.append ⟨x.lastLogIndex + 1, x.hardState.term, data⟩ = .ok store) :
      NodeStep J inp x (x.appendOwn store ⟨x.lastLogIndex + 1, x.hardState.term, data⟩)
  | truncate (x : RaftNode σ) (src : NodeId) (q : AppendEntriesRequest) (k : Nat)
      (existing entry : LogEntry) (store : LogStore) (error : Error)
      (hinp : inp = some (src, .appendEntries q)) (hterm : q.term = x.hardState.term)
      (hrole : x.role = .follower) (habove : x.lastIncludedIndex ≤ q.prevLogIndex)
      (hentry : q.entries[k]? = some entry)
      (hexisting : x.logStore.entryAt (q.prevLogIndex + k + 1) = .ok existing)
      (hne : existing.term ≠ entry.term)
      (htrunc : x.logStore.truncateSuffix (q.prevLogIndex + k + 1) = .ok store) :
      NodeStep J inp x (failPendingProposals (some (q.prevLogIndex + k + 1)) error
        { x with logStore := store, lastLogIndex := q.prevLogIndex + k })
  | appendEntry (x : RaftNode σ) (src : NodeId) (q : AppendEntriesRequest) (k : Nat)
      (entry : LogEntry) (store : LogStore) (hinp : inp = some (src, .appendEntries q))
      (hterm : q.term = x.hardState.term) (hrole : x.role = .follower)
      (hentry : q.entries[k]? = some entry) (hmatch : x.MatchesAt q (q.prevLogIndex + k))
      (hlast : x.lastLogIndex = q.prevLogIndex + k)
      (hown : entry.term = q.term)
      (happend : x.logStore.append entry = .ok store) :
      NodeStep J inp x { x with logStore := store, lastLogIndex := q.prevLogIndex + k + 1 }
  | compact (x : RaftNode σ) (entry : LogEntry) (store : LogStore)
      (hlt : x.lastIncludedIndex < x.lastApplied)
      (hentry : x.logStore.entryAt x.lastApplied = .ok entry)
      (hinstall : x.logStore.installSnapshot ⟨x.lastApplied, entry.term⟩ = .ok store) :
      NodeStep J inp x { x with
        logStore := store, lastIncludedIndex := x.lastApplied, lastIncludedTerm := entry.term }
  -- replication and commit
  | progress (x : RaftNode σ) (src : NodeId) (r : AppendEntriesResponse) (next : OrdMap Nat)
      (hinp : inp = some (src, .appendEntriesResponse r)) (hrole : x.role = .leader)
      (hterm : r.term = x.hardState.term) (hsuccess : r.success = true) :
      NodeStep J inp x { x with
        nextIndex := next
        matchIndex := x.matchIndex.insert src (max (x.matchOf src) r.matchIndex)
        peerAckedRound := x.peerAckedRound.insert src
          (max ((x.peerAckedRound.find src).getD 0) r.round) }
  | optimistic (x : RaftNode σ) (dst : NodeId) (next : OrdMap Nat) (hrole : x.role = .leader) :
      NodeStep J inp x { x with
        nextIndex := next
        matchIndex := x.matchIndex.insert dst (max (x.matchOf dst) x.lastApplied) }
  | newRound (x : RaftNode σ) (hrole : x.role = .leader) :
      NodeStep J inp x { x with heartbeatRound := x.heartbeatRound + 1 }
  | commitLeader (x : RaftNode σ) (entry : LogEntry) (hrole : x.role = .leader)
      (hlt : x.commitIndex < x.quorumMatchIndex) (hle : x.quorumMatchIndex ≤ x.lastLogIndex)
      (hentry : x.logStore.entryAt x.quorumMatchIndex = .ok entry)
      (hterm : entry.term = x.hardState.term) :
      NodeStep J inp x { x with commitIndex := x.quorumMatchIndex }
  | commitFollower (x : RaftNode σ) (src : NodeId) (q : AppendEntriesRequest)
      (hinp : inp = some (src, .appendEntries q)) (hterm : q.term = x.hardState.term)
      (hrole : x.role = .follower) (hmatch : x.MatchesAt q q.lastIndex)
      (hlt : x.commitIndex < q.leaderCommit) :
      NodeStep J inp x { x with commitIndex := min q.leaderCommit x.lastLogIndex }
  -- the state machine
  | applied (x : RaftNode σ) (machine : σ) (entry : LogEntry) (result : String)
      (hlt : x.lastApplied < x.commitIndex)
      (hentry : x.logStore.entryAt (x.lastApplied + 1) = .ok entry)
      (happly : StateMachine.apply x.stateMachine entry = (.ok result, machine)) :
      NodeStep J inp x (x.applied machine entry)
  | applyFailed (x : RaftNode σ) (machine : σ) (entry : LogEntry) (e : Error)
      (hlt : x.lastApplied < x.commitIndex)
      (hentry : x.logStore.entryAt (x.lastApplied + 1) = .ok entry)
      (happly : StateMachine.apply x.stateMachine entry = (.error e, machine)) :
      NodeStep J inp x (x.applyFailed machine entry e)
  -- snapshots
  | dropSnapshot (x : RaftNode σ) : NodeStep J inp x { x with pendingSnapshot := none }
  | chunk (x : RaftNode σ) (src : NodeId) (q : InstallSnapshotRequest) (pending : PendingSnapshot)
      (hinp : inp = some (src, .installSnapshot q)) (hterm : q.term = x.hardState.term)
      (hindex : pending.lastIncludedIndex = q.lastIncludedIndex)
      (hsnapTerm : pending.lastIncludedTerm = q.lastIncludedTerm)
      (hbuffer : ∃ before, pending.buffer = before ++ q.data ∧ q.offset = before.length ∧
        (before = [] ∨ ∃ p, x.pendingSnapshot = some p ∧ p.buffer = before ∧
          p.lastIncludedIndex = q.lastIncludedIndex ∧ p.lastIncludedTerm = q.lastIncludedTerm)) :
      NodeStep J inp x { x with pendingSnapshot := some pending }
  | restoreFailed (x : RaftNode σ) (machine : σ) (pending : PendingSnapshot) (e : Error)
      (hrestore : StateMachine.restore x.stateMachine x.snapshotRange pending.buffer
        = (.error e, machine)) :
      NodeStep J inp x { x with stateMachine := machine }
  | recordFailed (x : RaftNode σ) (machine : σ) :
      NodeStep J inp x (emit .unrecorded { x with stateMachine := machine })
  | install (x : RaftNode σ) (src : NodeId) (q : InstallSnapshotRequest)
      (pending : PendingSnapshot) (machine : σ) (store : LogStore)
      (hinp : inp = some (src, .installSnapshot q)) (hterm : q.term = x.hardState.term)
      (hrole : x.role = .follower) (happlied : x.lastApplied ≤ q.lastIncludedIndex)
      (hpending : x.pendingSnapshot = some pending)
      (hindex : pending.lastIncludedIndex = q.lastIncludedIndex)
      (hsnapTerm : pending.lastIncludedTerm = q.lastIncludedTerm) (hdone : q.done = true)
      (hlast : pending.buffer.length = q.offset + q.data.length)
      (hsize : pending.buffer.length ≤ kMaxPendingSnapshotBytes)
      (hrestore : StateMachine.restore x.stateMachine x.snapshotRange pending.buffer
        = (.ok (), machine))
      (hinstall : x.logStore.installSnapshot ⟨q.lastIncludedIndex, q.lastIncludedTerm⟩
        = .ok store)
      (hjoin : J → x.Joins ⟨q.lastIncludedIndex, q.lastIncludedTerm⟩) :
      NodeStep J inp x (x.installed store machine ⟨q.lastIncludedIndex, q.lastIncludedTerm⟩)
  -- reads
  | openRead (x : RaftNode σ) (b : PendingReadBarrier) (hrole : x.role = .leader)
      (hid : b.completion = x.nextCompletion) :
      NodeStep J inp x { x with
        nextCompletion := x.nextCompletion + 1
        pendingReadBarriers := x.pendingReadBarriers ++ [b] }
  | answerRead (x : RaftNode σ) (b : PendingReadBarrier) (hrole : x.role = .leader)
      (hid : b.completion = x.nextCompletion)
      (hready : x.barrierReady b = true) (hall : x.commitIndex ≤ x.lastApplied)
      (hsettled : x.Settled) :
      NodeStep J inp x (finish [b.completion] none
        { x with nextCompletion := x.nextCompletion + 1 })
  | finishReads (x : RaftNode σ)
      (hready : ∀ b ∈ x.pendingReadBarriers, x.barrierReady b = true →
        x.commitIndex ≤ x.lastApplied ∧ x.Settled) :
      NodeStep J inp x (evaluateReadBarriers x)

end RaftNode

end SqlDb.Raft
