/-
  RAFT: identities, log entries, errors, configuration and messages
  (raft/types.h and raft/transport.h).

  Numbers that the source keeps in `uint64_t` are natural numbers: terms, indexes and rounds only
  ever grow by one, so nothing depends on the width.  A `Completion` — the shared object a caller
  waits on — is represented by its identity, the number of completions its node had created before
  it; finishing one is an `Event`.
-/
import SqlDb.Storage.KvEngine

namespace SqlDb.Raft

abbrev NodeId := Nat

inductive Role
  | follower | candidate | leader
deriving DecidableEq, Repr

/-- Index `0` is `kInvalidIndex`: no entry. -/
structure LogEntry where
  index : Nat := 0
  term : Nat := 0
  data : Bytes := []
deriving DecidableEq, Repr

/-- What a node must not forget across restarts: its term, and whom it voted for in it. -/
structure HardState where
  term : Nat := 0
  votedFor : Option NodeId := none
deriving DecidableEq, Repr

inductive ErrorCode
  | invalidArgument | notLeader | busy | timeout | internalError | ioError
deriving DecidableEq, Repr

structure Error where
  code : ErrorCode
  message : String
deriving DecidableEq, Repr

/-- `peers` is the voter set and includes `nodeId` itself. -/
structure NodeConfig where
  nodeId : NodeId
  peers : List NodeId
  electionTimeoutMs : Nat := 1000
  heartbeatIntervalMs : Nat := 100
  groupRange : Kv.KeyRange := {}
  /-- Compact the log once this many entries are kept; `0` disables compaction. -/
  snapshotEntriesThreshold : Nat := 0
deriving Repr

/-- The compaction point: entries at or below it live in the state machine only. -/
structure SnapshotMetadata where
  lastIncludedIndex : Nat := 0
  lastIncludedTerm : Nat := 0
deriving DecidableEq, Repr

/-! ## Messages -/

structure RequestVoteRequest where
  term : Nat
  candidateId : NodeId
  lastLogIndex : Nat
  lastLogTerm : Nat
deriving DecidableEq, Repr

structure RequestVoteResponse where
  term : Nat
  voteGranted : Bool
deriving DecidableEq, Repr

structure AppendEntriesRequest where
  term : Nat
  leaderId : NodeId
  prevLogIndex : Nat
  prevLogTerm : Nat
  entries : List LogEntry
  leaderCommit : Nat
  /-- The heartbeat round this request belongs to; the response echoes it. -/
  round : Nat
deriving DecidableEq, Repr

structure AppendEntriesResponse where
  term : Nat
  success : Bool
  matchIndex : Nat
  round : Nat
  /-- On failure, the follower's last log index. -/
  hintLastIndex : Nat := 0
deriving DecidableEq, Repr

/-- One chunk of a serialised state machine. -/
structure InstallSnapshotRequest where
  term : Nat
  leaderId : NodeId
  lastIncludedIndex : Nat
  lastIncludedTerm : Nat
  offset : Nat
  done : Bool
  data : Bytes
deriving DecidableEq, Repr

structure InstallSnapshotResponse where
  term : Nat
  success : Bool
deriving DecidableEq, Repr

inductive Message
  | requestVote (request : RequestVoteRequest)
  | requestVoteResponse (response : RequestVoteResponse)
  | appendEntries (request : AppendEntriesRequest)
  | appendEntriesResponse (response : AppendEntriesResponse)
  | installSnapshot (request : InstallSnapshotRequest)
  | installSnapshotResponse (response : InstallSnapshotResponse)
deriving DecidableEq, Repr

/-! ## What callers observe -/

/-- The identity of a completion object of one node. -/
abbrev CompletionId := Nat

/-- What `propose` returns. -/
structure Proposal where
  index : Nat
  term : Nat
  data : Bytes
  committed : Bool
  completion : CompletionId
deriving DecidableEq, Repr

/-- What `read_barrier` returns. -/
structure ReadIndex where
  index : Nat
  term : Nat
  completion : CompletionId
deriving DecidableEq, Repr

/-- The observable events of one node, in the order in which they happen. -/
inductive Event
  /-- `propose` stored `entry` and created the completion `id`. -/
  | proposed (id : CompletionId) (entry : LogEntry)
  /-- The state machine was given `entry`, while the node was in `term`. -/
  | applied (term : Nat) (entry : LogEntry) (error : Option Error)
  /-- The completion `id` was finished, when the node's applied index was `lastApplied`. -/
  | finished (id : CompletionId) (error : Option Error) (lastApplied : Nat)
  /-- A snapshot was restored into the state machine, but the log store refused to record it. -/
  | unrecorded
  /-- The process was started again; its completions are gone. -/
  | restarted
deriving DecidableEq, Repr

end SqlDb.Raft
