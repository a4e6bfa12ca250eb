import SqlDb.Raft.Safety
import SqlDb.Raft.Terms
import SqlDb.Raft.Indexes
import SqlDb.Raft.LogMatching
import SqlDb.Raft.Acceptance
import SqlDb.Raft.Reads
import SqlDb.Raft.Replay
import SqlDb.Raft.Convergence
import SqlDb.Raft.MessageCodec
import SqlDb.Raft.FrameStream
import SqlDb.Raft.CrossGroup
import SqlDb.Raft.ProposedEntries
import SqlDb.Storage.RepeatableRead
import SqlDb.Storage.LevelDbIterator
import SqlDb.SqlTypes.KeyRangeScan
import SqlDb.SqlTypes.KeyRangeSize
import SqlDb.Planner.Separation
import SqlDb.Executor.Reference
import SqlDb.Client.Script
import SqlDb.Relation.CatalogRun
import SqlDb.Session.Validated
import SqlDb.Server.Serve
