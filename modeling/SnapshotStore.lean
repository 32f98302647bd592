import SnapshotStore.Cancellation
import SnapshotStore.Checksum
import SnapshotStore.Command
import SnapshotStore.Config
import SnapshotStore.Console
import SnapshotStore.Coordinator
import SnapshotStore.Database
import SnapshotStore.Fault
import SnapshotStore.Frame
import SnapshotStore.Journal.Basic
import SnapshotStore.Journal.Batch
import SnapshotStore.Journal.Framing
import SnapshotStore.Journal.Store
import SnapshotStore.LockTable
import SnapshotStore.Main
import SnapshotStore.Node
import SnapshotStore.Record
import SnapshotStore.Replay
import SnapshotStore.Replica
import SnapshotStore.Replication.Follower
import SnapshotStore.Replication.Message
import SnapshotStore.Replication.Source
import SnapshotStore.Reply
import SnapshotStore.Segment.Archive
import SnapshotStore.Segment.Folder
import SnapshotStore.Segment.Log
import SnapshotStore.Segment.Name
import SnapshotStore.Shards
import SnapshotStore.Size
import SnapshotStore.SkipList
import SnapshotStore.Table
import SnapshotStore.Text.Blank
import SnapshotStore.Text.Quoted
import SnapshotStore.Text.Unprintable
import SnapshotStore.Text.Utf8
import SnapshotStore.Transaction.Basic
import SnapshotStore.Transaction.Commit
import SnapshotStore.Transaction.Lookup
import SnapshotStore.Transaction.Statement
import SnapshotStore.Wire
import SnapshotStore.Proofs.Alone.Journal
import SnapshotStore.Proofs.Alone.Locks
import SnapshotStore.Proofs.Alone.Operations
import SnapshotStore.Proofs.Checksum
import SnapshotStore.Proofs.Command
import SnapshotStore.Proofs.Coordinator
import SnapshotStore.Proofs.Frame
import SnapshotStore.Proofs.Isolation.Ideal
import SnapshotStore.Proofs.Isolation.Refinement
import SnapshotStore.Proofs.Isolation.StoredValues
import SnapshotStore.Proofs.Journal.Bursts
import SnapshotStore.Proofs.Journal.Cutting
import SnapshotStore.Proofs.Journal.Framing
import SnapshotStore.Proofs.Journal.GroupCommit
import SnapshotStore.Proofs.Journal.Grouping
import SnapshotStore.Proofs.Journal.Ledger
import SnapshotStore.Proofs.Journal.Traffic
import SnapshotStore.Proofs.Journal.Writer
import SnapshotStore.Proofs.LockTable
import SnapshotStore.Proofs.LockTable.Sharing
import SnapshotStore.Proofs.Replay
import SnapshotStore.Proofs.Replay.Committed
import SnapshotStore.Proofs.Replay.Interrupted
import SnapshotStore.Proofs.Replay.Order
import SnapshotStore.Proofs.Replica
import SnapshotStore.Proofs.Replica.Clients
import SnapshotStore.Proofs.Replica.Sessions
import SnapshotStore.Proofs.Replication.Follower
import SnapshotStore.Proofs.Replication.Link
import SnapshotStore.Proofs.Replication.Message
import SnapshotStore.Proofs.Replication.Peers
import SnapshotStore.Proofs.Replication.Round
import SnapshotStore.Proofs.Replication.Shipping
import SnapshotStore.Proofs.Replication.Synced
import SnapshotStore.Proofs.Reply
import SnapshotStore.Proofs.Run.Answers
import SnapshotStore.Proofs.Run.Blocking
import SnapshotStore.Proofs.Run.Commits
import SnapshotStore.Proofs.Run.Contention
import SnapshotStore.Proofs.Run.Damage
import SnapshotStore.Proofs.Run.Durability
import SnapshotStore.Proofs.Run.Failures
import SnapshotStore.Proofs.Run.Lifetimes
import SnapshotStore.Proofs.Run.Locking
import SnapshotStore.Proofs.Run.Logging
import SnapshotStore.Proofs.Run.Operations
import SnapshotStore.Proofs.Run.Ownership
import SnapshotStore.Proofs.Run.Reads
import SnapshotStore.Proofs.Run.Recovery
import SnapshotStore.Proofs.Run.Requests
import SnapshotStore.Proofs.Run.Rollbacks
import SnapshotStore.Proofs.Run.StagedWrites
import SnapshotStore.Proofs.Run.StoredOrder
import SnapshotStore.Proofs.Run.System
import SnapshotStore.Proofs.Run.Truncation
import SnapshotStore.Proofs.Run.Versions
import SnapshotStore.Proofs.Segment.Acknowledged
import SnapshotStore.Proofs.Segment.Archive
import SnapshotStore.Proofs.Segment.Damage
import SnapshotStore.Proofs.Segment.Folder
import SnapshotStore.Proofs.Segment.Name
import SnapshotStore.Proofs.Segment.Replacing
import SnapshotStore.Proofs.Segment.Rolling
import SnapshotStore.Proofs.Segment.Storing
import SnapshotStore.Proofs.Segment.Truncation
import SnapshotStore.Proofs.Segment.Volume
import SnapshotStore.Proofs.Segment.Walk
import SnapshotStore.Proofs.Shards.Callers
import SnapshotStore.Proofs.Shards.History
import SnapshotStore.Proofs.Shards.Routing
import SnapshotStore.Proofs.Shards.Serial
import SnapshotStore.Proofs.Shards.VersionMap
import SnapshotStore.Proofs.Size
import SnapshotStore.Proofs.SkipList.Entries
import SnapshotStore.Proofs.SkipList.Search
import SnapshotStore.Proofs.SkipList.SortedMap
import SnapshotStore.Proofs.SkipList.Splice
import SnapshotStore.Proofs.State
import SnapshotStore.Proofs.Table
import SnapshotStore.Proofs.Text.Utf8
import SnapshotStore.Proofs.Text.Words
import SnapshotStore.Proofs.Wire
import SnapshotStore.Proofs.Wire.OneForm
