import SnapshotStore.Database
import SnapshotStore.Replication.Follower
import SnapshotStore.Replication.Source
import SnapshotStore.Segment.Log

/-! # Replicas

A replica is a database that writes nothing itself, a follower that keeps the master's segments,
and a replay that applies the records of each segment as they are published.  `Replica.recover`
replays the segments that are already there with a replay of its own. -/

namespace SnapshotStore

open Replication Segment

/-- A database that follows a master. -/
structure Replica where
  database : Database Archive
  follower : Follower
  replay : Replay

/-- Answers a request of a replica.  Only a database with a journal has segments to give. -/
def Database.serve (d : Database Archive) (request : Bytes) : Bytes × Database Archive :=
  match d.coordinator.journal with
  | none => (Delivery.failure.encode, d)
  | some j =>
    let (reply, store) := Replication.serve j.store request
    (reply, { d with coordinator := { d.coordinator with journal := some { j with store } } })

namespace Replica

/-- A replica on an archive, not recovered yet. -/
def start (archive : Archive) (shards : Shards) (sweepThreshold : Nat) : Outcome Replica := do
  let follower ← Follower.start archive
  return ⟨Database.create (Coordinator.create shards none sweepThreshold) true, follower,
    Replay.fresh⟩

/-- Applies one list of published records. -/
def applyRecords (r : Replica) (records : List Record) : Replica :=
  let c := r.database.coordinator
  let (_, replay, shards) := r.replay.applyAll c.shards records
  { r with replay, database := { r.database with coordinator := { c with shards } } }

/-- Applies everything that was published. -/
def applyStream (r : Replica) : Replica :=
  r.follower.stream.foldl applyRecords { r with follower := { r.follower with stream := [] } }

/-- Ends a round with what came back from the master, and applies what it published. -/
def receive (r : Replica) (reply : Outcome Bytes) : Outcome Round × Replica :=
  let (round, follower) := r.follower.receive reply
  (round, { r with follower }.applyStream)

/-- Replays the segments in the archive. -/
def recover (r : Replica) : Outcome Unit × Replica :=
  match (Journal.start r.follower.archive 1).recover with
  | (.error fault, _) => (.error fault, r)
  | (.ok records, _) => (.ok (), { r with database := r.database.replay records })

/-- Ends the stream. -/
def stop (r : Replica) : Replica := { r with follower := r.follower.stop }

end Replica
end SnapshotStore
