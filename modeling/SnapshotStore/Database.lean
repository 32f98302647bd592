import SnapshotStore.Command
import SnapshotStore.Replay
import SnapshotStore.Reply
import SnapshotStore.Transaction.Statement

/-! # The database

The database runs the commands of clients.  `BEGIN` opens a session for a client; inside a
session commands act on its transaction, outside each one is a transaction of its own.  `COMMIT`,
`ROLLBACK` and a lost connection end the session whatever happens.  A replica refuses to write.

`Database.recover` replays the journal into the shards and moves the version counter past every
logged transaction. -/

namespace SnapshotStore

/-- A coordinator with the sessions of its clients. -/
structure Database (σ : Type) where
  coordinator : Coordinator σ
  sessions : Table String Transaction
  isReplica : Bool

namespace Database

variable {σ : Type}

/-- A database without sessions. -/
def create (coordinator : Coordinator σ) (isReplica : Bool) : Database σ :=
  ⟨coordinator, ∅, isReplica⟩

/-- The number of clients with an open session. -/
def openSessions (d : Database σ) : Nat := d.sessions.size

/-- The reply to an operation; `found` makes one of the result. -/
def replyTo (found : Option String → Reply) : Answer → Reply
  | .ok value => found value
  | .error fault => .ofFault fault

/-- Replays records into the shards. -/
def replay (d : Database σ) (records : List Record) : Database σ :=
  let (_, r, shards) := Replay.fresh.applyAll d.coordinator.shards records
  { d with coordinator := { d.coordinator with shards }.advancePast r.maxTx }

/-- Opens a session for a client. -/
def begin (d : Database σ) (client : String) : Reply × Database σ :=
  if d.sessions.contains client then (.ofFault .alreadyStarted, d)
  else
    let (t, coordinator) := d.coordinator.begin
    (.ok, { d with coordinator, sessions := d.sessions.insert client t })

section Stored

variable [Journal.LogStore σ]

/-- Replays the journal, if there is one. -/
def recover (d : Database σ) : Outcome Unit × Database σ :=
  match d.coordinator.journal with
  | none => (.ok (), d)
  | some j =>
    match j.recover with
    | (.error fault, _) => (.error fault, d)
    | (.ok records, j) =>
      (.ok (), { d with coordinator := { d.coordinator with journal := some j } }.replay records)

/-- Reads a key for a client. -/
def get (d : Database σ) (client key : String) : Reply × Database σ :=
  match d.sessions.get? client with
  | some t =>
    let (answer, t, coordinator) := d.coordinator.perform t (.get key)
    (replyTo .ofValue? answer, { d with coordinator, sessions := d.sessions.insert client t })
  | none =>
    let (answer, coordinator) := d.coordinator.get key
    (replyTo .ofValue? answer, { d with coordinator })

/-- Writes for a client, unless this is a replica. -/
def write (d : Database σ) (client : String) (r : Request) : Reply × Database σ :=
  if d.isReplica then (.ofFault .readOnly, d)
  else match d.sessions.get? client with
    | some t =>
      let (answer, t, coordinator) := d.coordinator.perform t r
      (replyTo (fun _ => .ok) answer,
        { d with coordinator, sessions := d.sessions.insert client t })
    | none =>
      let (answer, coordinator) := d.coordinator.write r
      (replyTo (fun _ => .ok) answer, { d with coordinator })

/-- Ends the session of a client by a commit or rollback. -/
def finish (d : Database σ) (client : String) (r : Request) : Reply × Database σ :=
  match d.sessions.get? client with
  | none => (.ofFault .noTransaction, d)
  | some t =>
    let (answer, _, coordinator) := d.coordinator.perform t r
    (replyTo (fun _ => .ok) answer, { d with coordinator, sessions := d.sessions.erase client })

/-- Runs one command of a client. -/
def run (d : Database σ) (client : String) : Command → Reply × Database σ
  | .get key => d.get client key
  | .set key value => d.write client (.set key value)
  | .del key => d.write client (.del key)
  | .begin => d.begin client
  | .commit => d.finish client .commit
  | .rollback => d.finish client .rollback

/-- Runs one line of input of a client. -/
def execute (d : Database σ) (client line : String) : Reply × Database σ :=
  match Command.parse line with
  | .ok command => d.run client command
  | .error fault => (.ofFault fault, d)

/-- Answers the bytes of one request of a client with the bytes of the reply. -/
def handle (d : Database σ) (client : String) (request : Bytes) : Bytes × Database σ :=
  match Text.decode request with
  | .ok line =>
    let (reply, d) := d.execute client line
    (Text.encode reply.render, d)
  | .error _ =>
    (Text.encode (Reply.ofFault (.invalidCommand "request is not UTF-8")).render, d)

/-- Rolls back what a client that went away left open. -/
def disconnect (d : Database σ) (client : String) : Database σ :=
  (d.finish client .rollback).2

end Stored

end Database
end SnapshotStore
