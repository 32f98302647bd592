import SnapshotStore.Journal.Framing
import SnapshotStore.Replication.Source
import SnapshotStore.Segment.Archive

/-! # The following side

A replica polls its master.  In one round it asks for the segment after the last one it has,
stores what it gets under the same name, and publishes the records on its stream.  The stream
ends when the replica stops; rounds after that still store segments but cannot publish. -/

namespace SnapshotStore.Replication

open SnapshotStore.Segment

/-- The end of a round. -/
inductive Round where
  | upToDate
  | rejected
  | received (filename : String) (records : Nat)
deriving DecidableEq, Repr

/-- What taking from the stream gives. -/
inductive Taken where
  | records (records : List Record)
  | empty
  | disconnected
deriving DecidableEq, Repr

/-- A replica's own segments, the last one it got, and the records published but not taken yet. -/
structure Follower where
  archive : Archive
  lastSegment : String
  stream : List (List Record)
  streaming : Bool

namespace Follower

/-- A follower that goes on after the newest segment in its archive. -/
def start (a : Archive) : Outcome Follower :=
  return ⟨a, (← a.last?).getD "", [], true⟩

/-- The bytes of the question that opens a round. -/
def request (f : Follower) : Bytes := (Query.mk f.lastSegment).encode

/-- Publishes records on the stream. -/
def publish (f : Follower) (records : List Record) : Outcome Unit × Follower :=
  if f.streaming then (.ok (), { f with stream := f.stream ++ [records] })
  else (.error (.replication "replication stream closed"), f)

/-- Stores a segment that was received and publishes its records. -/
def accept (f : Follower) (filename : String) (segment : Bytes) : Outcome Round × Follower :=
  match f.archive.store filename segment with
  | (.error fault, archive) => (.error fault, { f with archive })
  | (.ok (), archive) =>
    let records := (Journal.decode segment).records
    match { f with archive, lastSegment := filename }.publish records with
    | (.error fault, f) => (.error fault, f)
    | (.ok (), f) => (.ok (.received filename records.length), f)

/-- Ends a round with the bytes that came back, or with the failure of the exchange. -/
def receive (f : Follower) (reply : Outcome Bytes) : Outcome Round × Follower :=
  match reply with
  | .error fault => (.error fault, f)
  | .ok bytes =>
    match Delivery.decode bytes with
    | .error fault => (.error fault, f)
    | .ok delivery =>
      if !delivery.ok then (.ok .rejected, f)
      else if !delivery.hasSegment then (.ok .upToDate, f)
      else f.accept delivery.filename delivery.segment

/-- One round with a master that is at hand. -/
def sync (f : Follower) (master : Archive) : Outcome Round × Follower × Archive :=
  let (reply, master) := serve master f.request
  let (round, f) := f.receive (.ok reply)
  (round, f, master)

/-- Takes the oldest records off the stream. -/
def take (f : Follower) : Taken × Follower :=
  match f.stream with
  | records :: stream => (.records records, { f with stream })
  | [] => (if f.streaming then .empty else .disconnected, f)

/-- Ends the stream; what was published can still be taken. -/
def stop (f : Follower) : Follower := { f with streaming := false }

end Follower
end SnapshotStore.Replication
