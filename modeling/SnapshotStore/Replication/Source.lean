import SnapshotStore.Replication.Message
import SnapshotStore.Segment.Archive

/-! # The serving side

A master answers questions from its archive.  A segment that is sent is sealed first, so that no
replica ever holds a part of a segment that still grows.  Every request gets an answer: a failure
of any kind becomes an answer that says so. -/

namespace SnapshotStore.Replication

open SnapshotStore.Segment

/-- Looks for the segment that a question asks for. -/
def deliver (a : Archive) (q : Query) : Outcome Delivery × Archive :=
  match a.next? q.lastSegment with
  | .error fault => (.error fault, a)
  | .ok none => (.ok .noData, a)
  | .ok (some filename) =>
    match a.ship filename with
    | (.error fault, a) => (.error fault, a)
    | (.ok data, a) => (.ok (.success filename data), a)

/-- The answer to the bytes of a request. -/
def answer (a : Archive) (request : Bytes) : Delivery × Archive :=
  match Query.decode request with
  | .error _ => (.failure, a)
  | .ok q =>
    match deliver a q with
    | (.ok delivery, a) => (delivery, a)
    | (.error _, a) => (.failure, a)

/-- Answers the bytes of a request with bytes. -/
def serve (a : Archive) (request : Bytes) : Bytes × Archive :=
  let (delivery, a) := answer a request
  (delivery.encode, a)

end SnapshotStore.Replication
