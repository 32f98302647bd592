import SnapshotStore.Journal.Framing
import SnapshotStore.Journal.Store
import SnapshotStore.Segment.Archive

/-! # The log on segments

An archive is a home for a log: each batch is appended as one frame.  Reading decodes every
segment in the order of names and lists those that end in a damaged frame. -/

namespace SnapshotStore.Segment.Archive

open SnapshotStore.Journal

/-- Appends one batch as a frame. -/
def writeBatch (a : Archive) (records : List Record) : Outcome Unit × Archive :=
  match Journal.encode records with
  | .error fault => (.error fault, a)
  | .ok frame => a.append frame

/-- What segments with these names and bytes hold, in order. -/
def recovered (segments : List (String × Bytes)) : Recovered :=
  let decoded := segments.map fun s => (s.1, Journal.decode s.2)
  let records := decoded.flatMap (·.2.records)
  ⟨records, {
    segments := segments.length
    frames := decoded.foldl (fun n d => n + d.2.frames) 0
    records := records.length
    damaged := (decoded.filter (·.2.damaged)).map (·.1)
    lastLsn := lastLsn? records }⟩

/-- Every record in the archive. -/
def readLog (a : Archive) : Outcome Recovered := return recovered (← a.segments)

instance : LogStore Archive := ⟨writeBatch, readLog⟩

end SnapshotStore.Segment.Archive
