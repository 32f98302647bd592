import SnapshotStore.Record

/-! # Batches

Records that are stored with one write form a batch.  Everyone who added a record waits for the
same `Signal`, which holds the outcome once there is one; only the first outcome counts.  A batch
that is given up without an outcome has failed. -/

namespace SnapshotStore.Journal

/-- The outcome of a batch, once it is known. -/
abbrev Signal := Option Bool

/-- Publishes an outcome, unless there is one already. -/
def Signal.notify (s : Signal) (persisted : Bool) : Signal := s.or (some persisted)

/-- Records that wait to be stored together, with the number that tells batches apart. -/
structure Batch where
  number : Nat
  records : List Record
deriving DecidableEq, Repr

namespace Batch

/-- The batch without records. -/
def fresh (number : Nat) : Batch := ⟨number, []⟩

/-- The number of records. -/
def size (b : Batch) : Nat := b.records.length

/-- Whether there is no record. -/
def isEmpty (b : Batch) : Bool := b.records.isEmpty

/-- Whether the batch has as many records as it may take. -/
def isFull (b : Batch) (capacity : Nat) : Bool := capacity ≤ b.size

/-- Adds a record at the end. -/
def push (b : Batch) (r : Record) : Batch := { b with records := b.records ++ [r] }

end Batch

/-- A batch under construction and the signal its writers watch; a batch that was completed or
given up is gone. -/
structure Watched where
  batch : Option Batch
  signal : Signal
deriving DecidableEq, Repr

namespace Watched

/-- A new batch, still without outcome. -/
def fresh : Watched := ⟨some (Batch.fresh 0), none⟩

/-- Adds a record to the batch. -/
def push (w : Watched) (r : Record) : Watched := { w with batch := w.batch.map (·.push r) }

/-- Publishes an outcome ahead of the batch. -/
def notify (w : Watched) (persisted : Bool) : Watched :=
  { w with signal := w.signal.notify persisted }

/-- Ends the batch with an outcome. -/
def complete (w : Watched) (persisted : Bool) : Watched := ⟨none, w.signal.notify persisted⟩

/-- Gives the batch up. -/
def drop (w : Watched) : Watched := w.complete false

end Watched
end SnapshotStore.Journal
