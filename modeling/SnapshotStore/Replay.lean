import SnapshotStore.Record
import SnapshotStore.Shards

/-! # Replay

Logged transactions are replayed into the shards record by record.  Writes wait per transaction
until its commit record, which applies all of them at version 0; a rollback discards them, and so
does the end of the log. -/

namespace SnapshotStore

/-- The version of replayed writes. -/
def replayVersion : Nat := 0

/-- What a replay remembers: the writes of transactions still open, the number of commits, and
the highest transaction number. -/
structure Replay where
  pending : Table Nat Writes
  committed : Nat
  maxTx : Nat

namespace Replay

/-- A replay that has seen nothing. -/
def fresh : Replay := ⟨∅, 0, 0⟩

/-- Notes a write of a transaction. -/
def note (r : Replay) (tx : Nat) (key : String) (value : Option String) : Replay :=
  { r with pending := r.pending.insert tx (((r.pending.get? tx).getD ∅).insert key value) }

/-- Replays one record, and says whether it committed a transaction; a write without its arguments is
skipped. -/
def apply (r : Replay) (shards : Shards) (record : Record) : Bool × Replay × Shards :=
  let r := { r with maxTx := max r.maxTx record.tx }
  match record.kind with
  | .set =>
    match record.key?, record.value? with
    | some key, some value => (false, r.note record.tx key (some value), shards)
    | _, _ => (false, r, shards)
  | .del =>
    match record.key? with
    | some key => (false, r.note record.tx key none, shards)
    | none => (false, r, shards)
  | .commit =>
    (true, { r with pending := r.pending.erase record.tx, committed := r.committed + 1 },
      match r.pending.get? record.tx with
      | some writes => shards.setMany replayVersion writes
      | none => shards)
  | .rollback => (false, { r with pending := r.pending.erase record.tx }, shards)

/-- Replays some records in order, and counts those that committed a transaction. -/
def applyAll (r : Replay) (shards : Shards) : List Record → Nat × Replay × Shards
  | [] => (0, r, shards)
  | record :: records =>
    let (commits, r, shards) := r.apply shards record
    let (count, r, shards) := r.applyAll shards records
    (if commits then count + 1 else count, r, shards)

/-- The number of transactions that are still open. -/
def pendingCount (r : Replay) : Nat := r.pending.size

end Replay
end SnapshotStore
