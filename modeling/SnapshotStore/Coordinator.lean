import SnapshotStore.Journal.Basic
import SnapshotStore.LockTable
import SnapshotStore.Shards

/-! # The coordinator

The coordinator owns what transactions share: the shards, the commit locks, the journal if there
is one, and the counter of versions.  The counter hands out the numbers of transactions and the
versions of commits alike, so all of them differ; version 0 is left to replayed data. -/

namespace SnapshotStore

/-- The state shared by all transactions of a store. -/
structure Coordinator (σ : Type) where
  shards : Shards
  locks : LockTable
  journal : Option (Journal σ)
  lastVersion : Nat

namespace Coordinator

variable {σ : Type}

/-- A coordinator without locks and with no version handed out. -/
def create (shards : Shards) (journal : Option (Journal σ)) (sweepThreshold : Nat) :
    Coordinator σ :=
  ⟨shards, LockTable.create sweepThreshold, journal, 0⟩

/-- The next version. -/
def mint (c : Coordinator σ) : Nat × Coordinator σ :=
  (c.lastVersion + 1, { c with lastVersion := c.lastVersion + 1 })

/-- Makes all further versions greater than a number. -/
def advancePast (c : Coordinator σ) (version : Nat) : Coordinator σ :=
  { c with lastVersion := max c.lastVersion version }

/-- The number of keys that have a lock. -/
def lockCount (c : Coordinator σ) : Nat := c.locks.size

/-- One step of a writer to the log.  Without a journal nothing is logged and all goes well. -/
def logStep (c : Coordinator σ) (save : Save) : Option (Save × Coordinator σ) :=
  match c.journal with
  | some j => (save.step j).map fun (save, j) => (save, { c with journal := some j })
  | none =>
    match save with
    | .done _ => none
    | _ => some (.done true, c)

theorem stepsLeft_lt_of_logStep {c c' : Coordinator σ} {s s' : Save}
    (h : c.logStep s = some (s', c')) : s'.stepsLeft < s.stepsLeft := by
  unfold logStep at h
  split at h
  · obtain ⟨p, hp, h⟩ := Option.map_eq_some_iff.1 h
    obtain ⟨rfl, -⟩ := Prod.mk.inj h
    exact Save.stepsLeft_lt hp
  · split at h
    · simp at h
    · obtain ⟨rfl, -⟩ := Prod.mk.inj (Option.some.inj h)
      cases s <;> simp_all [Save.stepsLeft]

section Stored

variable [Journal.LogStore σ]

/-- Lets the flusher store everything that writers wait for. -/
def settle (c : Coordinator σ) : Coordinator σ :=
  { c with journal := c.journal.map fun j => j.flush.tick }

/-- Drains the journal and closes it; nothing can be logged afterwards. -/
def close (c : Coordinator σ) : Coordinator σ :=
  { c with journal := c.journal.map Journal.shutdown }

end Stored

end Coordinator
end SnapshotStore
