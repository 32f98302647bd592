import SnapshotStore.Table

/-! # Commit locks

A committing transaction owns the lock of every key it writes.  A `Lock` holds its owner, 0 when
it is free, and the number of parties that still refer to it.  The `LockTable` makes locks when
they are first asked for.  Once it has reached its threshold, asking for a key without a lock
first sweeps out the locks that nobody owns and nobody refers to.

* `lockFor` and `peek` give out a reference to the lock of a key; `drop` takes one back.
* `tryAcquire` turns a free lock into an owned one; `release` frees it if the owner asks. -/

namespace SnapshotStore

/-- The owner of a free lock. -/
def unlocked : Nat := 0

/-- One lock. -/
structure Lock where
  owner : Nat
  references : Nat
deriving DecidableEq, Repr

/-- The locks made so far, by number, and the locks that keys have now. -/
structure LockTable where
  threshold : Nat
  locks : Array Lock
  byKey : Table String Nat

namespace LockTable

/-- A table without locks. -/
def create (threshold : Nat) : LockTable := ⟨max threshold 1, #[], ∅⟩

/-- The number of keys that have a lock. -/
def size (t : LockTable) : Nat := t.byKey.size

/-- The owner of a lock. -/
def owner (t : LockTable) (lock : Nat) : Nat := (t.locks[lock]?).elim unlocked (·.owner)

/-- Whether somebody owns a lock or refers to it. -/
def inUse (t : LockTable) (lock : Nat) : Bool :=
  (t.locks[lock]?).any fun l => 0 < l.references || l.owner ≠ unlocked

/-- Counts one more reference to a lock. -/
def borrow (t : LockTable) (lock : Nat) : LockTable :=
  { t with locks := t.locks.modify lock fun l => { l with references := l.references + 1 } }

/-- Gives one reference to a lock back. -/
def drop (t : LockTable) (lock : Nat) : LockTable :=
  { t with locks := t.locks.modify lock fun l => { l with references := l.references - 1 } }

/-- Sweeps out the locks that are not in use, if the table has reached its threshold. -/
def sweep (t : LockTable) : LockTable :=
  if t.threshold ≤ t.size then { t with byKey := t.byKey.filter fun _ lock => t.inUse lock } else t

/-- The lock of a key, made if the key has none, with a reference to it. -/
def lockFor (t : LockTable) (key : String) : Nat × LockTable :=
  match t.byKey.get? key with
  | some lock => (lock, t.borrow lock)
  | none =>
    let t := t.sweep
    (t.locks.size, { t with
      locks := t.locks.push ⟨unlocked, 1⟩
      byKey := t.byKey.insert key t.locks.size })

/-- The lock of a key, if it has one, with a reference to it. -/
def peek (t : LockTable) (key : String) : Option (Nat × LockTable) :=
  (t.byKey.get? key).map fun lock => (lock, t.borrow lock)

/-- Changes the owner of a lock if it is as expected; says whether it was. -/
def exchange (t : LockTable) (lock expected owner : Nat) : Bool × LockTable :=
  if t.owner lock = expected then
    (true, { t with locks := t.locks.modify lock fun l => { l with owner } })
  else (false, t)

/-- Takes a free lock for a transaction; says whether it was free. -/
def tryAcquire (t : LockTable) (lock tx : Nat) : Bool × LockTable := t.exchange lock unlocked tx

/-- Frees a lock if a transaction owns it; another's lock is left alone. -/
def release (t : LockTable) (lock tx : Nat) : LockTable := (t.exchange lock tx unlocked).2

end LockTable
end SnapshotStore
