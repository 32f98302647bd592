import SnapshotStore.Coordinator

/-! # Commits

A commit takes the locks of all keys it writes, in the order of keys, and gives up at the first
one that is held.  It then mints its end version, gives up if a key was written after the
transaction began, notes the commit in the log, and records all writes at the end version.
Whatever the outcome, it frees the locks it took. -/

namespace SnapshotStore

/-- A commit under way.  `held` are the locks taken so far, and `todo` what is left of the stage:
keys to lock or to check, or locks to free. -/
inductive Commit where
  | locking (held : List Nat) (todo : List String)
  | contending (held : List Nat) (lock : Nat) (todo : List String)
  | checking (held : List Nat) (version : Nat) (todo : List String)
  | logging (held : List Nat) (version : Nat) (save : Save)
  | releasing (held todo : List Nat) (result : Outcome Unit)
  | done (result : Outcome Unit)

namespace Commit

variable {σ : Type}

/-- The keys of a transaction, in order. -/
def sortedKeys (writes : Writes) : List String := writes.keys.mergeSort fun a b => !(b < a : Bool)

/-- The first stage of the commit of some writes.  Without writes there is nothing to do. -/
def start (writes : Writes) : Commit :=
  if writes.isEmpty then done (.ok ()) else locking [] (sortedKeys writes)

/-- Ends a commit: all locks it holds are to be freed. -/
def stop (held : List Nat) (result : Outcome Unit) : Commit := releasing held held result

/-- One step of the commit of a transaction; nothing if it has to wait or is done. -/
def step (tx : Nat) (writes : Writes) (c : Coordinator σ) :
    Commit → Option (Commit × Coordinator σ)
  | locking held (key :: todo) =>
    let (lock, locks) := c.locks.lockFor key
    some (contending held lock todo, { c with locks })
  | contending held lock todo =>
    match c.locks.tryAcquire lock tx with
    | (true, locks) => some (locking (held ++ [lock]) todo, { c with locks })
    | (false, locks) =>
      some (stop held (.error .interfered), { c with locks := locks.drop lock })
  | locking held [] =>
    let (version, c) := c.mint
    some (checking held version writes.keys, c)
  | checking held version (key :: todo) =>
    if c.shards.existsBetween tx version key then some (stop held (.error .interfered), c)
    else some (checking held version todo, c)
  | checking held version [] => some (logging held version (.adding tx .commit []), c)
  | logging held version (.done true) =>
    some (stop held (.ok ()), { c with shards := c.shards.setMany version writes })
  | logging held _ (.done false) => some (stop held (.error .logFailure), c)
  | logging held version save =>
    (c.logStep save).map fun (save, c) => (logging held version save, c)
  | releasing held (lock :: todo) result =>
    some (releasing held todo result, { c with locks := c.locks.release lock tx })
  | releasing held [] result =>
    some (done result, { c with locks := held.foldl LockTable.drop c.locks })
  | done _ => none

/-- How many steps a commit of `n` keys has ahead at most. -/
def stepsLeft (n : Nat) : Commit → Nat
  | locking held todo => 2 * todo.length + (held.length + todo.length) + n + 7
  | contending held _ todo => 2 * todo.length + (held.length + 1 + todo.length) + n + 8
  | checking held _ todo => todo.length + held.length + 6
  | logging held _ save => save.stepsLeft + held.length + 2
  | releasing _ todo _ => todo.length + 1
  | done _ => 0

theorem stepsLeft_lt {tx : Nat} {writes : Writes} {c c' : Coordinator σ} {s s' : Commit}
    (h : s.step tx writes c = some (s', c')) :
    s'.stepsLeft writes.size < s.stepsLeft writes.size := by
  unfold step at h
  split at h
  · obtain ⟨rfl, -⟩ := Prod.mk.inj (Option.some.inj h)
    simp only [stepsLeft, List.length_cons]
    omega
  · split at h <;> obtain ⟨rfl, -⟩ := Prod.mk.inj (Option.some.inj h) <;>
      simp only [stepsLeft, stop, List.length_append, List.length_cons, List.length_nil] <;> omega
  · obtain ⟨rfl, -⟩ := Prod.mk.inj (Option.some.inj h)
    simp only [stepsLeft, Table.keys, Table.size, List.length_map, List.length_nil]
    omega
  · split at h <;> obtain ⟨rfl, -⟩ := Prod.mk.inj (Option.some.inj h) <;>
      simp only [stepsLeft, stop, List.length_cons] <;> omega
  · obtain ⟨rfl, -⟩ := Prod.mk.inj (Option.some.inj h)
    simp only [stepsLeft, Save.stepsLeft, List.length_nil]
    omega
  · obtain ⟨rfl, -⟩ := Prod.mk.inj (Option.some.inj h)
    simp only [stepsLeft, stop]
    omega
  · obtain ⟨rfl, -⟩ := Prod.mk.inj (Option.some.inj h)
    simp only [stepsLeft, stop]
    omega
  · obtain ⟨p, hp, h⟩ := Option.map_eq_some_iff.1 h
    obtain ⟨rfl, -⟩ := Prod.mk.inj h
    have := Coordinator.stepsLeft_lt_of_logStep hp
    simp only [stepsLeft]
    omega
  · obtain ⟨rfl, -⟩ := Prod.mk.inj (Option.some.inj h)
    simp only [stepsLeft, List.length_cons]
    omega
  · obtain ⟨rfl, -⟩ := Prod.mk.inj (Option.some.inj h)
    simp only [stepsLeft, List.length_nil]
    omega
  · simp at h

end Commit
end SnapshotStore
