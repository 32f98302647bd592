import SnapshotStore.Transaction.Commit
import SnapshotStore.Transaction.Lookup

/-! # Transactions

A transaction reads the state at its begin version, its number, and keeps its writes to itself
until it commits.  Values that it read once are kept, so that reads repeat.  Every write is
logged before it is staged.  Commit and rollback finish the transaction whatever their outcome.

`Transaction.request` starts an operation; an `Activity` is an operation under way, moved by
`Activity.step` and run by `Activity.advance` until it is done or has to wait.
`Activity.complete` also lets the flusher work, so that an operation alone on its coordinator
always ends. -/

namespace SnapshotStore

/-- A client's transaction.  `writes` are the staged writes, `cache` the values read so far. -/
structure Transaction where
  id : Nat
  writes : Writes
  cache : Table String String
  finished : Bool

/-- An operation on a transaction. -/
inductive Request where
  | get (key : String)
  | set (key value : String)
  | del (key : String)
  | commit
  | rollback
deriving DecidableEq, Repr

/-- The result of an operation: a value only for a read that found one. -/
abbrev Answer := Outcome (Option String)

/-- An operation under way. -/
inductive Activity where
  | reading (key : String) (lookup : Lookup)
  | writing (key : String) (value : Option String) (save : Save)
  | committing (commit : Commit)
  | discarding (save : Save)
  | answered (answer : Answer)

namespace Transaction

/-- The transaction with a number, before its first operation. -/
def fresh (id : Nat) : Transaction := ⟨id, ∅, ∅, false⟩

/-- Whether nothing is staged. -/
def isReadOnly (t : Transaction) : Bool := t.writes.isEmpty

/-- How a transaction is shown. -/
def describe (t : Transaction) : String :=
  "Transaction \x7b begin_version: " ++ toString t.id ++ ", modified: " ++
    toString t.writes.size ++ ", finished: " ++ toString t.finished ++ " \x7d"

/-- Starts an operation. -/
def request (t : Transaction) (r : Request) : Transaction × Activity :=
  if t.finished then (t, .answered (.error .finished))
  else match r with
    | .get key =>
      match t.writes.get? key, t.cache.get? key with
      | some staged, _ => (t, .answered (.ok staged))
      | none, some value => (t, .answered (.ok (some value)))
      | none, none => (t, .reading key (.asking key t.id))
    | .set key value => (t, .writing key (some value) (.adding t.id .set [key, value]))
    | .del key => (t, .writing key none (.adding t.id .del [key]))
    | .commit => ({ t with finished := true }, .committing (Commit.start t.writes))
    | .rollback =>
      ({ t with finished := true, writes := ∅, cache := ∅ },
        if t.writes.isEmpty then .answered (.ok none)
        else .discarding (.adding t.id .rollback []))

end Transaction

namespace Activity

variable {σ : Type}

/-- One step of an operation; nothing if it has to wait or is done. -/
def step (t : Transaction) (c : Coordinator σ) :
    Activity → Option (Transaction × Activity × Coordinator σ)
  | reading key (.done value) =>
    some (match value with
      | some v => { t with cache := t.cache.insert key v }
      | none => t, answered (.ok value), c)
  | reading key lookup => (lookup.step c).map fun (lookup, c) => (t, reading key lookup, c)
  | writing key value (.done true) =>
    some ({ t with writes := t.writes.insert key value }, answered (.ok none), c)
  | writing _ _ (.done false) => some (t, answered (.error .logFailure), c)
  | writing key value save => (c.logStep save).map fun (save, c) => (t, writing key value save, c)
  | committing (.done result) => some (t, answered (result.map fun _ => none), c)
  | committing commit =>
    (commit.step t.id t.writes c).map fun (commit, c) => (t, committing commit, c)
  | discarding (.done true) => some (t, answered (.ok none), c)
  | discarding (.done false) => some (t, answered (.error .logFailure), c)
  | discarding save => (c.logStep save).map fun (save, c) => (t, discarding save, c)
  | answered _ => none

/-- How many steps an operation of a transaction has ahead at most. -/
def stepsLeft (t : Transaction) : Activity → Nat
  | reading _ lookup => lookup.stepsLeft + 1
  | writing _ _ save => save.stepsLeft + 1
  | committing commit => commit.stepsLeft t.writes.size + 1
  | discarding save => save.stepsLeft + 1
  | answered _ => 0

theorem stepsLeft_lt {t t' : Transaction} {a a' : Activity} {c c' : Coordinator σ}
    (h : a.step t c = some (t', a', c')) : a'.stepsLeft t' < a.stepsLeft t := by
  unfold step at h
  split at h <;>
    simp only [Option.some.injEq, Prod.mk.injEq, Option.map_eq_some_iff, Prod.exists,
      reduceCtorEq] at h
  case h_2 =>
    obtain ⟨l, d, hl, rfl, rfl, -⟩ := h
    simpa [stepsLeft] using Lookup.stepsLeft_lt hl
  case h_5 =>
    obtain ⟨s, d, hs, rfl, rfl, -⟩ := h
    simpa [stepsLeft] using Coordinator.stepsLeft_lt_of_logStep hs
  case h_7 =>
    obtain ⟨s, d, hs, rfl, rfl, -⟩ := h
    simpa [stepsLeft] using Commit.stepsLeft_lt hs
  case h_10 =>
    obtain ⟨s, d, hs, rfl, rfl, -⟩ := h
    simpa [stepsLeft] using Coordinator.stepsLeft_lt_of_logStep hs
  all_goals
    obtain ⟨-, rfl, -⟩ := h
    simp [stepsLeft]

/-- Runs an operation until it is done or has to wait. -/
def advance (t : Transaction) (a : Activity) (c : Coordinator σ) :
    Transaction × Activity × Coordinator σ :=
  match h : a.step t c with
  | none => (t, a, c)
  | some (t', a', c') =>
    have := stepsLeft_lt h
    advance t' a' c'
termination_by a.stepsLeft t

/-- The result of an operation, once there is one. -/
def answer? : Activity → Option Answer
  | answered answer => some answer
  | _ => none

/-- Whether an operation waits for its record to be stored. -/
def waitsForLog : Activity → Bool
  | writing _ _ save => save.isWaiting
  | committing (.logging _ _ save) => save.isWaiting
  | discarding save => save.isWaiting
  | _ => false

section Stored

variable [Journal.LogStore σ]

/-- Runs an operation to its end while nothing else happens; every operation waits for the
flusher once at most. -/
def complete (t : Transaction) (a : Activity) (c : Coordinator σ) :
    Transaction × Activity × Coordinator σ :=
  let (t, a, c) := a.advance t c
  if a.waitsForLog then a.advance t c.settle else (t, a, c)

end Stored

end Activity
end SnapshotStore
