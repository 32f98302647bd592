import SnapshotStore.Transaction.Basic

/-! # Statements

What clients do one at a time: an operation on an open transaction, run to its end, or a
statement of its own, which is a transaction with a single read or write that commits at once. -/

namespace SnapshotStore.Coordinator

variable {σ : Type}

/-- Opens a transaction. -/
def begin (c : Coordinator σ) : Transaction × Coordinator σ :=
  let (id, c) := c.mint
  (Transaction.fresh id, c)

/-- The answer of an operation that ran to its end. -/
def answerOf (a : Activity) : Answer := a.answer?.getD (.error .logFailure)

variable [Journal.LogStore σ]

/-- Runs an operation of a transaction. -/
def perform (c : Coordinator σ) (t : Transaction) (r : Request) :
    Answer × Transaction × Coordinator σ :=
  let (t, a) := t.request r
  let (t, a, c) := a.complete t c
  (answerOf a, t, c)

/-- Reads a key as of now. -/
def get (c : Coordinator σ) (key : String) : Answer × Coordinator σ :=
  let (t, c) := c.begin
  let (answer, _, c) := c.perform t (.get key)
  (answer, c)

/-- Runs a write as a transaction of its own. -/
def write (c : Coordinator σ) (r : Request) : Answer × Coordinator σ :=
  let (t, c) := c.begin
  match c.perform t r with
  | (.error fault, _, c) => (.error fault, c)
  | (.ok _, t, c) =>
    let (answer, _, c) := c.perform t .commit
    (answer, c)

end SnapshotStore.Coordinator
