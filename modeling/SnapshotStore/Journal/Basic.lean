import SnapshotStore.Journal.Batch
import SnapshotStore.Journal.Store
import SnapshotStore.Table

/-! # The journal

Writers add records to the current batch and wait for its outcome.  A writer that fills the batch
swaps it out, hands it over to the flusher through a bounded queue, and waits as well.  The
flusher stores one batch after the other: queued ones as they come, and on a tick of its timer
also the current one.  When it is told to stop it closes the journal, waits for batches that are
still on their way, stores the rest and ends.

Every actor is a function that makes one step, and gives nothing while it has to wait:

* `Save.step` is a writer with one record;
* `Journal.flusherStep` is the flusher, whose next event is chosen from outside.

`Journal.flush`, `Journal.tick` and `Journal.shutdown` let the flusher run to the end of one
event while no writer moves. -/

namespace SnapshotStore

open Journal

/-- How many full batches may wait for the flusher. -/
def Journal.queueCapacity : Nat := 16

/-- What the flusher is doing. -/
inductive Journal.Flusher where
  | waiting
  | ticking
  | collecting
  | draining (rest : Batch)
  | stopped
deriving DecidableEq, Repr

/-- What may wake the flusher. -/
inductive Journal.Event where
  | handedOver
  | tick
  | shutdown
deriving DecidableEq, Repr

/-- A log with group commit.  `carried` are full batches whose writer has not handed them over
yet, `queue` those that were handed over, `taken` is the batch that the flusher is storing, and
`outcomes` are the signals of batches by number. -/
structure Journal (σ : Type) where
  store : σ
  capacity : Nat
  nextLsn : Nat
  closed : Bool
  current : Batch
  carried : List Batch
  queue : List Batch
  taken : Option Batch
  outcomes : Table Nat Bool
  flusher : Flusher

namespace Journal

variable {σ : Type}

/-- A journal on a store.  A batch takes at least one record. -/
def start (store : σ) (batchSize : Nat) : Journal σ where
  store := store
  capacity := max batchSize 1
  nextLsn := 1
  closed := false
  current := Batch.fresh 0
  carried := []
  queue := []
  taken := none
  outcomes := ∅
  flusher := .waiting

/-- The outcome of a batch, once it is known. -/
def outcome? (j : Journal σ) (number : Nat) : Signal := j.outcomes.get? number

/-- Publishes the outcome of a batch. -/
def notify (j : Journal σ) (number : Nat) (persisted : Bool) : Journal σ :=
  match (j.outcome? number).notify persisted with
  | none => j
  | some b => { j with outcomes := j.outcomes.insert number b }

/-- Starts a new current batch. -/
def renew (j : Journal σ) : Journal σ := { j with current := Batch.fresh (j.current.number + 1) }

/-- Adds a record to the current batch, with the next number of the log, and swaps a full batch
out. -/
def append (j : Journal σ) (tx : Nat) (kind : RecordKind) (args : List String) : Journal σ :=
  let batch := j.current.push ⟨j.nextLsn, tx, kind, args⟩
  let j := { j with nextLsn := j.nextLsn + 1, current := batch }
  if batch.isFull j.capacity then { j.renew with carried := j.carried ++ [batch] } else j

/-- Hands a batch over to the flusher, if there is room. -/
def handOver (j : Journal σ) (number : Nat) : Option (Journal σ) :=
  if queueCapacity ≤ j.queue.length then none
  else (j.carried.find? (·.number = number)).map fun batch =>
    { j with carried := j.carried.erase batch, queue := j.queue ++ [batch] }

section Stored

variable [LogStore σ]

/-- Stores a batch and publishes the outcome. -/
def write (j : Journal σ) (batch : Batch) : Journal σ :=
  match LogStore.write j.store batch.records with
  | (.ok (), store) => { j with store }.notify batch.number true
  | (.error _, store) => { j with store }.notify batch.number false

/-- Takes a batch that the flusher will store with its next step. -/
def take (j : Journal σ) (batch : Batch) : Journal σ := { j with taken := some batch }

/-- What the flusher does when it has no batch in hand.  An event matters only while it waits for
one. -/
def nextTask (event : Event) (j : Journal σ) : Option (Journal σ) :=
  match j.flusher with
  | .waiting =>
    match event with
    | .handedOver =>
      match j.queue with
      | [] => none
      | batch :: queue => some ({ j with queue }.take batch)
    | .tick => some { j with flusher := .ticking }
    | .shutdown => some { j.renew with closed := true, flusher := .draining j.current }
  | .ticking =>
    match j.queue with
    | [] => some { j with flusher := .collecting }
    | batch :: queue => some ({ j with queue }.take batch)
  | .collecting =>
    if j.current.isEmpty then some { j with flusher := .waiting }
    else some ({ j.renew with flusher := .waiting }.take j.current)
  | .draining rest =>
    match j.queue with
    | batch :: queue => some ({ j with queue }.take batch)
    | [] =>
      if !j.carried.isEmpty then none
      else if rest.isEmpty then some { j with flusher := .stopped }
      else some ({ j with flusher := .stopped }.take rest)
  | .stopped => none

/-- One step of the flusher: it stores the batch in its hand, or turns to what comes next. -/
def flusherStep (event : Event) (j : Journal σ) : Option (Journal σ) :=
  match j.taken with
  | some batch => some ({ j with taken := none }.write batch)
  | none => j.nextTask event

/-- Whether the flusher has nothing in hand and waits for an event. -/
def isIdle (j : Journal σ) : Bool := j.flusher = .waiting && j.taken.isNone

/-- Runs the flusher until it waits for an event again, or ends. -/
def finishEvent : Nat → Journal σ → Journal σ
  | 0, j => j
  | fuel + 1, j =>
    if j.isIdle then j
    else match j.flusherStep .tick with
      | none => j
      | some j => finishEvent fuel j

/-- How many steps an event can take at most: two for each batch, and three more. -/
def eventLength (j : Journal σ) : Nat := 2 * j.queue.length + 3

/-- Lets an idle flusher handle one event. -/
def handle (event : Event) (j : Journal σ) : Journal σ :=
  if j.isIdle then (j.flusherStep event).elim j fun next => finishEvent j.eventLength next else j

/-- Lets the flusher store everything that was handed over. -/
def flush (j : Journal σ) : Journal σ := j.queue.foldl (fun j _ => j.handle .handedOver) j

/-- Lets the timer of the flusher fire once. -/
def tick (j : Journal σ) : Journal σ := j.handle .tick

/-- Tells the flusher to stop and lets it finish. -/
def shutdown (j : Journal σ) : Journal σ := j.handle .shutdown

/-- Reads every record back, in the order of their numbers.  New records get higher ones. -/
def recover (j : Journal σ) : Outcome (List Record) × Journal σ :=
  match LogStore.read j.store with
  | .error fault => (.error fault, j)
  | .ok recovered =>
    let records := recovered.records.mergeSort fun a b => a.lsn ≤ b.lsn
    (.ok records, match records.getLast? with
      | none => j
      | some last => { j with nextLsn := max j.nextLsn (last.lsn + 1) })

end Stored

/-- The new signals of some batches are those of a journal. -/
theorem outcome?_notify (j : Journal σ) (number n : Nat) (persisted : Bool) :
    (j.notify number persisted).outcome? n =
      if n = number then (j.outcome? n).notify persisted else j.outcome? n := by
  unfold notify
  by_cases h : n = number
  · subst h
    cases hs : j.outcome? n <;> simp [Signal.notify, outcome?]
  · cases hs : j.outcome? number <;> simp [Signal.notify, outcome?, Table.get?_insert, h]

end Journal

/-- A writer with one record: about to add it, about to hand a full batch over, waiting for the
outcome of a batch, or done. -/
inductive Save where
  | adding (tx : Nat) (kind : RecordKind) (args : List String)
  | handing (batch : Nat)
  | waiting (batch : Nat)
  | done (persisted : Bool)
deriving DecidableEq, Repr

namespace Save

variable {σ : Type}

/-- One step of a writer; nothing if it has to wait or is done. -/
def step (j : Journal σ) : Save → Option (Save × Journal σ)
  | adding tx kind args =>
    if j.closed then some (done false, j)
    else
      let batch := j.current.number
      let j' := j.append tx kind args
      some (if j'.current.number = batch then waiting batch else handing batch, j')
  | handing batch => (j.handOver batch).map fun j => (waiting batch, j)
  | waiting batch => (j.outcome? batch).map fun persisted => (done persisted, j)
  | done _ => none

/-- How many steps a writer has ahead at most. -/
def stepsLeft : Save → Nat
  | adding _ _ _ => 3
  | handing _ => 2
  | waiting _ => 1
  | done _ => 0

theorem stepsLeft_lt {s s' : Save} {j j' : Journal σ} (h : s.step j = some (s', j')) :
    s'.stepsLeft < s.stepsLeft := by
  unfold step at h
  split at h
  · split at h
    · obtain ⟨rfl, -⟩ := Prod.mk.inj (Option.some.inj h)
      simp [stepsLeft]
    · obtain ⟨rfl, -⟩ := Prod.mk.inj (Option.some.inj h)
      split <;> simp [stepsLeft]
  · obtain ⟨_, -, h⟩ := Option.map_eq_some_iff.1 h
    obtain ⟨rfl, -⟩ := Prod.mk.inj h
    simp [stepsLeft]
  · obtain ⟨_, -, h⟩ := Option.map_eq_some_iff.1 h
    obtain ⟨rfl, -⟩ := Prod.mk.inj h
    simp [stepsLeft]
  · simp at h

/-- Lets a writer go on until it is done or has to wait. -/
def advance (j : Journal σ) (s : Save) : Save × Journal σ :=
  match h : s.step j with
  | none => (s, j)
  | some (s', j') =>
    have := stepsLeft_lt h
    advance j' s'
termination_by s.stepsLeft

/-- What a writer was told, once it is done. -/
def result? : Save → Option Bool
  | done persisted => some persisted
  | _ => none

/-- Whether the writer only waits for the flusher. -/
def isWaiting : Save → Bool
  | waiting _ => true
  | _ => false

end Save
end SnapshotStore
