import SnapshotStore.Proofs.Journal.Ledger

/-! # Saving without rivals

A journal is at rest while no batch is on its way and no record waits (`AtRest`).  Then a writer stores
its record in a batch of its own, whether the record fills the current batch or the timer of the flusher
has to fire: `saved` is the journal afterwards, which is at rest again. -/

namespace SnapshotStore

namespace Journal

variable {σ : Type} {j : Journal σ}

/-- A journal without records on their way, with an idle flusher.  The outcomes of further batches are
open. -/
structure AtRest (j : Journal σ) : Prop where
  opened : j.closed = false
  idle : j.flusher = .waiting
  taken : j.taken = none
  queue : j.queue = []
  carried : j.carried = []
  current : j.current.records = []
  unknown : ∀ n, j.current.number ≤ n → j.outcome? n = none

theorem atRest_start (store : σ) (batchSize first : ℕ) :
    AtRest { Journal.start store batchSize with nextLsn := first } where
  opened := rfl
  idle := rfl
  taken := rfl
  queue := rfl
  carried := rfl
  current := rfl
  unknown _ _ := rfl

theorem AtRest.isIdle (h : j.AtRest) : j.isIdle = true := by
  simp [Journal.isIdle, h.idle, h.taken]

section record
variable (tx : ℕ) (kind : RecordKind) (args : List String)

/-- The batch of a record that is saved at rest. -/
def parcel (j : Journal σ) (tx : ℕ) (kind : RecordKind) (args : List String) : Batch :=
  j.current.push ⟨j.nextLsn, tx, kind, args⟩

/-- A journal at rest with a record in its current batch. -/
def pushed (j : Journal σ) (tx : ℕ) (kind : RecordKind) (args : List String) : Journal σ :=
  { j with nextLsn := j.nextLsn + 1, current := j.parcel tx kind args }

/-- A journal from which the batch of a record was taken. -/
def parted (j : Journal σ) : Journal σ :=
  { j with nextLsn := j.nextLsn + 1, current := .fresh (j.current.number + 1) }

/-- A journal of which a writer carries the batch of a record. -/
def swapped (j : Journal σ) (tx : ℕ) (kind : RecordKind) (args : List String) : Journal σ :=
  { j.parted with carried := [j.parcel tx kind args] }

/-- A journal at rest to which the batch of a record was handed over. -/
def handed (j : Journal σ) (tx : ℕ) (kind : RecordKind) (args : List String) : Journal σ :=
  { j.parted with queue := [j.parcel tx kind args] }

theorem AtRest.append_eq (h : j.AtRest) : j.append tx kind args =
    if (j.parcel tx kind args).isFull j.capacity then j.swapped tx kind args
    else j.pushed tx kind args := by
  rw [append]
  split
  · next hfull =>
    have hfull : (j.parcel tx kind args).isFull j.capacity = true := hfull
    rw [if_pos hfull, h.carried]
    rfl
  · next hfull => exact (if_neg hfull).symm

theorem AtRest.handOver_swapped (h : j.AtRest) :
    (j.swapped tx kind args).handOver j.current.number = some (j.handed tx kind args) := by
  have hroom : ¬queueCapacity ≤ (j.swapped tx kind args).queue.length := by
    rw [show (j.swapped tx kind args).queue = [] from h.queue]
    decide
  have hfind : (j.swapped tx kind args).carried.find? (·.number = j.current.number) =
      some (j.parcel tx kind args) := by simp [swapped, parcel, Batch.push]
  rw [handOver, if_neg hroom, hfind]
  simp [swapped, handed, parted, h.queue, h.carried]

end record

section stored
variable [LogStore σ]

/-- A journal at rest after a record was saved: the store was given a batch with this record alone. -/
def saved (j : Journal σ) (tx : ℕ) (kind : RecordKind) (args : List String) : Journal σ :=
  { j with
    store := (LogStore.write j.store [⟨j.nextLsn, tx, kind, args⟩]).2
    nextLsn := j.nextLsn + 1
    current := Batch.fresh (j.current.number + 1)
    outcomes := j.outcomes.insert j.current.number
      (LogStore.write j.store [⟨j.nextLsn, tx, kind, args⟩]).1.isOk }

/-- Whether the store takes a record. -/
def takes (j : Journal σ) (tx : ℕ) (kind : RecordKind) (args : List String) : Bool :=
  (LogStore.write j.store [⟨j.nextLsn, tx, kind, args⟩]).1.isOk

variable (tx : ℕ) (kind : RecordKind) (args : List String)

theorem outcome?_saved (n : ℕ) : (j.saved tx kind args).outcome? n =
    if n = j.current.number then some (j.takes tx kind args) else j.outcome? n :=
  Table.get?_insert ..

theorem AtRest.saved (h : j.AtRest) : (j.saved tx kind args).AtRest where
  opened := h.opened
  idle := h.idle
  taken := h.taken
  queue := h.queue
  carried := h.carried
  current := rfl
  unknown n hn := by
    have hn : j.current.number + 1 ≤ n := hn
    rw [outcome?_saved, if_neg (by omega)]
    exact h.unknown n (by omega)

/-! ### The flusher -/

theorem flusherStep_of_none (j : Journal σ) (h : j.taken = none) (event : Event) :
    j.flusherStep event = j.nextTask event := by rw [flusherStep, h]

theorem flusherStep_of_some (j : Journal σ) {b : Batch} (h : j.taken = some b) (event : Event) :
    j.flusherStep event = some ({ j with taken := none }.write b) := by rw [flusherStep, h]

theorem handle_of_step {j' : Journal σ} {event : Event} (hidle : j.isIdle = true)
    (h : j.flusherStep event = some j') : j.handle event = finishEvent j.eventLength j' := by
  rw [handle, if_pos hidle, h]
  rfl

theorem finishEvent_of_step {j' : Journal σ} {fuel : ℕ} (hidle : j.isIdle = false)
    (h : j.flusherStep .tick = some j') : finishEvent (fuel + 1) j = finishEvent fuel j' := by
  rw [finishEvent, hidle, h]
  rfl

theorem finishEvent_of_idle {fuel : ℕ} (hidle : j.isIdle = true) : finishEvent fuel j = j := by
  cases fuel with
  | zero => rfl
  | succ fuel => rw [finishEvent, if_pos hidle]

theorem tick_eq (j : Journal σ) (hf : j.flusher = .waiting) (ht : j.taken = none)
    (hq : j.queue = []) : j.tick = finishEvent 2 { j with flusher := .collecting } := by
  have hidle : j.isIdle = true := by simp [Journal.isIdle, hf, ht]
  have htick : j.flusherStep .tick = some { j with flusher := .ticking } := by
    rw [flusherStep_of_none j ht, nextTask, hf]
  have hsweep : ({ j with flusher := .ticking } : Journal σ).flusherStep .tick =
      some { j with flusher := .collecting } := by
    rw [flusherStep_of_none { j with flusher := .ticking } ht, nextTask, hq]
  have hlength : j.eventLength = 3 := by rw [eventLength, hq, List.length_nil]
  rw [Journal.tick, handle_of_step hidle htick, hlength]
  exact finishEvent_of_step (by simp [Journal.isIdle]) hsweep

theorem AtRest.tick_eq (h : j.AtRest) : j.tick = j := by
  have hempty : j.current.isEmpty = true := List.isEmpty_iff.mpr h.current
  have hpass : ({ j with flusher := .collecting } : Journal σ).flusherStep .tick = some j := by
    rw [flusherStep_of_none { j with flusher := .collecting } h.taken, nextTask, if_pos hempty,
      ← h.idle]
  rw [Journal.tick_eq j h.idle h.taken h.queue,
    finishEvent_of_step (by simp [Journal.isIdle]) hpass]
  exact finishEvent_of_idle h.isIdle

/-! ### One record -/

theorem AtRest.write_parcel (h : j.AtRest) :
    j.parted.write (j.parcel tx kind args) = j.saved tx kind args := by
  have hrecords : (j.parcel tx kind args).records = [⟨j.nextLsn, tx, kind, args⟩] := by
    rw [parcel, Batch.push, h.current]
    rfl
  have hopen : j.parted.outcome? (j.parcel tx kind args).number = none :=
    h.unknown _ (Nat.le_refl _)
  rw [write_eq hopen, hrecords]
  rfl

theorem AtRest.flusherStep_take (h : j.AtRest) :
    (j.parted.take (j.parcel tx kind args)).flusherStep .tick = some (j.saved tx kind args) := by
  have hput : ({ j.parted.take (j.parcel tx kind args) with taken := none } : Journal σ) =
      j.parted := by
    rw [take, ← h.taken]
    rfl
  rw [flusherStep_of_some _ rfl, hput, h.write_parcel]

theorem AtRest.tick_pushed (h : j.AtRest) :
    (j.pushed tx kind args).tick = j.saved tx kind args := by
  have hfull : (j.parcel tx kind args).isEmpty = false := by simp [parcel, Batch.push, Batch.isEmpty]
  have hcollect : ({ j.pushed tx kind args with flusher := .collecting } : Journal σ).flusherStep
      .tick = some (j.parted.take (j.parcel tx kind args)) := by
    rw [flusherStep_of_none { j.pushed tx kind args with flusher := .collecting } h.taken, nextTask]
    simp only [pushed, hfull, Bool.false_eq_true, if_false, ← h.idle]
    rfl
  rw [Journal.tick_eq (j.pushed tx kind args) h.idle h.taken h.queue,
    finishEvent_of_step (by simp [Journal.isIdle]) hcollect,
    finishEvent_of_step (by simp [Journal.isIdle, take]) (h.flusherStep_take tx kind args)]
  rfl

theorem AtRest.flush_handed (h : j.AtRest) :
    (j.handed tx kind args).flush = j.saved tx kind args := by
  have hidle : (j.handed tx kind args).isIdle = true := h.isIdle
  have htake : (j.handed tx kind args).flusherStep .handedOver =
      some (j.parted.take (j.parcel tx kind args)) := by
    rw [flusherStep_of_none (j.handed tx kind args) h.taken, nextTask]
    simp only [handed, parted, h.idle, ← h.queue]
  have hqueue : (j.handed tx kind args).queue = [j.parcel tx kind args] := rfl
  have hlength : (j.handed tx kind args).eventLength = 5 := by rw [eventLength, hqueue]; rfl
  rw [Journal.flush, hqueue, List.foldl_cons, List.foldl_nil, handle_of_step hidle htake, hlength,
    finishEvent_of_step (by simp [Journal.isIdle, take]) (h.flusherStep_take tx kind args)]
  exact finishEvent_of_idle (h.saved tx kind args).isIdle

/-! ### The writer -/

/-- A writer adds its record, and hands the batch over if the record fills it.  Then the flusher stores
the record. -/
theorem AtRest.step_adding (h : j.AtRest) : ∃ j' : Journal σ,
    j'.outcome? j.current.number = none ∧ j'.flush.tick = j.saved tx kind args ∧
    ((Save.adding tx kind args).step j = some (.waiting j.current.number, j') ∨
      ∃ j₁, (Save.adding tx kind args).step j = some (.handing j.current.number, j₁) ∧
        (Save.handing j.current.number).step j₁ = some (.waiting j.current.number, j')) := by
  have hopen : j.outcome? j.current.number = none := h.unknown _ (Nat.le_refl _)
  have hadd : (Save.adding tx kind args).step j = some
      (if (j.append tx kind args).current.number = j.current.number then .waiting j.current.number
        else .handing j.current.number, j.append tx kind args) := by
    rw [Save.step, h.opened]
    rfl
  rw [hadd, h.append_eq]
  split
  · next hfull =>
    refine ⟨j.handed tx kind args, hopen, ?_, .inr ⟨j.swapped tx kind args, ?_, ?_⟩⟩
    · rw [h.flush_handed, (h.saved tx kind args).tick_eq]
    · simp [swapped, parted, Batch.fresh]
    · rw [Save.step, h.handOver_swapped]
      rfl
  · next hfull =>
    refine ⟨j.pushed tx kind args, hopen, ?_, .inl ?_⟩
    · rw [Journal.flush, show (j.pushed tx kind args).queue = [] from h.queue, List.foldl_nil,
        h.tick_pushed]
    · simp [pushed, parcel, Batch.push]

theorem step_waiting_saved : (Save.waiting j.current.number).step (j.saved tx kind args) =
    some (.done (j.takes tx kind args), j.saved tx kind args) := by
  rw [Save.step, outcome?_saved, if_pos rfl]
  rfl

end stored
end Journal
end SnapshotStore
