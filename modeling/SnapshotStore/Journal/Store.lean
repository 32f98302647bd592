import SnapshotStore.Record

/-! # Homes for the log

A `LogStore` keeps the batches of a log: `write` stores one batch whole or fails, and `read`
gives back every stored record in the order written, with a report of the scan.  `MemoryLog` is a
store that fails on demand. -/

namespace SnapshotStore.Journal

/-- What a scan of a log found. -/
structure Report where
  segments : Nat
  frames : Nat
  records : Nat
  damaged : List String
  lastLsn : Option Nat
deriving DecidableEq, Repr

/-- The records of a log and the report of the scan that read them. -/
structure Recovered where
  records : List Record
  report : Report
deriving DecidableEq, Repr

/-- The highest number among some records. -/
def lastLsn? (records : List Record) : Option Nat := (records.map (·.lsn)).max?

/-- A home for the batches of a log. -/
class LogStore (σ : Type) where
  /-- Stores one batch. -/
  write : σ → List Record → Outcome Unit × σ
  /-- Every stored record, in the order written. -/
  read : σ → Outcome Recovered

/-- A log held in memory.  While it is failing, nothing is stored and nothing can be read. -/
structure MemoryLog where
  batches : List (List Record)
  failing : Bool
deriving DecidableEq, Repr

/-- The in-memory log without batches. -/
def MemoryLog.empty : MemoryLog := ⟨[], false⟩

instance : LogStore MemoryLog where
  write log records :=
    if log.failing then (.error .logFailure, log)
    else (.ok (), { log with batches := log.batches ++ [records] })
  read log :=
    if log.failing then .error (.corruption "unreadable")
    else
      let records := log.batches.flatten
      .ok ⟨records, ⟨log.batches.length, log.batches.length, records.length, [],
        lastLsn? records⟩⟩

end SnapshotStore.Journal
