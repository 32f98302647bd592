import SnapshotStore.Wire

/-! # Log records

A record notes one step of a transaction: a write, a delete, or how the transaction ended.  The
log numbers its records (`lsn`); `tx` is the number of the transaction. -/

namespace SnapshotStore

/-- What a record notes. -/
inductive RecordKind where
  | set
  | del
  | commit
  | rollback
deriving DecidableEq, Repr

/-- One entry of the log. -/
structure Record where
  lsn : Nat
  tx : Nat
  kind : RecordKind
  args : List String
deriving DecidableEq, Repr

namespace RecordKind

/-- The number that stands for a kind in the log. -/
def number : RecordKind → Nat
  | set => 0
  | del => 1
  | commit => 2
  | rollback => 3

/-- The kind that a number stands for. -/
def ofNumber? : Nat → Option RecordKind
  | 0 => some set
  | 1 => some del
  | 2 => some commit
  | 3 => some rollback
  | _ => none

/-- Whether a record of this kind ends its transaction. -/
def isTerminal : RecordKind → Bool
  | set | del => false
  | commit | rollback => true

end RecordKind

namespace Record

/-- The key of a write or delete. -/
def key? (r : Record) : Option String :=
  match r.kind with
  | .set | .del => r.args[0]?
  | .commit | .rollback => none

/-- The value of a write. -/
def value? (r : Record) : Option String :=
  match r.kind with
  | .set => r.args[1]?
  | _ => none

/-- The wire form of a record. -/
def encode (r : Record) : Bytes :=
  Wire.word 8 r.lsn ++ Wire.word 8 r.tx ++ Wire.word 4 r.kind.number ++ Wire.list Wire.text r.args

/-- Reads a record. -/
def reader : Wire.Reader Record := do
  let lsn ← Wire.Reader.number 8
  let tx ← Wire.Reader.number 8
  let kind ← Wire.Reader.number 4
  match RecordKind.ofNumber? kind with
  | none => throw (.badKind kind)
  | some kind => return ⟨lsn, tx, kind, ← Wire.Reader.list Wire.Reader.text⟩

/-- Whether the numbers of a record fit their fields. -/
def fits (r : Record) : Bool := r.lsn < Wire.wordLimit && r.tx < Wire.wordLimit

end Record
end SnapshotStore
