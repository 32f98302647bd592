/-! # Faults

Everything that can go wrong in the store is one value of `Fault`.  A fault carries its cause;
the words that a client or an operator reads are chosen in one place, `Fault.message`. -/

namespace SnapshotStore

/-- Why a file or stream operation failed. -/
inductive IoCause where
  | endOfData
  | notFound
  | alreadyExists
  | isFolder
  | invalidArgument
  | noSpace
  | other (text : String)
deriving DecidableEq, Repr

/-- The operating system's words for a cause. -/
def IoCause.text : IoCause → String
  | endOfData => "failed to fill whole buffer"
  | notFound => "No such file or directory (os error 2)"
  | alreadyExists => "File exists (os error 17)"
  | isFolder => "Is a directory (os error 21)"
  | invalidArgument => "Invalid argument (os error 22)"
  | noSpace => "No space left on device (os error 28)"
  | other text => text

/-- A failure of any operation of the store. -/
inductive Fault where
  | io (cause : IoCause)
  | logFailure
  | corruption (detail : String)
  | serialization (detail : String)
  | invalidCommand (detail : String)
  | interfered
  | finished
  | noTransaction
  | alreadyStarted
  | readOnly
  | replication (detail : String)
  | network (detail : String)
  | protocol (detail : String)
  | config (detail : String)
deriving DecidableEq, Repr

namespace Fault

/-- The text shown for a fault. -/
def message : Fault → String
  | io cause => "IO error: " ++ cause.text
  | logFailure => "wal failure"
  | corruption detail => "corruption detected: " ++ detail
  | serialization detail => "serialization error: " ++ detail
  | invalidCommand detail => "invalid command: " ++ detail
  | interfered => "transaction interfered"
  | finished => "transaction finished"
  | noTransaction => "invalid transaction"
  | alreadyStarted => "transaction already started"
  | readOnly => "replica does not support writes"
  | replication detail => "replication error: " ++ detail
  | network detail => "network error: " ++ detail
  | protocol detail => "protocol error: " ++ detail
  | config detail => "configuration error: " ++ detail

end Fault

/-- The outcome of an operation that may fail. -/
abbrev Outcome := Except Fault

end SnapshotStore
