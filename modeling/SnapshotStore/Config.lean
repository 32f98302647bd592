import SnapshotStore.Fault

/-! # Settings

`Config` holds the settings of a node, with defaults; all times are in milliseconds.
`Config.validate` refuses settings that a node cannot run with and names the first bad one. -/

namespace SnapshotStore

/-- The part that a node plays in replication. -/
inductive Role where
  | master
  | slave
deriving DecidableEq, Repr

namespace Role

/-- The name of a role. -/
def text : Role → String
  | master => "master"
  | slave => "slave"

/-- The role that a text names, in any ASCII case. -/
def parse (text : String) : Outcome Role :=
  let name := String.ofList (text.toList.map Char.toLower)
  if name = master.text then .ok master
  else if name = slave.text then .ok slave
  else .error (.config ("unknown replica role: " ++ name))

end Role

/-- Settings for replication. -/
structure ReplicationConfig where
  role : Role := .master
  masterAddress : String := "127.0.0.1:3232"
  syncInterval : Nat := 1000
deriving DecidableEq, Repr

/-- The settings of a node. -/
structure Config where
  dataDir : String := "./tidekv_data"
  shardCount : Nat := 16
  sweepThreshold : Nat := 64 * 1024
  logEnabled : Bool := true
  batchSize : Nat := 100
  flushTimeout : Nat := 10
  maxSegmentSize : Nat := 10 * 1024 * 1024
  listenAddress : String := "127.0.0.1:3223"
  maxConnections : Nat := 1024
  idleTimeout : Nat := 300000
  maxMessageSize : Nat := 4 * 1024
  replication : Option ReplicationConfig := none
deriving DecidableEq, Repr

namespace Config

/-- The role of the node, if it takes part in replication. -/
def role? (c : Config) : Option Role := c.replication.map (·.role)

/-- Whether a replica would poll its master without a pause. -/
def pollsWithoutPause (r : ReplicationConfig) : Bool := r.role = .slave && r.syncInterval = 0

/-- The checks that settings have to pass, in order, with the words for a failure. -/
def checks (c : Config) : List (Bool × String) := [
  (c.shardCount ≠ 0, "shard count must be positive"),
  (c.batchSize ≠ 0, "WAL batch size must be positive"),
  (c.flushTimeout ≠ 0, "WAL flush timeout must be positive"),
  (c.maxSegmentSize ≠ 0, "max segment size must be positive"),
  (c.maxConnections ≠ 0, "max connections must be positive"),
  (!c.replication.any pollsWithoutPause, "sync interval must be positive"),
  (c.replication.isNone || c.logEnabled, "replication requires the WAL")]

/-- Refuses settings that a node cannot run with. -/
def validate (c : Config) : Outcome Unit :=
  match c.checks.find? (!·.1) with
  | none => .ok ()
  | some (_, words) => .error (.config words)

end Config
end SnapshotStore
