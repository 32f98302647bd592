import SnapshotStore.Config
import SnapshotStore.Database
import SnapshotStore.Text.Blank

/-! # The console

At a console one person types a command per line.  `Console.Entry` says what a line means: blank
lines are skipped, `quit` and `exit` end the session, and anything else is run as a command of
the client `console`. -/

namespace SnapshotStore.Console

open Journal

/-- What a line of input asks for. -/
inductive Entry where
  | skip
  | leave
  | run (line : String)
deriving DecidableEq, Repr

/-- The words that end a session, in any ASCII case. -/
def farewells : List String := ["quit", "exit"]

/-- The meaning of a line of input. -/
def Entry.ofLine (input : String) : Entry :=
  let line := Text.trim input.toList
  if line.isEmpty then skip
  else if (String.ofList (line.map Char.toLower)) ∈ farewells then leave
  else run (String.ofList line)

/-- What is shown before each line. -/
def prompt : String := "# "

/-- The client that a console stands for. -/
def client : String := "console"

/-- An empty database with the default settings and a log in memory. -/
def database : Outcome (Database MemoryLog) := do
  let config : Config := {}
  config.validate
  let shards ← Shards.create config.shardCount fun _ => Height.ruler
  let journal := Journal.start MemoryLog.empty config.batchSize
  return Database.create (Coordinator.create shards (some journal) config.sweepThreshold) false

end SnapshotStore.Console
