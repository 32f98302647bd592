import SnapshotStore.Console

/-! # The program

Runs a console on an empty database until the input ends. -/

open SnapshotStore

/-- Prompts for lines and answers them until the session ends. -/
partial def converse (input output : IO.FS.Stream) (d : Database Journal.MemoryLog) : IO Unit := do
  output.putStr Console.prompt
  output.flush
  let line ← input.getLine
  if line.isEmpty then return
  match Console.Entry.ofLine line with
  | .skip => converse input output d
  | .leave => return
  | .run command =>
    let (reply, d) := d.execute Console.client command
    output.putStrLn reply.render
    converse input output d

/-- The program. -/
def main : IO UInt32 := do
  match Console.database with
  | .ok d =>
    converse (← IO.getStdin) (← IO.getStdout) d
    return 0
  | .error fault =>
    (← IO.getStderr).putStrLn fault.message
    return 1
