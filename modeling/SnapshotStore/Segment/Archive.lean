import SnapshotStore.Segment.Folder
import SnapshotStore.Segment.Name
import SnapshotStore.Text.Quoted

/-! # The segment archive

An `Archive` keeps the segments of a log in a folder.  Appends go to the active segment, which is
opened when it is first needed; once it has reached the bound, or a write to it has failed, the
next append starts a new segment.

* `append` stores bytes at the end of the log; `store` puts a whole segment under its name.
* `segmentNames`, `next?` and `read` show the segments, in the order of their names.
* `ship` reads a segment that leaves this node and seals it, so that it never grows again. -/

namespace SnapshotStore.Segment

/-- The segment that takes appends: its name, its open file, and the length of what was appended
in full. -/
structure Active where
  name : String
  handle : Handle
  size : Nat
deriving DecidableEq, Repr

/-- Segments in a folder.  `bound` is the size from which a segment is full and `upcoming` the
number of the next new segment. -/
structure Archive where
  folder : Folder
  bound : Nat
  active : Option Active
  upcoming : Nat

/-- What a temporary file adds to the name of its segment. -/
def temporary (name : String) : String := name ++ ".tmp"

/-- The number in a segment name that came from outside. -/
def checkName (name : String) : Outcome Nat :=
  match id? name with
  | some id => .ok id
  | none => .error (.replication ("invalid segment name: " ++ Text.quote name))

/-- A file operation as an operation of the store. -/
def lift {α : Type} : IoOutcome α → Outcome α
  | .ok a => .ok a
  | .error cause => .error (.io cause)

namespace Archive

/-- Opens a folder, made if it is missing.  The first append goes to a new segment after all
that are there. -/
def mount (folder : Folder) (bound : Nat) : Archive :=
  let folder := folder.ensure
  ⟨folder, bound, none, ((folder.names.keys.filterMap id?).max?).elim 1 nextId⟩

/-- Opens the folder of an archive anew. -/
def reopen (a : Archive) (bound : Nat) : Archive := mount a.folder bound

/-- Starts a new active segment.  Its number is used up even if it cannot be opened. -/
def rotate (a : Archive) : Outcome Active × Archive :=
  let a' := { a with upcoming := nextId a.upcoming }
  match a.folder.openForWriting (name a.upcoming) with
  | .error cause => (.error (.io cause), a')
  | .ok (handle, folder) =>
    let active := ⟨name a.upcoming, handle, (folder.dataOf handle).length⟩
    (.ok active, { a' with folder, active := some active })

/-- The segment that the next append goes to. -/
def target (a : Archive) : Outcome Active × Archive :=
  match a.active with
  | some active => if a.bound ≤ active.size then a.rotate else (.ok active, a)
  | none => a.rotate

/-- Writes bytes after what was appended in full; a torn end is cut off first.  A segment that
could not be written to is given up. -/
def writeTo (a : Archive) (active : Active) (data : Bytes) (fate : WriteFate) :
    Outcome Unit × Archive :=
  let good := resize active.size (a.folder.dataOf active.handle)
  match fate with
  | .stored =>
    (.ok (), { a with
      folder := a.folder.setData active.handle (good ++ data)
      active := some { active with size := active.size + data.length } })
  | .failed cause written cutBack =>
    (.error (.io cause), { a with
      folder := a.folder.setData active.handle
        (if cutBack then good else good ++ data.take written)
      active := none })

/-- Appends bytes to the log when the write has a given fate. -/
def appendWith (fate : Handle → Bytes → WriteFate) (a : Archive) (data : Bytes) :
    Outcome Unit × Archive :=
  match a.target with
  | (.error fault, a) => (.error fault, a)
  | (.ok active, a) => a.writeTo active data (fate active.handle data)

/-- Appends bytes to the log. -/
def append (a : Archive) (data : Bytes) : Outcome Unit × Archive := a.appendWith Folder.fate data

/-- The names of all segments, in order. -/
def segmentNames (a : Archive) : Outcome (List String) :=
  return (← lift a.folder.listFiles).filter fun name => (id? name).isSome

/-- The last segment. -/
def last? (a : Archive) : Outcome (Option String) := return (← a.segmentNames).getLast?

/-- The first segment after a name. -/
def next? (a : Archive) (after : String) : Outcome (Option String) :=
  return (← a.segmentNames).find? fun name => after < name

/-- The bytes of a segment. -/
def read (a : Archive) (name : String) : Outcome Bytes := do
  let _ ← checkName name
  lift (a.folder.readFile name)

/-- All segments with their bytes, in order. -/
def segments (a : Archive) : Outcome (List (String × Bytes)) := do
  (← a.segmentNames).mapM fun name => return (name, ← a.read name)

/-- The bytes of a segment that is about to leave this node.  If it is the active one, it takes
no more appends. -/
def ship (a : Archive) (name : String) : Outcome Bytes × Archive :=
  match a.read name with
  | .error fault => (.error fault, a)
  | .ok data => (.ok data,
      if a.active.any (·.name = name) then { a with active := none } else a)

/-- Puts a whole segment under its name, by way of a temporary file. -/
def store (a : Archive) (name : String) (data : Bytes) : Outcome Unit × Archive :=
  match checkName name with
  | .error fault => (.error fault, a)
  | .ok id =>
    match a.folder.writeFile (temporary name) data with
    | (.error cause, folder) => (.error (.io cause), { a with folder })
    | (.ok (), folder) =>
      match folder.rename (temporary name) name with
      | .error cause => (.error (.io cause), { a with folder })
      | .ok folder => (.ok (), { a with folder, upcoming := max a.upcoming (nextId id) })

end Archive
end SnapshotStore.Segment
