import SnapshotStore.Fault
import SnapshotStore.Table
import SnapshotStore.Text.Utf8

/-! # Folders

A `Folder` is a directory and the contents of its files.  A name leads to a file, a folder, or a
device that is always full.  Files are numbered apart from their names, so an open `Handle` stays
with its file when the name is removed or taken over by another file.  The folder itself may be
missing; then nothing in it can be opened. -/

namespace SnapshotStore.Segment

/-- What a name leads to. -/
inductive Entry where
  | file (number : Nat)
  | folder
  | fullDevice
deriving DecidableEq, Repr

/-- A directory with the contents of all files ever made in it. -/
structure Folder where
  present : Bool
  names : Table String Entry
  contents : Array Bytes

/-- A file or device opened for writing. -/
inductive Handle where
  | file (number : Nat)
  | fullDevice
deriving DecidableEq, Repr

/-- What becomes of a write: all bytes are stored, or it fails after some of them; the torn end
may or may not be cut off again. -/
inductive WriteFate where
  | stored
  | failed (cause : IoCause) (written : Nat) (cutBack : Bool)
deriving DecidableEq, Repr

/-- The outcome of a file operation. -/
abbrev IoOutcome := Except IoCause

/-- The first `n` bytes, with zeros in place of missing ones. -/
def resize (n : Nat) (bytes : Bytes) : Bytes := bytes.take n ++ List.replicate (n - bytes.length) 0

namespace Folder

/-- The empty directory. -/
def empty : Folder := ⟨true, ∅, #[]⟩

/-- The directory, made if it is missing. -/
def ensure (f : Folder) : Folder := { f with present := true }

/-- The names in the directory, in order. -/
def list (f : Folder) : IoOutcome (List String) :=
  if f.present then .ok (f.names.keys.mergeSort fun a b => !(b < a : Bool)) else .error .notFound

/-- The names of regular files, in order. -/
def listFiles (f : Folder) : IoOutcome (List String) :=
  return (← f.list).filter fun name =>
    match f.names.get? name with
    | some (.file _) => true
    | _ => false

/-- The bytes of a file by number. -/
def bytesOf (f : Folder) (number : Nat) : Bytes := f.contents.getD number []

/-- Replaces the bytes of a file by number. -/
def setBytes (f : Folder) (number : Nat) (bytes : Bytes) : Folder :=
  { f with contents := f.contents.setIfInBounds number bytes }

/-- Opens a name for writing; a missing file is made, an existing one keeps its bytes. -/
def openForWriting (f : Folder) (name : String) : IoOutcome (Handle × Folder) :=
  if !f.present then .error .notFound
  else match f.names.get? name with
    | some (.file number) => .ok (.file number, f)
    | some .folder => .error .isFolder
    | some .fullDevice => .ok (.fullDevice, f)
    | none =>
      .ok (.file f.contents.size, { f with
        names := f.names.insert name (.file f.contents.size)
        contents := f.contents.push [] })

/-- The bytes behind a handle; the device has none. -/
def dataOf (f : Folder) : Handle → Bytes
  | .file number => f.bytesOf number
  | .fullDevice => []

/-- Replaces the bytes behind a handle; the device keeps none. -/
def setData (f : Folder) (h : Handle) (bytes : Bytes) : Folder :=
  match h with
  | .file number => f.setBytes number bytes
  | .fullDevice => f

/-- What keeps bytes from being written through a handle: the device is always full. -/
def writeObstacle : Handle → Bytes → Option IoCause
  | .fullDevice, _ :: _ => some .noSpace
  | _, _ => none

/-- What keeps a handle from being synced: only files can be. -/
def syncObstacle : Handle → Option IoCause
  | .file _ => none
  | .fullDevice => some .invalidArgument

/-- What becomes of bytes that are written through a handle and synced. -/
def fate (h : Handle) (data : Bytes) : WriteFate :=
  match (writeObstacle h data).or (syncObstacle h) with
  | none => .stored
  | some cause => .failed cause 0 true

/-- Empties a name, or makes it, and writes bytes through it unless something keeps them out. -/
def fill (f : Folder) (obstacle : Handle → Bytes → Option IoCause) (name : String)
    (data : Bytes) : IoOutcome Unit × Folder :=
  match f.openForWriting name with
  | .error cause => (.error cause, f)
  | .ok (handle, f) =>
    match obstacle handle data with
    | none => (.ok (), f.setData handle data)
    | some cause => (.error cause, f.setData handle [])

/-- Writes a whole file without syncing it. -/
def overwrite (f : Folder) (name : String) (data : Bytes) : IoOutcome Unit × Folder :=
  f.fill writeObstacle name data

/-- Writes a whole file and syncs it. -/
def writeFile (f : Folder) (name : String) (data : Bytes) : IoOutcome Unit × Folder :=
  f.fill (fun h data => (writeObstacle h data).or (syncObstacle h)) name data

/-- The bytes under a name. -/
def readFile (f : Folder) (name : String) : IoOutcome Bytes :=
  match f.names.get? name with
  | some (.file number) => .ok (f.bytesOf number)
  | some .folder => .error .isFolder
  | some .fullDevice => .error .invalidArgument
  | none => .error .notFound

/-- Moves a file to a name; a file there is replaced, a folder is not. -/
def rename (f : Folder) (source target : String) : IoOutcome Folder :=
  match f.names.get? source with
  | none => .error .notFound
  | some entry =>
    if f.names.get? target = some .folder then .error .isFolder
    else .ok { f with names := (f.names.erase source).insert target entry }

/-- Changes the bytes of an existing file in place. -/
def changeFile (f : Folder) (name : String) (change : Bytes → Bytes) : IoOutcome Folder :=
  match f.names.get? name with
  | some (.file number) => .ok (f.setBytes number (change (f.bytesOf number)))
  | some .folder => .error .isFolder
  | some .fullDevice => .error .invalidArgument
  | none => .error .notFound

/-- Removes a name that is no folder. -/
def remove (f : Folder) (name : String) : IoOutcome Folder :=
  match f.names.get? name with
  | some .folder => .error .isFolder
  | some _ => .ok { f with names := f.names.erase name }
  | none => .error .notFound

/-- Puts an entry under a new name. -/
def place (f : Folder) (name : String) (entry : Entry) : IoOutcome Folder :=
  if !f.present then .error .notFound
  else if f.names.contains name then .error .alreadyExists
  else .ok { f with names := f.names.insert name entry }

/-- Removes the directory with all its names. -/
def removeAll (f : Folder) : IoOutcome Folder :=
  if f.present then .ok { f with present := false, names := ∅ } else .error .notFound

end Folder
end SnapshotStore.Segment
