import SnapshotStore.Fault
import SnapshotStore.SkipList
import SnapshotStore.Table
import SnapshotStore.Text.Utf8

/-! # Shards

The versions of all keys are spread over a fixed number of skip lists.  The 32-bit FNV-1a hash of
a key's UTF-8 form names its shard, so a key lives in one shard only.  Operations on several keys
visit the shards in ascending order. -/

namespace SnapshotStore

/-- The 32-bit FNV-1a hash. -/
def fnv1a (bytes : Bytes) : UInt32 :=
  bytes.foldl (fun hash b => (hash ^^^ b.toUInt32) * 0x01000193) 0x811c9dc5

/-- Puts a number into an ascending list, once. -/
def insertAscending (n : Nat) : List Nat → List Nat
  | [] => [n]
  | m :: ms => if n < m then n :: m :: ms else if n = m then m :: ms else m :: insertAscending n ms

/-- The writes of one transaction: a value, or a delete (`none`), for each key. -/
abbrev Writes := Table String (Option String)

/-- A positive number of skip lists. -/
structure Shards where
  lists : Array SkipList
  size_pos : 0 < lists.size

namespace Shards

/-- A given number of empty shards; `towers` gives the tower heights of each. -/
def create (count : Nat) (towers : Nat → Nat → Height) : Outcome Shards :=
  if h : 0 < count then
    .ok ⟨Array.ofFn fun i : Fin count => SkipList.empty (towers i), by simpa using h⟩
  else .error (.config "shard count must be positive")

/-- The number of shards. -/
def count (s : Shards) : Nat := s.lists.size

/-- The shard of a key. -/
def shardFor (s : Shards) (key : String) : Fin s.lists.size :=
  ⟨(fnv1a (Text.encode key)).toNat % s.lists.size, Nat.mod_lt _ s.size_pos⟩

/-- The shards of some keys, in ascending order. -/
def touched (s : Shards) (keys : List String) : List Nat :=
  keys.foldr (fun key is => insertAscending (s.shardFor key) is) []

/-- Changes one shard. -/
def modify (s : Shards) (i : Nat) (f : SkipList → SkipList) : Shards :=
  ⟨s.lists.modify i f, by simpa using s.size_pos⟩

/-- The value of a key as of a version; a delete reads as nothing. -/
def get (s : Shards) (version : Nat) (key : String) : Option String :=
  ((s.lists[s.shardFor key]).find key version).join

/-- Records a value, or a delete, for a key at a version. -/
def set (s : Shards) (version : Nat) (key : String) (value : Option String) : Shards :=
  s.modify (s.shardFor key) (·.insert key version value)

/-- Records the writes of one shard at a version. -/
def setShard (s : Shards) (version : Nat) (writes : List (String × Option String)) (i : Nat) :
    Shards :=
  s.modify i fun l => (writes.filter fun w => s.shardFor w.1 = i).foldl
    (fun l w => l.insert w.1 version w.2) l

/-- Records all writes of a transaction at one version, shard by shard. -/
def setMany (s : Shards) (version : Nat) (writes : Writes) : Shards :=
  (s.touched writes.keys).foldl (fun t i => t.setShard version writes.entries i) s

/-- The shards with some numbers, each under its number. -/
def pick (s : Shards) (is : List Nat) : List (Nat × SkipList) :=
  is.filterMap fun i => (s.lists[i]?).map fun l => (i, l)

/-- The value of a key as of a version, if the shard of the key is among those given. -/
def getFrom (s : Shards) (picked : List (Nat × SkipList)) (version : Nat) (key : String) :
    Option String :=
  (picked.lookup (s.shardFor key : Nat)).bind fun l => (l.find key version).join

/-- The values of several keys as of one version, in the order asked. -/
def getMany (s : Shards) (version : Nat) (keys : List String) : List (Option String) :=
  let picked := s.pick (s.touched keys)
  keys.map (s.getFrom picked version)

/-- Whether a key was written at a version above `low` and at most `high`. -/
def existsBetween (s : Shards) (low high : Nat) (key : String) : Bool :=
  (s.lists[s.shardFor key]).existsBetween low high key

/-- The number of versions of all keys. -/
def versionCount (s : Shards) : Nat := s.lists.foldl (fun n l => n + l.size) 0

end Shards
end SnapshotStore
