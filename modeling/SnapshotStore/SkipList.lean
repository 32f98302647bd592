/-! # The multi-version skip list

A `SkipList` is an ordered map from a key and a version to a value or a delete mark.  Nodes live
in an arena and link to each other by index; a node takes part in as many levels as its tower is
high, and the list without a node stands before all of them.  Entries are never removed: a delete
is an entry of its own.

* `insert` adds an entry or overwrites the one with the same key and version.
* `find` reads a key as of a version; `existsBetween` asks for a write between two versions.
* `entries` walks the bottom level, in the order of `VersionedKey`.

The height of each new tower is given by `towers`, one number per node; no answer depends on
it. -/

namespace SnapshotStore

/-- A key at a version.  The order is by key, then by version. -/
structure VersionedKey where
  key : String
  version : Nat
deriving DecidableEq, Repr

/-- Which of two versioned keys comes first. -/
def VersionedKey.compare (a b : VersionedKey) : Ordering :=
  (Ord.compare a.key b.key).then (Ord.compare a.version b.version)

/-- The highest number of levels. -/
def maxLevel : Nat := 32

/-- The height of a tower above its bottom level. -/
abbrev Height := Fin maxLevel

/-- How often a number can be halved, up to a bound. -/
def halvings : Nat → Nat → Nat
  | 0, _ => 0
  | bound + 1, n => if n % 2 = 0 then halvings bound (n / 2) + 1 else 0

theorem halvings_le (bound n : Nat) : halvings bound n ≤ bound := by
  induction bound generalizing n with
  | zero => simp [halvings]
  | succ bound ih =>
    unfold halvings
    split
    · exact Nat.succ_le_succ (ih _)
    · exact Nat.zero_le _

/-- Towers like the marks of a ruler: every second node rises one level, every fourth two. -/
def Height.ruler (n : Nat) : Height :=
  ⟨halvings 31 (n + 1), Nat.lt_succ_of_le (halvings_le 31 _)⟩

/-- A node: its entry, and its link on each level it takes part in. -/
structure SkipList.Node where
  key : VersionedKey
  value : Option String
  next : Array (Option Nat)
deriving DecidableEq, Repr

/-- A sorted multi-version map.  `head` holds the links of the start of the list and `level` the
number of levels in use. -/
structure SkipList where
  towers : Nat → Height
  head : Array (Option Nat)
  nodes : Array SkipList.Node
  level : Nat

namespace SkipList

/-- The list without entries. -/
def empty (towers : Nat → Height) : SkipList := ⟨towers, Array.replicate maxLevel none, #[], 1⟩

/-- The number of entries, delete marks included. -/
def size (l : SkipList) : Nat := l.nodes.size

/-- Whether the list has no entry. -/
def isEmpty (l : SkipList) : Bool := l.nodes.isEmpty

/-- The link of a place on a level; the place `none` is the start of the list. -/
def successor (l : SkipList) (place : Option Nat) (level : Nat) : Option Nat :=
  match place with
  | none => (l.head[level]?).join
  | some i => ((l.nodes[i]?).bind (·.next[level]?)).join

/-- Points the link of a place on a level at a node. -/
def link (l : SkipList) (place : Option Nat) (level target : Nat) : SkipList :=
  match place with
  | none => { l with head := l.head.setIfInBounds level (some target) }
  | some i =>
    { l with nodes := l.nodes.modify i fun n =>
        { n with next := n.next.setIfInBounds level (some target) } }

/-- Moves right on one level while the next node passes a test; `fuel` bounds the moves. -/
def slide (l : SkipList) (passes : VersionedKey → Bool) (level : Nat) :
    Nat → Option Nat → Option Nat
  | 0, place => place
  | fuel + 1, place =>
    match l.successor place level with
    | none => place
    | some i =>
      match l.nodes[i]? with
      | none => place
      | some n => if passes n.key then l.slide passes level fuel (some i) else place

/-- The places that a search reaches on the levels below `level`, the top one first. -/
def descend (l : SkipList) (passes : VersionedKey → Bool) : Nat → Option Nat → List (Option Nat)
  | 0, _ => []
  | level + 1, place =>
    let here := l.slide passes level l.nodes.size place
    here :: l.descend passes level here

/-- The last node at or before a versioned key. -/
def floor (l : SkipList) (target : VersionedKey) : Option Nat :=
  ((l.descend (fun k => k.compare target != .gt) l.level none).getLast?).join

/-- On each level, from the bottom one up, the last place before a versioned key. -/
def predecessors (l : SkipList) (target : VersionedKey) : List (Option Nat) :=
  (l.descend (fun k => k.compare target == .lt) l.level none).reverse

/-- The place before a versioned key on a level; above the levels in use it is the start. -/
def placeBefore (places : List (Option Nat)) (level : Nat) : Option Nat := (places[level]?).join

/-- The node with exactly a versioned key, seen from the place before it. -/
def nodeAt? (l : SkipList) (target : VersionedKey) (places : List (Option Nat)) : Option Nat :=
  (l.successor (placeBefore places 0) 0).filter fun i =>
    (l.nodes[i]?).any (·.key.compare target == .eq)

/-- Adds a node with a tower of a height, between its neighbours on each of its levels. -/
def addNode (l : SkipList) (key : VersionedKey) (value : Option String) (height : Height)
    (places : List (Option Nat)) : SkipList :=
  let levels := List.range (height + 1)
  let next := levels.map fun level => l.successor (placeBefore places level) level
  let index := l.nodes.size
  let grown := { l with
    nodes := l.nodes.push ⟨key, value, next.toArray⟩
    level := max l.level (height + 1) }
  levels.foldl (fun l level => l.link (placeBefore places level) level index) grown

/-- Records a value, or a delete (`none`), for a key at a version. -/
def insert (l : SkipList) (key : String) (version : Nat) (value : Option String) : SkipList :=
  let target : VersionedKey := ⟨key, version⟩
  let places := l.predecessors target
  match l.nodeAt? target places with
  | some i => { l with nodes := l.nodes.modify i fun n => { n with value } }
  | none => l.addNode target value (l.towers l.size) places

/-- The entry of a key with the highest version up to a bound: nothing, a delete, or a value. -/
def find (l : SkipList) (key : String) (version : Nat) : Option (Option String) :=
  ((l.floor ⟨key, version⟩).bind (l.nodes[·]?)).bind fun n =>
    if n.key.key = key then some n.value else none

/-- Whether a key has an entry with a version above `low` and at most `high`. -/
def existsBetween (l : SkipList) (low high : Nat) (key : String) : Bool :=
  low < high && ((l.floor ⟨key, high⟩).bind (l.nodes[·]?)).any fun n =>
    n.key.key = key && low < n.key.version

/-- The entries from a place on along the bottom level. -/
def entriesFrom (l : SkipList) : Nat → Option Nat → List (VersionedKey × Option String)
  | 0, _ => []
  | fuel + 1, place =>
    match place.bind (l.nodes[·]?) with
    | none => []
    | some n => (n.key, n.value) :: l.entriesFrom fuel (n.next[0]?).join

/-- All entries, in order. -/
def entries (l : SkipList) : List (VersionedKey × Option String) :=
  l.entriesFrom l.size (l.successor none 0)

end SkipList
end SnapshotStore
