import SnapshotStore.Size

/-! # Segment names

Segment `n` of a log is the file `wal_`, the twenty decimal digits of `n`, `.log`.  The digits
are padded with zeros, so the order of names is the order of numbers; a number has to fit in
eight bytes. -/

namespace SnapshotStore.Segment

/-- What a segment name starts with. -/
def stem : String := "wal_"

/-- What a segment name ends with. -/
def extension : String := ".log"

/-- The number of digits in a segment name. -/
def idWidth : Nat := 20

/-- The last `width` decimal digits of a number, padded with zeros. -/
def decimals : Nat → Nat → List Char
  | 0, _ => []
  | width + 1, n => decimals width (n / 10) ++ [Char.ofNat ('0'.toNat + n % 10)]

/-- The name of a segment. -/
def name (id : Nat) : String := stem ++ String.ofList (decimals idWidth id) ++ extension

/-- The number in a segment name; other names have none. -/
def id? (name : String) : Option Nat :=
  (stem.toList.isPrefixOf? name.toList).bind fun rest =>
    (extension.toList.isSuffixOf? rest).bind fun digits =>
      if digits.length = idWidth ∧ digits.all Char.isDigit ∧ Size.decimal digits < Wire.wordLimit
      then some (Size.decimal digits) else none

/-- The number after a segment number; the numbers wrap around after eight bytes. -/
def nextId (id : Nat) : Nat := (id + 1) % Wire.wordLimit

end SnapshotStore.Segment
