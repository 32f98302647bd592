import SnapshotStore.Text.Blank
import SnapshotStore.Text.Quoted
import SnapshotStore.Wire

/-! # Sizes

Settings give sizes as a number with an optional unit: `64`, `64B`, `512 KB`, `10MB`, `1GB`.
Units count in powers of 1024 and may be written in any ASCII case.  `Size.parse` refuses a size
that does not fit in eight bytes. -/

namespace SnapshotStore.Size

/-- How many bytes a unit, in upper case, stands for. -/
def unitFactor? (unit : String) : Option Nat :=
  if unit = "" ∨ unit = "B" then some 1
  else if unit = "KB" then some 1024
  else if unit = "MB" then some (1024 * 1024)
  else if unit = "GB" then some (1024 * 1024 * 1024)
  else none

/-- The number that some decimal digits spell. -/
def decimal (digits : List Char) : Nat :=
  digits.foldl (fun n c => n * 10 + (c.toNat - '0'.toNat)) 0

/-- The number of bytes that a text stands for. -/
def parse (input : String) : Outcome Nat :=
  let body := Text.trim input.toList
  let digits := body.takeWhile Char.isDigit
  let unit := String.ofList ((Text.trim (body.dropWhile Char.isDigit)).map Char.toUpper)
  let shown := Text.quote (String.ofList body)
  if digits = [] ∨ Wire.wordLimit ≤ decimal digits then .error (.config ("invalid size: " ++ shown))
  else match unitFactor? unit with
    | none => .error (.config ("invalid size unit: " ++ Text.quote unit))
    | some factor =>
      if decimal digits * factor < Wire.wordLimit then .ok (decimal digits * factor)
      else .error (.config ("size overflows: " ++ shown))

end SnapshotStore.Size
