import SnapshotStore.Fault
import SnapshotStore.Text.Utf8

/-! # Wire format

Log records and replication messages are written field by field: a number in a fixed count of
bytes, lowest byte first; a text as the number of its bytes and its UTF-8 form; a list as the
number of its items and the items; a flag as one byte, 0 or 1.

A `Reader` consumes bytes from the front.  It stops at the first problem in reading order, and
leaves what follows the value alone.  `value_word` and `word_value` say that numbers and their
bytes stand for each other. -/

namespace SnapshotStore.Wire

/-! ### Writing -/

/-- A number in `width` bytes, lowest first. -/
def word : Nat → Nat → Bytes
  | 0, _ => []
  | width + 1, n => UInt8.ofNat n :: word width (n / 256)

/-- How many numbers there are of a number of bytes. -/
def span : Nat → Nat
  | 0 => 1
  | width + 1 => 256 * span width

/-- Numbers of four bytes end here. -/
def shortLimit : Nat := 4294967296

/-- Numbers of eight bytes end here. -/
def wordLimit : Nat := 18446744073709551616

theorem span_four : span 4 = shortLimit := rfl

theorem span_eight : span 8 = wordLimit := rfl

/-- A text: its length in bytes, then its UTF-8 form. -/
def text (s : String) : Bytes := word 8 (Text.encode s).length ++ Text.encode s

/-- Raw bytes: their number, then the bytes. -/
def blob (bytes : Bytes) : Bytes := word 8 bytes.length ++ bytes

/-- A list: its length, then its items. -/
def list {α : Type} (item : α → Bytes) (xs : List α) : Bytes :=
  word 8 xs.length ++ xs.flatMap item

/-- A flag. -/
def flag (b : Bool) : Bytes := [if b then 1 else 0]

/-! ### Reading -/

/-- The number that some bytes spell, lowest byte first. -/
def value : Bytes → Nat
  | [] => 0
  | b :: bs => b.toNat + 256 * value bs

@[simp] theorem length_word (width n : Nat) : (word width n).length = width := by
  induction width generalizing n with
  | zero => rfl
  | succ width ih => simp [word, ih]

/-- A number that fits in some bytes is read back from them. -/
theorem value_word {width n : Nat} (h : n < span width) : value (word width n) = n := by
  induction width generalizing n with
  | zero =>
    have : n = 0 := by simpa [span] using h
    simp [word, value, this]
  | succ width ih =>
    have hd : n / 256 < span width := by
      rw [Nat.div_lt_iff_lt_mul (by decide), Nat.mul_comm]
      exact h
    rw [word, value, ih hd]
    simp only [UInt8.toNat_ofNat']
    omega

theorem value_lt (bytes : Bytes) : value bytes < span bytes.length := by
  induction bytes with
  | nil => exact Nat.one_pos
  | cons b bytes ih =>
    have hb := b.toNat_lt
    simp only [List.length_cons, value, span]
    omega

/-- Some bytes are the word of the number that they spell. -/
theorem word_value (bytes : Bytes) : word bytes.length (value bytes) = bytes := by
  induction bytes with
  | nil => rfl
  | cons b bytes ih =>
    have hb := b.toNat_lt
    have h₁ : (b.toNat + 256 * value bytes) / 256 = value bytes := by omega
    have h₂ : UInt8.ofNat (b.toNat + 256 * value bytes) = b := by
      apply UInt8.toNat_inj.1
      simp only [UInt8.toNat_ofNat']
      omega
    simp only [List.length_cons, value, word, h₁, h₂, ih]

/-- Why some bytes are no value of the expected form. -/
inductive Problem where
  | shortData
  | shortText
  | badText (flaw : Text.Flaw)
  | badFlag (byte : Nat)
  | badKind (number : Nat)
deriving DecidableEq, Repr

/-- The wording of a problem. -/
def Problem.message : Problem → String
  | shortData => "io error: unexpected end of file"
  | shortText => "io error: "
  | badText flaw => "string is not valid utf8: " ++ flaw.message
  | badFlag byte => "invalid u8 while decoding bool, expected 0 or 1, found " ++ toString byte
  | badKind number =>
    "invalid value: integer `" ++ toString number ++ "`, expected variant index 0 <= i < 4"

/-- Reads one value from the front of some bytes. -/
abbrev Reader := StateT Bytes (Except Problem)

namespace Reader

/-- The next `n` bytes, or a problem if fewer are left. -/
def take (n : Nat) (short : Problem) : Reader Bytes := fun bytes =>
  if bytes.length < n then .error short else .ok (bytes.take n, bytes.drop n)

/-- A number of `width` bytes. -/
def number (width : Nat) : Reader Nat := return value (← take width .shortData)

/-- A text. -/
def text : Reader String := do
  let n ← number 8
  match Text.decode (← take n .shortText) with
  | .ok s => return s
  | .error flaw => throw (.badText flaw)

/-- Raw bytes. -/
def blob : Reader Bytes := do take (← number 8) .shortData

/-- A flag. -/
def flag : Reader Bool := do
  match ← number 1 with
  | 0 => return false
  | 1 => return true
  | n => throw (.badFlag n)

/-- A given number of items. -/
def many {α : Type} (item : Reader α) : Nat → Reader (List α)
  | 0 => return []
  | n + 1 => return (← item) :: (← many item n)

/-- A list. -/
def list {α : Type} (item : Reader α) : Reader (List α) := do many item (← number 8)

/-- The value at the front of some bytes; whatever follows it is ignored. -/
def parse {α : Type} (r : Reader α) (bytes : Bytes) : Outcome α :=
  match r.run bytes with
  | .ok (a, _) => .ok a
  | .error problem => .error (.serialization problem.message)

end Reader
end SnapshotStore.Wire
