/-! # UTF-8

Texts travel as UTF-8.  `decode` accepts exactly the bytes of some text; for other bytes it
names the first flaw: a sequence that breaks off inside the data (`broken`, with the number of
bytes that were still acceptable together) or one that the end of the data cuts off (`cutOff`).

`decode_encode` and `eq_encode_of_decode` say that reading undoes writing and accepts nothing
else. -/

namespace SnapshotStore

/-- A sequence of bytes. -/
abbrev Bytes := List UInt8

namespace Text

/-- The UTF-8 form of a text. -/
def encode (s : String) : Bytes := s.toUTF8.data.toList

/-- What makes bytes no UTF-8, with the index at which the bad sequence starts. -/
inductive Flaw where
  | broken (length index : Nat)
  | cutOff (index : Nat)
deriving DecidableEq, Repr

/-- The wording of a flaw. -/
def Flaw.message : Flaw → String
  | broken length index =>
    "invalid utf-8 sequence of " ++ toString length ++ " bytes from index " ++ toString index
  | cutOff index => "incomplete utf-8 byte sequence from index " ++ toString index

/-- A sequence under way: where it starts, how many bytes it has and still needs, and the range
of the next one. -/
structure Sequence where
  start : Nat
  seen : Nat
  wanted : Nat
  low : UInt8
  high : UInt8

/-- How many bytes follow a lead byte, and the range of the first of them. -/
def followers (lead : UInt8) : Option (Nat × UInt8 × UInt8) :=
  if lead < 0x80 then some (0, 0x80, 0xbf)
  else if lead < 0xc2 then none
  else if lead < 0xe0 then some (1, 0x80, 0xbf)
  else if lead = 0xe0 then some (2, 0xa0, 0xbf)
  else if lead = 0xed then some (2, 0x80, 0x9f)
  else if lead < 0xf0 then some (2, 0x80, 0xbf)
  else if lead = 0xf0 then some (3, 0x90, 0xbf)
  else if lead < 0xf4 then some (3, 0x80, 0xbf)
  else if lead = 0xf4 then some (3, 0x80, 0x8f)
  else none

/-- The first flaw of the bytes from an index on, given the sequence under way. -/
def flawFrom (index : Nat) : Option Sequence → Bytes → Option Flaw
  | none, [] => none
  | some q, [] => some (.cutOff q.start)
  | some q, b :: rest =>
    if q.low ≤ b ∧ b ≤ q.high then
      if q.wanted ≤ 1 then flawFrom (index + 1) none rest
      else flawFrom (index + 1) (some ⟨q.start, q.seen + 1, q.wanted - 1, 0x80, 0xbf⟩) rest
    else some (.broken q.seen q.start)
  | none, b :: rest =>
    match followers b with
    | none => some (.broken 1 index)
    | some (0, _, _) => flawFrom (index + 1) none rest
    | some (n + 1, low, high) => flawFrom (index + 1) (some ⟨index, 1, n + 1, low, high⟩) rest

/-- The first flaw of some bytes. -/
def flaw (bytes : Bytes) : Option Flaw := flawFrom 0 none bytes

/-- The text that some bytes stand for. -/
def decode (bytes : Bytes) : Except Flaw String :=
  match String.fromUTF8? ⟨bytes.toArray⟩ with
  | some s => .ok s
  | none => .error ((flaw bytes).getD (.cutOff bytes.length))

theorem decode_encode (s : String) : decode (encode s) = .ok s := by
  have h : String.fromUTF8? s.toByteArray = some s := by
    simp [String.fromUTF8?, String.fromUTF8, s.isValidUTF8]
  simp only [decode, encode, String.toUTF8_eq_toByteArray]
  simp [h]

theorem eq_encode_of_decode {bytes : Bytes} {s : String} (h : decode bytes = .ok s) :
    bytes = encode s := by
  unfold decode at h
  split at h
  · next t ht =>
    obtain rfl : t = s := by simpa using h
    unfold String.fromUTF8? at ht
    split at ht
    · obtain rfl := Option.some.inj ht
      simp [encode, String.fromUTF8]
    · simp at ht
  · simp at h

end Text
end SnapshotStore
