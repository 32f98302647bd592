import SnapshotStore.Checksum
import SnapshotStore.Record

/-! # Log frames

A batch of records is written as one frame: the length of the payload and its CRC-32, four bytes
each, then the records.  A segment is a run of frames.

`decode` reads a segment up to the first frame that is cut short, has a wrong checksum or holds
no records, and says whether there was one; whatever follows such a frame counts as lost. -/

namespace SnapshotStore.Journal

/-- The number of bytes before the payload of a frame. -/
def frameHeaderSize : Nat := 8

/-- The payload of a frame. -/
def payload (records : List Record) : Bytes := Wire.list Record.encode records

/-- The frame of a batch.  The length of the payload has to fit in four bytes, and every number
of a record in its field. -/
def encode (records : List Record) : Outcome Bytes :=
  let body := payload records
  if Wire.shortLimit ≤ body.length then
    .error (.serialization ("batch of " ++ toString body.length ++ " bytes exceeds frame limit"))
  else if records.all Record.fits then
    .ok (Wire.word 4 body.length ++ Wire.word 4 (Checksum.crc32 body).toNat ++ body)
  else .error (.serialization "number exceeds eight bytes")

/-- What a segment holds: the records of its intact frames, their number, and whether a damaged
frame ended the scan. -/
structure Decoded where
  records : List Record
  frames : Nat
  damaged : Bool
deriving DecidableEq, Repr

/-- The records of the first frame and what follows it, if the frame is intact. -/
def takeFrame? (data : Bytes) : Option (List Record × Bytes) :=
  if data.length < frameHeaderSize then none
  else
    let size := Wire.value (data.take 4)
    let sum := Wire.value ((data.drop 4).take 4)
    let rest := data.drop frameHeaderSize
    if rest.length < size then none
    else if (Checksum.crc32 (rest.take size)).toNat ≠ sum then none
    else match (Wire.Reader.list Record.reader).run (rest.take size) with
      | .error _ => none
      | .ok (records, _) => some (records, rest.drop size)

theorem length_lt_of_takeFrame? {data rest : Bytes} {records : List Record}
    (h : takeFrame? data = some (records, rest)) : rest.length < data.length := by
  unfold takeFrame? frameHeaderSize at h
  dsimp only at h
  split at h
  · simp at h
  · split at h
    · simp at h
    · split at h
      · simp at h
      · split at h
        · simp at h
        · obtain ⟨-, rfl⟩ := Prod.mk.inj (Option.some.inj h)
          simp only [List.length_drop] at *
          omega

/-- Reads every intact frame of a segment. -/
def decode (data : Bytes) : Decoded :=
  if data.isEmpty then ⟨[], 0, false⟩
  else match h : takeFrame? data with
    | none => ⟨[], 0, true⟩
    | some (records, rest) =>
      have := length_lt_of_takeFrame? h
      let next := decode rest
      ⟨records ++ next.records, next.frames + 1, next.damaged⟩
termination_by data.length

end SnapshotStore.Journal
