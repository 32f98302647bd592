import SnapshotStore.Wire

/-! # Message frames

Clients, servers and replicas exchange frames: the length of the payload in four bytes, then the
payload.  `read` takes one frame off a stream and says what is left of it; `readAll` goes on to
the first error.  A stream that ends inside a frame is used up; a frame that declares more than
the limit costs its header only. -/

namespace SnapshotStore.Frame

/-- The number of bytes in a frame header. -/
def headerSize : Nat := 4

/-- The frame of a payload. -/
def encode (payload : Bytes) : Outcome Bytes :=
  if payload.length < Wire.shortLimit then .ok (Wire.word headerSize payload.length ++ payload)
  else .error (.protocol ("Payload too large: " ++ toString payload.length ++ " bytes"))

/-- The frames of several payloads, one after the other. -/
def encodeAll (payloads : List Bytes) : Outcome Bytes := return (← payloads.mapM encode).flatten

/-- The payload of the first frame of a stream, and the rest of the stream. -/
def read (limit : Nat) (stream : Bytes) : Outcome Bytes × Bytes :=
  if stream.length < headerSize then (.error (.io .endOfData), [])
  else
    let size := Wire.value (stream.take headerSize)
    let rest := stream.drop headerSize
    if limit < size then
      (.error (.protocol ("Payload too large: " ++ toString size ++ " bytes (max " ++
        toString limit ++ ")")), rest)
    else if rest.length < size then (.error (.io .endOfData), [])
    else (.ok (rest.take size), rest.drop size)

/-- A frame that was read made the stream shorter. -/
theorem length_lt_of_read {limit : Nat} {stream payload rest : Bytes}
    (h : read limit stream = (.ok payload, rest)) : rest.length < stream.length := by
  unfold read headerSize at h
  dsimp only at h
  split at h
  · simp at h
  · split at h
    · simp at h
    · split at h
      · simp at h
      · obtain ⟨-, rfl⟩ := Prod.mk.inj h
        simp only [List.length_drop] at *
        omega

/-- What reading a whole stream gives: the payloads, the error that ended it, and the bytes left. -/
structure Scan where
  payloads : List Bytes
  fault : Fault
  rest : Bytes

/-- Reads frames until the first error. -/
def readAll (limit : Nat) (stream : Bytes) : Scan :=
  match h : read limit stream with
  | (.error fault, rest) => ⟨[], fault, rest⟩
  | (.ok payload, rest) =>
    have := length_lt_of_read h
    let next := readAll limit rest
    ⟨payload :: next.payloads, next.fault, next.rest⟩
termination_by stream.length

end SnapshotStore.Frame
