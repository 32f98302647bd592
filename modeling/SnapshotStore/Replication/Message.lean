import SnapshotStore.Wire

/-! # Replication messages

A replica asks for the segment after the last one it has, with an empty name if it has none.  The
answer carries one whole segment, or an empty name if there is nothing newer, or reports a
failure. -/

namespace SnapshotStore.Replication

/-- A replica's question. -/
structure Query where
  lastSegment : String
deriving DecidableEq, Repr

/-- The answer to a question. -/
structure Delivery where
  ok : Bool
  filename : String
  segment : Bytes
deriving DecidableEq, Repr

namespace Query

/-- The wire form of a question. -/
def encode (q : Query) : Bytes := Wire.text q.lastSegment

/-- Reads a question. -/
def reader : Wire.Reader Query := return ⟨← Wire.Reader.text⟩

/-- The question that some bytes stand for. -/
def decode (bytes : Bytes) : Outcome Query := reader.parse bytes

end Query

namespace Delivery

/-- An answer with a segment. -/
def success (filename : String) (segment : Bytes) : Delivery := ⟨true, filename, segment⟩

/-- The answer that there is nothing newer. -/
def noData : Delivery := success "" []

/-- The answer that something failed. -/
def failure : Delivery := ⟨false, "", []⟩

/-- Whether an answer carries a segment. -/
def hasSegment (d : Delivery) : Bool := d.ok && d.filename ≠ ""

/-- The wire form of an answer. -/
def encode (d : Delivery) : Bytes :=
  Wire.flag d.ok ++ Wire.text d.filename ++ Wire.blob d.segment

/-- Reads an answer. -/
def reader : Wire.Reader Delivery :=
  return ⟨← Wire.Reader.flag, ← Wire.Reader.text, ← Wire.Reader.blob⟩

/-- The answer that some bytes stand for. -/
def decode (bytes : Bytes) : Outcome Delivery := reader.parse bytes

end Delivery
end SnapshotStore.Replication
