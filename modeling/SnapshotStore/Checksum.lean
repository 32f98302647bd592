import SnapshotStore.Text.Utf8

/-! # CRC-32

The checksum of a log frame is the standard CRC-32: the polynomial 0x04C11DB7 with its bits
reflected, a register that starts with all bits set and is inverted at the end.  It is computed
one bit at a time. -/

namespace SnapshotStore.Checksum

/-- The reflected polynomial. -/
def polynomial : UInt32 := 0xedb88320

/-- One shift of the register. -/
def shift (register : UInt32) : UInt32 :=
  if register &&& 1 = 1 then (register >>> 1) ^^^ polynomial else register >>> 1

/-- Takes one byte into the register. -/
def feed (register : UInt32) (byte : UInt8) : UInt32 :=
  shift (shift (shift (shift (shift (shift (shift (shift (register ^^^ byte.toUInt32))))))))

/-- The register after some bytes. -/
def register (start : UInt32) (bytes : Bytes) : UInt32 := bytes.foldl feed start

/-- The CRC-32 of some bytes. -/
def crc32 (bytes : Bytes) : UInt32 := register 0xffffffff bytes ^^^ 0xffffffff

end SnapshotStore.Checksum
