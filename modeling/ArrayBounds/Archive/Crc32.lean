/-! # CRC-32

The checksum of archive entries: the remainder of the data as a polynomial over two elements, with
the bits of every byte reversed.
-/

namespace ArrayBounds.Crc32

/-- One step of the division, for a single bit. -/
def shift (crc : UInt32) : UInt32 :=
  if crc &&& 1 = 1 then (crc >>> 1) ^^^ 0xEDB88320 else crc >>> 1

/-- Takes one byte into account. -/
def update (crc : UInt32) (byte : UInt8) : UInt32 :=
  (List.range 8).foldl (fun crc _ => shift crc) (crc ^^^ byte.toUInt32)

/-- The checksum of a byte string. -/
def checksum (bytes : List UInt8) : UInt32 :=
  bytes.foldl update 0xFFFFFFFF ^^^ 0xFFFFFFFF

end ArrayBounds.Crc32
