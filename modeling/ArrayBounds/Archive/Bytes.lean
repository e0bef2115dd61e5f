/-! # Numbers in byte strings

Numbers at fixed places of a byte string, the lowest byte first.
-/

namespace ArrayBounds.Archive

/-- The number that bytes stand for, the lowest byte first. -/
def littleEndian (bytes : List UInt8) : Nat :=
  bytes.foldr (fun byte high => byte.toNat + 256 * high) 0

/-- The bytes from an offset on, `count` of them. -/
def slice? (data : Array UInt8) (offset count : Nat) : Option (List UInt8) :=
  if offset + count ≤ data.size then some (data.extract offset (offset + count)).toList else none

/-- The number of `count` bytes at an offset. -/
def number? (data : Array UInt8) (offset count : Nat) : Option Nat :=
  (slice? data offset count).map littleEndian

/-- The places of four bytes between two offsets. -/
def places (start stop : Nat) : List Nat :=
  List.range' start (stop - 3 - start)

end ArrayBounds.Archive
