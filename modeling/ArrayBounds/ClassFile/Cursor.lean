import ArrayBounds.ClassFile.Error

/-! # Reading bytes

A cursor is a place in a byte string. Numbers are read with their most significant byte first. A
read that needs more bytes than are left fails, and says how many are missing.
-/

namespace ArrayBounds.ClassFile

/-- A place in a byte string. -/
structure Cursor where
  /-- The bytes that have not been read. -/
  rest : List UInt8
  /-- The number of bytes that have been read. -/
  position : Nat := 0
deriving DecidableEq, Repr, Inhabited

/-- A reader of bytes. -/
abbrev Decoder := StateT Cursor (Except ClassFileError)

/-- The number that a byte string stands for, most significant byte first. -/
def bigEndian (bytes : List UInt8) : Nat :=
  bytes.foldl (fun n byte => 256 * n + byte.toNat) 0

namespace Decoder

/-- Takes the next `count` bytes. -/
def take (count : Nat) : Decoder (List UInt8) := fun cursor =>
  let bytes := cursor.rest.take count
  if bytes.length < count then .error (.unexpectedEnd cursor.position (count - bytes.length))
  else .ok (bytes, { rest := cursor.rest.drop count, position := cursor.position + count })

/-- Passes over the next `count` bytes. -/
def skip (count : Nat) : Decoder Unit := do
  discard (take count)

def u8 : Decoder UInt8 :=
  return UInt8.ofNat (bigEndian (← take 1))

def u16 : Decoder UInt16 :=
  return UInt16.ofNat (bigEndian (← take 2))

def u32 : Decoder UInt32 :=
  return UInt32.ofNat (bigEndian (← take 4))

def u64 : Decoder UInt64 :=
  return UInt64.ofNat (bigEndian (← take 8))

def i8 : Decoder Int8 :=
  return (← u8).toInt8

def i16 : Decoder Int16 :=
  return (← u16).toInt16

def i32 : Decoder Int32 :=
  return (← u32).toInt32

def i64 : Decoder Int64 :=
  return (← u64).toInt64

/-- Passes over bytes up to the next position that is a multiple of four. -/
def align4 : Decoder Unit := do
  let cursor ← get
  skip ((4 - cursor.position % 4) % 4)

/-- Reads `count` items one after the other. -/
def times {α : Type} (count : Nat) (item : Decoder α) : Decoder (List α) :=
  match count with
  | 0 => return []
  | count + 1 => do
    let first ← item
    return first :: (← times count item)

/-- The result of reading from the start of a byte string; bytes may be left over. -/
def readFrom {α : Type} (decoder : Decoder α) (bytes : List UInt8) : Except ClassFileError α :=
  (·.1) <$> decoder { rest := bytes }

end Decoder

/-! ## Writing numbers -/

/-- The two bytes of a number, most significant first. -/
def bytes16 (n : UInt16) : List UInt8 :=
  [UInt8.ofNat (n.toNat / 0x100), UInt8.ofNat n.toNat]

/-- The four bytes of a number, most significant first. -/
def bytes32 (n : UInt32) : List UInt8 :=
  [UInt8.ofNat (n.toNat / 0x1000000), UInt8.ofNat (n.toNat / 0x10000),
    UInt8.ofNat (n.toNat / 0x100), UInt8.ofNat n.toNat]

end ArrayBounds.ClassFile
