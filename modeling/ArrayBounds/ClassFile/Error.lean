import ArrayBounds.Descriptor
import ArrayBounds.Text.Hex

/-! # Reasons to refuse a class file -/

namespace ArrayBounds

/-- What can be wrong with the bytes of a class file, or with a descriptor found in one. -/
inductive ClassFileError where
  /-- The input ends at `offset`, `needed` bytes before the end of the item that is read there. -/
  | unexpectedEnd (offset needed : Nat)
  | invalidMagic (found : UInt32)
  /-- The index is zero, past the end, or the second half of a wide entry. -/
  | badConstantIndex (index : UInt16)
  | wrongConstantKind (index : UInt16) (expected found : String)
  | unknownConstantTag (tag : UInt8) (index : Nat)
  | invalidText (index : Nat)
  | invalidDescriptor (descriptor : String)
  | trailingBytes (count : Nat)
deriving DecidableEq, Repr

namespace ClassFileError

/-- The wording of an error. -/
def message : ClassFileError → String
  | unexpectedEnd offset needed =>
    s!"unexpected end of input at offset {offset}, needed {needed} more bytes"
  | invalidMagic found => "invalid magic number " ++ Hex.literal 8 found.toNat
  | badConstantIndex index => s!"constant pool index {index} is out of range"
  | wrongConstantKind index expected found =>
    s!"constant pool entry {index} is {found}, expected {expected}"
  | unknownConstantTag tag index => s!"unknown constant pool tag {tag} at entry {index}"
  | invalidText index => s!"invalid modified UTF-8 in constant pool entry {index}"
  | invalidDescriptor descriptor => "invalid descriptor '" ++ descriptor ++ "'"
  | trailingBytes count => s!"{count} trailing bytes after the class body"

end ClassFileError

/-- Reads a field descriptor; the error names the whole text. -/
def FieldType.parse (descriptor : String) : Except ClassFileError FieldType :=
  match FieldType.parse? descriptor with
  | some type => .ok type
  | none => .error (.invalidDescriptor descriptor)

/-- Reads the type named by a class entry; the error names the whole text. -/
def FieldType.ofClassName (name : String) : Except ClassFileError FieldType :=
  match FieldType.ofClassName? name with
  | some type => .ok type
  | none => .error (.invalidDescriptor name)

/-- Reads a method descriptor; the error names the whole text. -/
def MethodDescriptor.parse (descriptor : String) : Except ClassFileError MethodDescriptor :=
  match MethodDescriptor.parse? descriptor with
  | some parsed => .ok parsed
  | none => .error (.invalidDescriptor descriptor)

end ArrayBounds
