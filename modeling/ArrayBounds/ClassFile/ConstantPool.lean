import ArrayBounds.ClassFile.Cursor
import ArrayBounds.Text.ModifiedUtf8

/-! # The constant pool

The table of constants at the front of a class file. Entries are numbered from one, and a 64-bit
number takes two places. Place zero and the second place of a wide entry hold nothing, so looking
them up fails like looking up a place past the end.
-/

namespace ArrayBounds.ClassFile

/-- An entry of the constant pool. Floating point numbers are kept as their bits; the other fields
are numbers of further entries. -/
inductive Constant where
  | utf8 (text : String)
  | integer (value : Int32)
  | float (bits : UInt32)
  | long (value : Int64)
  | double (bits : UInt64)
  | classInfo (name : UInt16)
  | string (text : UInt16)
  | fieldRef (owner nameAndType : UInt16)
  | methodRef (owner nameAndType : UInt16)
  | interfaceMethodRef (owner nameAndType : UInt16)
  | nameAndType (name descriptor : UInt16)
  | methodHandle (kind : UInt8) (reference : UInt16)
  | methodType (descriptor : UInt16)
  | dynamic (bootstrap nameAndType : UInt16)
  | invokeDynamic (bootstrap nameAndType : UInt16)
  | module (name : UInt16)
  | package (name : UInt16)
deriving DecidableEq, Inhabited

namespace Constant

/-- The name of an entry's kind in messages. -/
def kindName : Constant → String
  | utf8 _ => "Utf8"
  | integer _ => "Integer"
  | float _ => "Float"
  | long _ => "Long"
  | double _ => "Double"
  | classInfo _ => "Class"
  | string _ => "String"
  | fieldRef .. => "Fieldref"
  | methodRef .. => "Methodref"
  | interfaceMethodRef .. => "InterfaceMethodref"
  | nameAndType .. => "NameAndType"
  | methodHandle .. => "MethodHandle"
  | methodType _ => "MethodType"
  | dynamic .. => "Dynamic"
  | invokeDynamic .. => "InvokeDynamic"
  | module _ => "Module"
  | package _ => "Package"

/-- The entry takes two places. -/
def isWide : Constant → Bool
  | long _ | double _ => true
  | _ => false

open Decoder in
/-- Reads the entry for place `index`. -/
def decode (index : Nat) : Decoder Constant := do
  let tag ← u8
  match tag.toNat with
  | 1 =>
    let length ← u16
    let bytes ← take length.toNat
    match ModifiedUtf8.decode? bytes with
    | some text => return utf8 text
    | none => throw (.invalidText index)
  | 3 => return integer (← i32)
  | 4 => return float (← u32)
  | 5 => return long (← i64)
  | 6 => return double (← u64)
  | 7 => return classInfo (← u16)
  | 8 => return string (← u16)
  | 9 => return fieldRef (← u16) (← u16)
  | 10 => return methodRef (← u16) (← u16)
  | 11 => return interfaceMethodRef (← u16) (← u16)
  | 12 => return nameAndType (← u16) (← u16)
  | 15 => return methodHandle (← u8) (← u16)
  | 16 => return methodType (← u16)
  | 17 => return dynamic (← u16) (← u16)
  | 18 => return invokeDynamic (← u16) (← u16)
  | 19 => return module (← u16)
  | 20 => return package (← u16)
  | _ => throw (.unknownConstantTag tag index)

end Constant

/-- A field, a method or an interface method that an entry refers to. -/
structure MemberRef where
  owner : String
  name : String
  descriptor : String
deriving DecidableEq, Repr, Inhabited

/-- The constants of a class file by place. -/
structure ConstantPool where
  entries : Array (Option Constant) := #[none]
deriving DecidableEq, Inhabited

namespace ConstantPool

/-- Reads the entries for `places` places, the first of which is `index`. The second place of a wide
entry counts as one of them, but is added even if no place is left for it. -/
def decodeEntries : (places index : Nat) → Decoder (List (Option Constant))
  | 0, _ => return []
  | places + 1, index => do
    let entry ← Constant.decode index
    if entry.isWide then
      match places with
      | 0 => return [some entry, none]
      | places + 1 => return some entry :: none :: (← decodeEntries places (index + 2))
    else
      return some entry :: (← decodeEntries places (index + 1))

/-- Reads the number of places and then the entries. -/
def decode : Decoder ConstantPool := do
  let count ← Decoder.u16
  let entries ← decodeEntries (count.toNat - 1) 1
  return { entries := (none :: entries).toArray }

/-- The number of places, place zero included. -/
def size (pool : ConstantPool) : Nat :=
  pool.entries.size

/-- The pool has no entries. -/
def isEmpty (pool : ConstantPool) : Bool :=
  pool.size ≤ 1

/-- The entry at a place. -/
def get (pool : ConstantPool) (index : UInt16) : Except ClassFileError Constant :=
  match pool.entries[index.toNat]? with
  | some (some entry) => .ok entry
  | _ => .error (.badConstantIndex index)

/-- The text at a place. -/
def utf8 (pool : ConstantPool) (index : UInt16) : Except ClassFileError String := do
  match ← pool.get index with
  | .utf8 text => return text
  | entry => throw (.wrongConstantKind index "Utf8" entry.kindName)

/-- The internal name of the class at a place. -/
def className (pool : ConstantPool) (index : UInt16) : Except ClassFileError String := do
  match ← pool.get index with
  | .classInfo name => pool.utf8 name
  | entry => throw (.wrongConstantKind index "Class" entry.kindName)

/-- The name and the descriptor at a place. -/
def nameAndType (pool : ConstantPool) (index : UInt16) :
    Except ClassFileError (String × String) := do
  match ← pool.get index with
  | .nameAndType name descriptor => return (← pool.utf8 name, ← pool.utf8 descriptor)
  | entry => throw (.wrongConstantKind index "NameAndType" entry.kindName)

/-- The member that the entry at a place refers to. -/
def memberRef (pool : ConstantPool) (index : UInt16) : Except ClassFileError MemberRef := do
  match ← pool.get index with
  | .fieldRef owner member | .methodRef owner member | .interfaceMethodRef owner member =>
    let owner ← pool.className owner
    let (name, descriptor) ← pool.nameAndType member
    return { owner, name, descriptor }
  | entry => throw (.wrongConstantKind index "member reference" entry.kindName)

/-- The name and the descriptor of the call site at a place. -/
def invokeDynamic (pool : ConstantPool) (index : UInt16) :
    Except ClassFileError (String × String) := do
  match ← pool.get index with
  | .invokeDynamic _ member => pool.nameAndType member
  | entry => throw (.wrongConstantKind index "InvokeDynamic" entry.kindName)

end ConstantPool

end ArrayBounds.ClassFile
