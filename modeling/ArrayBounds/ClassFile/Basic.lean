import ArrayBounds.ClassFile.ConstantPool

/-! # Class files

What the analysis needs of a class file: the constants, the names of the class, its superclass and
its interfaces, the source file, and every method with its code and line numbers. Fields and all
other attributes are passed over.
-/

namespace ArrayBounds

/-- Bits of the access flags of classes and methods. -/
structure AccessFlags where
  bits : UInt16
deriving DecidableEq, Repr, Inhabited

namespace AccessFlags

def isStatic (flags : AccessFlags) : Bool :=
  flags.bits &&& 0x0008 != 0

def isNative (flags : AccessFlags) : Bool :=
  flags.bits &&& 0x0100 != 0

def isInterface (flags : AccessFlags) : Bool :=
  flags.bits &&& 0x0200 != 0

def isAbstract (flags : AccessFlags) : Bool :=
  flags.bits &&& 0x0400 != 0

end AccessFlags

namespace ClassFile

/-- A row of a line number table. -/
structure LineRow where
  /-- The offset in the code at which the line starts. -/
  start : UInt16
  line : UInt16
deriving DecidableEq, Repr, Inhabited

/-- A row of an exception table. -/
structure Handler where
  first : UInt16
  last : UInt16
  target : UInt16
  /-- The place of the caught class in the constant pool; zero catches everything. -/
  catchType : UInt16
deriving DecidableEq, Repr, Inhabited

/-- The body of a method. -/
structure Code where
  maxStack : UInt16
  maxLocals : UInt16
  bytes : List UInt8
  handlers : List Handler := []
  lines : List LineRow := []
deriving DecidableEq, Repr, Inhabited

/-- A method of a class. -/
structure Method where
  access : AccessFlags
  name : String
  descriptor : String
  /-- Absent for native and abstract methods. -/
  code : Option Code := none
deriving DecidableEq, Repr, Inhabited

end ClassFile

/-- A decoded class file. -/
structure ClassFile where
  minor : UInt16
  major : UInt16
  pool : ClassFile.ConstantPool
  access : AccessFlags
  /-- The internal name of the class. -/
  name : String
  /-- Absent for a root class. -/
  superName : Option String
  interfaces : List String
  methods : List ClassFile.Method
  sourceFile : Option String
deriving DecidableEq, Inhabited

namespace ClassFile

open Decoder

/-- The number that every class file starts with. -/
def magic : UInt32 := 0xCAFEBABE

/-- Reads an attribute: its name and its bytes. -/
def decodeAttribute (pool : ConstantPool) : Decoder (String × List UInt8) := do
  let name ← pool.utf8 (← u16)
  let length ← u32
  return (name, ← take length.toNat)

/-- Reads a counted list of attributes. What `visit` makes of an attribute is decided as soon as the
attribute has been read. -/
def foldAttributes {α : Type} (pool : ConstantPool) (start : α)
    (visit : α → String → List UInt8 → Except ClassFileError α) : Decoder α := do
  let count ← u16
  go count.toNat start
where
  go : Nat → α → Decoder α
    | 0, value => return value
    | count + 1, value => do
      let (name, body) ← decodeAttribute pool
      go count (← visit value name body)

def LineRow.decode : Decoder LineRow :=
  return { start := ← u16, line := ← u16 }

def Handler.decode : Decoder Handler :=
  return { first := ← u16, last := ← u16, target := ← u16, catchType := ← u16 }

/-- Reads a counted line number table. -/
def decodeLines : Decoder (List LineRow) := do
  let count ← u16
  times count.toNat LineRow.decode

/-- Reads the body of a method. Several line number tables count as one. -/
def Code.decode (pool : ConstantPool) : Decoder Code := do
  let maxStack ← u16
  let maxLocals ← u16
  let length ← u32
  let bytes ← take length.toNat
  let handlerCount ← u16
  let handlers ← times handlerCount.toNat Handler.decode
  let lines ← foldAttributes pool [] fun lines name body =>
    if name = "LineNumberTable" then (lines ++ ·) <$> decodeLines.readFrom body else .ok lines
  return { maxStack, maxLocals, bytes, handlers, lines }

/-- Reads a method. If it has several bodies, the last one counts. -/
def Method.decode (pool : ConstantPool) : Decoder Method := do
  let access ← u16
  let name ← pool.utf8 (← u16)
  let descriptor ← pool.utf8 (← u16)
  let code ← foldAttributes pool none fun code name body =>
    if name = "Code" then some <$> (Code.decode pool).readFrom body else .ok code
  return { access := ⟨access⟩, name, descriptor, code }

/-- Passes over an attribute. -/
def skipAttribute : Decoder Unit := do
  skip 2
  let length ← u32
  skip length.toNat

/-- Passes over a field. -/
def skipField : Decoder Unit := do
  skip 6
  let count ← u16
  discard (times count.toNat skipAttribute)

/-- Reads the name of the superclass. -/
def decodeSuper (pool : ConstantPool) : Decoder (Option String) := do
  let index ← u16
  if index = 0 then return none else return some (← pool.className index)

/-- Reads a class file from its first byte on. -/
def decode : Decoder ClassFile := do
  let found ← u32
  if found ≠ magic then throw (.invalidMagic found)
  let minor ← u16
  let major ← u16
  let pool ← ConstantPool.decode
  let access ← u16
  let name ← pool.className (← u16)
  let superName ← decodeSuper pool
  let interfaceCount ← u16
  let interfaces ← times interfaceCount.toNat do pool.className (← u16)
  let fieldCount ← u16
  discard (times fieldCount.toNat skipField)
  let methodCount ← u16
  let methods ← times methodCount.toNat (Method.decode pool)
  let sourceFile ← foldAttributes pool none fun sourceFile name body =>
    if name = "SourceFile" then (do some <$> pool.utf8 (← u16.readFrom body)) else .ok sourceFile
  return { minor, major, pool, access := ⟨access⟩, name, superName, interfaces,
           methods, sourceFile }

/-- Reads a complete class file; no bytes may be left over. -/
def parse (bytes : List UInt8) : Except ClassFileError ClassFile := do
  let (classFile, cursor) ← decode { rest := bytes }
  if cursor.rest.isEmpty then return classFile
  else throw (.trailingBytes cursor.rest.length)

end ClassFile

end ArrayBounds
