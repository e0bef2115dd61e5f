import ArrayBounds.ClassFile.Basic

/-! # Assembling class files

The counterpart of `ClassFile.parse` for small classes: an assembler collects constants and methods
and writes a class file with them. Equal constants share one place. Texts are written in plain
UTF-8, which agrees with the encoding of class files on the characters from U+0001 to U+FFFF.
-/

namespace ArrayBounds.ClassFile

/-- A method to be written. Its name and descriptor are places in the constant pool. -/
structure MethodSpec where
  access : UInt16
  name : UInt16
  descriptor : UInt16
  code : Option Code
deriving DecidableEq, Inhabited

/-- A class that is being put together. -/
structure Assembler where
  /-- The encoded constants; the first one has place one. -/
  pool : List (List UInt8) := []
  access : UInt16 := 1
  thisClass : UInt16 := 0
  superClass : UInt16 := 0
  sourceFile : Option UInt16 := none
  methods : List MethodSpec := []
deriving DecidableEq, Inhabited

namespace Assembler

/-- The place of an encoded constant, which is added unless it is there already. -/
def intern (entry : List UInt8) : StateM Assembler UInt16 := do
  let assembler ← get
  match assembler.pool.idxOf? entry with
  | some index => return UInt16.ofNat (index + 1)
  | none =>
    set { assembler with pool := assembler.pool ++ [entry] }
    return UInt16.ofNat (assembler.pool.length + 1)

/-- The place of a text. -/
def utf8 (text : String) : StateM Assembler UInt16 :=
  let bytes := text.toUTF8.data.toList
  intern (1 :: bytes16 (UInt16.ofNat bytes.length) ++ bytes)

/-- The place of a class with the given internal name. -/
def classInfo (name : String) : StateM Assembler UInt16 := do
  let name ← utf8 name
  intern (7 :: bytes16 name)

/-- The place of a string constant. -/
def string (text : String) : StateM Assembler UInt16 := do
  let text ← utf8 text
  intern (8 :: bytes16 text)

/-- The place of an integer constant. -/
def integer (value : Int32) : StateM Assembler UInt16 :=
  intern (3 :: bytes32 value.toUInt32)

def nameAndType (name descriptor : String) : StateM Assembler UInt16 := do
  let name ← utf8 name
  let descriptor ← utf8 descriptor
  intern (12 :: bytes16 name ++ bytes16 descriptor)

/-- The place of a member reference with the given tag. -/
def memberRef (tag : UInt8) (owner name descriptor : String) : StateM Assembler UInt16 := do
  let owner ← classInfo owner
  let member ← nameAndType name descriptor
  intern (tag :: bytes16 owner ++ bytes16 member)

def fieldRef (owner name descriptor : String) : StateM Assembler UInt16 :=
  memberRef 9 owner name descriptor

def methodRef (owner name descriptor : String) : StateM Assembler UInt16 :=
  memberRef 10 owner name descriptor

/-- Replaces the superclass; without one the class is a root class. -/
def setSuper (name : Option String) : StateM Assembler Unit := do
  let index ← match name with
    | some name => classInfo name
    | none => pure 0
  modify ({ · with superClass := index })

def setAccess (access : UInt16) : StateM Assembler Unit :=
  modify ({ · with access })

def setSourceFile (name : String) : StateM Assembler Unit := do
  let index ← utf8 name
  modify ({ · with sourceFile := some index })

/-- Adds a method, which has no body if no code is given. -/
def addMethod (access : UInt16) (name descriptor : String) (code : Option Code) :
    StateM Assembler Unit := do
  let name ← utf8 name
  let descriptor ← utf8 descriptor
  modify fun assembler =>
    { assembler with methods := assembler.methods ++ [{ access, name, descriptor, code }] }

/-- A public class with the given name whose superclass is the class of all objects. -/
def ofName (name : String) : Assembler :=
  let start : StateM Assembler Unit := do
    let thisClass ← classInfo name
    modify ({ · with thisClass })
    setSuper (some "java/lang/Object")
  (start.run {}).2

/-- The bytes of an attribute with its name and length in front. -/
def withHeader (name : UInt16) (length : UInt32) (body : List UInt8) : List UInt8 :=
  bytes16 name ++ bytes32 length ++ body

/-- The line number table of a method, preceded by the number of attributes that it takes. -/
def encodeLines (linesName : UInt16) (lines : List LineRow) : List UInt8 :=
  if lines.isEmpty then bytes16 0
  else
    bytes16 1 ++ withHeader linesName (2 + 4 * UInt32.ofNat lines.length)
      (bytes16 (UInt16.ofNat lines.length) ++
        lines.flatMap fun row => bytes16 row.start ++ bytes16 row.line)

/-- The body of a method. Exception tables are not written. -/
def encodeCode (linesName : UInt16) (code : Code) : List UInt8 :=
  bytes16 code.maxStack ++ bytes16 code.maxLocals ++
    bytes32 (UInt32.ofNat code.bytes.length) ++ code.bytes ++
    bytes16 0 ++ encodeLines linesName code.lines

def encodeMethod (codeName linesName : UInt16) (method : MethodSpec) : List UInt8 :=
  bytes16 method.access ++ bytes16 method.name ++ bytes16 method.descriptor ++
    match method.code with
    | none => bytes16 0
    | some code =>
      let body := encodeCode linesName code
      bytes16 1 ++ withHeader codeName (UInt32.ofNat body.length) body

/-- Adds the names of the attributes to the constants and writes the class file. -/
def encode : StateM Assembler (List UInt8) := do
  let codeName ← utf8 "Code"
  let linesName ← utf8 "LineNumberTable"
  let source ← match (← get).sourceFile with
    | none => pure (bytes16 0)
    | some file => do
      let sourceName ← utf8 "SourceFile"
      pure (bytes16 1 ++ withHeader sourceName 2 (bytes16 file))
  let assembler ← get
  return bytes32 magic ++ bytes16 0 ++ bytes16 52 ++
    bytes16 (UInt16.ofNat (assembler.pool.length + 1)) ++ assembler.pool.flatten ++
    bytes16 assembler.access ++ bytes16 assembler.thisClass ++ bytes16 assembler.superClass ++
    bytes16 0 ++ bytes16 0 ++
    bytes16 (UInt16.ofNat assembler.methods.length) ++
    assembler.methods.flatMap (encodeMethod codeName linesName) ++ source

/-- The bytes of the class. -/
def build (assembler : Assembler) : List UInt8 :=
  (encode.run assembler).1

end Assembler

end ArrayBounds.ClassFile
