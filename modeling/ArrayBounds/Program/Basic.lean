import ArrayBounds.ClassFile.Basic
import ArrayBounds.Program.Instruction

/-! # Classes and methods

What the analysis sees of a class: its name, its superclass, its source file and its methods, each
with its instructions and with marks that say at which instruction a source line starts.
-/

namespace ArrayBounds.Program

/-- A source line that starts at an instruction. -/
structure LineMark where
  index : Nat
  line : UInt32
deriving DecidableEq, Repr, Inhabited

namespace LineMark

/-- Marks are ordered by instruction, and by line where the instruction is the same. -/
def le (a b : LineMark) : Bool :=
  a.index < b.index || (a.index == b.index && a.line ≤ b.line)

/-- The number of marks at or before an instruction, found by bisection. The search looks at the
marks from `low` on, `size` of them, and needs them to be in order. -/
def search (marks : Array LineMark) (index : Nat) (low size : Nat) : Nat :=
  if 1 < size then
    let half := size / 2
    let low := if marks[low + half]?.any (·.index ≤ index) then low + half else low
    search marks index low (size - half)
  else low + if marks[low]?.any (·.index ≤ index) then 1 else 0
termination_by size

end LineMark

/-- A method. -/
structure Method where
  name : String
  descriptor : String
  access : AccessFlags
  /-- Empty for native and abstract methods. -/
  instructions : Array Instruction := #[]
  /-- In order, if the method was loaded. -/
  lines : Array LineMark := #[]
deriving DecidableEq, Inhabited

namespace Method

/-- The source line of an instruction: that of the last mark at or before it. -/
def lineAt (method : Method) (index : Nat) : Option UInt32 :=
  match LineMark.search method.lines index 0 method.lines.size with
  | 0 => none
  | found + 1 => method.lines[found]?.map (·.line)

/-- The method has instructions that can be analysed. -/
def hasBody (method : Method) : Bool :=
  !method.access.isNative && !method.access.isAbstract && !method.instructions.isEmpty

end Method

/-- A class. -/
structure ClassDef where
  /-- The internal name. -/
  name : String
  superName : Option String := none
  sourceFile : Option String := none
  methods : List Method := []
deriving DecidableEq, Inhabited

namespace ClassDef

/-- The name that reports use: the source file, or else the class. -/
def sourceName (c : ClassDef) : String :=
  c.sourceFile.getD c.name

/-- The first method with the given name and descriptor. -/
def findMethod? (c : ClassDef) (name descriptor : String) : Option Method :=
  c.methods.find? fun method => method.name == name && method.descriptor == descriptor

end ClassDef

end ArrayBounds.Program
