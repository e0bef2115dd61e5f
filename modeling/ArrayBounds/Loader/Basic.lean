import ArrayBounds.Analysis.Log
import ArrayBounds.Json.Parser
import ArrayBounds.Program.Json
import ArrayBounds.Program.Lowering
import ArrayBounds.Program.Repository

/-! # Loading classes

Classes are loaded from class files or from JSON. Nothing of a class file or of a JSON text is added
to the repository unless all of it is in order. Afterwards every jump of a loaded method leads to
one of its instructions, and its line marks are in order.
-/

namespace ArrayBounds

open Program

/-- What can go wrong while classes are loaded. -/
inductive LoadError where
  | unreadable (path : String)
  | classFile (path : String) (error : ClassFileError)
  | lowering (className : String) (error : LoweringError)
  /-- The text is not a list of classes in JSON. -/
  | json (path : String)
  | archive (path : String)
  /-- The file is of no known kind. -/
  | unsupportedInput (path : String)
deriving DecidableEq, Repr

namespace LoadError

/-- The wording of an error. -/
def message : LoadError → String
  | unreadable path => s!"cannot read {path}"
  | classFile path error => s!"cannot decode {path}: {error.message}"
  | lowering className error => s!"cannot lower class {className}: {error.message}"
  | json path => s!"invalid class IR in {path}"
  | archive path => s!"cannot read archive {path}"
  | unsupportedInput path => s!"{path}: expected a .class, .jar or .json file, or a directory"

end LoadError

/-- The classes loaded so far, and what happened on the way. -/
structure Loader where
  repository : Repository := {}
  log : Array Event := #[]

instance : Inhabited Loader := ⟨{}⟩

/-- A step of loading. An error keeps what has been loaded before. -/
abbrev Loading := EStateM LoadError Loader

namespace Loading

def record (events : List Event) : Loading Unit :=
  modify fun loader => { loader with log := loader.log.appendList events }

/-- Adds a class. Replacing a class is recorded. -/
def addClass (c : ClassDef) : Loading Unit := do
  if (← get).repository.contains c.name then record [.classReplaced c.name]
  modify fun loader => { loader with repository := loader.repository.add c }

/-- Loads a class file, which was found at `path`, and returns the name of the class. -/
def loadClassBytes (path : String) (bytes : List UInt8) : Loading String := do
  match ClassFile.parse bytes with
  | .error error => throw (.classFile path error)
  | .ok file =>
    let (lowered, events) := ClassDef.ofClassFile file
    record events
    match lowered with
    | .error error => throw (.lowering file.name error)
    | .ok c =>
      addClass c
      return c.name

/-- The first jump of a method that leads to no instruction, and its target. -/
def invalidTarget? (method : Method) : Option (Nat × Nat) :=
  method.instructions.toList.zipIdx.findSome? fun (instruction, index) =>
    (instruction.targets.find? (method.instructions.size ≤ ·)).map fun target => (index, target)

/-- Checks that all jumps of a class lead to instructions. Targets are shown as signed 64-bit
numbers. -/
def checkTargets (c : ClassDef) : Loading Unit :=
  match c.methods.findSome? invalidTarget? with
  | none => pure ()
  | some (index, target) =>
    throw (.lowering c.name (.invalidBranchTarget index (Int64.ofNat target).toInt))

/-- A method with its line marks in order. -/
def sortLines (method : Method) : Method :=
  { method with lines := (method.lines.toList.mergeSort LineMark.le).toArray }

/-- Loads a list of classes and returns their names. -/
def loadClasses (classes : List ClassDef) : Loading (List String) := do
  classes.forM checkTargets
  classes.forM fun c => addClass { c with methods := c.methods.map sortLines }
  return classes.map (·.name)

/-- Loads a list of classes from a JSON value that was found at `path`. -/
def loadJson (path : String) (json : Option Json) : Loading (List String) :=
  match json.bind ClassDef.listOfJson? with
  | some classes => loadClasses classes
  | none => throw (.json path)

/-- Loads a list of classes from JSON text that was found at `path`. -/
def loadJsonText (path : String) (text : String) : Loading (List String) :=
  loadJson path (Json.parse? text)

end Loading

end ArrayBounds
