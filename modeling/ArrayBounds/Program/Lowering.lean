import ArrayBounds.Analysis.Log
import ArrayBounds.Program.Opcode

/-! # Lowering

From the code of a class file to instructions. First the instructions are read one after the other,
each with its offset. Then the targets of jumps, which are offsets in the code, are replaced by
positions in the list of instructions, and the rows of the line number table are attached to
positions.
-/

namespace ArrayBounds.Program

open ClassFile (Cursor ConstantPool LineRow)

/-- Reads instructions up to the end of the code, each with its offset. Every instruction takes at
least one byte, so the number of bytes is a bound on the number of instructions. -/
def readInstructions (pool : ConstantPool) (method : String) :
    (bound : Nat) → Cursor → Except LoweringError (List (Nat × Instruction))
  | 0, _ => return []
  | bound + 1, cursor =>
    if cursor.rest.isEmpty then return []
    else do
      let site : Site := { pool, method, offset := cursor.position }
      let (instruction, cursor) ← site.instruction cursor
      let rest ← readInstructions pool method bound cursor
      return (site.offset, instruction) :: rest

/-- Replaces the targets of an instruction, the default of a switch first. -/
def Instruction.mapTargets {m : Type → Type} [Monad m] (f : Nat → m Nat) :
    Instruction → m Instruction
  | branch condition target => return branch condition (← f target)
  | goto target => return goto (← f target)
  | switch default targets => do
    let default ← f default
    return switch default (← targets.mapM f)
  | instruction => return instruction

/-- The position of the instruction at an offset; `source` is the offset of the jump that leads
there. -/
def positionOf (offsets : List Nat) (source target : Nat) : Except LoweringError Nat :=
  match offsets.idxOf? target with
  | some position => .ok position
  | none => .error (.invalidBranchTarget source target)

/-- Keeps the first of several marks at the same instruction. -/
def dropRepeated : List LineMark → List LineMark
  | [] => []
  | mark :: rest => mark :: dropRepeatedAfter mark.index rest
where
  dropRepeatedAfter (index : Nat) : List LineMark → List LineMark
    | [] => []
    | mark :: rest =>
      if mark.index = index then dropRepeatedAfter index rest
      else mark :: dropRepeatedAfter mark.index rest

/-- The mark of a row: the line starts at the first instruction at or behind the row's offset. A row
behind all instructions marks nothing. -/
def markOf? (offsets : List Nat) (row : LineRow) : Option LineMark :=
  let index := (offsets.takeWhile (· < row.start.toNat)).length
  if index < offsets.length then some { index, line := row.line.toUInt32 } else none

/-- The marks of a line number table, in order. -/
def lineMarks (rows : List LineRow) (offsets : List Nat) : List LineMark :=
  dropRepeated ((rows.filterMap (markOf? offsets)).mergeSort LineMark.le)

/-- Lowers a method. A method without code gets no instructions. -/
def Method.ofClassFile (pool : ConstantPool) (method : ClassFile.Method) :
    Except LoweringError Method := do
  let { access, name, descriptor, .. } := method
  match method.code with
  | none => return { name, descriptor, access }
  | some code =>
    let read ← readInstructions pool name code.bytes.length { rest := code.bytes }
    let offsets := read.map Prod.fst
    let instructions ← read.mapM fun (offset, instruction) =>
      instruction.mapTargets (positionOf offsets offset)
    return {
      name, descriptor, access
      instructions := instructions.toArray
      lines := (lineMarks code.lines offsets).toArray }

/-- Lowers methods in order up to the first that cannot be lowered. Every method with code that
could be is recorded. -/
def lowerMethods (pool : ConstantPool) :
    List ClassFile.Method → Except LoweringError (List Method) × List Event
  | [] => (.ok [], [])
  | method :: rest =>
    match Method.ofClassFile pool method with
    | .error error => (.error error, [])
    | .ok lowered =>
      let (methods, events) := lowerMethods pool rest
      let event := Event.methodLowered method.name lowered.instructions.size
      ((lowered :: ·) <$> methods, if method.code.isSome then event :: events else events)

/-- Lowers every method of a class file. -/
def ClassDef.ofClassFile (file : ClassFile) : Except LoweringError ClassDef × List Event :=
  let (methods, events) := lowerMethods file.pool file.methods
  let lowered := methods.map fun methods =>
    { name := file.name, superName := file.superName, sourceFile := file.sourceFile, methods }
  (lowered, events)

end ArrayBounds.Program
