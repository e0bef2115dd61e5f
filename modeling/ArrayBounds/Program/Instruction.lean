import ArrayBounds.Descriptor

/-! # Instructions

The instruction set that the analysis works on. A method body is a list of instructions; the targets
of jumps are positions in that list.
-/

namespace ArrayBounds.Program

/-- The operand type of loads, stores and returns. -/
inductive ValueKind where
  | int
  | long
  | float
  | double
  | reference
deriving DecidableEq, Repr, Inhabited

/-- The operand type of arithmetic, comparisons and conversions. -/
inductive NumericKind where
  | int
  | long
  | float
  | double
deriving DecidableEq, Repr, Inhabited

def NumericKind.type : NumericKind → FieldType
  | int => .int
  | long => .long
  | float => .float
  | double => .double

/-- The element type of an array access. Arrays of `byte` and of `boolean` share one kind. -/
inductive ElementKind where
  | int
  | long
  | float
  | double
  | reference
  | byte
  | char
  | short
deriving DecidableEq, Repr, Inhabited

/-- The element type, as far as the kind of access determines it. -/
def ElementKind.type? : ElementKind → Option FieldType
  | int => some .int
  | long => some .long
  | float => some .float
  | double => some .double
  | reference => none
  | byte => some .byte
  | char => some .char
  | short => some .short

/-- The result type of a numeric conversion. -/
inductive ConversionTarget where
  | int
  | long
  | float
  | double
  | byte
  | char
  | short
deriving DecidableEq, Repr, Inhabited

def ConversionTarget.type : ConversionTarget → FieldType
  | int => .int
  | long => .long
  | float => .float
  | double => .double
  | byte => .byte
  | char => .char
  | short => .short

inductive ArithmeticOp where
  | add
  | sub
  | mul
  | div
  | rem
  | neg
  | shl
  | shr
  | ushr
  | and
  | or
  | xor
deriving DecidableEq, Repr, Inhabited

/-- Rearrangements of the operand stack. -/
inductive StackOp where
  | pop
  | pop2
  | dup
  | dupX1
  | dupX2
  | dup2
  | dup2X1
  | dup2X2
  | swap
deriving DecidableEq, Repr, Inhabited

/-- The relation tested by a conditional branch on numbers. -/
inductive Comparison where
  | eq
  | ne
  | lt
  | ge
  | gt
  | le
deriving DecidableEq, Repr, Inhabited

/-- The relation that holds exactly where the given one fails. -/
def Comparison.negate : Comparison → Comparison
  | eq => ne
  | ne => eq
  | lt => ge
  | ge => lt
  | gt => le
  | le => gt

/-- The condition under which a branch is taken. -/
inductive Condition where
  /-- One number is compared with zero. -/
  | zero (comparison : Comparison)
  /-- Two numbers are compared. -/
  | ints (comparison : Comparison)
  | refsEqual
  | refsNotEqual
  | null
  | nonNull
deriving DecidableEq, Repr, Inhabited

/-- The number of operands that a branch on the condition takes from the stack. -/
def Condition.arity : Condition → Nat
  | zero _ | null | nonNull => 1
  | ints _ | refsEqual | refsNotEqual => 2

inductive InvokeKind where
  | virtual
  | special
  | static
  | interface
deriving DecidableEq, Repr, Inhabited

/-- Every call but a static one passes a receiver below the arguments. -/
def InvokeKind.hasReceiver (kind : InvokeKind) : Bool :=
  kind != .static

/-- The operand of a constant push. Floating point numbers are kept as their bits. -/
inductive Constant where
  | null
  | int (value : Int32)
  | long (value : Int64)
  | float (bits : UInt32)
  | double (bits : UInt64)
  | string (value : String)
  /-- A class literal, by internal name. -/
  | classLiteral (name : String)
  /-- Method handles, method types and computed constants. -/
  | unknown
deriving DecidableEq, Inhabited

/-- One instruction. -/
inductive Instruction where
  | nop
  | const (value : Constant)
  | load (kind : ValueKind) (slot : UInt16)
  | store (kind : ValueKind) (slot : UInt16)
  | increment (slot : UInt16) (delta : Int16)
  | stack (op : StackOp)
  | arrayLoad (kind : ElementKind)
  | arrayStore (kind : ElementKind)
  | arrayLength
  | newArray (element : FieldType)
  | multiNewArray (array : FieldType) (dimensions : UInt8)
  | arithmetic (op : ArithmeticOp) (kind : NumericKind)
  /-- Three-way comparison of two numbers. -/
  | compare (kind : NumericKind)
  | convert (source : NumericKind) (target : ConversionTarget)
  | branch (condition : Condition) (target : Nat)
  | goto (target : Nat)
  | switch (default : Nat) (targets : List Nat)
  | invoke (kind : InvokeKind) (owner name descriptor : String)
  | invokeDynamic (name descriptor : String)
  | getField (isStatic : Bool) (descriptor : String)
  | putField (isStatic : Bool) (descriptor : String)
  | newObject (className : String)
  | checkCast (className : String)
  | instanceOf (className : String)
  /-- Entering or leaving a monitor. -/
  | monitor
  | throw
  /-- The kind is absent for a return without value. -/
  | ret (kind : Option ValueKind)
  /-- An instruction that the analysis has no rule for. -/
  | unsupported (opcode : UInt8)
deriving DecidableEq, Inhabited

/-- The positions that an instruction may jump to; the default of a switch comes last. -/
def Instruction.targets : Instruction → List Nat
  | branch _ target | goto target => [target]
  | switch default targets => targets ++ [default]
  | _ => []

end ArrayBounds.Program
