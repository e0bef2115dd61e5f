import ArrayBounds.Program.Basic

/-! # Reading single instructions

The instruction at a place in the code of a method. Targets of jumps come out as offsets in the
code; they are turned into positions once all instructions are known
(`ArrayBounds.Program.Lowering`).
-/

namespace ArrayBounds

/-- What can be wrong with the code of a method. -/
inductive LoweringError where
  /-- The code ends inside the instruction at `offset`. -/
  | truncated (offset : Nat)
  | unknownOpcode (opcode : UInt8) (offset : Nat)
  /-- A jump leads to a place where no instruction starts. -/
  | invalidBranchTarget (offset : Nat) (target : Int)
  | invalidArrayType (offset : Nat) (code : UInt8)
  | classFile (method : String) (error : ClassFileError)
deriving DecidableEq, Repr

/-- The wording of an error. -/
def LoweringError.message : LoweringError → String
  | truncated offset => s!"bytecode ends inside the instruction at offset {offset}"
  | unknownOpcode opcode offset =>
    "unknown opcode " ++ Hex.literal 2 opcode.toNat ++ s!" at offset {offset}"
  | invalidBranchTarget offset target =>
    s!"branch at offset {offset} targets {target}, which is not an instruction boundary"
  | invalidArrayType offset code =>
      s!"newarray at offset {offset} has unknown element type code {code}"
  | classFile method error => s!"in method {method}: {error.message}"

namespace Program

open ClassFile (Cursor ConstantPool Decoder)

/-- A reader of code. -/
abbrev CodeReader := StateT Cursor (Except LoweringError)

/-- The instruction that is being read: its offset, and the method and constants that it belongs
to. -/
structure Site where
  pool : ConstantPool
  method : String
  offset : Nat

namespace Site

/-- Reads operands. If the code ends too early, the instruction is cut off. -/
def read {α : Type} (site : Site) (decoder : Decoder α) : CodeReader α := fun cursor =>
  match decoder cursor with
  | .ok result => .ok result
  | .error _ => .error (.truncated site.offset)

/-- Uses the constants of the class. -/
def inPool {α : Type} (site : Site) (result : Except ClassFileError α) : CodeReader α :=
  match result with
  | .ok value => return value
  | .error error => throw (.classFile site.method error)

/-- The offset that a jump over the given distance leads to. -/
def target (site : Site) (distance : Int) : CodeReader Nat :=
  match (site.offset : Int) + distance with
  | .ofNat offset => return offset
  | absolute => throw (.invalidBranchTarget site.offset absolute)

/-- Reads the target of a jump over a 16-bit distance. -/
def target16 (site : Site) : CodeReader Nat := do
  site.target (← site.read Decoder.i16).toInt

/-- Reads the target of a jump over a 32-bit distance. -/
def target32 (site : Site) : CodeReader Nat := do
  site.target (← site.read Decoder.i32).toInt

/-- Reads the place of a class and looks its name up. -/
def className (site : Site) : CodeReader String := do
  site.inPool (site.pool.className (← site.read Decoder.u16))

/-- The constant at a place. -/
def constant (site : Site) (index : UInt16) : CodeReader Constant := do
  match ← site.inPool (site.pool.get index) with
  | .integer value => return .int value
  | .float bits => return .float bits
  | .long value => return .long value
  | .double bits => return .double bits
  | .string text => return .string (← site.inPool (site.pool.utf8 text))
  | .classInfo name => return .classLiteral (← site.inPool (site.pool.utf8 name))
  | _ => return .unknown

/-- Reads the operands of a call. -/
def invoke (site : Site) (kind : InvokeKind) : CodeReader Instruction := do
  let index ← site.read Decoder.u16
  if kind = .interface then site.read (Decoder.skip 2)
  let member ← site.inPool (site.pool.memberRef index)
  return .invoke kind member.owner member.name member.descriptor

/-- Reads the field that an instruction works on and returns its descriptor. -/
def field (site : Site) : CodeReader String := do
  let member ← site.inPool (site.pool.memberRef (← site.read Decoder.u16))
  return member.descriptor

/-- Reads the operands of a call to a computed target. -/
def invokeDynamic (site : Site) : CodeReader Instruction := do
  let index ← site.read Decoder.u16
  site.read (Decoder.skip 2)
  let (name, descriptor) ← site.inPool (site.pool.invokeDynamic index)
  return .invokeDynamic name descriptor

/-- Reads `count` items one after the other. -/
def times {α : Type} (count : Nat) (item : CodeReader α) : CodeReader (List α) :=
  match count with
  | 0 => return []
  | count + 1 => do
    let first ← item
    return first :: (← times count item)

/-- Reads a switch over a range of numbers. -/
def tableSwitch (site : Site) : CodeReader Instruction := do
  site.read Decoder.align4
  let default ← site.target32
  let low ← site.read Decoder.i32
  let high ← site.read Decoder.i32
  let targets ← times (high.toInt - low.toInt + 1).toNat site.target32
  return .switch default targets

/-- Reads a switch over single numbers. -/
def lookupSwitch (site : Site) : CodeReader Instruction := do
  site.read Decoder.align4
  let default ← site.target32
  let count ← site.read Decoder.i32
  let targets ← times count.toInt.toNat do
    site.read (Decoder.skip 4)
    site.target32
  return .switch default targets

/-- The element type with the given code in the creation of an array. -/
def elementType (site : Site) (code : UInt8) : CodeReader FieldType :=
  match code.toNat with
  | 4 => return .boolean
  | 5 => return .char
  | 6 => return .float
  | 7 => return .double
  | 8 => return .byte
  | 9 => return .short
  | 10 => return .int
  | 11 => return .long
  | _ => throw (.invalidArrayType site.offset code)

end Site

/-! ## Numbering of kinds -/

/-- The kinds in the order of the opcodes of loads, stores and returns. -/
def ValueKind.ofCode : Nat → ValueKind
  | 0 => int
  | 1 => long
  | 2 => float
  | 3 => double
  | _ => reference

/-- The kinds in the order of the opcodes of arithmetic. -/
def NumericKind.ofCode : Nat → NumericKind
  | 0 => int
  | 1 => long
  | 2 => float
  | _ => double

/-- The kinds in the order of the opcodes of array accesses. -/
def ElementKind.ofCode : Nat → ElementKind
  | 0 => int
  | 1 => long
  | 2 => float
  | 3 => double
  | 4 => reference
  | 5 => byte
  | 6 => char
  | _ => short

/-- The comparisons in the order of the opcodes of branches. -/
def Comparison.ofCode : Nat → Comparison
  | 0 => eq
  | 1 => ne
  | 2 => lt
  | 3 => ge
  | 4 => gt
  | _ => le

/-- The rearrangements in the order of their opcodes. -/
def StackOp.ofCode : Nat → StackOp
  | 0 => pop
  | 1 => pop2
  | 2 => dup
  | 3 => dupX1
  | 4 => dupX2
  | 5 => dup2
  | 6 => dup2X1
  | 7 => dup2X2
  | _ => swap

/-- The operations on all numeric kinds in the order of their opcodes. -/
def ArithmeticOp.ofCode : Nat → ArithmeticOp
  | 0 => add
  | 1 => sub
  | 2 => mul
  | 3 => div
  | 4 => rem
  | _ => neg

/-- The operations on bits in the order of their opcodes. -/
def ArithmeticOp.bitwiseOfCode : Nat → ArithmeticOp
  | 0 => shl
  | 1 => shr
  | 2 => ushr
  | 3 => and
  | 4 => or
  | _ => xor

/-- The conversions in the order of their opcodes. -/
def conversionOfCode : Nat → NumericKind × ConversionTarget
  | 0 => (.int, .long)
  | 1 => (.int, .float)
  | 2 => (.int, .double)
  | 3 => (.long, .int)
  | 4 => (.long, .float)
  | 5 => (.long, .double)
  | 6 => (.float, .int)
  | 7 => (.float, .long)
  | 8 => (.float, .double)
  | 9 => (.double, .int)
  | 10 => (.double, .long)
  | 11 => (.double, .float)
  | 12 => (.int, .byte)
  | 13 => (.int, .char)
  | _ => (.int, .short)

/-- The constants zero, one and two in single precision. -/
def smallFloatBits : Nat → UInt32
  | 0 => 0x00000000
  | 1 => 0x3F800000
  | _ => 0x40000000

/-- The constants zero and one in double precision. -/
def smallDoubleBits : Nat → UInt64
  | 0 => 0x0000000000000000
  | _ => 0x3FF0000000000000

/-! ## Opcodes -/

/-- Reads the rest of an instruction with a 16-bit slot. -/
def Site.wide (site : Site) : CodeReader Instruction := do
  let opcode ← site.read Decoder.u8
  let slot ← site.read Decoder.u16
  let op := opcode.toNat
  if 0x15 ≤ op ∧ op ≤ 0x19 then return .load (.ofCode (op - 0x15)) slot
  else if 0x36 ≤ op ∧ op ≤ 0x3a then return .store (.ofCode (op - 0x36)) slot
  else if op = 0x84 then return .increment slot (← site.read Decoder.i16)
  else if op = 0xa9 then return .unsupported opcode
  else throw (.unknownOpcode opcode site.offset)

/-- Reads a constant push. -/
def Site.push (site : Site) (op : Nat) : CodeReader Instruction := do
  if op = 0x01 then return .const .null
  else if op ≤ 0x08 then return .const (.int (Int32.ofInt (op - 3)))
  else if op ≤ 0x0a then return .const (.long (Int64.ofInt (op - 0x09)))
  else if op ≤ 0x0d then return .const (.float (smallFloatBits (op - 0x0b)))
  else if op ≤ 0x0f then return .const (.double (smallDoubleBits (op - 0x0e)))
  else if op = 0x10 then return .const (.int (← site.read Decoder.i8).toInt32)
  else if op = 0x11 then return .const (.int (← site.read Decoder.i16).toInt32)
  else if op = 0x12 then return .const (← site.constant (← site.read Decoder.u8).toUInt16)
  else return .const (← site.constant (← site.read Decoder.u16))

/-- Reads the rest of an instruction behind its opcode. -/
def Site.operands (site : Site) (opcode : UInt8) : CodeReader Instruction := do
  let op := opcode.toNat
  if op = 0x00 then return .nop
  else if op ≤ 0x14 then site.push op
  else if op ≤ 0x19 then return .load (.ofCode (op - 0x15)) (← site.read Decoder.u8).toUInt16
  else if op ≤ 0x2d then return .load (.ofCode ((op - 0x1a) / 4)) (UInt16.ofNat ((op - 0x1a) % 4))
  else if op ≤ 0x35 then return .arrayLoad (.ofCode (op - 0x2e))
  else if op ≤ 0x3a then return .store (.ofCode (op - 0x36)) (← site.read Decoder.u8).toUInt16
  else if op ≤ 0x4e then return .store (.ofCode ((op - 0x3b) / 4)) (UInt16.ofNat ((op - 0x3b) % 4))
  else if op ≤ 0x56 then return .arrayStore (.ofCode (op - 0x4f))
  else if op ≤ 0x5f then return .stack (.ofCode (op - 0x57))
  else if op ≤ 0x77 then return .arithmetic (.ofCode ((op - 0x60) / 4)) (.ofCode ((op - 0x60) % 4))
  else if op ≤ 0x83 then
    return .arithmetic (.bitwiseOfCode ((op - 0x78) / 2)) (.ofCode ((op - 0x78) % 2))
  else if op = 0x84 then
    let slot ← site.read Decoder.u8
    let delta ← site.read Decoder.i8
    return .increment slot.toUInt16 delta.toInt16
  else if op ≤ 0x93 then
    let (source, target) := conversionOfCode (op - 0x85)
    return .convert source target
  else if op = 0x94 then return .compare .long
  else if op ≤ 0x96 then return .compare .float
  else if op ≤ 0x98 then return .compare .double
  else if op ≤ 0x9e then return .branch (.zero (.ofCode (op - 0x99))) (← site.target16)
  else if op ≤ 0xa4 then return .branch (.ints (.ofCode (op - 0x9f))) (← site.target16)
  else if op = 0xa5 then return .branch .refsEqual (← site.target16)
  else if op = 0xa6 then return .branch .refsNotEqual (← site.target16)
  else if op = 0xa7 then return .goto (← site.target16)
  else if op = 0xa8 then
    site.read (Decoder.skip 2)
    return .unsupported opcode
  else if op = 0xa9 then
    site.read (Decoder.skip 1)
    return .unsupported opcode
  else if op = 0xaa then site.tableSwitch
  else if op = 0xab then site.lookupSwitch
  else if op ≤ 0xb0 then return .ret (some (.ofCode (op - 0xac)))
  else if op = 0xb1 then return .ret none
  else if op = 0xb2 then return .getField true (← site.field)
  else if op = 0xb3 then return .putField true (← site.field)
  else if op = 0xb4 then return .getField false (← site.field)
  else if op = 0xb5 then return .putField false (← site.field)
  else if op = 0xb6 then site.invoke .virtual
  else if op = 0xb7 then site.invoke .special
  else if op = 0xb8 then site.invoke .static
  else if op = 0xb9 then site.invoke .interface
  else if op = 0xba then site.invokeDynamic
  else if op = 0xbb then return .newObject (← site.className)
  else if op = 0xbc then return .newArray (← site.elementType (← site.read Decoder.u8))
  else if op = 0xbd then
    return .newArray (← site.inPool (FieldType.ofClassName (← site.className)))
  else if op = 0xbe then return .arrayLength
  else if op = 0xbf then return .throw
  else if op = 0xc0 then return .checkCast (← site.className)
  else if op = 0xc1 then return .instanceOf (← site.className)
  else if op ≤ 0xc3 then return .monitor
  else if op = 0xc4 then site.wide
  else if op = 0xc5 then
    let index ← site.read Decoder.u16
    let dimensions ← site.read Decoder.u8
    let name ← site.inPool (site.pool.className index)
    return .multiNewArray (← site.inPool (FieldType.ofClassName name)) dimensions
  else if op = 0xc6 then return .branch .null (← site.target16)
  else if op = 0xc7 then return .branch .nonNull (← site.target16)
  else if op = 0xc8 then return .goto (← site.target32)
  else if op = 0xc9 then
    site.read (Decoder.skip 4)
    return .unsupported opcode
  else throw (.unknownOpcode opcode site.offset)

/-- Reads the instruction at the cursor. -/
def Site.instruction (site : Site) : CodeReader Instruction := do
  site.operands (← site.read Decoder.u8)

end Program

end ArrayBounds
