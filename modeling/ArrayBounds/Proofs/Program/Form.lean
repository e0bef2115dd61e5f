import ArrayBounds.Program.Opcode

/-! # The forms of instructions

What the bytes of an instruction are: an opcode, and operands whose form depends on the opcode. The
table `ArrayBounds.Program.Form.ofOpcode` gives the form of every opcode, and
`ArrayBounds.Program.Spells` says which bytes spell an instruction at an offset of the code. The
targets of an instruction are not part of its spelling; the bytes hold the displacements from the
offset of the instruction to them.
-/

namespace ArrayBounds.Program

open ClassFile (ConstantPool bigEndian)

/-- The number in two's complement that bytes stand for, most significant byte first. -/
def signed : List UInt8 → Int
  | [] => 0
  | first :: rest =>
    rest.foldl (fun n byte => 256 * n + byte.toNat)
      (if first.toNat < 0x80 then first.toNat else first.toNat - 0x100)

/-- The place in the constant pool that two bytes stand for. -/
def placeOf (bytes : List UInt8) : UInt16 :=
  UInt16.ofNat (bigEndian bytes)

/-- What stands behind an opcode. -/
inductive Form where
  /-- Operands of the given size, which make up an instruction that jumps nowhere, or no
  instruction. -/
  | operands (size : Nat) (meaning : ConstantPool → List UInt8 → Option Instruction)
  /-- Another opcode, and operands of twice the size that they have behind that opcode alone. -/
  | wide
  /-- A displacement of two bytes. -/
  | branch (condition : Condition)
  /-- A displacement of the given size. -/
  | goto (size : Nat)
  /-- Padding up to a multiple of four from the start of the code, the default displacement, two
  bounds, and a displacement for every number between them. -/
  | tableSwitch
  /-- Padding, the default displacement, a count, and that many pairs of a number and a
  displacement. -/
  | lookupSwitch

namespace Form

/-- No operands. -/
def plain (instruction : Instruction) : Form :=
  operands 0 fun _ _ => some instruction

/-- One byte. -/
def byte (instruction : UInt8 → Option Instruction) : Form :=
  operands 1 fun _ bytes =>
    match bytes with
    | [a] => instruction a
    | _ => none

/-- A place in the constant pool that is looked up, and further bytes that have no meaning. -/
def place {α : Type} (unused : Nat) (look : ConstantPool → UInt16 → Except ClassFileError α)
    (instruction : α → Instruction) : Form :=
  operands (2 + unused) fun pool bytes =>
    (look pool (placeOf (bytes.take 2))).toOption.map instruction

/-- A class, by its place in the constant pool. -/
def className (instruction : String → Instruction) : Form :=
  place 0 ConstantPool.className instruction

/-- A field, by its place in the constant pool. -/
def field (instruction : String → Instruction) : Form :=
  place 0 ConstantPool.memberRef fun member => instruction member.descriptor

/-- A method, by its place in the constant pool. -/
def invoke (kind : InvokeKind) (unused : Nat) : Form :=
  place unused ConstantPool.memberRef fun member =>
    .invoke kind member.owner member.name member.descriptor

end Form

/-- The constant at a place. -/
def constantAt? (pool : ConstantPool) (index : UInt16) : Option Constant :=
  match pool.get index with
  | .ok (.integer value) => some (.int value)
  | .ok (.float bits) => some (.float bits)
  | .ok (.long value) => some (.long value)
  | .ok (.double bits) => some (.double bits)
  | .ok (.string text) => (pool.utf8 text).toOption.map .string
  | .ok (.classInfo name) => (pool.utf8 name).toOption.map .classLiteral
  | .ok _ => some .unknown
  | .error _ => none

/-- The element types of arrays of numbers. -/
def elementOfCode? : Nat → Option FieldType
  | 4 => some .boolean
  | 5 => some .char
  | 6 => some .float
  | 7 => some .double
  | 8 => some .byte
  | 9 => some .short
  | 10 => some .int
  | 11 => some .long
  | _ => none

/-- The form of an opcode that pushes a constant. -/
def Form.ofPush (op : Nat) : Form :=
  if op = 0x01 then plain (.const .null)
  else if op ≤ 0x08 then plain (.const (.int (Int32.ofInt (op - 3))))
  else if op ≤ 0x0a then plain (.const (.long (Int64.ofInt (op - 0x09))))
  else if op ≤ 0x0d then plain (.const (.float (smallFloatBits (op - 0x0b))))
  else if op ≤ 0x0f then plain (.const (.double (smallDoubleBits (op - 0x0e))))
  else if op = 0x10 then operands 1 fun _ bytes => some (.const (.int (Int32.ofInt (signed bytes))))
  else if op = 0x11 then operands 2 fun _ bytes => some (.const (.int (Int32.ofInt (signed bytes))))
  else if op = 0x12 then operands 1 fun pool bytes => (constantAt? pool (placeOf bytes)).map .const
  else operands 2 fun pool bytes => (constantAt? pool (placeOf bytes)).map .const

/-- The form of an opcode. -/
def Form.ofOpcode (opcode : UInt8) : Option Form :=
  let op := opcode.toNat
  if op = 0x00 then some (plain .nop)
  else if op ≤ 0x14 then some (ofPush op)
  else if op ≤ 0x19 then some (byte fun slot => some (.load (.ofCode (op - 0x15)) slot.toUInt16))
  else if op ≤ 0x2d then some
    (plain (.load (.ofCode ((op - 0x1a) / 4)) (UInt16.ofNat ((op - 0x1a) % 4))))
  else if op ≤ 0x35 then some (plain (.arrayLoad (.ofCode (op - 0x2e))))
  else if op ≤ 0x3a then some (byte fun slot => some (.store (.ofCode (op - 0x36)) slot.toUInt16))
  else if op ≤ 0x4e then some
    (plain (.store (.ofCode ((op - 0x3b) / 4)) (UInt16.ofNat ((op - 0x3b) % 4))))
  else if op ≤ 0x56 then some (plain (.arrayStore (.ofCode (op - 0x4f))))
  else if op ≤ 0x5f then some (plain (.stack (.ofCode (op - 0x57))))
  else if op ≤ 0x77 then some
    (plain (.arithmetic (.ofCode ((op - 0x60) / 4)) (.ofCode ((op - 0x60) % 4))))
  else if op ≤ 0x83 then some
    (plain (.arithmetic (.bitwiseOfCode ((op - 0x78) / 2)) (.ofCode ((op - 0x78) % 2))))
  else if op = 0x84 then
    some (operands 2 fun _ bytes =>
      match bytes with
      | [slot, delta] => some (.increment slot.toUInt16 (Int16.ofInt (signed [delta])))
      | _ => none)
  else if op ≤ 0x93 then
    some (plain (.convert (conversionOfCode (op - 0x85)).1 (conversionOfCode (op - 0x85)).2))
  else if op = 0x94 then some (plain (.compare .long))
  else if op ≤ 0x96 then some (plain (.compare .float))
  else if op ≤ 0x98 then some (plain (.compare .double))
  else if op ≤ 0x9e then some (branch (.zero (.ofCode (op - 0x99))))
  else if op ≤ 0xa4 then some (branch (.ints (.ofCode (op - 0x9f))))
  else if op = 0xa5 then some (branch .refsEqual)
  else if op = 0xa6 then some (branch .refsNotEqual)
  else if op = 0xa7 then some (goto 2)
  else if op = 0xa8 then some (operands 2 fun _ _ => some (.unsupported opcode))
  else if op = 0xa9 then some (operands 1 fun _ _ => some (.unsupported opcode))
  else if op = 0xaa then some tableSwitch
  else if op = 0xab then some lookupSwitch
  else if op ≤ 0xb0 then some (plain (.ret (some (.ofCode (op - 0xac)))))
  else if op = 0xb1 then some (plain (.ret none))
  else if op = 0xb2 then some (field (.getField true))
  else if op = 0xb3 then some (field (.putField true))
  else if op = 0xb4 then some (field (.getField false))
  else if op = 0xb5 then some (field (.putField false))
  else if op = 0xb6 then some (invoke .virtual 0)
  else if op = 0xb7 then some (invoke .special 0)
  else if op = 0xb8 then some (invoke .static 0)
  else if op = 0xb9 then some (invoke .interface 2)
  else if op = 0xba then some
    (place 2 ConstantPool.invokeDynamic fun member => .invokeDynamic member.1 member.2)
  else if op = 0xbb then some (className .newObject)
  else if op = 0xbc then some (byte fun code => (elementOfCode? code.toNat).map .newArray)
  else if op = 0xbd then some
    (place 0 (fun pool index => pool.className index >>= FieldType.ofClassName) .newArray)
  else if op = 0xbe then some (plain .arrayLength)
  else if op = 0xbf then some (plain .throw)
  else if op = 0xc0 then some (className .checkCast)
  else if op = 0xc1 then some (className .instanceOf)
  else if op ≤ 0xc3 then some (plain .monitor)
  else if op = 0xc4 then some wide
  else if op = 0xc5 then
    some (operands 3 fun pool bytes =>
      match bytes with
      | [a, b, dimensions] =>
        (pool.className (placeOf [a, b]) >>= FieldType.ofClassName).toOption.map
          (.multiNewArray · dimensions)
      | _ => none)
  else if op = 0xc6 then some (branch .null)
  else if op = 0xc7 then some (branch .nonNull)
  else if op = 0xc8 then some (goto 4)
  else if op = 0xc9 then some (operands 4 fun _ _ => some (.unsupported opcode))
  else none

/-- What stands behind an opcode and a slot of twice the usual size. -/
def Form.ofWide (opcode : UInt8) (slot : UInt16) : Option Form :=
  let op := opcode.toNat
  if 0x15 ≤ op ∧ op ≤ 0x19 then some (plain (.load (.ofCode (op - 0x15)) slot))
  else if 0x36 ≤ op ∧ op ≤ 0x3a then some (plain (.store (.ofCode (op - 0x36)) slot))
  else if op = 0x84 then some
    (operands 2 fun _ bytes => some (.increment slot (Int16.ofInt (signed bytes))))
  else if op = 0xa9 then some (plain (.unsupported opcode))
  else none

/-- The bytes behind an opcode of the given form spell an instruction at an offset of the code,
whatever its targets are, with the given displacements: those of the cases of a switch in order, and
that of the default behind them. -/
inductive Form.Spells (pool : ConstantPool) (offset : Nat) :
    Form → List UInt8 → Instruction → List Int → Prop where
  | operands {size : Nat} {meaning : ConstantPool → List UInt8 → Option Instruction}
      {bytes : List UInt8}
      {instruction : Instruction} (long : bytes.length = size)
      (means : meaning pool bytes = some instruction)
      (straight : instruction.targets = []) : Spells pool offset (operands size meaning)
      bytes instruction []
  | wide {opcode : UInt8} {slot rest : List UInt8} {form : Form} {instruction : Instruction}
      {displacements : List Int}
      (long : slot.length = 2) (found : ofWide opcode (placeOf slot) = some form)
      (spells : Spells pool offset form rest instruction displacements) :
      Spells pool offset wide (opcode :: (slot ++ rest)) instruction displacements
  | branch {condition : Condition} {bytes : List UInt8} (long : bytes.length = 2) (target : Nat) :
      Spells pool offset (branch condition) bytes (.branch condition target) [signed bytes]
  | goto {size : Nat} {bytes : List UInt8} (long : bytes.length = size) (target : Nat) :
      Spells pool offset (goto size) bytes (.goto target) [signed bytes]
  | tableSwitch {padding base low high : List UInt8} {cases : List (List UInt8)} (default : Nat)
      {targets : List Nat} (padded : padding.length < 4 ∧ (offset + 1 + padding.length) % 4 = 0)
      (long : ∀ word ∈ base :: low :: high :: cases, word.length = 4)
      (count : cases.length = (signed high - signed low + 1).toNat)
      (same : targets.length = cases.length) :
      Spells pool offset tableSwitch (padding ++ (base ++ (low ++ (high ++ cases.flatten))))
      (.switch default targets) (cases.map signed ++ [signed base])
  | lookupSwitch {padding base number : List UInt8} {cases : List (List UInt8)} (default : Nat)
      {targets : List Nat}
      (padded : padding.length < 4 ∧ (offset + 1 + padding.length) % 4 = 0)
      (long : base.length = 4 ∧ number.length = 4)
      (pairs : ∀ pair ∈ cases, pair.length = 8) (count : cases.length = (signed number).toNat)
      (same : targets.length = cases.length) :
      Spells pool offset lookupSwitch (padding ++ (base ++ (number ++ cases.flatten)))
      (.switch default targets) ((cases.map fun pair => signed (pair.drop 4)) ++ [signed base])

/-- The bytes spell an instruction at an offset of the code, whatever its targets are. -/
def Spells (pool : ConstantPool) (offset : Nat) (bytes : List UInt8) (instruction : Instruction)
    (displacements : List Int) : Prop :=
  ∃ opcode operands form, bytes = opcode :: operands ∧ Form.ofOpcode opcode = some form ∧
    form.Spells pool offset operands instruction displacements

/-- An instruction in the code of a method. -/
structure Placed where
  offset : Nat
  bytes : List UInt8
  instruction : Instruction
  /-- The distances from the offset to the targets. -/
  displacements : List Int

/-- Bytes from an offset of the code on are the spellings of instructions, one behind the other. -/
inductive Decodes (pool : ConstantPool) : Nat → List UInt8 → List Placed → Prop where
  | nil {offset : Nat} : Decodes pool offset [] []
  | cons {offset : Nat} {bytes rest : List UInt8} {instruction : Instruction}
      {displacements : List Int}
      {later : List Placed} (spells : Spells pool offset bytes instruction displacements)
      (decodes : Decodes pool (offset + bytes.length) rest later) :
      Decodes pool offset (bytes ++ rest) (⟨offset, bytes, instruction, displacements⟩ :: later)

end ArrayBounds.Program
