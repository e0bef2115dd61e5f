import ArrayBounds.Analysis.Interpreter
import Mathlib.Data.Int.Bitwise

/-! # Concrete executions

What the instructions do to actual values, for the instructions on `int`, `long` and references.
Numbers are mathematical integers. Of an array only the length is kept, so that the results of array
loads, of field accesses and of calls are left open.

`ArrayBounds.Executes` holds of the frames before and after an instruction that raises no exception,
and `ArrayBounds.Branches` of those before and after a branch, together with the side that it takes.
-/

namespace ArrayBounds

open Program

/-- A value at run time. -/
inductive Value where
  | int (number : Int)
  | long (number : Int)
  /-- A reference, with the length of the array behind it. The length of what is not an array is of
  no interest. -/
  | reference (length : Int)
deriving DecidableEq, Repr, Inhabited

namespace Value

/-- The number that signs and bounds are about: the number itself, or the length of the array. -/
def magnitude : Value → Int
  | int number | long number => number
  | reference length => length

/-- The value takes two words. -/
def isWide : Value → Bool
  | long _ => true
  | int _ | reference _ => false

end Value

/-- The local slots of a frame at run time. A slot may be unused, or lose its value to a wide
neighbour. -/
abbrev Slots := Nat → Option Value

/-- Puts a value into a slot. A wide value takes the next slot as well, and a wide value in the slot
before is lost. -/
def Slots.store (slots : Slots) (slot : Nat) (value : Value) : Slots := fun i =>
  if i = slot then some value
  else if i = slot + 1 ∧ value.isWide = true then none
  else if i + 1 = slot ∧ (slots i).any Value.isWide = true then none
  else slots i

/-- A frame at run time. -/
structure Concrete where
  /-- The operand stack; the head is the top. -/
  stack : List Value
  slots : Slots

namespace Program

/-- The comparison of two numbers. -/
def Comparison.compares : Comparison → Int → Int → Bool
  | eq, a, b => a = b
  | ne, a, b => a ≠ b
  | lt, a, b => a < b
  | ge, a, b => b ≤ a
  | gt, a, b => b < a
  | le, a, b => a ≤ b

/-- The result of an operation with two operands on numbers of the given width; absent for a
division by zero. Shifts use the low bits of their second operand only. -/
def ArithmeticOp.evaluate (width : Nat) (op : ArithmeticOp) (a b : Int) : Option Int :=
  let shift := (b % width).toNat
  match op with
  | add => some (a + b)
  | sub => some (a - b)
  | mul => some (a * b)
  | div => if b = 0 then none else some (a.tdiv b)
  | rem => if b = 0 then none else some (a.tmod b)
  | neg => none
  | shl => some (a * 2 ^ shift)
  | shr => some (a / 2 ^ shift)
  | ushr => some (if shift = 0 then a else a % 2 ^ width / 2 ^ shift)
  | and => some (a.land b)
  | or => some (a.lor b)
  | xor => some (a.xor b)

/-- The operation takes a number of bits for its second operand. -/
def ArithmeticOp.isShift : ArithmeticOp → Bool
  | shl | shr | ushr => true
  | _ => false

/-- The number as a value of the given kind; there are none for floating point. -/
def NumericKind.value? (number : Int) : NumericKind → Option Value
  | int => some (.int number)
  | long => some (.long number)
  | float | double => none

/-- The number of a value is the number that it was made from. -/
theorem NumericKind.magnitude_of_value? {kind : NumericKind} {number : Int} {value : Value}
    (integral : kind.value? number = some value) : value.magnitude = number := by
  cases kind with
  | int | long =>
      obtain rfl := Option.some.inj integral
      rfl
  | float | double => cases integral

/-- The number of bits. -/
def NumericKind.width : NumericKind → Nat
  | int | float => 32
  | long | double => 64

/-- The result of converting a number; there is none for floating point. -/
def ConversionTarget.evaluate (number : Int) : ConversionTarget → Option Value
  | int => some (.int (number.bmod (2 ^ 32)))
  | long => some (.long number)
  | byte => some (.int (number.bmod (2 ^ 8)))
  | char => some (.int (number % 2 ^ 16))
  | short => some (.int (number.bmod (2 ^ 16)))
  | float | double => none

/-- The constant is a reference. -/
def Constant.isReference : Constant → Bool
  | null | string _ | classLiteral _ | unknown => true
  | int _ | long _ | float _ | double _ => false

end Program

/-- A call is not followed: its class is outside of the analysis, or there is no method with a body
behind it. -/
def Setting.IsOpaque (setting : Setting) (method : MethodKey) : Prop :=
  setting.isAnalyzed method.className = false ∨
    ∀ before, ∃ after, Interpreter.resolve setting method before = .ok none after

/-- The instruction leads from one frame to the other without an exception. -/
inductive Executes (setting : Setting) : Instruction → Concrete → Concrete → Prop where
  | nop {c} : Executes setting .nop c c
  | constInt {number stack slots} :
      Executes setting (.const (.int number)) ⟨stack, slots⟩ ⟨.int number.toInt :: stack, slots⟩
  | constLong {number stack slots} :
      Executes setting (.const (.long number)) ⟨stack, slots⟩ ⟨.long number.toInt :: stack, slots⟩
  | constReference {constant length stack slots} (reference : constant.isReference = true) :
      Executes setting (.const constant) ⟨stack, slots⟩ ⟨.reference length :: stack, slots⟩
  | load {kind slot value stack slots} (found : slots slot.toNat = some value) :
      Executes setting (.load kind slot) ⟨stack, slots⟩ ⟨value :: stack, slots⟩
  | store {kind slot value stack slots} :
      Executes setting (.store kind slot) ⟨value :: stack, slots⟩
        ⟨stack, slots.store slot.toNat value⟩
  | increment {slot delta number stack slots} (found : slots slot.toNat = some (.int number)) :
      Executes setting (.increment slot delta) ⟨stack, slots⟩
        ⟨stack, slots.store slot.toNat (.int (number + delta.toInt))⟩
  | shuffle {op stack stack' slots} (rearranged : op.apply Value.isWide stack = some stack') :
      Executes setting (.stack op) ⟨stack, slots⟩ ⟨stack', slots⟩
  | arrayLoad {kind index length value stack slots} (inBounds : 0 ≤ index ∧ index < length) :
      Executes setting (.arrayLoad kind) ⟨.int index :: .reference length :: stack, slots⟩
        ⟨value :: stack, slots⟩
  | arrayStore {kind index length value stack slots} (inBounds : 0 ≤ index ∧ index < length) :
      Executes setting (.arrayStore kind) ⟨value :: .int index :: .reference length :: stack, slots⟩
        ⟨stack, slots⟩
  | arrayLength {length stack slots} (isArray : 0 ≤ length) :
      Executes setting .arrayLength ⟨.reference length :: stack, slots⟩
        ⟨.int length :: stack, slots⟩
  | newArray {element length stack slots} (size : 0 ≤ length) :
      Executes setting (.newArray element) ⟨.int length :: stack, slots⟩
        ⟨.reference length :: stack, slots⟩
  | multiNewArray {array dimensions} {lengths : List Int} {length stack slots}
      (count : lengths.length = UInt8.toNat dimensions) (sizes : ∀ size ∈ lengths, 0 ≤ size)
      (outermost : lengths.getLast? = some length) :
      Executes setting (.multiNewArray array dimensions) ⟨lengths.map .int ++ stack, slots⟩
        ⟨.reference length :: stack, slots⟩
  | negate {kind number operand result stack slots}
      (before : NumericKind.value? number kind = some operand)
      (after : NumericKind.value? (-number) kind = some result) :
      Executes setting (.arithmetic .neg kind) ⟨operand :: stack, slots⟩ ⟨result :: stack, slots⟩
  | arithmetic {op kind a b number lhs rhs result stack slots}
      (left : NumericKind.value? a kind = some lhs)
      (right : NumericKind.value? b (if ArithmeticOp.isShift op then .int else kind) = some rhs)
      (evaluated : op.evaluate kind.width a b = some number)
      (after : kind.value? number = some result) :
      Executes setting (.arithmetic op kind) ⟨rhs :: lhs :: stack, slots⟩ ⟨result :: stack, slots⟩
  | compare {a b stack slots} :
      Executes setting (.compare .long) ⟨.long b :: .long a :: stack, slots⟩
        ⟨.int (a - b).sign :: stack, slots⟩
  | convert {source target number operand result stack slots}
      (before : NumericKind.value? number source = some operand)
      (after : ConversionTarget.evaluate number target = some result) :
      Executes setting (.convert source target) ⟨operand :: stack, slots⟩ ⟨result :: stack, slots⟩
  | getStatic {descriptor type value stack slots} (parsed : FieldType.parse descriptor = .ok type) :
      Executes setting (.getField true descriptor) ⟨stack, slots⟩ ⟨value :: stack, slots⟩
  | getField {descriptor type object value stack slots}
      (parsed : FieldType.parse descriptor = .ok type) :
      Executes setting (.getField false descriptor) ⟨.reference object :: stack, slots⟩
        ⟨value :: stack, slots⟩
  | putStatic {descriptor value stack slots} :
      Executes setting (.putField true descriptor) ⟨value :: stack, slots⟩ ⟨stack, slots⟩
  | putField {descriptor object value stack slots} :
      Executes setting (.putField false descriptor) ⟨value :: .reference object :: stack, slots⟩
        ⟨stack, slots⟩
  | invoke {kind owner name descriptor} {parsed : MethodDescriptor} {arguments results stack slots}
      (isOpaque : setting.IsOpaque { className := owner, name, descriptor })
      (readable : MethodDescriptor.parse descriptor = .ok parsed)
      (count : List.length arguments = parsed.parameters.length + if InvokeKind.hasReceiver kind
      then 1 else 0) (returns : List.length results = if parsed.returnType.isSome then 1 else 0) :
      Executes setting (.invoke kind owner name descriptor) ⟨arguments ++ stack, slots⟩
      ⟨results ++ stack, slots⟩
  | invokeDynamic {name descriptor} {parsed : MethodDescriptor} {arguments results stack slots}
      (readable : MethodDescriptor.parse descriptor = .ok parsed)
      (count : List.length arguments = parsed.parameters.length)
      (returns : List.length results = if parsed.returnType.isSome then 1 else 0) :
      Executes setting (.invokeDynamic name descriptor) ⟨arguments ++ stack, slots⟩
      ⟨results ++ stack, slots⟩
  | newObject {className length stack slots} :
      Executes setting (.newObject className) ⟨stack, slots⟩ ⟨.reference length :: stack, slots⟩
  | checkCast {className c} : Executes setting (.checkCast className) c c
  | instanceOf {className object answer stack slots} (boolean : answer = 0 ∨ answer = 1) :
      Executes setting (.instanceOf className) ⟨.reference object :: stack, slots⟩
        ⟨.int answer :: stack, slots⟩
  | monitor {object stack slots} : Executes setting .monitor ⟨.reference object :: stack, slots⟩
      ⟨stack, slots⟩

/-- A branch on the condition leads from one frame to the other, and is taken or not. Which
references are equal or null is left open. -/
inductive Branches : Condition → (taken : Bool) → Concrete → Concrete → Prop where
  | zero {comparison number taken stack slots}
      (side : Comparison.compares comparison number 0 = taken) :
      Branches (.zero comparison) taken ⟨.int number :: stack, slots⟩ ⟨stack, slots⟩
  | ints {comparison a b taken stack slots} (side : Comparison.compares comparison a b = taken) :
      Branches (.ints comparison) taken ⟨.int b :: .int a :: stack, slots⟩ ⟨stack, slots⟩
  | nullity {condition taken object stack slots} (test : condition = .null ∨ condition = .nonNull) :
      Branches condition taken ⟨.reference object :: stack, slots⟩ ⟨stack, slots⟩
  | identity {condition taken object object' stack slots}
      (test : condition = .refsEqual ∨ condition = .refsNotEqual) :
      Branches condition taken ⟨.reference object :: .reference object' :: stack, slots⟩
      ⟨stack, slots⟩

end ArrayBounds
