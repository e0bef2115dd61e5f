import ArrayBounds.Domain.Shuffle

/-! # Effects of instructions

What an instruction does to a frame, for the instructions that need nothing but the frame: those
that neither branch, call, throw nor return. A `goto` only notes its target, and a `switch` only
takes its operand; what becomes of the control flow is decided by the interpreter.
-/

namespace ArrayBounds

open Program

/-- An access to an array. -/
structure Access where
  array : VarId
  index : VarId
deriving DecidableEq, Repr, Inhabited

/-- The value that a constant push produces. -/
def Program.Constant.variable (constant : Constant) (definedAt : Nat) : Variable :=
  let known (type : Option FieldType) (sign : Sign) : Variable :=
    { type, sign, origin := .constant, definedAt }
  match constant with
  | .int value => known (some .int) (.ofInt value.toInt)
  | .long value => known (some .long) (.ofInt value.toInt)
  | .float bits => known (some .float) (.ofFloatBits bits)
  | .double bits => known (some .double) (.ofDoubleBits bits)
  | .string _ => known (some (.object "java/lang/String")) .top
  | .classLiteral _ => known (some (.object "java/lang/Class")) .top
  | .null | .unknown => known none .top

namespace Frame

/-- Checks an access. If the index is not known to be in bounds, the access is returned, and from
then on the index counts as being in bounds. -/
def checkAccess (f : Frame) (access : Access) : Frame × Option Access :=
  if f.vars[access.index]?.any (·.isSafeFor access.array) then (f, none)
  else (f.modify access.index (·.markBelow access.array), some access)

/-- The effect of an array load: the frame afterwards, and the access if it is not known to be in
bounds. -/
def arrayLoad (f : Frame) (kind : ElementKind) : Except AnalysisError (Frame × Option Access) := do
  let (index, f) ← f.pop
  let (array, f) ← f.pop
  let (f, unproved) := f.checkAccess { array, index }
  let type := kind.type? <|> (f.vars[array]?.bind (·.type)).bind FieldType.element?
  return (f.push (.unknown type f.pc), unproved)

/-- The effect of an array store. -/
def arrayStore (f : Frame) : Except AnalysisError (Frame × Option Access) := do
  let (_, f) ← f.pop
  let (index, f) ← f.pop
  let (array, f) ← f.pop
  return f.checkAccess { array, index }

/-- The effect of asking for the length of an array: a number that is not negative and at most that
length. -/
def arrayLength (f : Frame) : Except AnalysisError Frame := do
  let (array, f) ← f.pop
  return f.push { type := some .int, sign := .nonNegative, definedAt := f.pc, atMost := {array} }

/-- The effect of an arithmetic instruction. -/
def arithmetic (f : Frame) (op : ArithmeticOp) (kind : NumericKind) :
    Except AnalysisError Frame := do
  if op = .neg then
    let (_, f) ← f.pop
    return f.push (.unknown (some kind.type) f.pc)
  else
    let (rhs, f) ← f.pop
    let (lhs, f) ← f.pop
    return f.push (.binary op (f.value lhs) (f.value rhs) kind f.pc)

/-- Pops `count` operands and pushes a result. -/
def replaceTop (f : Frame) (count : Nat) (result : Variable) : Except AnalysisError Frame := do
  let (_, f) ← f.popN count
  return f.push result

/-- The effect of reading a field. -/
def getField (f : Frame) (isStatic : Bool) (descriptor : String) : Except AnalysisError Frame := do
  let (_, f) ← f.popN (if isStatic then 0 else 1)
  match FieldType.parse descriptor with
  | .ok type =>
    return f.push {
      type := some type
      origin := if isStatic then .staticField else .instanceField
      definedAt := f.pc }
  | .error error => throw (.invalidDescriptor error)

/-- The effect of a numeric conversion. -/
def convert (f : Frame) (source : NumericKind) (target : ConversionTarget) :
    Except AnalysisError Frame := do
  let (operand, f) ← f.pop
  return f.push ((f.value operand).convert source target f.pc)

/-- The effect of an instruction that needs nothing but the frame. Other instructions change nothing
here. -/
def transfer (f : Frame) : Instruction → Except AnalysisError (Frame × Option Access)
  | .arrayLoad kind => f.arrayLoad kind
  | .arrayStore _ => f.arrayStore
  | .const value => return (f.push (value.variable f.pc), none)
  | .load _ slot => return (f.load slot, none)
  | .store _ slot => return (← f.store slot, none)
  | .increment slot delta => return (f.increment slot delta.toInt, none)
  | .stack op => return (← f.shuffle op, none)
  | .arrayLength => return (← f.arrayLength, none)
  | .newArray element => return (← f.replaceTop 1 (.unknown (some (.array element)) f.pc), none)
  | .multiNewArray array dimensions =>
    return (← f.replaceTop dimensions.toNat (.unknown (some array) f.pc), none)
  | .arithmetic op kind => return (← f.arithmetic op kind, none)
  | .compare _ => return (← f.replaceTop 2 (.unknown (some .int) f.pc), none)
  | .convert source target => return (← f.convert source target, none)
  | .goto target => return ({ f with pendingJump := some target }, none)
  | .switch .. | .monitor => return ((← f.pop).2, none)
  | .getField isStatic descriptor => return (← f.getField isStatic descriptor, none)
  | .putField isStatic _ => return ((← f.popN (if isStatic then 1 else 2)).2, none)
  | .newObject className => return (f.push (.unknown (some (.object className)) f.pc), none)
  | .instanceOf _ =>
    return (← f.replaceTop 1 { type := some .int, sign := .nonNegative, definedAt := f.pc }, none)
  | .nop | .checkCast _ | .branch .. | .invoke .. | .invokeDynamic .. | .throw | .ret _
  | .unsupported _ => return (f, none)

end Frame

end ArrayBounds
