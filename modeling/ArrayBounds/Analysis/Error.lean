import ArrayBounds.ClassFile.Error

/-! # Reasons to give up an analysis -/

namespace ArrayBounds

/-- What can end an analysis without a result. -/
inductive AnalysisError where
  | classNotFound (name : String)
  | methodNotFound (owner name descriptor : String)
  | stackUnderflow (position : Nat)
  /-- The method throws an exception; exceptions are not followed. -/
  | throws (method : String) (position : Nat)
  | unsupportedInstruction (method : String) (position : Nat) (opcode : UInt8)
  | invalidDescriptor (error : ClassFileError)
  /-- A method takes more variables than there are numbers for them. -/
  | numbersExhausted
  /-- The bound on the length of the analysis was reached. -/
  | exhausted
deriving DecidableEq, Repr

namespace AnalysisError

/-- The wording of an error. -/
def message : AnalysisError → String
  | classNotFound name => s!"class {name} is not loaded"
  | methodNotFound owner name descriptor => s!"cannot resolve method {owner}.{name}{descriptor}"
  | stackUnderflow position => s!"operand stack underflow at instruction {position}"
  | throws method position =>
    s!"athrow at instruction {position} of {method}: exception flow is not modelled"
  | unsupportedInstruction method position opcode =>
    "unsupported instruction (opcode " ++ Hex.literal 2 opcode.toNat ++
      s!") at {position} of {method}"
  | invalidDescriptor error => error.message
  | numbersExhausted => "attempt to add with overflow"
  | exhausted => "the analysis did not end within its bound"

end AnalysisError

end ArrayBounds
