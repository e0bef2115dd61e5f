import ArrayBounds.Domain.Sign
import ArrayBounds.Program.Instruction
import Std.Data.ExtTreeSet

/-! # Variables

A variable records what is known about one value: its sign, and two sets of bounds. The value is
less than every member of `below` and at most every member of `atMost`. A bound names another
variable by its number; if that variable is an array, the bound is the length of the array. So an
index is known to be in bounds for an array if it is not negative and the array is a member of
`below`.

A variable does not know its own number. Numbers are given out by the `Frame` that holds the
variable.
-/

namespace ArrayBounds

open Program

/-- The number that identifies a variable within the analysis of one method. There are no more of
them than 32 bits can count (`ArrayBounds.Frame.checkSupply`). -/
abbrev VarId := Nat

/-- A set of variables that bound a value from above. -/
abbrev Bounds := Std.ExtTreeSet VarId

/-- Where a value came from. -/
inductive Origin where
  | localValue
  | staticField
  | instanceField
  | constant
deriving DecidableEq, Repr, Inhabited

/-- What is known about one value. -/
structure Variable where
  /-- The static type, if it is known. -/
  type : Option FieldType := none
  origin : Origin := .localValue
  sign : Sign := .top
  /-- The local slot that the value was last stored to. In frames of different paths, variables with
  the same slot stand for the same program variable. -/
  slot : Option UInt16 := none
  /-- The position of the instruction that produced the value. -/
  definedAt : Nat := 0
  /-- The value is less than each of these. -/
  below : Bounds := ∅
  /-- The value is at most each of these. -/
  atMost : Bounds := ∅
deriving DecidableEq

namespace Variable

instance : Inhabited Variable := ⟨{}⟩

/-- A value of the given type about which nothing else is known. -/
def unknown (type : Option FieldType) (definedAt : Nat) : Variable :=
  { type, definedAt }

/-- The value takes two words on the operand stack. -/
def isWide (v : Variable) : Bool :=
  v.type.any FieldType.isWide

/-- The number of words that the value takes on the operand stack. -/
def category (v : Variable) : Nat :=
  if v.isWide then 2 else 1

/-- The value is known to be a valid index into the array. -/
def isSafeFor (v : Variable) (array : VarId) : Bool :=
  v.sign.isNonNegative && v.below.contains array

/-- The value is taken to be less than the length of the array. -/
def markBelow (v : Variable) (array : VarId) : Variable :=
  { v with below := v.below.insert array }

/-- The value with all bounds forgotten. -/
def clearBounds (v : Variable) : Variable :=
  { v with below := ∅, atMost := ∅ }

def hasBounds (v : Variable) : Bool :=
  !v.below.isEmpty || !v.atMost.isEmpty

/-! ## Refinement

What a value gains from a comparison with another one that is known to hold. -/

/-- The value is less than `other`. -/
def refineLt (v other : Variable) : Variable :=
  { v with below := v.below ∪ other.below ∪ other.atMost }

/-- The value is at most `other`. -/
def refineLe (v other : Variable) : Variable :=
  { v with below := v.below ∪ other.below, atMost := v.atMost ∪ other.atMost }

/-- The value is greater than `other`. -/
def refineGt (v other : Variable) : Variable :=
  if other.sign.isNonNegative then { v with sign := v.sign.meet .positive } else v

/-- The value is at least `other`. -/
def refineGe (v other : Variable) : Variable :=
  if other.sign.isNonNegative then { v with sign := v.sign.meet other.sign } else v

/-- The value equals `other`, so the bounds and the sign of either side hold of both. -/
def refineEq (v other : Variable) : Variable :=
  let refined := v.refineLe other
  { refined with sign := refined.sign.meet other.sign }

/-! ## Arithmetic -/

/-- The value after adding a constant. A strict bound of `i` is a weak bound of `i + 1`, and a weak
bound of `i` is a strict bound of `i - 1`; larger steps lose the bounds. -/
def increment (v : Variable) (delta : Int) (definedAt : Nat) : Variable :=
  let v := { v with definedAt }
  if delta = 0 then v
  else if delta = 1 then
    { v with
      atMost := v.below
      below := ∅
      sign := if v.sign = .nonNegative then .positive else v.sign }
  else if delta = -1 then
    { v with
      below := v.below ∪ v.atMost
      atMost := ∅
      sign := match v.sign with
        | .positive => .nonNegative
        | .nonNegative => .top
        | sign => sign }
  else if 1 < delta then
    { v.clearBounds with sign := if v.sign = .nonNegative then .positive else v.sign }
  else
    { v.clearBounds with sign := .top }

/-- Adds the bounds of `v` to those of `result` if `v` is not negative. -/
def boundedBy (result v : Variable) : Variable :=
  if v.sign.isNonNegative then
    { result with
      sign := .nonNegative
      below := result.below ∪ v.below
      atMost := result.atMost ∪ v.atMost }
  else result

/-- The result of an arithmetic instruction with two operands.

A quotient keeps the bounds that both operands share. A remainder is moreover less than the divisor.
The bitwise conjunction with a number that is not negative lies between zero and that number, and
shifting such a number to the right does not make it larger. -/
def binary (op : ArithmeticOp) (lhs rhs : Variable) (kind : NumericKind) (definedAt : Nat) :
    Variable :=
  let result := unknown (some kind.type) definedAt
  match op with
  | .add => { result with sign := lhs.sign.add rhs.sign }
  | .mul => { result with sign := lhs.sign.mul rhs.sign }
  | .div =>
    let sign := lhs.sign.div rhs.sign
    if sign = .nonNegative then
      { result with
        sign
        below := lhs.below ∩ rhs.below
        atMost := lhs.atMost ∩ rhs.atMost }
    else { result with sign }
  | .rem =>
    let sign := lhs.sign.div rhs.sign
    if sign = .nonNegative then
      { result with
        sign
        below := (lhs.below ∩ rhs.below) ∪ rhs.below ∪ rhs.atMost
        atMost := lhs.atMost ∩ rhs.atMost }
    else { result with sign }
  | .and => (result.boundedBy lhs).boundedBy rhs
  | .shr | .ushr => result.boundedBy lhs
  | .sub | .neg | .shl | .or | .xor => result

/-- The conversion yields the same number. -/
def isWidening : NumericKind → ConversionTarget → Bool
  | .int, .long | .int, .float | .int, .double => true
  | .long, .float | .long, .double => true
  | .float, .double => true
  | _, _ => false

/-- The conversion of a number that is not negative yields one that is not negative and not
larger. -/
def isTruncating : NumericKind → ConversionTarget → Bool
  | .int, .char => true
  | .float, .int | .float, .long | .double, .int | .double, .long => true
  | .double, .float => true
  | _, _ => false

/-- The result of a numeric conversion. -/
def convert (v : Variable) (source : NumericKind) (target : ConversionTarget) (definedAt : Nat) :
    Variable :=
  let result := { v with type := some target.type, origin := .localValue, slot := none, definedAt }
  if isWidening source target then result
  else if isTruncating source target && v.sign.isNonNegative
    then { result with sign := .nonNegative }
  else if v.sign = .bottom then result
  else { result.clearBounds with sign := .top }

end Variable

end ArrayBounds
