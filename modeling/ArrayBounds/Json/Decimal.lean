import ArrayBounds.Json.Basic

/-! # Decimal numbers in binary floating point

A number is read in two steps. Its digits make up a significand of at most 64 bits and a power of
ten; digits that do not fit are dropped. Then the significand is scaled by the power of ten, in
double precision. Numbers too large for double precision are refused, and numbers too small become
zero.
-/

namespace ArrayBounds.Json

/-- A significand with a power of ten. -/
structure Decimal where
  significand : Nat := 0
  exponent : Int := 0
deriving DecidableEq, Repr, Inhabited

namespace Decimal

/-- The significand with one more digit, if it still fits into 64 bits. -/
def pushDigit? (significand : Nat) (digit : Char) : Option Nat :=
  let next := 10 * significand + (digit.toNat - '0'.toNat)
  if next ≤ 0xFFFFFFFFFFFFFFFF then some next else none

/-- Reads digits before the point. Once a digit does not fit, all further digits only count. -/
def pushWhole (d : Decimal) : List Char → Decimal
  | [] => d
  | digit :: rest =>
    match pushDigit? d.significand digit with
    | some significand => pushWhole { d with significand } rest
    | none => { d with exponent := d.exponent + (rest.length + 1) }

/-- Reads digits behind the point. Once a digit does not fit, all further digits are dropped. -/
def pushFraction (d : Decimal) : List Char → Decimal
  | [] => d
  | digit :: rest =>
    match pushDigit? d.significand digit with
    | some significand => pushFraction { significand, exponent := d.exponent - 1 } rest
    | none => d

/-- Divides by a power of ten, in steps that are themselves representable. -/
def scaleDown (value : Float) (power : Nat) : Float :=
  if power ≤ 308 then value / Float.ofScientific 1 false power
  else if value == 0 then value
  else scaleDown (value / Float.ofScientific 1 false 308) (power - 308)
termination_by power

/-- The value in double precision, unless it is too large. -/
def toFloat? (d : Decimal) : Option Float :=
  let value := (UInt64.ofNat d.significand).toFloat
  match d.exponent with
  | .ofNat power =>
    if power ≤ 308 then
      let scaled := value * Float.ofScientific 1 false power
      if scaled.isInf then none else some scaled
    else if value == 0 then some value
    else none
  | .negSucc power => some (scaleDown value (power + 1))

end Decimal

namespace Number

/-- The magnitude of the number in double precision. An exponent that does not fit into 32 bits
makes the number zero or too large. -/
def magnitude? (n : Number) : Option Float :=
  let decimal := (Decimal.pushWhole {} n.whole).pushFraction n.fraction
  match n.exponent with
  | none => decimal.toFloat?
  | some (negative, digits) =>
    let power := natOfDigits digits
    if 0x80000000 ≤ power then
      if decimal.significand = 0 || negative then some 0 else none
    else
      let exponent := if negative then decimal.exponent - power else decimal.exponent + power
      ({ decimal with exponent } : Decimal).toFloat?

/-- The bits of the number in double precision. -/
def doubleBits? (n : Number) : Option UInt64 :=
  n.magnitude?.map fun value => (if n.negative then -value else value).toBits

/-- The bits of the number in single precision. Integers are rounded once; other numbers are rounded
to double precision first. -/
def floatBits? (n : Number) : Option UInt32 :=
  match n.toInt? with
  | some (.ofNat value) => some (UInt64.ofNat value).toFloat32.toBits
  | some (.negSucc value) => some (-(UInt64.ofNat (value + 1)).toFloat32).toBits
  | none =>
    n.magnitude?.map fun value => (if n.negative then -value else value).toFloat32.toBits

end Number

end ArrayBounds.Json
