/-! # JSON values

A value keeps what its text said: numbers keep their digits, objects keep their members in order and
with repetitions. A string literal may contain an escape for half of a surrogate pair; such a
literal is well-formed but stands for no text, and its text is absent.
-/

namespace ArrayBounds

namespace Json

/-- A number as it is written. -/
structure Number where
  negative : Bool := false
  /-- The digits before the point. -/
  whole : List Char
  /-- The digits behind the point; empty if there is no point. -/
  fraction : List Char := []
  /-- The sign of the exponent (true if negative) and its digits. -/
  exponent : Option (Bool × List Char) := none
deriving DecidableEq, Repr, Inhabited

/-- The text of a string literal; absent if an escape names half of a surrogate pair on its own. -/
abbrev Literal := Option String

end Json

/-- A JSON value. -/
inductive Json where
  | null
  | bool (value : Bool)
  | number (value : Json.Number)
  | string (text : Json.Literal)
  | array (items : List Json)
  | object (members : List (Json.Literal × Json))
deriving Inhabited

namespace Json

/-- The number that a list of decimal digits stands for. -/
def natOfDigits (digits : List Char) : Nat :=
  digits.foldl (fun n c => 10 * n + (c.toNat - '0'.toNat)) 0

namespace Number

/-- The number is written without point and exponent. -/
def isIntegral (n : Number) : Bool :=
  n.fraction.isEmpty && n.exponent.isNone

def ofNat (n : Nat) : Number :=
  { whole := Nat.toDigits 10 n }

def ofInt (n : Int) : Number :=
  { negative := decide (n < 0), whole := Nat.toDigits 10 n.natAbs }

/-- The integer that the number denotes. Only numbers without point and exponent denote integers,
and only those that fit into 64 bits, unsigned or signed. A zero with a minus sign is not an
integer. -/
def toInt? (n : Number) : Option Int :=
  let magnitude := natOfDigits n.whole
  if !n.isIntegral then none
  else if n.negative then
    if magnitude = 0 ∨ 0x8000000000000000 < magnitude then none else some (-magnitude)
  else if magnitude ≤ 0xFFFFFFFFFFFFFFFF then some magnitude
  else none

end Number

def ofNat (n : Nat) : Json :=
  number (.ofNat n)

def ofInt (n : Int) : Json :=
  number (.ofInt n)

def ofString (text : String) : Json :=
  string (some text)

/-- An object with the given members. -/
def ofMembers (members : List (String × Json)) : Json :=
  object (members.map fun (name, value) => (some name, value))

/-- The first member of an object with the given name. -/
def member? (name : String) : Json → Option Json
  | object members => members.lookup (some name)
  | _ => none

end Json

end ArrayBounds
