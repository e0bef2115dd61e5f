/-! # Signs

A sign says what is known about a single number: that it is positive, that it is not negative, or
nothing. The signs form a chain

`bottom < positive < nonNegative < top`

in which `bottom` stands for a value that no execution produces. On a chain the join and the meet of
two signs are always one of the two, and no sign can grow more than three times.
-/

namespace ArrayBounds

/-- What is known about a number. -/
inductive Sign where
  | bottom
  | positive
  | nonNegative
  | top
deriving DecidableEq, Repr, Inhabited

namespace Sign

/-- The position of a sign in the chain. -/
def rank : Sign → Nat
  | bottom => 0
  | positive => 1
  | nonNegative => 2
  | top => 3

/-- A sign is below another if it knows at least as much. -/
instance : LE Sign := ⟨fun a b => a.rank ≤ b.rank⟩

instance : LT Sign := ⟨fun a b => a.rank < b.rank⟩

instance (a b : Sign) : Decidable (a ≤ b) := inferInstanceAs (Decidable (a.rank ≤ b.rank))

instance (a b : Sign) : Decidable (a < b) := inferInstanceAs (Decidable (a.rank < b.rank))

/-- What is known of a number that satisfies one of two signs. -/
def join (a b : Sign) : Sign :=
  if b ≤ a then a else b

/-- What is known of a number that satisfies both of two signs. -/
def meet (a b : Sign) : Sign :=
  if b ≤ a then b else a

/-- The sign rules out negative numbers and is not `bottom`. -/
def isNonNegative : Sign → Bool
  | positive | nonNegative => true
  | bottom | top => false

/-- The sign of a known integer. -/
def ofInt (value : Int) : Sign :=
  if 0 < value then positive else if value = 0 then nonNegative else top

/-- The sign of a known double precision number, given by its bits. Both zeros are not negative;
negative numbers and the bit patterns that are not numbers have sign `top`. -/
def ofDoubleBits (bits : UInt64) : Sign :=
  if bits = 0 ∨ bits = 0x8000000000000000 then nonNegative
  else if bits ≤ 0x7FF0000000000000 then positive
  else top

/-- The sign of a known single precision number, given by its bits. -/
def ofFloatBits (bits : UInt32) : Sign :=
  if bits = 0 ∨ bits = 0x80000000 then nonNegative
  else if bits ≤ 0x7F800000 then positive
  else top

/-- The sign of a sum. -/
def add : Sign → Sign → Sign
  | nonNegative, nonNegative => nonNegative
  | a, b => if a.isNonNegative && b.isNonNegative then positive else top

/-- The sign of a product. -/
def mul : Sign → Sign → Sign
  | positive, positive => positive
  | a, b => if a.isNonNegative && b.isNonNegative then nonNegative else top

/-- The sign of a quotient or a remainder. -/
def div : Sign → Sign → Sign
  | top, _ | _, top => top
  | _, _ => nonNegative

/-- The symbol of a sign in messages. -/
def symbol : Sign → String
  | bottom => "⊥"
  | positive => ">0"
  | nonNegative => ">=0"
  | top => "⊤"

end Sign

end ArrayBounds
