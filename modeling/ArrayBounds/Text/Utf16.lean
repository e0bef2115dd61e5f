/-! # UTF-16

Text as a sequence of 16-bit units. A character outside the basic plane is a pair of surrogates, a
high one followed by a low one; a surrogate without its partner stands for no character.
-/

namespace ArrayBounds.Utf16

def isHighSurrogate (unit : Nat) : Bool :=
  0xD800 ≤ unit && unit < 0xDC00

def isLowSurrogate (unit : Nat) : Bool :=
  0xDC00 ≤ unit && unit < 0xE000

/-- The units of a character. -/
def encodeChar (c : Char) : List Nat :=
  if c.toNat < 0x10000 then [c.toNat]
  else [0xD800 + (c.toNat - 0x10000) / 0x400, 0xDC00 + (c.toNat - 0x10000) % 0x400]

/-- The character of a surrogate pair. -/
def pairChar (high low : Nat) : Char :=
  Char.ofNat (0x10000 + (high - 0xD800) * 0x400 + (low - 0xDC00))

/-- Reads units behind those already read, whose characters are in `read`, last one first. -/
def decodeAfter (read : List Char) : List Nat → Option (List Char)
  | [] => some read.reverse
  | unit :: rest =>
    if isHighSurrogate unit then
      match rest with
      | low :: rest =>
          if isLowSurrogate low then decodeAfter (pairChar unit low :: read) rest else none
      | [] => none
    else if isLowSurrogate unit then none
    else decodeAfter (Char.ofNat unit :: read) rest

/-- The text that a sequence of units stands for; absent if a surrogate has no partner. -/
def decode? (units : List Nat) : Option String :=
  (decodeAfter [] units).map String.ofList

end ArrayBounds.Utf16
