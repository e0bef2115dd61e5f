import ArrayBounds.Text.Utf16

/-! # Modified UTF-8

The text encoding of class files. Every 16-bit unit of the text is encoded on its own, in one, two
or three bytes, so a character outside the basic plane takes six bytes. The unit zero takes two
bytes, so that no byte of an encoded text is zero.
-/

namespace ArrayBounds.ModifiedUtf8

/-- The low six bits of a continuation byte. -/
def continuation? (byte : UInt8) : Option Nat :=
  if 0x80 ≤ byte.toNat ∧ byte.toNat < 0xC0 then some (byte.toNat - 0x80) else none

/-- Reads units behind those already read, which are in `read`, last one first. -/
def unitsAfter (read : List Nat) : List UInt8 → Option (List Nat)
  | [] => some read.reverse
  | a :: rest =>
    if 0x01 ≤ a.toNat ∧ a.toNat < 0x80 then unitsAfter (a.toNat :: read) rest
    else if 0xC0 ≤ a.toNat ∧ a.toNat < 0xE0 then
      match rest with
      | b :: rest =>
        match continuation? b with
        | some low => unitsAfter (((a.toNat - 0xC0) * 0x40 + low) :: read) rest
        | none => none
      | [] => none
    else if 0xE0 ≤ a.toNat ∧ a.toNat < 0xF0 then
      match rest with
      | b :: c :: rest =>
        match continuation? b, continuation? c with
        | some middle, some low =>
          unitsAfter ((((a.toNat - 0xE0) * 0x40 + middle) * 0x40 + low) :: read) rest
        | _, _ => none
      | _ => none
    else none

/-- The text that a byte string encodes. -/
def decode? (bytes : List UInt8) : Option String :=
  (unitsAfter [] bytes).bind Utf16.decode?

/-- The bytes of one unit. -/
def encodeUnit (unit : Nat) : List UInt8 :=
  if 0x01 ≤ unit ∧ unit < 0x80 then [UInt8.ofNat unit]
  else if unit < 0x800 then [UInt8.ofNat (0xC0 + unit / 0x40), UInt8.ofNat (0x80 + unit % 0x40)]
  else
    [UInt8.ofNat (0xE0 + unit / 0x1000), UInt8.ofNat (0x80 + unit / 0x40 % 0x40),
      UInt8.ofNat (0x80 + unit % 0x40)]

/-- The encoding of a text. -/
def encode (text : String) : List UInt8 :=
  (text.toList.flatMap Utf16.encodeChar).flatMap encodeUnit

end ArrayBounds.ModifiedUtf8
