/-! # Hexadecimal text

Byte strings are written as pairs of lowercase hexadecimal digits, and numbers in messages as digits
behind `0x`, padded with zeros to a fixed width.
-/

namespace ArrayBounds.Hex

/-- The digits of a number in base sixteen, with zeros in front up to the given width. -/
def digits (width n : Nat) : String :=
  let plain := Nat.toDigits 16 n
  String.ofList (List.replicate (width - plain.length) '0' ++ plain)

/-- A number as it appears in messages: `0x` and at least `width` digits. -/
def literal (width n : Nat) : String :=
  "0x" ++ digits width n

/-- Two digits for every byte. -/
def encode (bytes : List UInt8) : String :=
  String.ofList (bytes.flatMap fun byte =>
    [Nat.digitChar (byte.toNat / 16), Nat.digitChar (byte.toNat % 16)])

/-- The value of one digit, in either case. -/
def digit? (c : Char) : Option Nat :=
  if c.isDigit then some (c.toNat - '0'.toNat)
  else if 'a' ≤ c && c ≤ 'f' then some (c.toNat - 'a'.toNat + 10)
  else if 'A' ≤ c && c ≤ 'F' then some (c.toNat - 'A'.toNat + 10)
  else none

/-- Reads pairs of digits behind the bytes already read, which are in `read`, last one first. An odd
digit or any other character is refused. -/
def decodeAfter (read : List UInt8) : List Char → Option (List UInt8)
  | [] => some read.reverse
  | [_] => none
  | high :: low :: rest =>
    match digit? high, digit? low with
    | some upper, some lower => decodeAfter (UInt8.ofNat (16 * upper + lower) :: read) rest
    | _, _ => none

/-- The byte string that a text of digit pairs stands for. -/
def decode? (text : String) : Option (List UInt8) :=
  decodeAfter [] text.toList

end ArrayBounds.Hex
