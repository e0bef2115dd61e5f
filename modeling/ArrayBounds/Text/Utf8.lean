/-! # UTF-8 of any bytes

Decoding of byte strings that need not be UTF-8. Where the bytes begin a character that they do not
complete, or begin none at all, the replacement character stands for them.
-/

namespace ArrayBounds.Utf8

/-- The character that stands for bytes which are not UTF-8. -/
def replacement : Char :=
  Char.ofNat 0xFFFD

/-- A character of which some bytes are missing. -/
structure Unfinished where
  /-- The bits read so far. -/
  code : Nat
  /-- The least value of the next byte. -/
  low : Nat
  /-- The greatest value of the next byte. -/
  high : Nat
  /-- The number of bytes behind the next one. -/
  remaining : Nat
deriving Repr

/-- The character that a byte begins, if it takes several bytes. The bounds of the second byte leave
out longer forms of characters that have a shorter one, surrogates, and numbers that are too
large. -/
def unfinished? (byte : Nat) : Option Unfinished :=
  if 0xC2 ≤ byte ∧ byte ≤ 0xDF then some ⟨byte - 0xC0, 0x80, 0xBF, 0⟩
  else if 0xE0 ≤ byte ∧ byte ≤ 0xEF then
    some ⟨byte - 0xE0, if byte = 0xE0 then 0xA0 else 0x80, if byte = 0xED then 0x9F else 0xBF, 1⟩
  else if 0xF0 ≤ byte ∧ byte ≤ 0xF4 then
    some ⟨byte - 0xF0, if byte = 0xF0 then 0x90 else 0x80, if byte = 0xF4 then 0x8F else 0xBF, 2⟩
  else none

/-- What a byte gives at the start of a character: characters that are complete, and one that is
not. -/
def start (byte : UInt8) : List Char × Option Unfinished :=
  if byte.toNat < 0x80 then ([Char.ofNat byte.toNat], none)
  else
    match unfinished? byte.toNat with
    | some character => ([], some character)
    | none => ([replacement], none)

/-- The characters of a byte string behind an unfinished character. -/
def charactersAfter : Option Unfinished → List UInt8 → List Char
  | none, [] => []
  | some _, [] => [replacement]
  | none, byte :: rest =>
    let (characters, unfinished) := start byte
    characters ++ charactersAfter unfinished rest
  | some character, byte :: rest =>
    if character.low ≤ byte.toNat ∧ byte.toNat ≤ character.high then
      let code := character.code * 0x40 + byte.toNat % 0x40
      match character.remaining with
      | 0 => Char.ofNat code :: charactersAfter none rest
      | remaining + 1 => charactersAfter (some ⟨code, 0x80, 0xBF, remaining⟩) rest
    else
      let (characters, unfinished) := start byte
      replacement :: characters ++ charactersAfter unfinished rest

/-- The text of a byte string. -/
def decode (bytes : List UInt8) : String :=
  String.ofList (charactersAfter none bytes)

end ArrayBounds.Utf8
