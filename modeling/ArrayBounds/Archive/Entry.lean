import ArrayBounds.Archive.Bytes
import ArrayBounds.Archive.Crc32
import ArrayBounds.Archive.Inflate

/-! # Entries of archives

An entry of a zip archive is known by what the directory says of it. Its data stands behind a header
of its own, and is stored as it is or deflated.
-/

namespace ArrayBounds.Archive

/-- The characters from 128 on in the encoding of texts that are not in UTF-8. -/
def upperCharacters : Array Char :=
  ("ÇüéâäàåçêëèïîìÄÅÉæÆôöòûùÿÖÜ¢£¥₧ƒáíóúñÑªº¿⌐¬½¼¡«»" ++
    "░▒▓│┤╡╢╖╕╣║╗╝╜╛┐└┴┬├─┼╞╟╚╔╩╦╠═╬╧╨╤╥╙╘╒╓╫╪┘┌█▄▌▐▀" ++
    "αßΓπΣσµτΦΘΩδ∞φε∩≡±≥≤⌠⌡÷≈°∙·√ⁿ²■ ").toList.toArray

/-- A text in the old encoding. -/
def legacyText (bytes : List UInt8) : String :=
  String.ofList (bytes.map fun byte =>
    if byte.toNat < 128 then Char.ofNat byte.toNat else upperCharacters.getD (byte.toNat - 128) '?')

/-- An entry of the directory. -/
structure Entry where
  /-- The bytes of the name. -/
  rawName : List UInt8
  name : String
  comment : String
  /-- The entry is encrypted. -/
  isEncrypted : Bool
  /-- The entry says how it is encrypted, in a field of its own. -/
  hasCipher : Bool
  /-- Zero for data that is stored, eight for data that is deflated. -/
  method : Nat
  checksum : Nat
  /-- The size of the data in the archive. -/
  packedSize : Nat
  /-- The size of what the entry holds. -/
  size : Nat
  /-- The place of the header in front of the data. -/
  header : Nat
deriving Repr, Inhabited

namespace Entry

/-- The place of the data of an entry; absent if it has no header. -/
def dataPlace? (data : Array UInt8) (entry : Entry) : Option Nat := do
  guard ((← number? data entry.header 4) = 0x04034b50)
  let nameLength ← number? data (entry.header + 26) 2
  let extraLength ← number? data (entry.header + 28) 2
  return entry.header + 30 + nameLength + extraLength

/-- The data of an entry as it stands in the archive; absent if the entry cannot be opened. -/
def open? (data : Array UInt8) (entry : Entry) : Option (List UInt8) := do
  guard (!entry.isEncrypted && !entry.hasCipher && (entry.method = 0 || entry.method = 8))
  let place ← entry.dataPlace? data
  return (data.extract place (place + entry.packedSize)).toList

/-- What an entry holds, given its data in the archive; absent if the data is damaged. -/
def contents? (entry : Entry) (packed : List UInt8) : Option (List UInt8) := do
  let contents ← if entry.method = 0 then some packed else Inflate.inflate? packed
  guard ((Crc32.checksum contents).toNat = entry.checksum)
  return contents

end Entry

end ArrayBounds.Archive
