import ArrayBounds.Archive.ExtraField
import ArrayBounds.Text.Utf8

/-! # The directory of an archive

An archive ends in a record that says where its directory is. Other data may precede the archive;
then all places that the archive mentions are too small by the same number, the shift. In a large
archive the numbers do not fit into the record, and a second, wider record holds them; a locator
between the two says where it is.

What looks like an end record may be part of a comment or of another archive. So the candidates are
tried from the last one back, and the first one whose directory can be read is used.
-/

namespace ArrayBounds.Archive

/-! ## Entries -/

/-- Reads the entry at a place of the directory. The second part of the result is the place behind
it. -/
def Entry.at? (data : Array UInt8) (shift place : Nat) : Option (Entry × Nat) := do
  guard ((← number? data place 4) = 0x02014b50)
  let flags ← number? data (place + 8) 2
  let method ← number? data (place + 10) 2
  let checksum ← number? data (place + 16) 4
  let packedSize ← number? data (place + 20) 4
  let size ← number? data (place + 24) 4
  let nameLength ← number? data (place + 28) 2
  let extraLength ← number? data (place + 30) 2
  let commentLength ← number? data (place + 32) 2
  let header ← number? data (place + 42) 4
  let extraPlace := place + 46 + nameLength
  let commentPlace := extraPlace + extraLength
  let rawName ← slice? data (place + 46) nameLength
  let extra ← slice? data extraPlace extraLength
  let rawComment ← slice? data commentPlace commentLength
  let text := if (flags >>> 11) % 2 = 1 then Utf8.decode else legacyText
  let entry ← Entry.withExtra? {
    rawName
    name := text rawName
    comment := text rawComment
    isEncrypted := flags % 2 = 1
    hasCipher := false
    method, checksum, packedSize, size, header } extra
  guard (entry.method ≠ 99 || entry.hasCipher)
  return ({ entry with header := entry.header + shift }, commentPlace + commentLength)

/-- Where the directory is. -/
structure Directory where
  /-- The number of entries. -/
  count : Nat
  /-- The place of the first entry. -/
  start : Nat
  /-- The number of bytes in front of the archive. -/
  shift : Nat
deriving Repr, Inhabited

/-- Reads `count` entries from a place on. The directory has to say of every entry that it stands
before the directory; whether it is there shows when it is opened. -/
def Directory.entriesFrom? (data : Array UInt8) (directory : Directory) :
    (count place : Nat) → Option (List Entry)
  | 0, _ => some []
  | count + 1, place => do
    let (entry, next) ← Entry.at? data directory.shift place
    guard (entry.header < directory.start)
    return entry :: (← directory.entriesFrom? data count next)

/-- Reads the entries of a directory. -/
def Directory.entries? (data : Array UInt8) (directory : Directory) : Option (List Entry) :=
  directory.entriesFrom? data directory.count directory.start

/-! ## End records -/

/-- The record at the end of an archive. -/
structure EndRecord where
  disk : Nat
  /-- The disk on which the directory begins. -/
  directoryDisk : Nat
  /-- The number of entries on this disk. -/
  countHere : Nat
  /-- The number of entries on all disks. -/
  count : Nat
  /-- The place of the directory, without the shift. -/
  offset : Nat
deriving Repr

/-- Reads the end record at a place. The comment in the record has to fit, but other data may
follow. -/
def EndRecord.at? (data : Array UInt8) (place : Nat) : Option EndRecord := do
  guard ((← number? data place 4) = 0x06054b50)
  let commentLength ← number? data (place + 20) 2
  guard (place + 22 + commentLength ≤ data.size)
  return {
    disk := ← number? data (place + 4) 2
    directoryDisk := ← number? data (place + 6) 2
    countHere := ← number? data (place + 8) 2
    count := ← number? data (place + 10) 2
    offset := ← number? data (place + 16) 4 }

/-- The directory of the end record at a place. It starts at the first header of an entry that is
not in front of the place given for it. -/
def EndRecord.directory? (data : Array UInt8) (place : Nat) (record : EndRecord) :
    Option Directory := do
  guard (record.disk = record.directoryDisk)
  if record.count = 0 then
    let shift := place - record.offset
    return { count := record.countHere, start := record.offset + shift, shift }
  else
    let start ← (places record.offset place).find? fun start =>
      number? data start 4 = some 0x02014b50
    return { count := record.countHere, start, shift := start - record.offset }

/-- The record that says where the wide end record is. -/
structure Locator where
  /-- The disk on which the directory begins. -/
  directoryDisk : Nat
  /-- The place of the wide end record, without the shift. -/
  offset : Nat
  /-- The number of disks. -/
  diskCount : Nat
deriving Repr

/-- Reads the locator at a place. -/
def Locator.at? (data : Array UInt8) (place : Nat) : Option Locator := do
  guard ((← number? data place 4) = 0x07064b50)
  return {
    directoryDisk := ← number? data (place + 4) 4
    offset := ← number? data (place + 8) 8
    diskCount := ← number? data (place + 16) 4 }

/-- The end record of a large archive. -/
structure WideEndRecord extends EndRecord where
  /-- The version of the format that the archive was made by. -/
  madeBy : Nat
  /-- The version of the format that is needed. -/
  needed : Nat
deriving Repr

/-- Reads the wide end record at a place. It has to reach up to the locator, agree with it, and
leave room for the directory in front of it. -/
def WideEndRecord.at? (data : Array UInt8) (locatorPlace : Nat) (locator : Locator) (place : Nat) :
    Option WideEndRecord := do
  guard ((← number? data place 4) = 0x06064b50)
  let size ← number? data (place + 4) 8
  guard (44 ≤ size)
  guard (place + 12 + size = locatorPlace)
  let record : WideEndRecord := {
    madeBy := ← number? data (place + 12) 2
    needed := ← number? data (place + 14) 2
    disk := ← number? data (place + 16) 4
    directoryDisk := ← number? data (place + 20) 4
    countHere := ← number? data (place + 24) 8
    count := ← number? data (place + 32) 8
    offset := ← number? data (place + 48) 8 }
  guard (record.directoryDisk = locator.directoryDisk)
  guard (record.count * 46 + record.offset ≤ place)
  return record

/-- The directory of a large archive, given its locator. Of all wide end records that the locator
may mean, the first one counts. -/
def Locator.directory? (data : Array UInt8) (place : Nat) (locator : Locator) :
    Option Directory := do
  guard (locator.diskCount ≤ 1)
  let (record, recordPlace) ← (places locator.offset place).findSome? fun recordPlace =>
    (WideEndRecord.at? data place locator recordPlace).map (·, recordPlace)
  guard (record.countHere ≤ record.count)
  guard (record.needed ≤ record.madeBy)
  guard (record.disk = record.directoryDisk)
  let shift := recordPlace - locator.offset
  return { count := record.count, start := record.offset + shift, shift }

/-- The locator of the wide end record in front of an end record, if the numbers of the end record
ask for one. The second part of the result is the place of the locator. -/
def EndRecord.locator? (data : Array UInt8) (place : Nat) (record : EndRecord) :
    Option (Locator × Nat) := do
  guard (record.count = 0xFFFF || record.offset = 0xFFFFFFFF)
  guard (20 ≤ place)
  return (← Locator.at? data (place - 20), place - 20)

/-- The directory that an end record at a place leads to. -/
def directoryAt? (data : Array UInt8) (place : Nat) : Option Directory := do
  let record ← EndRecord.at? data place
  match record.locator? data place with
  | some (locator, locatorPlace) => locator.directory? data locatorPlace
  | none => record.directory? data place

/-! ## The archive -/

/-- Puts an entry behind the others. An entry of the same name is replaced where it stands. -/
def insertEntry (entries : List Entry) (entry : Entry) : List Entry :=
  if entries.any (·.name == entry.name) then
    entries.map fun old => if old.name == entry.name then entry else old
  else entries ++ [entry]

/-- The entries of an archive; absent if the data is not an archive. -/
def entries? (data : Array UInt8) : Option (List Entry) := do
  let entries ← (places 0 data.size).reverse.findSome? fun place => do
    let directory ← directoryAt? data place
    directory.entries? data
  return entries.foldl insertEntry []

end ArrayBounds.Archive
