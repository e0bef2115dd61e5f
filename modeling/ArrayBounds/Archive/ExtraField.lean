import ArrayBounds.Archive.Entry

/-! # Extra fields

The directory has room for extra data with every entry: a sequence of fields, each with its kind and
its length. Some of them correct what the directory says elsewhere, namely numbers that did not fit,
and texts. Fields of unknown kinds are passed over. If the extra data ends inside a field, what was
read before counts; if a known field is not of its form, the directory cannot be read.
-/

namespace ArrayBounds.Archive

namespace ExtraField

/-- Why extra data is not read to its end. -/
inductive Stop where
  /-- The data ends inside a field. -/
  | ends
  /-- A field is not of its form. -/
  | malformed
deriving Repr, DecidableEq

/-- An entry, corrected by the fields read so far, and the data behind them. -/
structure State where
  entry : Entry
  rest : List UInt8
deriving Repr

/-- A reader of extra data. -/
abbrev Reader := EStateM Stop State

/-- Reads `count` bytes. -/
def bytes (count : Nat) : Reader (List UInt8) := do
  let state ← get
  if state.rest.length < count then throw .ends
  else
    set { state with rest := state.rest.drop count }
    return state.rest.take count

/-- Reads a number of `count` bytes. -/
def number (count : Nat) : Reader Nat :=
  return littleEndian (← bytes count)

/-- Passes over `count` bytes. -/
def skip (count : Nat) : Reader Unit := do
  let _ ← bytes count

/-- Refuses a field that is not of its form. -/
def require (condition : Bool) : Reader Unit :=
  if condition then return () else throw .malformed

/-- Changes the entry. -/
def correct (change : Entry → Entry) : Reader Unit :=
  modify fun state => { state with entry := change state.entry }

/-- Reads a number of eight bytes for one that did not fit, or in any case if all numbers are
present. Gives the number of bytes read. -/
def wideNumber (isPresent : Bool) (narrow : Entry → Nat) (change : Nat → Entry → Entry) :
    Reader Nat := do
  if isPresent || narrow (← get).entry = 0xFFFFFFFF then
    correct (change (← number 8))
    return 8
  else return 0

/-- Reads the numbers that did not fit. -/
def wideNumbers (length : Nat) : Reader Unit := do
  let isPresent := 24 ≤ length
  let first ← wideNumber isPresent Entry.size fun value entry => { entry with size := value }
  let second ← wideNumber isPresent Entry.packedSize fun value entry =>
    { entry with packedSize := value }
  let third ← wideNumber isPresent Entry.header fun value entry => { entry with header := value }
  let used := first + second + third
  require (used ≤ length)
  skip (length - used)

/-- Reads three times of eight bytes. -/
def longTimes (length : Nat) : Reader Unit := do
  require (length = 32)
  skip 4
  require ((← number 2) = 1)
  require ((← number 2) = 24)
  skip 24

/-- Reads times of four bytes: of change, of access and of creation. A set of bits says which of
them are present. In a field of five bytes it is the time of change, whatever the bits say. -/
def shortTimes (length : Nat) : Reader Unit := do
  let flags ← number 1
  let has (bit : Nat) : Bool := (flags >>> bit) % 2 = 1
  let count := ((List.range 8).filter has).length
  require (length = 5 || length = 1 + 4 * count)
  if has 0 || length = 5 then skip 4
  if has 1 && 5 < length then skip 4
  if has 2 && 5 < length then skip 4

/-- Reads a text in UTF-8 that takes the place of another one, whose checksum it carries. -/
def unicodeText (length : Nat) (old : List UInt8) : Reader (List UInt8 × String) := do
  skip 1
  let checksum ← number 4
  require (5 ≤ length)
  let content ← bytes (length - 5)
  require ((Crc32.checksum old).toNat = checksum)
  match String.fromUTF8? ⟨content.toArray⟩ with
  | some text => return (content, text)
  | none => throw .malformed

/-- Reads how an entry is encrypted, and which method its data has apart from that. -/
def cipher (length : Nat) : Reader Unit := do
  require (length = 7)
  let version ← number 2
  let vendor ← number 2
  let strength ← number 1
  let method ← number 2
  require (vendor = 0x4541 && (version = 1 || version = 2) && (1 ≤ strength && strength ≤ 3))
  correct fun entry => { entry with method, hasCipher := true }

/-- Reads one field. -/
def field : Reader Unit := do
  let kind ← number 2
  let length ← number 2
  match kind with
  | 0x0001 => wideNumbers length
  | 0x000A => longTimes length
  | 0x5455 => shortTimes length
  | 0x6375 => do
    let (_, text) ← unicodeText length (← get).entry.comment.toUTF8.toList
    correct fun entry => { entry with comment := text }
  | 0x7075 => do
    let (content, text) ← unicodeText length (← get).entry.rawName
    correct fun entry => { entry with rawName := content, name := text }
  | 0x9901 => cipher length
  | _ => skip length

/-- Reads fields up to the end of the data, at most `bound` of them. -/
def fields : (bound : Nat) → Reader Unit
  | 0 => return ()
  | bound + 1 => do
    if (← get).rest.isEmpty then return ()
    else
      field
      fields bound

end ExtraField

/-- The entry that extra data makes of an entry; absent if a field is not of its form. -/
def Entry.withExtra? (entry : Entry) (extra : List UInt8) : Option Entry :=
  match (ExtraField.fields extra.length).run { entry, rest := extra } with
  | .ok _ state => some state.entry
  | .error .ends state => some state.entry
  | .error .malformed _ => none

end ArrayBounds.Archive
