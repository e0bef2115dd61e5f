import ArrayBounds.Json.Basic

/-! # Records and variants as JSON

A record is written as an object, or as an array of its fields in order. Fields without a meaning
are ignored, but no field may be given twice. A variant is written as an object with one member,
whose name is that of the variant and whose value is what the variant carries; a variant that
carries nothing is written as its name alone, or with the value `null`.
-/

namespace ArrayBounds.Json

/-- The value of a field that may be missing. More than one value is an error. -/
def uniqueMember? (members : List (Literal × Json)) (name : String) : Option (Option Json) :=
  match members.filter (·.1 == some name) with
  | [] => some none
  | [(_, value)] => some (some value)
  | _ => none

/-- The values of the named fields of a record, in order; absent for a field that is missing. -/
def fields? (names : List String) : Json → Option (List (Option Json))
  | object members =>
    if members.all (·.1.isSome) then names.mapM (uniqueMember? members) else none
  | array items =>
    if items.length ≤ names.length then
      some (items.map some ++ List.replicate (names.length - items.length) none)
    else none
  | _ => none

/-- The name of a variant and what it carries. -/
def variant? : Json → Option (String × Option Json)
  | string (some name) => some (name, none)
  | object [(some name, value)] => some (name, some value)
  | _ => none

/-- A variant that carries nothing carries `null` at most. -/
def carriesNothing : Option Json → Bool
  | none | some null => true
  | _ => false

/-- Reads a variant that carries nothing, out of a list of all of them. -/
def named? {α : Type} (all : List α) (name : α → String) (json : Json) : Option α := do
  let (found, payload) ← variant? json
  guard (carriesNothing payload)
  all.find? (name · == found)

/-- Reads an optional value. -/
def nullable? {α : Type} (read : Json → Option α) : Json → Option (Option α)
  | null => some none
  | json => some <$> read json

/-- Reads a list. -/
def items? {α : Type} (read : Json → Option α) : Json → Option (List α)
  | array items => items.mapM read
  | _ => none

def text? : Json → Option String
  | string text => text
  | _ => none

def bool? : Json → Option Bool
  | bool value => some value
  | _ => none

/-- Reads an integer from the given range. -/
def intBetween? (low high : Int) : Json → Option Int
  | number value => do
    let n ← value.toInt?
    guard (low ≤ n ∧ n ≤ high)
    return n
  | _ => none

def u8? (json : Json) : Option UInt8 :=
  (intBetween? 0 0xFF json).map fun n => UInt8.ofNat n.toNat

def u16? (json : Json) : Option UInt16 :=
  (intBetween? 0 0xFFFF json).map fun n => UInt16.ofNat n.toNat

def u32? (json : Json) : Option UInt32 :=
  (intBetween? 0 0xFFFFFFFF json).map fun n => UInt32.ofNat n.toNat

/-- Reads a number that fits into 64 bits without sign. -/
def nat? (json : Json) : Option Nat :=
  (intBetween? 0 0xFFFFFFFFFFFFFFFF json).map Int.toNat

def i16? (json : Json) : Option Int16 :=
  (intBetween? (-0x8000) 0x7FFF json).map Int16.ofInt

def i32? (json : Json) : Option Int32 :=
  (intBetween? (-0x80000000) 0x7FFFFFFF json).map Int32.ofInt

def i64? (json : Json) : Option Int64 :=
  (intBetween? (-0x8000000000000000) 0x7FFFFFFFFFFFFFFF json).map Int64.ofInt

/-- A variant with its payload. -/
def tagged (name : String) (payload : Json) : Json :=
  ofMembers [(name, payload)]

/-- A variant whose payload is a record. -/
def taggedRecord (name : String) (fields : List (String × Json)) : Json :=
  tagged name (ofMembers fields)

/-- An optional value. -/
def ofOption (value : Option Json) : Json :=
  value.getD null

end ArrayBounds.Json
