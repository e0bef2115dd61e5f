import ArrayBounds.Json.Basic
import ArrayBounds.Text.Hex

/-! # Writing JSON text

`Json.compact` writes a value on one line without blanks. `Json.pretty` puts every item and member
on a line of its own, indented by two blanks per level.
-/

namespace ArrayBounds.Json

/-- A character inside a string literal. Quotes, backslashes and control characters are escaped. -/
def escapeChar (c : Char) : String :=
  if c = '"' then "\\\""
  else if c = '\\' then "\\\\"
  else if c = '\x08' then "\\b"
  else if c = '\x0c' then "\\f"
  else if c = '\n' then "\\n"
  else if c = '\r' then "\\r"
  else if c = '\t' then "\\t"
  else if c.toNat < 0x20 then "\\u" ++ Hex.digits 4 c.toNat
  else c.toString

/-- A string literal. A literal without text is written as the empty string. -/
def quote (text : Literal) : String :=
  "\"" ++ String.join ((text.getD "").toList.map escapeChar) ++ "\""

namespace Number

/-- The number as it was written. -/
def text (n : Number) : String :=
  (if n.negative then "-" else "") ++ String.ofList n.whole ++
    (if n.fraction.isEmpty then "" else "." ++ String.ofList n.fraction) ++
    match n.exponent with
    | none => ""
    | some (negative, digits) => "e" ++ (if negative then "-" else "") ++ String.ofList digits

end Number

mutual

/-- A value on one line. -/
def compact : Json → String
  | null => "null"
  | bool value => if value then "true" else "false"
  | number value => value.text
  | string text => quote text
  | array items => "[" ++ ",".intercalate (compactItems items) ++ "]"
  | object members => "\x7b" ++ ",".intercalate (compactMembers members) ++ "\x7d"

def compactItems : List Json → List String
  | [] => []
  | item :: rest => compact item :: compactItems rest

def compactMembers : List (Literal × Json) → List String
  | [] => []
  | (name, value) :: rest => (quote name ++ ":" ++ compact value) :: compactMembers rest

end

/-- The start of a line at the given level. -/
def newline (level : Nat) : String :=
  "\n" ++ "".pushn ' ' (2 * level)

/-- Lines between brackets. -/
def bracketed (level : Nat) (opening closing : String) (lines : List String) : String :=
  if lines.isEmpty then opening ++ closing
  else
    opening ++ newline (level + 1) ++ ("," ++ newline (level + 1)).intercalate lines ++
      newline level ++ closing

mutual

/-- A value over several lines, for a place at the given level. -/
def prettyAt (level : Nat) : Json → String
  | null => "null"
  | bool value => if value then "true" else "false"
  | number value => value.text
  | string text => quote text
  | array items => bracketed level "[" "]" (prettyItems (level + 1) items)
  | object members => bracketed level "\x7b" "\x7d" (prettyMembers (level + 1) members)

def prettyItems (level : Nat) : List Json → List String
  | [] => []
  | item :: rest => prettyAt level item :: prettyItems level rest

def prettyMembers (level : Nat) : List (Literal × Json) → List String
  | [] => []
  | (name, value) :: rest =>
      (quote name ++ ": " ++ prettyAt level value) :: prettyMembers level rest

end

/-- A value over several lines. -/
def pretty (value : Json) : String :=
  prettyAt 0 value

end ArrayBounds.Json
