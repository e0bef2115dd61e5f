import ArrayBounds.Json.Token

/-! # Reading JSON text

Values are put together from tokens one at a time. The containers that are still open wait on a
stack, so nesting may be arbitrarily deep.
-/

namespace ArrayBounds.Json

/-- A container that is still open. Its finished items are listed last one first. -/
inductive Partial where
  | array (items : List Json)
  | object (members : List (Literal × Json))
  /-- An object in which the value of a member is being read. -/
  | member (members : List (Literal × Json)) (name : Literal)
deriving Inhabited

/-- What may come next. -/
inductive Expectation where
  | value
  /-- The first item of an array, or its end. -/
  | itemOrEnd
  /-- The name of a member. -/
  | name
  /-- The name of the first member of an object, or its end. -/
  | nameOrEnd
  | colon
  /-- A value is complete. -/
  | done (value : Json)
deriving Inhabited

/-- A parser between two tokens. -/
structure Parser where
  expect : Expectation := .value
  /-- The open containers, innermost first. -/
  stack : List Partial := []
deriving Inhabited

namespace Parser

/-- The value that consists of a single token. -/
def scalar? : Token → Option Json
  | .null => some .null
  | .bool value => some (.bool value)
  | .number value => some (.number value)
  | .string text => some (.string text)
  | _ => none

/-- Starts a value. -/
def start (stack : List Partial) : Token → Option Parser
  | .openArray => some { expect := .itemOrEnd, stack := .array [] :: stack }
  | .openObject => some { expect := .nameOrEnd, stack := .object [] :: stack }
  | token => (scalar? token).map fun value => { expect := .done value, stack }

/-- Reads the name of a member of the innermost object. -/
def readName : List Partial → Token → Option Parser
  | .object members :: stack, .string name =>
    some { expect := .colon, stack := .member members name :: stack }
  | _, _ => none

/-- Goes on behind a complete value: the innermost container takes it, and may end. -/
def resume (value : Json) : List Partial → Token → Option Parser
  | .array items :: stack, .comma =>
      some { expect := .value, stack := .array (value :: items) :: stack }
  | .array items :: stack, .closeArray =>
    some { expect := .done (.array (value :: items).reverse), stack }
  | .member members name :: stack, .comma =>
    some { expect := .name, stack := .object ((name, value) :: members) :: stack }
  | .member members name :: stack, .closeObject =>
    some { expect := .done (.object ((name, value) :: members).reverse), stack }
  | _, _ => none

/-- Takes one token. -/
def step (parser : Parser) (token : Token) : Option Parser :=
  match parser.expect with
  | .value => start parser.stack token
  | .itemOrEnd =>
    match token, parser.stack with
    | .closeArray, .array [] :: stack => some { expect := .done (.array []), stack }
    | _, stack => start stack token
  | .name => readName parser.stack token
  | .nameOrEnd =>
    match token, parser.stack with
    | .closeObject, .object [] :: stack => some { expect := .done (.object []), stack }
    | _, stack => readName stack token
  | .colon =>
    match token with
    | .colon => some { parser with expect := .value }
    | _ => none
  | .done value => resume value parser.stack token

/-- The value read, if the text may end here. -/
def finish? (parser : Parser) : Option Json :=
  match parser.expect, parser.stack with
  | .done value, [] => some value
  | _, _ => none

end Parser

/-- The value that a sequence of tokens spells. -/
def ofTokens? (tokens : List Token) : Option Json :=
  (tokens.foldlM Parser.step {}).bind Parser.finish?

/-- Reads a complete JSON text. -/
def parse? (text : String) : Option Json :=
  (tokenize #[] text.toList).bind ofTokens?

end ArrayBounds.Json
