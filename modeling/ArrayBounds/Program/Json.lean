import ArrayBounds.Json.Decimal
import ArrayBounds.Json.Record
import ArrayBounds.Program.Basic

/-! # Classes as JSON

Classes, methods and instructions are records and variants (`ArrayBounds.Json.Record`). Their names
are written in lower case, with underscores between words. `ClassDef.toJson` writes a class and
`ClassDef.ofJson?` reads it back, unless the class contains floating point constants: they are read
as numbers but written as their bits.

Values may be nested 127 levels deep. Only types can be nested without bound, so only reading a type
has to keep count.
-/

namespace ArrayBounds

open Json

/-! ## Types -/

namespace FieldType

/-- The name of a type in JSON, the details of class and array types left out. -/
def jsonName : FieldType → String
  | byte => "byte"
  | char => "char"
  | double => "double"
  | float => "float"
  | int => "int"
  | long => "long"
  | short => "short"
  | boolean => "boolean"
  | object _ => "object"
  | array _ => "array"

/-- The primitive type with the given name. -/
def ofJsonName? (name : String) : Option FieldType :=
  [byte, char, double, float, int, long, short, boolean].find? (·.jsonName == name)

def toJson : FieldType → Json
  | object name => tagged "object" (Json.ofString name)
  | array element => tagged "array" element.toJson
  | type => Json.ofString type.jsonName

/-- Reads a type from a value in which at most `room` objects may be nested. -/
def ofJson? : (room : Nat) → Json → Option FieldType
  | 0, json => (text? json).bind ofJsonName?
  | room + 1, json =>
    match variant? json with
    | some (name, none) => ofJsonName? name
    | some ("object", some payload) => object <$> text? payload
    | some ("array", some payload) => array <$> ofJson? room payload
    | some (name, some .null) => ofJsonName? name
    | _ => none

end FieldType

namespace Program

/-! ## Kinds and operations -/

namespace ValueKind

def jsonName : ValueKind → String
  | int => "int"
  | long => "long"
  | float => "float"
  | double => "double"
  | reference => "reference"

def toJson (kind : ValueKind) : Json :=
  Json.ofString kind.jsonName

def ofJson? : Json → Option ValueKind :=
  named? [int, long, float, double, reference] jsonName

end ValueKind

namespace NumericKind

def jsonName : NumericKind → String
  | int => "int"
  | long => "long"
  | float => "float"
  | double => "double"

def toJson (kind : NumericKind) : Json :=
  Json.ofString kind.jsonName

def ofJson? : Json → Option NumericKind :=
  named? [int, long, float, double] jsonName

end NumericKind

namespace ElementKind

def jsonName : ElementKind → String
  | int => "int"
  | long => "long"
  | float => "float"
  | double => "double"
  | reference => "reference"
  | byte => "byte"
  | char => "char"
  | short => "short"

def toJson (kind : ElementKind) : Json :=
  Json.ofString kind.jsonName

def ofJson? : Json → Option ElementKind :=
  named? [int, long, float, double, reference, byte, char, short] jsonName

end ElementKind

namespace ConversionTarget

def jsonName : ConversionTarget → String
  | int => "int"
  | long => "long"
  | float => "float"
  | double => "double"
  | byte => "byte"
  | char => "char"
  | short => "short"

def toJson (target : ConversionTarget) : Json :=
  Json.ofString target.jsonName

def ofJson? : Json → Option ConversionTarget :=
  named? [int, long, float, double, byte, char, short] jsonName

end ConversionTarget

namespace ArithmeticOp

def jsonName : ArithmeticOp → String
  | add => "add"
  | sub => "sub"
  | mul => "mul"
  | div => "div"
  | rem => "rem"
  | neg => "neg"
  | shl => "shl"
  | shr => "shr"
  | ushr => "ushr"
  | and => "and"
  | or => "or"
  | xor => "xor"

def toJson (op : ArithmeticOp) : Json :=
  Json.ofString op.jsonName

def ofJson? : Json → Option ArithmeticOp :=
  named? [add, sub, mul, div, rem, neg, shl, shr, ushr, and, or, xor] jsonName

end ArithmeticOp

namespace StackOp

def jsonName : StackOp → String
  | pop => "pop"
  | pop2 => "pop2"
  | dup => "dup"
  | dupX1 => "dup_x1"
  | dupX2 => "dup_x2"
  | dup2 => "dup2"
  | dup2X1 => "dup2_x1"
  | dup2X2 => "dup2_x2"
  | swap => "swap"

def toJson (op : StackOp) : Json :=
  Json.ofString op.jsonName

def ofJson? : Json → Option StackOp :=
  named? [pop, pop2, dup, dupX1, dupX2, dup2, dup2X1, dup2X2, swap] jsonName

end StackOp

namespace Comparison

def jsonName : Comparison → String
  | eq => "eq"
  | ne => "ne"
  | lt => "lt"
  | ge => "ge"
  | gt => "gt"
  | le => "le"

def toJson (comparison : Comparison) : Json :=
  Json.ofString comparison.jsonName

def ofJson? : Json → Option Comparison :=
  named? [eq, ne, lt, ge, gt, le] jsonName

end Comparison

namespace InvokeKind

def jsonName : InvokeKind → String
  | virtual => "virtual"
  | special => "special"
  | static => "static"
  | interface => "interface"

def toJson (kind : InvokeKind) : Json :=
  Json.ofString kind.jsonName

def ofJson? : Json → Option InvokeKind :=
  named? [virtual, special, static, interface] jsonName

end InvokeKind

/-! ## Conditions and constants -/

namespace Condition

def toJson : Condition → Json
  | zero comparison => tagged "zero" comparison.toJson
  | ints comparison => tagged "ints" comparison.toJson
  | refsEqual => Json.ofString "refs_equal"
  | refsNotEqual => Json.ofString "refs_not_equal"
  | null => Json.ofString "null"
  | nonNull => Json.ofString "non_null"

/-- The conditions that carry nothing. -/
def ofJsonName? : String → Option Condition
  | "refs_equal" => some refsEqual
  | "refs_not_equal" => some refsNotEqual
  | "null" => some null
  | "non_null" => some nonNull
  | _ => none

def ofJson? (json : Json) : Option Condition :=
  match variant? json with
  | some (name, none) => ofJsonName? name
  | some ("zero", some payload) => zero <$> Comparison.ofJson? payload
  | some ("ints", some payload) => ints <$> Comparison.ofJson? payload
  | some (name, some .null) => ofJsonName? name
  | _ => none

end Condition

namespace Constant

/-- A constant as JSON. A floating point number is written as its bits, in hexadecimal. -/
def toJson : Constant → Json
  | null => Json.ofString "null"
  | int value => tagged "int" (Json.ofInt value.toInt)
  | long value => tagged "long" (Json.ofInt value.toInt)
  | float bits => tagged "float" (Json.ofString (Hex.literal 8 bits.toNat))
  | double bits => tagged "double" (Json.ofString (Hex.literal 16 bits.toNat))
  | string value => tagged "string" (Json.ofString value)
  | classLiteral name => tagged "class" (Json.ofString name)
  | unknown => Json.ofString "opaque"

/-- The constants that carry nothing. -/
def ofJsonName? : String → Option Constant
  | "null" => some null
  | "opaque" => some unknown
  | _ => none

/-- Reads a number for a floating point constant. -/
def number? {α : Type} (read : Number → Option α) : Json → Option α
  | .number value => read value
  | _ => none

def ofJson? (json : Json) : Option Constant :=
  match variant? json with
  | some (name, none) => ofJsonName? name
  | some ("int", some payload) => int <$> i32? payload
  | some ("long", some payload) => long <$> i64? payload
  | some ("float", some payload) => float <$> number? Number.floatBits? payload
  | some ("double", some payload) => double <$> number? Number.doubleBits? payload
  | some ("string", some payload) => string <$> text? payload
  | some ("class", some payload) => classLiteral <$> text? payload
  | some (name, some .null) => ofJsonName? name
  | _ => none

end Constant

/-! ## Instructions -/

namespace Instruction

def toJson : Instruction → Json
  | nop => Json.ofString "nop"
  | const value => tagged "const" value.toJson
  | load kind slot =>
    taggedRecord "load" [("kind", kind.toJson), ("slot", Json.ofNat slot.toNat)]
  | store kind slot =>
    taggedRecord "store" [("kind", kind.toJson), ("slot", Json.ofNat slot.toNat)]
  | increment slot delta =>
    taggedRecord "iinc" [("slot", Json.ofNat slot.toNat), ("delta", Json.ofInt delta.toInt)]
  | stack op => tagged "stack" op.toJson
  | arrayLoad kind => tagged "array_load" kind.toJson
  | arrayStore kind => tagged "array_store" kind.toJson
  | arrayLength => Json.ofString "array_length"
  | newArray element => taggedRecord "new_array" [("element", element.toJson)]
  | multiNewArray type dimensions =>
    taggedRecord "multi_new_array"
      [("array", type.toJson), ("dimensions", Json.ofNat dimensions.toNat)]
  | arithmetic op kind => taggedRecord "arithmetic" [("op", op.toJson), ("kind", kind.toJson)]
  | compare kind => tagged "compare" kind.toJson
  | convert source target => taggedRecord "convert" [("from", source.toJson), ("to", target.toJson)]
  | branch condition target =>
    taggedRecord "branch" [("cond", condition.toJson), ("target", Json.ofNat target)]
  | goto target => taggedRecord "goto" [("target", Json.ofNat target)]
  | switch default targets =>
    taggedRecord "switch"
      [("default", Json.ofNat default), ("targets", .array (targets.map Json.ofNat))]
  | invoke kind owner name descriptor =>
    taggedRecord "invoke"
      [("kind", kind.toJson), ("owner", Json.ofString owner), ("name", Json.ofString name),
        ("descriptor", Json.ofString descriptor)]
  | invokeDynamic name descriptor =>
    taggedRecord "invoke_dynamic"
      [("name", Json.ofString name), ("descriptor", Json.ofString descriptor)]
  | getField isStatic descriptor =>
    taggedRecord "get_field"
      [("is_static", .bool isStatic), ("descriptor", Json.ofString descriptor)]
  | putField isStatic descriptor =>
    taggedRecord "put_field"
      [("is_static", .bool isStatic), ("descriptor", Json.ofString descriptor)]
  | newObject className => taggedRecord "new" [("class", Json.ofString className)]
  | checkCast className => taggedRecord "check_cast" [("class", Json.ofString className)]
  | instanceOf className => taggedRecord "instance_of" [("class", Json.ofString className)]
  | monitor => Json.ofString "monitor"
  | throw => Json.ofString "throw"
  | ret kind => tagged "return" (ofOption (kind.map ValueKind.toJson))
  | unsupported opcode => taggedRecord "unsupported" [("opcode", Json.ofNat opcode.toNat)]

/-- The instructions that carry nothing. -/
def ofJsonName? : String → Option Instruction
  | "nop" => some nop
  | "array_length" => some arrayLength
  | "monitor" => some monitor
  | "throw" => some throw
  | _ => none

/-- The levels of nesting left for a type inside an instruction: of 127 levels, a list of classes,
the class, its methods, the method, its instructions, the instruction and its operands take
seven. -/
def typeRoom : Nat := 120

/-- Reads what an instruction of the given name carries. -/
def ofPayload? (name : String) (payload : Json) : Option Instruction :=
  let fields (names : List String) := fields? names payload
  match name with
  | "const" => const <$> Constant.ofJson? payload
  | "load" => do
    let [some kind, some slot] ← fields ["kind", "slot"] | none
    return load (← ValueKind.ofJson? kind) (← u16? slot)
  | "store" => do
    let [some kind, some slot] ← fields ["kind", "slot"] | none
    return store (← ValueKind.ofJson? kind) (← u16? slot)
  | "iinc" => do
    let [some slot, some delta] ← fields ["slot", "delta"] | none
    return increment (← u16? slot) (← i16? delta)
  | "stack" => stack <$> StackOp.ofJson? payload
  | "array_load" => arrayLoad <$> ElementKind.ofJson? payload
  | "array_store" => arrayStore <$> ElementKind.ofJson? payload
  | "new_array" => do
    let [some element] ← fields ["element"] | none
    return newArray (← FieldType.ofJson? typeRoom element)
  | "multi_new_array" => do
    let [some type, some dimensions] ← fields ["array", "dimensions"] | none
    return multiNewArray (← FieldType.ofJson? typeRoom type) (← u8? dimensions)
  | "arithmetic" => do
    let [some op, some kind] ← fields ["op", "kind"] | none
    return arithmetic (← ArithmeticOp.ofJson? op) (← NumericKind.ofJson? kind)
  | "compare" => compare <$> NumericKind.ofJson? payload
  | "convert" => do
    let [some source, some target] ← fields ["from", "to"] | none
    return convert (← NumericKind.ofJson? source) (← ConversionTarget.ofJson? target)
  | "branch" => do
    let [some condition, some target] ← fields ["cond", "target"] | none
    return branch (← Condition.ofJson? condition) (← nat? target)
  | "goto" => do
    let [some target] ← fields ["target"] | none
    return goto (← nat? target)
  | "switch" => do
    let [some default, some targets] ← fields ["default", "targets"] | none
    return switch (← nat? default) (← items? nat? targets)
  | "invoke" => do
    let [some kind, some owner, some name, some descriptor] ←
      fields ["kind", "owner", "name", "descriptor"] | none
    return invoke (← InvokeKind.ofJson? kind) (← text? owner) (← text? name) (← text? descriptor)
  | "invoke_dynamic" => do
    let [some name, some descriptor] ← fields ["name", "descriptor"] | none
    return invokeDynamic (← text? name) (← text? descriptor)
  | "get_field" => do
    let [some isStatic, some descriptor] ← fields ["is_static", "descriptor"] | none
    return getField (← bool? isStatic) (← text? descriptor)
  | "put_field" => do
    let [some isStatic, some descriptor] ← fields ["is_static", "descriptor"] | none
    return putField (← bool? isStatic) (← text? descriptor)
  | "new" => do
    let [some className] ← fields ["class"] | none
    return newObject (← text? className)
  | "check_cast" => do
    let [some className] ← fields ["class"] | none
    return checkCast (← text? className)
  | "instance_of" => do
    let [some className] ← fields ["class"] | none
    return instanceOf (← text? className)
  | "return" => ret <$> nullable? ValueKind.ofJson? payload
  | "unsupported" => do
    let [some opcode] ← fields ["opcode"] | none
    return unsupported (← u8? opcode)
  | _ => do
    guard (carriesNothing (some payload))
    ofJsonName? name

def ofJson? (json : Json) : Option Instruction := do
  match ← variant? json with
  | (name, none) => ofJsonName? name
  | (name, some payload) => ofPayload? name payload

end Instruction

/-! ## Methods and classes -/

namespace LineMark

def toJson (mark : LineMark) : Json :=
  Json.ofMembers [("index", Json.ofNat mark.index), ("line", Json.ofNat mark.line.toNat)]

def ofJson? (json : Json) : Option LineMark := do
  let [some index, some line] ← fields? ["index", "line"] json | none
  return { index := ← nat? index, line := ← u32? line }

end LineMark

/-- Reads a list that is empty if it is missing. -/
def listOrEmpty? {α : Type} (read : Json → Option α) : Option Json → Option (List α)
  | none => some []
  | some json => items? read json

/-- Reads a text that is absent if it is missing or `null`. -/
def textOrNone? : Option Json → Option (Option String)
  | none => some none
  | some json => nullable? text? json

namespace Method

def toJson (method : Method) : Json :=
  Json.ofMembers
    [("name", Json.ofString method.name), ("descriptor", Json.ofString method.descriptor),
      ("access_flags", Json.ofNat method.access.bits.toNat),
      ("instructions", .array (method.instructions.toList.map Instruction.toJson)),
      ("lines", .array (method.lines.toList.map LineMark.toJson))]

def ofJson? (json : Json) : Option Method := do
  let [some name, some descriptor, some access, instructions, lines] ←
    fields? ["name", "descriptor", "access_flags", "instructions", "lines"] json | none
  let name ← text? name
  let descriptor ← text? descriptor
  let access ← u16? access
  let instructions ← listOrEmpty? Instruction.ofJson? instructions
  let lines ← listOrEmpty? LineMark.ofJson? lines
  return {
    name, descriptor
    access := ⟨access⟩
    instructions := instructions.toArray
    lines := lines.toArray }

end Method

namespace ClassDef

def toJson (c : ClassDef) : Json :=
  Json.ofMembers
    [("name", Json.ofString c.name), ("super_name", ofOption (c.superName.map Json.ofString)),
      ("source_file", ofOption (c.sourceFile.map Json.ofString)),
      ("methods", .array (c.methods.map Method.toJson))]

def ofJson? (json : Json) : Option ClassDef := do
  let [some name, superName, sourceFile, methods] ←
    fields? ["name", "super_name", "source_file", "methods"] json | none
  let name ← text? name
  let superName ← textOrNone? superName
  let sourceFile ← textOrNone? sourceFile
  let methods ← listOrEmpty? Method.ofJson? methods
  return { name, superName, sourceFile, methods }

/-- Reads a list of classes. -/
def listOfJson? : Json → Option (List ClassDef) :=
  items? ClassDef.ofJson?

end ClassDef

end Program

end ArrayBounds
