/-! # Field and method descriptors

A descriptor is the compact text a class file uses for types. A primitive type is one letter, a
class type is its internal name between `L` and `;`, an array type is `[` in front of its element
type. A method descriptor lists the parameter types in parentheses, followed by the result type or
`V`.

`FieldType.text` and `MethodDescriptor.text` write descriptors, `FieldType.parse?` and
`MethodDescriptor.parse?` read them.
-/

namespace ArrayBounds

/-- The type of a field, a parameter, a local variable or an array element. -/
inductive FieldType where
  | byte
  | char
  | double
  | float
  | int
  | long
  | short
  | boolean
  /-- A class or interface, given by its internal name. -/
  | object (name : String)
  | array (element : FieldType)
deriving DecidableEq, Repr, Inhabited

namespace FieldType

/-- The descriptor of a type. -/
def text : FieldType → String
  | byte => "B"
  | char => "C"
  | double => "D"
  | float => "F"
  | int => "I"
  | long => "J"
  | short => "S"
  | boolean => "Z"
  | object name => "L" ++ name ++ ";"
  | array element => "[" ++ element.text

/-- Reads one type from the front of a text and returns what follows it. -/
def scan : List Char → Option (FieldType × List Char)
  | 'B' :: rest => some (byte, rest)
  | 'C' :: rest => some (char, rest)
  | 'D' :: rest => some (double, rest)
  | 'F' :: rest => some (float, rest)
  | 'I' :: rest => some (int, rest)
  | 'J' :: rest => some (long, rest)
  | 'S' :: rest => some (short, rest)
  | 'Z' :: rest => some (boolean, rest)
  | 'L' :: rest =>
    match rest.takeWhile (· ≠ ';'), rest.dropWhile (· ≠ ';') with
    | c :: name, _ :: tail => some (object (String.ofList (c :: name)), tail)
    | _, _ => none
  | '[' :: rest => (scan rest).map fun (element, tail) => (array element, tail)
  | _ => none

/-- Reading a type uses up at least one character. -/
theorem scan_length_lt {chars rest : List Char} {type : FieldType}
    (found : scan chars = some (type, rest)) : rest.length < chars.length := by
  fun_induction scan chars generalizing type rest with
  | case9 cs c name semicolon tail taken dropped =>
    have suffix : (cs.dropWhile (· ≠ ';')).length ≤ cs.length :=
      (List.dropWhile_sublist _).length_le
    simp_all
    omega
  | case11 cs ih =>
    simp only [Option.map_eq_some_iff, Prod.exists, Prod.mk.injEq] at found
    obtain ⟨element, tail, inner, -, rfl⟩ := found
    have := ih inner
    simp only [List.length_cons]
    omega
  | _ => simp_all

/-- The type that a complete text describes. -/
def parse? (descriptor : String) : Option FieldType :=
  match scan descriptor.toList with
  | some (type, []) => some type
  | _ => none

/-- The type named by a class entry: an internal class name, or the descriptor of an array type. -/
def ofClassName? (name : String) : Option FieldType :=
  match name.toList with
  | [] => none
  | '[' :: _ => parse? name
  | _ => some (object name)

/-- Values of type `long` and `double` take two words. -/
def isWide : FieldType → Bool
  | long | double => true
  | _ => false

/-- The number of local variable slots a value of the type takes. -/
def width (type : FieldType) : Nat :=
  if type.isWide then 2 else 1

def isArray : FieldType → Bool
  | array _ => true
  | _ => false

/-- The element type of an array type. -/
def element? : FieldType → Option FieldType
  | array element => some element
  | _ => none

end FieldType

/-- The parameter types and the result type of a method. -/
structure MethodDescriptor where
  parameters : List FieldType
  /-- Absent for a method without result. -/
  returnType : Option FieldType
deriving DecidableEq, Repr, Inhabited

namespace MethodDescriptor

/-- The descriptor text. -/
def text (descriptor : MethodDescriptor) : String :=
  "(" ++ String.join (descriptor.parameters.map FieldType.text) ++ ")" ++
    match descriptor.returnType with
    | none => "V"
    | some type => type.text

/-- Reads parameter types up to the closing parenthesis and returns what follows it. -/
def scanParameters : List Char → Option (List FieldType × List Char)
  | ')' :: rest => some ([], rest)
  | chars =>
    match found : FieldType.scan chars with
    | none => none
    | some (type, rest) =>
      have := FieldType.scan_length_lt found
      (scanParameters rest).map fun (types, tail) => (type :: types, tail)
termination_by chars => chars.length

/-- Reads the result type, which ends the text. -/
def scanReturn : List Char → Option (Option FieldType)
  | ['V'] => some none
  | chars =>
    match FieldType.scan chars with
    | some (type, []) => some (some type)
    | _ => none

/-- The parameter and result types that a complete text describes. -/
def parse? (descriptor : String) : Option MethodDescriptor :=
  match descriptor.toList with
  | '(' :: rest => do
    let (parameters, tail) ← scanParameters rest
    let returnType ← scanReturn tail
    return { parameters, returnType }
  | _ => none

/-- The number of local variable slots the parameters take, the receiver not counted. -/
def parameterSlots (descriptor : MethodDescriptor) : Nat :=
  descriptor.parameters.foldr (fun type slots => type.width + slots) 0

def isVoid (descriptor : MethodDescriptor) : Bool :=
  descriptor.returnType.isNone

end MethodDescriptor

end ArrayBounds
