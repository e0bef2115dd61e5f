import ArrayBounds.Json.Basic
import ArrayBounds.Text.Hex
import ArrayBounds.Text.Utf16

/-! # JSON tokens

The lexical level of JSON: punctuation, the three literal names, numbers and strings. White space
between tokens is skipped.
-/

namespace ArrayBounds.Json

/-- A token of JSON text. -/
inductive Token where
  | openArray
  | closeArray
  | openObject
  | closeObject
  | comma
  | colon
  | null
  | bool (value : Bool)
  | number (value : Number)
  | string (text : Literal)
deriving DecidableEq, Repr, Inhabited

/-! ## Strings -/

/-- The character that a one-letter escape stands for. -/
def escape? : Char → Option Char
  | '"' => some '"'
  | '\\' => some '\\'
  | '/' => some '/'
  | 'b' => some '\x08'
  | 'f' => some '\x0c'
  | 'n' => some '\n'
  | 'r' => some '\r'
  | 't' => some '\t'
  | _ => none

/-- The number written by four hexadecimal digits. -/
def unit? (a b c d : Char) : Option Nat := do
  let a ← Hex.digit? a
  let b ← Hex.digit? b
  let c ← Hex.digit? c
  let d ← Hex.digit? d
  return ((a * 16 + b) * 16 + c) * 16 + d

/-- Reads the rest of a string literal, behind its opening quote, and returns its 16-bit units and
what follows the closing quote. The units read so far are in `read`, last one first. -/
def scanString (read : List Nat) : List Char → Option (List Nat × List Char)
  | [] => none
  | '"' :: rest => some (read.reverse, rest)
  | '\\' :: 'u' :: a :: b :: c :: d :: rest =>
    match unit? a b c d with
    | some unit => scanString (unit :: read) rest
    | none => none
  | '\\' :: c :: rest =>
    match escape? c with
    | some value => scanString ((Utf16.encodeChar value).reverse ++ read) rest
    | none => none
  | c :: rest =>
    if c.toNat < 0x20 then none else scanString ((Utf16.encodeChar c).reverse ++ read) rest

/-! ## Numbers -/

/-- Splits the leading digits off a text. -/
def spanDigits (chars : List Char) : List Char × List Char :=
  (chars.takeWhile Char.isDigit, chars.dropWhile Char.isDigit)

/-- Reads the digits behind a point; there has to be one. -/
def scanFraction : List Char → Option (List Char × List Char)
  | '.' :: rest =>
    match spanDigits rest with
    | ([], _) => none
    | (digits, tail) => some (digits, tail)
  | chars => some ([], chars)

/-- Reads the digits of an exponent with the given sign; there has to be one. -/
def scanExponentDigits (negative : Bool) (chars : List Char) :
    Option (Option (Bool × List Char) × List Char) :=
  match spanDigits chars with
  | ([], _) => none
  | (digits, tail) => some (some (negative, digits), tail)

/-- Reads an exponent, if there is one. -/
def scanExponent : List Char → Option (Option (Bool × List Char) × List Char)
  | 'e' :: rest | 'E' :: rest =>
    match rest with
    | '+' :: digits => scanExponentDigits false digits
    | '-' :: digits => scanExponentDigits true digits
    | digits => scanExponentDigits false digits
  | chars => some (none, chars)

/-- The digits before the point: a single zero, or digits that do not start with a zero. -/
def isWhole : List Char → Bool
  | [] => false
  | ['0'] => true
  | c :: _ => c != '0'

/-- Reads a number whose sign has been read. -/
def scanNumber (negative : Bool) (chars : List Char) : Option (Number × List Char) :=
  let whole := chars.takeWhile Char.isDigit
  if isWhole whole then do
    let (fraction, rest) ← scanFraction (chars.dropWhile Char.isDigit)
    let (exponent, rest) ← scanExponent rest
    return ({ negative, whole, fraction, exponent }, rest)
  else none

/-! ## Tokens -/

/-- Reads the token at the front of a text that does not start with white space. -/
def Token.scan : List Char → Option (Token × List Char)
  | '[' :: rest => some (openArray, rest)
  | ']' :: rest => some (closeArray, rest)
  | '\x7b' :: rest => some (openObject, rest)
  | '\x7d' :: rest => some (closeObject, rest)
  | ',' :: rest => some (comma, rest)
  | ':' :: rest => some (colon, rest)
  | 'n' :: 'u' :: 'l' :: 'l' :: rest => some (null, rest)
  | 't' :: 'r' :: 'u' :: 'e' :: rest => some (bool true, rest)
  | 'f' :: 'a' :: 'l' :: 's' :: 'e' :: rest => some (bool false, rest)
  | '"' :: rest =>
      (scanString [] rest).map fun (units, tail) => (string (Utf16.decode? units), tail)
  | '-' :: rest => (scanNumber true rest).map fun (n, tail) => (number n, tail)
  | chars => (scanNumber false chars).map fun (n, tail) => (number n, tail)

def isBlank (c : Char) : Bool :=
  c == ' ' || c == '\n' || c == '\t' || c == '\r'

/-- Scanning a string does not make the rest longer. -/
theorem scanString_length_le {read units : List Nat} {chars rest : List Char}
    (found : scanString read chars = some (units, rest)) : rest.length ≤ chars.length := by
  fun_induction scanString read chars with
  | case1 => simp at found
  | case2 => simp_all
  | case3 read a b c d tail code known ih =>
    have := ih found
    simp only [List.length_cons]
    omega
  | case4 => simp at found
  | case5 read c tail notUnit value known ih =>
    have := ih found
    simp only [List.length_cons]
    omega
  | case6 => simp at found
  | case7 => simp at found
  | case8 read c tail _ _ _ _ ih =>
    have := ih found
    simp only [List.length_cons]
    omega

/-- Dropping characters makes nothing longer. -/
theorem dropWhile_length_le (p : Char → Bool) (chars : List Char) :
    (chars.dropWhile p).length ≤ chars.length :=
  (List.dropWhile_sublist p).length_le

/-- Scanning a fraction does not make the rest longer. -/
theorem scanFraction_length_le {chars digits rest : List Char}
    (found : scanFraction chars = some (digits, rest)) : rest.length ≤ chars.length := by
  unfold scanFraction at found
  split at found
  · next after =>
    have := dropWhile_length_le Char.isDigit after
    split at found
    · simp at found
    · next split =>
      simp only [spanDigits, Prod.mk.injEq] at split
      simp only [Option.some.injEq, Prod.mk.injEq] at found
      rw [split.2, found.2] at this
      simp only [List.length_cons]
      omega
  · simp_all

/-- Scanning the digits of an exponent does not make the rest longer. -/
theorem scanExponentDigits_length_le {negative : Bool} {chars rest : List Char}
    {exponent : Option (Bool × List Char)}
    (found : scanExponentDigits negative chars = some (exponent, rest)) :
    rest.length ≤ chars.length := by
  have := dropWhile_length_le Char.isDigit chars
  unfold scanExponentDigits at found
  split at found
  · simp at found
  · simp_all [spanDigits]

/-- Scanning an exponent does not make the rest longer. -/
theorem scanExponent_length_le {chars rest : List Char} {exponent : Option (Bool × List Char)}
    (found : scanExponent chars = some (exponent, rest)) : rest.length ≤ chars.length := by
  unfold scanExponent at found
  split at found
  · split at found <;> have := scanExponentDigits_length_le found <;>
      simp only [List.length_cons] at * <;> omega
  · split at found <;> have := scanExponentDigits_length_le found <;>
      simp only [List.length_cons] at * <;> omega
  · simp_all

/-- Reading a number uses up at least one character. -/
theorem scanNumber_length_lt {negative : Bool} {chars rest : List Char} {n : Number}
    (found : scanNumber negative chars = some (n, rest)) : rest.length < chars.length := by
  unfold scanNumber at found
  obtain ⟨whole, found⟩ := Option.ite_none_right_eq_some.mp found
  simp only [Option.bind_eq_bind, Option.bind_eq_some_iff, Option.pure_def, Option.some.injEq,
    Prod.exists, Prod.mk.injEq] at found
  obtain ⟨fraction, afterFraction, fractionFound, exponent, tail, exponentFound, -, rfl⟩ := found
  have lengths :=
    congrArg List.length (List.takeWhile_append_dropWhile (p := Char.isDigit) (l := chars))
  rw [List.length_append] at lengths
  have nonempty : 0 < (chars.takeWhile Char.isDigit).length := by
    cases taken : chars.takeWhile Char.isDigit with
    | nil => simp [taken, isWhole] at whole
    | cons => simp
  have := scanFraction_length_le fractionFound
  have := scanExponent_length_le exponentFound
  omega

/-- Reading a token uses up at least one character. -/
theorem Token.scan_length_lt {chars rest : List Char} {token : Token}
    (found : Token.scan chars = some (token, rest)) : rest.length < chars.length := by
  unfold Token.scan at found
  split at found
  case h_10 =>
    simp only [Option.map_eq_some_iff, Prod.exists, Prod.mk.injEq] at found
    obtain ⟨units, tail, inner, -, rfl⟩ := found
    have := scanString_length_le inner
    simp only [List.length_cons]
    omega
  case h_11 =>
    simp only [Option.map_eq_some_iff, Prod.exists, Prod.mk.injEq] at found
    obtain ⟨n, tail, inner, -, rfl⟩ := found
    have := scanNumber_length_lt inner
    simp only [List.length_cons]
    omega
  case h_12 =>
    simp only [Option.map_eq_some_iff, Prod.exists, Prod.mk.injEq] at found
    obtain ⟨n, tail, inner, -, rfl⟩ := found
    exact scanNumber_length_lt inner
  all_goals
    simp only [Option.some.injEq, Prod.mk.injEq] at found
    obtain ⟨-, rfl⟩ := found
    simp only [List.length_cons]
    omega

/-- Splits a text into tokens. The tokens so far are in `read`. -/
def tokenize (read : Array Token) (chars : List Char) : Option (List Token) :=
  match chars with
  | [] => some read.toList
  | c :: rest =>
    if isBlank c then tokenize read rest
    else
      match found : Token.scan (c :: rest) with
      | none => none
      | some (token, tail) =>
        have := Token.scan_length_lt found
        tokenize (read.push token) tail
termination_by chars.length
decreasing_by
  · simp only [List.length_cons]
    omega
  · exact this

end ArrayBounds.Json
