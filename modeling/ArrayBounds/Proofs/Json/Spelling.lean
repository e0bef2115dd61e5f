import ArrayBounds.Json.Printer
import ArrayBounds.Json.Token
import ArrayBounds.Proofs.Text.ModifiedUtf8

/-! # The tokens of a written value

A value has tokens (`ArrayBounds.Json.tokens`), and both of its texts, the one on one line and the
one over several lines, are split into just these (`ArrayBounds.Json.Plain.spells_compact`,
`ArrayBounds.Json.Plain.spells_prettyAt`). All of a text is taken apart independently of what
follows it, except that a number goes on as far as possible: behind a number something has to follow
that cannot be a part of it.
-/

namespace ArrayBounds.Json

/-! ## Values that can be written -/

/-- The parts of the number consist of digits, as they do in a number that has been read. -/
structure Number.Proper (n : Number) : Prop where
  whole : isWhole n.whole = true
  wholeDigits : ∀ c ∈ n.whole, c.isDigit = true
  fractionDigits : ∀ c ∈ n.fraction, c.isDigit = true
  exponentDigits : ∀ negative digits, n.exponent = some (negative, digits) → digits ≠ [] ∧
    ∀ c ∈ digits, c.isDigit = true

/-- All numbers in the value are proper, and all literals stand for texts. -/
inductive Plain : Json → Prop where
  | null : Plain null
  | bool (value : Bool) : Plain (bool value)
  | number {value : Number} (proper : value.Proper) : Plain (number value)
  | string (text : String) : Plain (string (some text))
  | array {items : List Json} (each : ∀ item ∈ items, Plain item) : Plain (array items)
  | object {members : List (Literal × Json)} (named : ∀ member ∈ members, member.1.isSome = true)
      (each : ∀ member ∈ members, Plain member.2) : Plain (object members)

/-! ## Tokens -/

mutual

/-- The tokens of a value. -/
def tokens : Json → List Token
  | null => [.null]
  | bool value => [.bool value]
  | number value => [.number value]
  | string text => [.string text]
  | array items => .openArray :: [Token.comma].intercalate (itemTokens items) ++ [.closeArray]
  | object members =>
      .openObject :: [Token.comma].intercalate (memberTokens members) ++ [.closeObject]

def itemTokens : List Json → List (List Token)
  | [] => []
  | item :: rest => tokens item :: itemTokens rest

def memberTokens : List (Literal × Json) → List (List Token)
  | [] => []
  | (name, value) :: rest => (.string name :: .colon :: tokens value) :: memberTokens rest

end

/-- The tokens of items are those of one item after the other. -/
theorem itemTokens_eq_map (items : List Json) : itemTokens items = items.map tokens := by
  induction items with
  | nil => rfl
  | cons item rest ih => rw [itemTokens, ih, List.map_cons]

/-- The tokens of one member of an object. -/
def spelledMember (member : Literal × Json) : List Token :=
  .string member.1 :: .colon :: tokens member.2

/-- The tokens of members are those of one member after the other. -/
theorem memberTokens_eq_map (members : List (Literal × Json)) :
    memberTokens members = members.map spelledMember := by
  induction members with
  | nil => rfl
  | cons member rest ih => rw [memberTokens, ih, List.map_cons, spelledMember]

private theorem compactItems_eq_map (items : List Json) :
    compactItems items = items.map compact := by
  induction items with
  | nil => rfl
  | cons item rest ih => rw [compactItems, ih, List.map_cons]

/-- Members are printed one by one. -/
private theorem compactMembers_eq_map (members : List (Literal × Json)) :
    compactMembers members = members.map fun member => quote member.1 ++ ":" ++
      compact member.2 := by
  induction members with
  | nil => rfl
  | cons member rest ih => rw [compactMembers, ih, List.map_cons]

private theorem prettyItems_eq_map (level : Nat) (items : List Json) :
    prettyItems level items = items.map (prettyAt level) := by
  induction items with
  | nil => rfl
  | cons item rest ih => rw [prettyItems, ih, List.map_cons]

/-- Members are printed one by one, at the same level. -/
private theorem prettyMembers_eq_map (level : Nat) (members : List (Literal × Json)) :
    prettyMembers level members = members.map fun member => quote member.1 ++ ": " ++
      prettyAt level member.2 := by
  induction members with
  | nil => rfl
  | cons member rest ih => rw [prettyMembers, ih, List.map_cons]

/-! ## Texts that are split into given tokens -/

/-- The text does not start with a character that could go on with a number. -/
def Delimits (rest : List Char) : Prop :=
  ∀ c, rest.head? = some c → c.isDigit = false ∧ c ≠ '.' ∧ c ≠ 'e' ∧ c ≠ 'E'

/-- The characters are split into the tokens, if what follows does not go on with a number. -/
def Spells (chars : List Char) (spelled : List Token) : Prop :=
  ∀ read rest, Delimits rest →
    tokenize read (chars ++ rest) = tokenize (read ++ spelled.toArray) rest

/-- The characters are split into the tokens, whatever follows. -/
def Marks (chars : List Char) (spelled : List Token) : Prop :=
  ∀ read rest, tokenize read (chars ++ rest) = tokenize (read ++ spelled.toArray) rest

section

variable {chars next : List Char} {spelled following : List Token}

/-- The end of the text ends a number. -/
theorem Delimits.nil : Delimits [] :=
  nofun

/-- Characters that cannot go on with a number delimit it. -/
private theorem Delimits.cons {c : Char} (stops : c.isDigit = false ∧ c ≠ '.' ∧ c ≠ 'e' ∧ c ≠ 'E')
    (rest : List Char) : Delimits (c :: rest) := by
  intro first head
  rw [← Option.some.inj head]
  exact stops

private theorem append_toArray_append (read : Array Token) (spelled following : List Token) :
    read ++ (spelled ++ following).toArray = read ++ spelled.toArray ++ following.toArray := by
  simp

private theorem Marks.spells (marks : Marks chars spelled) : Spells chars spelled :=
  fun read rest _ => marks read rest

private theorem Marks.append (marks : Marks chars spelled) (marks' : Marks next following) :
    Marks (chars ++ next) (spelled ++ following) := by
  intro read rest
  rw [List.append_assoc, marks, marks', append_toArray_append]

private theorem Marks.append_spells (marks : Marks chars spelled) (spells : Spells next following) :
    Spells (chars ++ next) (spelled ++ following) := by
  intro read rest delimits
  rw [List.append_assoc, marks, spells _ _ delimits, append_toArray_append]

private theorem Spells.append_marks (spells : Spells chars spelled) (marks : Marks next following)
    (delimits : ∀ rest, Delimits (next ++ rest)) :
    Marks (chars ++ next) (spelled ++ following) := by
  intro read rest
  rw [List.append_assoc, spells _ _ (delimits rest), marks, append_toArray_append]

private theorem Marks.nil : Marks [] [] := by
  intro read rest
  simp

/-- What is separated by commas is split into the tokens of its parts, with commas between them. -/
theorem spells_intercalate {α : Type} {separator : List Char} (comma : Marks separator [.comma])
    (delimits : ∀ rest, Delimits (separator ++ rest)) {text : α → List Char}
    {spelled : α → List Token} {items : List α}
    (each : ∀ item ∈ items, Spells (text item) (spelled item)) :
    Spells (separator.intercalate (items.map text))
      ([Token.comma].intercalate (items.map spelled)) := by
  induction items with
  | nil => exact Marks.nil.spells
  | cons item items ih =>
      have here := each item List.mem_cons_self
      have further := ih fun item member => each item (List.mem_cons_of_mem _ member)
      cases items with
      | nil => simpa only [List.map_cons, List.map_nil, List.intercalate_singleton] using here
      | cons item' items =>
          simp only [List.map_cons, List.intercalate_cons_cons] at further ⊢
          exact (here.append_marks comma delimits).append_spells further

end

/-! ## Single tokens -/

private theorem tokenize_of_blank {c : Char} (blank : isBlank c = true) (read : Array Token)
    (rest : List Char) : tokenize read (c :: rest) = tokenize read rest := by
  rw [tokenize, if_pos blank]

/-- A token that is scanned is added to those that were read. -/
private theorem tokenize_of_scan {c : Char} {chars rest : List Char} {token : Token}
    (printed : isBlank c = false) (scanned : Token.scan (c :: chars) = some (token, rest))
    (read : Array Token) :
    tokenize read (c :: chars) = tokenize (read ++ [token].toArray) rest := by
  rw [tokenize, if_neg (by rw [printed]; exact Bool.false_ne_true)]
  split
  · next failed => cases failed.symm.trans scanned
  · next found =>
      cases found.symm.trans scanned
      rw [← Array.push_eq_append]

/-- A text whose first token is always the same one is split into this token. -/
theorem marks_of_scan {c : Char} {chars : List Char} {token : Token} (printed : isBlank c = false)
    (scanned : ∀ rest, Token.scan (c :: chars ++ rest) = some (token, rest)) :
    Marks (c :: chars) [token] :=
  fun read rest => tokenize_of_scan printed (scanned rest) read

/-- Blanks stand for no token. -/
private theorem marks_of_blank {blanks : List Char} (blank : ∀ c ∈ blanks, isBlank c = true) :
    Marks blanks [] := by
  induction blanks with
  | nil => exact .nil
  | cons c blanks ih =>
      intro read rest
      rw [List.cons_append, tokenize_of_blank (blank c List.mem_cons_self)]
      exact ih (fun c member => blank c (List.mem_cons_of_mem _ member)) read rest

/-- Repeated characters are put behind the text. -/
private theorem toList_pushn (text : String) (c : Char) (n : Nat) :
    (text.pushn c n).toList = text.toList ++ List.replicate n c := by
  rw [String.pushn]
  induction n with
  | zero => simp [Nat.repeat]
  | succ n ih => rw [Nat.repeat, String.toList_push, ih, List.append_assoc, List.replicate_succ']

private theorem toList_newline (level : Nat) :
    (newline level).toList = '\n' :: List.replicate (2 * level) ' ' := by
  rw [newline, String.toList_append, toList_pushn]
  rfl

/-- A new line with its indentation stands for no token. -/
private theorem marks_newline (level : Nat) : Marks (newline level).toList [] := by
  apply marks_of_blank
  rw [toList_newline]
  intro c member
  rcases List.mem_cons.mp member with rfl | member
  · rfl
  · rw [List.eq_of_mem_replicate member]
    rfl

/-! ### Strings -/

/-- The hexadecimal digits of a control character. -/
theorem toList_digits_of_control : ∀ n < 0x20,
    (Hex.digits 4 n).toList = ['0', '0', Nat.digitChar (n / 16), Nat.digitChar (n % 16)] ∧
      unit? '0' '0' (Nat.digitChar (n / 16)) (Nat.digitChar (n % 16)) = some n := by
  decide

/-- An escape is read as the character that it stands for. -/
private theorem scanString_escape {letter c : Char} (means : escape? letter = some c)
    (read : List Nat) (rest : List Char) :
    scanString read ('\\' :: letter :: rest) =
      scanString ((Utf16.encodeChar c).reverse ++ read) rest := by
  have notUnit : letter ≠ 'u' := by
    rintro rfl
    cases means
  simp [scanString, notUnit, means]

/-- A character in a literal is read as this character. -/
theorem scanString_escapeChar (read : List Nat) (c : Char) (rest : List Char) :
    scanString read ((escapeChar c).toList ++ rest) =
      scanString ((Utf16.encodeChar c).reverse ++ read) rest := by
  unfold escapeChar
  split
  · subst c; exact scanString_escape rfl read rest
  split
  · subst c; exact scanString_escape rfl read rest
  split
  · subst c; exact scanString_escape rfl read rest
  split
  · subst c; exact scanString_escape rfl read rest
  split
  · subst c; exact scanString_escape rfl read rest
  split
  · subst c; exact scanString_escape rfl read rest
  split
  · subst c; exact scanString_escape rfl read rest
  split
  · next control =>
      obtain ⟨digits, unit⟩ := toList_digits_of_control c.toNat control
      have small : c.toNat < 0x10000 := by omega
      rw [String.toList_append, digits]
      simp [scanString, unit, Utf16.encodeChar, small]
  · next notBackslash _ _ _ _ _ printed => simp [scanString, notBackslash, printed]

/-- An escaped text is read back up to the closing quote. -/
private theorem scanString_escaped (read : List Nat) (text rest : List Char) :
    scanString read (text.flatMap (fun c => (escapeChar c).toList) ++ '"' :: rest) =
      some (read.reverse ++ text.flatMap Utf16.encodeChar, rest) := by
  induction text generalizing read with
  | nil => simp [scanString]
  | cons c text ih =>
      rw [List.flatMap_cons, List.append_assoc, scanString_escapeChar, ih, List.reverse_append,
        List.reverse_reverse, List.flatMap_cons, List.append_assoc]

/-- A quoted text stands for its token, whatever follows. -/
private theorem marks_quote (text : String) :
    Marks (quote (some text)).toList [.string (some text)] := by
  have chars : (quote (some text)).toList =
      '"' :: (text.toList.flatMap (fun c => (escapeChar c).toList) ++ ['"']) := by
    rw [quote, String.toList_append, String.toList_append, String.toList_join, List.flatMap_map]
    rfl
  rw [chars]
  apply marks_of_scan rfl
  intro rest
  rw [List.cons_append, List.append_assoc, Token.scan, List.singleton_append, scanString_escaped,
    List.reverse_nil, List.nil_append, Option.map_some]
  dsimp only
  rw [Utf16.decode?_encode]

/-! ### Numbers -/

/-- The digits are split off from what follows them. -/
private theorem takeWhile_isDigit {digits rest : List Char} (all : ∀ c ∈ digits, c.isDigit = true)
    (stops : ∀ c, rest.head? = some c → c.isDigit = false) :
    (digits ++ rest).takeWhile Char.isDigit = digits ∧
      (digits ++ rest).dropWhile Char.isDigit = rest := by
  rw [List.takeWhile_append_of_pos all, List.dropWhile_append_of_pos all]
  cases rest with
  | nil => simp
  | cons c rest => simp [stops c rfl]

/-- The characters of an exponent. -/
def exponentChars : Option (Bool × List Char) → List Char
  | none => []
  | some (negative, digits) => 'e' :: ((if negative then ['-'] else []) ++ digits)

/-- The characters of the digits behind the point. -/
def fractionChars (digits : List Char) : List Char :=
  if digits.isEmpty then [] else '.' :: digits

/-- A number is printed as its sign, its digits, its fraction and its exponent. -/
private theorem Number.toList_text (n : Number) :
    n.text.toList = (if n.negative then ['-'] else []) ++ n.whole ++ fractionChars n.fraction ++
      exponentChars n.exponent := by
  obtain ⟨negative, whole, fraction, exponent⟩ := n
  have sign : ((if negative then "-" else "") : String).toList = if negative then ['-']
      else [] := by
    cases negative <;> rfl
  have point : ((if fraction.isEmpty then "" else "." ++ String.ofList fraction) : String).toList =
      fractionChars fraction := by
    unfold fractionChars
    split
    · rfl
    · simp only [String.toList_append, String.toList_ofList]
      rfl
  unfold text
  dsimp only
  rw [String.toList_append, String.toList_append, String.toList_append,
    String.toList_ofList, sign, point]
  congr 1
  cases exponent with
  | none => rfl
  | some parts =>
      obtain ⟨lowers, digits⟩ := parts
      dsimp only
      simp only [String.toList_append, String.toList_ofList]
      cases lowers <;> rfl

/-- The digits of an exponent are read back. -/
private theorem scanExponentDigits_append {digits rest : List Char} (nonempty : digits ≠ [])
    (all : ∀ c ∈ digits, c.isDigit = true) (stops : ∀ c, rest.head? = some c → c.isDigit = false)
    (negative : Bool) :
    scanExponentDigits negative (digits ++ rest) = some (some (negative, digits), rest) := by
  obtain ⟨taken, left⟩ := takeWhile_isDigit all stops
  rw [scanExponentDigits, spanDigits, taken, left]
  cases digits with
  | nil => exact absurd rfl nonempty
  | cons c digits => rfl

/-- An exponent is read back. -/
private theorem scanExponent_exponentChars {exponent : Option (Bool × List Char)}
    (proper : ∀ negative digits, exponent = some (negative, digits) → digits ≠ [] ∧ ∀ c ∈ digits,
      c.isDigit = true) {rest : List Char} (delimits : Delimits rest) :
    scanExponent (exponentChars exponent ++ rest) = some (exponent, rest) := by
  cases exponent with
  | none =>
      cases rest with
      | nil => rfl
      | cons c rest =>
          obtain ⟨-, -, notLower, notUpper⟩ := delimits c rfl
          simp [exponentChars, scanExponent, notLower, notUpper]
  | some parts =>
      obtain ⟨negative, digits⟩ := parts
      obtain ⟨nonempty, all⟩ := proper negative digits rfl
      have scanned :=
        scanExponentDigits_append nonempty all (fun c head => (delimits c head).1) negative
      cases negative with
      | true => exact scanned
      | false =>
          cases digits with
          | nil => exact absurd rfl nonempty
          | cons c digits =>
              have digit := all c List.mem_cons_self
              have notPlus : c ≠ '+' := by
                rintro rfl
                cases digit
              have notMinus : c ≠ '-' := by
                rintro rfl
                cases digit
              simpa [exponentChars, scanExponent, notPlus, notMinus] using scanned

/-- A fraction is read back. -/
private theorem scanFraction_fractionChars {digits rest : List Char}
    (all : ∀ c ∈ digits, c.isDigit = true)
    (stops : ∀ c, rest.head? = some c → c.isDigit = false ∧ c ≠ '.') :
    scanFraction (fractionChars digits ++ rest) = some (digits, rest) := by
  obtain ⟨taken, left⟩ := takeWhile_isDigit all fun c head => (stops c head).1
  cases digits with
  | nil =>
      cases rest with
      | nil => rfl
      | cons c rest => simp [fractionChars, scanFraction, (stops c rfl).2]
  | cons c digits =>
      change scanFraction ('.' :: (c :: digits ++ rest)) = _
      rw [scanFraction, spanDigits, taken, left]

/-- A proper number is read back behind its sign. -/
private theorem scanNumber_of_proper {n : Number} (proper : n.Proper) {rest : List Char}
    (delimits : Delimits rest) :
    scanNumber n.negative (n.whole ++ fractionChars n.fraction ++ exponentChars n.exponent ++
      rest) = some (n, rest) := by
  have exponentStops (c : Char) (head : (exponentChars n.exponent ++ rest).head? = some c) :
      c.isDigit = false ∧ c ≠ '.' := by
    cases exponent : n.exponent with
    | none =>
        rw [exponent] at head
        exact ⟨(delimits c head).1, (delimits c head).2.1⟩
    | some parts =>
        rw [exponent] at head
        obtain rfl := Option.some.inj head
        decide
  have fractionStops (c : Char)
      (head : (fractionChars n.fraction ++ (exponentChars n.exponent ++ rest)).head? = some c) :
      c.isDigit = false := by
    unfold fractionChars at head
    split at head
    · exact (exponentStops c head).1
    · obtain rfl := Option.some.inj head
      decide
  obtain ⟨taken, left⟩ := takeWhile_isDigit proper.wholeDigits fractionStops
  rw [List.append_assoc, List.append_assoc, scanNumber]
  dsimp only
  rw [taken, left, if_pos proper.whole,
    scanFraction_fractionChars proper.fractionDigits exponentStops]
  dsimp only [Option.bind_eq_bind, Option.bind_some]
  rw [scanExponent_exponentChars proper.exponentDigits delimits]
  rfl

/-- A text that starts with a digit starts with a number. -/
theorem scan_of_isDigit {c : Char} (digit : c.isDigit = true) (rest : List Char) :
    Token.scan (c :: rest) = (scanNumber false (c :: rest)).map
      fun (n, tail) => (.number n, tail) := by
  unfold Token.scan
  split
  case h_12 => rfl
  all_goals
    next same =>
      obtain ⟨rfl, -⟩ := List.cons.inj same
      exact absurd digit (by decide)

/-- Digits are not blank. -/
private theorem isBlank_of_isDigit {c : Char} (digit : c.isDigit = true) : isBlank c = false := by
  apply Bool.eq_false_iff.mpr
  intro blank
  simp only [isBlank, Bool.or_eq_true, beq_iff_eq] at blank
  rcases blank with ((rfl | rfl) | rfl) | rfl <;> exact absurd digit (by decide)

/-- The text of a proper number spells its token. -/
private theorem Number.Proper.spells {n : Number} (proper : n.Proper) :
    Spells n.text.toList [.number n] := by
  intro read rest delimits
  have scanned := scanNumber_of_proper proper delimits
  rw [n.toList_text]
  cases sign : n.negative with
  | true =>
      rw [sign] at scanned
      apply tokenize_of_scan rfl
      exact congrArg (Option.map _) scanned
  | false =>
      rw [sign] at scanned
      cases digits : n.whole with
      | nil =>
          have whole := proper.whole
          rw [digits] at whole
          cases whole
      | cons c digits' =>
          have digit : c.isDigit = true := proper.wholeDigits c (digits ▸ List.mem_cons_self)
          rw [digits] at scanned
          apply tokenize_of_scan (isBlank_of_isDigit digit)
          exact (scan_of_isDigit digit _).trans (congrArg _ scanned)

/-! ## Texts of values -/

private theorem marks_null : Marks "null".toList [.null] :=
  marks_of_scan rfl fun _ => rfl

private theorem marks_bool (value : Bool) :
    Marks ((if value then "true" else "false") : String).toList [.bool value] := by
  cases value with
  | true => exact marks_of_scan rfl fun _ => rfl
  | false => exact marks_of_scan rfl fun _ => rfl

private theorem marks_openArray : Marks "[".toList [.openArray] :=
  marks_of_scan rfl fun _ => rfl

private theorem marks_closeArray : Marks "]".toList [.closeArray] :=
  marks_of_scan rfl fun _ => rfl

private theorem marks_openObject : Marks "\x7b".toList [.openObject] :=
  marks_of_scan rfl fun _ => rfl

private theorem marks_closeObject : Marks "\x7d".toList [.closeObject] :=
  marks_of_scan rfl fun _ => rfl

private theorem marks_comma : Marks ",".toList [.comma] :=
  marks_of_scan rfl fun _ => rfl

private theorem marks_colon : Marks ":".toList [.colon] :=
  marks_of_scan rfl fun _ => rfl

private theorem delimits_comma (rest : List Char) : Delimits (',' :: rest) :=
  .cons (by decide) rest

/-- Parts between brackets are split into the tokens of the parts, between those of the brackets. -/
theorem marks_bracketed {α : Type} {opening separator closing : List Char} {first last : Token}
    (opens : Marks opening [first]) (comma : Marks separator [.comma])
    (commaDelimits : ∀ rest, Delimits (separator ++ rest)) (closes : Marks closing [last])
    (closingDelimits : ∀ rest, Delimits (closing ++ rest)) {text : α → List Char}
    {spelled : α → List Token} {items : List α}
    (each : ∀ item ∈ items, Spells (text item) (spelled item)) :
    Marks (opening ++ separator.intercalate (items.map text) ++ closing)
      (first :: [Token.comma].intercalate (items.map spelled) ++ [last]) :=
  (opens.append_spells (spells_intercalate comma commaDelimits each)).append_marks closes
    closingDelimits

/-- A name, a colon and a value spell a member. -/
private theorem spells_member {member : Literal × Json} {colon chars : List Char}
    (named : member.1.isSome = true) (marks : Marks colon [.colon])
    (spells : Spells chars member.2.tokens) :
    Spells ((quote member.1).toList ++ colon ++ chars) (spelledMember member) := by
  obtain ⟨name, value⟩ := member
  obtain ⟨text, rfl⟩ := Option.isSome_iff_exists.mp named
  exact ((marks_quote text).append marks).append_spells spells

/-- The text without blanks spells the tokens of the value. -/
theorem Plain.spells_compact {value : Json} (plain : value.Plain) :
    Spells value.compact.toList value.tokens := by
  induction plain with
  | null => exact marks_null.spells
  | bool value => exact (marks_bool value).spells
  | number proper => exact proper.spells
  | string text => exact (marks_quote text).spells
  | array each ih =>
      rw [compact, tokens, itemTokens_eq_map, compactItems_eq_map]
      simp only [String.toList_append, String.toList_intercalate, List.map_map]
      apply Marks.spells
      exact marks_bracketed marks_openArray marks_comma delimits_comma marks_closeArray
        (.cons (by decide)) ih
  | object named each ih =>
      rw [compact, tokens, memberTokens_eq_map, compactMembers_eq_map]
      simp only [String.toList_append, String.toList_intercalate, List.map_map]
      apply Marks.spells
      apply marks_bracketed marks_openObject marks_comma delimits_comma marks_closeObject
        (.cons (by decide))
      intro member here
      rw [Function.comp_apply, String.toList_append, String.toList_append]
      exact spells_member (named member here) marks_colon (ih member here)

/-- The lines between brackets are split into the tokens of the lines, between those of the
brackets. -/
theorem marks_lines {α : Type} {first last : Token} {opening closing : String}
    (opens : Marks opening.toList [first]) (closes : Marks closing.toList [last]) (level : Nat)
    {text : α → String} {spelled : α → List Token} {items : List α}
    (each : ∀ item ∈ items, Spells (text item).toList (spelled item)) :
    Marks (bracketed level opening closing (items.map text)).toList
      (first :: [Token.comma].intercalate (items.map spelled) ++ [last]) := by
  unfold bracketed
  split
  · next empty =>
      rw [List.isEmpty_iff, List.map_eq_nil_iff] at empty
      subst empty
      rw [String.toList_append]
      exact opens.append closes
  · have closingDelimits (rest : List Char) :
        Delimits ((newline level).toList ++ closing.toList ++ rest) := by
      rw [toList_newline]
      exact .cons (by decide) _
    have marks := marks_bracketed (opens.append (marks_newline (level + 1)))
      (marks_comma.append (marks_newline (level + 1)))
      (fun rest => delimits_comma ((newline (level + 1)).toList ++ rest))
      ((marks_newline level).append closes) closingDelimits each
    simp only [String.toList_append, String.toList_intercalate, List.map_map]
    rw [List.append_assoc _ (newline level).toList]
    exact marks

/-- So does the text with blanks, at any level of indentation. -/
theorem Plain.spells_prettyAt {value : Json} (plain : value.Plain) (level : Nat) :
    Spells (value.prettyAt level).toList value.tokens := by
  induction plain generalizing level with
  | null => exact marks_null.spells
  | bool value => exact (marks_bool value).spells
  | number proper => exact proper.spells
  | string text => exact (marks_quote text).spells
  | array each ih =>
      rw [prettyAt, tokens, itemTokens_eq_map, prettyItems_eq_map]
      apply Marks.spells
      exact marks_lines marks_openArray marks_closeArray level fun item member =>
        ih item member (level + 1)
  | object named each ih =>
      rw [prettyAt, tokens, memberTokens_eq_map, prettyMembers_eq_map]
      apply Marks.spells
      apply marks_lines marks_openObject marks_closeObject
      intro member here
      rw [String.toList_append, String.toList_append]
      have blank : Marks [' '] [] := marks_of_blank fun c space => List.mem_singleton.mp space ▸ rfl
      exact spells_member (named member here) (marks_colon.append blank)
        (ih member here (level + 1))

end ArrayBounds.Json
