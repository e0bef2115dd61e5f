import ArrayBounds.ClassFile.Error

/-! # Descriptors are read as they are written

A class name in a descriptor ends at the first semicolon, so a type can be written if none of its
class names is empty or has a semicolon in it. The texts of these types are exactly the texts that
are read, and the type that is read is the one that was written
(`ArrayBounds.FieldType.scan_eq_some_iff`). No type starts with a closing parenthesis, whatever
stands in its class names, so the parameters of a method end at the first parenthesis that stands
where a type could start (`ArrayBounds.MethodDescriptor.scanParameters_eq_some_iff`). Every other
text is refused, and the error names it (`ArrayBounds.parse_eq_ok_iff_text_eq`).
-/

namespace ArrayBounds

namespace FieldType

/-- The class names in the type can stand in a descriptor. -/
def WellNamed : FieldType → Prop
  | object name => name ≠ "" ∧ ';' ∉ name.toList
  | array element => element.WellNamed
  | _ => True

variable {type : FieldType} {chars rest : List Char}

/-! ## Types -/

/-- A name goes up to the semicolon behind it. -/
theorem span_name {name : List Char} (free : ';' ∉ name) (rest : List Char) :
    (name ++ ';' :: rest).takeWhile (· ≠ ';') = name ∧
      (name ++ ';' :: rest).dropWhile (· ≠ ';') = ';' :: rest := by
  have inside : ∀ c ∈ name, decide (c ≠ ';') = true := by
    intro c member
    exact decide_eq_true fun same => free (same ▸ member)
  constructor
  · rw [List.takeWhile_append_of_pos inside, List.takeWhile_cons_of_neg (by simp), List.append_nil]
  · rw [List.dropWhile_append_of_pos inside, List.dropWhile_cons_of_neg (by simp)]

/-- What is written is read, whatever follows it. -/
theorem scan_text_append (named : type.WellNamed) (rest : List Char) :
    scan (type.text.toList ++ rest) = some (type, rest) := by
  induction type with
  | object name =>
      obtain ⟨nonempty, free⟩ := named
      have written : (object name).text.toList ++ rest = 'L' :: (name.toList ++ ';' :: rest) := by
        simp [text]
      obtain ⟨c, tail, chars⟩ :=
        List.exists_cons_of_ne_nil (mt String.toList_eq_nil_iff.mp nonempty)
      obtain ⟨taken, left⟩ := span_name free rest
      rw [written, scan, taken, left, chars]
      dsimp only
      rw [← chars, String.ofList_toList]
  | array element ih =>
      have written : (array element).text.toList ++ rest =
          '[' :: (element.text.toList ++ rest) := by
        simp [text]
      rw [written, scan, ih named]
      rfl
  | _ => rfl

/-- What is read has been written in front of what follows. -/
theorem text_of_scan (found : scan chars = some (type, rest)) :
    type.WellNamed ∧ chars = type.text.toList ++ rest := by
  fun_induction scan chars generalizing type rest with
  | case9 behind c name semicolon tail left taken =>
      cases found
      -- The characters up to the semicolon are the name, and the first one behind them is the
      -- semicolon.
      have parts : c :: name ++ semicolon :: tail = behind := by
        rw [← taken, ← left, List.takeWhile_append_dropWhile]
      have free : ';' ∉ c :: name := by
        intro member
        have inside := List.all_eq_true.mp List.all_takeWhile ';' (taken ▸ member)
        simp at inside
      have ends : semicolon = ';' := by
        have stop := List.head?_dropWhile_not (· ≠ ';') behind
        rw [left] at stop
        simpa using stop
      refine ⟨⟨?_, ?_⟩, ?_⟩
      · simp
      · rwa [String.toList_ofList]
      · simp [text, ← parts, ends]
  | case11 behind ih =>
      obtain ⟨⟨element, tail⟩, inner, made⟩ := Option.map_eq_some_iff.mp found
      cases made
      obtain ⟨named, rfl⟩ := ih inner
      exact ⟨named, by simp [text]⟩
  | case10 => cases found
  | case12 => cases found
  | _ =>
      cases found
      exact ⟨trivial, rfl⟩

/-- A type is scanned from its text, and only from its text. -/
theorem scan_eq_some_iff :
    scan chars = some (type, rest) ↔ type.WellNamed ∧ chars = type.text.toList ++ rest := by
  constructor
  · exact text_of_scan
  · rintro ⟨named, rfl⟩
    exact scan_text_append named rest

/-- A complete text is read as the type with this text. -/
theorem parse?_eq_some_iff {descriptor : String} :
    parse? descriptor = some type ↔ type.WellNamed ∧ type.text = descriptor := by
  have whole : parse? descriptor = some type ↔ scan descriptor.toList = some (type, []) := by
    unfold parse?
    split
    case h_1 read found => simp [found]
    case h_2 partly => exact ⟨nofun, fun found => absurd found (partly type)⟩
  rw [whole, scan_eq_some_iff, List.append_nil, String.toList_inj, eq_comm (a := descriptor)]

end FieldType

namespace MethodDescriptor

/-- The class names in the parameter types and in the result type can stand in a descriptor. -/
def WellNamed (descriptor : MethodDescriptor) : Prop :=
  (∀ type ∈ descriptor.parameters, type.WellNamed) ∧ ∀ type ∈ descriptor.returnType, type.WellNamed

variable {chars rest : List Char} {types : List FieldType}

/-! ## Parameters -/

private theorem scanParameters_close (rest : List Char) :
    scanParameters (')' :: rest) = some ([], rest) := by
  rw [scanParameters]

/-- A text that starts with a type is not at the end of the parameters. -/
theorem scanParameters_of_scan {type : FieldType}
    (found : FieldType.scan chars = some (type, rest)) :
    scanParameters chars = (scanParameters rest).map fun read => (type :: read.1, read.2) := by
  rw [scanParameters]
  · split
    case h_1 failed =>
      rw [failed] at found
      cases found
    case h_2 type' rest' found' =>
      obtain ⟨rfl, rfl⟩ := Prod.mk.inj (Option.some.inj (found'.symm.trans found))
      rfl
  · rintro tail rfl
    cases found

/-- Parameters are scanned from their texts, up to the closing parenthesis. -/
theorem scanParameters_eq_some_iff :
    scanParameters chars = some (types, rest) ↔
      (∀ type ∈ types, type.WellNamed) ∧ chars = types.flatMap (·.text.toList) ++ ')' :: rest := by
  constructor
  · intro found
    fun_induction scanParameters chars generalizing types rest with
    | case1 tail =>
        cases found
        exact ⟨fun _ member => absurd member List.not_mem_nil, rfl⟩
    | case2 => cases found
    | case3 chars _ type tail scanned _ ih =>
        obtain ⟨⟨others, behind⟩, further, made⟩ := Option.map_eq_some_iff.mp found
        cases made
        obtain ⟨named, rfl⟩ := FieldType.text_of_scan scanned
        obtain ⟨namedOthers, rfl⟩ := ih further
        exact ⟨List.forall_mem_cons.mpr ⟨named, namedOthers⟩, by
          rw [List.flatMap_cons, List.append_assoc]⟩
  · rintro ⟨named, rfl⟩
    induction types with
    | nil => exact scanParameters_close rest
    | cons type types ih =>
        obtain ⟨here, others⟩ := List.forall_mem_cons.mp named
        rw [List.flatMap_cons, List.append_assoc,
          scanParameters_of_scan (FieldType.scan_text_append here _), ih others]
        rfl

/-! ## Methods -/

/-- The result type ends the text, and no type is written like the absence of one. -/
theorem scanReturn_eq_some_iff {result : Option FieldType} :
    scanReturn chars = some result ↔
      (∀ type ∈ result, type.WellNamed) ∧ chars = (result.elim "V" FieldType.text).toList := by
  cases result with
  | none =>
      constructor
      · intro found
        unfold scanReturn at found
        split at found
        case h_1 => exact ⟨nofun, rfl⟩
        case h_2 => split at found <;> cases found
      · rintro ⟨-, rfl⟩
        rfl
  | some type =>
      have typed : scanReturn chars = some (some type) ↔
          FieldType.scan chars = some (type, []) := by
        unfold scanReturn
        split
        case h_1 => exact ⟨nofun, nofun⟩
        case h_2 =>
          split
          case h_1 read found => simp [found]
          case h_2 partly => exact ⟨nofun, fun found => absurd found (partly type)⟩
      rw [typed, FieldType.scan_eq_some_iff, List.append_nil]
      simp

/-- A descriptor consists of its parameters in parentheses and its return type. -/
private theorem toList_text (descriptor : MethodDescriptor) :
    descriptor.text.toList =
      '(' :: (descriptor.parameters.flatMap (·.text.toList) ++
        ')' :: (descriptor.returnType.elim "V" FieldType.text).toList) := by
  have parameters (types : List FieldType) :
      (String.join (types.map FieldType.text)).toList = types.flatMap (·.text.toList) := by
    rw [String.toList_join, List.flatMap_map]
  unfold text
  cases descriptor.returnType <;> simp [parameters]

/-- The parts of a text that is read. -/
theorem parse?_eq_some_iff_scan {descriptor : MethodDescriptor} {written : String} :
    parse? written = some descriptor ↔
      ∃ behind tail, written.toList = '(' :: behind ∧
        scanParameters behind = some (descriptor.parameters, tail) ∧
        scanReturn tail = some descriptor.returnType := by
  unfold parse?
  split
  case h_1 behind opened =>
    simp only [Option.bind_eq_bind, Option.bind_eq_some_iff, Option.pure_def,
      Option.some.injEq, Prod.exists]
    constructor
    · rintro ⟨parameters, tail, scanned, returnType, returned, rfl⟩
      exact ⟨behind, tail, opened, scanned, returned⟩
    · rintro ⟨_, tail, opened', scanned, returned⟩
      cases opened.symm.trans opened'
      exact ⟨descriptor.parameters, tail, scanned, descriptor.returnType, returned, rfl⟩
  case h_2 unopened =>
    refine ⟨nofun, ?_⟩
    rintro ⟨behind, _, opened, -⟩
    exact absurd opened (unopened behind)

/-- A complete text is read as the descriptor with this text. -/
theorem parse?_eq_some_iff {descriptor : MethodDescriptor} {written : String} :
    parse? written = some descriptor ↔ descriptor.WellNamed ∧ descriptor.text = written := by
  rw [parse?_eq_some_iff_scan, ← String.toList_inj, toList_text]
  simp only [scanParameters_eq_some_iff, scanReturn_eq_some_iff]
  constructor
  · rintro ⟨behind, tail, opened, ⟨parameters, rfl⟩, result, rfl⟩
    exact ⟨⟨parameters, result⟩, opened.symm⟩
  · rintro ⟨⟨parameters, result⟩, written⟩
    exact ⟨_, _, written.symm, ⟨parameters, rfl⟩, result, rfl⟩

end MethodDescriptor

/-! ## All texts -/

private theorem FieldType.parse_eq_ok_iff {written : String} {type : FieldType} :
    parse written = .ok type ↔ type.WellNamed ∧ type.text = written := by
  rw [← parse?_eq_some_iff, parse]
  cases parse? written <;> simp

private theorem MethodDescriptor.parse_eq_ok_iff {written : String}
    {descriptor : MethodDescriptor} :
    parse written = .ok descriptor ↔ descriptor.WellNamed ∧ descriptor.text = written := by
  rw [← parse?_eq_some_iff, parse]
  cases parse? written <;> simp

/-- A reader with one error raises it exactly on what it does not accept. -/
theorem eq_error_iff_not_accepted {α : Type} {outcome : Except ClassFileError α}
    {accepted : α → Prop} {refusal error : ClassFileError}
    (accepts : ∀ {value}, outcome = .ok value ↔ accepted value)
    (refuses : ∀ error, outcome = .error error → error = refusal) :
    outcome = .error error ↔ error = refusal ∧ ∀ value, ¬accepted value := by
  constructor
  · rintro rfl
    exact ⟨refuses error rfl, fun value here => nomatch accepts.mpr here⟩
  · rintro ⟨rfl, none⟩
    cases done : outcome with
    | ok value => exact absurd (accepts.mp done) (none value)
    | error error => rw [refuses error done]

/-- A text is read as a type, or as a descriptor of a method, exactly if it is the text of one whose
class names are not empty and free of semicolons. Every other text is refused, with an error that
names the text itself. -/
theorem parse_eq_ok_iff_text_eq (written : String) :
    (∀ type, FieldType.parse written = .ok type ↔ type.WellNamed ∧ type.text = written) ∧
    (∀ error, FieldType.parse written = .error error ↔
      error = .invalidDescriptor written ∧
        ∀ type : FieldType, ¬(type.WellNamed ∧ type.text = written)) ∧
    (∀ descriptor, MethodDescriptor.parse written = .ok descriptor ↔
      descriptor.WellNamed ∧ descriptor.text = written) ∧
    ∀ error, MethodDescriptor.parse written = .error error ↔
      error = .invalidDescriptor written ∧
        ∀ descriptor : MethodDescriptor, ¬(descriptor.WellNamed ∧ descriptor.text = written) := by
  refine ⟨fun _ => FieldType.parse_eq_ok_iff, fun _ => ?_,
    fun _ => MethodDescriptor.parse_eq_ok_iff, fun _ => ?_⟩
  · apply eq_error_iff_not_accepted FieldType.parse_eq_ok_iff
    intro error refused
    unfold FieldType.parse at refused
    split at refused
    · cases refused
    · exact (Except.error.inj refused).symm
  · apply eq_error_iff_not_accepted MethodDescriptor.parse_eq_ok_iff
    intro error refused
    unfold MethodDescriptor.parse at refused
    split at refused
    · cases refused
    · exact (Except.error.inj refused).symm

/-- Parentheses and brackets in a class name are part of the name. -/
example :
    MethodDescriptor.parse? "(La)[I(;[[J)V" =
      some ⟨[.object "a)[I(", .array (.array .long)], none⟩ := by
  decide +kernel

end ArrayBounds
