import ArrayBounds.Program.Json
import ArrayBounds.Proofs.Json.Records
import Mathlib.Data.Option.Basic

/-! # Classes are read as they were written

For each part of a class, from the types and kinds of operands up to whole lists of classes, reading
undoes writing (`ArrayBounds.Program.ClassDef.listOfJson?_map_toJson`). Three things have to be
ruled out: floating point constants, which are written as their bits, positions that do not fit into
64 bits, and types that are nested deeper than the 127 levels of the whole allow. What is written is
plain, so it has a text.
-/

namespace ArrayBounds

open Json

/-! ## Types -/

namespace FieldType

/-- Types are described by plain values. -/
private theorem plain_toJson (type : FieldType) : type.toJson.Plain := by
  induction type with
  | object name => exact (Plain.string name).tagged _
  | array element ih => exact ih.tagged _
  | _ => exact .string _

/-- A type is read as it was written, if there is room for the types within it. -/
theorem ofJson?_toJson {type : FieldType} {room : Nat} (shallow : type.toJson.depth ≤ room) :
    ofJson? room type.toJson = some type := by
  induction type generalizing room with
  | object name =>
      rw [toJson, depth_tagged] at shallow
      obtain ⟨room, rfl⟩ := Nat.exists_eq_add_one_of_ne_zero (Nat.ne_zero_of_lt shallow)
      rfl
  | array element ih =>
      rw [toJson, depth_tagged] at shallow
      obtain ⟨room, rfl⟩ := Nat.exists_eq_add_one_of_ne_zero (Nat.ne_zero_of_lt shallow)
      rw [toJson, ofJson?, variant?_tagged]
      simp [ih (Nat.le_of_succ_le_succ shallow)]
  | _ => cases room <;> rfl

end FieldType

namespace Program

/-! ## Kinds and operations -/

/-- A kind of values is read back. -/
@[simp] theorem ValueKind.ofJson?_toJson (kind : ValueKind) : ofJson? kind.toJson = some kind :=
  named?_ofString (by decide) (by cases kind <;> decide)

/-- A kind of numbers is read back. -/
@[simp] theorem NumericKind.ofJson?_toJson (kind : NumericKind) : ofJson? kind.toJson = some kind :=
  named?_ofString (by decide) (by cases kind <;> decide)

/-- A kind of elements is read back. -/
@[simp] theorem ElementKind.ofJson?_toJson (kind : ElementKind) : ofJson? kind.toJson = some kind :=
  named?_ofString (by decide) (by cases kind <;> decide)

/-- The target of a conversion is read back. -/
@[simp] theorem ConversionTarget.ofJson?_toJson (target : ConversionTarget) :
    ofJson? target.toJson = some target :=
  named?_ofString (by decide) (by cases target <;> decide)

/-- An arithmetic operation is read back. -/
@[simp] theorem ArithmeticOp.ofJson?_toJson (op : ArithmeticOp) : ofJson? op.toJson = some op :=
  named?_ofString (by decide) (by cases op <;> decide)

/-- A stack operation is read back. -/
@[simp] theorem StackOp.ofJson?_toJson (op : StackOp) : ofJson? op.toJson = some op :=
  named?_ofString (by decide) (by cases op <;> decide)

/-- A comparison is read back. -/
@[simp] theorem Comparison.ofJson?_toJson (comparison : Comparison) :
    ofJson? comparison.toJson = some comparison :=
  named?_ofString (by decide) (by cases comparison <;> decide)

/-- A kind of calls is read back. -/
@[simp] theorem InvokeKind.ofJson?_toJson (kind : InvokeKind) : ofJson? kind.toJson = some kind :=
  named?_ofString (by decide) (by cases kind <;> decide)

/-! ## Conditions and constants -/

/-- A condition is read back. -/
@[simp] theorem Condition.ofJson?_toJson (condition : Condition) :
    ofJson? condition.toJson = some condition := by
  cases condition with
  | zero comparison => simp [toJson, ofJson?]
  | ints comparison => simp [toJson, ofJson?]
  | _ => rfl

/-- Conditions are described by plain values. -/
private theorem Condition.plain_toJson (condition : Condition) : condition.toJson.Plain := by
  cases condition with
  | zero comparison => exact Plain.tagged (.string _) _
  | ints comparison => exact Plain.tagged (.string _) _
  | _ => exact .string _

/-- The constant is a floating point number. -/
def Constant.isFloating : Constant → Bool
  | float _ | double _ => true
  | _ => false

/-- Constants other than floating-point numbers are read back. -/
private theorem Constant.ofJson?_toJson {value : Constant} (exact : value.isFloating = false) :
    ofJson? value.toJson = some value := by
  cases value with
  | null => rfl
  | int value => simp [toJson, ofJson?]
  | long value => simp [toJson, ofJson?]
  | float bits => cases exact
  | double bits => cases exact
  | string value => rfl
  | classLiteral name => rfl
  | unknown => rfl

/-- Constants are described by plain values. -/
private theorem Constant.plain_toJson (value : Constant) : value.toJson.Plain := by
  cases value with
  | null => exact .string _
  | unknown => exact .string _
  | int value => exact (Plain.ofInt _).tagged _
  | long value => exact (Plain.ofInt _).tagged _
  | float bits => exact Plain.tagged (.string _) _
  | double bits => exact Plain.tagged (.string _) _
  | string value => exact Plain.tagged (.string _) _
  | classLiteral name => exact Plain.tagged (.string _) _

/-! ## Instructions -/

namespace Instruction

/-- The instruction loads a floating point constant. -/
def isFloating : Instruction → Bool
  | const value => value.isFloating
  | _ => false

private theorem ofJson?_tagged (name : String) (payload : Json) :
    ofJson? (tagged name payload) = ofPayload? name payload := rfl

private theorem ofJson?_taggedRecord (name : String) (fields : List (String × Json)) :
    ofJson? (taggedRecord name fields) = ofPayload? name (ofMembers fields) := rfl

/-- An instruction is read as it was written, if its jumps can be written as 64-bit numbers and its
types are not nested too deeply. -/
theorem ofJson?_toJson {instruction : Instruction} (exact : instruction.isFloating = false)
    (fits : ∀ target ∈ instruction.targets, target < UInt64.size)
    (shallow : instruction.toJson.depth ≤ typeRoom + 2) :
    ofJson? instruction.toJson = some instruction := by
  cases instruction with
  | nop | arrayLength | monitor | throw => rfl
  | const value =>
      rw [toJson, ofJson?_tagged, ofPayload?, Constant.ofJson?_toJson exact]
      rfl
  | stack _ | arrayLoad _ | arrayStore _ | compare _ =>
      rw [toJson, ofJson?_tagged, ofPayload?]
      simp
  | load _ _ | store _ _ | increment _ _ | arithmetic _ _ | convert _ _ | unsupported _ =>
      rw [toJson, ofJson?_taggedRecord, ofPayload?]
      simp [fields?_ofMembers]
  | invoke _ _ _ _ | invokeDynamic _ _ | getField _ _ | putField _ _ | newObject _ | checkCast _
  | instanceOf _ =>
      rw [toJson, ofJson?_taggedRecord, ofPayload?]
      simp [fields?_ofMembers]
  | newArray element =>
      -- The variant and its record take two levels, which leaves `typeRoom` levels for the type.
      have typed :=
        FieldType.ofJson?_toJson (depth_le_of_mem_taggedRecord shallow List.mem_cons_self)
      rw [toJson, ofJson?_taggedRecord, ofPayload?]
      simp [fields?_ofMembers, typed]
  | multiNewArray type dimensions =>
      have typed :=
        FieldType.ofJson?_toJson (depth_le_of_mem_taggedRecord shallow List.mem_cons_self)
      rw [toJson, ofJson?_taggedRecord, ofPayload?]
      simp [fields?_ofMembers, typed]
  | branch condition target =>
      have position := nat?_ofNat (fits target List.mem_cons_self)
      rw [toJson, ofJson?_taggedRecord, ofPayload?]
      simp [fields?_ofMembers, position]
  | goto target =>
      have position := nat?_ofNat (fits target List.mem_cons_self)
      rw [toJson, ofJson?_taggedRecord, ofPayload?]
      simp [fields?_ofMembers, position]
  | switch default targets =>
      have position := nat?_ofNat (fits default (List.mem_append_right _ List.mem_cons_self))
      have positions : items? nat? (.array (targets.map Json.ofNat)) = some targets :=
        items?_map fun target member => nat?_ofNat (fits target (List.mem_append_left _ member))
      rw [toJson, ofJson?_taggedRecord, ofPayload?]
      simp [fields?_ofMembers, position, positions]
  | ret kind =>
      rw [toJson, ofJson?_tagged, ofPayload?]
      cases kind with
      | none => rfl
      | some kind => exact congrArg (ret <$> ·) (nullable?_ofString kind.ofJson?_toJson)

/-- Instructions are described by plain values. -/
private theorem plain_toJson (instruction : Instruction) : instruction.toJson.Plain := by
  cases instruction with
  | nop | arrayLength | monitor | throw => exact .ofString _
  | const value => exact value.plain_toJson.tagged _
  | stack _ | arrayLoad _ | arrayStore _ | compare _ => exact (Plain.ofString _).tagged _
  | ret kind => cases kind with
    | none => exact Plain.null.tagged _
    | some kind => exact (Plain.ofString _).tagged _
  | load _ _ | store _ _ | increment _ _ | arithmetic _ _ | convert _ _ | unsupported _ =>
      apply Plain.taggedRecord
      simp [ValueKind.toJson, ArithmeticOp.toJson, NumericKind.toJson, ConversionTarget.toJson]
  | invoke _ _ _ _ | invokeDynamic _ _ | newObject _ | checkCast _ | instanceOf _ =>
      apply Plain.taggedRecord
      simp [InvokeKind.toJson]
  | getField _ _ | putField _ _ =>
      apply Plain.taggedRecord
      simp [Plain.bool]
  | newArray _ | multiNewArray _ _ =>
      apply Plain.taggedRecord
      simp [FieldType.plain_toJson]
  | branch _ _ | goto _ =>
      apply Plain.taggedRecord
      simp [Condition.plain_toJson]
  | switch default targets =>
      apply Plain.taggedRecord
      simp [Plain.map Plain.ofNat targets]

end Instruction

/-! ## Methods and classes -/

private theorem LineMark.ofJson?_toJson {mark : LineMark} (fits : mark.index < UInt64.size) :
    ofJson? mark.toJson = some mark := by
  rw [toJson, ofJson?]
  simp [fields?_ofMembers, nat?_ofNat fits]

private theorem LineMark.plain_toJson (mark : LineMark) : mark.toJson.Plain := by
  apply Plain.ofMembers
  simp

/-- The method can be written: it loads no floating point constants, its jumps lead to instructions,
and positions in it are 64-bit numbers. -/
structure Method.Writable (method : Method) : Prop where
  exact : ∀ instruction ∈ method.instructions, instruction.isFloating = false
  jumps : ∀ instruction ∈ method.instructions, ∀ target ∈ instruction.targets,
    target < method.instructions.size
  size : method.instructions.size ≤ UInt64.size
  marks : ∀ mark ∈ method.lines, mark.index < UInt64.size

/-- The description of a method is read back. -/
private theorem Method.ofJson?_toJson {method : Method} (writable : method.Writable)
    (shallow : method.toJson.depth ≤ Instruction.typeRoom + 4) :
    ofJson? method.toJson = some method := by
  have instructions :
      items? Instruction.ofJson? (.array (method.instructions.toList.map Instruction.toJson)) =
      some method.instructions.toList := by
    apply items?_map
    intro instruction member
    have here : instruction ∈ method.instructions := Array.mem_toList_iff.mp member
    apply Instruction.ofJson?_toJson (writable.exact instruction here)
    · intro target jumps
      exact Nat.lt_of_lt_of_le (writable.jumps instruction here target jumps) writable.size
    · have list : (Json.array (method.instructions.toList.map Instruction.toJson)).depth ≤
          Instruction.typeRoom + 3 :=
        depth_le_of_mem_ofMembers "instructions" shallow (by simp)
      exact depth_le_of_mem_array list (List.mem_map_of_mem member)
  have lines : items? LineMark.ofJson? (.array (method.lines.toList.map LineMark.toJson)) =
      some method.lines.toList :=
    items?_map fun mark member =>
      LineMark.ofJson?_toJson (writable.marks mark (Array.mem_toList_iff.mp member))
  rw [toJson, ofJson?]
  simp [fields?_ofMembers, listOrEmpty?, instructions, lines]

private theorem Method.plain_toJson (method : Method) : method.toJson.Plain := by
  apply Plain.ofMembers
  simp [Plain.map Instruction.plain_toJson, Plain.map LineMark.plain_toJson]

private theorem textOrNone?_ofOption (text : Option String) :
    textOrNone? (some (ofOption (text.map Json.ofString))) = some text := by
  cases text <;> rfl

/-- The description of a class is read back. -/
private theorem ClassDef.ofJson?_toJson {c : ClassDef}
    (writable : ∀ method ∈ c.methods, method.Writable)
    (shallow : c.toJson.depth ≤ Instruction.typeRoom + 6) : ofJson? c.toJson = some c := by
  have methods : items? Method.ofJson? (.array (c.methods.map Method.toJson)) = some c.methods := by
    apply items?_map
    intro method member
    apply Method.ofJson?_toJson (writable method member)
    have list : (Json.array (c.methods.map Method.toJson)).depth ≤ Instruction.typeRoom + 5 :=
      depth_le_of_mem_ofMembers "methods" shallow (by simp)
    exact depth_le_of_mem_array list (List.mem_map_of_mem member)
  rw [toJson, ofJson?]
  simp [fields?_ofMembers, textOrNone?_ofOption, listOrEmpty?, methods]

/-- What is written for a class is plain. -/
theorem ClassDef.plain_toJson (c : ClassDef) : c.toJson.Plain := by
  apply Plain.ofMembers
  simp [Plain.map Method.plain_toJson, Plain.ofOption]

/-- Classes are read as they were written, if the list of them is nested at most 127 levels deep. -/
theorem ClassDef.listOfJson?_map_toJson {classes : List ClassDef}
    (writable : ∀ c ∈ classes, ∀ method ∈ c.methods, method.Writable)
    (shallow : (Json.array (classes.map toJson)).depth ≤ 127) :
    listOfJson? (.array (classes.map toJson)) = some classes := by
  apply items?_map
  intro c member
  exact ofJson?_toJson (writable c member)
    (depth_le_of_mem_array shallow (List.mem_map_of_mem member))

end Program

end ArrayBounds
