import ArrayBounds.ClassFile.Assembler
import ArrayBounds.Proofs.ClassFile.Reading
import ArrayBounds.Proofs.Text.ModifiedUtf8
import Mathlib.Data.List.Forall2

/-! # What is written can be read -/

namespace ArrayBounds.ClassFile

variable {ε α β : Type} {position : Nat}

/-- A reader makes one value of some bytes. -/
theorem Reads.unique {reader : ByteReader ε α} {bytes : List UInt8} {value other : α}
    (reads : Reads reader position bytes value) (reads' : Reads reader position bytes other) :
    value = other := by
  have same := reads.alone.symm.trans reads'.alone
  injection same with same
  injection same

/-! ## Numbers -/

/-- A number of a fixed size takes that many bytes. -/
theorem reads_number {bytes : List UInt8} {count : Nat} (long : bytes.length = count)
    (f : List UInt8 → α) :
    Reads (Decoder.take count >>= fun bytes => pure (f bytes)) position bytes (f bytes) := by
  subst long
  exact Decoder.reads_take.map f

/-- A byte is read as it stands. -/
theorem reads_u8 (byte : UInt8) : Reads Decoder.u8 position [byte] byte := by
  have reads : Reads Decoder.u8 position [byte] (UInt8.ofNat (bigEndian [byte])) :=
    reads_number (by rfl) fun bytes => UInt8.ofNat (bigEndian bytes)
  simpa [bigEndian] using reads

private theorem bigEndian_bytes16 (n : UInt16) : bigEndian (bytes16 n) = n.toNat := by
  have bound := n.toNat_lt
  simp only [bigEndian, bytes16, List.foldl_cons, List.foldl_nil, UInt8.toNat_ofNat']
  omega

private theorem bigEndian_bytes32 (n : UInt32) : bigEndian (bytes32 n) = n.toNat := by
  have bound := n.toNat_lt
  simp only [bigEndian, bytes32, List.foldl_cons, List.foldl_nil, UInt8.toNat_ofNat']
  omega

/-- The two bytes of a number are read as the number. -/
theorem reads_u16 (n : UInt16) : Reads Decoder.u16 position (bytes16 n) n := by
  have reads : Reads Decoder.u16 position (bytes16 n) (UInt16.ofNat (bigEndian (bytes16 n))) :=
    reads_number (by rfl) fun bytes => UInt16.ofNat (bigEndian bytes)
  rwa [bigEndian_bytes16, UInt16.ofNat_toNat] at reads

/-- The four bytes of a number are read as the number. -/
theorem reads_u32 (n : UInt32) : Reads Decoder.u32 position (bytes32 n) n := by
  have reads : Reads Decoder.u32 position (bytes32 n) (UInt32.ofNat (bigEndian (bytes32 n))) :=
    reads_number (by rfl) fun bytes => UInt32.ofNat (bigEndian bytes)
  rwa [bigEndian_bytes32, UInt32.ofNat_toNat] at reads

private theorem reads_i32 (n : Int32) : Reads Decoder.i32 position (bytes32 n.toUInt32) n := by
  have reads : Reads Decoder.i32 position (bytes32 n.toUInt32) n.toUInt32.toInt32 :=
    (reads_u32 n.toUInt32).map UInt32.toInt32
  simpa using reads

/-- Items that are written one behind the other. -/
theorem reads_times {item : Decoder β} {encode : α → List UInt8} {written : List α}
    {values : List β}
    (all : List.Forall₂ (fun source value => ∀ position, Reads item position (encode source) value)
      written values) :
    Reads (Decoder.times written.length item) position (written.flatMap encode) values := by
  induction all generalizing position with
  | nil => exact .pure []
  | cons first _ ih => exact (first position).bind (ih.map (_ :: ·))

/-! ## Constants -/

namespace Constant

variable {index : Nat}

/-- The encoding of a class is read as the class. -/
theorem reads_classInfo (name : UInt16) :
    Reads (decode index) position (7 :: bytes16 name) (classInfo name) :=
  (reads_u8 7).bind_of_eq ((reads_u16 name).map classInfo) rfl

/-- The encoding of a string constant is read as the constant. -/
theorem reads_string (text : UInt16) :
    Reads (decode index) position (8 :: bytes16 text) (string text) :=
  (reads_u8 8).bind_of_eq ((reads_u16 text).map string) rfl

/-- The encoding of an integer is read as the integer. -/
theorem reads_integer (value : Int32) :
    Reads (decode index) position (3 :: bytes32 value.toUInt32) (integer value) :=
  (reads_u8 3).bind_of_eq ((reads_i32 value).map integer) rfl

/-- The encoding of a name with a descriptor is read as both. -/
theorem reads_nameAndType (name descriptor : UInt16) :
    Reads (decode index) position (12 :: bytes16 name ++ bytes16 descriptor)
      (nameAndType name descriptor) :=
  (reads_u8 12).bind_of_eq ((reads_u16 name).bind ((reads_u16 descriptor).map (nameAndType name)))
    rfl

/-- The encoding of a field reference is read as the reference. -/
theorem reads_fieldRef (owner member : UInt16) :
    Reads (decode index) position (9 :: bytes16 owner ++ bytes16 member) (fieldRef owner member) :=
  (reads_u8 9).bind_of_eq ((reads_u16 owner).bind ((reads_u16 member).map (fieldRef owner))) rfl

/-- The encoding of a method reference is read as the reference. -/
theorem reads_methodRef (owner member : UInt16) :
    Reads (decode index) position (10 :: bytes16 owner ++ bytes16 member)
      (methodRef owner member) :=
  (reads_u8 10).bind_of_eq ((reads_u16 owner).bind ((reads_u16 member).map (methodRef owner))) rfl

/-- The bytes of a text with their number in front. -/
theorem reads_text {text : String} {bytes : List UInt8}
    (decoded : ModifiedUtf8.decode? bytes = some text) (short : bytes.length ≤ 0xFFFF) :
    Reads (decode index) position (1 :: bytes16 (UInt16.ofNat bytes.length) ++ bytes)
      (utf8 text) := by
  have length : (UInt16.ofNat bytes.length).toNat = bytes.length :=
    UInt16.toNat_ofNat_of_lt' (Nat.lt_succ_of_le short)
  have taken (position : Nat) :
      Reads (Decoder.take (UInt16.ofNat bytes.length).toNat) position bytes bytes := by
    rw [length]
    exact Decoder.reads_take
  refine (reads_u8 1).bind_of_eq
    ((reads_u16 _).bind ((taken _).bind_of_eq ?_ (List.append_nil _).symm)) rfl
  rw [decoded]
  exact .pure _

/-- A text that is encoded in plain UTF-8 is read as the text, if it is short and its characters are
encoded in the same way in class files. -/
theorem reads_utf8 {text : String} (basic : ∀ c ∈ text.toList, 0x01 ≤ c.toNat ∧ c.toNat ≤ 0xFFFF)
    (short : text.toUTF8.data.toList.length ≤ 0xFFFF) :
    Reads (decode index) position
      (1 :: bytes16 (UInt16.ofNat text.toUTF8.data.toList.length) ++ text.toUTF8.data.toList)
        (utf8 text) := by
  refine reads_text ?_ short
  rw [← ModifiedUtf8.encode_eq_toUTF8 basic, ModifiedUtf8.decode?_encode]

/-- What stands at the places that a constant takes. -/
def entries (constant : Constant) : List (Option Constant) :=
  if constant.isWide then [some constant, none] else [some constant]

end Constant

/-- The bytes are those of a constant that takes one place. -/
structure Encodes (entry : List UInt8) (constant : Constant) : Prop where
  narrow : constant.isWide = false
  reads : ∀ {index position}, Reads (Constant.decode index) position entry constant

/-- An encoding stands for one constant only. -/
theorem Encodes.unique {entry : List UInt8} {constant other : Constant}
    (encodes : Encodes entry constant) (encodes' : Encodes entry other) : constant = other :=
  (encodes.reads : Reads (Constant.decode 0) 0 _ _).unique encodes'.reads

namespace ConstantPool

/-- The pool with the given constants, the first of which has place one. -/
def ofConstants (constants : List Constant) : ConstantPool :=
  ⟨(none :: constants.map some).toArray⟩

/-- A constant is found at its place, counted from one. -/
theorem get_ofConstants {constants : List Constant} {index : UInt16} {place : Nat}
    {constant : Constant} (found : constants[place]? = some constant)
    (here : index.toNat = place + 1) : (ofConstants constants).get index = .ok constant := by
  have entry : (ofConstants constants).entries[index.toNat]? = some (some constant) := by
    simp [ofConstants, here, found]
  rw [get, entry]

/-- Entries that are read back one by one are read back as a pool. -/
private theorem reads_decodeEntries {entries : List (List UInt8)} {constants : List Constant}
    (all : List.Forall₂ (fun entry constant => ∀ index position,
      Reads (Constant.decode index) position entry constant) entries constants) {index : Nat} :
    Reads (decodeEntries (constants.flatMap Constant.entries).length index) position entries.flatten
      (constants.flatMap Constant.entries) := by
  induction all generalizing index position with
  | nil => exact .pure []
  | @cons entry constant _ constants reads _ ih =>
      rw [List.flatMap_cons, List.flatten_cons, List.length_append, Nat.add_comm]
      unfold Constant.entries
      split
      case isTrue wide =>
        rw [List.length_cons, List.length_singleton, decodeEntries]
        refine (reads _ _).bind ?_
        rw [if_pos wide]
        exact ih.map fun others => some constant :: none :: others
      case isFalse narrow =>
        rw [List.length_singleton, decodeEntries]
        refine (reads _ _).bind ?_
        rw [if_neg narrow]
        exact ih.map (some constant :: ·)

/-- A pool is read from the number of its places, place zero included, and its entries. -/
theorem reads_places {entries : List (List UInt8)} {constants : List Constant}
    (all : List.Forall₂ (fun entry constant => ∀ index position,
      Reads (Constant.decode index) position entry constant) entries constants)
    (short : (constants.flatMap Constant.entries).length ≤ 0xFFFE) :
    Reads ConstantPool.decode position
      (bytes16 (UInt16.ofNat ((constants.flatMap Constant.entries).length + 1)) ++ entries.flatten)
      ⟨(none :: constants.flatMap Constant.entries).toArray⟩ := by
  have length :=
    UInt16.toNat_ofNat_of_lt'
      (show (constants.flatMap Constant.entries).length + 1 < 0x10000 by omega)
  refine (reads_u16 _).bind ?_
  rw [length, Nat.add_sub_cancel]
  exact (reads_decodeEntries all).map fun entries => ConstantPool.mk (none :: entries).toArray

/-- Encoded constants with their count in front are read as the constant pool. -/
theorem reads_decode {entries : List (List UInt8)} {constants : List Constant}
    (all : List.Forall₂ Encodes entries constants) (short : entries.length ≤ 0xFFFE) :
    Reads ConstantPool.decode position
      (bytes16 (UInt16.ofNat (entries.length + 1)) ++ entries.flatten) (ofConstants constants) := by
  have narrow : constants.flatMap Constant.entries = constants.map some := by
    clear short
    induction all with
    | nil => rfl
    | cons encodes _ ih =>
        rw [List.flatMap_cons, ih, List.map_cons, Constant.entries, encodes.narrow]
        rfl
  have places : (constants.flatMap Constant.entries).length = entries.length := by
    rw [narrow, List.length_map, all.length_eq]
  have reads : Reads ConstantPool.decode position _ _ :=
    reads_places (all.imp fun _ _ encodes _ _ => encodes.reads)
      (Nat.le_trans (Nat.le_of_eq places) short)
  rwa [places, narrow] at reads

end ConstantPool

/-! ## Attributes -/

variable {pool : ConstantPool}

/-- Where no attributes are written, none are read. -/
theorem reads_noAttributes {start : α} {visit : α → String → List UInt8 → Except ClassFileError α} :
    Reads (foldAttributes pool start visit) position (bytes16 0) start :=
  (reads_u16 0).bind_of_eq (.pure start) rfl

/-- An attribute is read back if its length is that of its body. -/
private theorem reads_attribute {name : UInt16} {title : String}
    (titled : pool.utf8 name = .ok title) {length : UInt32} {body : List UInt8}
    (measured : length.toNat = body.length) :
    Reads (decodeAttribute pool) position
      (Assembler.withHeader name length body) (title, body) := by
  unfold Assembler.withHeader
  rw [List.append_assoc]
  refine (reads_u16 name).bind ((Reads.lift titled).bind_of_eq ((reads_u32 _).bind ?_) rfl)
  exact reads_number measured.symm fun bytes => (title, bytes)

/-- A single attribute is read and visited, if the length in its header is that of its body. -/
theorem reads_oneAttribute {start result : α}
    {visit : α → String → List UInt8 → Except ClassFileError α} {name : UInt16} {title : String}
    (titled : pool.utf8 name = .ok title) {length : UInt32} {body : List UInt8}
    (measured : length.toNat = body.length) (visited : visit start title body = .ok result) :
    Reads (foldAttributes pool start visit) position
      (bytes16 1 ++ Assembler.withHeader name length body) result := by
  refine (reads_u16 1).bind
    ((reads_attribute titled measured).bind_of_eq ?_ (List.append_nil _).symm)
  exact (Reads.lift visited).bind_of_eq (.pure result) rfl

/-- Bytes that a decoder takes completely are its whole input. -/
theorem readFrom_of_reads {decoder : Decoder α} {bytes : List UInt8} {value : α}
    (reads : Reads decoder 0 bytes value) : decoder.readFrom bytes = .ok value := by
  unfold Decoder.readFrom
  rw [reads.alone]
  rfl

/-! ## Methods -/

/-- The number of bytes that the body of a method takes. -/
def Code.size (code : Code) : Nat :=
  12 + code.bytes.length + if code.lines = [] then 0 else 8 + 4 * code.lines.length

/-- What the format can represent of a body. -/
structure Code.Fits (code : Code) : Prop where
  lines : code.lines.length ≤ 0xFFFF
  size : code.size < 0x100000000

instance (code : Code) : Decidable code.Fits :=
  decidable_of_iff (code.lines.length ≤ 0xFFFF ∧ code.size < 0x100000000)
    ⟨fun ⟨lines, size⟩ => ⟨lines, size⟩, fun ⟨lines, size⟩ => ⟨lines, size⟩⟩

/-- A table of lines is read back. -/
private theorem reads_lines {lines : List LineRow} (short : lines.length ≤ 0xFFFF) :
    Reads decodeLines position
      (bytes16 (UInt16.ofNat lines.length) ++ lines.flatMap
        fun row => bytes16 row.start ++ bytes16 row.line) lines := by
  have length : (UInt16.ofNat lines.length).toNat = lines.length :=
    UInt16.toNat_ofNat_of_lt' (Nat.lt_succ_of_le short)
  refine (reads_u16 _).bind ?_
  rw [length]
  refine reads_times (List.forall₂_same.mpr fun row _ position => ?_)
  exact (reads_u16 row.start).bind ((reads_u16 row.line).map (LineRow.mk row.start))

/-- A row of the table of lines takes four bytes. -/
private theorem length_flatMap_rows (lines : List LineRow) :
    (lines.flatMap fun row => bytes16 row.start ++ bytes16 row.line).length = 4 * lines.length := by
  induction lines with
  | nil => rfl
  | cons row lines ih =>
      rw [List.flatMap_cons, List.length_append, ih, List.length_cons]
      change 4 + _ = _
      omega

/-- The size of a code attribute is the number of its bytes. -/
private theorem length_encodeCode (linesName : UInt16) (code : Code) :
    (Assembler.encodeCode linesName code).length = code.size := by
  unfold Assembler.encodeCode Assembler.encodeLines Code.size Assembler.withHeader
  cases code.lines with
  | nil =>
      simp [bytes16, bytes32]
      omega
  | cons row lines =>
      simp [bytes16, bytes32]
      omega

/-- A line number table, with the number of attributes that it takes in front. -/
theorem reads_lineAttributes {lines : List LineRow} (short : lines.length ≤ 0xFFFF)
    {linesName : UInt16} (titled : pool.utf8 linesName = .ok "LineNumberTable") :
    Reads (foldAttributes pool [] fun lines name body =>
        if name = "LineNumberTable" then (lines ++ ·) <$> decodeLines.readFrom body else .ok lines)
          position
      (Assembler.encodeLines linesName lines) lines := by
  unfold Assembler.encodeLines
  split
  case isTrue none =>
    rw [List.isEmpty_iff.mp none]
    exact reads_noAttributes
  case isFalse some =>
    refine reads_oneAttribute titled ?_ ?_
    · rw [List.length_append, length_flatMap_rows, UInt32.toNat_add, UInt32.toNat_mul,
        UInt32.toNat_ofNat']
      change (2 + 4 * (lines.length % 0x100000000) % 0x100000000) % 0x100000000 =
        2 + 4 * lines.length
      omega
    · rw [if_pos rfl, readFrom_of_reads (reads_lines short)]
      rfl

/-- A method body is read back, without its handlers. -/
private theorem Code.reads_decode {code : Code} (fits : code.Fits) {linesName : UInt16}
    (titled : pool.utf8 linesName = .ok "LineNumberTable") :
    Reads (Code.decode pool) position (Assembler.encodeCode linesName code)
      { code with handlers := [] } := by
  have length : (UInt32.ofNat code.bytes.length).toNat = code.bytes.length := by
    refine UInt32.toNat_ofNat_of_lt' ?_
    have := fits.size
    unfold Code.size at this
    change code.bytes.length < 0x100000000
    omega
  have taken (position : Nat) :
      Reads (Decoder.take (UInt32.ofNat code.bytes.length).toNat)
        position code.bytes code.bytes := by
    rw [length]
    exact Decoder.reads_take
  simp only [Assembler.encodeCode, List.append_assoc]
  refine (reads_u16 _).bind
    ((reads_u16 _).bind ((reads_u32 _).bind ((taken _).bind ((reads_u16 0).bind ?_))))
  refine (Reads.pure []).bind_of_eq ?_ (List.nil_append _).symm
  exact (reads_lineAttributes fits.lines titled).map
    (Code.mk code.maxStack code.maxLocals code.bytes [])

/-- A method that is written is read back, without exception handlers. -/
theorem Method.reads_decode {spec : MethodSpec} {method : Method} {codeName linesName : UInt16}
    (titled : pool.utf8 codeName = .ok "Code")
    (titled' : pool.utf8 linesName = .ok "LineNumberTable") (access : method.access = ⟨spec.access⟩)
    (name : pool.utf8 spec.name = .ok method.name)
    (descriptor : pool.utf8 spec.descriptor = .ok method.descriptor)
    (code : method.code = spec.code.map ({ · with handlers := [] }))
    (fits : ∀ code ∈ spec.code, code.Fits) :
    Reads (Method.decode pool) position
      (Assembler.encodeMethod codeName linesName spec) method := by
  obtain ⟨attributes, written, body⟩ : ∃ attributes,
      Assembler.encodeMethod codeName linesName spec =
        bytes16 spec.access ++ (bytes16 spec.name ++ (bytes16 spec.descriptor ++ attributes)) ∧
      ∀ position, Reads (foldAttributes pool none fun code name body =>
        if name = "Code" then some <$> (Code.decode pool).readFrom body else .ok code)
          position attributes method.code := by
    unfold Assembler.encodeMethod
    rw [code, List.append_assoc, List.append_assoc]
    cases given : spec.code with
    | none => exact ⟨_, rfl, fun _ => reads_noAttributes⟩
    | some code =>
        have fits := fits code given
        refine ⟨_, rfl, fun _ => reads_oneAttribute titled ?_ ?_⟩
        · rw [length_encodeCode]
          exact UInt32.toNat_ofNat_of_lt' fits.size
        · rw [if_pos rfl, readFrom_of_reads (Code.reads_decode fits titled')]
          rfl
  obtain ⟨flags, title, type, code⟩ := method
  subst access
  rw [written]
  refine (reads_u16 _).bind
    ((reads_u16 _).bind ((Reads.lift name).bind_of_eq ?_ (List.nil_append _).symm))
  refine (reads_u16 _).bind ((Reads.lift descriptor).bind_of_eq ?_ (List.nil_append _).symm)
  exact (body _).map (Method.mk ⟨spec.access⟩ title type)

end ArrayBounds.ClassFile
