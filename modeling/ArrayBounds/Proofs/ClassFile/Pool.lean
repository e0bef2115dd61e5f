import ArrayBounds.Proofs.ClassFile.Writing

/-! # Constant pools come back from their encoding

Every kind of constant has an encoding: a tag, and behind it its fields, most significant byte first
(`ArrayBounds.ClassFile.Constant.encode`). The encodings of the constants of a pool stand one behind
the other without anything between them, and the number in front of them counts places, not
constants. Reading gives each constant back at the place that the constants in front of it leave to
it, and nothing at any other place (`ArrayBounds.ClassFile.ConstantPool.decode_encode`).
-/

namespace ArrayBounds.ClassFile

variable {position : Nat}

/-! ## Numbers of eight bytes -/

/-- The eight bytes of a number, most significant first. -/
def bytes64 (n : UInt64) : List UInt8 :=
  bytes32 (UInt32.ofNat (n.toNat / 0x100000000)) ++ bytes32 (UInt32.ofNat n.toNat)

/-- Eight bytes give back the number that they were made of. -/
private theorem bigEndian_bytes64 (n : UInt64) : bigEndian (bytes64 n) = n.toNat := by
  have bound := n.toNat_lt
  simp only [bigEndian, bytes64, bytes32, List.cons_append, List.nil_append, List.foldl_cons,
    List.foldl_nil, UInt8.toNat_ofNat', UInt32.toNat_ofNat']
  omega

private theorem reads_u64 (n : UInt64) : Reads Decoder.u64 position (bytes64 n) n := by
  have reads : Reads Decoder.u64 position (bytes64 n) (UInt64.ofNat (bigEndian (bytes64 n))) :=
    reads_number (by rfl) fun bytes => UInt64.ofNat (bigEndian bytes)
  rwa [bigEndian_bytes64, UInt64.ofNat_toNat] at reads

private theorem reads_i64 (n : Int64) : Reads Decoder.i64 position (bytes64 n.toUInt64) n := by
  have reads : Reads Decoder.i64 position (bytes64 n.toUInt64) n.toUInt64.toInt64 :=
    (reads_u64 n.toUInt64).map UInt64.toInt64
  simpa using reads

/-! ## Constants -/

namespace Constant

/-- The encoding of a constant. -/
def encode : Constant → List UInt8
  | utf8 text =>
      1 :: bytes16 (UInt16.ofNat (ModifiedUtf8.encode text).length) ++ ModifiedUtf8.encode text
  | integer value => 3 :: bytes32 value.toUInt32
  | float bits => 4 :: bytes32 bits
  | long value => 5 :: bytes64 value.toUInt64
  | double bits => 6 :: bytes64 bits
  | classInfo name => 7 :: bytes16 name
  | string text => 8 :: bytes16 text
  | fieldRef owner member => 9 :: bytes16 owner ++ bytes16 member
  | methodRef owner member => 10 :: bytes16 owner ++ bytes16 member
  | interfaceMethodRef owner member => 11 :: bytes16 owner ++ bytes16 member
  | nameAndType name descriptor => 12 :: bytes16 name ++ bytes16 descriptor
  | methodHandle kind reference => 15 :: kind :: bytes16 reference
  | methodType descriptor => 16 :: bytes16 descriptor
  | dynamic bootstrap member => 17 :: bytes16 bootstrap ++ bytes16 member
  | invokeDynamic bootstrap member => 18 :: bytes16 bootstrap ++ bytes16 member
  | module name => 19 :: bytes16 name
  | package name => 20 :: bytes16 name

/-- The length of a text is written in two bytes. -/
def Fits : Constant → Prop
  | utf8 text => (ModifiedUtf8.encode text).length ≤ 0xFFFF
  | _ => True

/-- The number of places that a constant takes. -/
def places (constant : Constant) : Nat :=
  if constant.isWide then 2 else 1

private theorem length_entries (constant : Constant) :
    constant.entries.length = constant.places := by
  unfold entries places
  split <;> rfl

/-- The first of its places holds the constant, and the second one nothing. -/
theorem getElem?_entries {constant other : Constant} {place : Nat} :
    constant.entries[place]? = some (some other) ↔ place = 0 ∧ constant = other := by
  unfold entries
  split <;> rcases place with _ | _ | place <;> simp

/-- A constant is read from its encoding, whatever follows it. -/
theorem reads_encode {constant : Constant} (fits : constant.Fits) (index position : Nat) :
    Reads (decode index) position constant.encode constant := by
  cases constant with
  | utf8 text => exact reads_text (ModifiedUtf8.decode?_encode text) fits
  | integer value => exact reads_integer value
  | float bits => exact (reads_u8 4).bind_of_eq ((reads_u32 bits).map float) rfl
  | long value => exact (reads_u8 5).bind_of_eq ((reads_i64 value).map long) rfl
  | double bits => exact (reads_u8 6).bind_of_eq ((reads_u64 bits).map double) rfl
  | classInfo name => exact reads_classInfo name
  | string text => exact reads_string text
  | fieldRef owner member => exact reads_fieldRef owner member
  | methodRef owner member => exact reads_methodRef owner member
  | interfaceMethodRef owner member =>
      exact (reads_u8 11).bind_of_eq
        ((reads_u16 owner).bind ((reads_u16 member).map (interfaceMethodRef owner))) rfl
  | nameAndType name descriptor => exact reads_nameAndType name descriptor
  | methodHandle kind reference =>
      exact (reads_u8 15).bind_of_eq
        ((reads_u8 kind).bind ((reads_u16 reference).map (methodHandle kind))) rfl
  | methodType descriptor =>
      exact (reads_u8 16).bind_of_eq ((reads_u16 descriptor).map methodType) rfl
  | dynamic bootstrap member =>
      exact (reads_u8 17).bind_of_eq
        ((reads_u16 bootstrap).bind ((reads_u16 member).map (dynamic bootstrap))) rfl
  | invokeDynamic bootstrap member =>
      exact (reads_u8 18).bind_of_eq
        ((reads_u16 bootstrap).bind ((reads_u16 member).map (invokeDynamic bootstrap))) rfl
  | module name => exact (reads_u8 19).bind_of_eq ((reads_u16 name).map module) rfl
  | package name => exact (reads_u8 20).bind_of_eq ((reads_u16 name).map package) rfl

end Constant

/-! ## Pools -/

namespace ConstantPool

variable {constants before after : List Constant} {constant : Constant}

/-- The number of places that constants take together. -/
def places (constants : List Constant) : Nat :=
  constants.foldr (fun constant total => constant.places + total) 0

private theorem places_cons (first : Constant) (rest : List Constant) :
    places (first :: rest) = first.places + places rest := rfl

/-- The encoding of a pool: the number of its places, place zero included, and its constants. -/
def encode (constants : List Constant) : List UInt8 :=
  bytes16 (UInt16.ofNat (1 + places constants)) ++ constants.flatMap Constant.encode

/-- Constants take as many entries as they take places. -/
private theorem length_flatMap_entries (constants : List Constant) :
    (constants.flatMap Constant.entries).length = places constants := by
  induction constants with
  | nil => rfl
  | cons first rest ih =>
      rw [List.flatMap_cons, List.length_append, first.length_entries, ih, places_cons]

/-- A constant stands behind the places of those in front of it, and nothing stands anywhere
else. -/
theorem getElem?_flatMap_entries {place : Nat} :
    (constants.flatMap Constant.entries)[place]? = some (some constant) ↔
      ∃ before after, constants = before ++ constant :: after ∧ place = places before := by
  constructor
  · intro found
    induction constants generalizing place with
    | nil => simp at found
    | cons first rest ih =>
        rw [List.flatMap_cons, List.getElem?_append] at found
        split at found
        case isTrue =>
          obtain ⟨rfl, rfl⟩ := Constant.getElem?_entries.mp found
          exact ⟨[], rest, rfl, rfl⟩
        case isFalse behind =>
          obtain ⟨before, after, rfl, same⟩ := ih found
          refine ⟨first :: before, after, rfl, ?_⟩
          rw [first.length_entries] at same behind
          rw [places_cons]
          omega
  · rintro ⟨before, after, rfl, rfl⟩
    have here : constant.entries[0]? = some (some constant) :=
      Constant.getElem?_entries.mpr ⟨rfl, rfl⟩
    have inside : 0 < constant.entries.length := (List.getElem?_eq_some_iff.mp here).1
    rw [List.flatMap_append, List.flatMap_cons, ← length_flatMap_entries before,
      List.getElem?_append_right (Nat.le_refl _), Nat.sub_self,
      List.getElem?_append_left inside, here]

/-- The pool with the given constants, each of which stands behind the places of those in front of
it. -/
def laidOut (constants : List Constant) : ConstantPool :=
  ⟨(none :: constants.flatMap Constant.entries).toArray⟩

/-- A pool is read back with each constant in its place. -/
private theorem reads_encode (fits : ∀ constant ∈ constants, constant.Fits)
    (short : places constants ≤ 0xFFFE) :
    Reads decode position (encode constants) (laidOut constants) := by
  have all :
      List.Forall₂
        (fun entry constant =>
          ∀ index position, Reads (Constant.decode index) position entry constant)
        (constants.map Constant.encode) constants := by
    rw [List.forall₂_map_left_iff, List.forall₂_same]
    exact fun constant member => Constant.reads_encode (fits constant member)
  rw [← length_flatMap_entries] at short
  have reads : Reads decode position _ _ := reads_places all short
  rwa [length_flatMap_entries, Nat.add_comm, ← List.flatMap_def] at reads

section

variable {pool : ConstantPool} {index : UInt16}

/-- An index gives the constant that has been read for it. -/
private theorem EStateM.get_eq_ok_iff :
    pool.get index = .ok constant ↔ pool.entries[index.toNat]? = some (some constant) := by
  unfold get
  split
  case h_1 entry found => simp [found]
  case h_2 none => exact ⟨nofun, fun found => absurd found (none constant)⟩

/-- Looking up a place has one way to fail. -/
theorem get_eq_error_of_forall_ne (none : ∀ constant, pool.get index ≠ .ok constant) :
    pool.get index = .error (.badConstantIndex index) := by
  cases found : pool.get index with
  | ok constant => exact absurd found (none constant)
  | error error =>
      unfold get at found
      split at found
      · cases found
      · exact found.symm

/-- An index gives the constant before which so many places are taken. -/
private theorem get_laidOut_eq_ok_iff :
    (laidOut constants).get index = .ok constant ↔
      ∃ before after, constants = before ++ constant :: after ∧
        index.toNat = 1 + places before := by
  rw [EStateM.get_eq_ok_iff]
  cases index.toNat with
  | zero =>
      refine ⟨nofun, ?_⟩
      rintro ⟨before, _, -, first⟩
      omega
  | succ place =>
      have shifted : (laidOut constants).entries[place + 1]? =
          (constants.flatMap Constant.entries)[place]? := by
        simp [laidOut]
      simp only [shifted, getElem?_flatMap_entries, Nat.add_comm 1, Nat.add_right_cancel_iff]

end

/-- Reading the encoding of a pool with some bytes behind it takes the encoding and leaves these
bytes. The pool has as many places as the encoding says. Each constant stands behind the places of
those in front of it, and looking up any other place fails. -/
theorem decode_encode (constants : List Constant) (fits : ∀ constant ∈ constants, constant.Fits)
    (short : places constants ≤ 0xFFFE) (position : Nat) (trailing : List UInt8) :
    ∃ pool, decode ⟨encode constants ++ trailing, position⟩ =
        .ok (pool, ⟨trailing, position + (encode constants).length⟩) ∧
      pool.size = 1 + places constants ∧
      (∀ before constant after, constants = before ++ constant :: after →
        pool.get (UInt16.ofNat (1 + places before)) = .ok constant) ∧
      ∀ index : UInt16,
        (∀ before constant after, constants = before ++ constant :: after →
          index.toNat ≠ 1 + places before) → pool.get index = .error (.badConstantIndex index) := by
  refine ⟨laidOut constants, reads_encode fits short trailing, ?_, ?_, ?_⟩
  · rw [size, laidOut, List.size_toArray, List.length_cons, length_flatMap_entries, Nat.add_comm]
  · rintro before constant after rfl
    refine get_laidOut_eq_ok_iff.mpr ⟨before, after, rfl, UInt16.toNat_ofNat_of_lt' ?_⟩
    have inside : places before ≤ places (before ++ constant :: after) := by
      rw [← length_flatMap_entries, ← length_flatMap_entries, List.flatMap_append,
        List.length_append]
      exact Nat.le_add_right _ _
    change 1 + places before < 0x10000
    omega
  · intro index elsewhere
    refine get_eq_error_of_forall_ne fun constant found => ?_
    obtain ⟨before, after, split, here⟩ := get_laidOut_eq_ok_iff.mp found
    exact elsewhere before constant after split here

/-- A pool with two wide constants, whose floating point numbers are no numbers, and with a text
that takes six bytes for its second character and two for its first. -/
def mixedConstants : List Constant :=
  [.long (-7), .utf8 "\x00😀", .double 0x7FF8000000000001, .float 0xFFC00002, .methodHandle 5 2]

/-- The constants stand at the places one, three, four, six and seven. -/
theorem mixedConstants_decode :
    (∀ constant ∈ mixedConstants, constant.Fits) ∧ places mixedConstants ≤ 0xFFFE ∧
    ∃ pool,
      decode ⟨[0, 8, 5, 0xFF, 0xFF, 0xFF, 0xFF, 0xFF, 0xFF, 0xFF, 0xF9, 1, 0, 8, 0xC0, 0x80, 0xED,
        0xA0, 0xBD, 0xED, 0xB8, 0x80, 6, 0x7F, 0xF8, 0, 0, 0, 0, 0, 1, 4, 0xFF, 0xC0, 0, 2, 15, 5,
        0, 2, 0xCA], 0⟩ = .ok (pool, ⟨[0xCA], 40⟩) ∧
      pool.size = 8 ∧ pool.get 3 = .ok (.utf8 "\x00😀") ∧ pool.get 6 = .ok (.float 0xFFC00002) ∧
      pool.get 5 = .error (.badConstantIndex 5) := by
  have fits : ∀ constant ∈ mixedConstants, constant.Fits := by
    have text : (Constant.utf8 "\x00😀").Fits := by
      change (ModifiedUtf8.encode "\x00😀").length ≤ 0xFFFF
      decide
    simpa [mixedConstants, Constant.Fits] using text
  have short : places mixedConstants ≤ 0xFFFE := by decide
  obtain ⟨pool, read, size, stands, others⟩ := decode_encode mixedConstants fits short 0 [0xCA]
  have encoded : encode mixedConstants =
      [0, 8, 5, 0xFF, 0xFF, 0xFF, 0xFF, 0xFF, 0xFF, 0xFF, 0xF9, 1, 0, 8, 0xC0, 0x80, 0xED,
      0xA0, 0xBD, 0xED, 0xB8, 0x80, 6, 0x7F, 0xF8, 0, 0, 0, 0, 0, 1, 4, 0xFF, 0xC0, 0,
      2, 15, 5, 0, 2] := by
    decide +kernel
  rw [encoded] at read
  have text := stands (mixedConstants.take 1) _ _ rfl
  have float := stands (mixedConstants.take 3) _ _ rfl
  refine ⟨fits, short, pool, read, size, text, float, others 5 ?_⟩
  -- What stands in front of a constant is a proper front part of the list.
  have each : ∀ count < mixedConstants.length, 5 ≠ 1 + places (mixedConstants.take count) := by
    decide
  intro before constant after split
  have front : mixedConstants.take before.length = before := by rw [split, List.take_left]
  have proper : before.length < mixedConstants.length := by
    rw [split, List.length_append, List.length_cons]
    omega
  exact front ▸ each before.length proper

end ConstantPool

end ArrayBounds.ClassFile
