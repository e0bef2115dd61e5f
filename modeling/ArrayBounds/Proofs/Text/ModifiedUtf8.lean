import ArrayBounds.Text.ModifiedUtf8

/-! # Texts come back from their encoding

Every text is read back from its modified UTF-8 (`ArrayBounds.ModifiedUtf8.decode?_encode`), and on
the characters from U+0001 to U+FFFF this encoding agrees with plain UTF-8
(`ArrayBounds.ModifiedUtf8.encode_eq_toUTF8`).
-/

namespace ArrayBounds

namespace Utf16

/-- The units of a character are read as this character. -/
theorem decodeAfter_encodeChar (read : List Char) (c : Char) (rest : List Nat) :
    decodeAfter read (encodeChar c ++ rest) = decodeAfter (c :: read) rest := by
  have valid : c.toNat < 0xD800 ∨ 0xDFFF < c.toNat ∧ c.toNat < 0x110000 := c.valid
  unfold encodeChar
  split
  case isTrue basic =>
    have noHigh : isHighSurrogate c.toNat = false := by
      simp [isHighSurrogate]
      omega
    have noLow : isLowSurrogate c.toNat = false := by
      simp [isLowSurrogate]
      omega
    rw [List.singleton_append, decodeAfter.eq_def]
    simp [noHigh, noLow]
  case isFalse beyond =>
    -- A high and a low surrogate hold the upper and the lower ten bits of what the character is
    -- above U+FFFF.
    have high : isHighSurrogate (0xD800 + (c.toNat - 0x10000) / 0x400) = true := by
      simp [isHighSurrogate]
      omega
    have low : isLowSurrogate (0xDC00 + (c.toNat - 0x10000) % 0x400) = true := by
      simp [isLowSurrogate]
      omega
    have pair :
        pairChar (0xD800 + (c.toNat - 0x10000) / 0x400)
        (0xDC00 + (c.toNat - 0x10000) % 0x400) = c := by
      have sum : 0x10000 + (0xD800 + (c.toNat - 0x10000) / 0x400 - 0xD800) * 0x400 +
          (0xDC00 + (c.toNat - 0x10000) % 0x400 - 0xDC00) = c.toNat := by
        omega
      rw [pairChar, sum, Char.ofNat_toNat]
    simp [decodeAfter, high, low, pair]

/-- Characters are decoded one after the other. -/
private theorem decodeAfter_flatMap (chars read : List Char) :
    decodeAfter read (chars.flatMap encodeChar) = some (read.reverse ++ chars) := by
  induction chars generalizing read with
  | nil => simp [decodeAfter]
  | cons c chars ih =>
      rw [List.flatMap_cons, decodeAfter_encodeChar, ih, List.reverse_cons, List.append_assoc]; rfl

/-- A text that is encoded character by character is decoded to itself. -/
theorem decode?_encode (text : String) : decode? (text.toList.flatMap encodeChar) = some text := by
  rw [decode?, decodeAfter_flatMap, List.reverse_nil, List.nil_append, Option.map_some,
    String.ofList_toList]

/-- Every unit has sixteen bits. -/
theorem lt_of_mem_encodeChar {c : Char} {unit : Nat} (member : unit ∈ encodeChar c) :
    unit < 0x10000 := by
  have valid : c.toNat < 0xD800 ∨ 0xDFFF < c.toNat ∧ c.toNat < 0x110000 := c.valid
  unfold encodeChar at member
  split at member
  case isTrue basic =>
    rw [List.mem_singleton.mp member]
    exact basic
  case isFalse beyond =>
    simp only [List.mem_cons, List.not_mem_nil, or_false] at member
    omega

end Utf16

namespace ModifiedUtf8

/-- Six bits are read back from their continuation byte. -/
private theorem continuation?_ofNat {low : Nat} (small : low < 0x40) :
    continuation? (UInt8.ofNat (0x80 + low)) = some low := by
  have byte : (UInt8.ofNat (0x80 + low)).toNat = 0x80 + low := by
    rw [UInt8.toNat_ofNat']
    omega
  unfold continuation?
  rw [byte, if_pos (by omega), Nat.add_sub_cancel_left]

/-- The bytes of a unit are read as this unit. -/
theorem unitsAfter_encodeUnit (read : List Nat) {unit : Nat} (small : unit < 0x10000)
    (rest : List UInt8) :
    unitsAfter read (encodeUnit unit ++ rest) = unitsAfter (unit :: read) rest := by
  unfold encodeUnit
  split
  case isTrue one =>
    have byte : (UInt8.ofNat unit).toNat = unit := by
      rw [UInt8.toNat_ofNat']
      omega
    rw [List.singleton_append, unitsAfter.eq_def]
    simp only [byte]
    rw [if_pos one]
  case isFalse one =>
    split
    case isTrue two =>
      have lead : (UInt8.ofNat (0xC0 + unit / 0x40)).toNat = 0xC0 + unit / 0x40 := by
        rw [UInt8.toNat_ofNat']
        omega
      have whole : (0xC0 + unit / 0x40 - 0xC0) * 0x40 + unit % 0x40 = unit := by omega
      simp only [List.cons_append, List.nil_append, unitsAfter, lead,
        continuation?_ofNat (Nat.mod_lt unit (by decide : 0x40 > 0)), whole]
      rw [if_neg (by omega), if_pos (by omega)]
    case isFalse two =>
      have lead : (UInt8.ofNat (0xE0 + unit / 0x1000)).toNat = 0xE0 + unit / 0x1000 := by
        rw [UInt8.toNat_ofNat']
        omega
      have whole : ((0xE0 + unit / 0x1000 - 0xE0) * 0x40 + unit / 0x40 % 0x40) * 0x40 + unit %
          0x40 = unit := by omega
      simp only [List.cons_append, List.nil_append, unitsAfter, lead,
        continuation?_ofNat (Nat.mod_lt _ (by decide : 0x40 > 0)), whole]
      rw [if_neg (by omega), if_neg (by omega), if_pos (by omega)]

/-- Units are read one after the other. -/
private theorem unitsAfter_flatMap (units read : List Nat)
    (small : ∀ unit ∈ units, unit < 0x10000) :
    unitsAfter read (units.flatMap encodeUnit) = some (read.reverse ++ units) := by
  induction units generalizing read with
  | nil => simp [unitsAfter]
  | cons unit units ih =>
      rw [List.flatMap_cons, unitsAfter_encodeUnit read (small unit List.mem_cons_self),
        ih _ fun other member => small other (List.mem_cons_of_mem _ member), List.reverse_cons,
        List.append_assoc]
      rfl

/-- A text that is encoded as in class files is decoded to itself. -/
theorem decode?_encode (text : String) : decode? (encode text) = some text := by
  have small : ∀ unit ∈ text.toList.flatMap Utf16.encodeChar, unit < 0x10000 := by
    intro unit member
    obtain ⟨c, -, member⟩ := List.mem_flatMap.mp member
    exact Utf16.lt_of_mem_encodeChar member
  rw [decode?, encode, unitsAfter_flatMap _ _ small, List.reverse_nil, List.nil_append,
    Option.bind_some, Utf16.decode?_encode]

/-! ## Plain UTF-8 -/

/-- The basic characters other than zero have their usual encoding. -/
private theorem utf8EncodeChar_eq {c : Char} (one : 0x01 ≤ c.toNat) (basic : c.toNat ≤ 0xFFFF) :
    String.utf8EncodeChar c = (Utf16.encodeChar c).flatMap encodeUnit := by
  rw [Utf16.encodeChar, if_pos (by omega), List.flatMap_singleton]
  unfold String.utf8EncodeChar encodeUnit
  simp only [Char.toNat_val]
  by_cases byte : c.toNat ≤ 127
  · rw [if_pos byte, if_pos ⟨one, by omega⟩]
  · rw [if_neg byte, if_neg (by omega : ¬(0x01 ≤ c.toNat ∧ c.toNat < 0x80))]
    by_cases pair : c.toNat ≤ 2047
    · rw [if_pos pair, if_pos (by omega : c.toNat < 0x800),
        Nat.mod_eq_of_lt (by omega : c.toNat / 64 < 32), Nat.add_comm (c.toNat / 64),
        Nat.add_comm (c.toNat % 64)]
    · rw [if_neg pair, if_pos basic, if_neg (by omega : ¬c.toNat < 0x800),
        Nat.mod_eq_of_lt (by omega : c.toNat / 4096 < 16), Nat.add_comm (c.toNat / 4096),
        Nat.add_comm (c.toNat / 64 % 64), Nat.add_comm (c.toNat % 64)]

/-- Both encodings agree on the characters from U+0001 to U+FFFF. -/
theorem encode_eq_toUTF8 {text : String}
    (basic : ∀ c ∈ text.toList, 0x01 ≤ c.toNat ∧ c.toNat ≤ 0xFFFF) :
    encode text = text.toUTF8.data.toList := by
  have plain : text.toUTF8.data.toList = text.toList.flatMap String.utf8EncodeChar := by
    rw [String.toUTF8, ← String.utf8Encode_toList, List.utf8Encode, List.toList_data_toByteArray]
  have same : text.toList.map String.utf8EncodeChar = text.toList.map
      fun c => (Utf16.encodeChar c).flatMap encodeUnit :=
    List.map_congr_left fun c member => utf8EncodeChar_eq (basic c member).1 (basic c member).2
  rw [plain, encode, List.flatMap_assoc, List.flatMap_def, List.flatMap_def, same]

end ModifiedUtf8

end ArrayBounds
