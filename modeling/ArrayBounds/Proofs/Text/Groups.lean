import ArrayBounds.Proofs.Text.ModifiedUtf8

/-! # Which bytes are a text

A byte string is read in two passes. The first one splits it into groups of one, two or three bytes,
each of which stands for one unit (`ArrayBounds.ModifiedUtf8.Splits`). It takes surrogates like any
other unit. The second pass pairs them up, and fails if one has no partner
(`ArrayBounds.Utf16.Paired`). So the bytes are a text exactly if they can be split into groups whose
units are paired, and the text is then the one whose units these are
(`ArrayBounds.ModifiedUtf8.decode_exact`).
-/

namespace ArrayBounds

namespace Utf16

variable {units rest front : List Nat} {unit high low : Nat}

/-- Every high surrogate is in front of a low one, and every low surrogate is behind a high one. -/
structure Paired (units : List Nat) : Prop where
  high : ∀ index unit, units[index]? = some unit → isHighSurrogate unit = true →
    ∃ low, units[index + 1]? = some low ∧ isLowSurrogate low = true
  low : ∀ index unit, units[index]? = some unit → isLowSurrogate unit = true →
    ∃ before high, index = before + 1 ∧ units[before]? = some high ∧ isHighSurrogate high = true

private theorem not_isLowSurrogate_of_high (isHigh : isHighSurrogate unit = true) :
    isLowSurrogate unit ≠ true := by
  intro isLow
  simp only [isHighSurrogate, isLowSurrogate, Bool.and_eq_true, decide_eq_true_eq] at isHigh isLow
  omega

private theorem paired_nil : Paired [] where
  high index unit found := by simp at found
  low index unit found := by simp at found

/-- A unit that is no surrogate stands by itself. -/
private theorem paired_singleton (noHigh : isHighSurrogate unit ≠ true)
    (noLow : isLowSurrogate unit ≠ true) : Paired [unit] := by
  have same {index other : Nat} (found : [unit][index]? = some other) : unit = other :=
    (List.mem_singleton.mp (List.mem_of_getElem? found)).symm
  exact ⟨fun index other found isHigh => absurd (same found ▸ isHigh) noHigh,
    fun index other found isLow => absurd (same found ▸ isLow) noLow⟩

/-- A high surrogate and a low one are a pair. -/
private theorem paired_pair (isHigh : isHighSurrogate high = true)
    (isLow : isLowSurrogate low = true) : Paired [high, low] where
  high index unit found isHigh' := by
    rcases index with _ | _ | index
    · exact ⟨low, rfl, isLow⟩
    · obtain rfl : low = unit := Option.some.inj found
      exact absurd isLow (not_isLowSurrogate_of_high isHigh')
    · cases found
  low index unit found isLow' := by
    rcases index with _ | _ | index
    · obtain rfl : high = unit := Option.some.inj found
      exact absurd isLow' (not_isLowSurrogate_of_high isHigh)
    · exact ⟨0, high, rfl, rfl, isHigh⟩
    · cases found

/-- Behind units that are paired, only the others have to be looked at. -/
theorem paired_append_iff (paired : Paired front) : Paired (front ++ rest) ↔ Paired rest := by
  have inFront {index unit : Nat} (found : front[index]? = some unit) :
      (front ++ rest)[index]? = some unit := by
    rw [List.getElem?_append_left (List.getElem?_eq_some_iff.mp found).1, found]
  have inRest (index : Nat) : (front ++ rest)[front.length + index]? = rest[index]? := by
    rw [List.getElem?_append_right (Nat.le_add_right _ _), Nat.add_sub_cancel_left]
  constructor
  · intro whole
    constructor
    case high =>
      intro index unit found isHigh
      obtain ⟨low, next, isLow⟩ :=
        whole.high (front.length + index) unit ((inRest index).trans found) isHigh
      exact ⟨low, (inRest (index + 1)).symm.trans next, isLow⟩
    case low =>
      intro index unit found isLow
      obtain ⟨before, high, far, previous, isHigh⟩ :=
        whole.low (front.length + index) unit ((inRest index).trans found) isLow
      cases index with
      | zero =>
          -- The partner would be the last unit in front, which has its own partner there.
          have last : before < front.length := by omega
          rw [List.getElem?_append_left last] at previous
          obtain ⟨low, next, -⟩ := paired.high before high previous isHigh
          have inside := (List.getElem?_eq_some_iff.mp next).1
          omega
      | succ index =>
          obtain rfl : before = front.length + index := by omega
          exact ⟨index, high, rfl, (inRest index).symm.trans previous, isHigh⟩
  · intro behind
    constructor
    case high =>
      intro index unit found isHigh
      rcases Nat.lt_or_ge index front.length with inside | outside
      · rw [List.getElem?_append_left inside] at found
        obtain ⟨low, next, isLow⟩ := paired.high index unit found isHigh
        exact ⟨low, inFront next, isLow⟩
      · obtain ⟨index, rfl⟩ := Nat.exists_eq_add_of_le outside
        obtain ⟨low, next, isLow⟩ := behind.high index unit ((inRest index).symm.trans found) isHigh
        exact ⟨low, (inRest (index + 1)).trans next, isLow⟩
    case low =>
      intro index unit found isLow
      rcases Nat.lt_or_ge index front.length with inside | outside
      · rw [List.getElem?_append_left inside] at found
        obtain ⟨before, high, far, previous, isHigh⟩ := paired.low index unit found isLow
        exact ⟨before, high, far, inFront previous, isHigh⟩
      · obtain ⟨index, rfl⟩ := Nat.exists_eq_add_of_le outside
        obtain ⟨before, high, rfl, previous, isHigh⟩ :=
          behind.low index unit ((inRest index).symm.trans found) isLow
        exact ⟨front.length + before, high, rfl, (inRest before).trans previous, isHigh⟩

/-- The second pass succeeds exactly if the units are paired. -/
theorem isSome_decodeAfter_iff (read : List Char) (units : List Nat) :
    (decodeAfter read units).isSome = true ↔ Paired units := by
  fun_induction decodeAfter read units with
  | case1 read => exact iff_of_true rfl paired_nil
  | case2 read high isHigh low rest isLow ih =>
      rw [ih, ← paired_append_iff (paired_pair isHigh isLow)]
      rfl
  | case3 read high isHigh other rest noLow =>
      refine iff_of_false Bool.false_ne_true fun paired => ?_
      obtain ⟨low, next, isLow⟩ := paired.high 0 high rfl isHigh
      obtain rfl : other = low := Option.some.inj next
      exact noLow isLow
  | case4 read high isHigh =>
      refine iff_of_false Bool.false_ne_true fun paired => ?_
      obtain ⟨low, next, -⟩ := paired.high 0 high rfl isHigh
      cases next
  | case5 read low rest noHigh isLow =>
      refine iff_of_false Bool.false_ne_true fun paired => ?_
      obtain ⟨before, high, far, -⟩ := paired.low 0 low rfl isLow
      cases far
  | case6 read unit rest noHigh noLow ih =>
      rw [ih, ← paired_append_iff (paired_singleton noHigh noLow)]
      rfl

private theorem toNat_ofNat_of_valid (valid : unit.isValidChar) :
    (Char.ofNat unit).toNat = unit := by
  rw [Char.ofNat, dif_pos valid]
  rfl

/-- A unit that is no surrogate is a character of its own. -/
private theorem encodeChar_ofNat (small : unit < 0x10000) (noHigh : isHighSurrogate unit ≠ true)
    (noLow : isLowSurrogate unit ≠ true) : encodeChar (Char.ofNat unit) = [unit] := by
  simp only [isHighSurrogate, isLowSurrogate, Bool.and_eq_true, decide_eq_true_eq, ne_eq]
    at noHigh noLow
  have valid : unit.isValidChar := by
    unfold Nat.isValidChar
    omega
  rw [encodeChar, toNat_ofNat_of_valid valid, if_pos small]

/-- The character of a pair has that pair as its units. -/
private theorem encodeChar_pairChar (isHigh : isHighSurrogate high = true)
    (isLow : isLowSurrogate low = true) : encodeChar (pairChar high low) = [high, low] := by
  simp only [isHighSurrogate, isLowSurrogate, Bool.and_eq_true, decide_eq_true_eq] at isHigh isLow
  have valid : (0x10000 + (high - 0xD800) * 0x400 + (low - 0xDC00)).isValidChar := by
    unfold Nat.isValidChar
    omega
  have upper : 0xD800 + (0x10000 + (high - 0xD800) * 0x400 + (low - 0xDC00) - 0x10000)
      / 0x400 = high := by omega
  have lower : 0xDC00 + (0x10000 + (high - 0xD800) * 0x400 + (low - 0xDC00) - 0x10000)
      % 0x400 = low := by omega
  rw [encodeChar, pairChar, toNat_ofNat_of_valid valid, if_neg (by omega), upper, lower]

/-- The text that the second pass gives has the units that it was given. -/
theorem encode_of_decodeAfter {read result : List Char} (small : ∀ unit ∈ units, unit < 0x10000)
    (success : decodeAfter read units = some result) :
    ∃ chars, result = read.reverse ++ chars ∧ units = chars.flatMap encodeChar := by
  fun_induction decodeAfter read units with
  | case1 read =>
      cases success
      exact ⟨[], (List.append_nil _).symm, rfl⟩
  | case2 read high isHigh low rest isLow ih =>
      simp only [List.mem_cons, forall_eq_or_imp] at small
      obtain ⟨chars, rfl, rfl⟩ := ih small.2.2 success
      refine ⟨pairChar high low :: chars, by simp, ?_⟩
      rw [List.flatMap_cons, encodeChar_pairChar isHigh isLow]
      rfl
  | case6 read unit rest noHigh noLow ih =>
      simp only [List.mem_cons, forall_eq_or_imp] at small
      obtain ⟨chars, rfl, rfl⟩ := ih small.2 success
      refine ⟨Char.ofNat unit :: chars, by simp, ?_⟩
      rw [List.flatMap_cons, encodeChar_ofNat small.1 noHigh noLow]
      rfl
  | case3 | case4 | case5 => cases success

/-- Units are decoded to the text that has them as its units. -/
private theorem decode?_eq_some_iff (small : ∀ unit ∈ units, unit < 0x10000) {text : String} :
    decode? units = some text ↔ units = text.toList.flatMap encodeChar := by
  constructor
  · intro success
    obtain ⟨chars, decoded, rfl⟩ := Option.map_eq_some_iff.mp success
    obtain ⟨_, rfl, same⟩ := encode_of_decodeAfter small decoded
    simpa using same
  · rintro rfl
    exact decode?_encode text

end Utf16

namespace ModifiedUtf8

variable {bytes front rest : List UInt8} {units : List Nat} {unit : Nat}

/-- A byte that continues a group. -/
def IsContinuation (byte : UInt8) : Prop :=
  0x80 ≤ byte.toNat ∧ byte.toNat ≤ 0xBF

/-- The bytes are a group that stands for the unit: what they hold besides the bits that tell the
kind of byte. -/
inductive ByteGroup : List UInt8 → Nat → Prop where
  | one {a : UInt8} (lead : 0x01 ≤ a.toNat ∧ a.toNat ≤ 0x7F) : ByteGroup [a] a.toNat
  | two {a b : UInt8} (lead : 0xC0 ≤ a.toNat ∧ a.toNat ≤ 0xDF) (low : IsContinuation b) :
      ByteGroup [a, b] (a.toNat % 0x20 * 0x40 + b.toNat % 0x40)
  | three {a b c : UInt8} (lead : 0xE0 ≤ a.toNat ∧ a.toNat ≤ 0xEF) (middle : IsContinuation b)
      (low : IsContinuation c) :
      ByteGroup [a, b, c] (a.toNat % 0x10 * 0x1000 + b.toNat % 0x40 * 0x40 + c.toNat % 0x40)

/-- The bytes are groups that stand for the units, one behind the other. -/
inductive Splits : List UInt8 → List Nat → Prop where
  | nil : Splits [] []
  | cons {front rest : List UInt8} {unit : Nat} {units : List Nat} (group : ByteGroup front unit)
      (splits : Splits rest units) : Splits (front ++ rest) (unit :: units)

/-- A group of bytes gives a unit of 16 bits. -/
private theorem ByteGroup.lt (group : ByteGroup front unit) : unit < 0x10000 := by
  cases group with
  | one lead => omega
  | two lead low => omega
  | three lead middle low => omega

private theorem Splits.lt (splits : Splits bytes units) : ∀ unit ∈ units, unit < 0x10000 := by
  induction splits with
  | nil => simp
  | cons group splits ih => exact List.forall_mem_cons.mpr ⟨group.lt, ih⟩

/-- Continuation bytes give their last six bits. -/
private theorem continuation?_eq_some_iff {byte : UInt8} {low : Nat} :
    continuation? byte = some low ↔ IsContinuation byte ∧ byte.toNat % 0x40 = low := by
  unfold continuation? IsContinuation
  split
  case isTrue continues =>
    rw [Option.some.injEq]
    omega
  case isFalse stops =>
    refine iff_of_false (Option.some_ne_none low).symm ?_
    omega

/-- A group is read as its unit. -/
theorem unitsAfter_group (group : ByteGroup front unit) (read : List Nat) (rest : List UInt8) :
    unitsAfter read (front ++ rest) = unitsAfter (unit :: read) rest := by
  cases group with
  | one lead =>
      rw [List.singleton_append, unitsAfter.eq_def]
      dsimp only
      rw [if_pos (by omega)]
  | @two a b lead low =>
      have next := continuation?_eq_some_iff.mpr ⟨low, rfl⟩
      have unit : (a.toNat - 0xC0) * 0x40 + b.toNat % 0x40 = a.toNat % 0x20 * 0x40 + b.toNat %
          0x40 := by omega
      simp only [List.cons_append, List.nil_append, unitsAfter, next, unit]
      rw [if_neg (by omega), if_pos (by omega)]
  | @three a b c lead middle low =>
      have next := continuation?_eq_some_iff.mpr ⟨middle, rfl⟩
      have last := continuation?_eq_some_iff.mpr ⟨low, rfl⟩
      have unit : ((a.toNat - 0xE0) * 0x40 + b.toNat % 0x40) * 0x40 + c.toNat % 0x40 =
          a.toNat % 0x10 * 0x1000 + b.toNat % 0x40 * 0x40 + c.toNat % 0x40 := by
        omega
      simp only [List.cons_append, List.nil_append, unitsAfter, next, last, unit]
      rw [if_neg (by omega), if_neg (by omega), if_pos (by omega)]

/-- Groups of bytes are read one after the other. -/
private theorem unitsAfter_of_splits (splits : Splits bytes units) (read : List Nat) :
    unitsAfter read bytes = some (read.reverse ++ units) := by
  induction splits generalizing read with
  | nil => simp [unitsAfter]
  | cons group splits ih =>
      rw [unitsAfter_group group, ih, List.reverse_cons, List.append_assoc]
      rfl

/-- Bytes that can be read split into groups. -/
private theorem splits_of_unitsAfter {read result : List Nat}
    (success : unitsAfter read bytes = some result) :
    ∃ units, Splits bytes units ∧ result = read.reverse ++ units := by
  -- One group is in front of what the induction hypothesis says about the rest.
  have step {front rest : List UInt8} {unit unit' : Nat} {read : List Nat}
      (group : ByteGroup front unit') (same : unit' = unit)
      (later : ∃ units, Splits rest units ∧ result = (unit :: read).reverse ++ units) :
      ∃ units, Splits (front ++ rest) units ∧ result = read.reverse ++ units := by
    obtain ⟨units, splits, rfl⟩ := later
    exact ⟨unit :: units, same ▸ .cons group splits, by simp⟩
  fun_induction unitsAfter read bytes with
  | case1 read =>
      cases success
      exact ⟨[], .nil, (List.append_nil _).symm⟩
  | case2 read a rest lead ih => exact step (.one (by omega)) rfl (ih success)
  | case3 read a noOne lead b rest low next ih =>
      obtain ⟨continues, rfl⟩ := continuation?_eq_some_iff.mp next
      exact step (.two (by omega) continues) (by omega) (ih success)
  | case6 read a noOne noTwo lead b c rest middle low last next ih =>
      obtain ⟨continues, rfl⟩ := continuation?_eq_some_iff.mp next
      obtain ⟨continues', rfl⟩ := continuation?_eq_some_iff.mp last
      exact step (.three (by omega) continues continues') (by omega) (ih success)
  | case4 | case5 | case7 | case8 | case9 => cases success

/-- The first pass succeeds exactly if the bytes are groups, and gives their units. -/
theorem unitsAfter_eq_some_iff : unitsAfter [] bytes = some units ↔ Splits bytes units := by
  constructor
  · intro success
    obtain ⟨_, splits, rfl⟩ := splits_of_unitsAfter success
    exact splits
  · intro splits
    exact unitsAfter_of_splits splits []

/-- Every text is read back from its encoding. A byte string is a text exactly if it can be split
into groups whose units are paired, and it is then the text that has these units. -/
theorem decode_exact :
    (∀ text, decode? (encode text) = some text) ∧
      ∀ bytes, ((decode? bytes).isSome = true ↔ ∃ units, Splits bytes units ∧ Utf16.Paired units) ∧
        ∀ text, decode? bytes = some text ↔
          Splits bytes (text.toList.flatMap Utf16.encodeChar) := by
  have passes (bytes : List UInt8) (text : String) :
      decode? bytes = some text ↔ ∃ units, Splits bytes units ∧
        Utf16.decode? units = some text := by
    simp only [decode?, Option.bind_eq_some_iff, unitsAfter_eq_some_iff]
  refine ⟨decode?_encode, fun bytes => ⟨?_, fun text => ?_⟩⟩
  · have paired (units : List Nat) : (∃ text, Utf16.decode? units = some text) ↔
        Utf16.Paired units := by
      rw [← Option.isSome_iff_exists, Utf16.decode?, Option.isSome_map,
        Utf16.isSome_decodeAfter_iff]
    simp only [Option.isSome_iff_exists, passes, ← paired]
    constructor
    · rintro ⟨text, units, splits, decoded⟩
      exact ⟨units, splits, text, decoded⟩
    · rintro ⟨units, splits, text, decoded⟩
      exact ⟨text, units, splits, decoded⟩
  · rw [passes]
    constructor
    · rintro ⟨units, splits, decoded⟩
      exact (Utf16.decode?_eq_some_iff splits.lt).mp decoded ▸ splits
    · intro splits
      exact ⟨_, splits, Utf16.decode?_encode text⟩

end ModifiedUtf8

end ArrayBounds
