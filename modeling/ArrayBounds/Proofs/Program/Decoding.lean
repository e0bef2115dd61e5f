import ArrayBounds.Proofs.ClassFile.Reading
import ArrayBounds.Proofs.Program.Form
import Mathlib.Data.List.Basic
import Mathlib.Data.List.Induction

/-! # Instructions are read as they are spelled

The reader of instructions succeeds exactly on the bytes that spell an instruction, and leaves
everything behind them (`ArrayBounds.Program.Site.exact_instruction`). Exactness of a reader
(`ArrayBounds.Program.Exact`) is carried from the bytes over numbers and single operands to the
table of opcodes, row by row.
-/

namespace ArrayBounds.Program

open ClassFile

/-- From a position on, the reader succeeds exactly on the bytes that spell a value, whatever
follows them. -/
structure Exact {ε α : Type} (reader : ByteReader ε α) (position : Nat)
    (spells : List UInt8 → α → Prop) : Prop where
  eq_ok_iff : ∀ {input value after}, reader ⟨input, position⟩ = .ok (value, after) ↔
    ∃ bytes, input = bytes ++ after.rest ∧ after.position = position + bytes.length ∧
      spells bytes value

namespace Exact

variable {ε α β : Type} {position : Nat} {reader : ByteReader ε α} {next : α → ByteReader ε β}
  {spells spells' : List UInt8 → α → Prop}

/-- Only what the bytes spell matters. -/
private theorem congr (reads : Exact reader position spells)
    (same : ∀ bytes value, spells bytes value ↔ spells' bytes value) :
    Exact reader position spells' where
  eq_ok_iff := by
    intro input value after
    rw [reads.eq_ok_iff]
    simp only [same]

/-- Nothing is read for a value that is there already. -/
private theorem pure (value : α) :
    Exact (pure value : ByteReader ε α) position fun bytes found => bytes = [] ∧ found = value where
  eq_ok_iff := by
    intro input found after
    constructor
    · intro success
      cases success
      exact ⟨[], rfl, rfl, rfl, rfl⟩
    · rintro ⟨bytes, rfl, moved, rfl, rfl⟩
      obtain ⟨rest, position'⟩ := after
      obtain rfl : position' = position := moved
      rfl

/-- No bytes make a failing reader succeed. -/
private theorem throw (error : ε) :
    Exact (throw error : ByteReader ε α) position fun _ _ => False where
  eq_ok_iff := by
    intro input found after
    constructor
    · intro success
      cases success
    · rintro ⟨_, _, _, impossible⟩
      exact impossible.elim

/-- Readers in sequence take the bytes of one after those of the other. -/
private theorem bind {spells₂ : α → List UInt8 → β → Prop} (start : Exact reader position spells)
    (rest : ∀ value front, spells front value →
      Exact (next value) (position + front.length) (spells₂ value)) :
    Exact (reader >>= next) position fun bytes found =>
      ∃ front back value, bytes = front ++ back ∧ spells front value ∧
        spells₂ value back found where
  eq_ok_iff := by
    intro input found after
    rw [StateT.bind_eq_ok_iff]
    constructor
    · rintro ⟨value, ⟨middle, position'⟩, began, ended⟩
      obtain ⟨front, rfl, rfl, fine⟩ := start.eq_ok_iff.mp began
      obtain ⟨back, rfl, moved, fine'⟩ := (rest value front fine).eq_ok_iff.mp ended
      refine ⟨front ++ back, by simp, ?_, front, back, value, rfl, fine, fine'⟩
      rw [moved, List.length_append, Nat.add_assoc]
    · rintro ⟨_, rfl, moved, front, back, value, rfl, fine, fine'⟩
      refine ⟨value, ⟨back ++ after.rest, position + front.length⟩,
        start.eq_ok_iff.mpr ⟨front, by simp, rfl, fine⟩, ?_⟩
      refine (rest value front fine).eq_ok_iff.mpr ⟨back, rfl, ?_, fine'⟩
      rw [moved, List.length_append, Nat.add_assoc]

/-- What is read may be passed on as something else. -/
private theorem map (start : Exact reader position spells) (f : α → β) :
    Exact (reader >>= fun value => Pure.pure (f value)) position fun bytes found =>
      ∃ value, spells bytes value ∧ found = f value := by
  refine (start.bind fun value _ _ => pure (f value)).congr fun bytes found => ?_
  constructor
  · rintro ⟨front, back, value, rfl, fine, rfl, rfl⟩
    exact ⟨value, by simpa using fine, rfl⟩
  · rintro ⟨value, fine, rfl⟩
    exact ⟨bytes, [], value, by simp, fine, rfl, rfl⟩

end Exact

/-! ## Numbers -/

/-- Bytes in two's complement stand for the same number as without a sign, or for less by the count
of all numbers of that length if the first bit is set. -/
theorem signed_cases {bytes : List UInt8} (some : bytes ≠ []) :
    bigEndian bytes < 1 <<< (8 * bytes.length) ∧
      signed bytes = if 2 * bigEndian bytes < 1 <<< (8 * bytes.length) then (bigEndian bytes : Int)
        else bigEndian bytes - (1 <<< (8 * bytes.length) : Nat) := by
  have wider (n : Nat) : 1 <<< (8 * (n + 1)) = 256 * 1 <<< (8 * n) := by
    rw [Nat.mul_succ, Nat.one_shiftLeft, Nat.one_shiftLeft, Nat.pow_add, Nat.mul_comm]
  induction bytes using List.reverseRecOn with
  | nil => exact absurd rfl some
  | append_singleton bytes last ih =>
      have bound : last.toNat < 256 := last.toNat_lt
      cases bytes with
      | nil =>
          have alone : bigEndian [last] = last.toNat := Nat.zero_add _
          have alone' : signed [last] =
              if last.toNat < 0x80 then (last.toNat : Int) else last.toNat - 0x100 := rfl
          have size : 1 <<< (8 * [last].length) = 256 := rfl
          rw [List.nil_append, alone, alone', size]
          refine ⟨bound, ?_⟩
          split <;> split <;> omega
      | cons first rest =>
          have step : bigEndian (first :: rest ++ [last]) =
              256 * bigEndian (first :: rest) + last.toNat := List.foldl_append
          have step' : signed (first :: rest ++ [last]) =
              256 * signed (first :: rest) + last.toNat := List.foldl_append
          have size := wider (first :: rest).length
          have size' := wider rest.length
          obtain ⟨less, ih⟩ := ih (List.cons_ne_nil first rest)
          rw [step, step', List.length_append, List.length_singleton, ih]
          rw [List.length_cons] at *
          constructor
          · omega
          · split <;> split <;> omega

section

variable {bytes : List UInt8} {width : Nat} (long : 8 * bytes.length = width) (some : 0 < width)
include long some

/-- The bits of bytes, taken as a number with a sign, are the number that the bytes spell. -/
private theorem toInt_ofNat_bigEndian :
    (BitVec.ofNat width (bigEndian bytes)).toInt = signed bytes := by
  subst long
  have present : bytes ≠ [] := List.ne_nil_of_length_pos (by omega)
  obtain ⟨less, value⟩ := signed_cases present
  rw [Nat.one_shiftLeft] at less value
  rw [BitVec.toInt_eq_toNat_cond, BitVec.toNat_ofNat, Nat.mod_eq_of_lt less, value]

/-- A number in two's complement has the same bits as the number without a sign. -/
theorem ofInt_signed :
    BitVec.ofInt width (signed bytes) = BitVec.ofNat width (bigEndian bytes) := by
  rw [← toInt_ofNat_bigEndian long some, BitVec.ofInt_toInt]

/-- A number in two's complement fits into its bits. -/
theorem toInt_ofInt_signed : (BitVec.ofInt width (signed bytes)).toInt = signed bytes := by
  rw [ofInt_signed long some, toInt_ofNat_bigEndian long some]

end

private theorem toInt_ofInt_signed32 {bytes : List UInt8} (long : bytes.length = 4) :
    (Int32.ofInt (signed bytes)).toInt = signed bytes :=
  toInt_ofInt_signed (congrArg (8 * ·) long) (by decide)

namespace Exact

variable {position : Nat}

/-- A given number of bytes is read as they are. -/
private theorem take (count : Nat) :
    Exact (Decoder.take count) position fun bytes value => bytes.length = count ∧
      value = bytes where
  eq_ok_iff := by
    intro input value after
    constructor
    · intro success
      obtain ⟨rfl, split, moved⟩ := Decoder.take_eq_ok success
      exact ⟨value, split, moved, rfl, rfl⟩
    · rintro ⟨bytes, rfl, moved, rfl, rfl⟩
      obtain ⟨rest, position'⟩ := after
      obtain rfl : position' = position + value.length := moved
      exact Decoder.reads_take rest

private theorem skip (count : Nat) :
    Exact (Decoder.skip count) position fun bytes _ => bytes.length = count := by
  have passes : Decoder.skip count = Decoder.take count >>= fun _ => Pure.pure () := rfl
  rw [passes]
  exact ((take count).map fun _ => ()).congr fun bytes _ => by simp

/-- Numbers of a fixed size. -/
theorem number {α : Type} (count : Nat) (f : List UInt8 → α) :
    Exact (Decoder.take count >>= fun bytes => Pure.pure (f bytes)) position fun bytes value =>
      bytes.length = count ∧ value = f bytes :=
  ((take count).map f).congr fun bytes value => by grind

/-- A byte is read as it is. -/
private theorem u8 : Exact Decoder.u8 position fun bytes value => bytes = [value] := by
  refine (number 1 fun bytes => UInt8.ofNat (bigEndian bytes)).congr fun bytes value => ?_
  rw [List.length_eq_one_iff]
  constructor
  · rintro ⟨⟨byte, rfl⟩, rfl⟩
    simp [bigEndian]
  · rintro rfl
    simp [bigEndian]

private theorem u16 :
    Exact Decoder.u16 position fun bytes value => bytes.length = 2 ∧ value = placeOf bytes :=
  number 2 placeOf

/-- A number of a fixed size that is made into another one. -/
theorem converted {α β : Type} {reader : Decoder α} {count : Nat} {f : List UInt8 → α}
    {convert : α → β} {g : List UInt8 → β}
    (reads : Exact reader position fun bytes value => bytes.length = count ∧ value = f bytes)
    (same : ∀ {bytes}, bytes.length = count → convert (f bytes) = g bytes) :
    Exact (reader >>= fun value => Pure.pure (convert value)) position fun bytes value =>
      bytes.length = count ∧ value = g bytes := by
  refine (reads.map convert).congr fun bytes value => ?_
  constructor
  · rintro ⟨_, ⟨long, rfl⟩, rfl⟩
    exact ⟨long, same long⟩
  · rintro ⟨long, rfl⟩
    exact ⟨_, ⟨long, rfl⟩, (same long).symm⟩

private theorem i8 : Exact Decoder.i8 position fun bytes value => bytes.length = 1 ∧
      value = Int8.ofInt (signed bytes) :=
  (number 1 fun bytes => UInt8.ofNat (bigEndian bytes)).converted fun long =>
    congrArg Int8.ofBitVec (ofInt_signed (congrArg (8 * ·) long) (by decide)).symm

private theorem i16 : Exact Decoder.i16 position fun bytes value => bytes.length = 2 ∧
      value = Int16.ofInt (signed bytes) :=
  (number 2 fun bytes => UInt16.ofNat (bigEndian bytes)).converted fun long =>
    congrArg Int16.ofBitVec (ofInt_signed (congrArg (8 * ·) long) (by decide)).symm

private theorem i32 : Exact Decoder.i32 position fun bytes value => bytes.length = 4 ∧
      value = Int32.ofInt (signed bytes) :=
  (number 4 fun bytes => UInt32.ofNat (bigEndian bytes)).converted fun long =>
    congrArg Int32.ofBitVec (ofInt_signed (congrArg (8 * ·) long) (by decide)).symm

/-- Padding goes up to the next multiple of four. -/
private theorem align4 : Exact Decoder.align4 position fun bytes _ => bytes.length < 4 ∧
      (position + bytes.length) % 4 = 0 := by
  have passes (input : List UInt8) :
      Decoder.align4 ⟨input, position⟩ = Decoder.skip ((4 - position % 4) % 4) ⟨input, position⟩ :=
        rfl
  refine ⟨fun {input value after} => ?_⟩
  rw [passes, (skip _).eq_ok_iff]
  have same (count : Nat) : count = (4 - position % 4) % 4 ↔ count < 4 ∧
      (position + count) % 4 = 0 := by omega
  simp only [same]

end Exact

/-! ## Parts of instructions -/

namespace Site

variable {α : Type} {site : Site} {position : Nat}

/-- Instructions are read with the decoder of class files. -/
private theorem exact_read {decoder : Decoder α} {spells : List UInt8 → α → Prop}
    (reads : Exact decoder position spells) :
    Exact (site.read decoder) position spells where
  eq_ok_iff := by
    intro input value after
    rw [← reads.eq_ok_iff]
    unfold read
    cases decoder ⟨input, position⟩ with
    | ok result => simp only [Except.ok.injEq]
    | error error => simp only [reduceCtorEq]

/-- A look-up in the pool takes no bytes. -/
private theorem exact_inPool (result : Except ClassFileError α) :
    Exact (site.inPool result) position fun bytes value => bytes = [] ∧ result = .ok value := by
  cases result with
  | ok found => exact (Exact.pure found).congr fun bytes value => by simp [eq_comm]
  | error error => exact (Exact.throw _).congr fun bytes value => by simp

/-- A text that is looked up and made into a constant. -/
theorem exact_text (index : UInt16) (f : String → Constant) :
    Exact (site.inPool (site.pool.utf8 index) >>= fun text => pure (f text)) position
      fun bytes value =>
      bytes = [] ∧ (site.pool.utf8 index).toOption.map f = some value := by
  refine ((exact_inPool (site.pool.utf8 index)).map f).congr fun bytes value => ?_
  cases site.pool.utf8 index with
  | ok text => grind [Except.toOption]
  | error error => simp [Except.toOption]

/-- A constant is looked up in the pool. -/
private theorem exact_constant (index : UInt16) :
    Exact (site.constant index) position fun bytes value => bytes = [] ∧
      constantAt? site.pool index = some value := by
  have fixed (value : Constant) : Exact (pure value : CodeReader Constant)
      position fun bytes found =>
      bytes = [] ∧ some value = some found :=
    (Exact.pure value).congr fun bytes found => by rw [Option.some.injEq, eq_comm (a := found)]
  unfold constant constantAt?
  cases site.pool.get index with
  | error error => exact (Exact.throw _).congr fun bytes value => by simp
  | ok entry =>
      cases entry with
      | string text => exact exact_text text .string
      | classInfo name => exact exact_text name .classLiteral
      | _ => exact fixed _

/-- A target is the sum of the offset and the distance. -/
private theorem exact_target (distance : Int) :
    Exact (site.target distance) position fun bytes target => bytes = [] ∧
      (target : Int) = site.offset + distance := by
  unfold target
  cases (site.offset : Int) + distance with
  | ofNat offset =>
      exact (Exact.pure offset).congr fun bytes target => and_congr_right' Int.ofNat_inj.symm
  | negSucc number => exact (Exact.throw _).congr fun bytes target => by simp

/-- A distance that has been read leads to a target. -/
theorem exact_reach {reader : CodeReader α} {f : α → Int} {g : List UInt8 → α} {size : Nat}
    (reads : Exact reader position fun bytes value => bytes.length = size ∧ value = g bytes)
    (same : ∀ {bytes}, bytes.length = size → f (g bytes) = signed bytes) :
    Exact (reader >>= fun value => site.target (f value)) position fun bytes target =>
      bytes.length = size ∧ (target : Int) = site.offset + signed bytes := by
  refine (reads.bind fun value _ _ => exact_target (f value)).congr fun bytes target => ?_
  constructor
  · rintro ⟨front, back, value, rfl, ⟨long, rfl⟩, rfl, reached⟩
    rw [List.append_nil]
    exact ⟨long, same long ▸ reached⟩
  · rintro ⟨long, reached⟩
    exact ⟨bytes, [], _, by simp, ⟨long, rfl⟩, rfl, (same long).symm ▸ reached⟩

private theorem exact_target16 :
    Exact site.target16 position fun bytes target =>
      bytes.length = 2 ∧ (target : Int) = site.offset + signed bytes :=
  exact_reach (exact_read .i16) fun long => toInt_ofInt_signed (congrArg (8 * ·) long) (by decide)

private theorem exact_target32 :
    Exact site.target32 position fun bytes target =>
      bytes.length = 4 ∧ (target : Int) = site.offset + signed bytes :=
  exact_reach (exact_read .i32) toInt_ofInt_signed32

/-- Items are read one after the other. -/
private theorem exact_times {item : CodeReader α} {spells : List UInt8 → α → Prop}
    (reads : ∀ position, Exact item position spells) (count : Nat) :
    Exact (times count item) position fun bytes values =>
      ∃ items : List (List UInt8 × α), items.length = count ∧ bytes = (items.map Prod.fst).flatten ∧
        values = items.map Prod.snd ∧ ∀ item ∈ items, spells item.1 item.2 := by
  induction count generalizing position with
  | zero =>
      refine (Exact.pure []).congr fun bytes values => ?_
      constructor
      · rintro ⟨rfl, rfl⟩
        exact ⟨[], by simp⟩
      · rintro ⟨items, none, rfl, rfl, -⟩
        rw [List.length_eq_zero_iff.mp none]
        exact ⟨rfl, rfl⟩
  | succ count ih =>
      refine ((reads position).bind fun first _ _ => ih.map (first :: ·)).congr
        fun bytes values => ?_
      constructor
      · rintro ⟨front, _, first, rfl, fine, _, ⟨items, rfl, rfl, rfl, all⟩, rfl⟩
        exact ⟨(front, first) :: items, by simpa [fine] using fun bytes value => all (bytes, value)⟩
      · rintro ⟨items, long, rfl, rfl, all⟩
        obtain ⟨first, rest, rfl⟩ := List.exists_cons_of_length_eq_add_one long
        refine ⟨first.1, _, first.2, rfl, all first (by simp), _,
          ⟨rest, by simpa using long, rfl, rfl, ?_⟩, rfl⟩
        exact fun item member => all item (by simp [member])

/-! ## Forms -/

/-- The bytes spell an instruction of the form at the site, and its targets are as far away as the
bytes say. -/
def Spelled (site : Site) (form : Form) (bytes : List UInt8) (instruction : Instruction) : Prop :=
  ∃ displacements, form.Spells site.pool site.offset bytes instruction displacements ∧
    instruction.targets.map Int.ofNat = displacements.map ((site.offset : Int) + ·)

/-- Operands of a fixed size give an instruction without targets. -/
private theorem exact_operands {reader : CodeReader Instruction} {size : Nat}
    {meaning : ConstantPool → List UInt8 → Option Instruction}
    (straight : ∀ {bytes instruction}, meaning site.pool bytes = some instruction →
      instruction.targets = []) (reads : Exact reader position fun bytes instruction =>
      bytes.length = size ∧ meaning site.pool bytes = some instruction) :
    Exact reader position (site.Spelled (.operands size meaning)) := by
  refine reads.congr fun bytes instruction => ?_
  constructor
  · rintro ⟨long, means⟩
    exact ⟨[], .operands long means (straight means), by rw [straight means]; rfl⟩
  · rintro ⟨_, spells, -⟩
    cases spells with
    | operands long means straight => exact ⟨long, means⟩

/-- An instruction without operands takes no further bytes. -/
private theorem exact_plain {instruction : Instruction} (straight : instruction.targets = []) :
    Exact (pure instruction : CodeReader Instruction) position
      (site.Spelled (.plain instruction)) := by
  unfold Form.plain
  refine exact_operands (fun means => Option.some.inj means ▸ straight)
    ((Exact.pure instruction).congr fun bytes found => ?_)
  rw [List.length_eq_zero_iff, Option.some.injEq, eq_comm (a := found)]

/-- Unused operands are passed over. -/
private theorem exact_unused (size : Nat) {instruction : Instruction}
    (straight : instruction.targets = []) :
    Exact (do site.read (Decoder.skip size); return instruction) position
      (site.Spelled (.operands size fun _ _ => some instruction)) := by
  refine exact_operands (fun means => Option.some.inj means ▸ straight) ?_
  refine ((exact_read (.skip size)).map fun _ => instruction).congr fun bytes found => ?_
  simp [eq_comm]

/-- A byte that is made into an instruction without further bytes. -/
theorem exact_byte {next : UInt8 → CodeReader Instruction} {make : UInt8 → Option Instruction}
    (reads : ∀ byte position, Exact (next byte) position fun bytes instruction => bytes = [] ∧
      make byte = some instruction) (straight : ∀ {byte instruction}, make byte = some instruction →
      instruction.targets = []) :
    Exact (site.read Decoder.u8 >>= next) position (site.Spelled (.byte make)) := by
  unfold Form.byte
  refine exact_operands ?_ ?_
  · intro bytes instruction means
    split at means
    · exact straight means
    · cases means
  · refine ((exact_read .u8).bind fun byte _ _ => reads byte _).congr fun bytes instruction => ?_
    constructor
    · rintro ⟨_, _, byte, rfl, rfl, rfl, means⟩
      exact ⟨rfl, means⟩
    · rintro ⟨long, means⟩
      obtain ⟨byte, rfl⟩ := List.length_eq_one_iff.mp long
      exact ⟨[byte], [], byte, rfl, rfl, rfl, means⟩

/-- A single byte names a slot. -/
private theorem exact_slot {make : UInt8 → Instruction}
    (straight : ∀ byte, (make byte).targets = []) :
    Exact (do return make (← site.read Decoder.u8)) position
      (site.Spelled (.byte fun byte => some (make byte))) := by
  refine exact_byte (fun byte position => (Exact.pure (make byte)).congr fun bytes found => ?_) ?_
  · rw [Option.some.injEq, eq_comm (a := found)]
  · exact fun means => Option.some.inj means ▸ straight _

/-- A number that has been read and made into an instruction. -/
theorem exact_number {reader : CodeReader α} {size : Nat} {f : List UInt8 → α}
    {make : α → Instruction} {instruction : List UInt8 → Instruction}
    (reads : Exact reader position fun bytes value => bytes.length = size ∧ value = f bytes)
    (straight : ∀ bytes, (instruction bytes).targets = [])
    (same : ∀ {bytes}, bytes.length = size → make (f bytes) = instruction bytes) :
    Exact (do return make (← reader)) position
      (site.Spelled (.operands size fun _ bytes => some (instruction bytes))) := by
  refine exact_operands (fun means => Option.some.inj means ▸ straight _)
    ((reads.map make).congr fun bytes found => ?_)
  constructor
  · rintro ⟨_, ⟨long, rfl⟩, rfl⟩
    exact ⟨long, by rw [same long]⟩
  · rintro ⟨long, means⟩
    exact ⟨_, ⟨long, rfl⟩, by rw [same long, Option.some.inj means]⟩

/-- A place that has been read, and the constant there. -/
theorem exact_constantAt {reader : CodeReader α} {size : Nat} {f : List UInt8 → α}
    {place : α → UInt16}
    (reads : Exact reader position fun bytes value => bytes.length = size ∧ value = f bytes)
    (same : ∀ {bytes}, bytes.length = size → place (f bytes) = placeOf bytes) :
    Exact (do return .const (← site.constant (place (← reader)))) position
      (site.Spelled
        (.operands size fun pool bytes => (constantAt? pool (placeOf bytes)).map .const)) := by
  refine exact_operands ?_ ?_
  · intro bytes instruction means
    obtain ⟨value, -, rfl⟩ := Option.map_eq_some_iff.mp means
    rfl
  · refine (reads.bind fun value _ _ => (exact_constant (place value)).map Instruction.const).congr
      fun bytes instruction => ?_
    simp only [Option.map_eq_some_iff]
    constructor
    · rintro ⟨front, _, _, rfl, ⟨long, rfl⟩, value, ⟨rfl, found⟩, rfl⟩
      rw [List.append_nil]
      exact ⟨long, value, same long ▸ found, rfl⟩
    · rintro ⟨long, value, found, rfl⟩
      exact ⟨bytes, [], _, by simp, ⟨long, rfl⟩, value, ⟨rfl, (same long).symm ▸ found⟩, rfl⟩

/-- A place in the pool may be given by a single byte. -/
private theorem toUInt16_byte : ∀ {bytes : List UInt8}, bytes.length = 1 →
    (UInt8.ofNat (bigEndian bytes)).toUInt16 = placeOf bytes
  | [byte], _ => by
    apply UInt16.toNat_inj.mp
    simp [placeOf, bigEndian]

/-- Both a reader and the form that it reads depend on a condition. -/
theorem exact_ite {condition : Prop} [Decidable condition] {reader other : CodeReader Instruction}
    {form form' : Form} (yes : Exact reader position (site.Spelled form))
    (no : Exact other position (site.Spelled form')) :
    Exact (if condition then reader else other) position
      (site.Spelled (if condition then form else form')) := by
  split
  · exact yes
  · exact no

/-- Constants are pushed as their opcodes say. -/
private theorem exact_push (op : Nat) :
    Exact (site.push op) position (site.Spelled (.ofPush op)) := by
  unfold push Form.ofPush
  refine exact_ite (exact_plain rfl) <| exact_ite (exact_plain rfl) <|
    exact_ite (exact_plain rfl) <|
    exact_ite (exact_plain rfl) <| exact_ite (exact_plain rfl) <| exact_ite ?_ <| exact_ite ?_ <|
    exact_ite ?_ ?_
  · refine exact_number (exact_read .i8) (fun _ => rfl) fun long => ?_
    have value : (Int8.ofInt (signed _)).toInt = _ :=
      toInt_ofInt_signed (congrArg (8 * ·) long) (by decide)
    rw [← Int32.ofInt_int8ToInt, value]
  · refine exact_number (exact_read .i16) (fun _ => rfl) fun long => ?_
    have value : (Int16.ofInt (signed _)).toInt = _ :=
      toInt_ofInt_signed (congrArg (8 * ·) long) (by decide)
    rw [← Int32.ofInt_int16ToInt, value]
  · exact exact_constantAt (exact_read (.number 1 _)) toUInt16_byte
  · exact exact_constantAt (exact_read .u16) fun _ => rfl

private theorem read_skip_zero : site.read (Decoder.skip 0) = pure () := by
  funext cursor
  rfl

/-- Look-ups in the pool may be made one after the other. -/
private theorem inPool_bind {β : Type} (result : Except ClassFileError α)
    (next : α → Except ClassFileError β) :
    site.inPool (result >>= next) = site.inPool result >>=
      fun value => site.inPool (next value) := by
  cases result with
  | ok value => rfl
  | error error => rfl

/-- A look-up finds what it returns. -/
private theorem toOption_eq_some_iff {result : Except ClassFileError α} {value : α} :
    result.toOption = some value ↔ result = .ok value := by
  cases result with
  | ok found => simp [Except.toOption]
  | error error => simp [Except.toOption]

/-- An instruction that names a place in the pool means what is found there. -/
private theorem exact_place (unused : Nat) (look : ConstantPool → UInt16 → Except ClassFileError α)
    {make : α → Instruction} (straight : ∀ found, (make found).targets = []) :
    Exact (do
        let index ← site.read Decoder.u16
        site.read (Decoder.skip unused)
        let found ← site.inPool (look site.pool index)
        return make found) position (site.Spelled (.place unused look make)) := by
  refine exact_operands ?_ ?_
  · intro bytes instruction means
    obtain ⟨value, -, rfl⟩ := Option.map_eq_some_iff.mp means
    exact straight value
  · refine ((exact_read .u16).bind fun index _ _ => (exact_read (.skip unused)).bind fun _ _ _ =>
      (exact_inPool (look site.pool index)).map make).congr fun bytes instruction => ?_
    simp only [Option.map_eq_some_iff, toOption_eq_some_iff]
    constructor
    · rintro ⟨front, _, _, rfl, ⟨long, rfl⟩, middle, _, _, rfl, long', found, ⟨rfl, looked⟩, rfl⟩
      refine ⟨by simp [long, long'], found, ?_, rfl⟩
      rwa [List.take_left' long]
    · rintro ⟨long, found, looked, rfl⟩
      refine ⟨bytes.take 2, bytes.drop 2, _, (List.take_append_drop 2 bytes).symm, ⟨?_, rfl⟩,
        bytes.drop 2, [], (), ?_, ?_, found, ⟨rfl, looked⟩, rfl⟩
      · rw [List.length_take]
        omega
      · rw [List.append_nil]
      · rw [List.length_drop]
        omega

/-- A place that nothing else follows. -/
theorem exact_placed (look : ConstantPool → UInt16 → Except ClassFileError α)
    {reader : CodeReader α} {make : α → Instruction}
    (same : reader = site.read Decoder.u16 >>= fun index => site.inPool (look site.pool index))
    (straight : ∀ found, (make found).targets = []) :
    Exact (do return make (← reader)) position (site.Spelled (.place 0 look make)) := by
  have reads : Exact _ position (site.Spelled (.place 0 look make)) := exact_place 0 look straight
  subst same
  simpa only [read_skip_zero, pure_bind, bind_assoc] using reads

/-- An access to a field has the descriptor of the field. -/
private theorem exact_field {make : String → Instruction}
    (straight : ∀ descriptor, (make descriptor).targets = []) :
    Exact (do return make (← site.field)) position (site.Spelled (.field make)) := by
  have reads : Exact _ position (site.Spelled (.field make)) :=
    exact_placed ConstantPool.memberRef rfl fun member => straight member.descriptor
  simpa only [field, pure_bind, bind_assoc] using reads

/-- A call names the method that it calls. -/
private theorem exact_invoke {kind : InvokeKind} (local' : kind ≠ .interface) :
    Exact (site.invoke kind) position (site.Spelled (.invoke kind 0)) := by
  have reads : Exact _ position (site.Spelled (.invoke kind 0)) :=
    exact_placed ConstantPool.memberRef rfl fun _ => rfl
  simpa only [invoke, if_neg local', pure_bind, bind_assoc] using reads

private theorem exact_invokeInterface :
    Exact (site.invoke .interface) position (site.Spelled (.invoke .interface 2)) :=
  exact_place 2 ConstantPool.memberRef fun _ => rfl

private theorem exact_invokeDynamic :
    Exact site.invokeDynamic position
      (site.Spelled
        (.place 2 ConstantPool.invokeDynamic fun member => .invokeDynamic member.1 member.2)) :=
  exact_place 2 ConstantPool.invokeDynamic fun _ => rfl

/-- An array of references has the type that its class names. -/
private theorem exact_newArray :
    Exact (do return .newArray (← site.inPool (FieldType.ofClassName (← site.className)))) position
      (site.Spelled
        (.place 0 (fun pool index => pool.className index >>= FieldType.ofClassName)
          .newArray)) := by
  have reads : Exact _ position (site.Spelled
      (.place 0 (fun pool index => pool.className index >>= FieldType.ofClassName) .newArray)) :=
    exact_placed _ rfl fun _ => rfl
  simpa only [className, inPool_bind, bind_assoc] using reads

/-- Codes of element types are looked up in their table. -/
private theorem elementType_eq (code : UInt8) :
    site.elementType code =
      (elementOfCode? code.toNat).elim (throw (.invalidArrayType site.offset code))
        fun element => pure element := by
  unfold elementType elementOfCode?
  split <;> simp_all

/-- An array of numbers has the element type that its code stands for. -/
private theorem exact_newElements :
    Exact (do return .newArray (← site.elementType (← site.read Decoder.u8))) position
      (site.Spelled (.byte fun code => (elementOfCode? code.toNat).map .newArray)) := by
  refine exact_byte (fun code position => ?_) fun means => ?_
  · rw [elementType_eq]
    cases elementOfCode? code.toNat with
    | none => exact (Exact.throw _).congr fun bytes instruction => by simp
    | some element =>
        exact (Exact.pure (Instruction.newArray element)).congr fun bytes instruction => by
          simp [eq_comm]
  · obtain ⟨element, -, rfl⟩ := Option.map_eq_some_iff.mp means
    rfl

/-- An array with several dimensions names its class and their number. -/
private theorem exact_multiNewArray :
    Exact (do
        let index ← site.read Decoder.u16
        let dimensions ← site.read Decoder.u8
        let name ← site.inPool (site.pool.className index)
        return .multiNewArray (← site.inPool (FieldType.ofClassName name)) dimensions) position
      (site.Spelled (.operands 3 fun pool bytes =>
        match bytes with
        | [a, b, dimensions] =>
          (pool.className (placeOf [a, b]) >>= FieldType.ofClassName).toOption.map
            (.multiNewArray · dimensions)
        | _ => none)) := by
  refine exact_operands ?_ ?_
  · intro bytes instruction means
    split at means
    · obtain ⟨_, -, rfl⟩ := Option.map_eq_some_iff.mp means
      rfl
    · cases means
  · simp only [← bind_assoc, ← inPool_bind]
    refine ((exact_read .u16).bind fun index _ _ => (exact_read .u8).bind fun dimensions _ _ =>
      (exact_inPool (site.pool.className index >>= FieldType.ofClassName)).map
        (Instruction.multiNewArray · dimensions)).congr fun bytes instruction => ?_
    constructor
    · rintro ⟨front, _, _, rfl, ⟨long, rfl⟩, _, _, dimensions, rfl, rfl, array, ⟨rfl, found⟩, rfl⟩
      obtain ⟨a, b, rfl⟩ := List.length_eq_two.mp long
      exact ⟨rfl, Option.map_eq_some_iff.mpr ⟨array, toOption_eq_some_iff.mpr found, rfl⟩⟩
    · rintro ⟨long, means⟩
      obtain ⟨a, b, dimensions, rfl⟩ := List.length_eq_three.mp long
      obtain ⟨array, found, rfl⟩ := Option.map_eq_some_iff.mp means
      exact ⟨[a, b], [dimensions], _, rfl, ⟨rfl, rfl⟩, [dimensions], [], dimensions,
        rfl, rfl, array, ⟨rfl, toOption_eq_some_iff.mp found⟩, rfl⟩

/-- An increment has a slot and a signed byte. -/
private theorem exact_increment :
    Exact (do
        let slot ← site.read Decoder.u8
        let delta ← site.read Decoder.i8
        return .increment slot.toUInt16 delta.toInt16) position
      (site.Spelled (.operands 2 fun _ bytes =>
        match bytes with
        | [slot, delta] => some (.increment slot.toUInt16 (Int16.ofInt (signed [delta])))
        | _ => none)) := by
  have widened (delta : UInt8) : (Int8.ofInt (signed [delta])).toInt16 =
      Int16.ofInt (signed [delta]) := by
    have value : (Int8.ofInt (signed [delta])).toInt = _ := toInt_ofInt_signed rfl (by decide)
    rw [← Int16.ofInt_int8ToInt, value]
  refine exact_operands ?_ ?_
  · intro bytes instruction means
    split at means
    · cases means
      rfl
    · cases means
  · refine ((exact_read .u8).bind fun slot _ _ => (exact_read .i8).map
      fun delta => Instruction.increment slot.toUInt16 delta.toInt16).congr
      fun bytes instruction => ?_
    constructor
    · rintro ⟨_, _, slot, rfl, rfl, _, ⟨long, rfl⟩, rfl⟩
      obtain ⟨delta, rfl⟩ := List.length_eq_one_iff.mp long
      exact ⟨rfl, by rw [widened]; rfl⟩
    · rintro ⟨long, means⟩
      obtain ⟨slot, delta, rfl⟩ := List.length_eq_two.mp long
      cases means
      exact ⟨[slot], [delta], slot, rfl, rfl, _, ⟨rfl, rfl⟩, by rw [widened]⟩

/-! ## Jumps -/

/-- A branch goes to a signed distance of two bytes. -/
private theorem exact_branch (condition : Condition) :
    Exact (do return .branch condition (← site.target16)) position
      (site.Spelled (.branch condition)) := by
  refine (exact_target16.map (Instruction.branch condition)).congr fun bytes instruction => ?_
  constructor
  · rintro ⟨target, ⟨long, reached⟩, rfl⟩
    exact ⟨_, .branch long target, by simpa [Instruction.targets] using reached⟩
  · rintro ⟨_, spells, reached⟩
    cases spells with
    | branch long target =>
        exact ⟨target, ⟨long, by simpa [Instruction.targets] using reached⟩, rfl⟩

/-- A jump goes to a signed distance. -/
private theorem exact_goto {reader : CodeReader Nat} {size : Nat}
    (reads : Exact reader position fun bytes target =>
      bytes.length = size ∧ (target : Int) = site.offset + signed bytes) :
    Exact (do return .goto (← reader)) position (site.Spelled (.goto size)) := by
  refine (reads.map Instruction.goto).congr fun bytes instruction => ?_
  constructor
  · rintro ⟨target, ⟨long, reached⟩, rfl⟩
    exact ⟨_, .goto long target, by simpa [Instruction.targets] using reached⟩
  · rintro ⟨_, spells, reached⟩
    cases spells with
    | goto long target => exact ⟨target, ⟨long, by simpa [Instruction.targets] using reached⟩, rfl⟩

/-- Targets that are as far away as the words of a switch say. -/
theorem exists_pairs {f : α → Int} : ∀ {words : List α} {targets : List Nat},
    targets.map Int.ofNat = words.map f →
      ∃ pairs : List (α × Nat), pairs.map Prod.fst = words ∧ pairs.map Prod.snd = targets ∧
        ∀ pair ∈ pairs, (pair.2 : Int) = f pair.1
  | [], [], _ => ⟨[], rfl, rfl, by simp⟩
  | [], _ :: _, same => by simp at same
  | _ :: _, [], same => by simp at same
  | word :: words, target :: targets, same => by
    simp only [List.map_cons, List.cons.injEq] at same
    obtain ⟨pairs, rfl, rfl, all⟩ := exists_pairs same.2
    refine ⟨(word, target) :: pairs, rfl, rfl, ?_⟩
    simp only [List.mem_cons, forall_eq_or_imp]
    exact ⟨same.1, all⟩

/-- The targets of a switch are as far away as its words say, and its default is as far away as the
first word says. -/
theorem targets_switch_iff {f : α → Int} {words : List α} {base : Int} {default : Nat}
    {targets : List Nat} :
    (Instruction.switch default targets).targets.map Int.ofNat =
      (words.map f ++ [base]).map ((site.offset : Int) + ·) ↔
      (∃ items : List (α × Nat), items.map Prod.fst = words ∧ items.map Prod.snd = targets ∧
        ∀ item ∈ items, (item.2 : Int) = site.offset + f item.1) ∧
          (default : Int) = site.offset + base := by
  simp only [Instruction.targets, List.map_append, List.map_map, List.map_cons, List.map_nil]
  constructor
  · intro reached
    obtain ⟨reached, reached'⟩ := List.append_inj' reached rfl
    exact ⟨exists_pairs reached, by simpa using reached'⟩
  · rintro ⟨⟨items, rfl, rfl, all⟩, reached⟩
    rw [← reached, List.map_map, List.map_map]
    congr 1
    exact List.map_congr_left all

/-- The table of a switch is padded, and has a target for each number in its range. -/
private theorem exact_tableSwitch :
    Exact site.tableSwitch (site.offset + 1) (site.Spelled .tableSwitch) := by
  refine ((exact_read .align4).bind fun _ _ _ => exact_target32.bind fun default _ _ =>
    (exact_read .i32).bind fun low _ _ => (exact_read .i32).bind fun high _ _ =>
      (exact_times (fun _ => exact_target32) (high.toInt - low.toInt + 1).toNat).map
        (Instruction.switch default)).congr fun bytes instruction => ?_
  constructor
  · rintro ⟨padding, _, _, rfl, padded, base, _, default, rfl, ⟨long, reached⟩, low, _, _, rfl,
      ⟨long', rfl⟩, high, _, _, rfl, ⟨long'', rfl⟩, _, ⟨items, count, rfl, rfl, all⟩, rfl⟩
    rw [toInt_ofInt_signed32 long', toInt_ofInt_signed32 long''] at count
    refine ⟨(items.map Prod.fst).map signed ++ [signed base],
      .tableSwitch default padded ?_ ?_ ?_, ?_⟩
    · simp only [List.mem_cons, List.mem_map]
      rintro word (rfl | rfl | rfl | ⟨item, member, rfl⟩)
      · exact long
      · exact long'
      · exact long''
      · exact (all item member).1
    · rw [List.length_map, count]
    · rw [List.length_map, List.length_map]
    · exact targets_switch_iff.mpr
        ⟨⟨items, rfl, rfl, fun item member => (all item member).2⟩, reached⟩
  · rintro ⟨_, spells, reached⟩
    cases spells with
    | @tableSwitch padding base low high words default targets padded long count same =>
        obtain ⟨⟨items, rfl, rfl, all⟩, reached'⟩ := targets_switch_iff.mp reached
        simp only [List.mem_cons, forall_eq_or_imp] at long
        obtain ⟨long, long', long'', longs⟩ := long
        refine ⟨padding, _, (), rfl, padded, base, _, default, rfl, ⟨long, reached'⟩,
          low, _, _, rfl,
          ⟨long', rfl⟩, high, _, _, rfl, ⟨long'', rfl⟩, _, ⟨items, ?_, rfl, rfl, ?_⟩, rfl⟩
        · rw [toInt_ofInt_signed32 long', toInt_ofInt_signed32 long'', ← count, List.length_map]
        · exact fun item member => ⟨longs _ (List.mem_map_of_mem member), all item member⟩

/-- The pairs of a switch are padded, and have a target each. -/
private theorem exact_lookupSwitch :
    Exact site.lookupSwitch (site.offset + 1) (site.Spelled .lookupSwitch) := by
  have pair (position : Nat) : Exact (do site.read (Decoder.skip 4); site.target32)
      position fun bytes target =>
      bytes.length = 8 ∧ (target : Int) = site.offset + signed (bytes.drop 4) := by
    refine ((exact_read (.skip 4)).bind fun _ _ _ => exact_target32).congr fun bytes target => ?_
    constructor
    · rintro ⟨key, word, _, rfl, long, long', reached⟩
      rw [List.length_append, long, long', List.drop_left' long]
      exact ⟨rfl, reached⟩
    · rintro ⟨long, reached⟩
      refine ⟨bytes.take 4, bytes.drop 4, (), (List.take_append_drop 4 bytes).symm, ?_, ?_, reached⟩
      · rw [List.length_take, long]
        rfl
      · rw [List.length_drop, long]
  refine ((exact_read .align4).bind fun _ _ _ => exact_target32.bind fun default _ _ =>
    (exact_read .i32).bind fun count _ _ => (exact_times pair count.toInt.toNat).map
      (Instruction.switch default)).congr fun bytes instruction => ?_
  constructor
  · rintro ⟨padding, _, _, rfl, padded, base, _, default, rfl, ⟨long, reached⟩, number, _, _, rfl,
      ⟨long', rfl⟩, _, ⟨items, count, rfl, rfl, all⟩, rfl⟩
    rw [toInt_ofInt_signed32 long'] at count
    refine ⟨((items.map Prod.fst).map fun pair => signed (pair.drop 4)) ++ [signed base],
      .lookupSwitch default padded ⟨long, long'⟩ ?_ ?_ ?_, ?_⟩
    · simp only [List.mem_map]
      rintro _ ⟨item, member, rfl⟩
      exact (all item member).1
    · rw [List.length_map, count]
    · rw [List.length_map, List.length_map]
    · exact targets_switch_iff.mpr
        ⟨⟨items, rfl, rfl, fun item member => (all item member).2⟩, reached⟩
  · rintro ⟨_, spells, reached⟩
    cases spells with
    | @lookupSwitch padding base number words default targets padded long longs count same =>
        obtain ⟨⟨items, rfl, rfl, all⟩, reached'⟩ := targets_switch_iff.mp reached
        refine ⟨padding, _, (), rfl, padded, base, _, default, rfl, ⟨long.1, reached'⟩,
          number, _, _, rfl, ⟨long.2, rfl⟩, _, ⟨items, ?_, rfl, rfl, ?_⟩, rfl⟩
        · rw [toInt_ofInt_signed32 long.2, ← count, List.length_map]
        · exact fun item member => ⟨longs _ (List.mem_map_of_mem member), all item member⟩

/-! ## The table of opcodes -/

/-- The bytes spell an instruction of the form, if there is one. -/
def SpelledAs (site : Site) (form : Option Form) (bytes : List UInt8) (instruction : Instruction) :
    Prop :=
  ∃ known, form = some known ∧ site.Spelled known bytes instruction

/-- One row of the table. -/
theorem exact_row {condition : Prop} [Decidable condition]
    {reader other : CodeReader Instruction} {form : Form} {forms : Option Form}
    (row : condition → Exact reader position (site.Spelled form))
    (rows : ¬condition → Exact other position (site.SpelledAs forms)) :
    Exact (if condition then reader else other) position
      (site.SpelledAs (if condition then some form else forms)) := by
  split
  case isTrue holds => exact (row holds).congr fun bytes instruction => by simp [SpelledAs]
  case isFalse fails => exact rows fails

/-- An opcode that is not in the table. -/
theorem exact_unknown (error : LoweringError) :
    Exact (throw error : CodeReader Instruction) position (site.SpelledAs none) :=
  (Exact.throw error).congr fun bytes instruction => by simp [SpelledAs]

/-- A wide instruction has operands of two bytes. -/
private theorem exact_wide : Exact site.wide position (site.Spelled .wide) := by
  have behind (opcode : UInt8) (slot : UInt16) (position : Nat) :
      Exact (do
        let op := opcode.toNat
        if 0x15 ≤ op ∧ op ≤ 0x19 then return .load (.ofCode (op - 0x15)) slot
        else if 0x36 ≤ op ∧ op ≤ 0x3a then return .store (.ofCode (op - 0x36)) slot
        else if op = 0x84 then return .increment slot (← site.read Decoder.i16)
        else if op = 0xa9 then return .unsupported opcode
        else throw (.unknownOpcode opcode site.offset)) position
          (site.SpelledAs (Form.ofWide opcode slot)) := by
    refine exact_row (fun _ => exact_plain rfl) fun _ =>
      exact_row (fun _ => exact_plain rfl) fun _ =>
        exact_row (fun _ => ?_) fun _ => exact_row (fun _ => exact_plain rfl) fun _ =>
          exact_unknown _
    exact exact_number (exact_read .i16) (fun _ => rfl) fun _ => rfl
  refine ((exact_read .u8).bind fun opcode _ _ => (exact_read .u16).bind fun slot _ _ =>
    behind opcode slot _).congr fun bytes instruction => ?_
  constructor
  · rintro ⟨_, _, opcode, rfl, rfl, slot, rest, _, rfl, ⟨long, rfl⟩, form, found, displacements,
      spells, reached⟩
    have spells : Form.Spells site.pool site.offset .wide (opcode :: (slot ++ rest))
        instruction displacements :=
      .wide long found spells
    exact ⟨displacements, spells, reached⟩
  · rintro ⟨displacements, spells, reached⟩
    cases spells with
    | wide long found spells =>
        exact ⟨[_], _, _, rfl, rfl, _, _, _, rfl, ⟨long, rfl⟩, _, found, displacements,
          spells, reached⟩

/-- Every opcode has its form. -/
private theorem exact_opcode (opcode : UInt8) :
    Exact (site.operands opcode) (site.offset + 1) (site.SpelledAs (Form.ofOpcode opcode)) := by
  unfold operands Form.ofOpcode
  refine exact_row (fun _ => exact_plain rfl) fun _ => ?_
  refine exact_row (fun _ => exact_push opcode.toNat) fun _ => ?_
  -- Loads and stores of slots, of array elements, and arithmetic.
  refine exact_row (fun _ => exact_slot fun _ => rfl) fun _ => ?_
  iterate 2 refine exact_row (fun _ => exact_plain rfl) fun _ => ?_
  refine exact_row (fun _ => exact_slot fun _ => rfl) fun _ => ?_
  iterate 5 refine exact_row (fun _ => exact_plain rfl) fun _ => ?_
  refine exact_row (fun _ => exact_increment) fun _ => ?_
  refine exact_row (fun _ => ?_) fun _ => ?_
  · generalize conversionOfCode (opcode.toNat - 0x85) = kinds
    exact exact_plain rfl
  iterate 3 refine exact_row (fun _ => exact_plain rfl) fun _ => ?_
  -- Jumps and returns.
  iterate 4 refine exact_row (fun _ => exact_branch _) fun _ => ?_
  refine exact_row (fun _ => exact_goto exact_target16) fun _ => ?_
  refine exact_row (fun _ => exact_unused 2 rfl) fun _ => ?_
  refine exact_row (fun _ => exact_unused 1 rfl) fun _ => ?_
  refine exact_row (fun _ => exact_tableSwitch) fun _ => ?_
  refine exact_row (fun _ => exact_lookupSwitch) fun _ => ?_
  iterate 2 refine exact_row (fun _ => exact_plain rfl) fun _ => ?_
  -- Fields, calls and objects.
  iterate 4 refine exact_row (fun _ => exact_field fun _ => rfl) fun _ => ?_
  iterate 3 refine exact_row (fun _ => exact_invoke nofun) fun _ => ?_
  refine exact_row (fun _ => exact_invokeInterface) fun _ => ?_
  refine exact_row (fun _ => exact_invokeDynamic) fun _ => ?_
  refine exact_row (fun _ => exact_placed _ rfl fun _ => rfl) fun _ => ?_
  refine exact_row (fun _ => exact_newElements) fun _ => ?_
  refine exact_row (fun _ => exact_newArray) fun _ => ?_
  iterate 2 refine exact_row (fun _ => exact_plain rfl) fun _ => ?_
  iterate 2 refine exact_row (fun _ => exact_placed _ rfl fun _ => rfl) fun _ => ?_
  refine exact_row (fun _ => exact_plain rfl) fun _ => ?_
  refine exact_row (fun _ => exact_wide) fun _ => ?_
  refine exact_row (fun _ => exact_multiNewArray) fun _ => ?_
  iterate 2 refine exact_row (fun _ => exact_branch _) fun _ => ?_
  refine exact_row (fun _ => exact_goto exact_target32) fun _ => ?_
  refine exact_row (fun _ => exact_unused 4 rfl) fun _ => ?_
  exact exact_unknown _

/-- An instruction is read from exactly the bytes that spell it, with the targets that they lead
to. -/
theorem exact_instruction :
    Exact site.instruction site.offset fun bytes instruction =>
      ∃ displacements, Spells site.pool site.offset bytes instruction displacements ∧
        instruction.targets.map Int.ofNat = displacements.map ((site.offset : Int) + ·) := by
  have behind (opcode : UInt8) (front : List UInt8) (same : front = [opcode]) :
      Exact (site.operands opcode) (site.offset + front.length)
        (site.SpelledAs (Form.ofOpcode opcode)) := by
    subst same
    exact exact_opcode opcode
  refine ((exact_read .u8).bind behind).congr fun bytes instruction => ?_
  constructor
  · rintro ⟨_, operands, opcode, rfl, rfl, form, known, displacements, spells, reached⟩
    exact ⟨displacements, ⟨opcode, operands, form, rfl, known, spells⟩, reached⟩
  · rintro ⟨displacements, ⟨opcode, operands, form, rfl, known, spells⟩, reached⟩
    exact ⟨[opcode], operands, opcode, rfl, rfl, form, known, displacements, spells, reached⟩

end Site

end ArrayBounds.Program
