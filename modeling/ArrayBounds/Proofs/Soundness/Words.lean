import ArrayBounds.Proofs.Soundness.Variables

/-! # Arithmetic on words

The rules for variables are about mathematical integers, but an `int` is a word of 32 bits and
results wrap around. What a result says of a word is true with a few exceptions
(`ArrayBounds.Variable.holdsWord_arithmetic`): sums and products of operands that are known not to
be negative may become negative, and so may what is counted upwards; counting down from the least
word leads above every bound.
-/

namespace ArrayBounds

open Program

/-- A number of 32 bits, in two's complement. -/
abbrev Word := BitVec 32

namespace Word

private theorem toInt_bounds (word : Word) : -2 ^ 31 ≤ word.toInt ∧ word.toInt < 2 ^ 31 :=
  ⟨BitVec.le_toInt word, BitVec.toInt_lt⟩

private theorem bmod_of_range {n : Int} (lower : -2 ^ 31 ≤ n) (upper : n < 2 ^ 31) :
    n.bmod (2 ^ 32) = n :=
  Int.bmod_eq_of_le (by omega) (by omega)

private theorem bmod_of_above {n : Int} (lower : 2 ^ 31 ≤ n) (upper : n < 2 ^ 32) :
    n.bmod (2 ^ 32) = n - 2 ^ 32 := by
  rw [Int.bmod_def]
  split <;> omega

private theorem bmod_of_below {n : Int} (lower : -2 ^ 32 ≤ n) (upper : n < -2 ^ 31) :
    n.bmod (2 ^ 32) = n + 2 ^ 32 := by
  rw [Int.bmod_def]
  split <;> omega

variable {a : Word} (b : Word)

/-- The conjunction with a word that is not negative lies between zero and that word. -/
private theorem and_le (nonneg : 0 ≤ a.toInt) :
    0 ≤ (a &&& b).toInt ∧ (a &&& b).toInt ≤ a.toInt := by
  have small := BitVec.toInt_pos_iff.mp nonneg
  have less : (a &&& b).toNat ≤ a.toNat := by
    rw [BitVec.toNat_and]
    exact Nat.and_le_left
  rw [BitVec.toInt_eq_toNat_of_lt small, BitVec.toInt_eq_toNat_of_lt (by omega)]
  omega

private theorem sshiftRight_le (shift : Nat) (nonneg : 0 ≤ a.toInt) :
    0 ≤ (a.sshiftRight shift).toInt ∧ (a.sshiftRight shift).toInt ≤ a.toInt := by
  rw [BitVec.toInt_sshiftRight, Int.shiftRight_eq_div_pow]
  exact_mod_cast shift_le shift nonneg

/-- A word that is not negative is shifted towards zero. -/
private theorem ushiftRight_le (shift : Nat) (nonneg : 0 ≤ a.toInt) :
    0 ≤ (a >>> shift).toInt ∧ (a >>> shift).toInt ≤ a.toInt := by
  have small := BitVec.toInt_pos_iff.mp nonneg
  have less : (a >>> shift).toNat ≤ a.toNat := by
    rw [BitVec.toNat_ushiftRight, Nat.shiftRight_eq_div_pow]
    exact Nat.div_le_self _ _
  rw [BitVec.toInt_eq_toNat_of_lt small, BitVec.toInt_eq_toNat_of_lt (by omega)]
  omega

end Word

/-- The result of an operation with two operands on words; absent for a division by zero. Results
wrap around, and shifts use the low five bits of their second operand only. -/
def Program.ArithmeticOp.onWords (op : ArithmeticOp) (a b : Word) : Option Word :=
  match op with
  | add => some (a + b)
  | sub => some (a - b)
  | mul => some (a * b)
  | div => if b = 0 then none else some (a.sdiv b)
  | rem => if b = 0 then none else some (a.srem b)
  | neg => none
  | shl => some (a <<< (b.toNat % 32))
  | shr => some (a.sshiftRight (b.toNat % 32))
  | ushr => some (a >>> (b.toNat % 32))
  | and => some (a &&& b)
  | or => some (a ||| b)
  | xor => some (a ^^^ b)

namespace Sign

instance : (sign : Sign) → (n : Int) → Decidable (sign.Contains n)
  | bottom, _ => .isFalse id
  | positive, n => inferInstanceAs (Decidable (0 < n))
  | nonNegative, n => inferInstanceAs (Decidable (0 ≤ n))
  | top, _ => .isTrue trivial

variable {a b : Sign}

private theorem add_eq_top (unknown : ¬(a.isNonNegative = true ∧ b.isNonNegative = true)) :
    a.add b = .top := by
  cases a <;> cases b <;> simp_all [add, isNonNegative]

private theorem isNonNegative_add (left : a.isNonNegative = true) (right : b.isNonNegative = true) :
    (a.add b).isNonNegative = true := by
  cases a <;> cases b <;> simp_all [add, isNonNegative]

private theorem mul_eq_top (unknown : ¬(a.isNonNegative = true ∧ b.isNonNegative = true)) :
    a.mul b = .top := by
  cases a <;> cases b <;> simp_all [mul, isNonNegative]

/-- A possible sign that allows negative numbers allows all of them. -/
private theorem eq_top_of_not_isNonNegative {n : Int} (holds : a.Contains n)
    (unknown : ¬a.isNonNegative = true) : a = .top := by
  cases a with
  | bottom => exact holds.elim
  | positive | nonNegative => exact absurd rfl unknown
  | top => rfl

end Sign

namespace Variable

variable {v lhs rhs : Variable} {valuation : VarId → Word} {a b word result : Word}

/-- The variable holds of a word, where all bounds are words as well. -/
def HoldsWord (v : Variable) (valuation : VarId → Word) (word : Word) : Prop :=
  v.Holds (fun id => .int (valuation id).toInt) word.toInt

/-- Both operands are known not to be negative, but their sum is not a word, or their product is
none and wraps around to a number of another sign. -/
def Overflows (op : ArithmeticOp) (lhs rhs : Variable) (a b : Word) : Prop :=
  lhs.sign.isNonNegative = true ∧ rhs.sign.isNonNegative = true ∧
    match op with
    | .add => 2 ^ 31 ≤ a.toInt + b.toInt
    | .mul => 2 ^ 31 ≤ a.toInt * b.toInt ∧ ¬(lhs.sign.mul rhs.sign).Contains (a * b).toInt
    | _ => False

/-- A word that is known not to be negative is counted up beyond all words, or the least word is
counted down although something is known to bound it. -/
def StepsOver (v : Variable) (word : Word) (delta : Int) : Prop :=
  v.sign.isNonNegative = true ∧ 2 ^ 31 ≤ word.toInt + delta ∨
    delta = -1 ∧ v.hasBounds = true ∧ word.toInt = -2 ^ 31

private theorem holdsWord_iff_of_unbounded (below : v.below = ∅) (atMost : v.atMost = ∅) :
    v.HoldsWord valuation word ↔ v.sign.Contains word.toInt :=
  ⟨fun holds => holds.sign, holds_of_unbounded below atMost⟩

section Binary

variable (left : lhs.HoldsWord valuation a) (right : rhs.HoldsWord valuation b) (definedAt : Nat)
include left right

/-- A sum is described if it does not overflow. -/
private theorem holdsWord_add :
    (binary .add lhs rhs .int definedAt).HoldsWord valuation (a + b) ↔
      ¬Overflows .add lhs rhs a b := by
  have sum := BitVec.toInt_add a b
  obtain ⟨-, aboveA⟩ := a.toInt_bounds
  obtain ⟨-, aboveB⟩ := b.toInt_bounds
  rw [holdsWord_iff_of_unbounded rfl rfl]
  change (lhs.sign.add rhs.sign).Contains _ ↔ _
  by_cases known : lhs.sign.isNonNegative = true ∧ rhs.sign.isNonNegative = true
  · have lowerA := left.sign.nonneg known.1
    have lowerB := right.sign.nonneg known.2
    by_cases large : 2 ^ 31 ≤ a.toInt + b.toInt
    · rw [Word.bmod_of_above large (by omega)] at sum
      refine iff_of_false (fun holds => ?_) (not_not_intro ⟨known.1, known.2, large⟩)
      have := holds.nonneg (Sign.isNonNegative_add known.1 known.2)
      omega
    · rw [sum, Word.bmod_of_range (by omega) (by omega)]
      exact iff_of_true (left.sign.add right.sign) fun leaves => large leaves.2.2
  · rw [Sign.add_eq_top known]
    exact iff_of_true trivial fun leaves => known ⟨leaves.1, leaves.2.1⟩

/-- A product is described if it does not overflow. -/
private theorem holdsWord_mul :
    (binary .mul lhs rhs .int definedAt).HoldsWord valuation (a * b) ↔
      ¬Overflows .mul lhs rhs a b := by
  rw [holdsWord_iff_of_unbounded rfl rfl]
  change (lhs.sign.mul rhs.sign).Contains _ ↔ _
  by_cases known : lhs.sign.isNonNegative = true ∧ rhs.sign.isNonNegative = true
  · have lower := Int.mul_nonneg (left.sign.nonneg known.1) (right.sign.nonneg known.2)
    by_cases large : 2 ^ 31 ≤ a.toInt * b.toInt
    · constructor
      · exact fun holds leaves => leaves.2.2.2 holds
      · intro fits
        by_contra wrong
        exact fits ⟨known.1, known.2, large, wrong⟩
    · rw [BitVec.toInt_mul, Word.bmod_of_range (by omega) (by omega)]
      exact iff_of_true (left.sign.mul right.sign) fun leaves => large leaves.2.2.1
  · rw [Sign.mul_eq_top known]
    exact iff_of_true trivial fun leaves => known ⟨leaves.1, leaves.2.1⟩

/-- A quotient is always described. -/
private theorem holdsWord_div :
    (binary .div lhs rhs .int definedAt).HoldsWord valuation (a.sdiv b) := by
  by_cases known : lhs.sign.div rhs.sign = .nonNegative
  · obtain ⟨lower, -⟩ := left.sign.of_div_nonNegative right.sign known
    -- The least word is negative, so this is not the one quotient that wraps around.
    have exact : (a.sdiv b).toInt = a.toInt.tdiv b.toInt := by
      refine BitVec.toInt_sdiv_of_ne_or_ne a b (.inl ?_)
      rintro rfl
      exact absurd lower (by decide)
    unfold HoldsWord
    rw [exact]
    exact left.quotient right .int definedAt
  · have unknown : binary .div lhs rhs .int definedAt = .unknown (some .int) definedAt := by
      unfold binary
      dsimp only
      rw [if_neg known, Sign.div_eq_top known]
      rfl
    rw [unknown]
    exact holds_unknown _ _ _

private theorem holdsWord_rem (divides : b ≠ 0) :
    (binary .rem lhs rhs .int definedAt).HoldsWord valuation (a.srem b) := by
  unfold HoldsWord
  rw [BitVec.toInt_srem]
  exact left.remainder right .int definedAt fun zero => divides (BitVec.eq_of_toInt_eq zero)

private theorem holdsWord_and :
    (binary .and lhs rhs .int definedAt).HoldsWord valuation (a &&& b) := by
  refine ((holds_unknown _ _ _).boundedBy left (Word.and_le b)).boundedBy right ?_
  rw [BitVec.and_comm]
  exact Word.and_le a

/-- What the result of an operation says is true of the word, unless the operation overflows. -/
theorem holdsWord_binary {op : ArithmeticOp} (executed : op.onWords a b = some result) :
    (binary op lhs rhs .int definedAt).HoldsWord valuation result ↔ ¬Overflows op lhs rhs a b := by
  cases op with
  | add =>
      obtain rfl := Option.some.inj executed
      exact holdsWord_add left right definedAt
  | mul =>
      obtain rfl := Option.some.inj executed
      exact holdsWord_mul left right definedAt
  | div =>
      obtain ⟨-, executed⟩ := Option.ite_none_left_eq_some.mp executed
      obtain rfl := Option.some.inj executed
      exact iff_of_true (holdsWord_div left right definedAt) fun leaves => leaves.2.2
  | rem =>
      obtain ⟨divides, executed⟩ := Option.ite_none_left_eq_some.mp executed
      obtain rfl := Option.some.inj executed
      exact iff_of_true (holdsWord_rem left right definedAt divides) fun leaves => leaves.2.2
  | and =>
      obtain rfl := Option.some.inj executed
      exact iff_of_true (holdsWord_and left right definedAt) fun leaves => leaves.2.2
  | shr =>
      obtain rfl := Option.some.inj executed
      exact iff_of_true ((holds_unknown _ _ _).boundedBy left (Word.sshiftRight_le _))
        fun leaves => leaves.2.2
  | ushr =>
      obtain rfl := Option.some.inj executed
      exact iff_of_true ((holds_unknown _ _ _).boundedBy left (Word.ushiftRight_le _))
        fun leaves => leaves.2.2
  | sub | neg | shl | or | xor => exact iff_of_true (holds_unknown _ _ _) fun leaves => leaves.2.2

end Binary

/-! ## Counting -/

private theorem hasBounds_iff : v.hasBounds = true ↔ ∃ target, v.IsBound target := by
  simp only [hasBounds, Bool.or_eq_true, Bool.not_eq_true', Std.ExtTreeSet.isEmpty_eq_false_iff,
    Std.ExtTreeSet.eq_empty_iff_forall_not_mem, not_forall, not_not, IsBound, exists_or]

/-- A sign that is known stays known when a number is counted upwards. -/
theorem isNonNegative_increment {delta : Int} (upwards : 0 < delta)
    (known : v.sign.isNonNegative = true) (definedAt : Nat) :
    (v.increment delta definedAt).sign.isNonNegative = true := by
  have grown : (if v.sign = .nonNegative then .positive else v.sign : Sign).isNonNegative =
      true := by
    split
    · rfl
    · exact known
  unfold increment
  dsimp only
  rw [if_neg (by omega)]
  split
  · exact grown
  · rw [if_neg (by omega)]
    split
    · exact grown
    · omega

private theorem toInt_increment (word : Word) (delta : Int16) :
    (word + .ofInt 32 delta.toInt).toInt = (word.toInt + delta.toInt).bmod (2 ^ 32) := by
  rw [BitVec.toInt_add, BitVec.toInt_ofInt, Int.add_bmod_bmod]

/-- Where nothing is known of the sign, counting up beyond all words is right: by one it leads to
the least word, and by more all bounds are forgotten. -/
theorem holdsWord_increment_above {delta : Int} (upwards : 0 < delta) (unknown : v.sign = .top)
    (definedAt : Nat) (least : delta = 1 → ∀ target, word.toInt ≤ (valuation target).toInt) :
    (v.increment delta definedAt).HoldsWord valuation word := by
  unfold increment
  dsimp only
  rw [if_neg (by omega), unknown]
  split
  case isTrue one =>
    exact ⟨trivial, fun target member => absurd member Std.ExtTreeSet.not_mem_empty,
      fun target _ => least one target⟩
  case isFalse =>
    rw [if_neg (by omega)]
    split <;> exact holds_of_unbounded rfl rfl trivial

/-- The greatest word is not below anything, so that counting down from the least word is right only
if nothing is a bound. -/
theorem holdsWord_decrement_below (unknown : v.sign = .top) (definedAt : Nat)
    (greatest : ∀ target, (valuation target).toInt ≤ word.toInt) :
    (v.increment (-1) definedAt).HoldsWord valuation word ↔ ¬v.hasBounds = true := by
  rw [hasBounds_iff]
  constructor
  · rintro holds ⟨target, bound⟩
    have member : target ∈ (v.increment (-1) definedAt).below :=
      Std.ExtTreeSet.mem_union_iff.mpr bound
    exact absurd (holds.below target member) (Int.not_lt.mpr (greatest target))
  · intro unbounded
    refine ⟨?_, fun target member => ?_,
      fun target member => absurd member Std.ExtTreeSet.not_mem_empty⟩
    · have same : (v.increment (-1) definedAt).sign = .top := by simp [increment, unknown]
      rw [same]
      trivial
    · exact absurd ⟨target, Std.ExtTreeSet.mem_union_iff.mp member⟩ unbounded

section Increment

variable (holds : v.HoldsWord valuation word) (delta : Int16) (definedAt : Nat)
include holds

/-- An increment that wraps around at the lower end is described if it does not step over. -/
private theorem holdsWord_increment_of_below (below : word.toInt + delta.toInt < -2 ^ 31) :
    (v.increment delta.toInt definedAt).HoldsWord valuation (word + .ofInt 32 delta.toInt) ↔
      ¬v.StepsOver word delta.toInt := by
  have moved := toInt_increment word delta
  have range := word.toInt_bounds
  have small := delta.le_toInt
  rw [Word.bmod_of_below (by omega) below] at moved
  have unknown : v.sign = .top := by
    refine Sign.eq_top_of_not_isNonNegative holds.sign fun known => ?_
    have := holds.sign.nonneg known
    omega
  by_cases down : delta.toInt = -1
  · rw [down] at moved below ⊢
    rw [holdsWord_decrement_below unknown definedAt fun target => by
      have := (valuation target).toInt_bounds; omega]
    refine not_congr ⟨fun bounded => .inr ⟨rfl, bounded, by omega⟩, ?_⟩
    rintro (⟨-, leaves⟩ | ⟨-, bounded, -⟩)
    · omega
    · exact bounded
  · refine iff_of_true ?_ ?_
    · unfold increment
      dsimp only
      rw [if_neg (by omega), if_neg (by omega), if_neg down, if_neg (by omega)]
      exact holds_of_unbounded rfl rfl trivial
    · rintro (⟨-, leaves⟩ | ⟨same, -⟩)
      · omega
      · exact down same

/-- An increment that wraps around at the upper end is described if it does not step over. -/
private theorem holdsWord_increment_of_above (above : 2 ^ 31 ≤ word.toInt + delta.toInt) :
    (v.increment delta.toInt definedAt).HoldsWord valuation (word + .ofInt 32 delta.toInt) ↔
      ¬v.StepsOver word delta.toInt := by
  have moved := toInt_increment word delta
  have range := word.toInt_bounds
  have small := delta.toInt_lt
  rw [Word.bmod_of_above above (by omega)] at moved
  by_cases known : v.sign.isNonNegative = true
  · refine iff_of_false (fun after => ?_) (not_not_intro (.inl ⟨known, above⟩))
    have := after.sign.nonneg (isNonNegative_increment (by omega) known definedAt)
    omega
  · refine iff_of_true ?_ ?_
    · refine holdsWord_increment_above (by omega)
        (Sign.eq_top_of_not_isNonNegative holds.sign known) definedAt ?_
      intro one target
      have := (valuation target).toInt_bounds
      omega
    · rintro (⟨same, -⟩ | ⟨down, -, least⟩)
      · exact known same
      · omega

/-- What a variable says after counting is true of the word, unless the step leads over the end of
the words. -/
theorem holdsWord_increment :
    (v.increment delta.toInt definedAt).HoldsWord valuation (word + .ofInt 32 delta.toInt) ↔
      ¬v.StepsOver word delta.toInt := by
  rcases Int.lt_or_le (word.toInt + delta.toInt) (-2 ^ 31) with below | lower
  · exact holdsWord_increment_of_below holds delta definedAt below
  · rcases Int.lt_or_le (word.toInt + delta.toInt) (2 ^ 31) with upper | above
    · refine iff_of_true ?_ ?_
      · unfold HoldsWord
        rw [toInt_increment, Word.bmod_of_range lower upper]
        exact Holds.increment holds delta.toInt definedAt
      · rintro (⟨-, leaves⟩ | ⟨down, -, least⟩) <;> omega
    · exact holdsWord_increment_of_above holds delta definedAt above

end Increment

/-- Arithmetic on words respects what variables say, with exactly these exceptions: a sum or a
product of numbers that are known not to be negative may leave the words, and a count may step over
their end. -/
theorem holdsWord_arithmetic (left : lhs.HoldsWord valuation a) (right : rhs.HoldsWord valuation b)
    (definedAt : Nat) :
    (∀ (op : ArithmeticOp) (result : Word), op.onWords a b = some result →
      ((binary op lhs rhs .int definedAt).HoldsWord valuation result ↔ ¬Overflows op lhs rhs a b)) ∧
    ∀ delta : Int16,
      (lhs.increment delta.toInt definedAt).HoldsWord valuation (a + .ofInt 32 delta.toInt) ↔
        ¬lhs.StepsOver a delta.toInt :=
  ⟨fun _ _ executed => holdsWord_binary left right definedAt executed,
    fun delta => holdsWord_increment left delta definedAt⟩

/-- An index below the length of an array. -/
def guardedIndex : Variable :=
  { sign := .nonNegative, below := {0} }

/-- The length of an array. -/
def arrayLength : Variable :=
  { sign := .positive, atMost := {0} }

/-- The greatest word is the length of an array: the index in front of the last one is its own
remainder, and the next index is at most the length. -/
theorem holdsWord_remainder_of_length :
    guardedIndex.HoldsWord (fun _ => .intMax 32) 0x7FFFFFFE ∧
      arrayLength.HoldsWord (fun _ => .intMax 32) (.intMax 32) ∧
      (binary .rem guardedIndex arrayLength .int 0).HoldsWord (fun _ => .intMax 32) 0x7FFFFFFE ∧
      (guardedIndex.increment (1 : Int16).toInt 0).HoldsWord (fun _ => .intMax 32)
        (0x7FFFFFFE + .ofInt 32 (1 : Int16).toInt) := by
  have less : (0x7FFFFFFE : Word).toInt < (BitVec.intMax 32).toInt := by decide
  have left : guardedIndex.HoldsWord (fun _ => .intMax 32) 0x7FFFFFFE :=
    ⟨by decide, fun _ _ => less, fun _ member => absurd member Std.ExtTreeSet.not_mem_empty⟩
  have right : arrayLength.HoldsWord (fun _ => .intMax 32) (.intMax 32) :=
    ⟨by decide, fun _ member => absurd member Std.ExtTreeSet.not_mem_empty,
      fun _ _ => Int.le_refl _⟩
  have remainder : ArithmeticOp.rem.onWords 0x7FFFFFFE (.intMax 32) = some 0x7FFFFFFE := by decide
  obtain ⟨operations, counts⟩ := holdsWord_arithmetic left right 0
  refine ⟨left, right, (operations .rem _ remainder).mpr fun leaves => leaves.2.2,
    (counts 1).mpr ?_⟩
  rintro (⟨-, leaves⟩ | ⟨down, -⟩)
  · exact absurd leaves (by decide)
  · exact absurd down (by decide)

/-- Sums, products and counts of words do not always respect what variables say. -/
theorem not_holdsWord_arithmetic :
    (arrayLength.HoldsWord (fun _ => .intMax 32) (.intMax 32) ∧
      arrayLength.HoldsWord (fun _ => .intMax 32) 1 ∧
      ¬(binary .add arrayLength arrayLength .int 0).HoldsWord (fun _ => .intMax 32)
        (.intMax 32 + 1)) ∧
    (arrayLength.HoldsWord (fun _ => .intMax 32) 0xB505 ∧
      ¬(binary .mul arrayLength arrayLength .int 0).HoldsWord (fun _ => .intMax 32)
        (0xB505 * 0xB505)) ∧
    ¬(arrayLength.increment 1 0).HoldsWord (fun _ => .intMax 32) (.intMax 32 + .ofInt 32 1) ∧
    ({ below := {0} } : Variable).HoldsWord (fun _ => 0) (.intMin 32) ∧
      ¬(({ below := {0} } : Variable).increment (-1) 0).HoldsWord (fun _ => 0)
        (.intMin 32 + .ofInt 32 (-1)) := by
  have greatest (word : Word) : word.toInt ≤ (BitVec.intMax 32).toInt := by
    have limit : (BitVec.intMax 32).toInt = 2 ^ 31 - 1 := by decide
    have := word.toInt_bounds
    omega
  have length (word : Word) (positive : 0 < word.toInt) :
      arrayLength.HoldsWord (fun _ => .intMax 32) word :=
    ⟨positive, fun _ member => absurd member Std.ExtTreeSet.not_mem_empty, fun _ _ => greatest word⟩
  have negative : (BitVec.intMin 32).toInt < (0 : Word).toInt := by decide
  refine ⟨⟨length _ (by decide), length _ (by decide), fun sum => ?_⟩,
    ⟨length _ (by decide), fun product => ?_⟩, fun next => ?_,
    ⟨trivial, fun _ _ => negative, fun _ member => absurd member Std.ExtTreeSet.not_mem_empty⟩,
    fun previous => ?_⟩
  · exact absurd sum.sign (by decide)
  · exact absurd product.sign (by decide)
  · exact absurd next.sign (by decide)
  · have member : 0 ∈ (({ below := {0} } : Variable).increment (-1) 0).below :=
      Std.ExtTreeSet.mem_union_iff.mpr (.inl (by simp))
    exact absurd (previous.below 0 member) (by decide)

end Variable

end ArrayBounds
