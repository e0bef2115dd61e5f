import ArrayBounds.Proofs.Soundness.Concrete

/-! # What a variable says about a number

A valuation gives a value to every variable. A variable holds of a number under a valuation if the
number has the variable's sign and respects its bounds, a bound on an array being a bound on its
length. Every operation on variables keeps that: if the operands hold of their numbers, the result
holds of the result.
-/

namespace ArrayBounds

open Program

/-! ## Signs -/

namespace Sign

/-- The number has the sign. -/
def Contains : Sign → Int → Prop
  | bottom, _ => False
  | positive, number => 0 < number
  | nonNegative, number => 0 ≤ number
  | top, _ => True

variable {a b : Sign} {m n : Int}

/-- Signs can be compared. -/
theorem le_of_not_le (above : ¬b ≤ a) : a ≤ b := by
  change a.rank ≤ b.rank
  have above : ¬b.rank ≤ a.rank := above
  omega

/-- A sign that knows less contains more numbers. -/
theorem Contains.mono (below : a ≤ b) (holds : a.Contains n) : b.Contains n := by
  have ranks : a.rank ≤ b.rank := below
  cases a <;> cases b <;> simp only [rank, Contains] at ranks holds ⊢ <;> omega

/-- A meet contains what both signs contain. -/
private theorem contains_meet : (a.meet b).Contains n ↔ a.Contains n ∧ b.Contains n := by
  unfold meet
  split
  case isTrue below => exact ⟨fun holds => ⟨holds.mono below, holds⟩, And.right⟩
  case isFalse above => exact ⟨fun holds => ⟨holds, holds.mono (le_of_not_le above)⟩, And.left⟩

/-- Numbers of a sign that rules out negative ones are not negative. -/
theorem Contains.nonneg (holds : a.Contains n) (known : a.isNonNegative = true) : 0 ≤ n := by
  cases a with
  | positive => exact Int.le_of_lt holds
  | nonNegative => exact holds
  | bottom | top => cases known

/-- The sign of a number contains the number. -/
theorem contains_ofInt (n : Int) : (ofInt n).Contains n := by
  unfold ofInt
  split
  · assumption
  · split
    · simp only [Contains]
      omega
    · trivial

/-- The sum of two signs contains the sums of their numbers. -/
theorem Contains.add (left : a.Contains m) (right : b.Contains n) : (a.add b).Contains (m + n) := by
  cases a <;> cases b <;>
    simp only [Contains, Sign.add, isNonNegative, Bool.and_self, Bool.and_false, Bool.false_and,
    ↓reduceIte, Bool.false_eq_true] at left right ⊢ <;> omega

/-- The product of two signs contains the products of their numbers. -/
theorem Contains.mul (left : a.Contains m) (right : b.Contains n) : (a.mul b).Contains (m * n) := by
  have whole (sign : 0 ≤ m ∧ 0 ≤ n) : 0 ≤ m * n := Int.mul_nonneg sign.1 sign.2
  have strict (sign : 0 < m ∧ 0 < n) : 0 < m * n := Int.mul_pos sign.1 sign.2
  cases a <;> cases b <;>
    simp only [Contains, Sign.mul, isNonNegative, Bool.and_self, Bool.and_false, Bool.false_and,
    ↓reduceIte, Bool.false_eq_true] at left right ⊢ <;>
    first | exact whole ⟨by omega, by omega⟩ | exact strict ⟨left, right⟩

/-- A quotient of which the sign is not known may be anything. -/
theorem div_eq_top (unknown : a.div b ≠ .nonNegative) : a.div b = .top := by
  unfold div at unknown ⊢
  split <;> simp_all

/-- A quotient or remainder has a sign only if neither operand is negative. -/
theorem Contains.of_div_nonNegative (left : a.Contains m) (right : b.Contains n)
    (known : a.div b = .nonNegative) : 0 ≤ m ∧ 0 ≤ n := by
  cases a <;> cases b <;> simp only [Contains, Sign.div, reduceCtorEq] at left right known ⊢ <;>
    omega

end Sign

/-! ## Variables -/

/-- A value for each variable. -/
abbrev Valuation := VarId → Value

/-- The variable holds of a number: the number has its sign and respects its bounds. -/
structure Variable.Holds (v : Variable) (valuation : Valuation) (number : Int) : Prop where
  sign : v.sign.Contains number
  below : ∀ target ∈ v.below, number < (valuation target).magnitude
  atMost : ∀ target ∈ v.atMost, number ≤ (valuation target).magnitude

/-! ## Comparisons of numbers -/

private theorem Program.Comparison.compares_negate (comparison : Comparison) (a b : Int) :
    comparison.negate.compares a b = !comparison.compares a b := by
  cases comparison <;> simp only [negate, compares, ne_eq, decide_not, Bool.not_not] <;>
    rw [← decide_not, decide_eq_decide] <;> omega

/-- On each side of a branch, the comparison for that side holds. -/
theorem Program.Comparison.compares_side (comparison : Comparison) (a b : Int) :
    (if comparison.compares a b then comparison else comparison.negate).compares a b = true := by
  split
  case isTrue holds => exact holds
  case isFalse fails => rw [compares_negate, Bool.eq_false_iff.mpr fails, Bool.not_false]

/-- The sign that a comparison with zero establishes is right. -/
theorem Sign.contains_given {comparison : Comparison} {sign known : Sign} {n : Int}
    (given : Sign.given comparison sign = some known) (compares : comparison.compares n 0 = true)
    (holds : sign.Contains n) : known.Contains n := by
  have meets {other : Sign} (same : sign.meet other = known) (also : other.Contains n) :
      known.Contains n :=
    same ▸ contains_meet.mpr ⟨holds, also⟩
  cases comparison with
  | eq =>
      have zero : n = 0 := of_decide_eq_true compares
      exact meets (Option.some.inj given) (Int.le_of_eq zero.symm)
  | ge => exact meets (Option.some.inj given) (show 0 ≤ n from of_decide_eq_true compares)
  | gt => exact meets (Option.some.inj given) (show 0 < n from of_decide_eq_true compares)
  | le =>
      obtain rfl := Option.some.inj given
      split
      case isTrue known => exact holds.nonneg known
      case isFalse => trivial
  | lt =>
      obtain rfl := Option.some.inj given
      trivial
  | ne => cases given

/-- The relation holds between two numbers. -/
def Frame.Relation.Relates : Frame.Relation → Int → Int → Prop
  | .lt, m, n => m < n
  | .le, m, n => m ≤ n
  | .gt, m, n => n < m
  | .ge, m, n => n ≤ m
  | .eq, m, n => m = n

/-- The relation that a comparison establishes is right. -/
theorem Program.Comparison.relates {comparison : Comparison} {relation : Frame.Relation} {a b : Int}
    (found : comparison.relation? = some relation) (holds : comparison.compares a b = true) :
    relation.Relates a b := by
  cases comparison with
  | ne => cases found
  | _ =>
      obtain rfl := Option.some.inj found
      simpa only [compares, decide_eq_true_eq, Frame.Relation.Relates] using holds

/-- A relation can be read from the other side. -/
theorem Frame.Relation.Relates.flip {relation : Frame.Relation} {a b : Int}
    (relates : relation.Relates a b) : relation.flip.Relates b a := by
  cases relation with
  | eq => exact Eq.symm relates
  | _ => exact relates

namespace Variable

variable {v other lhs rhs : Variable} {valuation : Valuation} {m n : Int}

/-- A variable without bounds holds of the numbers of its sign. -/
theorem holds_of_unbounded (below : v.below = ∅) (atMost : v.atMost = ∅)
    (sign : v.sign.Contains n) :
    v.Holds valuation n where
  sign := sign
  below _ member := absurd (below ▸ member) Std.ExtTreeSet.not_mem_empty
  atMost _ member := absurd (atMost ▸ member) Std.ExtTreeSet.not_mem_empty

/-- A variable of which nothing is known holds of every number. -/
theorem holds_unknown (type : Option FieldType) (definedAt : Nat) (n : Int) :
    (unknown type definedAt).Holds valuation n :=
  holds_of_unbounded rfl rfl trivial

/-- Only the sign and the bounds of a variable matter. -/
theorem Holds.congr (holds : v.Holds valuation n) (sign : other.sign = v.sign)
    (below : other.below = v.below) (atMost : other.atMost = v.atMost) :
    other.Holds valuation n where
  sign := sign ▸ holds.sign
  below := below ▸ holds.below
  atMost := atMost ▸ holds.atMost

/-- A number that is in bounds may be marked as such. -/
theorem Holds.markBelow (holds : v.Holds valuation n) {array : VarId}
    (inBounds : n < (valuation array).magnitude) :
    (v.markBelow array).Holds valuation n where
  sign := holds.sign
  below target member := by
    simp only [Variable.markBelow, Std.ExtTreeSet.mem_insert, Std.LawfulEqCmp.compare_eq_iff_eq]
      at member
    obtain rfl | member := member
    · exact inBounds
    · exact holds.below target member
  atMost := holds.atMost

/-! ## Comparisons -/

/-- A variable that is less than another still holds its value. -/
private theorem Holds.refineLt (holds : v.Holds valuation m) (right : other.Holds valuation n)
    (less : m < n) :
    (v.refineLt other).Holds valuation m where
  sign := holds.sign
  below target member := by
    simp only [Variable.refineLt, Std.ExtTreeSet.mem_union_iff] at member
    obtain (member | member) | member := member
    · exact holds.below target member
    · exact Int.lt_trans less (right.below target member)
    · exact Int.lt_of_lt_of_le less (right.atMost target member)
  atMost := holds.atMost

/-- A variable that is at most another still holds its value. -/
private theorem Holds.refineLe (holds : v.Holds valuation m) (right : other.Holds valuation n)
    (less : m ≤ n) :
    (v.refineLe other).Holds valuation m where
  sign := holds.sign
  below target member := by
    simp only [Variable.refineLe, Std.ExtTreeSet.mem_union_iff] at member
    obtain member | member := member
    · exact holds.below target member
    · exact Int.lt_of_le_of_lt less (right.below target member)
  atMost target member := by
    simp only [Variable.refineLe, Std.ExtTreeSet.mem_union_iff] at member
    obtain member | member := member
    · exact holds.atMost target member
    · exact Int.le_trans less (right.atMost target member)

/-- A stronger sign that the number has may be recorded. -/
theorem Holds.meet (holds : v.Holds valuation m) {sign : Sign} (known : sign.Contains m) :
    Holds { v with sign := v.sign.meet sign } valuation m where
  sign := Sign.contains_meet.mpr ⟨holds.sign, known⟩
  below := holds.below
  atMost := holds.atMost

/-- A variable that is greater than another still holds its value. -/
private theorem Holds.refineGt (holds : v.Holds valuation m) (right : other.Holds valuation n)
    (greater : n < m) : (v.refineGt other).Holds valuation m := by
  unfold Variable.refineGt
  split
  case isTrue known =>
    have lower := right.sign.nonneg known
    exact holds.meet (show 0 < m by omega)
  case isFalse => exact holds

/-- A variable that is at least another still holds its value. -/
private theorem Holds.refineGe (holds : v.Holds valuation m) (right : other.Holds valuation n)
    (greater : n ≤ m) : (v.refineGe other).Holds valuation m := by
  unfold Variable.refineGe
  split
  case isTrue known =>
    refine holds.meet ?_
    have lower := right.sign
    cases sign : other.sign with
    | positive =>
        rw [sign] at lower
        exact Int.lt_of_lt_of_le lower greater
    | nonNegative =>
        rw [sign] at lower
        exact Int.le_trans lower greater
    | bottom | top =>
        rw [sign] at known
        cases known
  case isFalse => exact holds

/-- What a value gains from a relation that holds is true of it. -/
theorem Holds.refine (holds : v.Holds valuation m) (right : other.Holds valuation n)
    {relation : Frame.Relation} (relates : relation.Relates m n) :
    (relation.refine v other).Holds valuation m := by
  cases relation with
  | lt => exact holds.refineLt right relates
  | le => exact holds.refineLe right relates
  | gt => exact holds.refineGt right relates
  | ge => exact holds.refineGe right relates
  | eq =>
      obtain rfl : m = n := relates
      exact (holds.refineLe right (Int.le_refl m)).meet right.sign

/-! ## Arithmetic -/

/-- The variable after an increment holds of the number after it. -/
theorem Holds.increment (holds : v.Holds valuation n) (delta : Int) (definedAt : Nat) :
    (v.increment delta definedAt).Holds valuation (n + delta) := by
  have known := holds.sign
  -- Adding a positive number makes what is not negative positive, and leaves every other sign
  -- alone.
  have grown (positive : 0 < delta) :
      (if v.sign = .nonNegative then .positive else v.sign : Sign).Contains (n + delta) := by
    cases sign : v.sign <;> simp only [sign, Sign.Contains, ↓reduceIte, reduceCtorEq] at known ⊢ <;>
      omega
  unfold Variable.increment
  dsimp only
  split
  case isTrue zero =>
    rw [zero, Int.add_zero]
    exact holds.congr rfl rfl rfl
  case isFalse =>
    split
    case isTrue one =>
      subst one
      refine ⟨grown (by omega), fun target member => absurd member Std.ExtTreeSet.not_mem_empty, ?_⟩
      intro target member
      have bound := holds.below target member
      omega
    case isFalse =>
      split
      case isTrue one =>
        subst one
        refine ⟨?_, ?_, fun target member => absurd member Std.ExtTreeSet.not_mem_empty⟩
        · cases sign : v.sign with
          | bottom =>
              rw [sign] at known
              exact known
          | positive =>
              rw [sign] at known
              simp only [Sign.Contains] at known ⊢
              omega
          | nonNegative | top => trivial
        · intro target member
          obtain member | member := Std.ExtTreeSet.mem_union_iff.mp member
          · have bound := holds.below target member
            omega
          · have bound := holds.atMost target member
            omega
      case isFalse =>
        split
        case isTrue large => exact holds_of_unbounded rfl rfl (grown (by omega))
        case isFalse => exact holds_of_unbounded rfl rfl trivial

/-- A result between zero and a number that is not negative takes over the bounds of that number. -/
theorem Holds.boundedBy {result : Variable} (holds : result.Holds valuation m)
    (right : v.Holds valuation n) (between : 0 ≤ n → 0 ≤ m ∧ m ≤ n) :
    (result.boundedBy v).Holds valuation m := by
  unfold Variable.boundedBy
  split
  case isFalse => exact holds
  case isTrue known =>
    obtain ⟨lower, upper⟩ := between (right.sign.nonneg known)
    refine ⟨lower, ?_, ?_⟩
    · intro target member
      obtain member | member := Std.ExtTreeSet.mem_union_iff.mp member
      · exact holds.below target member
      · exact Int.lt_of_le_of_lt upper (right.below target member)
    · intro target member
      obtain member | member := Std.ExtTreeSet.mem_union_iff.mp member
      · exact holds.atMost target member
      · exact Int.le_trans upper (right.atMost target member)

/-- A quotient keeps the bounds that both operands share. -/
theorem Holds.quotient (left : lhs.Holds valuation m) (right : rhs.Holds valuation n)
    (kind : NumericKind) (definedAt : Nat) :
    (binary .div lhs rhs kind definedAt).Holds valuation (m.tdiv n) := by
  unfold binary
  dsimp only
  split
  case isTrue known =>
    obtain ⟨lower, divisor⟩ := left.sign.of_div_nonNegative right.sign known
    have upper := Int.tdiv_le_self n lower
    refine ⟨?_, ?_, ?_⟩
    · rw [known]
      exact Int.tdiv_nonneg lower divisor
    · intro target member
      exact Int.lt_of_le_of_lt upper (left.below target (Std.ExtTreeSet.mem_inter_iff.mp member).1)
    · intro target member
      exact Int.le_trans upper (left.atMost target (Std.ExtTreeSet.mem_inter_iff.mp member).1)
  case isFalse other =>
    rw [Sign.div_eq_top other]
    exact holds_unknown _ _ _

/-- A remainder is less than the divisor, besides the bounds that both operands share. -/
theorem Holds.remainder (left : lhs.Holds valuation m) (right : rhs.Holds valuation n)
    (kind : NumericKind) (definedAt : Nat) (divides : n ≠ 0) :
    (binary .rem lhs rhs kind definedAt).Holds valuation (m.tmod n) := by
  unfold binary
  dsimp only
  split
  case isTrue known =>
    obtain ⟨lower, divisor⟩ := left.sign.of_div_nonNegative right.sign known
    have strict : m.tmod n < n := Int.tmod_lt_of_pos m (by omega)
    have upper : m.tmod n ≤ m := by
      have parts := Int.tmod_add_mul_tdiv m n
      have quotient := Int.mul_nonneg divisor (Int.tdiv_nonneg lower divisor)
      omega
    refine ⟨?_, ?_, ?_⟩
    · rw [known]
      exact Int.tmod_nonneg n lower
    · intro target member
      simp only [Std.ExtTreeSet.mem_union_iff, Std.ExtTreeSet.mem_inter_iff] at member
      obtain (member | member) | member := member
      · exact Int.lt_of_le_of_lt upper (left.below target member.1)
      · exact Int.lt_trans strict (right.below target member)
      · exact Int.lt_of_lt_of_le strict (right.atMost target member)
    · intro target member
      exact Int.le_trans upper (left.atMost target (Std.ExtTreeSet.mem_inter_iff.mp member).1)
  case isFalse other =>
    rw [Sign.div_eq_top other]
    exact holds_unknown _ _ _

end Variable

/-- Clearing bits makes no number greater. -/
private theorem ldiff_le (m n : Nat) : m.ldiff n ≤ m := by
  have within : m &&& m.ldiff n = m.ldiff n := by
    apply Nat.eq_of_testBit_eq
    intro i
    simp only [Nat.testBit_and, Nat.testBit_ldiff]
    cases m.testBit i <;> rfl
  exact within ▸ Nat.and_le_left

/-- The conjunction with a number that is not negative lies between zero and that number. -/
private theorem land_le_left {a : Int} (b : Int) (nonneg : 0 ≤ a) :
    0 ≤ a.land b ∧ a.land b ≤ a := by
  obtain ⟨m, rfl⟩ := Int.eq_ofNat_of_zero_le nonneg
  cases b with
  | ofNat n => exact ⟨Int.natCast_nonneg _, Int.ofNat_le.mpr Nat.and_le_left⟩
  | negSucc n => exact ⟨Int.natCast_nonneg _, Int.ofNat_le.mpr (ldiff_le m n)⟩

/-- The same holds of the second operand. -/
private theorem land_le_right (a : Int) {b : Int} (nonneg : 0 ≤ b) :
    0 ≤ a.land b ∧ a.land b ≤ b := by
  obtain ⟨n, rfl⟩ := Int.eq_ofNat_of_zero_le nonneg
  cases a with
  | ofNat m => exact ⟨Int.natCast_nonneg _, Int.ofNat_le.mpr Nat.and_le_right⟩
  | negSucc m => exact ⟨Int.natCast_nonneg _, Int.ofNat_le.mpr (ldiff_le n m)⟩

/-- Shifting a number that is not negative to the right gives one that is not negative and not
larger. -/
theorem shift_le {a : Int} (shift : Nat) (nonneg : 0 ≤ a) : 0 ≤ a / 2 ^ shift ∧ a / 2 ^ shift ≤ a :=
  ⟨Int.ediv_nonneg nonneg (Int.le_of_lt (Int.pow_pos (by omega))), Int.ediv_le_self _ nonneg⟩

private theorem emod_le {a b : Int} (nonneg : 0 ≤ a) (positive : 0 < b) :
    0 ≤ a % b ∧ a % b ≤ a := by
  have parts := Int.emod_add_mul_ediv a b
  have quotient :=
    Int.mul_nonneg (Int.le_of_lt positive) (Int.ediv_nonneg nonneg (Int.le_of_lt positive))
  exact ⟨Int.emod_nonneg a (by omega), by omega⟩

namespace Variable

variable {v other lhs rhs : Variable} {valuation : Valuation} {m n : Int}

/-- The result of an operation holds of the result of the operation. -/
theorem Holds.binary {op : ArithmeticOp} {width : Nat} {a b : Int} (left : lhs.Holds valuation a)
    (right : rhs.Holds valuation b) (evaluated : op.evaluate width a b = some n)
    (kind : NumericKind) (definedAt : Nat) :
    (Variable.binary op lhs rhs kind definedAt).Holds valuation n := by
  cases op with
  | add =>
      obtain rfl := Option.some.inj evaluated
      exact holds_of_unbounded rfl rfl (left.sign.add right.sign)
  | mul =>
      obtain rfl := Option.some.inj evaluated
      exact holds_of_unbounded rfl rfl (left.sign.mul right.sign)
  | div =>
      obtain ⟨-, evaluated⟩ := Option.ite_none_left_eq_some.mp evaluated
      obtain rfl := Option.some.inj evaluated
      exact left.quotient right kind definedAt
  | rem =>
      obtain ⟨divides, evaluated⟩ := Option.ite_none_left_eq_some.mp evaluated
      obtain rfl := Option.some.inj evaluated
      exact left.remainder right kind definedAt divides
  | and =>
      obtain rfl := Option.some.inj evaluated
      exact ((holds_unknown _ _ _).boundedBy left (land_le_left b)).boundedBy right
        (land_le_right a)
  | shr =>
      obtain rfl := Option.some.inj evaluated
      exact (holds_unknown _ _ _).boundedBy left (shift_le _)
  | ushr =>
      obtain rfl := Option.some.inj evaluated
      refine (holds_unknown _ _ _).boundedBy left fun nonneg => ?_
      split
      · exact ⟨nonneg, Int.le_refl a⟩
      · have positive : (0 : Int) < 2 ^ width := Int.pow_pos (by omega)
        obtain ⟨lower, upper⟩ := emod_le nonneg positive
        obtain ⟨shifted, smaller⟩ := shift_le (b % width).toNat lower
        exact ⟨shifted, Int.le_trans smaller upper⟩
  | sub | neg | shl | or | xor => exact holds_unknown _ _ _

/-- The result of converting an integer holds of the converted number. -/
theorem Holds.convert {source : NumericKind} {target : ConversionTarget} {operand result : Value}
    (holds : v.Holds valuation n) (integral : source.value? n = some operand)
    (evaluated : target.evaluate n = some result) (definedAt : Nat) :
    (v.convert source target definedAt).Holds valuation result.magnitude := by
  have widened (widening : isWidening source target = true) : result.magnitude = n := by
    cases source with
    | float | double => cases integral
    | int =>
        cases target with
        | long =>
            obtain rfl := Option.some.inj evaluated
            rfl
        | float | double => cases evaluated
        | _ => cases widening
    | long =>
        cases target with
        | float | double => cases evaluated
        | _ => cases widening
  have truncated (truncating : isTruncating source target = true) (nonneg : 0 ≤ n) :
      0 ≤ result.magnitude ∧ result.magnitude ≤ n := by
    cases source with
    | float | double => cases integral
    | int =>
        cases target with
        | char =>
            obtain rfl := Option.some.inj evaluated
            exact emod_le nonneg (by decide)
        | _ => cases truncating
    | long => cases target <;> cases truncating
  unfold Variable.convert
  dsimp only
  split
  case isTrue widening =>
    rw [widened widening]
    exact holds.congr rfl rfl rfl
  case isFalse =>
    split
    case isTrue truncating =>
      obtain ⟨truncating, known⟩ := Bool.and_eq_true_iff.mp truncating
      obtain ⟨lower, upper⟩ := truncated truncating (holds.sign.nonneg known)
      refine ⟨lower, ?_, ?_⟩
      · exact fun target member => Int.lt_of_le_of_lt upper (holds.below target member)
      · exact fun target member => Int.le_trans upper (holds.atMost target member)
    case isFalse =>
      split
      case isTrue empty =>
        have impossible := holds.sign
        rw [empty] at impossible
        exact impossible.elim
      case isFalse => exact holds_of_unbounded rfl rfl trivial

/-! ## Bounds -/

/-- The variable with the number `target` is a bound. -/
def IsBound (v : Variable) (target : VarId) : Prop :=
  target ∈ v.below ∨ target ∈ v.atMost

/-- A variable without bounds has no bound. -/
theorem not_isBound_of_unbounded {target : VarId} (below : v.below = ∅) (atMost : v.atMost = ∅) :
    ¬v.IsBound target := by
  rintro (member | member)
  · exact Std.ExtTreeSet.not_mem_empty (below ▸ member)
  · exact Std.ExtTreeSet.not_mem_empty (atMost ▸ member)

/-- A refined variable has no bounds but those of the two variables. -/
theorem IsBound.refine {relation : Frame.Relation} {target : VarId}
    (bound : (relation.refine v other).IsBound target) :
    v.IsBound target ∨ other.IsBound target := by
  unfold IsBound at *
  cases relation with
  | lt | le | eq =>
      simp only [Frame.Relation.refine, Variable.refineLt, Variable.refineLe, Variable.refineEq,
        Std.ExtTreeSet.mem_union_iff] at bound
      grind
  | gt | ge =>
      simp only [Frame.Relation.refine, Variable.refineGt, Variable.refineGe] at bound
      split at bound <;> exact .inl bound

/-- An increment adds no bounds. -/
theorem IsBound.increment {delta : Int} {definedAt : Nat} {target : VarId}
    (bound : (v.increment delta definedAt).IsBound target) : v.IsBound target := by
  unfold IsBound Variable.increment at *
  dsimp only at bound
  split at bound
  · exact bound
  · split at bound
    · exact .inl (bound.resolve_left Std.ExtTreeSet.not_mem_empty)
    · split at bound
      · exact Std.ExtTreeSet.mem_union_iff.mp (bound.resolve_right Std.ExtTreeSet.not_mem_empty)
      · split at bound <;> exact absurd bound (not_isBound_of_unbounded rfl rfl)

/-- The bounds of a bounded result are its own and those of the variable. -/
private theorem IsBound.boundedBy {result : Variable} {target : VarId}
    (bound : (result.boundedBy v).IsBound target) : result.IsBound target ∨ v.IsBound target := by
  unfold IsBound Variable.boundedBy at *
  split at bound
  · simp only [Std.ExtTreeSet.mem_union_iff] at bound
    grind
  · exact .inl bound

/-- Arithmetic adds no bounds to those of its operands. -/
theorem IsBound.binary {op : ArithmeticOp} {kind : NumericKind} {definedAt : Nat} {target : VarId}
    (bound : (Variable.binary op lhs rhs kind definedAt).IsBound target) :
    lhs.IsBound target ∨ rhs.IsBound target := by
  have nothing : ¬(unknown (some kind.type) definedAt).IsBound target :=
    not_isBound_of_unbounded rfl rfl
  unfold Variable.binary at bound
  cases op with
  | div | rem =>
      dsimp only at bound
      split at bound
      · simp only [IsBound, Std.ExtTreeSet.mem_union_iff, Std.ExtTreeSet.mem_inter_iff] at bound ⊢
        grind
      · exact absurd bound nothing
  | and =>
      obtain bound | bound := bound.boundedBy
      · exact .inl (bound.boundedBy.resolve_left nothing)
      · exact .inr bound
  | shr | ushr => exact .inl (bound.boundedBy.resolve_left nothing)
  | _ => exact absurd bound nothing

/-- A conversion adds no bounds. -/
theorem IsBound.convert {source : NumericKind} {target : ConversionTarget}
    {definedAt : Nat} {id : VarId} (bound : (v.convert source target definedAt).IsBound id) :
    v.IsBound id := by
  unfold Variable.convert at bound
  dsimp only at bound
  split at bound
  · exact bound
  · split at bound
    · exact bound
    · split at bound
      · exact bound
      · exact absurd bound (not_isBound_of_unbounded rfl rfl)

end Variable

end ArrayBounds
