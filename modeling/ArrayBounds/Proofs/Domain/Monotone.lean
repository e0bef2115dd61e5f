import ArrayBounds.Proofs.Domain.Closed

/-! # Knowing more about the operands

A variable refines another one if its sign is at or below the other's sign and it has all of the
other's bounds (`ArrayBounds.Variable.Refines`). Repeating a loop or a recursive method until
nothing changes makes sense only if no rule of the analysis says more about operands of which less
is known. This is so for all rules (`ArrayBounds.Variable.refines_of_operands`), as long as no
operand is impossible.

Whether a rule passes bounds on depends on signs: it does so for operands that are not negative.
What carries the proofs is that a rule which is switched on for an operand is switched on for every
possible operand that refines it (`ArrayBounds.Sign.isNonNegative_of_le`).
-/

namespace ArrayBounds

open Program

/-! ## Signs -/

namespace Sign

/-- What holds of all signs can be found out by looking at each of them. -/
instance (p : Sign → Prop) [DecidablePred p] : Decidable (∀ sign, p sign) :=
  decidable_of_iff (p .bottom ∧ p .positive ∧ p .nonNegative ∧ p .top)
    ⟨fun each sign => Sign.casesOn sign each.1 each.2.1 each.2.2.1 each.2.2.2,
      fun all => ⟨all _, all _, all _, all _⟩⟩

/-- A possible sign below one that is not negative is not negative. -/
theorem isNonNegative_of_le :
    ∀ {a b : Sign}, a ≤ b → a ≠ .bottom → b.isNonNegative = true → a.isNonNegative = true := by
  decide

private theorem meet_le_meet : ∀ {a a' b b' : Sign}, a ≤ a' → b ≤ b' → a.meet b ≤ a'.meet b' := by
  decide

private theorem meet_le_left : ∀ a b : Sign, a.meet b ≤ a := by
  decide

private theorem le_top : ∀ sign : Sign, sign ≤ .top := by
  decide

private theorem add_le_add :
    ∀ {a a' b b' : Sign}, a ≤ a' → b ≤ b' → a ≠ .bottom → b ≠ .bottom → a.add b ≤ a'.add b' := by
  decide

-- An impossible summand leaves the sum unknown, so impossible operands have to be excluded.
example : ¬add .bottom .positive ≤ add .positive .positive := by decide

private theorem mul_le_mul :
    ∀ {a a' b b' : Sign}, a ≤ a' → b ≤ b' → a ≠ .bottom → b ≠ .bottom → a.mul b ≤ a'.mul b' := by
  decide

private theorem div_le_div : ∀ {a a' b b' : Sign}, a ≤ a' → b ≤ b' → a.div b ≤ a'.div b' := by
  decide

/-- What a comparison with zero tells does not become more when less is known. -/
theorem given_le_given {a a' : Sign} (le : a ≤ a') (possible : a ≠ .bottom)
    (comparison : Comparison) : Option.Rel (· ≤ ·) (given comparison a) (given comparison a') := by
  cases comparison with
  | eq | ge => exact .some (meet_le_meet le (Nat.le_refl _))
  | gt => exact .some (meet_le_meet le (Nat.le_refl _))
  | lt => exact .some (Nat.le_refl _)
  | ne => exact .none
  | le =>
      refine .some ?_
      by_cases known : a'.isNonNegative = true
      · rw [if_pos known, if_pos (isNonNegative_of_le le possible known)]
        exact Nat.le_refl _
      · rw [if_neg known]
        exact le_top _

/-- A step forward turns a number that is not negative into a positive one. -/
theorem raised_le_raised : ∀ {a a' : Sign}, a ≤ a' →
    (if a = .nonNegative then .positive else a) ≤
      (if a' = .nonNegative then .positive else a') := by
  decide

private theorem div_eq_of_le :
    ∀ {a a' b b' : Sign}, a ≤ a' → b ≤ b' → a'.div b' = .nonNegative → a.div b = .nonNegative := by
  decide

end Sign

/-! ## Variables -/

namespace Variable

/-- At least as much is known about a value as about another one. -/
structure Refines (v w : Variable) : Prop where
  sign : v.sign ≤ w.sign
  below : ∀ target ∈ w.below, target ∈ v.below
  atMost : ∀ target ∈ w.atMost, target ∈ v.atMost

variable {v v' w w' result result' : Variable}

/-- A variable without bounds is refined by every one whose sign is at or below its own. -/
theorem Refines.of_unbounded (sign : v.sign ≤ w.sign) (below : w.below = ∅)
    (atMost : w.atMost = ∅) : v.Refines w where
  sign := sign
  below _ member := absurd (below ▸ member) Std.ExtTreeSet.not_mem_empty
  atMost _ member := absurd (atMost ▸ member) Std.ExtTreeSet.not_mem_empty

/-- A rule that is switched on for the operands of which more is known whenever it is for the
others. Where it is on for the former only, what it gives has to refine what is there without it. -/
theorem Refines.ite {on on' : Prop} [Decidable on] [Decidable on'] (keeps : on' → on)
    (both : on' → v.Refines v') (first : v.Refines w') (neither : w.Refines w') :
    (if on then v else w).Refines (if on' then v' else w') := by
  by_cases known : on'
  · rw [if_pos known, if_pos (keeps known)]
    exact both known
  · rw [if_neg known]
    split
    · exact first
    · exact neither

/-- Unions of fewer bounds have fewer bounds. -/
private theorem mem_union_mono {a a' b b' : Bounds} (left : ∀ target ∈ a', target ∈ a)
    (right : ∀ target ∈ b', target ∈ b) : ∀ target ∈ a' ∪ b', target ∈ a ∪ b := by
  intro target member
  rw [Std.ExtTreeSet.mem_union_iff] at member ⊢
  exact member.imp (left target) (right target)

/-- Intersections of fewer bounds have fewer bounds. -/
private theorem mem_inter_mono {a a' b b' : Bounds} (left : ∀ target ∈ a', target ∈ a)
    (right : ∀ target ∈ b', target ∈ b) : ∀ target ∈ a' ∩ b', target ∈ a ∩ b := by
  intro target member
  rw [Std.ExtTreeSet.mem_inter_iff] at member ⊢
  exact member.imp (left target) (right target)

/-- A comparison tells no more when less is known about either side. -/
theorem Refines.refine (self : v.Refines v') (other : w.Refines w') (possible : w.sign ≠ .bottom)
    (relation : Frame.Relation) : (relation.refine v w).Refines (relation.refine v' w') := by
  cases relation with
  | lt =>
      exact ⟨self.sign, mem_union_mono (mem_union_mono self.below other.below) other.atMost,
        self.atMost⟩
  | le =>
      exact ⟨self.sign, mem_union_mono self.below other.below,
        mem_union_mono self.atMost other.atMost⟩
  | eq =>
      exact ⟨Sign.meet_le_meet self.sign other.sign, mem_union_mono self.below other.below,
        mem_union_mono self.atMost other.atMost⟩
  | gt =>
      refine .ite (Sign.isNonNegative_of_le other.sign possible) (fun _ => ?_) ?_ self
      · exact ⟨Sign.meet_le_meet self.sign (Nat.le_refl _), self.below, self.atMost⟩
      · exact ⟨Nat.le_trans (Sign.meet_le_left _ _) self.sign, self.below, self.atMost⟩
  | ge =>
      refine .ite (Sign.isNonNegative_of_le other.sign possible) (fun _ => ?_) ?_ self
      · exact ⟨Sign.meet_le_meet self.sign other.sign, self.below, self.atMost⟩
      · exact ⟨Nat.le_trans (Sign.meet_le_left _ _) self.sign, self.below, self.atMost⟩

/-- Increments are monotone. -/
private theorem Refines.increment (self : v.Refines v') (delta : Int) (definedAt : Nat) :
    (v.increment delta definedAt).Refines (v'.increment delta definedAt) := by
  obtain ⟨sign, below, atMost⟩ := self
  unfold Variable.increment
  dsimp only
  generalize v.sign = a at sign ⊢
  generalize v'.sign = a' at sign ⊢
  split
  · exact ⟨sign, below, atMost⟩
  split
  · exact ⟨Sign.raised_le_raised sign, fun _ => id, below⟩
  split
  · refine ⟨?_, mem_union_mono below atMost, fun _ => id⟩
    dsimp only
    revert a a'
    decide
  split
  · exact .of_unbounded (Sign.raised_le_raised sign) rfl rfl
  · exact .of_unbounded (Nat.le_refl _) rfl rfl

/-- Conversions are monotone. -/
private theorem Refines.convert (self : v.Refines v') (possible : v.sign ≠ .bottom)
    (source : NumericKind) (target : ConversionTarget) (definedAt : Nat) :
    (v.convert source target definedAt).Refines (v'.convert source target definedAt) := by
  unfold Variable.convert
  dsimp only
  split
  · exact ⟨self.sign, self.below, self.atMost⟩
  have keeps (known : (isTruncating source target && v'.sign.isNonNegative) = true) :
      (isTruncating source target && v.sign.isNonNegative) = true := by
    obtain ⟨truncating, known⟩ := Bool.and_eq_true_iff.mp known
    exact Bool.and_eq_true_iff.mpr ⟨truncating, Sign.isNonNegative_of_le self.sign possible known⟩
  rw [if_neg (Sign.ne_bottom_of_le self.sign possible)]
  have nothing (v : Variable) : v.Refines (.unknown target.type definedAt) :=
    .of_unbounded (Sign.le_top _) rfl rfl
  exact .ite keeps (fun _ => ⟨Nat.le_refl _, self.below, self.atMost⟩) (nothing _) (nothing _)

/-! ### Arithmetic -/

/-- Bounding a result is monotone. -/
private theorem Refines.boundedBy (results : result.Refines result') (self : v.Refines v')
    (possible : v.sign ≠ .bottom) (weak : .nonNegative ≤ result'.sign) :
    (result.boundedBy v).Refines (result'.boundedBy v') := by
  refine .ite (Sign.isNonNegative_of_le self.sign possible) (fun _ => ?_) ?_ results
  · exact ⟨Nat.le_refl _, mem_union_mono results.below self.below,
      mem_union_mono results.atMost self.atMost⟩
  · exact ⟨weak,
      fun target member => Std.ExtTreeSet.mem_union_of_left (results.below target member),
      fun target member => Std.ExtTreeSet.mem_union_of_left (results.atMost target member)⟩

/-- A bounded result may be zero or positive if the result may be. -/
private theorem nonNegative_le_boundedBy (weak : .nonNegative ≤ result.sign) (v : Variable) :
    .nonNegative ≤ (result.boundedBy v).sign := by
  unfold boundedBy
  split
  · exact Nat.le_refl _
  · exact weak

/-- Binary operations are monotone. -/
private theorem Refines.binary (left : v.Refines v') (right : w.Refines w')
    (possible : v.sign ≠ .bottom) (possible' : w.sign ≠ .bottom) (op : ArithmeticOp)
    (kind : NumericKind) (definedAt : Nat) :
    (binary op v w kind definedAt).Refines (binary op v' w' kind definedAt) := by
  have nothing :
      (unknown (some kind.type) definedAt).Refines (unknown (some kind.type) definedAt) :=
    .of_unbounded (Nat.le_refl _) rfl rfl
  have weak : .nonNegative ≤ (unknown (some kind.type) definedAt).sign := Sign.le_top _
  unfold Variable.binary
  cases op with
  | sub | neg | shl | or | xor => exact nothing
  | add => exact .of_unbounded (Sign.add_le_add left.sign right.sign possible possible') rfl rfl
  | mul => exact .of_unbounded (Sign.mul_le_mul left.sign right.sign possible possible') rfl rfl
  | div =>
      have sign := Sign.div_le_div left.sign right.sign
      refine .ite (Sign.div_eq_of_le left.sign right.sign) (fun _ => ?_)
        (.of_unbounded sign rfl rfl) (.of_unbounded sign rfl rfl)
      exact ⟨sign, mem_inter_mono left.below right.below, mem_inter_mono left.atMost right.atMost⟩
  | rem =>
      have sign := Sign.div_le_div left.sign right.sign
      refine .ite (Sign.div_eq_of_le left.sign right.sign) (fun _ => ?_)
        (.of_unbounded sign rfl rfl) (.of_unbounded sign rfl rfl)
      exact ⟨sign,
        mem_union_mono
        (mem_union_mono (mem_inter_mono left.below right.below) right.below) right.atMost,
        mem_inter_mono left.atMost right.atMost⟩
  | and =>
      exact (nothing.boundedBy left possible weak).boundedBy right possible'
        (nonNegative_le_boundedBy weak v')
  | shr | ushr => exact nothing.boundedBy left possible weak

/-- The rules of the analysis say no more about operands of which less is known, as long as no
operand is impossible. -/
theorem refines_of_operands (left : v.Refines v') (right : w.Refines w')
    (possible : v.sign ≠ .bottom) (possible' : w.sign ≠ .bottom) :
    (∀ op kind definedAt, (binary op v w kind definedAt).Refines (binary op v' w' kind definedAt)) ∧
      (∀ delta definedAt, (v.increment delta definedAt).Refines (v'.increment delta definedAt)) ∧
      (∀ source target definedAt,
        (v.convert source target definedAt).Refines (v'.convert source target definedAt)) ∧
      (∀ relation : Frame.Relation, (relation.refine v w).Refines (relation.refine v' w')) ∧
      ∀ comparison,
        Option.Rel (· ≤ ·) (Sign.given comparison v.sign) (Sign.given comparison v'.sign) :=
  ⟨left.binary right possible possible', left.increment, left.convert possible,
    left.refine right possible', Sign.given_le_given left.sign possible⟩

/-- A remainder that is bounded only because the dividend is known not to be negative. -/
theorem refines_remainder :
    let dividend : Variable := { sign := .nonNegative, below := {4} }
    let divisor : Variable := { sign := .positive, atMost := {7} }
    let divisor' : Variable := { sign := .nonNegative, atMost := {7} }
    dividend.Refines {} ∧ divisor.Refines divisor' ∧
      (binary .rem dividend divisor .int 0).Refines (binary .rem {} divisor' .int 0) ∧
      7 ∈ (binary .rem dividend divisor .int 0).below ∧
      7 ∉ (binary .rem {} divisor' .int 0).below := by
  intro dividend divisor divisor'
  have left : dividend.Refines {} := .of_unbounded (Sign.le_top _) rfl rfl
  have right : divisor.Refines divisor' := ⟨by decide, fun _ => id, fun _ => id⟩
  obtain ⟨arithmetic, -⟩ := refines_of_operands left right Sign.noConfusion Sign.noConfusion
  exact ⟨left, right, arithmetic .rem .int 0, by decide, by decide⟩

end Variable

end ArrayBounds
