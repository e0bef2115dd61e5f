import ArrayBounds.Domain.Frame

/-! # Conditions as knowledge

On either side of a branch its condition is known to hold, or not to hold. Comparisons of numbers
refine the operands accordingly; conditions on references tell nothing.
-/

namespace ArrayBounds

open Program

/-- The relation that a comparison establishes. Two numbers that differ are in no useful
relation. -/
def Program.Comparison.relation? : Comparison → Option Frame.Relation
  | .eq => some .eq
  | .ne => none
  | .lt => some .lt
  | .le => some .le
  | .gt => some .gt
  | .ge => some .ge

/-- The sign of a number that compares with zero as given; absent if the comparison tells
nothing. -/
def Sign.given : Comparison → Sign → Option Sign
  | .eq, sign | .ge, sign => some (sign.meet .nonNegative)
  | .gt, sign => some (sign.meet .positive)
  | .le, sign => some (if sign.isNonNegative then .nonNegative else .top)
  | .lt, _ => some .top
  | .ne, _ => none

namespace Frame

/-- Refines the operands of a condition, which have been popped, for the side where the condition
holds or for the side where it does not. -/
def assumeCondition (f : Frame) (condition : Condition) (operands : List VarId) (holds : Bool) :
    Frame :=
  match condition, operands with
  | .ints comparison, [lhs, rhs] =>
    let comparison := if holds then comparison else comparison.negate
    match comparison.relation? with
    | some relation => f.assume lhs relation rhs
    | none => f
  | .zero comparison, [id] =>
    let comparison := if holds then comparison else comparison.negate
    match f.vars[id]?.bind (Sign.given comparison ·.sign) with
    | some sign => f.assumeSign id sign
    | none => f
  | _, _ => f

end Frame

end ArrayBounds
