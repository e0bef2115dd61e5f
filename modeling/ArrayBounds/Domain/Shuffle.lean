import ArrayBounds.Domain.Frame

/-! # Rearranging the operand stack

The rearrangements are defined on words: a wide value counts as two words, which always stay
together. So which entries an operation moves depends on which of them are wide. Entries keep their
identity when they are copied.
-/

namespace ArrayBounds

open Program

/-- The effect of a rearrangement on a stack, whose head is the top; absent if the stack is too
short. -/
def Program.StackOp.apply {α : Type} (isWide : α → Bool) : StackOp → List α → Option (List α)
  | .pop, _ :: s => some s
  | .pop2, a :: s =>
    if isWide a then some s
    else match s with
      | _ :: s => some s
      | [] => none
  | .dup, a :: s => some (a :: a :: s)
  | .dupX1, a :: b :: s => some (a :: b :: a :: s)
  | .dupX2, a :: b :: s =>
    if isWide b then some (a :: b :: a :: s)
    else match s with
      | c :: s => some (a :: b :: c :: a :: s)
      | [] => none
  | .dup2, a :: s =>
    if isWide a then some (a :: a :: s)
    else match s with
      | b :: s => some (a :: b :: a :: b :: s)
      | [] => none
  | .dup2X1, a :: b :: s =>
    if isWide a then some (a :: b :: a :: s)
    else match s with
      | c :: s => some (a :: b :: c :: a :: b :: s)
      | [] => none
  | .dup2X2, a :: b :: s =>
    if isWide a then
      if isWide b then some (a :: b :: a :: s)
      else match s with
        | c :: s => some (a :: b :: c :: a :: s)
        | [] => none
    else match s with
      | c :: s =>
        if isWide c then some (a :: b :: c :: a :: b :: s)
        else match s with
          | d :: s => some (a :: b :: c :: d :: a :: b :: s)
          | [] => none
      | [] => none
  | .swap, a :: b :: s => some (b :: a :: s)
  | _, _ => none

/-- Rearranges the operand stack of a frame. -/
def Frame.shuffle (f : Frame) (op : StackOp) : Except AnalysisError Frame :=
  match op.apply f.isWide f.stack with
  | some stack => .ok { f with stack }
  | none => f.underflow

end ArrayBounds
