import ArrayBounds.Domain.Transfer
import ArrayBounds.Proofs.Sequences

/-! # Taking operands from the stack

When an instruction finds its operands, and what it leaves behind. The effects of instructions are
sequences of such steps, so a successful effect is taken apart with
`ArrayBounds.Except.bind_eq_ok_iff` and the lemmas about `pop` and `popN`.
-/

namespace ArrayBounds.Frame

open Program

/-- A pop succeeds if there is something on the stack, and takes it. -/
@[simp] theorem pop_eq_ok_iff {f g : Frame} {id : VarId} :
    f.pop = .ok (id, g) ↔ ∃ rest, f.stack = id :: rest ∧ g = { f with stack := rest } := by
  unfold pop
  cases held : f.stack with
  | nil => simp [underflow]
  | cons top rest =>
      constructor
      · intro success
        cases success
        exact ⟨rest, rfl, rfl⟩
      · rintro ⟨_, same, rfl⟩
        cases same
        rfl

/-- Changing a variable leaves the rest of the frame alone. -/
theorem modify_eq (f : Frame) (id : VarId) (change : Variable → Variable) :
    f.modify id change = { f with vars := (f.modify id change).vars } := by
  unfold modify
  split <;> rfl

/-- A pop of several numbers succeeds if the stack is high enough, and returns them from the bottom
up. -/
@[simp] theorem popN_eq_ok_iff {f g : Frame} {count : Nat} {ids : List VarId} :
    f.popN count = .ok (ids, g) ↔
      count ≤ f.stack.length ∧ ids = (f.stack.take count).reverse ∧
        g = { f with stack := f.stack.drop count } := by
  unfold popN
  by_cases short : f.stack.length < count
  · simp only [short, ↓reduceIte, underflow]
    constructor
    · intro success
      cases success
    · rintro ⟨enough, -⟩
      omega
  · simp only [short, ↓reduceIte, Except.ok.injEq, Prod.mk.injEq]
    constructor
    · rintro ⟨rfl, rfl⟩
      exact ⟨by omega, rfl, rfl⟩
    · rintro ⟨-, rfl, rfl⟩
      exact ⟨rfl, rfl⟩

/-- A rearrangement that the stack is long enough for changes nothing but the stack. -/
theorem shuffle_eq_ok_iff {f g : Frame} {op : StackOp} :
    f.shuffle op = .ok g ↔ ∃ stack, op.apply f.isWide f.stack = some stack ∧
      g = { f with stack } := by
  unfold shuffle
  cases op.apply f.isWide f.stack with
  | none => simp [underflow]
  | some stack => simp [eq_comm]

/-! ## Failure -/

/-- A sequence runs out of fuel only if one of its parts does. -/
theorem bind_ne_exhausted {α β : Type} {first : Except AnalysisError α}
    {next : α → Except AnalysisError β} (start : first ≠ .error .exhausted)
    (rest : ∀ value, next value ≠ .error .exhausted) : first >>= next ≠ .error .exhausted := by
  cases first with
  | error error => exact fun same => start (congrArg Except.error (Except.error.inj same))
  | ok value => exact rest value

/-- A pop needs no fuel. -/
theorem pop_ne_exhausted (f : Frame) : f.pop ≠ .error .exhausted := by
  unfold pop underflow
  split <;> exact nofun

/-- Nor does a pop of several numbers. -/
theorem popN_ne_exhausted (f : Frame) (count : Nat) : f.popN count ≠ .error .exhausted := by
  unfold popN underflow
  split <;> exact nofun

/-- Effects of instructions fail for want of operands or for a malformed descriptor, and for nothing
else. -/
theorem transfer_ne_exhausted (f : Frame) (instruction : Instruction) :
    f.transfer instruction ≠ .error .exhausted := by
  have replaced (count : Nat) (result : Variable) : f.replaceTop count result ≠ .error .exhausted :=
    bind_ne_exhausted (popN_ne_exhausted f count) fun _ => nofun
  have handed {effect : Except AnalysisError Frame} (fine : effect ≠ .error .exhausted) :
      (effect >>= fun g => pure (g, none) : Except AnalysisError (Frame × Option Access)) ≠
        .error .exhausted :=
    bind_ne_exhausted fine fun _ => nofun
  unfold transfer
  cases instruction with
  | arrayLoad kind =>
      exact bind_ne_exhausted (pop_ne_exhausted f) fun popped =>
        bind_ne_exhausted (pop_ne_exhausted _) fun _ => nofun
  | arrayStore kind =>
      exact bind_ne_exhausted (pop_ne_exhausted f) fun popped =>
        bind_ne_exhausted (pop_ne_exhausted _) fun popped =>
          bind_ne_exhausted (pop_ne_exhausted _) fun _ => nofun
  | store kind slot => exact handed (bind_ne_exhausted (pop_ne_exhausted f) fun _ => nofun)
  | stack op =>
      refine handed ?_
      unfold shuffle underflow
      split <;> exact nofun
  | arrayLength => exact handed (bind_ne_exhausted (pop_ne_exhausted f) fun _ => nofun)
  | newArray | multiNewArray | compare | instanceOf => exact handed (replaced _ _)
  | arithmetic op kind =>
      refine handed ?_
      unfold arithmetic
      split
      · exact bind_ne_exhausted (pop_ne_exhausted f) fun _ => nofun
      · exact bind_ne_exhausted (pop_ne_exhausted f) fun popped =>
          bind_ne_exhausted (pop_ne_exhausted _) fun _ => nofun
  | convert source target => exact handed (bind_ne_exhausted (pop_ne_exhausted f) fun _ => nofun)
  | switch | monitor => exact bind_ne_exhausted (pop_ne_exhausted f) fun _ => nofun
  | getField isStatic descriptor =>
      refine handed (bind_ne_exhausted (popN_ne_exhausted f _) fun popped => ?_)
      cases FieldType.parse descriptor <;> exact nofun
  | putField isStatic => exact bind_ne_exhausted (popN_ne_exhausted f _) fun _ => nofun
  | _ => exact nofun

end ArrayBounds.Frame
