import ArrayBounds.Proofs.Analysis.Steps
import ArrayBounds.Proofs.Domain.Control

/-! # A walk, part by part

The parts of a branch under names of their own, and the interpreter as a sequence of these parts.
Everything that is proved about walks is proved about the parts and put together along the equations
below.
-/

namespace ArrayBounds.Interpreter

open Program

variable (setting : Setting) (body : Body)

/-- Takes the operands of a condition from the stack, and goes on as if it held or failed. -/
def assuming (condition : Condition) (holds : Bool) (f : Frame) : Analysis Frame :=
  (liftM (f.popN condition.arity) : Analysis (List VarId × Frame)) >>= fun popped =>
    pure (popped.2.assumeCondition condition popped.1 holds)

/-- One pass over the loop that a branch at `pc` closes. -/
def branchPass (walk : Walk) (condition : Condition) (target pc : Nat) (f : Frame) :
    Analysis Frame :=
  assuming condition true f >>= fun f => if target < pc then walk target (pc - 1) f else pure f

/-- A loop that is closed by a branch is left on the side where the branch is not taken. -/
theorem branchLoop_eq (walk : Walk) (condition : Condition) (target : Nat) (f : Frame) :
    branchLoop setting body walk condition target f =
      untilStable (branchPass walk condition target f.pc) (loopUnstable setting body target f.pc)
        setting.limits.loopPasses f >>=
          fun g => assuming condition false { g with pc := f.pc } := by
  unfold branchLoop branchPass assuming
  simp only [bind_assoc, pure_bind]

/-- A loop that is closed by a jump is announced, and repeated up to the jump. -/
theorem jumpLoop_eq (walk : Walk) (back last : Nat) (f : Frame) :
    jumpLoop setting body walk back last f =
      Analysis.emit setting (.loopFound body.key back (min (f.pc - 1) last)) >>= fun _ =>
        untilStable (walk back (min (f.pc - 1) last))
          (loopUnstable setting body back (min (f.pc - 1) last)) setting.limits.loopPasses f := rfl

/-- The loop behind an arm that ends in a jump back to `pc` or before. -/
def closing (walk : Walk) (pc last : Nat) (f : Frame) : Analysis Frame :=
  match f.pendingJump with
  | some back => if back ≤ pc then jumpLoop setting body walk back last f else pure f
  | none => pure f

/-- The second arm is walked through up to the meeting point. -/
theorem takenArm_eq (walk : Walk) (pc target meeting last : Nat) (f : Frame) :
    takenArm setting body walk pc target meeting last f =
      (if target < meeting then walk target (min (meeting - 1) last) f else pure f) >>=
        closing setting body walk pc last := by
  unfold takenArm closing
  split <;> rfl

/-- The two paths from a forward branch, up to where they meet: the side where the branch is taken,
and the side where it is not. -/
def arms (walk : Walk) (pc target last : Nat) (taken through : Frame) : Analysis (Frame × Frame) :=
  match through.pendingJump with
  | none => pure (taken, through)
  | some meeting =>
    if pc < meeting then do
      Analysis.emit setting (.armsFound body.key pc target meeting)
      let arm ← takenArm setting body walk pc target meeting last (taken.drawAfter through).fork
      return (arm, through)
    else do
      let through ← jumpLoop setting body walk meeting last through
      return (taken, through)

/-- Where the two paths meet. -/
def meet (target : Nat) (paths : Frame × Frame) : Flow :=
  .resume (max ((paths.1.join paths.2).1.pc + 1) target) (paths.1.join paths.2).1

/-- A branch back closes a loop. -/
theorem branch_backward (walk : Walk) (last : Nat) (condition : Condition)
    {target : Nat} {f : Frame} (back : target ≤ f.pc) :
    branch setting body walk last condition target f =
      branchLoop setting body walk condition target f >>= fun g => pure (.next g) := by
  unfold branch
  simp only [back, ↓reduceIte]

/-- A branch ahead has two arms, which are joined. -/
theorem branch_forward (walk : Walk) (last : Nat) (condition : Condition) {target : Nat} {f : Frame}
    (ahead : f.pc < target) :
    branch setting body walk last condition target f =
      (liftM (f.popN condition.arity) : Analysis (List VarId × Frame)) >>= fun popped =>
        walk (f.pc + 1) (min (target - 1) last)
          (popped.2.fork.assumeCondition condition popped.1 false) >>=
          fun through => arms setting body walk f.pc target last
            (popped.2.assumeCondition condition popped.1 true) through >>= fun paths =>
              pure (meet target paths) := by
  unfold branch
  simp only [Nat.not_le_of_lt ahead, ↓reduceIte]
  congr 1
  funext popped
  congr 1
  funext through
  cases pending : through.pendingJump with
  | none => simp only [arms, pending, pure_bind, meet]
  | some meeting =>
      by_cases later : f.pc < meeting
      · simp only [arms, pending, later, ↓reduceIte, bind_assoc, pure_bind, meet]
      · simp only [arms, pending, later, ↓reduceIte, bind_assoc, pure_bind, meet]

/-! ## Instructions -/

variable (callee : Callee)

/-- What an instruction does that hands over to the next one. -/
def proceed (instruction : Instruction) (f : Frame) : Analysis Frame :=
  match instruction with
  | .invoke kind owner name descriptor =>
      invoke setting callee kind { className := owner, name, descriptor } f
  | .invokeDynamic _ descriptor => opaqueCall descriptor false f
  | instruction =>
    (liftM (f.transfer instruction) : Analysis (Frame × Option Access)) >>= fun moved =>
      (if moved.2.isSome then reportAccess setting body f.pc else pure ()) >>= fun _ => pure moved.1

/-- A branch is announced and then taken. -/
theorem step_branch (walk : Walk) (last : Nat) (condition : Condition) (target : Nat) (f : Frame) :
    step setting body callee walk last (.branch condition target) f =
      Analysis.emit setting (.instructionReached body.key f.pc) >>= fun _ =>
        branch setting body walk last condition target f := rfl

/-- Instructions that are neither branches nor returns are announced, and the walk goes on behind
them. -/
theorem step_proceeds (walk : Walk) (last : Nat) {instruction : Instruction}
    (proceeds : instruction.proceeds = true) (f : Frame) :
    step setting body callee walk last instruction f =
      Analysis.emit setting (.instructionReached body.key f.pc) >>= fun _ =>
        proceed setting body callee instruction f >>= fun g => pure (.next g) := by
  have moved : (do
        let moved ← (liftM (f.transfer instruction) : Analysis (Frame × Option Access))
        if moved.2.isSome then reportAccess setting body f.pc
        return Flow.next moved.1) =
      ((liftM (f.transfer instruction) : Analysis (Frame × Option Access)) >>= fun moved =>
        (if moved.2.isSome then reportAccess setting body f.pc else pure ()) >>= fun _ =>
          pure moved.1) >>=
          fun g => pure (.next g) := by
    simp only [bind_assoc, pure_bind]
    congr 1
    funext outcome
    split <;> simp only [pure_bind]
  unfold step
  cases instruction with
  | branch | ret | throw | unsupported => cases proceeds
  | invoke | invokeDynamic => rfl
  | _ => exact congrArg _ (funext fun _ => moved)

/-! ## Walks -/

/-- How a walk goes on after an instruction. -/
def continueAt (walk : Walk) (pc last : Nat) : Flow → Analysis Frame
  | .next f => walk (pc + 1) last f
  | .resume position f => walk position last f
  | .leave f => pure f

section Hook

variable (hook : Analysis Unit)

/-- A walk through an empty range does nothing. -/
theorem interpretWith_empty (fuel : Nat) {pc last : Nat} (f : Frame)
    (empty : last < pc ∨ body.method.instructions.size ≤ pc) :
    interpretWith setting body hook callee fuel pc last f = pure f := by
  unfold interpretWith
  split
  · rfl
  · rename_i instruction found
    obtain ⟨inside, -⟩ := Array.getElem?_eq_some_iff.mp found
    rw [if_pos (by omega)]

/-- A walk that has steps left takes the first instruction of its range, and goes on from there. -/
theorem interpretWith_step (fuel : Nat) {pc last : Nat} (f : Frame) {instruction : Instruction}
    (found : body.method.instructions[pc]? = some instruction) (reach : pc ≤ last) :
    interpretWith setting body hook callee (fuel + 1) pc last f =
      (hook >>= fun _ =>
        step setting body callee (interpretWith setting body hook callee fuel) last instruction
          { f with pc }) >>=
        continueAt (interpretWith setting body hook callee fuel) pc last := by
  rw [interpretWith, bind_assoc]
  simp only [found, Nat.not_lt_of_le reach, ↓reduceIte]
  rfl

/-- A walk without steps left fails if there is something to walk through. -/
theorem interpretWith_zero {pc last : Nat} (f : Frame) {instruction : Instruction}
    (found : body.method.instructions[pc]? = some instruction) (reach : pc ≤ last) :
    interpretWith setting body hook callee 0 pc last f = throw .exhausted := by
  rw [interpretWith]
  simp only [found, Nat.not_lt_of_le reach, ↓reduceIte]

end Hook

/-- There is nothing to do in an empty range. -/
theorem interpret_empty (fuel : Nat) {pc last : Nat} (f : Frame)
    (empty : last < pc ∨ body.method.instructions.size ≤ pc) :
    interpret setting body callee fuel pc last f = pure f :=
  interpretWith_empty setting body callee (pure ()) fuel f empty

/-- A walk takes the first instruction of its range and goes on from there. -/
theorem interpret_step (fuel : Nat) {pc last : Nat} (f : Frame) {instruction : Instruction}
    (found : body.method.instructions[pc]? = some instruction) (reach : pc ≤ last) :
    interpret setting body callee (fuel + 1) pc last f =
      step setting body callee (interpret setting body callee fuel) last instruction
        { f with pc } >>= continueAt (interpret setting body callee fuel) pc last :=
  interpretWith_step setting body callee (pure ()) fuel f found reach

/-- Without fuel there is no walk through a range that is not empty. -/
theorem interpret_zero {pc last : Nat} (f : Frame) {instruction : Instruction}
    (found : body.method.instructions[pc]? = some instruction) (reach : pc ≤ last) :
    interpret setting body callee 0 pc last f = throw .exhausted :=
  interpretWith_zero setting body callee (pure ()) f found reach

/-- What a walk that succeeds has done: nothing in an empty range, and else the first instruction
and then the rest. -/
theorem interpret_cases {fuel first last : Nat} {f g : Frame} {before after : Run}
    (success : interpret setting body callee fuel first last f before = .ok g after) :
    (last < first ∨ body.method.instructions.size ≤ first) ∧ g = f ∧ after = before ∨
      first ≤ last ∧ ∃ instruction fuel' flow between,
        body.method.instructions[first]? = some instruction ∧ fuel = fuel' + 1 ∧
        step setting body callee (interpret setting body callee fuel') last instruction
          { f with pc := first } before = .ok flow between ∧
        continueAt (interpret setting body callee fuel') first last flow between = .ok g after := by
  by_cases empty : last < first ∨ body.method.instructions.size ≤ first
  case pos =>
    rw [interpret_empty setting body callee fuel f empty] at success
    obtain ⟨rfl, rfl⟩ := EStateM.pure_eq_ok_iff.mp success
    exact .inl ⟨empty, rfl, rfl⟩
  case neg =>
    have inside : first < body.method.instructions.size := by omega
    have found := Array.getElem?_eq_getElem inside
    cases fuel with
    | zero =>
        rw [interpret_zero setting body callee f found (by omega)] at success
        exact absurd success EStateM.throw_ne_ok
    | succ fuel =>
        rw [interpret_step setting body callee fuel f found (by omega)] at success
        obtain ⟨flow, between, stepped, success⟩ := EStateM.bind_eq_ok_iff.mp success
        exact .inr ⟨by omega, _, fuel, flow, between, found, rfl, stepped, success⟩

/-- Reporting an access never fails, and changes nothing but the findings and the log. -/
theorem reportAccess_eq_ok (position : Nat) (run : Run) :
    ∃ log, reportAccess setting body position run =
      .ok () { run with findings := run.findings.insert (body.report position), log } := by
  unfold reportAccess
  rw [EStateM.get_bind]
  by_cases known : body.report position ∈ run.findings
  · have same : run.findings.insert (body.report position) = run.findings := dif_pos known
    rw [if_pos known, same]
    exact ⟨run.log, rfl⟩
  · rw [if_neg known]
    exact Analysis.emit_succeeds setting _
      { run with findings := run.findings.insert (body.report position) }

end ArrayBounds.Interpreter
