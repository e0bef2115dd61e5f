import ArrayBounds.Proofs.Walk.Equations

/-! # Structured programs

Programs built from straight-line blocks by sequencing, conditionals and loops, the instruction
lists that they stand for, and their meaning.

The layout of a program puts each test in front of a branch, and the parts behind it. A conditional
with two arms has a jump over the second arm, and a loop with the test at the top a jump back to the
test. The meaning of a program is given by recursion on its structure: it says in which order the
parts are run, on which frames, and what is joined. Nothing in it depends on ranges, or on jumps
that are still to be followed.
-/

namespace ArrayBounds

open Program

/-- An instruction that has nothing to do with control flow, unless it is a call. -/
def Program.Instruction.isPlain : Instruction → Bool
  | .goto _ | .switch .. => false
  | instruction => instruction.proceeds

/-- The walk goes on behind a plain instruction. -/
theorem Program.Instruction.isPlain.proceeds {instruction : Instruction}
    (plain : instruction.isPlain = true) : instruction.proceeds = true := by
  cases instruction with
  | goto | switch => cases plain
  | _ => exact plain

/-- A plain instruction leaves the control part of a frame alone. -/
theorem Control.after_of_isPlain (c : Control) {instruction : Instruction}
    (plain : instruction.isPlain = true) : c.after instruction = c := by
  cases instruction with
  | goto => cases plain
  | _ => rfl

/-- A program with structured control flow. -/
inductive Code where
  | block (instructions : List { instruction : Instruction // instruction.isPlain = true })
  | seq (first second : Code)
  /-- The arm is skipped if the condition holds after the test. -/
  | ifThen (test : Code) (condition : Condition) (arm : Code)
  /-- The arm `taken` is run if the condition holds after the test, and `through` otherwise. -/
  | ifElse (test : Code) (condition : Condition) (through taken : Code)
  /-- The loop is left if the condition holds after the test. -/
  | whileDo (test : Code) (condition : Condition) (loopBody : Code)
  /-- The loop is repeated if the condition holds after the test. -/
  | doWhile (loopBody test : Code) (condition : Condition)

namespace Code

/-- The number of instructions. -/
def size : Code → Nat
  | block instructions => instructions.length
  | seq first second => first.size + second.size
  | ifThen test _ arm => test.size + 1 + arm.size
  | ifElse test _ through taken => test.size + 1 + through.size + 1 + taken.size
  | whileDo test _ loopBody => test.size + 1 + loopBody.size + 1
  | doWhile loopBody test _ => loopBody.size + test.size + 1

/-- The instructions of a program that starts at the position `start`. -/
def layout (start : Nat) : Code → List Instruction
  | block instructions => instructions.map (·.val)
  | seq first second => first.layout start ++ second.layout (start + first.size)
  | ifThen test condition arm =>
    let position := start + test.size
    test.layout start ++ .branch condition (position + 1 + arm.size) :: arm.layout (position + 1)
  | ifElse test condition through taken =>
    let position := start + test.size
    let jump := position + 1 + through.size
    test.layout start ++ .branch condition (jump + 1) :: through.layout (position + 1) ++
      .goto (jump + 1 + taken.size) :: taken.layout (jump + 1)
  | whileDo test condition loopBody =>
    let position := start + test.size
    let jump := position + 1 + loopBody.size
    test.layout start ++ .branch condition (jump + 1) :: loopBody.layout
      (position + 1) ++ [.goto start]
  | doWhile loopBody test condition =>
    loopBody.layout start ++ test.layout (start + loopBody.size) ++ [.branch condition start]

/-- A program takes as many instructions as its size says. -/
theorem length_layout (code : Code) (start : Nat) : (code.layout start).length = code.size := by
  induction code generalizing start with
  | block instructions => simp only [layout, size, List.length_map]
  | seq first second ihFirst ihSecond =>
      simp only [layout, size, List.length_append, ihFirst, ihSecond]
  | ifThen test condition arm ihTest ihArm =>
      simp only [layout, size, List.length_append, List.length_cons, ihTest, ihArm]
      omega
  | ifElse test condition through taken ihTest ihThrough ihTaken =>
      simp only [layout, size, List.length_append, List.length_cons, ihTest, ihThrough, ihTaken]
      omega
  | whileDo test condition loopBody ihTest ihBody =>
      simp only [layout, size, List.length_append, List.length_cons, List.length_nil,
        ihTest, ihBody]
      omega
  | doWhile loopBody test condition ihBody ihTest =>
      simp only [layout, size, List.length_append, List.length_cons, List.length_nil,
        ihTest, ihBody]

/-! ## Meaning -/

section

open Interpreter (untilStable loopUnstable proceed assuming)

variable (setting : Setting) (body : Body) (callee : Callee)

/-- Comes to the instruction at a position. -/
def reach (position : Nat) (f : Frame) : Analysis Frame := do
  Analysis.emit setting (.instructionReached body.key position)
  return { f with pc := position }

/-- Runs plain instructions one after the other. -/
def runBlock :
    List { instruction : Instruction // instruction.isPlain = true } → (position : Nat) → Frame →
    Analysis Frame
  | [], _, f => pure f
  | instruction :: rest, position, f =>
    reach setting body position f >>= proceed setting body callee instruction.val >>= runBlock rest
      (position + 1)

/-- Splits at a branch: the frame on the side where the branch is taken, and the one on the other
side. -/
def split (position : Nat) (condition : Condition) (f : Frame) : Analysis (Frame × Frame) := do
  let f ← reach setting body position f
  let popped ← (liftM (f.popN condition.arity) : Analysis (List VarId × Frame))
  return (popped.2.assumeCondition condition popped.1 true,
    popped.2.fork.assumeCondition condition popped.1 false)

/-- Runs an arm on the side where the branch is not taken, and joins it into the other side. -/
def oneArmed (position : Nat) (condition : Condition) (arm : Frame → Analysis Frame) (f : Frame) :
    Analysis Frame := do
  let sides ← split setting body position condition f
  let through ← arm sides.2
  return (sides.1.join through).1

/-- The meaning of a program that starts at the position `start`. -/
def meaning : Code → (start : Nat) → Frame → Analysis Frame
  | block instructions, start, f => runBlock setting body callee instructions start f
  | seq first second, start, f => meaning first start f >>= meaning second (start + first.size)
  | ifThen test condition arm, start, f =>
    let position := start + test.size
    meaning test start f >>= oneArmed setting body position condition (meaning arm (position + 1))
  | ifElse test condition through taken, start, f => do
    let position := start + test.size
    let jump := position + 1 + through.size
    let f ← meaning test start f
    let sides ← split setting body position condition f
    let through ← meaning through (position + 1) sides.2
    let through ← reach setting body jump through
    Analysis.emit setting (.armsFound body.key position (jump + 1) (jump + 1 + taken.size))
    let taken ← meaning taken (jump + 1) (sides.1.drawAfter through).fork
    return (taken.join through).1
  | whileDo test condition loopBody, start, f => do
    let position := start + test.size
    let last := position + loopBody.size
    let f ← meaning test start f
    let sides ← split setting body position condition f
    let through ← meaning loopBody (position + 1) sides.2
    let through ← reach setting body (last + 1) through
    Analysis.emit setting (.loopFound body.key start last)
    -- Each pass runs the test and the body again, and keeps the frames that would leave the loop.
    let through ← untilStable
      (fun f => meaning test start f >>= oneArmed setting body position condition
      (meaning loopBody (position + 1)))
      (loopUnstable setting body start last) setting.limits.loopPasses through
    return (sides.1.join through).1
  | doWhile loopBody test condition, start, f => do
    let position := start + loopBody.size + test.size
    let f ← meaning loopBody start f
    let f ← meaning test (start + loopBody.size) f
    let f ← reach setting body position f
    let f ← untilStable
      (fun f => assuming condition true f >>= meaning loopBody start >>= meaning test
      (start + loopBody.size))
      (loopUnstable setting body start position) setting.limits.loopPasses f
    assuming condition false { f with pc := position }

end

end Code

end ArrayBounds
