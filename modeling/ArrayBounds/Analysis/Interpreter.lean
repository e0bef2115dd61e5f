import ArrayBounds.Analysis.Run
import ArrayBounds.Domain.Assumption
import ArrayBounds.Domain.Join
import ArrayBounds.Domain.Transfer

/-! # Walking through a method

The instructions of a method are walked through in order, in a given range. The structure of the
control flow is found on the way.

* At a branch forwards the frame is forked. The instructions between the branch and its target are
  walked through first, on the side where the branch is not taken. If they end in a jump forwards,
  that jump skips the other arm of the branch, which is walked through next. If they end in a jump
  backwards, the branch is the exit of a loop. Then the two frames are joined.
* A `goto` notes its target for the branch around it, and the walk goes on behind it.
* A jump or a branch backwards closes a loop. The body of the loop is walked through again and again
  until joining its result changes nothing any more.

Every part of a walk is itself a walk through a range that ends earlier, or that ends at the same
place and starts later. The definitions below take the walk through such a part as an argument;
`interpretWith` ties the knot with a bound on the number of steps. It leaves room for a further step
in front of each instruction, so that a walk can be observed; `interpret` makes no use of it.
-/

namespace ArrayBounds

open Program

/-- A method with the class that declares it. -/
structure Body where
  owner : ClassDef
  method : Method

namespace Body

def key (body : Body) : MethodKey :=
  { className := body.owner.name, name := body.method.name, descriptor := body.method.descriptor }

/-- The report of an access at a position. -/
def report (body : Body) (position : Nat) : Report :=
  { file := body.owner.sourceName, method := body.method.name, line := body.method.lineAt position }

end Body

/-- What comes after an instruction. -/
inductive Flow where
  /-- The next instruction. -/
  | next (frame : Frame)
  /-- The instruction at a position. -/
  | resume (position : Nat) (frame : Frame)
  /-- The end of the path. -/
  | leave (frame : Frame)
deriving Inhabited

/-- A walk through the instructions from `first` to `last`. -/
abbrev Walk := (first last : Nat) → Frame → Analysis Frame

/-- The analysis of a method that is called. -/
abbrev Callee := Body → Analysis Variable

namespace Interpreter

variable (setting : Setting) (body : Body)

/-! ## Loops -/

/-- Repeats a pass over a loop until joining its result changes nothing. If that takes too many
passes, `giveUp` has the last word and the frame stays as it is. -/
def untilStable (pass : Frame → Analysis Frame) (giveUp : Analysis Unit) :
    Nat → Frame → Analysis Frame
  | 0, f => do
    giveUp
    return f
  | passes + 1, f => do
    Analysis.count fun s => { s with loopIterations := s.loopIterations + 1 }
    let after ← pass f.fork
    let (f, changed) := f.join after
    if changed then untilStable pass giveUp passes f else return f

/-- The event of a loop that takes too many passes. -/
def loopUnstable (first last : Nat) : Analysis Unit :=
  Analysis.emit setting (.loopUnstable body.key first last setting.limits.loopPasses)

/-- The loop that a jump back to `back` closes. The jump is the last instruction of the frame, and
the walk is inside a range that ends at `last`. -/
def jumpLoop (walk : Walk) (back last : Nat) (f : Frame) : Analysis Frame := do
  let last := min (f.pc - 1) last
  Analysis.emit setting (.loopFound body.key back last)
  untilStable (walk back last) (loopUnstable setting body back last) setting.limits.loopPasses f

/-- The loop that a branch back to `target` closes. The body is walked through on the side where the
branch is taken, and the loop is left on the other side. -/
def branchLoop (walk : Walk) (condition : Condition) (target : Nat) (f : Frame) :
    Analysis Frame := do
  let pc := f.pc
  let pass (f : Frame) : Analysis Frame := do
    let (operands, f) ← f.popN condition.arity
    let f := f.assumeCondition condition operands true
    if target < pc then walk target (pc - 1) f else return f
  let f ← untilStable pass (loopUnstable setting body target pc) setting.limits.loopPasses f
  let (operands, f) ← { f with pc }.popN condition.arity
  return f.assumeCondition condition operands false

/-! ## Branches -/

/-- The arm of a branch that starts at its target, if the other arm jumps to `meeting`. -/
def takenArm (walk : Walk) (pc target meeting last : Nat) (f : Frame) : Analysis Frame := do
  let f ← if target < meeting then walk target (min (meeting - 1) last) f else pure f
  match f.pendingJump with
  | some back => if back ≤ pc then jumpLoop setting body walk back last f else return f
  | none => return f

/-- A branch at the last instruction of the frame. -/
def branch (walk : Walk) (last : Nat) (condition : Condition) (target : Nat) (f : Frame) :
    Analysis Flow := do
  let pc := f.pc
  if target ≤ pc then
    return .next (← branchLoop setting body walk condition target f)
  else
    let (operands, f) ← f.popN condition.arity
    let taken := f.assumeCondition condition operands true
    let through ← walk (pc + 1) (min (target - 1) last)
      (f.fork.assumeCondition condition operands false)
    let (taken, through) ← match through.pendingJump with
      | none => pure (taken, through)
      | some meeting =>
        if pc < meeting then do
          Analysis.emit setting (.armsFound body.key pc target meeting)
          let arm ← takenArm setting body walk pc target meeting last (taken.drawAfter through).fork
          pure (arm, through)
        else do
          let through ← jumpLoop setting body walk meeting last through
          pure (taken, through)
    let (joined, _) := taken.join through
    return .resume (max (joined.pc + 1) target) joined

/-! ## Calls -/

/-- Pops the arguments of a call, and the receiver if there is one. -/
def popArguments (descriptor : MethodDescriptor) (hasReceiver : Bool) (f : Frame) :
    Except AnalysisError Frame := do
  let (_, f) ← f.popN (descriptor.parameters.length + if hasReceiver then 1 else 0)
  return f

/-- A call that is not followed. Nothing is known about its result. -/
def opaqueCall (descriptor : String) (hasReceiver : Bool) (f : Frame) : Analysis Frame := do
  Analysis.count fun s => { s with opaqueCalls := s.opaqueCalls + 1 }
  let descriptor ← Analysis.parseDescriptor descriptor
  let f ← popArguments descriptor hasReceiver f
  match descriptor.returnType with
  | some type => return f.push (.unknown (some type) f.pc)
  | none => return f

/-- Looks for a method with a body or a native method in a class and its superclasses, at most
`bound` of them. There is no result if the search leaves the analysed classes. -/
def resolveFrom (method : MethodKey) : (bound : Nat) → Option String → Analysis (Option Body)
  | _, none => throw (.methodNotFound method.className method.name method.descriptor)
  | 0, some _ => throw .exhausted
  | bound + 1, some className =>
    if !setting.isAnalyzed className then do
      Analysis.emit setting (.methodOutside method className)
      return none
    else
      match setting.repository.lookup? className with
      | none => do
        Analysis.emit setting (.classMissing method className)
        return none
      | some owner =>
        match owner.findMethod? method.name method.descriptor with
        | some found =>
          if found.access.isAbstract then resolveFrom method bound owner.superName
          else return some { owner, method := found }
        | none => resolveFrom method bound owner.superName

/-- Looks for the method that a call leads to. All classes on the way but the last are analysed, and
they are all different unless a class is among its own superclasses, in which case the search may be
exhausted. -/
def resolve (method : MethodKey) : Analysis (Option Body) :=
  resolveFrom setting method (setting.analyzed.length + 1) (some method.className)

/-- The result of a method: the stored one, or that of an analysis. -/
def resultOf (callee : Callee) (target : Body) : Analysis Variable := do
  match (← get).memo.get? target.key with
  | some result => return result
  | none => callee target

/-- A call of a method by name. -/
def invoke (callee : Callee) (kind : InvokeKind) (method : MethodKey) (f : Frame) :
    Analysis Frame := do
  if !setting.isAnalyzed method.className then
    opaqueCall method.descriptor kind.hasReceiver f
  else
    match ← resolve setting method with
    | none => opaqueCall method.descriptor kind.hasReceiver f
    | some target =>
      let result ← resultOf callee target
      let descriptor ← Analysis.parseDescriptor method.descriptor
      let f ← popArguments descriptor kind.hasReceiver f
      if descriptor.isVoid then return f
      else
        return f.push
          { result.clearBounds with origin := .localValue, slot := none, definedAt := f.pc }

/-! ## Instructions -/

/-- Reports an access at a position that is not known to be in bounds. -/
def reportAccess (position : Nat) : Analysis Unit := do
  let report := body.report position
  if report ∈ (← get).findings then return ()
  else
    modify fun run => { run with findings := run.findings.insert report }
    Analysis.emit setting (.accessUnproved body.key position)

/-- Executes the instruction at the frame's position, in a walk that ends at `last`. -/
def step (callee : Callee) (walk : Walk) (last : Nat) (instruction : Instruction) (f : Frame) :
    Analysis Flow := do
  Analysis.emit setting (.instructionReached body.key f.pc)
  match instruction with
  | .branch condition target => branch setting body walk last condition target f
  | .invoke kind owner name descriptor =>
    return .next (← invoke setting callee kind { className := owner, name, descriptor } f)
  | .invokeDynamic _ descriptor => return .next (← opaqueCall descriptor false f)
  | .throw => throw (.throws body.key.text f.pc)
  | .unsupported opcode => throw (.unsupportedInstruction body.key.text f.pc opcode)
  | .ret none => return .leave f
  | .ret (some _) =>
    let (id, f) ← f.pop
    return .leave (f.recordReturn id)
  | instruction =>
    let (after, unproved) ← f.transfer instruction
    if unproved.isSome then reportAccess setting body f.pc
    return .next after

/-- Walks through the instructions from `pc` to `last`, in at most `fuel` steps, and does something
in front of each instruction. -/
def interpretWith (hook : Analysis Unit) (callee : Callee) : (fuel : Nat) → Walk
  | fuel, pc, last, f =>
    match body.method.instructions[pc]? with
    | none => return f
    | some instruction =>
      if last < pc then return f
      else
        match fuel with
        | 0 => throw .exhausted
        | fuel + 1 => do
          hook
          match ← step setting body callee (interpretWith hook callee fuel) last instruction
            { f with pc } with
          | .next f => interpretWith hook callee fuel (pc + 1) last f
          | .resume position f => interpretWith hook callee fuel position last f
          | .leave f => return f

/-- Walks through the instructions from `pc` to `last`, in at most `fuel` steps. -/
def interpret (callee : Callee) (fuel : Nat) : Walk :=
  interpretWith setting body (pure ()) callee fuel

/-- A number of steps that every walk through the method stays below: a walk spends at most one step
on each pair of a start and an end of a range. -/
def fuel : Nat :=
  body.method.instructions.size * (body.method.instructions.size + 1) + 1

/-- Walks through the whole method, and does something in front of each instruction. -/
def interpretBodyWith (hook : Analysis Unit) (callee : Callee) (f : Frame) : Analysis Frame :=
  interpretWith setting body hook callee (fuel body) 0 (body.method.instructions.size - 1) f

/-- Walks through the whole method. -/
def interpretBody (callee : Callee) (f : Frame) : Analysis Frame :=
  interpretBodyWith setting body (pure ()) callee f

end Interpreter

end ArrayBounds
