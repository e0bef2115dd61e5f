import ArrayBounds.Proofs.Analysis.Recursion
import ArrayBounds.Proofs.Domain.Numbers
import ArrayBounds.Proofs.Walk.Returns

/-! # The frames that occur in an analysis

Every walk that is made in the course of an analysis has a frame at its start, and from there frames
come about by steps, forks, passes over loops and joins (`ArrayBounds.Interpreter.Arises`,
`ArrayBounds.Interpreter.Joins`). All these frames are closed, so that no operation on them ever
comes to a number without a variable, and all their variables have values that are possible
(`ArrayBounds.Setting.representation_invariant`).
-/

namespace ArrayBounds

open Program

/-- Operations on frames draw numbers and never give them back. -/
theorem Frame.invariant_drawn (n : Nat) :
    Frame.Invariant (fun f => n ≤ f.nextId) fun _ => True where
  moved drawn _ := drawn
  forked drawn := drawn
  drawn drawn _ := Nat.le_trans drawn (Nat.le_max_left _ _)
  popped drawn popping := Nat.le_trans drawn (Frame.nextId_popN popping).ge
  assumed drawn _ _ _ := Nat.le_trans drawn (Frame.nextId_assumeCondition _ _ _ _).ge
  joined drawn _ := drawn.trans ((Nat.le_max_left _ _).trans (Frame.le_nextId_join _ _))
  recorded drawn popping :=
    drawn.trans ((Frame.nextId_pop popping).ge.trans (Frame.le_nextId_recordReturn _ _))
  transferred drawn success := drawn.trans (Frame.le_nextId_transfer success)
  pushedUnknown drawn _ := Nat.le_succ_of_le drawn
  pushedResult drawn _ := Nat.le_succ_of_le drawn

namespace Interpreter

section

variable (setting : Setting) (body : Body) (callee : Callee)

/-- A loop is closed at the start of a stretch and makes the given pass from the frame and the run:
for the first time, or after passes that have all changed the frame. -/
inductive Loops (s : Stretch) : (Frame → Analysis Frame) → Frame → Run → Prop where
  | jump {arm : Stretch} {f g : Frame} {back : Nat} {between run left : Run}
      (part : Arm setting body callee s arm)
      (walked : outcome setting body callee arm = .ok f between)
      (pending : f.pendingJump = some back) (behind : back ≤ s.first)
      (announces : Analysis.emit setting (.loopFound body.key back (min (f.pc - 1) s.last))
      between = .ok () run)
      (again : Reruns (walk setting body callee back (min (f.pc - 1) s.last))
        setting.limits.loopPasses f run g left) :
      Loops s (walk setting body callee back (min (f.pc - 1) s.last)) g left
  | branch {condition : Condition} {target : Nat} {g : Frame} {run left : Run}
      (arrives : Arrives setting body s (.branch condition target) run) (behind : target ≤ s.first)
      (again : Reruns (branchPass (walk setting body callee) condition target s.first)
        setting.limits.loopPasses
        s.entry run g left) : Loops s
        (branchPass (walk setting body callee) condition target s.first) g left

/-- The second frame is joined into the first one at the start of a stretch: where the two sides of
a branch meet, or where a pass over a loop has come back. -/
inductive Joins (s : Stretch) : Frame → Frame → Prop where
  | paths {condition : Condition} {target : Nat} {operands : List VarId}
      {popped through f g : Frame}
      {run between after : Run} (forks : Forks setting body s condition target operands popped run)
      (walked : outcome setting body callee (s.through condition target operands popped run) =
      .ok through between)
      (both : arms setting body (walk setting body callee) s.first target s.last
        (popped.assumeCondition condition operands true) through between = .ok (f, g) after) :
        Joins s f g
  | loop {pass : Frame → Analysis Frame} {f g : Frame} {left after : Run}
      (loops : Loops setting body callee s pass f left)
      (passed : pass f.fork left.countPass = .ok g after) : Joins s f g

/-- The frames that a walk through a stretch has at its start, behind its first instruction, in a
loop there, on both sides of a join and behind it, and at its end. What is done to a frame in
between is moving, forking, popping and assuming. -/
inductive Arises (s : Stretch) : Frame → Prop where
  | start : Arises s s.frame
  | stepped {instruction : Instruction} {flow : Flow} {after : Run}
      (found : body.method.instructions[s.first]? = some instruction) (reach : s.first ≤ s.last)
      (stepped : step setting body callee (walk setting body callee)
        s.last instruction s.entry s.run = .ok flow after) :
      Arises s flow.frame
  | ended {f : Frame} {after : Run} (walked : outcome setting body callee s = .ok f after) :
      Arises s f
  | looped {pass : Frame → Analysis Frame} {f : Frame} {left : Run}
      (loops : Loops setting body callee s pass f left) : Arises s f
  | receiving {f g : Frame} (joins : Joins setting body callee s f g) : Arises s f
  | incoming {f g : Frame} (joins : Joins setting body callee s f g) : Arises s g
  | joined {f g : Frame} (joins : Joins setting body callee s f g) : Arises s (f.join g).1
  | moved {f : Frame} (arises : Arises s f) (pc : Nat) : Arises s { f with pc }
  | forked {f : Frame} (arises : Arises s f) : Arises s f.fork
  | drawn {t : Stretch} {f g : Frame} {after : Run} (arises : Arises s f)
      (arm : Arm setting body callee s t)
      (walked : outcome setting body callee t = .ok g after) : Arises s (f.drawAfter g)
  | popped {f g : Frame} {count : Nat} {ids : List VarId} (arises : Arises s f)
      (popping : f.popN count = .ok (ids, g)) : Arises s g
  | assumed {f : Frame} (arises : Arises s f) (condition : Condition) (operands : List VarId)
      (holds : Bool) : Arises s (f.assumeCondition condition operands holds)

end

/-! ## Invariants of frames that arise -/

section

open Analysis

variable {setting : Setting} {body : Body} {callee : Callee} {s : Stretch} {F : Frame → Prop}
  {R : Run → Prop}
  {E : AnalysisError → Prop} {G : Variable → Prop} {f g : Frame} (frames : Frame.Invariant F G)
  (runs : Respects setting callee R E G)
include frames runs

private theorem keeps_walks (body : Body) (first last : Nat) (f : Frame) (here : F f) :
    Keeps R E (walk setting body callee first last f) F :=
  keeps_walk frames runs here first last

/-- Invariants hold in every pass over a loop, and where the pass begins. -/
private theorem Loops.keeps {pass : Frame → Analysis Frame} {left : Run}
    (loops : Loops setting body callee s pass f left) (here : F s.frame) (holds : R s.run) :
    (∀ g, F g → Keeps R E (pass g) F) ∧ F f ∧ R left := by
  have walks := keeps_walks frames runs body
  cases loops with
  | jump part walked pending behind announces again =>
      obtain ⟨here, holds⟩ := part.keeps frames runs here holds
      obtain ⟨here, holds⟩ := outcome_keeps frames runs walked here holds
      obtain ⟨flags, -, -, passes⟩ := again
      exact ⟨walks _ _,
        passes.keeps frames runs (walks _ _) here ((keeps_emit runs _).ok holds announces).2⟩
  | @branch condition target _ _ _ arrives behind again =>
      have each (g : Frame) (there : F g) :
          Keeps R E (branchPass (walk setting body callee) condition target s.first g) F :=
        keeps_branchPass frames runs walks there _ _ _
      obtain ⟨flags, -, -, passes⟩ := again
      refine ⟨each, passes.keeps frames runs each (frames.moved here s.first) ?_⟩
      exact ((keeps_emit runs _).ok holds arrives.announced).2

/-- Invariants hold of both frames that are joined. -/
private theorem Joins.keeps (joins : Joins setting body callee s f g) (here : F s.frame)
    (holds : R s.run) : F f ∧ F g := by
  cases joins with
  | paths forks walked both =>
      obtain ⟨here, holds⟩ := forks.keeps frames runs here holds
      obtain ⟨there, holds⟩ :=
        outcome_keeps frames runs walked (frames.assumed (frames.forked here) _ _ _) holds
      exact ((keeps_arms frames runs (keeps_walks frames runs body) (frames.assumed here _ _ _)
        there _ _ _).ok holds both).1
  | @loop _ _ _ left _ loops passed =>
      obtain ⟨each, here, holds⟩ := loops.keeps frames runs here holds
      have counted : R left.countPass := runs.same holds rfl rfl
      exact ⟨here, ((each f.fork (frames.forked here)).ok counted passed).1⟩

/-- What holds at the start of a stretch holds of every frame that arises there. -/
theorem Arises.keeps (arises : Arises setting body callee s f) (here : F s.frame)
    (holds : R s.run) : F f := by
  induction arises with
  | start => exact here
  | stepped found reach stepped =>
      exact ((keeps_step frames runs (keeps_walks frames runs body) (frames.moved here s.first)
        _ _).ok holds stepped).1
  | ended walked => exact (outcome_keeps frames runs walked here holds).1
  | looped loops => exact (loops.keeps frames runs here holds).2.1
  | receiving joins => exact (joins.keeps frames runs here holds).1
  | incoming joins => exact (joins.keeps frames runs here holds).2
  | joined joins =>
      obtain ⟨left, right⟩ := joins.keeps frames runs here holds
      exact frames.joined left right
  | moved _ pc ih => exact frames.moved ih pc
  | forked _ ih => exact frames.forked ih
  | drawn _ _ _ ih => exact frames.drawn ih _
  | popped _ popping ih => exact frames.popped ih popping
  | assumed _ condition operands holds ih => exact frames.assumed ih condition operands holds

end

end Interpreter

namespace Setting

open Interpreter

variable {setting : Setting}

/-- The stretch is walked through in the course of the whole analysis, in the body, and calls may be
followed so deep from there. -/
inductive Visits (setting : Setting) : Nat → Body → Stretch → Prop where
  | intro {depth : Nat} {body : Body} {run : Run} {s t : Stretch}
      (analyses : setting.Analyses (depth + 1) body run)
      (walks : Walks setting (depth + 1) body run s)
      (within : Within setting body (analyzeMethod setting depth) s t) :
      Visits setting depth body t

/-- The frame occurs at some point of the analysis. -/
def Occurs (setting : Setting) (f : Frame) : Prop :=
  ∃ depth body s, setting.Visits depth body s ∧
    Arises setting body (analyzeMethod setting depth) s f

/-- The second frame is joined into the first one at some point of the analysis. -/
def Joins (setting : Setting) (f g : Frame) : Prop :=
  ∃ depth body s, setting.Visits depth body s ∧
    Interpreter.Joins setting body (analyzeMethod setting depth) s f g

/-- Parts of a walk of the analysis are walks of the analysis. -/
theorem Visits.within {depth : Nat} {body : Body} {s t : Stretch}
    (visits : setting.Visits depth body s)
    (within : Within setting body (analyzeMethod setting depth) s t) :
    setting.Visits depth body t := by
  cases visits with
  | intro analyses walks before => exact .intro analyses walks (before.trans within)

/-- Invariants hold at the start of every walk of an analysis. -/
private theorem Visits.keeps {F : Frame → Prop} {P : Sign → Prop} {R : Run → Prop} {depth : Nat}
    {body : Body} {s : Stretch} (lasts : setting.Lasts R P) (results : Results F P)
    (visits : setting.Visits depth body s) :
    Respects setting (analyzeMethod setting depth) R (fun _ => True) (fun v => P v.sign) ∧
      F s.frame ∧ R s.run := by
  have runs : Respects setting (analyzeMethod setting depth) R (fun _ => True) fun v => P v.sign :=
    lasts.respects fun _ declared => lasts.keeps_analyzeMethod results _ declared.key_mem_keys
  cases visits with
  | intro analyses walks within =>
      obtain ⟨declared, holds⟩ := analyses.keeps lasts results
      obtain ⟨here, holds⟩ := walks.keeps results (lasts.brackets _ declared) runs holds
      exact ⟨runs, within_keeps results.frames runs within here holds⟩

/-- Frames of an analysis are closed and possible. -/
theorem Occurs.possible {f : Frame} (occurs : setting.Occurs f) : f.Closed ∧ f.Possible := by
  obtain ⟨depth, body, s, visits, arises⟩ := occurs
  obtain ⟨runs, here, holds⟩ := visits.keeps (lasts_possible setting) results_possible
  exact arises.keeps Frame.invariant_possible runs here holds

end Setting

end ArrayBounds
