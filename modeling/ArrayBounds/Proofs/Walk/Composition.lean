import ArrayBounds.Proofs.Walk.Follows

/-! # Relations between walks

A walk is put together from a few kinds of steps: events, counters, reports and calls. A relation
between steps that holds of these and is closed under sequences (`ArrayBounds.Interpreter.Composes`)
therefore holds between two walks through the same range that differ in what their calls do
(`ArrayBounds.Interpreter.Composes.interpret`). The settings of the two walks may differ in the
order of the classes, and in what they want to see in the log. Reports are asked for only where
instructions are executed that may have to be reported.

A relation that ignores its second argument is a contract for a single walk.
-/

namespace ArrayBounds

open Program

/-- The settings analyse the same classes with the same limits, in some order. -/
structure Setting.Resembles (setting setting' : Setting) : Prop where
  repository : setting'.repository = setting.repository
  limits : setting'.limits = setting.limits
  analyzed : setting'.analyzed.Perm setting.analyzed

namespace Setting.Resembles

variable {setting setting' : Setting}

/-- A setting resembles itself. -/
theorem refl (setting : Setting) : setting.Resembles setting :=
  ⟨rfl, rfl, .refl _⟩

private theorem isAnalyzed (resembles : setting.Resembles setting') (className : String) :
    setting'.isAnalyzed className = setting.isAnalyzed className := by
  rw [Bool.eq_iff_iff, Setting.isAnalyzed, Setting.isAnalyzed, List.contains_iff_mem,
    List.contains_iff_mem]
  exact resembles.analyzed.mem_iff

/-- Settings that resemble each other declare the same methods. -/
theorem declares (resembles : setting.Resembles setting') {body : Body} :
    setting'.Declares body ↔ setting.Declares body := by
  unfold Setting.Declares
  simp only [resembles.isAnalyzed, resembles.repository]

end Setting.Resembles

/-- The place of a check that fails. -/
def Event.failure? : Event → Option (MethodKey × Nat)
  | accessUnproved key position => some (key, position)
  | _ => none

namespace Interpreter

/-- A relation between steps that holds of the steps of which walks consist, and is closed under
sequences. The rest of a sequence matters only for what its first step can produce. -/
structure Composes (setting setting' : Setting) (body : Body) (callee callee' : Callee)
    (Rel : (α : Type) → Analysis α → Analysis α → Prop) : Prop where
  returns : ∀ {α : Type} (value : α), Rel α (pure value) (pure value)
  fails : ∀ {α : Type} (error : AnalysisError), Rel α (throw error) (throw error)
  bind : ∀ {α β : Type} {first first' : Analysis α} {next next' : α → Analysis β},
    Rel α first first' →
    (∀ value before after, first before = .ok value after → Rel β (next value) (next' value)) →
    Rel β (first >>= next) (first' >>= next')
  emits : ∀ event, event.failure? = none → Rel Unit (Analysis.emit setting event)
    (Analysis.emit setting' event)
  repeats : Rel Unit (Analysis.count fun s => { s with loopIterations := s.loopIterations + 1 })
    (Analysis.count fun s => { s with loopIterations := s.loopIterations + 1 })
  skips : Rel Unit (Analysis.count fun s => { s with opaqueCalls := s.opaqueCalls + 1 })
    (Analysis.count fun s => { s with opaqueCalls := s.opaqueCalls + 1 })
  calls : ∀ target, setting.Declares target → Rel Variable (resultOf callee target)
    (resultOf callee' target)

namespace Composes

variable {setting setting' : Setting} {body : Body} {callee callee' : Callee}
  {Rel : (α : Type) → Analysis α → Analysis α → Prop}
  (composes : Composes setting setting' body callee callee' Rel)
include composes

/-! ## Steps -/

private theorem andThen {α β : Type} {first first' : Analysis α} {next next' : α → Analysis β}
    (start : Rel α first first') (rest : ∀ value, Rel β (next value) (next' value)) :
    Rel β (first >>= next) (first' >>= next') :=
  composes.bind start fun value _ _ _ => rest value

private theorem lift {α : Type} (part : Except AnalysisError α) :
    Rel α (liftM part) (liftM part) := by
  cases part with
  | error error => exact composes.fails error
  | ok value => exact composes.returns value

/-- Reading a descriptor is related to itself. -/
private theorem parse (text : String) :
    Rel MethodDescriptor (Analysis.parseDescriptor text) (Analysis.parseDescriptor text) := by
  unfold Analysis.parseDescriptor
  split
  · exact composes.returns _
  · exact composes.fails _

omit composes in
/-- A choice is related to one with related sides. -/
private theorem branches {α : Type} {condition : Prop} [Decidable condition]
    {first first' second second' : Analysis α} (yes : Rel α first first')
    (no : Rel α second second') :
    Rel α (if condition then first else second) (if condition then first' else second') := by
  by_cases holds : condition
  · simpa only [if_pos holds] using yes
  · simpa only [if_neg holds] using no

/-! ## Calls -/

/-- An opaque call is related to itself. -/
private theorem opaqueCall (descriptor : String) (hasReceiver : Bool) (f : Frame) :
    Rel Frame (Interpreter.opaqueCall descriptor hasReceiver f)
      (Interpreter.opaqueCall descriptor hasReceiver f) := by
  refine composes.andThen composes.skips fun _ =>
    composes.andThen (composes.parse _) fun parsed => ?_
  refine composes.andThen (composes.lift _) fun popped => ?_
  cases parsed.returnType with
  | none => exact composes.returns _
  | some type => exact composes.returns _

variable (resembles : setting.Resembles setting')
include resembles

/-- Searches for a method are related. -/
private theorem resolveFrom (method : MethodKey) (bound : Nat) (className : Option String) :
    Rel (Option Body) (Interpreter.resolveFrom setting method bound className)
      (Interpreter.resolveFrom setting' method bound className) := by
  induction bound generalizing className with
  | zero => cases className <;> exact composes.fails _
  | succ bound ih =>
      cases className with
      | none => exact composes.fails _
      | some className =>
          rw [Interpreter.resolveFrom, Interpreter.resolveFrom, resembles.isAnalyzed,
            resembles.repository]
          refine branches (composes.andThen (composes.emits _ rfl) fun _ => composes.returns _) ?_
          cases setting.repository.lookup? className with
          | none => exact composes.andThen (composes.emits _ rfl) fun _ => composes.returns _
          | some owner =>
              dsimp only
              cases owner.findMethod? method.name method.descriptor with
              | none => exact ih _
              | some found => exact branches (ih _) (composes.returns _)

/-- Calls are related if their targets are. -/
private theorem invoke (kind : InvokeKind) (method : MethodKey) (f : Frame) :
    Rel Frame (Interpreter.invoke setting callee kind method f)
      (Interpreter.invoke setting' callee' kind method f) := by
  unfold Interpreter.invoke Interpreter.resolve
  rw [resembles.isAnalyzed, resembles.analyzed.length_eq]
  refine branches (composes.opaqueCall _ _ _) ?_
  refine composes.bind (composes.resolveFrom resembles _ _ _) fun found before after resolved => ?_
  cases found with
  | none => exact composes.opaqueCall _ _ _
  | some target =>
      refine composes.andThen (composes.calls target (declares_of_resolveFrom resolved))
        fun result => ?_
      refine composes.andThen (composes.parse _) fun descriptor =>
        composes.andThen (composes.lift _) fun popped => ?_
      exact branches (composes.returns _) (composes.returns _)

/-- Instructions that proceed are related if their reports are. -/
private theorem proceed (instruction : Instruction) (f : Frame)
    (reports : ∀ {after access}, f.transfer instruction = .ok (after, some access) →
      Rel Unit (reportAccess setting body f.pc) (reportAccess setting' body f.pc)) :
    Rel Frame (Interpreter.proceed setting body callee instruction f)
      (Interpreter.proceed setting' body callee' instruction f) := by
  unfold Interpreter.proceed
  split
  · exact composes.invoke resembles _ _ _
  · exact composes.opaqueCall _ _ _
  · refine composes.bind (composes.lift _) fun moved before between lifted =>
      composes.andThen ?_ fun _ => composes.returns _
    obtain ⟨after, unproved⟩ := moved
    cases unproved with
    | none => exact composes.returns ()
    | some access => exact reports (Analysis.lift_eq_ok_iff.mp lifted).1

/-! ## Loops -/

omit resembles in
/-- Repeated passes are related if single passes are. -/
private theorem untilStable {pass pass' : Frame → Analysis Frame} {giveUp giveUp' : Analysis Unit}
    (each : ∀ f, Rel Frame (pass f) (pass' f)) (stop : Rel Unit giveUp giveUp')
    (passes : Nat) (f : Frame) :
    Rel Frame (Interpreter.untilStable pass giveUp passes f)
      (Interpreter.untilStable pass' giveUp' passes f) := by
  induction passes generalizing f with
  | zero => exact composes.andThen stop fun _ => composes.returns _
  | succ passes ih =>
      refine composes.andThen composes.repeats fun _ => composes.andThen (each _) fun after => ?_
      exact branches (ih _) (composes.returns _)

/-- Giving up a loop is related. -/
private theorem loopUnstable (first last : Nat) :
    Rel Unit (Interpreter.loopUnstable setting body first last)
      (Interpreter.loopUnstable setting' body first last) := by
  unfold Interpreter.loopUnstable
  rw [resembles.limits]
  exact composes.emits _ rfl

omit resembles in
private theorem assuming (condition : Condition) (holds : Bool) (f : Frame) :
    Rel Frame (Interpreter.assuming condition holds f) (Interpreter.assuming condition holds f) :=
  composes.andThen (composes.lift _) fun _ => composes.returns _

variable {walk walk' : Walk}
  (walks : ∀ first last f, Rel Frame (walk first last f) (walk' first last f))
include walks

/-- Loops that a jump back closes are related. -/
private theorem jumpLoop (back last : Nat) (f : Frame) :
    Rel Frame (Interpreter.jumpLoop setting body walk back last f)
      (Interpreter.jumpLoop setting' body walk' back last f) := by
  rw [jumpLoop_eq, jumpLoop_eq, resembles.limits]
  refine composes.andThen (composes.emits _ rfl) fun _ => ?_
  exact composes.untilStable (walks _ _) (composes.loopUnstable resembles _ _) _ _

/-- Loops that a branch back closes are related. -/
private theorem branchLoop (condition : Condition) (target : Nat) (f : Frame) :
    Rel Frame (Interpreter.branchLoop setting body walk condition target f)
      (Interpreter.branchLoop setting' body walk' condition target f) := by
  rw [branchLoop_eq, branchLoop_eq, resembles.limits]
  have pass (g : Frame) :
      Rel Frame (branchPass walk condition target f.pc g)
        (branchPass walk' condition target f.pc g) :=
    composes.andThen (composes.assuming _ _ _) fun h => branches (walks _ _ _) (composes.returns _)
  refine composes.andThen (composes.untilStable pass (composes.loopUnstable resembles _ _) _ _)
    fun g => ?_
  exact composes.assuming _ _ _

/-! ## Branches -/

/-- Arms that are taken are related. -/
private theorem takenArm (pc target meeting last : Nat) (f : Frame) :
    Rel Frame (Interpreter.takenArm setting body walk pc target meeting last f)
      (Interpreter.takenArm setting' body walk' pc target meeting last f) := by
  rw [takenArm_eq, takenArm_eq]
  refine composes.andThen (branches (walks _ _ _) (composes.returns _)) fun g => ?_
  unfold closing
  cases g.pendingJump with
  | none => exact composes.returns _
  | some back => exact branches (composes.jumpLoop resembles walks _ _ _) (composes.returns _)

/-- Both arms of a branch are related. -/
private theorem arms (pc target last : Nat) (taken through : Frame) :
    Rel (Frame × Frame) (Interpreter.arms setting body walk pc target last taken through)
      (Interpreter.arms setting' body walk' pc target last taken through) := by
  unfold Interpreter.arms
  cases through.pendingJump with
  | none => exact composes.returns _
  | some meeting =>
      refine branches ?_ ?_
      · refine composes.andThen (composes.emits _ rfl) fun _ => ?_
        exact composes.andThen (composes.takenArm resembles walks _ _ _ _ _) fun _ =>
          composes.returns _
      · exact composes.andThen (composes.jumpLoop resembles walks _ _ _) fun _ => composes.returns _

/-- Branches are related. -/
private theorem branch (last : Nat) (condition : Condition) (target : Nat) (f : Frame) :
    Rel Flow (Interpreter.branch setting body walk last condition target f)
      (Interpreter.branch setting' body walk' last condition target f) := by
  by_cases back : target ≤ f.pc
  · rw [branch_backward _ _ _ _ _ back, branch_backward _ _ _ _ _ back]
    exact composes.andThen (composes.branchLoop resembles walks _ _ _) fun _ => composes.returns _
  · rw [branch_forward _ _ _ _ _ (Nat.lt_of_not_le back),
      branch_forward _ _ _ _ _ (Nat.lt_of_not_le back)]
    refine composes.andThen (composes.lift _) fun popped =>
      composes.andThen (walks _ _ _) fun through => ?_
    exact composes.andThen (composes.arms resembles walks _ _ _ _ _) fun _ => composes.returns _

/-! ## Walks -/

/-- Instructions are related if walks, calls and reports are. -/
theorem step (last : Nat) (instruction : Instruction) (f : Frame)
    (reports : ∀ {after access}, f.transfer instruction = .ok (after, some access) →
      Rel Unit (reportAccess setting body f.pc) (reportAccess setting' body f.pc)) :
    Rel Flow (Interpreter.step setting body callee walk last instruction f)
      (Interpreter.step setting' body callee' walk' last instruction f) := by
  by_cases proceeds : instruction.proceeds = true
  case pos =>
    rw [step_proceeds _ _ _ _ _ proceeds, step_proceeds _ _ _ _ _ proceeds]
    refine composes.andThen (composes.emits _ rfl) fun _ => ?_
    exact composes.andThen (composes.proceed resembles _ _ reports) fun _ => composes.returns _
  case neg =>
    refine composes.andThen (composes.emits _ rfl) fun _ => ?_
    cases instruction with
    | branch condition target => exact composes.branch resembles walks _ _ _ _
    | throw | unsupported => exact composes.fails _
    | ret kind =>
        cases kind with
        | none => exact composes.returns _
        | some kind => exact composes.andThen (composes.lift _) fun _ => composes.returns _
    | _ => exact absurd rfl proceeds

omit walks in
/-- Walks through the same range are related, if their calls are. -/
theorem interpret
    (reports : ∀ position,
      Rel Unit (reportAccess setting body position) (reportAccess setting' body position))
    (fuel first last : Nat) (f : Frame) :
    Rel Frame (Interpreter.interpret setting body callee fuel first last f)
      (Interpreter.interpret setting' body callee' fuel first last f) := by
  induction fuel generalizing first last f with
  | zero =>
      by_cases empty : last < first ∨ body.method.instructions.size ≤ first
      · rw [interpret_empty _ _ _ _ _ empty, interpret_empty _ _ _ _ _ empty]
        exact composes.returns _
      · have found :=
          Array.getElem?_eq_getElem (show first < body.method.instructions.size by omega)
        rw [interpret_zero _ _ _ _ found (by omega), interpret_zero _ _ _ _ found (by omega)]
        exact composes.fails _
  | succ fuel ih =>
      by_cases empty : last < first ∨ body.method.instructions.size ≤ first
      · rw [interpret_empty _ _ _ _ _ empty, interpret_empty _ _ _ _ _ empty]
        exact composes.returns _
      · have found :=
          Array.getElem?_eq_getElem (show first < body.method.instructions.size by omega)
        rw [interpret_step _ _ _ _ _ found (by omega), interpret_step _ _ _ _ _ found (by omega)]
        refine composes.andThen (composes.step resembles ih _ _ _ fun _ => reports _) fun flow => ?_
        cases flow with
        | next g => exact ih _ _ _
        | resume position g => exact ih _ _ _
        | leave g => exact composes.returns _

end Composes

end Interpreter

end ArrayBounds
