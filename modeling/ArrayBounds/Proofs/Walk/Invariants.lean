import ArrayBounds.Proofs.Domain.Closed
import ArrayBounds.Proofs.Walk.Fuel
import ArrayBounds.Proofs.Walk.Passes

/-! # Invariants of walks

A walk changes frames and runs by a few operations only. A property of frames that each of these
operations keeps (`ArrayBounds.Frame.Invariant`) and a property of runs that calls keep
(`ArrayBounds.Interpreter.Respects`) are kept by every walk (`ArrayBounds.Interpreter.keeps_walk`).
-/

namespace ArrayBounds

open Program

/-- A property `F` of frames that the operations of a walk keep, as long as calls give results with
the property `G`. -/
structure Frame.Invariant (F : Frame → Prop) (G : Variable → Prop) : Prop where
  moved : ∀ {f : Frame}, F f → ∀ pc, F { f with pc }
  forked : ∀ {f : Frame}, F f → F f.fork
  drawn : ∀ {f : Frame}, F f → ∀ g, F (f.drawAfter g)
  popped : ∀ {f g : Frame} {count ids}, F f → f.popN count = .ok (ids, g) → F g
  assumed : ∀ {f : Frame}, F f → ∀ condition operands holds,
    F (f.assumeCondition condition operands holds)
  joined : ∀ {f g : Frame}, F f → F g → F (f.join g).1
  recorded : ∀ {f g : Frame} {id}, F f → f.pop = .ok (id, g) → F (g.recordReturn id)
  transferred : ∀ {f g : Frame} {instruction unproved}, F f →
    f.transfer instruction = .ok (g, unproved) → F g
  pushedUnknown : ∀ {f : Frame}, F f → ∀ type, F (f.push (.unknown type f.pc))
  pushedResult : ∀ {f : Frame} {v}, F f → G v →
    F (f.push { v.clearBounds with origin := .localValue, slot := none, definedAt := f.pc })

/-- What holds of all frames is an invariant. -/
theorem Frame.invariant_true : Frame.Invariant (fun _ => True) fun _ => True where
  moved _ _ := trivial
  forked _ := trivial
  drawn _ _ := trivial
  popped _ _ := trivial
  assumed _ _ _ _ := trivial
  joined _ _ := trivial
  recorded _ _ := trivial
  transferred _ _ := trivial
  pushedUnknown _ _ := trivial
  pushedResult _ _ := trivial

/-- Only the fields that say which variables there are matter to a closed frame. -/
theorem Frame.Closed.congr {f g : Frame} (closed : f.Closed) (vars : g.vars = f.vars)
    (stack : g.stack = f.stack) (locals : g.locals = f.locals) (returned : g.returned = f.returned)
    (next : f.nextId ≤ g.nextId) : g.Closed := by
  refine .of_older (fun id held => ?_) (fun id v found target bound => ?_) fun id present => ?_
  · rw [Held, stack, locals, returned] at held
    exact vars ▸ closed.present id held
  · exact vars ▸ closed.targets id v (vars ▸ found) target bound
  · exact Nat.lt_of_lt_of_le (closed.older id (vars ▸ present)) next

/-- To be closed is an invariant of frames. -/
theorem Frame.invariant_closed : Frame.Invariant Frame.Closed fun _ => True where
  moved closed _ := closed.congr rfl rfl rfl rfl (Nat.le_refl _)
  forked closed := closed.congr rfl rfl rfl rfl (Nat.le_refl _)
  drawn closed _ := closed.congr rfl rfl rfl rfl (Nat.le_max_left _ _)
  popped closed popping := (closed.popN popping).closed
  assumed closed condition operands holds := closed.assumeCondition condition operands holds
  joined closed _ := closed.join _
  recorded closed popping := (closed.pop popping).1.closed.recordReturn (closed.pop popping).2
  transferred closed success := (closed.transfer success).closed
  pushedUnknown closed _ := (closed.pushUnbounded rfl rfl Sign.noConfusion).closed
  pushedResult closed _ :=
    (closed.growsPush fun _ bound =>
      absurd bound (Variable.not_isBound_of_unbounded rfl rfl)).closed

/-- To be closed and possible is an invariant of frames, if results of calls are possible. -/
theorem Frame.invariant_possible :
    Frame.Invariant (fun f => f.Closed ∧ f.Possible) fun v => v.sign ≠ .bottom where
  moved here pc := ⟨Frame.invariant_closed.moved here.1 pc, here.2⟩
  forked here := ⟨Frame.invariant_closed.forked here.1, here.2⟩
  drawn here g := ⟨Frame.invariant_closed.drawn here.1 g, here.2⟩
  popped here popping := ⟨(here.1.popN popping).closed, (here.1.popN popping).possible here.2⟩
  assumed here condition operands holds :=
    ⟨here.1.assumeCondition condition operands holds,
      here.2.assumeCondition condition operands holds⟩
  joined here there := ⟨here.1.join _, here.2.join there.2⟩
  recorded here popping :=
    ⟨Frame.invariant_closed.recorded here.1 popping,
      ((here.1.pop popping).1.possible here.2).recordReturn _⟩
  transferred here success :=
    ⟨(here.1.transfer success).closed, (here.1.transfer success).possible here.2⟩
  pushedUnknown here type :=
    ⟨Frame.invariant_closed.pushedUnknown here.1 type, here.2.alloc Sign.noConfusion⟩
  pushedResult here possible :=
    ⟨Frame.invariant_closed.pushedResult here.1 trivial, here.2.alloc possible⟩

/-- The frame that an instruction leaves behind. -/
def Flow.frame : Flow → Frame
  | .next f | .resume _ f | .leave f => f

namespace Interpreter

/-- A property `R` of runs that calls keep, if they raise no errors but those that `E` allows.
Stored results and results of calls have the property `G`. -/
structure Respects (setting : Setting) (callee : Callee) (R : Run → Prop) (E : AnalysisError → Prop)
    (G : Variable → Prop) : Prop where
  same : ∀ {run run' : Run}, R run → run'.inProgress = run.inProgress →
    run'.memo = run.memo → R run'
  stored : ∀ {run : Run} {key v}, R run → run.memo.get? key = some v → G v
  errors : ∀ error, error ≠ .exhausted → E error
  resolved : ∀ {method before error after}, resolve setting method before = .error error after →
    E error
  called : ∀ {target : Body} {run : Run}, setting.Declares target → R run →
    run.memo.get? target.key = none → (∀ v after, callee target run = .ok v after → G v ∧ R after) ∧
      ∀ error after, callee target run = .error error after → E error

/-- A call that keeps an invariant is followed by a run in which it holds. -/
theorem called_of_keeps {callee : Callee} {R : Run → Prop} {E : AnalysisError → Prop}
    {G : Variable → Prop} {target : Body} (keeps : Analysis.Keeps R E (callee target) G) {run : Run}
    (holds : R run) :
    (∀ v after, callee target run = .ok v after → G v ∧ R after) ∧
      ∀ error after, callee target run = .error error after → E error :=
  ⟨fun _ _ success => keeps.ok holds success, fun _ _ failure => keeps.error holds failure⟩

/-- Looking for a method leaves what is in progress and what is stored alone. -/
theorem resolve_still {setting : Setting} {method : MethodKey} {found : Option Body}
    {before after : Run} (success : resolve setting method before = .ok found after) :
    after.inProgress = before.inProgress ∧ after.memo = before.memo := by
  -- A search makes no calls, so it is observed without any.
  have observation : Observation setting ⟨default, default⟩ (fun _ => throw .exhausted)
      fun _ before after => after.inProgress = before.inProgress ∧ after.memo = before.memo :=
    { trans := fun first second => ⟨second.1.trans first.1, second.2.trans first.2⟩
      same := fun _ kept => kept
      reached := Analysis.emit_still
      emitted := fun _ => Analysis.emit_still
      refl := fun _ => ⟨rfl, rfl⟩
      counted := fun _ _ => ⟨rfl, rfl⟩
      reported := fun _ _ => ⟨rfl, rfl⟩
      called := fun _ success => absurd success EStateM.throw_ne_ok }
  exact observation.quiet_resolveFrom method _ _ found before after success

section

open Analysis

variable {setting : Setting} {body : Body} {callee : Callee} {F : Frame → Prop} {R : Run → Prop}
  {E : AnalysisError → Prop} {G : Variable → Prop} (frames : Frame.Invariant F G)
  (runs : Respects setting callee R E G)
include runs

/-! ## Steps without frames -/

/-- Announcements keep invariants. -/
theorem keeps_emit (event : Event) : Keeps R E (emit setting event) fun _ => True :=
  .emit fun _ _ holds => runs.same holds rfl rfl

private theorem keeps_count (change : Statistics → Statistics) :
    Keeps R E (count change) fun _ => True :=
  .modify fun _ holds => runs.same holds rfl rfl

/-- Reading a descriptor keeps every invariant. -/
private theorem keeps_parseDescriptor (text : String) :
    Keeps R E (parseDescriptor text) fun _ => True := by
  unfold parseDescriptor
  split
  · exact .pure trivial
  · exact .throw (runs.errors _ nofun)

/-- A report keeps the invariants. -/
private theorem keeps_reportAccess (position : Nat) :
    Keeps R E (reportAccess setting body position) fun _ => True := by
  refine .bind .get fun run _ => ?_
  split
  · exact .pure trivial
  · exact .bind (.modify fun _ holds => runs.same holds rfl rfl) fun _ _ => keeps_emit runs _

/-- A search keeps the invariants, and finds declared methods. -/
private theorem keeps_resolve (method : MethodKey) :
    Keeps R E (resolve setting method) fun found => ∀ target, found = some target →
      setting.Declares target := by
  intro before holds
  cases done : resolve setting method before with
  | ok found after =>
      obtain ⟨progress, memo⟩ := resolve_still done
      refine ⟨?_, runs.same holds progress memo⟩
      rintro target rfl
      exact declares_of_resolveFrom done
  | error error after => exact runs.resolved done

/-- Looking for a known result first keeps the invariants. -/
private theorem keeps_resultOf {target : Body} (declared : setting.Declares target) :
    Keeps R E (resultOf callee target) G := by
  intro before holds
  rw [resultOf, EStateM.get_bind]
  cases known : before.memo.get? target.key with
  | some v => exact ⟨runs.stored holds known, holds⟩
  | none =>
      obtain ⟨success, failure⟩ := runs.called declared holds known
      dsimp only
      cases done : callee target before with
      | ok v after => exact success v after done
      | error error after => exact failure error after done

/-! ## Instructions -/

include frames

private theorem keeps_popN {f : Frame} (here : F f) (count : Nat) :
    Keeps R E (liftM (f.popN count) : Analysis (List VarId × Frame)) fun popped => F popped.2 :=
  .lift (fun _ popping => frames.popped here popping)
    fun error failure => runs.errors error fun same => f.popN_ne_exhausted count (same ▸ failure)

/-- Taking arguments keeps the invariants. -/
private theorem keeps_popArguments {f : Frame} (here : F f) (descriptor : MethodDescriptor)
    (hasReceiver : Bool) :
    Keeps R E (liftM (popArguments descriptor hasReceiver f) : Analysis Frame) F := by
  refine .lift (fun g success => ?_) fun error failure => runs.errors error ?_
  · obtain ⟨popped, popping, returned⟩ := Except.bind_eq_ok_iff.mp success
    obtain rfl := Except.pure_eq_ok_iff.mp returned
    exact frames.popped here popping
  · rintro rfl
    refine Frame.bind_ne_exhausted (f.popN_ne_exhausted _) (fun popped => ?_) failure
    change Except.ok popped.2 ≠ _
    exact nofun

/-- An opaque call keeps the invariants. -/
private theorem keeps_opaqueCall {f : Frame} (here : F f) (descriptor : String)
    (hasReceiver : Bool) : Keeps R E (opaqueCall descriptor hasReceiver f) F := by
  refine .bind (keeps_count runs _) fun _ _ => ?_
  refine .bind (keeps_parseDescriptor runs _) fun parsed _ => ?_
  refine .bind (keeps_popArguments frames runs here _ _) fun g there => ?_
  split
  · exact .pure (frames.pushedUnknown there _)
  · exact .pure there

/-- A call keeps the invariants. -/
private theorem keeps_invoke {f : Frame} (here : F f) (kind : InvokeKind) (method : MethodKey) :
    Keeps R E (invoke setting callee kind method f) F := by
  unfold invoke
  split
  · exact keeps_opaqueCall frames runs here _ _
  · refine .bind (keeps_resolve runs method) fun found declared => ?_
    cases found with
    | none => exact keeps_opaqueCall frames runs here _ _
    | some target =>
        refine .bind (keeps_resultOf runs (declared target rfl)) fun result good => ?_
        refine .bind (keeps_parseDescriptor runs _) fun descriptor _ => ?_
        refine .bind (keeps_popArguments frames runs here _ _) fun g there => ?_
        split
        · exact .pure there
        · exact .pure (frames.pushedResult there good)

/-- Instructions that are neither branches nor returns keep invariants. -/
theorem keeps_proceed {f : Frame} (here : F f) (instruction : Instruction) :
    Keeps R E (proceed setting body callee instruction f) F := by
  unfold proceed
  split
  · exact keeps_invoke frames runs here _ _
  · exact keeps_opaqueCall frames runs here _ _
  · have transferring :
        Keeps R E (liftM (f.transfer instruction) : Analysis (Frame × Option Access))
        fun moved => F moved.1 :=
      .lift (fun _ success => frames.transferred here success)
        fun error failure => runs.errors error fun same =>
          f.transfer_ne_exhausted instruction (same ▸ failure)
    refine .bind transferring fun moved there => ?_
    refine .bind (Q := fun _ => True) ?_ fun _ _ => .pure there
    split
    · exact keeps_reportAccess runs _
    · exact .pure trivial

/-! ## Loops -/

/-- Assuming a condition keeps invariants. -/
theorem keeps_assuming {f : Frame} (here : F f) (condition : Condition) (holds : Bool) :
    Keeps R E (assuming condition holds f) F :=
  .bind (keeps_popN frames runs here _) fun _ there => .pure (frames.assumed there _ _ _)

/-- Repeated passes keep what each pass keeps. -/
private theorem keeps_untilStable {pass : Frame → Analysis Frame}
    (each : ∀ f, F f → Keeps R E (pass f) F) {giveUp : Analysis Unit}
    (stop : Keeps R E giveUp fun _ => True) (limit : Nat) {f : Frame} (here : F f) :
    Keeps R E (untilStable pass giveUp limit f) F := by
  induction limit generalizing f with
  | zero => exact .bind stop fun _ _ => .pure here
  | succ limit ih =>
      refine .bind (keeps_count runs _) fun _ _ => ?_
      refine .bind (each f.fork (frames.forked here)) fun after there => ?_
      have joined := frames.joined here there
      dsimp only
      split
      · exact ih joined
      · exact .pure joined

variable {walk : Walk} (walks : ∀ first last f, F f → Keeps R E (walk first last f) F)
include walks

private theorem keeps_jumpLoop {f : Frame} (here : F f) (back last : Nat) :
    Keeps R E (jumpLoop setting body walk back last f) F :=
  .bind (keeps_emit runs _) fun _ _ => keeps_untilStable frames runs (walks _ _)
    (keeps_emit runs _) _ here

/-- A pass over a loop keeps invariants if walks do. -/
theorem keeps_branchPass {f : Frame} (here : F f) (condition : Condition) (target pc : Nat) :
    Keeps R E (branchPass walk condition target pc f) F := by
  refine .bind (keeps_assuming frames runs here condition true) fun g there => ?_
  split
  · exact walks _ _ g there
  · exact .pure there

/-- A loop that a branch back closes keeps the invariants. -/
private theorem keeps_branchLoop {f : Frame} (here : F f) (condition : Condition) (target : Nat) :
    Keeps R E (branchLoop setting body walk condition target f) F := by
  rw [branchLoop_eq]
  refine .bind
    (keeps_untilStable frames runs (fun g there => keeps_branchPass frames runs walks there _ _ _)
      (keeps_emit runs _) _ here) fun g there => ?_
  exact keeps_assuming frames runs (frames.moved there _) condition false

/-! ## Branches -/

/-- Closing a stretch keeps the invariants. -/
private theorem keeps_closing {f : Frame} (here : F f) (pc last : Nat) :
    Keeps R E (closing setting body walk pc last f) F := by
  unfold closing
  split
  · split
    · exact keeps_jumpLoop frames runs walks here _ _
    · exact .pure here
  · exact .pure here

/-- The arm that is taken keeps the invariants. -/
private theorem keeps_takenArm {f : Frame} (here : F f) (pc target meeting last : Nat) :
    Keeps R E (takenArm setting body walk pc target meeting last f) F := by
  rw [takenArm_eq]
  refine .bind (Q := F) ?_ fun g there => keeps_closing frames runs walks there _ _
  split
  · exact walks _ _ f here
  · exact .pure here

/-- The arms of a branch keep invariants if walks do. -/
theorem keeps_arms {taken through : Frame} (here : F taken) (there : F through)
    (pc target last : Nat) :
    Keeps R E (arms setting body walk pc target last taken through) fun paths => F paths.1 ∧
      F paths.2 := by
  unfold arms
  split
  · exact .pure ⟨here, there⟩
  · split
    · refine .bind (keeps_emit runs _) fun _ _ => ?_
      refine .bind
        (keeps_takenArm frames runs walks (frames.forked (frames.drawn here through)) _ _ _ _)
        fun arm walked => ?_
      exact .pure ⟨walked, there⟩
    · exact .bind (keeps_jumpLoop frames runs walks there _ _) fun looped walked =>
        .pure ⟨here, walked⟩

/-- A branch keeps the invariants. -/
private theorem keeps_branch {f : Frame} (here : F f) (last : Nat) (condition : Condition)
    (target : Nat) :
    Keeps R E (branch setting body walk last condition target f) fun flow => F flow.frame := by
  by_cases back : target ≤ f.pc
  · rw [branch_backward setting body walk last condition back]
    exact .bind (keeps_branchLoop frames runs walks here _ _) fun g there => .pure there
  · rw [branch_forward setting body walk last condition (Nat.lt_of_not_le back)]
    refine .bind (keeps_popN frames runs here _) fun popped there => ?_
    refine .bind (walks _ _ _ (frames.assumed (frames.forked there) _ _ _)) fun through walked => ?_
    refine .bind (keeps_arms frames runs walks (frames.assumed there _ _ _) walked _ _ _)
      fun paths both => ?_
    exact .pure (frames.joined both.1 both.2)

/-! ## Walks -/

/-- Every instruction keeps invariants if walks do. -/
theorem keeps_step {f : Frame} (here : F f) (last : Nat) (instruction : Instruction) :
    Keeps R E (step setting body callee walk last instruction f) fun flow => F flow.frame := by
  by_cases proceeds : instruction.proceeds = true
  case pos =>
    rw [step_proceeds setting body callee walk last proceeds]
    exact .bind (keeps_emit runs _) fun _ _ =>
      .bind (keeps_proceed frames runs here _) fun g there => .pure there
  case neg =>
    refine .bind (keeps_emit runs _) fun _ _ => ?_
    cases instruction with
    | branch condition target => exact keeps_branch frames runs walks here last condition target
    | throw | unsupported => exact .throw (runs.errors _ nofun)
    | ret kind =>
        cases kind with
        | none => exact .pure here
        | some kind =>
            refine .bind (Q := fun popped => F (popped.2.recordReturn popped.1))
              ?_ fun _ there => .pure there
            exact .lift (fun _ popping => frames.recorded here popping)
              fun error failure => runs.errors error fun same => f.pop_ne_exhausted (same ▸ failure)
    | _ => exact absurd rfl proceeds

omit frames runs in
/-- What comes behind an instruction keeps the invariants. -/
private theorem keeps_continueAt {flow : Flow} (here : F flow.frame) (pc last : Nat) :
    Keeps R E (continueAt walk pc last flow) F := by
  cases flow with
  | next f => exact walks _ _ f here
  | resume position f => exact walks _ _ f here
  | leave f => exact .pure here

omit walks in
/-- Walks keep what their operations keep. -/
theorem keeps_walk {f : Frame} (here : F f) (first last : Nat) :
    Keeps R E (Interpreter.walk setting body callee first last f) F := by
  have good := walk_induction setting body callee (fun f part => F f → Keeps R E part F)
    (fun _ here => .pure here) fun parts walks first last f instruction _ _ here =>
      .bind (keeps_step frames runs walks (frames.moved here first) last instruction) fun _ there =>
        keeps_continueAt walks there first last
  exact good first last f here

end

end Interpreter

end ArrayBounds
