import ArrayBounds.Proofs.Walk.Equations
import ArrayBounds.Proofs.Walk.Sweep

/-! # Walks follow their sweeps

A walk that succeeds visits the positions of the sweep through the same range, and ends with the
control part of the sweep, whatever the values in its frame are
(`ArrayBounds.Interpreter.interpret_follows`). What the visits leave behind in the run is kept open:
an `Observation` is any statement about the runs before and after a walk that can be put together
from its steps.
-/

namespace ArrayBounds

open Program

/-- The body is that of the first method with its name and descriptor in one of the analysed
classes. -/
def Setting.Declares (setting : Setting) (body : Body) : Prop :=
  ∃ className, setting.isAnalyzed className = true ∧
    setting.repository.lookup? className = some body.owner ∧
    body.owner.findMethod? body.method.name body.method.descriptor = some body.method

namespace Interpreter

/-- A statement about the positions that a walk visits and the runs before and after it. It has to
hold of each single step, and must not depend on the order and the number of visits. -/
structure Observation (setting : Setting) (body : Body) (callee : Callee)
    (holds : List Nat → Run → Run → Prop) : Prop where
  trans : ∀ {visited more before between after}, holds visited before between →
    holds more between after → holds (visited ++ more) before after
  same : ∀ {visited others before after}, (∀ i, i ∈ visited ↔ i ∈ others) →
    holds visited before after → holds others before after
  reached : ∀ {pc before after}, Analysis.emit setting (.instructionReached body.key pc)
    before = .ok () after → holds [pc] before after
  emitted : ∀ {event before after}, (∀ key pc, event ≠ .instructionReached key pc) →
    Analysis.emit setting event before = .ok () after → holds [] before after
  refl : ∀ run, holds [] run run
  counted : ∀ (change : Statistics → Statistics) (run : Run),
    holds [] run { run with statistics := change run.statistics }
  reported : ∀ (report : Report) (run : Run),
    holds [] run { run with findings := run.findings.insert report }
  called : ∀ {target result before after}, setting.Declares target →
    callee target before = .ok result after → holds [] before after

/-- A walk that succeeds makes the visits of the sweep. -/
def Follows (holds : List Nat → Run → Run → Prop) (walk : Walk) (sweep : Sweep.Sweeper) : Prop :=
  ∀ first last f before g after, walk first last f before = .ok g after →
    ∃ s, sweep first last f.control = some s ∧ g.control = s.control ∧ holds s.visited before after

/-- A step that visits no position by itself. -/
def Quiet {α : Type} (holds : List Nat → Run → Run → Prop) (part : Analysis α) : Prop :=
  ∀ result before after, part before = .ok result after → holds [] before after

variable {setting : Setting} {body : Body} {callee : Callee} {holds : List Nat → Run → Run → Prop}

/-- Whatever a call leads to is declared in an analysed class. -/
theorem declares_of_resolveFrom {method : MethodKey} {bound : Nat} {className : Option String}
    {target : Body} {before after : Run}
    (success : resolveFrom setting method bound className before = .ok (some target) after) :
    setting.Declares target := by
  induction bound generalizing className with
  | zero => cases className <;> cases success
  | succ bound ih =>
      cases className with
      | none => cases success
      | some className =>
          rw [resolveFrom] at success
          by_cases analyzed : setting.isAnalyzed className = true
          · simp only [analyzed, Bool.not_true, Bool.false_eq_true, if_false] at success
            cases stored : setting.repository.lookup? className with
            | none =>
                simp only [stored] at success
                obtain ⟨_, _, -, success⟩ := EStateM.bind_eq_ok_iff.mp success
                cases success
            | some owner =>
                simp only [stored] at success
                cases searched : owner.findMethod? method.name method.descriptor with
                | none =>
                    simp only [searched] at success
                    exact ih success
                | some found =>
                    simp only [searched] at success
                    split at success
                    · exact ih success
                    · obtain ⟨same, -⟩ := EStateM.pure_eq_ok_iff.mp success
                      obtain rfl := Option.some.inj same
                      have matched := List.find?_some searched
                      simp only [Bool.and_eq_true, beq_iff_eq] at matched
                      exact ⟨className, analyzed, stored, by
                        rw [matched.1, matched.2]; exact searched⟩
          · simp only [analyzed, Bool.not_false, if_true] at success
            obtain ⟨_, _, -, success⟩ := EStateM.bind_eq_ok_iff.mp success
            cases success

namespace Observation

variable {α β : Type} (observation : Observation setting body callee holds)
include observation

/-! ## Steps without visits -/

/-- A sequence is quiet if its parts are, where they are carried out. -/
private theorem quiet_bind_of {first : Analysis α} {next : α → Analysis β}
    (start : Quiet holds first) (rest : ∀ value before after, first before = .ok value after →
      Quiet holds (next value)) : Quiet holds (first >>= next) := by
  intro result before after success
  obtain ⟨value, between, done, success⟩ := EStateM.bind_eq_ok_iff.mp success
  exact observation.trans (start value before between done)
    (rest value before between done result between after success)

private theorem quiet_bind {first : Analysis α} {next : α → Analysis β} (start : Quiet holds first)
    (rest : ∀ value, Quiet holds (next value)) : Quiet holds (first >>= next) :=
  observation.quiet_bind_of start fun value _ _ _ => rest value

private theorem quiet_pure (value : α) : Quiet holds (pure value) := by
  intro result before after success
  obtain ⟨-, rfl⟩ := EStateM.pure_eq_ok_iff.mp success
  exact observation.refl _

omit observation in
private theorem quiet_throw (error : AnalysisError) : Quiet holds (throw error : Analysis α) := by
  intro result before after success
  exact absurd success EStateM.throw_ne_ok

private theorem quiet_lift (part : Except AnalysisError α) :
    Quiet holds (liftM part : Analysis α) := by
  intro result before after success
  obtain ⟨-, rfl⟩ := Analysis.lift_eq_ok_iff.mp success
  exact observation.refl _

private theorem quiet_get : Quiet holds (get : Analysis Run) := by
  intro result before after success
  obtain ⟨-, rfl⟩ := EStateM.get_eq_ok_iff.mp success
  exact observation.refl _

private theorem quiet_emit {event : Event} (other : ∀ key pc, event ≠ .instructionReached key pc) :
    Quiet holds (Analysis.emit setting event) :=
  fun _ _ _ success => observation.emitted other success

private theorem quiet_count (change : Statistics → Statistics) :
    Quiet holds (Analysis.count change) := by
  intro result before after success
  obtain rfl := EStateM.modify_eq_ok_iff.mp success
  exact observation.counted change before

/-- Reading a descriptor is quiet. -/
private theorem quiet_parseDescriptor (text : String) :
    Quiet holds (Analysis.parseDescriptor text) := by
  unfold Analysis.parseDescriptor
  split
  · exact observation.quiet_pure _
  · exact quiet_throw _

/-- A report is quiet. -/
private theorem quiet_reportAccess (position : Nat) :
    Quiet holds (reportAccess setting body position) := by
  refine observation.quiet_bind observation.quiet_get fun run => ?_
  split
  · exact observation.quiet_pure _
  · refine observation.quiet_bind ?_ fun _ =>
      observation.quiet_emit (by intro key pc same; cases same)
    intro result before after success
    obtain rfl := EStateM.modify_eq_ok_iff.mp success
    exact observation.reported (body.report position) before

/-! ## Calls -/

/-- An opaque call is quiet. -/
private theorem quiet_opaqueCall (descriptor : String) (hasReceiver : Bool) (f : Frame) :
    Quiet holds (opaqueCall descriptor hasReceiver f) := by
  refine observation.quiet_bind (observation.quiet_count _) fun _ => ?_
  refine observation.quiet_bind (observation.quiet_parseDescriptor _) fun parsed => ?_
  refine observation.quiet_bind (observation.quiet_lift _) fun popped => ?_
  split <;> exact observation.quiet_pure _

/-- The search for a method reaches no instruction. -/
theorem quiet_resolveFrom (method : MethodKey) (bound : Nat) (className : Option String) :
    Quiet holds (resolveFrom setting method bound className) := by
  induction bound generalizing className with
  | zero =>
      cases className with
      | none => exact quiet_throw _
      | some className => exact quiet_throw _
  | succ bound ih =>
      cases className with
      | none => exact quiet_throw _
      | some className =>
          unfold resolveFrom
          split
          · exact observation.quiet_bind (observation.quiet_emit (by intro key pc same; cases same))
              fun _ => observation.quiet_pure _
          · split
            · exact observation.quiet_bind
                (observation.quiet_emit (by intro key pc same; cases same))
                fun _ => observation.quiet_pure _
            · split
              · split
                · exact ih _
                · exact observation.quiet_pure _
              · exact ih _

/-- The result of a declared method is found quietly. -/
private theorem quiet_resultOf {target : Body} (declared : setting.Declares target) :
    Quiet holds (resultOf callee target) := by
  refine observation.quiet_bind observation.quiet_get fun run => ?_
  split
  · exact observation.quiet_pure _
  · exact fun _ _ _ success => observation.called declared success

/-- A call is quiet. -/
private theorem quiet_invoke (kind : InvokeKind) (method : MethodKey) (f : Frame) :
    Quiet holds (invoke setting callee kind method f) := by
  unfold invoke
  split
  · exact observation.quiet_opaqueCall _ _ _
  · refine observation.quiet_bind_of (observation.quiet_resolveFrom _ _ _)
      fun found before after resolved => ?_
    split
    · exact observation.quiet_opaqueCall _ _ _
    · refine observation.quiet_bind (observation.quiet_resultOf (declares_of_resolveFrom resolved))
        fun result => ?_
      refine observation.quiet_bind (observation.quiet_parseDescriptor _) fun descriptor => ?_
      refine observation.quiet_bind (observation.quiet_lift _) fun popped => ?_
      split <;> exact observation.quiet_pure _

end Observation

/-- Taking arguments does not move the walk. -/
private theorem control_popArguments {descriptor : MethodDescriptor}
    {hasReceiver : Bool} {f g : Frame} (success : popArguments descriptor hasReceiver f = .ok g) :
    g.control = f.control := by
  unfold popArguments at success
  obtain ⟨⟨ids, popped⟩, popping, returned⟩ := Except.bind_eq_ok_iff.mp success
  rw [← Except.pure_eq_ok_iff.mp returned]
  exact Frame.control_popN popping

/-- An opaque call does not move the walk. -/
private theorem control_opaqueCall {descriptor : String} {hasReceiver : Bool} {f g : Frame}
    {before after : Run} (success : opaqueCall descriptor hasReceiver f before = .ok g after) :
    g.control = f.control := by
  unfold opaqueCall at success
  obtain ⟨_, _, -, success⟩ := EStateM.bind_eq_ok_iff.mp success
  obtain ⟨parsed, _, -, success⟩ := EStateM.bind_eq_ok_iff.mp success
  obtain ⟨popped, _, popping, success⟩ := EStateM.bind_eq_ok_iff.mp success
  have kept := control_popArguments (Analysis.lift_eq_ok_iff.mp popping).1
  cases type : parsed.returnType with
  | none =>
      simp only [type, EStateM.pure_eq_ok_iff] at success
      rw [← success.1, kept]
  | some type' =>
      simp only [type, EStateM.pure_eq_ok_iff] at success
      rw [← success.1, Frame.control_push, kept]

/-- A call does not move the walk. -/
private theorem control_invoke {kind : InvokeKind} {method : MethodKey} {f g : Frame}
    {before after : Run} (success : invoke setting callee kind method f before = .ok g after) :
    g.control = f.control := by
  unfold invoke at success
  split at success
  · exact control_opaqueCall success
  · obtain ⟨found, _, -, success⟩ := EStateM.bind_eq_ok_iff.mp success
    split at success
    · exact control_opaqueCall success
    · obtain ⟨result, _, -, success⟩ := EStateM.bind_eq_ok_iff.mp success
      obtain ⟨descriptor, _, -, success⟩ := EStateM.bind_eq_ok_iff.mp success
      obtain ⟨popped, _, popping, success⟩ := EStateM.bind_eq_ok_iff.mp success
      have kept := control_popArguments (Analysis.lift_eq_ok_iff.mp popping).1
      split at success
      · rw [← (EStateM.pure_eq_ok_iff.mp success).1, kept]
      · rw [← (EStateM.pure_eq_ok_iff.mp success).1, Frame.control_push, kept]

/-! ## Loops -/

/-- Each pass over a loop makes the same visits, and none of them moves the control part. -/
theorem untilStable_follows (observation : Observation setting body callee holds)
    {pass : Frame → Analysis Frame} {giveUp : Analysis Unit} (quiet : Quiet holds giveUp)
    {c : Control} {outcome : Option Sweep}
    (each : ∀ f before g after, f.control = c.fork → pass f before = .ok g after →
      ∃ s, outcome = some s ∧ g.pc ≤ c.pc ∧ holds s.visited before after) {passes : Nat}
    {f g : Frame} {before after : Run} (start : f.control = c)
    (success : untilStable pass giveUp passes f before = .ok g after) :
    ∃ visited, (if passes = 0 then some [] else outcome.map (·.visited)) = some visited ∧
      g.control = c ∧ holds visited before after := by
  induction passes generalizing f before with
  | zero =>
      obtain ⟨_, between, gaveUp, success⟩ := EStateM.bind_eq_ok_iff.mp success
      obtain ⟨rfl, rfl⟩ := EStateM.pure_eq_ok_iff.mp success
      exact ⟨[], rfl, start, quiet _ _ _ gaveUp⟩
  | succ passes ih =>
      obtain ⟨_, counted, counting, success⟩ := EStateM.bind_eq_ok_iff.mp success
      obtain ⟨ahead, passed, passing, success⟩ := EStateM.bind_eq_ok_iff.mp success
      obtain ⟨s, rfl, early, visits⟩ :=
        each f.fork counted ahead passed (by rw [Frame.control_fork, start]) passing
      have joined : (f.join ahead).1.control = c := by
        rw [Frame.control_join, start]
        exact Control.join_of_pc_le early
      have first := observation.trans (observation.quiet_count _ _ _ _ counting) visits
      refine ⟨s.visited, rfl, ?_⟩
      dsimp only at success
      split at success
      · obtain ⟨more, outcome, kept, rest⟩ := ih joined success
        refine ⟨kept, observation.same ?_ (observation.trans first rest)⟩
        intro i
        split at outcome
        · obtain rfl := Option.some.inj outcome
          simp
        · obtain rfl := Option.some.inj outcome
          simp
      · obtain ⟨rfl, rfl⟩ := EStateM.pure_eq_ok_iff.mp success
        exact ⟨joined, observation.same (by simp) first⟩

/-- A sweep does not end behind the end of its range, except where it started. -/
theorem pc_le_of_sweep {sweep : Sweep.Sweeper}
    (thorough : Sweep.IsThorough body.method.instructions sweep) {first last : Nat} {c : Control}
    {s : Sweep} (before : last ≤ c.pc) (swept : sweep first last c = some s) :
    s.control.pc ≤ c.pc := by
  by_cases live : first ≤ last ∧ first < body.method.instructions.size
  · exact Nat.le_trans ((thorough _ _ _ _ swept).1 live.1 live.2).pc_le_last before
  · have same := (thorough _ _ _ _ swept).2 (by omega)
    exact Nat.le_of_eq (congrArg (fun s : Sweep => s.control.pc) same)

/-- A loop that a jump closes makes the visits of its range. -/
theorem jumpLoop_follows (observation : Observation setting body callee holds) {walk : Walk}
    {sweep : Sweep.Sweeper} (follows : Follows holds walk sweep)
    (thorough : Sweep.IsThorough body.method.instructions sweep) {back last : Nat} {f g : Frame}
    {before after : Run} (success : jumpLoop setting body walk back last f before = .ok g after) :
    ∃ visited, Sweep.repeated setting.limits.loopPasses sweep back (min (f.pc - 1) last) f.control =
      some visited ∧ g.control = f.control ∧ holds visited before after := by
  obtain ⟨_, between, found, success⟩ := EStateM.bind_eq_ok_iff.mp success
  have announced := observation.emitted (by intro key pc same; cases same) found
  have quiet : Quiet holds (loopUnstable setting body back (min (f.pc - 1) last)) :=
    observation.quiet_emit (by intro key pc same; cases same)
  have each : ∀ h earlier g later, h.control = f.control.fork →
      walk back (min (f.pc - 1) last) h earlier = .ok g later →
      ∃ s, sweep back (min (f.pc - 1) last) f.control.fork = some s ∧ g.pc ≤ f.control.pc ∧
        holds s.visited earlier later := by
    intro h earlier g later start passing
    obtain ⟨s, swept, ended, visits⟩ := follows _ _ _ _ _ _ passing
    rw [start] at swept
    have bound :=
      pc_le_of_sweep thorough (by simp only [Control.fork, Frame.control_pc]; omega) swept
    rw [← ended] at bound
    exact ⟨s, swept, bound, visits⟩
  obtain ⟨visited, repeats, kept, visits⟩ := untilStable_follows observation quiet each rfl success
  exact ⟨visited, repeats, kept, observation.trans announced visits⟩

/-- Assuming a condition changes nothing but values. -/
theorem control_assuming {condition : Condition} {outcome : Bool} {f g : Frame} {before after : Run}
    (success : assuming condition outcome f before = .ok g after) :
    g.control = f.control ∧ before = after := by
  obtain ⟨⟨operands, popped⟩, _, popping, success⟩ := EStateM.bind_eq_ok_iff.mp success
  obtain ⟨rfl, rfl⟩ := EStateM.pure_eq_ok_iff.mp success
  obtain ⟨found, rfl⟩ := Analysis.lift_eq_ok_iff.mp popping
  exact ⟨by rw [Frame.control_assumeCondition, Frame.control_popN found], rfl⟩

/-- The sweep of one pass over a loop that a branch at `c.pc` closes. If the branch goes back to
itself there is nothing to walk through, and a pass only looks at the operands. -/
def branchRange (sweep : Sweep.Sweeper) (target : Nat) (c : Control) : Option Sweep :=
  if target < c.pc then sweep target (c.pc - 1) c.fork else some { control := c.fork }

/-- A pass over a loop that a branch back closes follows the sweep. -/
private theorem branchPass_follows
    (observation : Observation setting body callee holds) {walk : Walk} {sweep : Sweep.Sweeper}
    (follows : Follows holds walk sweep)
    (thorough : Sweep.IsThorough body.method.instructions sweep) {condition : Condition}
    {target : Nat} {c : Control} {f g : Frame} {before after : Run} (start : f.control = c.fork)
    (success : branchPass walk condition target c.pc f before = .ok g after) :
    ∃ s, branchRange sweep target c = some s ∧ g.pc ≤ c.pc ∧ holds s.visited before after := by
  obtain ⟨taken, _, assumed, success⟩ := EStateM.bind_eq_ok_iff.mp success
  obtain ⟨kept, rfl⟩ := control_assuming assumed
  rw [start] at kept
  unfold branchRange
  split at success
  case isTrue before =>
    obtain ⟨s, swept, ended, visits⟩ := follows _ _ _ _ _ _ success
    rw [kept] at swept
    have bound := pc_le_of_sweep thorough (by simp only [Control.fork]; omega) swept
    rw [← ended] at bound
    exact ⟨s, by rw [if_pos before, swept], bound, visits⟩
  case isFalse same =>
    obtain ⟨rfl, rfl⟩ := EStateM.pure_eq_ok_iff.mp success
    exact ⟨_, if_neg same, Nat.le_of_eq (congrArg Control.pc kept), observation.refl _⟩

/-- A loop that a branch closes makes the visits of its range, and ends at the branch. -/
theorem branchLoop_follows (observation : Observation setting body callee holds) {walk : Walk}
    {sweep : Sweep.Sweeper} (follows : Follows holds walk sweep)
    (thorough : Sweep.IsThorough body.method.instructions sweep) {condition : Condition}
    {target : Nat} {f g : Frame} {before after : Run}
    (success : branchLoop setting body walk condition target f before = .ok g after) :
    ∃ visited,
      (if target < f.pc then Sweep.repeated setting.limits.loopPasses sweep target
        (f.pc - 1) f.control
        else some []) = some visited ∧ g.control = f.control ∧ holds visited before after := by
  rw [branchLoop_eq] at success
  obtain ⟨stable, _, looping, success⟩ := EStateM.bind_eq_ok_iff.mp success
  obtain ⟨left, rfl⟩ := control_assuming success
  have quiet : Quiet holds (loopUnstable setting body target f.pc) :=
    observation.quiet_emit (by intro key pc same; cases same)
  have each : ∀ h earlier g later, h.control = f.control.fork →
      branchPass walk condition target f.pc h earlier = .ok g later →
      ∃ s, branchRange sweep target f.control = some s ∧ g.pc ≤ f.control.pc ∧
        holds s.visited earlier later :=
    fun h earlier g later start passing =>
      branchPass_follows observation follows thorough start passing
  obtain ⟨visited, repeats, kept, visits⟩ := untilStable_follows observation quiet each rfl looping
  refine ⟨visited, ?_, ?_, visits⟩
  · unfold Sweep.repeated
    rw [← repeats]
    unfold branchRange
    split <;> rename_i range
    · simp only [Frame.control_pc, range, ↓reduceIte]
    · simp only [Frame.control_pc, range, ↓reduceIte, Option.map_some, ite_self]
  · rw [left]
    exact congrArg (fun c : Control => { c with pc := f.pc }) kept

/-! ## Branches -/

/-- The loop behind an arm makes the visits of its range, if there is such a loop. -/
theorem closing_follows (observation : Observation setting body callee holds) {walk : Walk}
    {sweep : Sweep.Sweeper} (follows : Follows holds walk sweep)
    (thorough : Sweep.IsThorough body.method.instructions sweep) {pc last : Nat} {f g : Frame}
    {before after : Run} (success : closing setting body walk pc last f before = .ok g after) :
    ∃ visited, Sweep.closing setting.limits.loopPasses sweep pc last f.control = some visited ∧
      g.control = f.control ∧ holds visited before after := by
  have stay (passing : (pure f : Analysis Frame) before = .ok g after) :
      g.control = f.control ∧ holds [] before after := by
    obtain ⟨rfl, rfl⟩ := EStateM.pure_eq_ok_iff.mp passing
    exact ⟨rfl, observation.refl _⟩
  unfold closing at success
  unfold Sweep.closing
  rw [Frame.control_pendingJump]
  cases pending : f.pendingJump with
  | none =>
      simp only [pending] at success
      exact ⟨[], rfl, stay success⟩
  | some back =>
      simp only [pending] at success ⊢
      split at success
      case isTrue earlier =>
        rw [if_pos earlier]
        exact jumpLoop_follows observation follows thorough success
      case isFalse later =>
        rw [if_neg later]
        exact ⟨[], rfl, stay success⟩

/-- The arm at the target of a branch makes the visits of its range, and of the loop behind it. -/
theorem takenArm_follows (observation : Observation setting body callee holds) {walk : Walk}
    {sweep : Sweep.Sweeper} (follows : Follows holds walk sweep)
    (thorough : Sweep.IsThorough body.method.instructions sweep) {target meeting last : Nat}
    {c : Control} {f g : Frame} {before after : Run} (start : f.control = c.fork)
    (success : takenArm setting body walk c.pc target meeting last f before = .ok g after) :
    ∃ arm, Sweep.takenArm setting.limits.loopPasses sweep target meeting last c = some arm ∧
      g.control = arm.control ∧ holds arm.visited before after := by
  rw [takenArm_eq] at success
  obtain ⟨walked, between, walking, closed⟩ := EStateM.bind_eq_ok_iff.mp success
  obtain ⟨again, repeats, kept, more⟩ := closing_follows observation follows thorough closed
  unfold Sweep.takenArm
  split at walking
  case isTrue ahead =>
    obtain ⟨s, swept, ended, visits⟩ := follows _ _ _ _ _ _ walking
    rw [start] at swept
    rw [ended] at repeats kept
    exact ⟨{ s with visited := s.visited ++ again }, by
      simp only [ahead, ↓reduceIte, swept, Option.bind_some, repeats, Option.map_some], kept,
        observation.trans visits more⟩
  case isFalse empty =>
    obtain ⟨rfl, rfl⟩ := EStateM.pure_eq_ok_iff.mp walking
    rw [start] at repeats kept
    exact ⟨{ control := c.fork, visited := again }, by
      simp only [empty, ↓reduceIte, Option.bind_some, repeats, Option.map_some, List.nil_append],
        kept, more⟩

/-- The arms of a forward branch make the visits of the hop from it, and meet with its control
part. -/
theorem arms_follows (observation : Observation setting body callee holds) {walk : Walk}
    {sweep : Sweep.Sweeper} (follows : Follows holds walk sweep)
    (thorough : Sweep.IsThorough body.method.instructions sweep) {target last : Nat} {c : Control}
    {s : Sweep} {taken through : Frame} {paths : Frame × Frame} {before after : Run}
    (atBranch : taken.control = c) (behind : through.control = s.control)
    (success : arms setting body walk c.pc target last taken through before = .ok paths after) :
    ∃ visited, Sweep.forward setting.limits.loopPasses sweep last target c s =
        some (Sweep.meet target paths.1.control paths.2.control (s.visited ++ visited)) ∧
      holds visited before after := by
  unfold arms at success
  unfold Sweep.forward
  rw [← behind, Frame.control_pendingJump]
  cases pending : through.pendingJump with
  | none =>
      simp only [pending] at success
      obtain ⟨rfl, rfl⟩ := EStateM.pure_eq_ok_iff.mp success
      exact ⟨[], by simp only [atBranch, List.append_nil], observation.refl _⟩
  | some meeting =>
      simp only [pending] at success ⊢
      split at success
      case isTrue later =>
        obtain ⟨_, announced, found, success⟩ := EStateM.bind_eq_ok_iff.mp success
        obtain ⟨walked, between, walking, success⟩ := EStateM.bind_eq_ok_iff.mp success
        obtain ⟨rfl, rfl⟩ := EStateM.pure_eq_ok_iff.mp success
        have start : (taken.drawAfter through).fork.control = c.fork := by
          rw [Frame.control_fork, Frame.control_drawAfter, atBranch]
        obtain ⟨arm, swept, ended, visits⟩ :=
          takenArm_follows observation follows thorough start walking
        refine ⟨arm.visited, ?_, ?_⟩
        · simp only [later, ↓reduceIte, swept, Option.map_some, ended]
        · exact observation.trans
            (observation.emitted (by intro key pc same; cases same) found) visits
      case isFalse earlier =>
        obtain ⟨looped, between, looping, success⟩ := EStateM.bind_eq_ok_iff.mp success
        obtain ⟨rfl, rfl⟩ := EStateM.pure_eq_ok_iff.mp success
        obtain ⟨visited, repeats, kept, visits⟩ :=
          jumpLoop_follows observation follows thorough looping
        refine ⟨visited, ?_, visits⟩
        simp only [earlier, ↓reduceIte, Frame.control_pc, repeats, Option.map_some, kept, atBranch]

/-! ## Instructions -/

/-- What comes after an instruction is what the sweep says. -/
def Matches (pc : Nat) (hop : Sweep.Hop) : Flow → Prop
  | .next f => hop.next = some (pc + 1) ∧ f.control = hop.control
  | .resume position f => hop.next = some position ∧ f.control = hop.control
  | .leave f => hop.next = none ∧ f.control = hop.control

/-- A branch makes the visits of the hop from it. -/
theorem branch_follows (observation : Observation setting body callee holds) {walk : Walk}
    {sweep : Sweep.Sweeper} (follows : Follows holds walk sweep)
    (thorough : Sweep.IsThorough body.method.instructions sweep) {last : Nat}
    {condition : Condition} {target : Nat} {f : Frame} {flow : Flow} {before after : Run}
    (success : branch setting body walk last condition target f before = .ok flow after) :
    ∃ hop, Sweep.branch setting.limits.loopPasses sweep last target f.control = some hop ∧
      Matches f.pc hop flow ∧ holds hop.visited before after := by
  unfold Sweep.branch
  by_cases back : target ≤ f.pc
  · rw [branch_backward setting body walk last condition back] at success
    obtain ⟨g, between, looping, success⟩ := EStateM.bind_eq_ok_iff.mp success
    obtain ⟨rfl, rfl⟩ := EStateM.pure_eq_ok_iff.mp success
    obtain ⟨visited, repeats, kept, visits⟩ :=
      branchLoop_follows observation follows thorough looping
    rw [Frame.control_pc, if_pos back, repeats]
    exact ⟨_, rfl, ⟨rfl, kept⟩, visits⟩
  · rw [branch_forward setting body walk last condition (Nat.lt_of_not_le back)] at success
    obtain ⟨⟨operands, popped⟩, _, popping, success⟩ := EStateM.bind_eq_ok_iff.mp success
    obtain ⟨through, between, walking, success⟩ := EStateM.bind_eq_ok_iff.mp success
    obtain ⟨paths, met, walkingArms, success⟩ := EStateM.bind_eq_ok_iff.mp success
    obtain ⟨rfl, rfl⟩ := EStateM.pure_eq_ok_iff.mp success
    have kept := Frame.control_popN (Analysis.lift_eq_ok_iff.mp popping).1
    obtain rfl := (Analysis.lift_eq_ok_iff.mp popping).2
    obtain ⟨s, swept, ended, visits⟩ := follows _ _ _ _ _ _ walking
    rw [Frame.control_assumeCondition, Frame.control_fork, kept] at swept
    have atBranch : (popped.assumeCondition condition operands true).control = f.control := by
      rw [Frame.control_assumeCondition, kept]
    obtain ⟨more, met, visitsMore⟩ :=
      arms_follows observation follows thorough atBranch ended walkingArms
    simp only [Frame.control_pc, back, ↓reduceIte, swept, Option.bind_some, met]
    refine ⟨_, rfl, ⟨?_, Frame.control_join _ _⟩, observation.trans visits visitsMore⟩
    rw [← Frame.control_pc, Frame.control_join]
    rfl

/-- How an instruction moves the walk depends on the instruction alone. -/
theorem control_proceed {instruction : Instruction} {f g : Frame} {before after : Run}
    (success : proceed setting body callee instruction f before = .ok g after) :
    g.control = f.control.after instruction := by
  unfold proceed at success
  split at success
  · exact control_invoke success
  · exact control_opaqueCall success
  · obtain ⟨⟨moved, unproved⟩, _, transferring, success⟩ := EStateM.bind_eq_ok_iff.mp success
    obtain ⟨⟨⟩, _, -, success⟩ := EStateM.bind_eq_ok_iff.mp success
    obtain ⟨rfl, -⟩ := EStateM.pure_eq_ok_iff.mp success
    exact Frame.control_transfer (Analysis.lift_eq_ok_iff.mp transferring).1

/-- Instructions that proceed are quiet. -/
private theorem Observation.quiet_proceed (observation : Observation setting body callee holds)
    (instruction : Instruction) (f : Frame) :
    Quiet holds (proceed setting body callee instruction f) := by
  unfold proceed
  split
  · exact observation.quiet_invoke _ _ _
  · exact observation.quiet_opaqueCall _ _ _
  · refine observation.quiet_bind (observation.quiet_lift _) fun moved => ?_
    refine observation.quiet_bind ?_ fun _ => observation.quiet_pure _
    split
    · exact observation.quiet_reportAccess _
    · exact observation.quiet_pure _

/-- An instruction makes the visits of the hop from it, besides its own. -/
theorem step_follows (observation : Observation setting body callee holds) {walk : Walk}
    {sweep : Sweep.Sweeper} (follows : Follows holds walk sweep)
    (thorough : Sweep.IsThorough body.method.instructions sweep) {last : Nat}
    {instruction : Instruction} {f : Frame} {flow : Flow} {before after : Run}
    (success : step setting body callee walk last instruction f before = .ok flow after) :
    ∃ hop, Sweep.step setting.limits.loopPasses sweep last instruction f.control = some hop ∧
      Matches f.pc hop flow ∧ holds (f.pc :: hop.visited) before after := by
  by_cases proceeds : instruction.proceeds = true
  case pos =>
    rw [step_proceeds setting body callee walk last proceeds] at success
    obtain ⟨⟨⟩, entered, announced, success⟩ := EStateM.bind_eq_ok_iff.mp success
    obtain ⟨g, _, moved, success⟩ := EStateM.bind_eq_ok_iff.mp success
    obtain ⟨rfl, rfl⟩ := EStateM.pure_eq_ok_iff.mp success
    exact ⟨_, Sweep.step_proceeds proceeds, ⟨rfl, control_proceed moved⟩,
      observation.trans (observation.reached announced) (observation.quiet_proceed _ _ _ _ _ moved)⟩
  case neg =>
    obtain ⟨⟨⟩, entered, announced, success⟩ := EStateM.bind_eq_ok_iff.mp success
    have here : holds [f.pc] before entered := observation.reached announced
    cases instruction with
    | branch condition target =>
        obtain ⟨hop, hopped, matched, visits⟩ := branch_follows observation follows thorough success
        exact ⟨hop, hopped, matched, observation.trans here visits⟩
    | throw | unsupported => exact absurd success EStateM.throw_ne_ok
    | ret kind =>
        cases kind with
        | none =>
            obtain ⟨rfl, rfl⟩ := EStateM.pure_eq_ok_iff.mp success
            exact ⟨_, rfl, ⟨rfl, rfl⟩, here⟩
        | some kind =>
            obtain ⟨⟨id, g⟩, _, popping, success⟩ := EStateM.bind_eq_ok_iff.mp success
            obtain ⟨popped, rfl⟩ := Analysis.lift_eq_ok_iff.mp popping
            obtain ⟨rfl, rfl⟩ := EStateM.pure_eq_ok_iff.mp success
            exact ⟨_, rfl, ⟨rfl, by rw [Frame.control_recordReturn, Frame.control_pop popped]⟩,
              here⟩
    | _ => exact absurd rfl proceeds

/-! ## Walks -/

/-- What comes behind an instruction follows the sweep. -/
private theorem continueAt_follows (observation : Observation setting body callee holds)
    {walk : Walk} {sweep : Sweep.Sweeper} (follows : Follows holds walk sweep) {pc last : Nat}
    {hop : Sweep.Hop} {flow : Flow} {g : Frame} {before after : Run} (matched : Matches pc hop flow)
    (success : continueAt walk pc last flow before = .ok g after) :
    ∃ rest, Sweep.follow sweep last hop = some rest ∧ g.control = rest.control ∧
      holds rest.visited before after := by
  unfold Sweep.follow
  cases flow with
  | next f =>
      obtain ⟨next, kept⟩ := matched
      rw [next, ← kept]
      exact follows _ _ _ _ _ _ success
  | resume position f =>
      obtain ⟨next, kept⟩ := matched
      rw [next, ← kept]
      exact follows _ _ _ _ _ _ success
  | leave f =>
      obtain ⟨next, kept⟩ := matched
      obtain ⟨rfl, rfl⟩ := EStateM.pure_eq_ok_iff.mp success
      rw [next]
      exact ⟨_, rfl, kept, observation.refl _⟩

/-- A walk that succeeds visits what the sweep through the same range visits, and ends with its
control part. -/
theorem interpret_follows (observation : Observation setting body callee holds) (fuel : Nat) :
    Follows holds (interpret setting body callee fuel)
      (Sweep.run body.method.instructions setting.limits.loopPasses fuel) := by
  induction fuel with
  | zero =>
      intro first last f before g after success
      obtain ⟨empty, rfl, rfl⟩ | ⟨_, _, _, _, _, _, impossible, _⟩ :=
        interpret_cases setting body callee success
      · exact ⟨_, Sweep.run_empty empty, rfl, observation.refl _⟩
      · cases impossible
  | succ fuel ih =>
      intro first last f before g after success
      obtain ⟨empty, rfl, rfl⟩ | ⟨reach, instruction, _, flow, between, found, same,
          stepped, continued⟩ :=
        interpret_cases setting body callee success
      · exact ⟨_, Sweep.run_empty empty, rfl, observation.refl _⟩
      · cases same
        obtain ⟨hop, hopped, matched, visits⟩ :=
          step_follows observation ih (Sweep.isThorough_run _ _ _) stepped
        obtain ⟨rest, followed, ended, more⟩ := continueAt_follows observation ih matched continued
        exact ⟨_, Sweep.run_step found reach hopped followed, ended, observation.trans visits more⟩

end Interpreter

end ArrayBounds
