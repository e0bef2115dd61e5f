import ArrayBounds.Proofs.Domain.Returned
import ArrayBounds.Proofs.Walk.Quantities

/-! # Returned values are covered

The frame that a walk comes to covers every value that a return has found on the stack, wherever in
the walk the return stands: in an arm of a branch, in a pass over a loop, or behind a join
(`ArrayBounds.Interpreter.return_covered`). There is one way to lose such a value. A loop that is
closed by a branch back is left on the side where the branch is not taken, and what this side
assumes may refine the returned variable itself, since the first value that is returned is recorded
under its own number.
-/

namespace ArrayBounds.Interpreter

open Program

variable {setting : Setting} {body : Body} {callee : Callee} {s t : Stretch}

/-! ## Instructions -/

/-- Taking arguments loses no variable. -/
private theorem popArguments_grows {descriptor : MethodDescriptor} {hasReceiver : Bool}
    {f g : Frame} (closed : f.Closed) (success : popArguments descriptor hasReceiver f = .ok g) :
    f.Grows g := by
  obtain ⟨popped, popping, returned⟩ := Except.bind_eq_ok_iff.mp success
  obtain rfl := Except.pure_eq_ok_iff.mp returned
  exact (closed.popN popping).toGrows

/-- An opaque call loses no variable. -/
private theorem opaqueCall_grows {descriptor : String} {hasReceiver : Bool} {f g : Frame}
    {before after : Run} (closed : f.Closed)
    (success : opaqueCall descriptor hasReceiver f before = .ok g after) : f.Grows g := by
  unfold opaqueCall at success
  obtain ⟨_, _, -, success⟩ := EStateM.bind_eq_ok_iff.mp success
  obtain ⟨parsed, _, -, success⟩ := EStateM.bind_eq_ok_iff.mp success
  obtain ⟨popped, _, popping, success⟩ := EStateM.bind_eq_ok_iff.mp success
  have taken := popArguments_grows closed (Analysis.lift_eq_ok_iff.mp popping).1
  cases type : parsed.returnType with
  | none =>
      simp only [type] at success
      obtain ⟨rfl, -⟩ := EStateM.pure_eq_ok_iff.mp success
      exact taken
  | some type' =>
      simp only [type] at success
      obtain ⟨rfl, -⟩ := EStateM.pure_eq_ok_iff.mp success
      exact taken.trans (taken.closed.pushUnbounded rfl rfl Sign.noConfusion).toGrows

/-- A call loses no variable. -/
private theorem invoke_grows {kind : InvokeKind} {method : MethodKey} {f g : Frame}
    {before after : Run} (closed : f.Closed)
    (success : invoke setting callee kind method f before = .ok g after) : f.Grows g := by
  unfold invoke at success
  split at success
  · exact opaqueCall_grows closed success
  · obtain ⟨found, _, -, success⟩ := EStateM.bind_eq_ok_iff.mp success
    split at success
    · exact opaqueCall_grows closed success
    · obtain ⟨result, _, -, success⟩ := EStateM.bind_eq_ok_iff.mp success
      obtain ⟨descriptor, _, -, success⟩ := EStateM.bind_eq_ok_iff.mp success
      obtain ⟨popped, _, popping, success⟩ := EStateM.bind_eq_ok_iff.mp success
      have taken := popArguments_grows closed (Analysis.lift_eq_ok_iff.mp popping).1
      split at success
      · obtain ⟨rfl, -⟩ := EStateM.pure_eq_ok_iff.mp success
        exact taken
      · obtain ⟨rfl, -⟩ := EStateM.pure_eq_ok_iff.mp success
        exact taken.trans
          (taken.closed.growsPush fun _ bound =>
            absurd bound (Variable.not_isBound_of_unbounded rfl rfl))

/-- An instruction that proceeds loses no variable. -/
private theorem proceed_grows {instruction : Instruction} {f g : Frame} {before after : Run}
    (closed : f.Closed) (success : proceed setting body callee instruction f before = .ok g after) :
    f.Grows g := by
  unfold proceed at success
  split at success
  · exact invoke_grows closed success
  · exact opaqueCall_grows closed success
  · obtain ⟨moved, _, transferring, success⟩ := EStateM.bind_eq_ok_iff.mp success
    obtain ⟨⟨⟩, _, -, success⟩ := EStateM.bind_eq_ok_iff.mp success
    obtain ⟨rfl, -⟩ := EStateM.pure_eq_ok_iff.mp success
    exact (closed.transfer (Analysis.lift_eq_ok_iff.mp transferring).1).toGrows

/-! ## The cover persists -/

/-- What has been returned before is covered afterwards. -/
theorem persists_cover : Persists Frame.Closed fun f => f.cover.rank where
  frames := Frame.invariant_closed
  moved _ _ := rfl
  forked _ := rfl
  drawn _ _ := Nat.le_refl _
  popped closed popping := (closed.popN popping).cover_le
  assumed f condition operands := f.cover_assumeCondition condition operands
  joined closed closed' := Frame.join_covers closed closed'
  recorded closed popping := by
    obtain ⟨taking, present⟩ := closed.pop popping
    obtain ⟨v, held⟩ := Frame.mem_vars_iff.mp present
    exact Nat.le_trans taking.cover_le (Frame.recordReturn_covers taking.closed held).1
  proceeded closed moved := (proceed_grows closed moved).cover_le

/-! ## Walks -/

/-- Leaving a loop that a branch back closes at the start of the stretch refines nothing that has
been returned. -/
def Steady (setting : Setting) (body : Body) (callee : Callee) (s : Stretch) : Prop :=
  ∀ condition target run stable left exit after,
    Arrives setting body s (.branch condition target) run → target ≤ s.first →
    untilStable (branchPass (walk setting body callee) condition target s.first)
      (loopUnstable setting body target s.first) setting.limits.loopPasses s.entry run =
        .ok stable left →
    assuming condition false { stable with pc := s.first } left = .ok exit after →
      stable.cover ≤ exit.cover

/-- Loops that are left in the course of a walk refine nothing that has been returned. -/
def SteadyWithin (setting : Setting) (body : Body) (callee : Callee) (s : Stretch) : Prop :=
  ∀ t, Within setting body callee s t → Steady setting body callee t

/-- Every value that is returned in the course of a walk is covered in the end. -/
theorem return_covered {g popped : Frame} {after run : Run} {kind : ValueKind} {id : VarId}
    (closed : s.frame.Closed) (steady : SteadyWithin setting body callee s)
    (walked : outcome setting body callee s = .ok g after) (within : Within setting body callee s t)
    (arrives : Arrives setting body t (.ret (some kind)) run)
    (popping : t.entry.pop = .ok (id, popped)) :
    ∃ v, popped.vars[id]? = some v ∧ v.sign ≤ g.cover := by
  obtain ⟨closed, h, final, walked, le⟩ := persists_cover.within closed steady walked within
  obtain ⟨taking, present⟩ := (Frame.invariant_closed.moved closed t.first).pop popping
  obtain ⟨v, found⟩ := Frame.mem_vars_iff.mp present
  have recorded := (Frame.recordReturn_covers taking.closed found).2
  refine ⟨v, found, Nat.le_trans recorded (Nat.le_trans ?_ le)⟩
  obtain ⟨flow, _, stepped, continued⟩ := outcome_step arrives.found arrives.reach walked
  obtain ⟨_, _, -, stepped⟩ := EStateM.bind_eq_ok_iff.mp stepped
  obtain ⟨_, _, lifted, stepped⟩ := EStateM.bind_eq_ok_iff.mp stepped
  obtain rfl := Except.ok.inj ((Analysis.lift_eq_ok_iff.mp lifted).1.symm.trans popping)
  obtain ⟨rfl, rfl⟩ := EStateM.pure_eq_ok_iff.mp stepped
  obtain ⟨rfl, -⟩ := EStateM.pure_eq_ok_iff.mp continued
  exact Nat.le_refl _

end ArrayBounds.Interpreter
