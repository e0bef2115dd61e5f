import ArrayBounds.Domain.Assumption
import ArrayBounds.Domain.Join
import ArrayBounds.Proofs.Domain.Operands

/-! # The control part of a frame

Two fields of a frame say where its path stands: the position of the last instruction, and the
target of a jump that has not been followed yet. The operations on values leave both alone, a `goto`
notes a target, and a join takes the later of two positions. So the control part of a frame never
depends on the values in it.
-/

namespace ArrayBounds

open Program

/-- The path goes on behind the instruction, if only for the moment: everything but a branch, a
return and what has no rule. -/
def Program.Instruction.proceeds : Instruction → Bool
  | .branch .. | .ret _ | .throw | .unsupported _ => false
  | _ => true

/-- Where a path stands. -/
structure Control where
  /-- The position of the last instruction executed. -/
  pc : Nat
  /-- The target of the last jump that has not been followed yet. -/
  pendingJump : Option Nat := none
deriving DecidableEq, Repr, Inhabited

namespace Control

/-- The control part of a copy for one side of a branch. -/
def fork (c : Control) : Control :=
  { c with pendingJump := none }

/-- The control part after joining that of another path. -/
def join (c d : Control) : Control :=
  { c with pc := max c.pc d.pc }

/-- What an instruction without control flow of its own does to the control part. -/
def after (c : Control) : Instruction → Control
  | .goto target => { c with pendingJump := some target }
  | _ => c

/-- A join does not go back. -/
theorem join_of_pc_le {c d : Control} (early : d.pc ≤ c.pc) : c.join d = c := by
  simp only [join, Nat.max_eq_left early]

end Control

namespace Frame

/-- The control part of a frame. -/
def control (f : Frame) : Control :=
  { pc := f.pc, pendingJump := f.pendingJump }

@[simp] theorem control_pc (f : Frame) : f.control.pc = f.pc := rfl

@[simp] theorem control_pendingJump (f : Frame) : f.control.pendingJump = f.pendingJump := rfl

@[simp] theorem control_fork (f : Frame) : f.fork.control = f.control.fork := rfl

@[simp] theorem control_drawAfter (f g : Frame) : (f.drawAfter g).control = f.control := rfl

/-! ## Operations on values -/

@[simp] theorem control_push (f : Frame) (v : Variable) : (f.push v).control = f.control := rfl

@[simp] theorem control_pushId (f : Frame) (id : VarId) : (f.pushId id).control = f.control := rfl

@[simp] theorem control_setLocal (f : Frame) (slot : UInt16) (id : VarId) :
    (f.setLocal slot id).control = f.control := rfl

@[simp] theorem control_modify (f : Frame) (id : VarId) (change : Variable → Variable) :
    (f.modify id change).control = f.control := by
  unfold modify
  split <;> rfl

@[simp] theorem control_addLocals (f : Frame) (count : Nat) :
    (f.addLocals count).control = f.control := by
  induction count generalizing f with
  | zero => rfl
  | succ count ih => exact ih _

@[simp] theorem control_ensureLocal (f : Frame) (slot : UInt16) :
    (f.ensureLocal slot).control = f.control :=
  f.control_addLocals _

@[simp] theorem control_load (f : Frame) (slot : UInt16) : (f.load slot).control = f.control := by
  unfold load
  dsimp only
  split
  · rw [control_pushId, control_ensureLocal]
  · rw [control_ensureLocal]

@[simp] theorem control_increment (f : Frame) (slot : UInt16) (delta : Int) :
    (f.increment slot delta).control = f.control := by
  unfold increment
  exact f.control_ensureLocal slot

@[simp] theorem control_recordReturn (f : Frame) (id : VarId) :
    (f.recordReturn id).control = f.control := by
  unfold recordReturn
  split
  · split <;> rfl
  · rfl

/-- Assuming a relation changes nothing but variables. -/
theorem assume_eq (f : Frame) (lhs : VarId) (relation : Relation) (rhs : VarId) :
    f.assume lhs relation rhs = { f with vars := (f.assume lhs relation rhs).vars } := by
  unfold assume
  split
  case h_1 =>
    dsimp only
    split
    · exact modify_eq f _ _
    · rw [modify_eq, modify_eq f]
  case h_2 => rfl

/-- Assuming a condition changes nothing but variables. -/
theorem assumeCondition_eq (f : Frame) (condition : Condition) (operands : List VarId)
    (holds : Bool) :
    f.assumeCondition condition operands holds =
      { f with vars := (f.assumeCondition condition operands holds).vars } := by
  unfold assumeCondition
  split
  · dsimp only
    split
    · exact assume_eq f _ _ _
    · rfl
  · dsimp only
    split
    · exact modify_eq f _ _
    · rfl
  · rfl

/-- Assuming a condition does not move the walk. -/
@[simp] theorem control_assumeCondition (f : Frame) (condition : Condition) (operands : List VarId)
    (holds : Bool) : (f.assumeCondition condition operands holds).control = f.control := by
  rw [assumeCondition_eq]
  rfl

@[simp] theorem control_checkAccess (f : Frame) (access : Access) :
    (f.checkAccess access).1.control = f.control := by
  unfold checkAccess
  split
  · rfl
  · exact f.control_modify _ _

/-- A pop concerns the stack alone. -/
theorem control_pop {f g : Frame} {id : VarId} (success : f.pop = .ok (id, g)) :
    g.control = f.control := by
  obtain ⟨rest, -, rfl⟩ := pop_eq_ok_iff.mp success
  rfl

/-- So does a pop of several numbers. -/
theorem control_popN {f g : Frame} {count : Nat} {ids : List VarId}
    (success : f.popN count = .ok (ids, g)) : g.control = f.control := by
  obtain ⟨-, -, rfl⟩ := popN_eq_ok_iff.mp success
  rfl

private theorem control_shuffle {f g : Frame} {op : StackOp} (success : f.shuffle op = .ok g) :
    g.control = f.control := by
  obtain ⟨stack, -, rfl⟩ := shuffle_eq_ok_iff.mp success
  rfl

/-- Storing does not move the walk. -/
private theorem control_store {f g : Frame} {slot : UInt16} (success : f.store slot = .ok g) :
    g.control = f.control := by
  unfold store at success
  obtain ⟨⟨id, popped⟩, popping, storing⟩ := Except.bind_eq_ok_iff.mp success
  rw [← Except.pure_eq_ok_iff.mp storing, ← control_pop popping]
  simp only [control_setLocal, control_modify, control_ensureLocal]

/-- Replacing operands does not move the walk. -/
private theorem control_replaceTop {f g : Frame} {count : Nat} {result : Variable}
    (success : f.replaceTop count result = .ok g) : g.control = f.control := by
  unfold replaceTop at success
  obtain ⟨⟨ids, popped⟩, popping, pushing⟩ := Except.bind_eq_ok_iff.mp success
  rw [← Except.pure_eq_ok_iff.mp pushing, control_push, control_popN popping]

/-- Arithmetic does not move the walk. -/
private theorem control_arithmetic {f g : Frame} {op : ArithmeticOp} {kind : NumericKind}
    (success : f.arithmetic op kind = .ok g) : g.control = f.control := by
  unfold arithmetic at success
  split at success
  · obtain ⟨⟨id, popped⟩, popping, pushing⟩ := Except.bind_eq_ok_iff.mp success
    rw [← Except.pure_eq_ok_iff.mp pushing, control_push, control_pop popping]
  · obtain ⟨⟨rhs, once⟩, popping, success⟩ := Except.bind_eq_ok_iff.mp success
    obtain ⟨⟨lhs, twice⟩, poppingMore, pushing⟩ := Except.bind_eq_ok_iff.mp success
    rw [← Except.pure_eq_ok_iff.mp pushing, control_push, control_pop poppingMore,
      control_pop popping]

private theorem control_arrayLength {f g : Frame} (success : f.arrayLength = .ok g) :
    g.control = f.control := by
  unfold arrayLength at success
  obtain ⟨⟨id, popped⟩, popping, pushing⟩ := Except.bind_eq_ok_iff.mp success
  rw [← Except.pure_eq_ok_iff.mp pushing, control_push, control_pop popping]

/-- Conversions do not move the walk. -/
private theorem control_convert {f g : Frame} {source : NumericKind} {target : ConversionTarget}
    (success : f.convert source target = .ok g) : g.control = f.control := by
  unfold convert at success
  obtain ⟨⟨id, popped⟩, popping, pushing⟩ := Except.bind_eq_ok_iff.mp success
  rw [← Except.pure_eq_ok_iff.mp pushing, control_push, control_pop popping]

/-- Reading a field does not move the walk. -/
private theorem control_getField {f g : Frame} {isStatic : Bool} {descriptor : String}
    (success : f.getField isStatic descriptor = .ok g) : g.control = f.control := by
  unfold getField at success
  obtain ⟨⟨ids, popped⟩, popping, pushing⟩ := Except.bind_eq_ok_iff.mp success
  dsimp only at pushing
  split at pushing
  · rw [← Except.pure_eq_ok_iff.mp pushing, control_push, control_popN popping]
  · cases pushing

/-- The frame that an effect returns. -/
theorem eq_of_return {result : Frame × Option Access} {g : Frame} {unproved : Option Access}
    (success : (pure result : Except AnalysisError (Frame × Option Access)) = .ok (g, unproved)) :
    g = result.1 := by
  rw [Except.pure_eq_ok_iff.mp success]

/-- Reading from an array does not move the walk. -/
private theorem control_arrayLoad {f g : Frame} {kind : ElementKind} {unproved : Option Access}
    (success : f.arrayLoad kind = .ok (g, unproved)) : g.control = f.control := by
  unfold arrayLoad at success
  obtain ⟨⟨index, once⟩, popping, success⟩ := Except.bind_eq_ok_iff.mp success
  obtain ⟨⟨array, twice⟩, poppingMore, pushing⟩ := Except.bind_eq_ok_iff.mp success
  dsimp only at pushing
  generalize checking : twice.checkAccess { array, index } = checked at pushing
  rw [eq_of_return pushing, control_push, ← checking, control_checkAccess, control_pop poppingMore,
    control_pop popping]

/-- Writing to an array does not move the walk. -/
private theorem control_arrayStore {f g : Frame} {unproved : Option Access}
    (success : f.arrayStore = .ok (g, unproved)) : g.control = f.control := by
  unfold arrayStore at success
  obtain ⟨⟨value, once⟩, popping, success⟩ := Except.bind_eq_ok_iff.mp success
  obtain ⟨⟨index, twice⟩, poppingMore, success⟩ := Except.bind_eq_ok_iff.mp success
  obtain ⟨⟨array, thrice⟩, poppingLast, checking⟩ := Except.bind_eq_ok_iff.mp success
  rw [eq_of_return checking, control_checkAccess, control_pop poppingLast, control_pop poppingMore,
    control_pop popping]

/-- An instruction that needs nothing but the frame moves the control part only if it is a jump. -/
theorem control_transfer {f g : Frame} {instruction : Instruction} {unproved : Option Access}
    (success : f.transfer instruction = .ok (g, unproved)) :
    g.control = f.control.after instruction := by
  -- All effects but those of array accesses end in the same way, with the frame that the effect
  -- produced.
  have effect {part : Except AnalysisError Frame} (kept : ∀ h, part = .ok h → h.control = f.control)
      (done : (do return (← part, none) : Except AnalysisError (Frame × Option Access)) =
        .ok (g, unproved)) :
      g.control = f.control := by
    obtain ⟨h, made, returned⟩ := Except.bind_eq_ok_iff.mp done
    rw [eq_of_return returned, kept h made]
  cases instruction with
  | arrayLoad kind => exact control_arrayLoad success
  | arrayStore kind => exact control_arrayStore success
  | store kind slot => exact effect (fun _ => control_store) success
  | stack op => exact effect (fun _ => control_shuffle) success
  | arrayLength => exact effect (fun _ => control_arrayLength) success
  | newArray element => exact effect (fun _ => control_replaceTop) success
  | multiNewArray array dimensions => exact effect (fun _ => control_replaceTop) success
  | arithmetic op kind => exact effect (fun _ => control_arithmetic) success
  | compare kind => exact effect (fun _ => control_replaceTop) success
  | convert source target => exact effect (fun _ => control_convert) success
  | getField isStatic descriptor => exact effect (fun _ => control_getField) success
  | instanceOf className => exact effect (fun _ => control_replaceTop) success
  | switch default targets =>
      obtain ⟨⟨id, popped⟩, popping, returned⟩ := Except.bind_eq_ok_iff.mp success
      rw [eq_of_return returned]
      exact control_pop popping
  | monitor =>
      obtain ⟨⟨id, popped⟩, popping, returned⟩ := Except.bind_eq_ok_iff.mp success
      rw [eq_of_return returned]
      exact control_pop popping
  | putField isStatic descriptor =>
      obtain ⟨⟨ids, popped⟩, popping, returned⟩ := Except.bind_eq_ok_iff.mp success
      rw [eq_of_return returned]
      exact control_popN popping
  | const value =>
      rw [eq_of_return success]
      exact control_push _ _
  | load kind slot =>
      rw [eq_of_return success]
      exact control_load _ _
  | increment slot delta =>
      rw [eq_of_return success]
      exact control_increment _ _ _
  | newObject className =>
      rw [eq_of_return success]
      exact control_push _ _
  | _ =>
      rw [eq_of_return success]
      rfl

/-! ## Joins -/

/-- Joining variables does not move the walk. -/
@[simp] theorem control_joinVariable (f g : Frame) (mine theirs : VarId) :
    (f.joinVariable g mine theirs).1.control = f.control := by
  unfold joinVariable
  split <;> rfl

/-- The flag that is carried along has no influence on the frame. -/
theorem foldl_joinVariable (f g : Frame) (pairs : List (VarId × VarId)) (changed : Bool) :
    pairs.foldl
      (fun acc pair => ((acc.1.joinVariable g pair.1 pair.2).1,
        acc.2 || (acc.1.joinVariable g pair.1 pair.2).2)) (f, changed) =
      ((f.joinPairs g pairs).1, changed || (f.joinPairs g pairs).2) := by
  induction pairs generalizing f changed with
  | nil => rw [joinPairs, List.foldl_nil, List.foldl_nil, Bool.or_false]
  | cons pair pairs ih =>
      have whole : f.joinPairs g (pair :: pairs) = _ :=
        ih (f.joinVariable g pair.1 pair.2).1 (f.joinVariable g pair.1 pair.2).2
      rw [List.foldl_cons, ih, whole, Bool.or_assoc]

/-- Pairs of variables are joined one after the other. -/
theorem joinPairs_cons (f g : Frame) (pair : VarId × VarId) (pairs : List (VarId × VarId)) :
    f.joinPairs g (pair :: pairs) =
      (((f.joinVariable g pair.1 pair.2).1.joinPairs g pairs).1,
        (f.joinVariable g pair.1 pair.2).2 ||
          ((f.joinVariable g pair.1 pair.2).1.joinPairs g pairs).2) :=
  foldl_joinVariable (f.joinVariable g pair.1 pair.2).1 g pairs (f.joinVariable g pair.1 pair.2).2

@[simp] theorem control_joinPairs (f g : Frame) (pairs : List (VarId × VarId)) :
    (f.joinPairs g pairs).1.control = f.control := by
  induction pairs generalizing f with
  | nil => rfl
  | cons pair pairs ih => rw [joinPairs_cons, ih, control_joinVariable]

@[simp] theorem control_joinReturned (f g : Frame) : (f.joinReturned g).1.control = f.control := by
  unfold joinReturned
  split
  · exact control_joinVariable f g _ _
  · split <;> rfl
  · rfl

/-- A join goes over the positions, then over the returned values, and then drops what is no longer
held. -/
theorem join_fst (f g : Frame) :
    (f.join g).1 =
      ((({ f.drawAfter g with pc := max f.pc g.pc } : Frame).joinPairs g
        (f.commonPositions g)).1.joinReturned g).1.collect :=
  rfl

@[simp] theorem control_collect (f : Frame) : f.collect.control = f.control := rfl

/-- The control part of a join depends on the control parts only. -/
@[simp] theorem control_join (f g : Frame) : (f.join g).1.control = f.control.join g.control := by
  rw [join_fst, control_collect, control_joinReturned, control_joinPairs]
  rfl

/-! A pending jump plays no part in a join: that of the receiving frame is passed on, and that of
the other one is dropped. -/

/-- A pending jump makes no difference to the join of a variable. -/
private theorem joinVariable_jump (f g : Frame) (jump : Option Nat) (mine theirs : VarId) :
    ({ f with pendingJump := jump } : Frame).joinVariable g mine theirs =
      ({ (f.joinVariable g mine theirs).1 with pendingJump := jump },
        (f.joinVariable g mine theirs).2) := by
  unfold joinVariable
  dsimp only
  cases f.vars[mine]? with
  | none => rfl
  | some current =>
      cases g.vars[theirs]? with
      | none => rfl
      | some incoming => rfl

/-- A pending jump makes no difference to the join of variables. -/
private theorem joinPairs_jump (f g : Frame) (jump : Option Nat) (pairs : List (VarId × VarId)) :
    ({ f with pendingJump := jump } : Frame).joinPairs g pairs =
      ({ (f.joinPairs g pairs).1 with pendingJump := jump }, (f.joinPairs g pairs).2) := by
  induction pairs generalizing f with
  | nil => rfl
  | cons pair pairs ih => rw [joinPairs_cons, joinVariable_jump, ih, joinPairs_cons]

/-- A pending jump makes no difference to the join of returned values. -/
private theorem joinReturned_jump (f g : Frame) (jump : Option Nat) :
    ({ f with pendingJump := jump } : Frame).joinReturned g =
      ({ (f.joinReturned g).1 with pendingJump := jump }, (f.joinReturned g).2) := by
  obtain ⟨vars, stack, locals, pc, pendingJump, returned, nextId⟩ := f
  unfold joinReturned
  cases returned with
  | none =>
      cases g.returned with
      | none => rfl
      | some theirs =>
          dsimp only
          cases g.vars[theirs]? with
          | none => rfl
          | some v => rfl
  | some mine =>
      cases g.returned with
      | none => rfl
      | some theirs => exact joinVariable_jump _ g jump mine theirs

/-- The jump of the receiving frame is of no concern to the rest of a join. -/
theorem join_jump_left (f g : Frame) (jump : Option Nat) :
    ({ f with pendingJump := jump } : Frame).join g =
      ({ (f.join g).1 with pendingJump := jump }, (f.join g).2) := by
  let met : Frame := { f.drawAfter g with pc := max f.pc g.pc }
  change ((({ met with pendingJump := jump } : Frame).joinPairs g
    (f.commonPositions g)).1.joinReturned g |>.1.collect,
    (({ met with pendingJump := jump } : Frame).joinPairs g (f.commonPositions g)).2 ||
      ((({ met with pendingJump := jump } : Frame).joinPairs g (f.commonPositions g)).1.joinReturned
        g).2) = _
  rw [joinPairs_jump, joinReturned_jump]
  rfl

/-- The jump of the other frame is of no concern to a join. -/
theorem join_jump_right (f g : Frame) (jump : Option Nat) :
    f.join { g with pendingJump := jump } = f.join g := rfl

/-- A variable may be changed before or after the frame is forked. -/
private theorem fork_modify (f : Frame) (id : VarId) (change : Variable → Variable) :
    f.fork.modify id change = (f.modify id change).fork := by
  have same : f.fork.vars = f.vars := rfl
  unfold modify
  rw [same]
  cases f.vars[id]? <;> rfl

/-- It does not matter whether a frame is forked before or after an assumption. -/
theorem fork_assumeCondition (f : Frame) (condition : Condition) (operands : List VarId)
    (holds : Bool) : f.fork.assumeCondition condition operands holds =
      (f.assumeCondition condition operands holds).fork := by
  have vars : f.fork.vars = f.vars := rfl
  unfold assumeCondition Frame.assume assumeSign
  split
  · dsimp only
    split
    · simp only [vars, fork_modify]
      split
      · split <;> rfl
      · rfl
    · rfl
  · dsimp only
    simp only [vars, fork_modify]
    split <;> rfl
  · rfl

end Frame

end ArrayBounds
