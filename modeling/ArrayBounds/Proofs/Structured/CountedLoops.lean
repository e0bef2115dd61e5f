import ArrayBounds.Proofs.Analysis.Suppression
import ArrayBounds.Proofs.Domain.Counters
import ArrayBounds.Proofs.Walk.Returns

/-! # Counted loops over arrays

A loop counts from a constant up to the length of an array. Its body may do whatever it likes with
calls, other slots and other arrays, as long as it runs straight through and leaves the slots of the
array and of the counter alone. Then an access to the array at the counter passes its check exactly
if the constant is not negative, in every pass over the loop
(`ArrayBounds.Interpreter.findings_of_countedLoop`).

The invariant says for each position what the frame is like there (`ArrayBounds.Interpreter.Stage`).
Behind the test the counter is less than the length, at the head only its sign is known. The frames
at the head are joins of frames that passes end in.
-/

namespace ArrayBounds

open Program

/-- An instruction behind which the path goes on with the next one, if it does not break off. -/
def Program.Instruction.goesOn : Instruction → Bool
  | .branch .. | .ret _ => false
  | _ => true

/-- An instruction without any influence on where the path goes. -/
def Program.Instruction.isStraight : Instruction → Bool
  | .goto _ => false
  | instruction => instruction.goesOn

/-- A straight instruction goes on with the next one. -/
private theorem Program.Instruction.isStraight.goesOn {instruction : Instruction}
    (straight : instruction.isStraight = true) : instruction.goesOn = true := by
  cases instruction with
  | goto => rfl
  | _ => exact straight

/-- A straight instruction does not change the control. -/
private theorem Program.Instruction.isStraight.after {instruction : Instruction}
    (straight : instruction.isStraight = true) (c : Control) : c.after instruction = c := by
  cases instruction with
  | goto => cases straight
  | _ => rfl

/-- The start of a counted loop and its test. The loop is left behind a block of the given length,
the step and the jump back. -/
def loopHead (start : Int32) (length : Nat) : List Instruction :=
  [.const (.int start), .store .int 1, .load .int 1, .load .reference 0, .arrayLength,
    .branch (.ints .ge) (length + 8)]

/-- Counts in the second slot from `start` in steps of `stride`, as long as the counter is less than
the length of the array in the first slot. -/
def countedLoop (start : Int32) (stride : Int16) (block : List Instruction) : List Instruction :=
  loopHead start block.length ++ block ++ [.increment 1 stride, .goto 2, .ret none]

namespace Interpreter

variable {setting : Setting} {body : Body} {callee : Callee} {s t : Stretch} {f g : Frame}
  {before after : Run} {instruction : Instruction}

/-! ## Straight runs -/

/-- An instruction that goes on, and succeeds, proceeds. -/
private theorem proceeds_of_goesOn {walk : Walk} {last : Nat} {flow : Flow}
    (goesOn : instruction.goesOn = true)
    (stepped : step setting body callee walk last instruction f before = .ok flow after) :
    instruction.proceeds = true := by
  cases instruction with
  | branch | ret => cases goesOn
  | throw | unsupported =>
      obtain ⟨_, _, -, stepped⟩ := EStateM.bind_eq_ok_iff.mp stepped
      cases stepped
  | _ => rfl

/-- An instruction that is not a call proceeds by its transfer function. -/
private theorem transfer_of_proceed (call : instruction.isCall = false)
    (success : proceed setting body callee instruction f before = .ok g after) :
    ∃ unproved, f.transfer instruction = .ok (g, unproved) := by
  unfold proceed at success
  split at success
  · cases call
  · cases call
  · obtain ⟨moved, _, transferring, success⟩ := EStateM.bind_eq_ok_iff.mp success
    obtain ⟨⟨⟩, _, -, success⟩ := EStateM.bind_eq_ok_iff.mp success
    obtain ⟨rfl, -⟩ := EStateM.pure_eq_ok_iff.mp success
    exact ⟨moved.2, (Analysis.lift_eq_ok_iff.mp transferring).1⟩

private theorem Onward.part (onward : Onward setting body callee s t) :
    Part setting body callee s t := by
  cases onward with
  | intro found reach proceeds stepped => exact .next (.onward found reach stepped)

/-- A walk moves onward by an instruction that proceeds. -/
private theorem Onward.exists_proceed (onward : Onward setting body callee s t) :
    ∃ instruction before, body.method.instructions[s.first]? = some instruction ∧
      instruction.proceeds = true ∧
      proceed setting body callee instruction s.entry before = .ok t.frame t.run ∧
      t.first = s.first + 1 ∧ t.last = s.last := by
  cases onward with
  | @intro instruction g after found reach proceeds stepped =>
      rw [step_proceeds _ _ _ _ _ proceeds] at stepped
      obtain ⟨_, between, -, stepped⟩ := EStateM.bind_eq_ok_iff.mp stepped
      obtain ⟨h, _, proceeded, stepped⟩ := EStateM.bind_eq_ok_iff.mp stepped
      obtain ⟨same, rfl⟩ := EStateM.pure_eq_ok_iff.mp stepped
      obtain rfl := Flow.next.inj same
      exact ⟨instruction, between, found, proceeds, proceeded, rfl, rfl⟩

/-- Moving onward does not change the outcome. -/
private theorem Onward.outcome_eq (onward : Onward setting body callee s t) :
    outcome setting body callee t = outcome setting body callee s := by
  cases onward with
  | intro found reach proceeds stepped =>
      rw [outcome, outcome, walk_step _ _ _ _ found reach, Analysis.bind_eq_andThen]
      exact congrArg (Analysis.andThen (continueAt (walk setting body callee) s.first s.last))
        stepped.symm

/-- A walk to the end of its range comes to the frame there. -/
theorem outcome_of_straight (straight : Relation.ReflTransGen (Onward setting body callee) s t)
    (done : t.last < t.first) : outcome setting body callee s = .ok t.frame t.run := by
  induction straight using Relation.ReflTransGen.head_induction_on with
  | refl =>
      rw [outcome, walk_empty _ _ _ _ (.inl done)]
      rfl
  | head onward _ ih => exact onward.outcome_eq.symm.trans ih

/-- A walk that succeeds gets past an instruction behind which the path goes on. -/
theorem exists_onward_of_outcome (found : body.method.instructions[s.first]? = some instruction)
    (goesOn : instruction.goesOn = true) (reach : s.first ≤ s.last)
    (walked : outcome setting body callee s = .ok g after) :
    ∃ t, Onward setting body callee s t ∧ outcome setting body callee t = .ok g after := by
  have whole := walked
  rw [outcome, walk_step _ _ _ _ found reach] at whole
  obtain ⟨flow, between, stepped, -⟩ := EStateM.bind_eq_ok_iff.mp whole
  have proceeds := proceeds_of_goesOn goesOn stepped
  obtain ⟨h, rfl, -⟩ := edits_of_step proceeds stepped
  have onward : Onward setting body callee s _ := .intro found reach proceeds stepped
  exact ⟨_, onward, onward.outcome_eq.trans walked⟩

/-- Hence it gets past any number of them. -/
theorem exists_straight_of_outcome {count : Nat} (each : ∀ i < count, ∃ instruction,
      body.method.instructions[s.first + i]? = some instruction ∧ instruction.goesOn = true)
    (reach : s.first + count ≤ s.last + 1) (walked : outcome setting body callee s = .ok g after) :
    ∃ t, Relation.ReflTransGen (Onward setting body callee) s t ∧ t.first = s.first + count ∧
      t.last = s.last ∧ outcome setting body callee t = .ok g after := by
  induction count with
  | zero => exact ⟨s, .refl, rfl, rfl, walked⟩
  | succ count ih =>
      obtain ⟨t, straight, first, last, walked⟩ :=
        ih (fun i less => each i (Nat.lt_succ_of_lt less)) (by omega)
      obtain ⟨instruction, found, goesOn⟩ := each count (Nat.lt_succ_self count)
      rw [← first] at found
      obtain ⟨u, onward, walked⟩ := exists_onward_of_outcome found goesOn (by omega) walked
      obtain ⟨_, _, -, -, -, next, same⟩ := onward.exists_proceed
      exact ⟨u, .tail straight onward, by omega, same.trans last, walked⟩

/-- A branch ahead goes on at its target or behind it. -/
theorem le_of_branch_ahead {condition : Condition} {target : Nat} {flow : Flow}
    {walk : Walk} {last : Nat} (ahead : f.pc < target)
    (stepped : step setting body callee walk last (.branch condition target) f before =
      .ok flow after) : ∃ position g, flow = .resume position g ∧ target ≤ position := by
  rw [step_branch] at stepped
  obtain ⟨_, _, -, stepped⟩ := EStateM.bind_eq_ok_iff.mp stepped
  rw [branch_forward _ _ _ _ _ ahead] at stepped
  obtain ⟨popped, _, -, stepped⟩ := EStateM.bind_eq_ok_iff.mp stepped
  obtain ⟨through, _, -, stepped⟩ := EStateM.bind_eq_ok_iff.mp stepped
  obtain ⟨paths, _, -, stepped⟩ := EStateM.bind_eq_ok_iff.mp stepped
  obtain ⟨rfl, -⟩ := EStateM.pure_eq_ok_iff.mp stepped
  exact ⟨_, _, rfl, Nat.le_max_right _ _⟩

/-- The end of a walk that starts with a branch out of its range: the two paths are joined, and that
is all. -/
theorem exists_meets_of_outcome {condition : Condition} {target : Nat}
    (found : body.method.instructions[s.first]? = some (.branch condition target))
    (reach : s.first ≤ s.last) (outside : s.last < target)
    (walked : outcome setting body callee s = .ok g after) :
    ∃ operands popped run through between left right met,
      Forks setting body s condition target operands popped run ∧
      outcome setting body callee (s.through condition target operands popped run) =
        .ok through between ∧
      Meets setting body callee s condition target operands popped through between left right met ∧
      g = (left.join right).1 := by
  have ahead : s.entry.pc < target := Nat.lt_of_le_of_lt reach outside
  rw [outcome, walk_step _ _ _ _ found reach] at walked
  obtain ⟨flow, met, stepped, walked⟩ := EStateM.bind_eq_ok_iff.mp walked
  change step setting body callee _ s.last _ s.entry s.run = _ at stepped
  obtain ⟨operands, popped, run, forks⟩ : ∃ operands popped run,
      Forks setting body s condition target operands popped run := by
    rw [step_branch] at stepped
    obtain ⟨_, run, announced, stepped⟩ := EStateM.bind_eq_ok_iff.mp stepped
    rw [branch_forward _ _ _ _ _ ahead] at stepped
    obtain ⟨popped, _, lifted, -⟩ := EStateM.bind_eq_ok_iff.mp stepped
    exact ⟨popped.1, popped.2, run, ⟨found, reach, announced⟩, ahead,
      (Analysis.lift_eq_ok_iff.mp lifted).1⟩
  obtain ⟨position, h, rfl, behind⟩ := le_of_branch_ahead (f := s.entry) ahead stepped
  obtain ⟨through, between, left, right, walking, meets, joined⟩ := forks.meets stepped
  rw [continueAt, walk_empty _ _ _ _ (.inl (Nat.lt_of_lt_of_le outside behind))] at walked
  obtain ⟨rfl, -⟩ := EStateM.pure_eq_ok_iff.mp walked
  exact ⟨operands, popped, run, through, between, left, right, met, forks, walking, meets, joined⟩

/-! ## What frames are like on the way -/

/-- What the frame is like before each instruction of a counted loop, where `known` tells whether
the counter is known not to be negative. Behind the loop nothing is said, except that the jump back
has been noted. -/
def Stage (known : Bool) (length : Nat) (f : Frame) : Nat → Prop
  | 0 => f.returned = none
  | 1 => ∃ counter rest v, f.stack = counter :: rest ∧ counter ∉ rest ∧ counter ∉ f.locals ∧
      f.returned = none ∧ f.vars[counter]? = some v ∧ v.sign.Tells known
  | 2 => ∃ counter, f.Counts (Sign.Tells known) counter
  | 3 => ∃ counter rest, f.stack = counter :: rest ∧
      ({ f with stack := rest } : Frame).Counts (Sign.Tells known) counter
  | 4 => ∃ array counter rest, f.stack = array :: counter :: rest ∧ f.locals[0]? = some array ∧
      ({ f with stack := rest } : Frame).Counts (Sign.Tells known) counter
  | 5 =>
      ∃ bound counter rest array w, f.stack = bound :: counter :: rest ∧ f.locals[0]? = some array ∧
      ({ f with stack := rest } : Frame).Counts (Sign.Tells known) counter ∧ counter ≠ bound ∧
      f.vars[bound]? = some w ∧ array ∈ w.atMost
  | i + 6 => (i ≤ length → f.pendingJump = none ∧ ∃ array counter, f.Guards known array counter) ∧
      (i = length + 1 → f.pendingJump = none ∧ ∃ counter, f.Counts (Sign.Tells known) counter) ∧
      (i = length + 2 → f.pendingJump = some 2 ∧ f.pc = length + 7 ∧
        ∃ counter, f.Counts (Sign.Tells known) counter)

variable {known : Bool} {length position : Nat}

private theorem Stage.of_guards {i : Nat} {array counter : VarId} (inside : i ≤ length)
    (clear : f.pendingJump = none) (guards : f.Guards known array counter) :
    Stage known length f (i + 6) :=
  ⟨fun _ => ⟨clear, array, counter, guards⟩, fun behind => absurd behind (by omega),
    fun outside => absurd outside (by omega)⟩

private theorem Stage.of_counts {counter : VarId} (clear : f.pendingJump = none)
    (counts : f.Counts (Sign.Tells known) counter) : Stage known length f (length + 7) :=
  ⟨fun inside => absurd inside (by omega), fun _ => ⟨clear, counter, counts⟩,
    fun outside => absurd outside (by omega)⟩

/-- The stage does not depend on where the frame stands, as long as it is on the way. -/
theorem Stage.entered (stage : Stage known length f position) (inside : position ≤ length + 7) :
    Stage known length { f with pc := position } position := by
  have still {counter : VarId} {rest : List VarId}
      (counts : ({ f with stack := rest } : Frame).Counts (Sign.Tells known) counter) :
      ({ f with pc := position, stack := rest } : Frame).Counts (Sign.Tells known) counter :=
        counts.congr rfl rfl rfl rfl
  match position, stage with
  | 0, stage => exact stage
  | 1, stage => exact stage
  | 2, ⟨counter, counts⟩ => exact ⟨counter, still counts⟩
  | 3, ⟨counter, rest, stack, counts⟩ => exact ⟨counter, rest, stack, still counts⟩
  | 4, ⟨array, counter, rest, stack, first, counts⟩ =>
      exact ⟨array, counter, rest, stack, first, still counts⟩
  | 5, ⟨bound, counter, rest, array, w, stack, first, counts, more⟩ =>
      exact ⟨bound, counter, rest, array, w, stack, first, still counts, more⟩
  | i + 6, ⟨guarded, counted, _⟩ =>
      refine ⟨fun within => ?_, fun behind => ?_, fun outside => absurd outside (by omega)⟩
      · obtain ⟨clear, array, counter, guards⟩ := guarded within
        exact ⟨clear, array, counter, guards.first, guards.second, guards.unreturned, guards.found⟩
      · obtain ⟨clear, counter, counts⟩ := counted behind
        exact ⟨clear, counter, still counts⟩

section

variable {unproved : Option Access}

/-- The start of the counter is on the stack. -/
private theorem Stage.const {start : Int32} (stage : Stage (decide (0 ≤ start.toInt)) length f 0)
    (closed : f.Closed) (moved : f.transfer (.const (.int start)) = .ok (g, unproved)) :
    Stage (decide (0 ≤ start.toInt)) length g 1 := by
  obtain rfl := Frame.eq_of_return moved
  have fresh {id : VarId} (held : f.Held id) : id ≠ f.nextId := Nat.ne_of_lt (closed.held held)
  refine ⟨f.nextId, f.stack, Constant.variable (.int start) f.pc, rfl, ?_, ?_, stage, ?_,
    Sign.tells_ofInt _⟩
  · exact fun onStack => fresh (.inl onStack) rfl
  · exact fun inSlot => fresh (.inr (.inl inSlot)) rfl
  · exact (f.vars_alloc _ _).trans (if_pos rfl)

/-- The counter has its first value. -/
private theorem Stage.store {kind : ValueKind} (stage : Stage known length f 1) (closed : f.Closed)
    (moved : f.transfer (.store kind 1) = .ok (g, unproved)) : Stage known length g 2 := by
  obtain ⟨counter, rest, v, stack, aside, absent, unreturned, found, tells⟩ := stage
  obtain ⟨h, stored, returned⟩ := Except.bind_eq_ok_iff.mp moved
  obtain rfl := Frame.eq_of_return returned
  exact ⟨counter, closed.counts_store stack aside absent unreturned found tells stored⟩

/-- The counter is on the stack. -/
private theorem Stage.loadCounter {kind : ValueKind} (stage : Stage known length f 2)
    (moved : f.transfer (.load kind 1) = .ok (g, unproved)) : Stage known length g 3 := by
  obtain ⟨counter, counts⟩ := stage
  obtain rfl := Frame.eq_of_return moved
  have slot : f.locals[(1 : UInt16).toNat]? = some counter := counts.slot
  rw [Frame.load_of_local slot]
  exact ⟨counter, f.stack, rfl, counts⟩

/-- The counter and the array are on the stack. -/
private theorem Stage.loadArray {kind : ValueKind} (stage : Stage known length f 3)
    (moved : f.transfer (.load kind 0) = .ok (g, unproved)) : Stage known length g 4 := by
  obtain ⟨counter, rest, stack, counts⟩ := stage
  obtain rfl := Frame.eq_of_return moved
  obtain ⟨array, first⟩ := counts.exists_first
  have slot : f.locals[(0 : UInt16).toNat]? = some array := first
  rw [Frame.load_of_local slot]
  exact ⟨array, counter, rest, congrArg (array :: ·) stack, first, counts⟩

/-- The counter and the length of the array are on the stack. -/
private theorem Stage.arrayLength (stage : Stage known length f 4) (closed : f.Closed)
    (moved : f.transfer .arrayLength = .ok (g, unproved)) : Stage known length g 5 := by
  obtain ⟨array, counter, rest, stack, first, counts⟩ := stage
  obtain ⟨h, measured, returned⟩ := Except.bind_eq_ok_iff.mp moved
  obtain rfl := Frame.eq_of_return returned
  obtain ⟨⟨array', popped⟩, popping, pushed⟩ := Except.bind_eq_ok_iff.mp measured
  obtain ⟨_, stack', rfl⟩ := Frame.pop_eq_ok_iff.mp popping
  obtain ⟨rfl, rfl⟩ := List.cons.inj (stack.symm.trans stack')
  obtain rfl := Except.pure_eq_ok_iff.mp pushed
  have old : counter ≠ f.nextId :=
    Nat.ne_of_lt (closed.held (.inr (.inl (Array.mem_of_getElem? counts.slot))))
  refine ⟨f.nextId, counter, rest, array, _, rfl, first, counts.congr rfl rfl rfl ?_, old,
    (f.vars_alloc _ _).trans (if_pos rfl), Std.ExtTreeSet.mem_insert_self⟩
  exact (f.vars_alloc _ _).trans (if_neg old.symm)

/-- The counter goes forward. -/
private theorem Stage.increment {stride : Int16} (stage : Stage known length f (length + 6))
    (closed : f.Closed) (forward : 0 < stride.toInt)
    (moved : f.transfer (.increment 1 stride) = .ok (g, unproved)) :
    Stage known length g (length + 7) := by
  obtain ⟨clear, array, counter, guards⟩ := stage.1 (Nat.le_refl length)
  obtain rfl := Frame.eq_of_return moved
  have kept : (f.increment 1 stride.toInt).pendingJump = f.pendingJump :=
    congrArg Control.pendingJump (f.control_increment 1 stride.toInt)
  exact .of_counts (kept.trans clear) (guards.counts_increment closed forward)

/-- The walk jumps back to the test. -/
private theorem Stage.goto (stage : Stage known length f (length + 7)) (here : f.pc = length + 7)
    (moved : f.transfer (.goto 2) = .ok (g, unproved)) : Stage known length g (length + 8) := by
  obtain ⟨clear, counter, counts⟩ := stage.2.1 rfl
  obtain rfl := Frame.eq_of_return moved
  refine ⟨fun within => absurd within (by omega), fun behind => absurd behind (by omega),
    fun _ => ⟨rfl, here, counter, ?_⟩⟩
  exact counts.congr rfl rfl rfl rfl

end

/-- The instructions of the block leave what is known about the counter alone. -/
theorem Stage.straight (stage : Stage known length f position) (closed : f.Closed)
    (inside : 6 ≤ position ∧ position < length + 6) (straight : instruction.isStraight = true)
    (kept : instruction.written ≠ some 0 ∧ instruction.written ≠ some 1)
    (success : proceed setting body callee instruction f before = .ok g after) :
    Stage known length g (position + 1) := by
  obtain ⟨i, rfl⟩ := Nat.exists_eq_add_of_le' inside.1
  obtain ⟨clear, array, counter, guards⟩ := stage.1 (by omega)
  have control := control_proceed success
  rw [Instruction.isStraight.after straight] at control
  have jump : g.pendingJump = f.pendingJump := congrArg Control.pendingJump control
  have guards := guards.edits closed (edits_proceed success) kept
  rw [Nat.add_right_comm]
  exact .of_guards (by omega) (jump.trans clear) guards

/-- The test leads into the loop, or out of it with a counter that is not less than the length. -/
theorem Stage.test {operands : List VarId} {popped : Frame} (stage : Stage known length f 5)
    (popping : f.popN 2 = .ok (operands, popped)) :
    Stage known length (popped.fork.assumeCondition (.ints .ge) operands false) 6 ∧
      ∃ counter,
        (popped.assumeCondition (.ints .ge) operands true).Counts (Sign.Allows known) counter := by
  obtain ⟨bound, counter, rest, array, w, stack, first, counts, differ, found, bounded⟩ := stage
  obtain ⟨-, rfl, rfl⟩ := Frame.popN_eq_ok_iff.mp popping
  rw [stack]
  have clear :
      (({ f with stack := rest } : Frame).fork.assumeCondition (.ints .ge) [counter, bound]
        false).pendingJump = none := by
    rw [← Frame.control_pendingJump, Frame.control_assumeCondition]
    rfl
  have fork : ({ f with stack := rest } : Frame).fork.Counts (Sign.Tells known) counter :=
    counts.congr rfl rfl rfl rfl
  have guards := fork.guards first differ found bounded
  exact ⟨.of_guards (Nat.zero_le length) clear guards, counter, counts.allows differ found⟩

/-- The test lets the counter into the loop below the length only. -/
private theorem Stage.forks {operands : List VarId} {popped : Frame} {target : Nat} {run : Run}
    (stage : Stage known length s.frame s.first) (first : s.first = 5)
    (forks : Forks setting body s (.ints .ge) target operands popped run) :
    Stage known length (s.through (.ints .ge) target operands popped run).frame
        (s.through (.ints .ge) target operands popped run).first ∧
      ∃ counter,
        (popped.assumeCondition (.ints .ge) operands true).Counts (Sign.Allows known) counter := by
  have entered := stage.entered (by omega)
  have popping := forks.popping
  change Stage _ _ _ (s.first + 1) ∧ _
  rw [first] at entered ⊢
  rw [Stretch.entry, first] at popping
  exact entered.test popping

/-! ## One instruction -/

section

variable {start : Int32} {stride : Int16} {block : List Instruction}

private theorem length_loopHead_append :
    (loopHead start block.length ++ block).length = block.length + 6 := by
  rw [List.length_append, Nat.add_comm]
  rfl

/-- The instructions of the block stand behind the test. -/
private theorem getElem?_block {i : Nat} (inside : i < block.length) :
    (countedLoop start stride block)[i + 6]? = block[i]? := by
  have front : i + 6 < (loopHead start block.length ++ block).length := by
    rw [length_loopHead_append]
    omega
  rw [countedLoop, List.getElem?_append_left front]
  rfl

private theorem getElem?_end (i : Nat) : (countedLoop start stride block)[block.length + 6 + i]? =
    ([.increment 1 stride, .goto 2, .ret none] : List Instruction)[i]? := by
  have front : (loopHead start block.length ++ block).length = block.length + 6 :=
    length_loopHead_append
  rw [countedLoop, List.getElem?_append_right (by omega), front, Nat.add_sub_cancel_left]

variable (code : body.method.instructions = (countedLoop start stride block).toArray)
include code

/-- Behind the loop there is nothing but the return. -/
private theorem eq_ret_of_le (outside : block.length + 8 ≤ position)
    (found : body.method.instructions[position]? = some instruction) : instruction = .ret none := by
  obtain ⟨k, rfl⟩ := Nat.exists_eq_add_of_le outside
  have behind : block.length + 8 + k = block.length + 6 + (k + 2) := by omega
  rw [code, List.getElem?_toArray, behind, getElem?_end] at found
  match k with
  | 0 => exact (Option.some.inj found).symm
  | _ + 1 => cases found

/-- Instructions that proceed belong to the loop. -/
private theorem lt_of_proceeds (found : body.method.instructions[position]? = some instruction)
    (proceeds : instruction.proceeds = true) : position < block.length + 8 := by
  by_contra outside
  obtain rfl := eq_ret_of_le code (Nat.le_of_not_lt outside) found
  cases proceeds

variable (straight : ∀ instruction ∈ block,
  instruction.isStraight = true ∧ instruction.written ≠ some 0 ∧ instruction.written ≠ some 1)
include straight

/-- All instructions but the test and the return lead to the next one. -/
theorem goesOn_countedLoop (inside : position < block.length + 8) (before : position ≠ 5) :
    ∃ instruction, body.method.instructions[position]? = some instruction ∧
      instruction.goesOn = true := by
  rw [code, List.getElem?_toArray]
  match position with
  | 0 | 1 | 2 | 3 | 4 => exact ⟨_, rfl, rfl⟩
  | 5 => exact absurd rfl before
  | i + 6 =>
      by_cases within : i < block.length
      · rw [getElem?_block within, List.getElem?_eq_getElem within]
        exact ⟨_, rfl, Instruction.isStraight.goesOn (straight _ (List.getElem_mem within)).1⟩
      · have last : i + 6 = block.length + 6 + 0 ∨ i + 6 = block.length + 6 + 1 := by omega
        rcases last with last | last
        · rw [last, getElem?_end]
          exact ⟨_, rfl, rfl⟩
        · rw [last, getElem?_end]
          exact ⟨_, rfl, rfl⟩

variable (forward : 0 < stride.toInt)
include forward

/-- Each of them leads to the next stage. -/
theorem Stage.proceed (stage : Stage (decide (0 ≤ start.toInt)) block.length f position)
    (closed : f.Closed) (here : f.pc = position)
    (found : body.method.instructions[position]? = some instruction)
    (proceeds : instruction.proceeds = true)
    (success : proceed setting body callee instruction f before = .ok g after) :
    Stage (decide (0 ≤ start.toInt)) block.length g (position + 1) := by
  have inside := lt_of_proceeds code found proceeds
  rw [code, List.getElem?_toArray] at found
  match position with
  | 0 =>
      obtain rfl := Option.some.inj found
      obtain ⟨_, moved⟩ := transfer_of_proceed rfl success
      exact stage.const closed moved
  | 1 =>
      obtain rfl := Option.some.inj found
      obtain ⟨_, moved⟩ := transfer_of_proceed rfl success
      exact stage.store closed moved
  | 2 =>
      obtain rfl := Option.some.inj found
      obtain ⟨_, moved⟩ := transfer_of_proceed rfl success
      exact stage.loadCounter moved
  | 3 =>
      obtain rfl := Option.some.inj found
      obtain ⟨_, moved⟩ := transfer_of_proceed rfl success
      exact stage.loadArray moved
  | 4 =>
      obtain rfl := Option.some.inj found
      obtain ⟨_, moved⟩ := transfer_of_proceed rfl success
      exact stage.arrayLength closed moved
  | 5 =>
      obtain rfl := Option.some.inj found
      cases proceeds
  | i + 6 =>
      by_cases within : i < block.length
      · rw [getElem?_block within] at found
        obtain ⟨plain, kept⟩ := straight instruction (List.mem_of_getElem? found)
        exact stage.straight closed ⟨by omega, by omega⟩ plain kept success
      · obtain ⟨k, rfl⟩ := Nat.exists_eq_add_of_le (Nat.le_of_not_lt within)
        rw [Nat.add_right_comm, getElem?_end] at found
        have last : k = 0 ∨ k = 1 := by omega
        rcases last with rfl | rfl
        · obtain rfl := Option.some.inj found
          obtain ⟨_, moved⟩ := transfer_of_proceed rfl success
          exact stage.increment closed forward moved
        · obtain rfl := Option.some.inj found
          obtain ⟨_, moved⟩ := transfer_of_proceed rfl success
          exact stage.goto here moved

/-- Each instruction leads from its stage to the next. -/
private theorem Stage.onward (stage : Stage (decide (0 ≤ start.toInt)) block.length s.frame s.first)
    (closed : s.frame.Closed) (onward : Onward setting body callee s t) :
    Stage (decide (0 ≤ start.toInt)) block.length t.frame t.first := by
  obtain ⟨instruction, before, found, proceeds, success, next, -⟩ := onward.exists_proceed
  have inside := lt_of_proceeds code found proceeds
  have entered : s.entry.Closed := Frame.invariant_closed.moved closed s.first
  rw [next]
  exact (stage.entered (Nat.le_of_lt_succ inside)).proceed code straight forward entered rfl found
    proceeds success

/-- A walk without branches leads from stage to stage. -/
private theorem Stage.run (stage : Stage (decide (0 ≤ start.toInt)) block.length s.frame s.first)
    (closed : s.frame.Closed) (run : Relation.ReflTransGen (Onward setting body callee) s t) :
    t.frame.Closed ∧ Stage (decide (0 ≤ start.toInt)) block.length t.frame t.first := by
  induction run with
  | refl => exact ⟨closed, stage⟩
  | tail _ onward ih =>
      exact ⟨onward.part.closed ih.1, ih.2.onward code straight forward ih.1 onward⟩

/-! ## One pass -/

/-- A walk through the rest of the loop ends at the stage behind it. -/
theorem Stage.outcome (stage : Stage (decide (0 ≤ start.toInt)) block.length s.frame s.first)
    (closed : s.frame.Closed) (inside : 6 ≤ s.first) (reach : s.first ≤ s.last + 1)
    (short : s.last ≤ block.length + 7) (walked : outcome setting body callee s = .ok g after) :
    g.Closed ∧ Stage (decide (0 ≤ start.toInt)) block.length g (s.last + 1) := by
  obtain ⟨count, past⟩ := Nat.exists_eq_add_of_le reach
  have each : ∀ i < count, ∃ instruction,
      body.method.instructions[s.first + i]? = some instruction ∧ instruction.goesOn = true :=
    fun i less => goesOn_countedLoop code straight (by omega) (by omega)
  obtain ⟨t, run, first, last, walked⟩ := exists_straight_of_outcome each (by omega) walked
  rw [Interpreter.outcome, walk_empty _ _ _ _ (.inl (by omega))] at walked
  obtain ⟨rfl, -⟩ := EStateM.pure_eq_ok_iff.mp walked
  rw [past, ← first]
  exact stage.run code straight forward closed run

/-- Hence the side of the test that stays in the loop ends behind it, or at the end of the range. -/
theorem Stage.through {operands : List VarId} {popped : Frame} {run : Run}
    (stage : Stage (decide (0 ≤ start.toInt)) block.length s.frame s.first) (first : s.first = 5)
    (closed : s.frame.Closed) (long : 5 ≤ s.last)
    (forks : Forks setting body s (.ints .ge) (block.length + 8) operands popped run)
    (walked : Interpreter.outcome setting body callee
      (s.through (.ints .ge) (block.length + 8) operands popped run) = .ok g after) :
    g.Closed ∧
      Stage (decide (0 ≤ start.toInt)) block.length g (min (block.length + 7) s.last + 1) := by
  have armFirst : (s.through (.ints .ge) (block.length + 8) operands popped run).first = 6 :=
    congrArg (· + 1) first
  have armLast : (s.through (.ints .ge) (block.length + 8) operands popped run).last =
      min (block.length + 7) s.last := rfl
  have part : Part setting body callee s _ := .arm (.through forks)
  obtain ⟨inside, -⟩ := stage.forks first forks
  rw [← armLast]
  exact inside.outcome code straight forward (part.closed closed) (by omega) (by omega)
    (by omega) walked

/-- A pass ends with a counter whose sign tells the same. -/
theorem counts_of_pass {counter : VarId}
    (counts : f.Counts (Sign.Tells (decide (0 ≤ start.toInt))) counter) (closed : f.Closed)
    (walked : walk setting body callee 2 (block.length + 6) f before = .ok g after) :
    g.Closed ∧ ∃ counter, g.Counts (Sign.Tells (decide (0 ≤ start.toInt))) counter := by
  let s : Stretch := ⟨2, block.length + 6, f, before⟩
  have each : ∀ i < 3, ∃ instruction, body.method.instructions[s.first + i]? = some instruction ∧
      instruction.goesOn = true := by
    intro i less
    apply goesOn_countedLoop code straight
    · change 2 + i < _
      omega
    · change 2 + i ≠ 5
      omega
  have reach : s.first + 3 ≤ s.last + 1 := by
    change 5 ≤ block.length + 7
    omega
  obtain ⟨t, run, first, last, walked⟩ := exists_straight_of_outcome each reach walked
  have head : Stage (decide (0 ≤ start.toInt)) block.length s.frame s.first := ⟨counter, counts⟩
  obtain ⟨closed, stage⟩ := head.run code straight forward closed run
  have test : body.method.instructions[5]? = some (.branch (.ints .ge) (block.length + 8)) := by
    rw [code]
    rfl
  change t.first = 5 at first
  change t.last = block.length + 6 at last
  rw [← first] at test
  obtain ⟨operands, popped, announced, through, _, left, right, _, forks, walking, meets, rfl⟩ :=
    exists_meets_of_outcome test (by omega) (by omega) walked
  obtain ⟨inside, counter, allowed⟩ := stage.forks first forks
  have closedPopped := (Frame.invariant_closed.moved closed t.first).popN forks.popping
  have closedTaken := closedPopped.closed.assumeCondition (.ints .ge) operands true
  obtain ⟨closedThrough, behind⟩ :=
    stage.through code straight forward first closed (by omega) forks walking
  have short : min (block.length + 7) t.last + 1 = block.length + 7 := by omega
  rw [short] at behind
  -- The range ends before the jump back, so both sides of the test meet at once.
  obtain ⟨clear, counter', counts⟩ := behind.2.1 rfl
  cases meets with
  | straight =>
      exact ⟨Frame.invariant_closed.joined closedTaken closedThrough, counter,
        allowed.join closedTaken counts⟩
  | back pending | skip pending | arm pending =>
      rw [clear] at pending
      cases pending

/-- Passes over the loop keep what is told of the counter. -/
private theorem Passes.counts {flags : List Bool} {counter : VarId} {left : Run}
    (passes : Passes (walk setting body callee 2 (block.length + 6)) flags f before g left)
    (counts : f.Counts (Sign.Tells (decide (0 ≤ start.toInt))) counter) (closed : f.Closed) :
    g.Counts (Sign.Tells (decide (0 ≤ start.toInt))) counter := by
  induction passes with
  | none => exact counts
  | @more f after g run between left flags passed rest ih =>
      have fork : f.fork.Counts (Sign.Tells (decide (0 ≤ start.toInt))) counter :=
        counts.congr rfl rfl rfl rfl
      obtain ⟨closed', counter', counts'⟩ :=
        counts_of_pass code straight forward fork (Frame.invariant_closed.forked closed) passed
      -- The frame at the head keeps its own counter, and learns of the counter that the pass ends
      -- with.
      apply ih
      · exact (counts.imp fun _ => Sign.Tells.allows).join closed counts'
      · exact Frame.invariant_closed.joined closed closed'

/-! ## All passes -/

omit forward in
/-- The test is the only branch. -/
theorem eq_of_branch {condition : Condition} {target : Nat}
    (found : body.method.instructions[position]? = some (.branch condition target)) :
    position = 5 ∧ condition = .ints .ge ∧ target = block.length + 8 := by
  by_cases test : position = 5
  · subst test
    rw [code] at found
    obtain ⟨rfl, rfl⟩ := Instruction.branch.inj (Option.some.inj found)
    exact ⟨rfl, rfl, rfl⟩
  · by_cases inside : position < block.length + 8
    · obtain ⟨instruction, found', goesOn⟩ := goesOn_countedLoop code straight inside test
      obtain rfl := Option.some.inj (found.symm.trans found')
      cases goesOn
    · cases eq_ret_of_le code (Nat.le_of_not_lt inside) found

end

/-- A stretch on the way through the loop: the frame is as the position says, and a stretch that
starts before the block goes up to the return or, in a pass, up to the jump back. -/
structure InLoop (start : Int32) (block : List Instruction) (s : Stretch) : Prop where
  closed : s.frame.Closed
  stage : s.first ≤ block.length + 7 → Stage (decide (0 ≤ start.toInt)) block.length s.frame s.first
  last : s.first ≤ 5 → s.last = block.length + 8 ∨ s.last = block.length + 6

section

variable {start : Int32} {stride : Int16} {block : List Instruction}
  (code : body.method.instructions = (countedLoop start stride block).toArray)
  (straight : ∀ instruction ∈ block, instruction.isStraight = true ∧ instruction.written ≠ some 0 ∧
  instruction.written ≠ some 1) (forward : 0 < stride.toInt)
include code straight forward

/-- If the side of the test that stays in the loop ends in a jump, it is the jump back at the end of
the loop. -/
theorem InLoop.jump {condition : Condition} {target back : Nat} {operands : List VarId}
    {popped : Frame} {run : Run} (inLoop : InLoop start block s)
    (forks : Forks setting body s condition target operands popped run)
    (walked : outcome setting body callee (s.through condition target operands popped run) =
      .ok g after) (pending : g.pendingJump = some back) :
    back = 2 ∧ min (g.pc - 1) s.last = block.length + 6 ∧ g.Closed ∧
      ∃ counter, g.Counts (Sign.Tells (decide (0 ≤ start.toInt))) counter := by
  obtain ⟨first, rfl, rfl⟩ := eq_of_branch code straight forks.found
  have stage := inLoop.stage (by omega)
  have last := inLoop.last (by omega)
  obtain ⟨closed, behind⟩ :=
    stage.through code straight forward first inLoop.closed (by omega) forks walked
  -- Outside of a pass the arm reaches the jump back, in a pass it stops before it.
  rcases last with last | last
  · have long : min (block.length + 7) s.last + 1 = block.length + 8 := by omega
    rw [long] at behind
    obtain ⟨jumps, pc, counts⟩ := behind.2.2 rfl
    rw [pc, last]
    exact ⟨Option.some.inj (pending.symm.trans jumps), by omega, closed, counts⟩
  · have short : min (block.length + 7) s.last + 1 = block.length + 7 := by omega
    rw [short] at behind
    rw [(behind.2.1 rfl).1] at pending
    cases pending

/-- The next stretch is at the stage of its first instruction. -/
private theorem InLoop.next (inLoop : InLoop start block s) (next : Next setting body callee s t) :
    InLoop start block t := by
  obtain ⟨later, last⟩ := next.later
  refine ⟨(Part.next next).closed inLoop.closed, fun inside => ?_,
    fun early => last ▸ inLoop.last (by omega)⟩
  by_cases test : s.first = 5
  · have branch :
        body.method.instructions[s.first]? = some (.branch (.ints .ge) (block.length + 8)) := by
      rw [test, code]
      rfl
    have ahead : s.entry.pc < block.length + 8 := by
      change s.first < _
      omega
    cases next with
    | onward found reach stepped =>
        obtain rfl := Option.some.inj (branch.symm.trans found)
        obtain ⟨position, h, impossible, -⟩ := le_of_branch_ahead ahead stepped
        cases impossible
    | ahead found reach stepped =>
        obtain rfl := Option.some.inj (branch.symm.trans found)
        obtain ⟨position, h, same, behind⟩ := le_of_branch_ahead ahead stepped
        obtain ⟨rfl, rfl⟩ := Flow.resume.inj same
        exact absurd behind (Nat.not_le_of_lt (Nat.lt_succ_of_le inside))
  · obtain ⟨instruction, found', goesOn⟩ := goesOn_countedLoop code straight (by omega) test
    cases next with
    | onward found reach stepped =>
        obtain rfl := Option.some.inj (found'.symm.trans found)
        have onward : Onward setting body callee s _ :=
          .intro found reach (proceeds_of_goesOn goesOn stepped) stepped
        exact (inLoop.stage (by omega)).onward code straight forward inLoop.closed onward
    | ahead found reach stepped =>
        obtain rfl := Option.some.inj (found'.symm.trans found)
        obtain ⟨h, impossible, -⟩ := edits_of_step (proceeds_of_goesOn goesOn stepped) stepped
        cases impossible

/-- The arms of the test are at the stages of their first instructions. -/
private theorem InLoop.arm (inLoop : InLoop start block s) (arm : Arm setting body callee s t) :
    InLoop start block t := by
  have closed := (Part.arm arm).closed inLoop.closed
  cases arm with
  | through forks =>
      obtain ⟨first, rfl, rfl⟩ := eq_of_branch code straight forks.found
      obtain ⟨stage, -⟩ := (inLoop.stage (by omega)).forks first forks
      refine ⟨closed, fun _ => stage, fun early => ?_⟩
      change s.first + 1 ≤ 5 at early
      omega
  | taken forks walked pending later =>
      obtain ⟨first, -⟩ := eq_of_branch code straight forks.found
      obtain ⟨rfl, -⟩ := inLoop.jump code straight forward forks walked pending
      omega

/-- Another pass over the loop is at the stage of the test. -/
private theorem InLoop.again (inLoop : InLoop start block s)
    (again : Repeat setting body callee s t) : InLoop start block t := by
  have closed := (Part.again again).closed inLoop.closed
  cases again with
  | jump part walked pending behind announces again =>
      cases part with
      | through forks =>
          obtain ⟨rfl, stop, closed', counter, counts⟩ :=
            inLoop.jump code straight forward forks walked pending
          obtain ⟨flags, -, -, passes⟩ := again
          rw [stop] at passes
          have counts := passes.counts code straight forward counts closed'
          exact ⟨closed, fun _ => ⟨counter, counts.congr rfl rfl rfl rfl⟩, fun _ => .inr stop⟩
      | taken forks walked' pending' later =>
          obtain ⟨first, -⟩ := eq_of_branch code straight forks.found
          obtain ⟨rfl, -⟩ := inLoop.jump code straight forward forks walked' pending'
          omega
  | branch arrives behind =>
      obtain ⟨first, -, rfl⟩ := eq_of_branch code straight arrives.found
      omega

/-- All of the walk is at the stage of its instructions. -/
private theorem inLoop_of_within (inLoop : InLoop start block s)
    (within : Within setting body callee s t) : InLoop start block t := by
  induction within with
  | refl => exact inLoop
  | tail _ part ih =>
      cases part with
      | next next => exact ih.next code straight forward next
      | arm arm => exact ih.arm code straight forward arm
      | again again => exact ih.again code straight forward again

omit straight forward in
/-- The walk begins at the first stage. -/
private theorem Begins.inLoop {run : Run} (begins : Begins setting body run s) :
    InLoop start block s := by
  have size : body.method.instructions.size = block.length + 9 := by
    rw [code, List.size_toArray, countedLoop, List.length_append, length_loopHead_append]
    rfl
  cases begins with
  | @intro descriptor announced =>
      have developed := initialFrame_develops body descriptor
      exact ⟨developed.closed, fun _ => developed.returned, fun _ => .inl (congrArg (· - 1) size)⟩

omit code straight forward in
/-- Within the block the access is in bounds if the counter does not start below zero. -/
private theorem InLoop.check {access : Access} (inLoop : InLoop start block s)
    (inside : 6 ≤ s.first ∧ s.first < block.length + 6)
    (array : s.frame.locals[0]? = some access.array)
    (index : s.frame.locals[1]? = some access.index) :
    (s.entry.checkAccess access).2 = none ↔ 0 ≤ start.toInt := by
  have stage := inLoop.stage (by omega)
  obtain ⟨i, position⟩ := Nat.exists_eq_add_of_le' inside.1
  rw [position] at stage
  obtain ⟨-, array', counter, guards⟩ := stage.1 (by omega)
  obtain ⟨v, found, tells, bounded⟩ := guards.found
  obtain rfl := Option.some.inj (array.symm.trans guards.first)
  obtain rfl := Option.some.inj (index.symm.trans guards.second)
  rw [Frame.checkAccess_eq_none_iff]
  change s.frame.vars[access.index]?.any _ = true ↔ _
  rw [found, Option.any_some, Variable.isSafeFor, Std.ExtTreeSet.contains_iff_mem.mpr bounded,
    Bool.and_true, tells.2, decide_eq_true_iff]

/-- **Counted loops.** In a counted loop over an array, whose block runs straight through and writes
neither of the two slots, a check in the block of the element of the array at the counter passes
exactly if the loop starts at a number that is not negative, and else the access is reported. This
holds in every pass over the loop. -/
theorem findings_of_countedLoop {run : Run} {access : Access} (begins : Begins setting body run s)
    (within : Within setting body callee s t) (inside : 6 ≤ t.first ∧ t.first < block.length + 6)
    (accesses : Accesses body t access) (array : t.frame.locals[0]? = some access.array)
    (index : t.frame.locals[1]? = some access.index) :
    ((t.entry.checkAccess access).2 = none ↔ 0 ≤ start.toInt) ∧
      ∃ next, Onward setting body callee t next ∧
        next.run.findings =
          if 0 ≤ start.toInt then t.run.findings
          else t.run.findings.insert (body.report t.first) := by
  have inLoop := inLoop_of_within code straight forward (begins.inLoop code) within
  have check := inLoop.check inside array index
  exact ⟨check, accesses.exists_findings check⟩

end

end Interpreter

open Interpreter

/-! ## A loop that reads an array -/

def elementRead : List Instruction :=
  [.load .reference 0, .load .int 1, .arrayLoad .int, .stack .pop]

/-- Reads the elements of an array one after the other. -/
def readAll : Method :=
  { name := "readAll", descriptor := "([I)V", access := ⟨8⟩,
    instructions := (countedLoop 0 1 elementRead).toArray }

def scanner : Body :=
  { owner := { name := "demo/Scanner", methods := [readAll] }, method := readAll }

def scannerSetting : Setting :=
  { repository := ({} : Repository).addAll [scanner.owner], analyzed := ["demo/Scanner"] }

def scannerStart : Stretch :=
  ⟨0, 12, initialFrame scanner ⟨[.array .int], none⟩, ({} : Run).enter scanner.key⟩

/-- In a pass over the loop, which ends before the jump back, the element is read without a
report. -/
theorem scanner_reads_silently :
    Begins scannerSetting scanner {} scannerStart ∧ ∃ t next access,
      Within scannerSetting scanner (analyzeMethod scannerSetting 1) scannerStart t ∧
      t.first = 8 ∧ t.last = 10 ∧
      Accesses scanner t access ∧ t.frame.locals[0]? = some access.array ∧
      t.frame.locals[1]? = some access.index ∧ (t.entry.checkAccess access).2 = none ∧
      Onward scannerSetting scanner (analyzeMethod scannerSetting 1) t next ∧
      next.run.findings = t.run.findings := by
  have begins : Begins scannerSetting scanner {} scannerStart := .intro (by cbv) rfl rfl rfl
  obtain ⟨t, access, within, first, last, accesses, array, index⟩ : ∃ t access,
      Within scannerSetting scanner (analyzeMethod scannerSetting 1) scannerStart t ∧
      t.first = 8 ∧ t.last = 10 ∧
      Accesses scanner t access ∧ t.frame.locals[0]? = some access.array ∧
      t.frame.locals[1]? = some access.index := by
    -- To the test, through the block and the jump back, and in the pass that follows up to the
    -- read.
    have test : Within scannerSetting scanner (analyzeMethod scannerSetting 1) scannerStart _ :=
      within_of_following? 5 rfl
    have pass := test.tail (.again (.jump (.through ⟨⟨rfl, by decide, rfl⟩, by decide, rfl⟩)
      (outcome_of_straight
      (straight_of_following? 6 (by decide) (by decide) rfl).to_reflTransGen (by decide))
      rfl (by decide) rfl ⟨[], by simp, by decide, .none _ _⟩))
    have block := (pass.trans (within_of_following? 3 rfl)).tail
      (.arm (.through ⟨⟨rfl, by decide, rfl⟩, by decide, rfl⟩))
    exact ⟨_, _, block.trans (within_of_following? 2 rfl), rfl, rfl,
      .intro rfl (by decide) rfl, rfl, rfl⟩
  have inside : 6 ≤ t.first ∧ t.first < elementRead.length + 6 := by
    rw [first]
    decide
  have straight : ∀ instruction ∈ elementRead,
      instruction.isStraight = true ∧ instruction.written ≠ some 0 ∧
        instruction.written ≠ some 1 := by decide
  obtain ⟨check, next, onward, findings⟩ :=
    findings_of_countedLoop rfl straight (by decide) begins within inside accesses array index
  have start : 0 ≤ (0 : Int32).toInt := by decide
  rw [if_pos start] at findings
  exact ⟨begins, t, next, access, within, first, last, accesses, array, index, check.mpr start,
    onward, findings⟩

end ArrayBounds
