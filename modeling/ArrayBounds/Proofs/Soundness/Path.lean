import ArrayBounds.Proofs.Soundness.Effects
import ArrayBounds.Proofs.Structured.Code

/-! # Soundness along a path

Along a path through a method the analysis keeps describing the execution: if a frame describes the
values at the start, the frame that the interpreter computes along the path describes the values at
the end (`ArrayBounds.Journey.describes_arrival`). In particular an array access that is not
reported there is in bounds.

The statement is about every path of instructions on integers and references and of branches to the
side that is taken, and about every execution along it that raises no exception.
-/

namespace ArrayBounds

open Program Interpreter

/-- One step of a path: an instruction, or a branch with the side that is taken. -/
inductive Turn where
  | execute (position : Nat) (instruction : Instruction)
  | branch (position : Nat) (condition : Condition) (taken : Bool)

namespace Turn

/-- What the interpreter does at one step of a path. -/
def run (setting : Setting) (body : Body) (callee : Callee) (f : Frame) : Turn → Analysis Frame
  | execute position instruction =>
      Code.reach setting body position f >>= proceed setting body callee instruction
  | branch position condition taken =>
      Code.reach setting body position f >>= assuming condition taken

/-- The execution comes from one frame to the other. -/
def Leads (setting : Setting) (c c' : Concrete) : Turn → Prop
  | execute _ instruction => Executes setting instruction c c'
  | branch _ condition taken => Branches condition taken c c'

/-- A rearrangement takes the same form on both sides. -/
def SameForm (f : Frame) (c : Concrete) : Turn → Prop
  | execute _ instruction => instruction.SameForm f c
  | branch .. => True

end Turn

variable {setting : Setting} {body : Body} {callee : Callee} {f : Frame} {valuation : Valuation}
  {c c' : Concrete}

/-! ## Calls -/

private theorem reportAccess_succeeds (position : Nat) (before : Run) :
    ∃ after, reportAccess setting body position before = .ok () after := by
  obtain ⟨log, reported⟩ := reportAccess_eq_ok setting body position before
  exact ⟨_, reported⟩

/-- A call that is not followed keeps the description, whatever it returns. -/
theorem opaqueCall_tracks {descriptor : String} {parsed : MethodDescriptor} (hasReceiver : Bool)
    {arguments results stack : List Value} {slots : Slots}
    (tracks : f.Tracks valuation ⟨arguments ++ stack, slots⟩)
    (readable : MethodDescriptor.parse descriptor = .ok parsed)
    (count : arguments.length = parsed.parameters.length + if hasReceiver then 1 else 0)
    (returns : results.length = if parsed.returnType.isSome then 1 else 0) (before : Run) :
    ∃ valuation' g after, opaqueCall descriptor hasReceiver f before = .ok g after ∧
      g.Tracks valuation' ⟨results ++ stack, slots⟩ := by
  obtain ⟨_, rest, popped, -, -, tracked⟩ := tracks.popN arguments count
  have popping (run : Run) :
      (liftM (popArguments parsed hasReceiver f) : Analysis Frame) run =
        .ok { f with stack := rest } run :=
    Analysis.lift_eq_ok_iff.mpr ⟨Except.bind_eq_ok_iff.mpr ⟨_, popped, rfl⟩, rfl⟩
  have parsing (run : Run) : Analysis.parseDescriptor descriptor run = .ok parsed run := by
    unfold Analysis.parseDescriptor
    rw [readable]
    rfl
  obtain ⟨parameters, returnType⟩ := parsed
  -- All that is left to do after the arguments is to push a result, if there is one.
  cases returnType with
  | none =>
      obtain rfl : results = [] := List.eq_nil_of_length_eq_zero returns
      exact ⟨valuation, _, _,
        EStateM.bind_eq_ok_iff.mpr ⟨_, _, rfl, EStateM.bind_eq_ok_iff.mpr ⟨_, _, parsing _,
        EStateM.bind_eq_ok_iff.mpr ⟨_, _, popping _, rfl⟩⟩⟩, tracked⟩
  | some type =>
      obtain ⟨value, rfl⟩ := List.length_eq_one_iff.mp returns
      obtain ⟨valuation', pushed⟩ := tracked.pushUnbounded value
      exact ⟨valuation', _, _,
        EStateM.bind_eq_ok_iff.mpr ⟨_, _, rfl, EStateM.bind_eq_ok_iff.mpr ⟨_, _, parsing _,
        EStateM.bind_eq_ok_iff.mpr ⟨_, _, popping _, rfl⟩⟩⟩, pushed _ rfl rfl trivial⟩

/-- An instruction keeps the description. -/
theorem proceed_tracks {instruction : Instruction} (tracks : f.Tracks valuation c)
    (executes : Executes setting instruction c c') (sameForm : instruction.SameForm f c)
    (before : Run) :
    ∃ valuation' g after, proceed setting body callee instruction f before = .ok g after ∧
      g.Tracks valuation' c' := by
  by_cases call : instruction.isCall = true
  case pos =>
    cases executes with
    | @invoke kind owner name descriptor parsed arguments results stack slots isOpaque readable
        count returns =>
        unfold proceed invoke
        dsimp only
        obtain outside | unresolved := isOpaque
        · rw [outside]
          exact opaqueCall_tracks kind.hasReceiver tracks readable count returns before
        · split
          · exact opaqueCall_tracks kind.hasReceiver tracks readable count returns before
          · obtain ⟨between, resolved⟩ := unresolved before
            obtain ⟨valuation', g, after, called, tracked⟩ :=
              opaqueCall_tracks kind.hasReceiver tracks readable count returns between
            exact ⟨valuation', g, after, EStateM.bind_eq_ok_iff.mpr ⟨_, _, resolved, called⟩,
              tracked⟩
    | invokeDynamic readable count returns =>
        exact opaqueCall_tracks false tracks readable count returns before
    | _ => cases call
  case neg =>
    obtain ⟨valuation', g, unproved, transferred, tracked⟩ :=
      tracks.transfer executes sameForm (Bool.eq_false_iff.mpr call)
    have reported (run : Run) : ∃ after,
        (if unproved.isSome then reportAccess setting body f.pc else pure ())
        run = .ok () after := by
      split
      · exact reportAccess_succeeds f.pc run
      · exact ⟨run, rfl⟩
    obtain ⟨after, reported⟩ := reported before
    have moved :
        ((liftM (f.transfer instruction) : Analysis (Frame × Option Access)) >>= fun moved =>
        (if moved.2.isSome then reportAccess setting body f.pc else pure ()) >>= fun _ =>
          pure moved.1) before =
          .ok g after :=
      EStateM.bind_eq_ok_iff.mpr ⟨_, _, Analysis.lift_eq_ok_iff.mpr ⟨transferred, rfl⟩,
        EStateM.bind_eq_ok_iff.mpr ⟨_, _, reported, rfl⟩⟩
    refine ⟨valuation', g, after, ?_, tracked⟩
    cases instruction with
    | invoke | invokeDynamic => exact absurd rfl call
    | _ => exact moved

/-! ## Branches -/

/-- The side of a branch that is taken keeps the description. -/
theorem assuming_tracks {condition : Condition} {taken : Bool} (tracks : f.Tracks valuation c)
    (branches : Branches condition taken c c') (before : Run) :
    ∃ g, assuming condition taken f before = .ok g before ∧ g.Tracks valuation c' := by
  have assumed (values : List Value) {stack : List Value} {slots : Slots}
      (start : c = ⟨values ++ stack, slots⟩)
      (enough : values.length = condition.arity)
      (tracked : ∀ (g : Frame) (ids : List VarId), g.Tracks valuation ⟨stack, slots⟩ →
        ids.map valuation = values.reverse →
        (g.assumeCondition condition ids taken).Tracks valuation c') :
      ∃ g, assuming condition taken f before = .ok g before ∧ g.Tracks valuation c' := by
    subst start
    obtain ⟨ids, rest, popped, same, -, popTracked⟩ := tracks.popN values enough
    exact ⟨_, EStateM.bind_eq_ok_iff.mpr ⟨_, _, Analysis.lift_eq_ok_iff.mpr ⟨popped, rfl⟩, rfl⟩,
      tracked _ ids popTracked same⟩
  cases branches with
  | @zero comparison number taken stack slots side =>
      subst side
      refine assumed [.int number] rfl rfl fun g ids tracked same => ?_
      obtain ⟨id, rest, rfl, value, none⟩ := List.map_eq_cons_iff.mp same
      obtain rfl := List.map_eq_nil_iff.mp none
      exact tracked.assumeZero value comparison
  | @ints comparison a b taken stack slots side =>
      subst side
      refine assumed [.int b, .int a] rfl rfl fun g ids tracked same => ?_
      obtain ⟨lhs, rest, rfl, left, others⟩ := List.map_eq_cons_iff.mp same
      obtain ⟨rhs, rest, rfl, right, none⟩ := List.map_eq_cons_iff.mp others
      obtain rfl := List.map_eq_nil_iff.mp none
      exact tracked.assumeInts left right comparison
  | @nullity condition taken object stack slots test =>
      obtain rfl | rfl :=
        test <;> exact assumed [.reference object] rfl rfl fun g ids tracked _ => tracked
  | @identity condition taken object object' stack slots test =>
      obtain rfl | rfl := test <;>
        exact assumed [.reference object, .reference object'] rfl rfl fun g ids tracked _ => tracked

/-! ## Paths -/

/-- Reaching an instruction changes the position only. -/
private theorem reach_tracks (setting : Setting) (body : Body) (tracks : f.Tracks valuation c)
    (position : Nat) (before : Run) :
    ∃ g after, Code.reach setting body position f before = .ok g after ∧ g.Tracks valuation c ∧
      g = { f with pc := position } := by
  obtain ⟨log, emitted⟩ :=
    Analysis.emit_succeeds setting (.instructionReached body.key position) before
  exact ⟨_, _, EStateM.bind_eq_ok_iff.mpr ⟨_, _, emitted, rfl⟩,
    ⟨{ tracks.wellFormed with }, { tracks.fits with }⟩, rfl⟩

/-- One step of a path keeps the description. -/
theorem Turn.run_tracks {turn : Turn} (tracks : f.Tracks valuation c)
    (leads : turn.Leads setting c c') (sameForm : turn.SameForm f c) (before : Run) :
    ∃ valuation' g after, turn.run setting body callee f before = .ok g after ∧
      g.Tracks valuation' c' := by
  cases turn with
  | execute position instruction =>
      obtain ⟨g, between, reached, tracked, rfl⟩ := reach_tracks setting body tracks position before
      obtain ⟨valuation', g, after, proceeded, tracked⟩ :=
        proceed_tracks tracked leads sameForm between
      exact ⟨valuation', g, after, EStateM.bind_eq_ok_iff.mpr ⟨_, _, reached, proceeded⟩, tracked⟩
  | branch position condition taken =>
      obtain ⟨_, between, reached, tracked, -⟩ := reach_tracks setting body tracks position before
      obtain ⟨g, assumed, tracked⟩ := assuming_tracks tracked leads between
      exact ⟨valuation, g, between, EStateM.bind_eq_ok_iff.mpr ⟨_, _, reached, assumed⟩, tracked⟩

/-- The steps of an execution, each with the frame that it leads to. -/
abbrev Journey := List (Turn × Concrete)

namespace Journey

/-- The execution takes the steps one after the other, and none of them raises an exception. -/
def IsExecution (setting : Setting) : Journey → (start : Concrete) → Prop
  | [], _ => True
  | (turn, next) :: rest, start => turn.Leads setting start next ∧ IsExecution setting rest next

/-- The frame at the end of the execution. -/
def arrival : Journey → (start : Concrete) → Concrete
  | [], start => start
  | (_, next) :: rest, _ => arrival rest next

variable (setting : Setting) (body : Body) (callee : Callee)

/-- The interpreter on the path of the execution. -/
def run : Journey → Frame → Analysis Frame
  | [], f => pure f
  | (turn, _) :: rest, f => turn.run setting body callee f >>= run rest

/-- All rearrangements on the way take the same form on both sides. -/
def SameForms : Journey → Frame → (start : Concrete) → (before : Run) → Prop
  | [], _, _, _ => True
  | (turn, next) :: rest, f, start, before =>
    turn.SameForm f start ∧
      ∀ g after, turn.run setting body callee f before = .ok g after → SameForms rest g next after

variable {setting body callee}

/-- The analysis keeps describing an execution along its path. -/
theorem run_tracks {journey : Journey} {f : Frame} {valuation : Valuation} {start : Concrete}
    {before : Run} (tracks : f.Tracks valuation start)
    (executed : journey.IsExecution setting start)
    (sameForms : journey.SameForms setting body callee f start before) :
    ∃ valuation' g after, journey.run setting body callee f before = .ok g after ∧
      g.Tracks valuation' (journey.arrival start) := by
  induction journey generalizing f valuation start before with
  | nil => exact ⟨valuation, f, before, rfl, tracks⟩
  | cons step rest ih =>
      obtain ⟨turn, next⟩ := step
      obtain ⟨valuation', g, between, turned, tracked⟩ :=
        Turn.run_tracks tracks executed.1 sameForms.1 before
      obtain ⟨valuation', h, after, arrived, tracked⟩ :=
        ih tracked executed.2 (sameForms.2 g between turned)
      exact ⟨valuation', h, after, EStateM.bind_eq_ok_iff.mpr ⟨g, between, turned, arrived⟩,
        tracked⟩

end Journey

/-! ## Starts and ends of paths -/

/-- Parameters may have any values. -/
private theorem defineParameters_tracks {slots : Slots} {stack : List Value}
    (tracks : f.Tracks valuation ⟨stack, slots⟩) (slot : UInt16) (types : List FieldType) :
    ∃ valuation', (defineParameters f slot types).Tracks valuation' ⟨stack, slots⟩ := by
  induction types generalizing f valuation slot with
  | nil => exact ⟨valuation, tracks⟩
  | cons type rest ih =>
      obtain ⟨_, defined⟩ := tracks.defineUnknown slot (some type) 0
      exact ih defined _

/-- The frame at the start of a method describes every start of the method. -/
theorem initialFrame_tracks (body : Body) (descriptor : MethodDescriptor) (slots : Slots) :
    ∃ valuation, (initialFrame body descriptor).Tracks valuation ⟨[], slots⟩ := by
  have empty := Frame.Tracks.empty slots
  unfold initialFrame
  split
  · exact defineParameters_tracks empty _ _
  · obtain ⟨_, receiver⟩ := empty.defineUnknown 0 (some (.object body.owner.name)) 0
    exact defineParameters_tracks receiver _ _

/-- The instruction accesses an array of the given length at the given index. -/
def Program.Instruction.Accesses (c : Concrete) (index length : Int) : Instruction → Prop
  | .arrayLoad _ => ∃ stack, c.stack = .int index :: .reference length :: stack
  | .arrayStore _ => ∃ value stack, c.stack = value :: .int index :: .reference length :: stack
  | _ => False

/-- An access that is not reported is in bounds. -/
theorem Frame.Tracks.inBounds_of_transfer {g : Frame} {instruction : Instruction}
    {index length : Int} (tracks : f.Tracks valuation c)
    (accesses : instruction.Accesses c index length)
    (unreported : f.transfer instruction = .ok (g, none)) : 0 ≤ index ∧ index < length := by
  obtain ⟨stack, slots⟩ := c
  cases instruction with
  | arrayLoad kind =>
      obtain ⟨rest, rfl⟩ := accesses
      obtain ⟨indexId, _, popped, indexValue, -, tracked⟩ := tracks.pop
      obtain ⟨arrayId, _, poppedAgain, arrayValue, -, tracked⟩ := tracked.pop
      obtain ⟨_, same, unreported⟩ := Except.bind_eq_ok_iff.mp unreported
      obtain rfl := Except.ok.inj (popped.symm.trans same)
      obtain ⟨_, same, unreported⟩ := Except.bind_eq_ok_iff.mp unreported
      obtain rfl := Except.ok.inj (poppedAgain.symm.trans same)
      have passes := congrArg Prod.snd (Except.pure_eq_ok_iff.mp unreported)
      have inBounds := tracked.inBounds ⟨arrayId, indexId⟩ passes
      rw [indexValue, arrayValue] at inBounds
      exact inBounds
  | arrayStore kind =>
      obtain ⟨value, rest, rfl⟩ := accesses
      obtain ⟨_, _, popped, -, -, tracked⟩ := tracks.pop
      obtain ⟨indexId, _, poppedAgain, indexValue, -, tracked⟩ := tracked.pop
      obtain ⟨arrayId, _, poppedLast, arrayValue, -, tracked⟩ := tracked.pop
      obtain ⟨_, same, unreported⟩ := Except.bind_eq_ok_iff.mp unreported
      obtain rfl := Except.ok.inj (popped.symm.trans same)
      obtain ⟨_, same, unreported⟩ := Except.bind_eq_ok_iff.mp unreported
      obtain rfl := Except.ok.inj (poppedAgain.symm.trans same)
      obtain ⟨_, same, unreported⟩ := Except.bind_eq_ok_iff.mp unreported
      obtain rfl := Except.ok.inj (poppedLast.symm.trans same)
      have passes := congrArg Prod.snd (Except.pure_eq_ok_iff.mp unreported)
      have inBounds := tracked.inBounds ⟨arrayId, indexId⟩ passes
      rw [indexValue, arrayValue] at inBounds
      exact inBounds
  | _ => exact accesses.elim

/-- The analysis is sound along every path. If a well-formed frame describes the values at the start
of an execution without exceptions, the interpreter succeeds on the path of the execution, and its
frame describes the values at the end. An array access at the end that would not be reported is in
bounds. -/
theorem Journey.describes_arrival (setting : Setting) (body : Body) (callee : Callee)
    (journey : Journey) (f : Frame) (start : Concrete) (before : Run) (wellFormed : f.WellFormed)
    (describes : f.Describes start) (executed : journey.IsExecution setting start)
    (sameForms : journey.SameForms setting body callee f start before) :
    ∃ g after, journey.run setting body callee f before = .ok g after ∧ g.WellFormed ∧
      g.Describes (journey.arrival start) ∧
      ∀ instruction h index length, instruction.Accesses (journey.arrival start) index length →
        g.transfer instruction = .ok (h, none) → 0 ≤ index ∧ index < length := by
  obtain ⟨valuation, fits⟩ := describes
  obtain ⟨valuation', g, after, success, tracked⟩ :=
    run_tracks ⟨wellFormed, fits⟩ executed sameForms
  exact ⟨g, after, success, tracked.wellFormed, ⟨valuation', tracked.fits⟩,
    fun instruction h index length accesses unreported =>
      tracked.inBounds_of_transfer accesses unreported⟩

/-- Slots that hold an array of length five and the number two. -/
def arrayAndIndex : Slots := fun slot => if slot = 0 then some (.reference 5)
      else if slot = 1 then some (.int 2) else none

/-- The way to an access of the array behind tests that the index is in bounds. -/
def guardedAccess : Journey :=
  [(.execute 0 (.load .int 1), ⟨[.int 2], arrayAndIndex⟩),
    (.branch 1 (.zero .lt) false, ⟨[], arrayAndIndex⟩),
    (.execute 2 (.load .reference 0), ⟨[.reference 5], arrayAndIndex⟩),
    (.execute 3 (.stack .dup), ⟨[.reference 5, .reference 5], arrayAndIndex⟩),
    (.execute 4 .arrayLength, ⟨[.int 5, .reference 5], arrayAndIndex⟩),
    (.execute 5 (.load .int 1), ⟨[.int 2, .int 5, .reference 5], arrayAndIndex⟩),
    (.branch 6 (.ints .le) false, ⟨[.reference 5], arrayAndIndex⟩),
    (.execute 7 (.load .int 1), ⟨[.int 2, .reference 5], arrayAndIndex⟩)]

/-- A static method with an array and a number for its parameters. -/
def accessor : Body :=
  { owner := { name := "demo/Guard" },
    method := { name := "get", descriptor := "([II)I", access := ⟨8⟩ } }

/-- The analysis follows the path to the access with the frame described, and the access is in
bounds. -/
theorem guardedAccess_described :
    let f := initialFrame accessor { parameters := [.array .int, .int], returnType := some .int }
    f.WellFormed ∧ f.Describes ⟨[], arrayAndIndex⟩ ∧
      guardedAccess.IsExecution { repository := {}, analyzed := [] } ⟨[], arrayAndIndex⟩ ∧
      ∃ g after, guardedAccess.run { repository := {}, analyzed := [] } accessor
        (fun _ => throw .exhausted) f {} =
          .ok g after ∧ g.WellFormed ∧ g.Describes ⟨[.int 2, .reference 5], arrayAndIndex⟩ ∧
        ∀ instruction h index length,
          instruction.Accesses ⟨[.int 2, .reference 5], arrayAndIndex⟩ index length →
          g.transfer instruction = .ok (h, none) → 0 ≤ index ∧ index < length := by
  obtain ⟨valuation, wellFormed, fits⟩ := initialFrame_tracks accessor
    { parameters := [.array .int, .int], returnType := some .int } arrayAndIndex
  have executed :
      guardedAccess.IsExecution { repository := {}, analyzed := [] } ⟨[], arrayAndIndex⟩ :=
    ⟨.load rfl, .zero rfl, .load rfl, .shuffle rfl, .arrayLength (by decide), .load rfl, .ints rfl,
      .load rfl, trivial⟩
  refine ⟨wellFormed, ⟨valuation, fits⟩, executed,
    Journey.describes_arrival _ accessor _ guardedAccess _ _ {} wellFormed
    ⟨valuation, fits⟩ executed ?_⟩
  refine ⟨trivial, fun _ _ _ =>
    ⟨trivial, fun _ _ _ => ⟨trivial, fun f _ _ => ⟨?_, fun _ _ _ => ⟨trivial, fun _ _ _ =>
      ⟨trivial, fun _ _ _ => ⟨trivial, fun _ _ _ => ⟨trivial, fun _ _ _ => trivial⟩⟩⟩⟩⟩⟩⟩⟩
  -- Copying the top of the stack does not look at its width.
  change StackOp.apply _ .dup (f.stack.zip [Value.reference 5]) = StackOp.apply _ .dup
    (f.stack.zip [Value.reference 5])
  cases f.stack <;> rfl

end ArrayBounds
