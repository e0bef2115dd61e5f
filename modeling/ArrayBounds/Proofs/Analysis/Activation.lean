import ArrayBounds.Proofs.Domain.Numbers
import ArrayBounds.Proofs.Walk.Parts

/-! # Passes over a method

An analysis of a method makes one pass over its body, or several if the method is recursive. Each
pass that is not cut short starts a walk (`ArrayBounds.Interpreter.Begins`) while the method is in
progress, and stores its result. Properties of runs and of results are kept by the analysis of a
method if they are kept by walks in which the method is in progress
(`ArrayBounds.Interpreter.keeps_stabilise`).
-/

namespace ArrayBounds

open Program

namespace Run

/-- The run in which the walk through a method starts. -/
def enter (run : Run) (key : MethodKey) : Run :=
  { run with
    statistics.methodsAnalyzed := run.statistics.methodsAnalyzed + 1
    inProgress := run.inProgress.insert key }

/-- The run behind a pass over a method, with its result stored. -/
def leave (run : Run) (key : MethodKey) (result : Variable) : Run :=
  { run with inProgress := run.inProgress.erase key, memo := run.memo.insert key result }

end Run

namespace Interpreter

variable {setting : Setting} {callee : Callee} {body : Body}

/-! ## The frame at the start -/

/-- Parameters are put into their slots one after the other. -/
private theorem defineParameters_develops {f : Frame} (closed : f.Closed) (slot : UInt16)
    (types : List FieldType) : f.Develops (defineParameters f slot types) := by
  induction types generalizing f slot with
  | nil => exact closed.refl
  | cons type types ih =>
      have defined := closed.defineUnknown slot (some type) 0
      exact defined.trans (ih defined.closed _)

/-- The frame in which a method starts is closed, and nothing in it is impossible. -/
theorem initialFrame_develops (body : Body) (descriptor : MethodDescriptor) :
    ({} : Frame).Develops (initialFrame body descriptor) := by
  unfold initialFrame
  split
  · exact defineParameters_develops Frame.Closed.empty 0 _
  · have defined := Frame.Closed.empty.defineUnknown 0 (some (.object body.owner.name)) 0
    exact defined.trans (defineParameters_develops defined.closed 1 _)

/-! ## One pass -/

/-- A pass over the method that starts in the given run walks through the stretch. -/
inductive Begins (setting : Setting) (body : Body) (run : Run) : Stretch → Prop where
  | intro {descriptor : MethodDescriptor} {announced : Run}
      (parsed : MethodDescriptor.parse body.method.descriptor = .ok descriptor)
      (fresh : run.inProgress.contains body.key = false) (code : body.method.hasBody = true)
      (announces : Analysis.emit setting (.methodStarted body.key) run = .ok () announced) :
      Begins setting body run
        ⟨0, body.method.instructions.size - 1, initialFrame body descriptor,
          announced.enter body.key⟩

/-- Only a method whose descriptor can be read has a result. -/
theorem parse_of_analyzeOnce {run after : Run} {result : Variable}
    (success : analyzeOnce setting callee body run = .ok result after) :
    ∃ descriptor, MethodDescriptor.parse body.method.descriptor = .ok descriptor := by
  obtain ⟨descriptor, between, parsed, -⟩ := EStateM.bind_eq_ok_iff.mp success
  unfold Analysis.parseDescriptor at parsed
  cases read : MethodDescriptor.parse body.method.descriptor with
  | error error =>
      rw [read] at parsed
      exact absurd parsed EStateM.throw_ne_ok
  | ok descriptor => exact ⟨descriptor, rfl⟩

section

variable {descriptor : MethodDescriptor}
  (parsed : MethodDescriptor.parse body.method.descriptor = .ok descriptor) {run : Run}
include parsed

/-- A pass over a method in progress only marks it. -/
theorem analyzeOnce_of_running (running : run.inProgress.contains body.key = true) :
    ∃ log, analyzeOnce setting callee body run =
      .ok (.unknown descriptor.returnType 0)
        { run with recursive := run.recursive.insert body.key, log } := by
  obtain ⟨log, announced⟩ := Analysis.emit_succeeds setting (.methodReentered body.key) run
  refine ⟨log, ?_⟩
  rw [analyzeOnce_eq, EStateM.bind_of_ok (Analysis.parseDescriptor_of_parse parsed run),
    EStateM.get_bind, if_pos running, EStateM.bind_of_ok announced]
  rfl

variable (fresh : run.inProgress.contains body.key = false)
include fresh

/-- A pass over a method without instructions stores that nothing is known about its result. -/
theorem analyzeOnce_of_empty (empty : body.method.hasBody = false) :
    analyzeOnce setting callee body run = .ok (.unknown descriptor.returnType 0)
      { run with memo := run.memo.insert body.key (.unknown descriptor.returnType 0) } := by
  rw [analyzeOnce_eq, EStateM.bind_of_ok (Analysis.parseDescriptor_of_parse parsed run),
    EStateM.get_bind, fresh, empty]
  rfl

section

variable (code : body.method.hasBody = true) {announced inner : Run} {f : Frame}
  (announces : Analysis.emit setting (.methodStarted body.key) run = .ok () announced)
  (walked : interpretBody setting body callee (initialFrame body descriptor)
    (announced.enter body.key) = .ok f inner)
include code announces walked

/-- Any other pass walks through the method, and looks then whether the supply was large enough. -/
theorem analyzeOnce_behind_walk :
    analyzeOnce setting callee body run =
      ((liftM f.checkSupply : Analysis Unit) >>= fun _ =>
        Analysis.remember body.key
            (f.returnedValue?.getD (.unknown descriptor.returnType 0)).clearBounds >>= fun _ =>
          pure (f.returnedValue?.getD (.unknown descriptor.returnType 0)).clearBounds)
        { inner with inProgress := inner.inProgress.erase body.key } := by
  have counted : Analysis.count (fun s => { s with methodsAnalyzed := s.methodsAnalyzed + 1 })
      announced =
        .ok () { announced with
          statistics.methodsAnalyzed := announced.statistics.methodsAnalyzed + 1 } := rfl
  have entered : Analysis.whileInProgress body.key
      (interpretBody setting body callee (initialFrame body descriptor))
      { announced with statistics.methodsAnalyzed := announced.statistics.methodsAnalyzed + 1 } =
        .ok f { inner with inProgress := inner.inProgress.erase body.key } :=
    Analysis.whileInProgress_eq_ok_iff.mpr ⟨inner, walked, rfl⟩
  rw [analyzeOnce_eq, EStateM.bind_of_ok (Analysis.parseDescriptor_of_parse parsed run),
    EStateM.get_bind, fresh, code]
  simp only [Bool.false_eq_true, ↓reduceIte, Bool.not_true]
  rw [EStateM.bind_of_ok announces, EStateM.bind_of_ok counted, EStateM.bind_of_ok entered]

/-- The value that the walk has returned is stored without bounds. -/
theorem analyzeOnce_of_walk {result : Variable} (fits : f.nextId < UInt32.size)
    (returned : result = (f.returnedValue?.getD (.unknown descriptor.returnType 0)).clearBounds) :
    analyzeOnce setting callee body run = .ok result (inner.leave body.key result) := by
  have checked (run : Run) : (liftM f.checkSupply : Analysis Unit) run = .ok () run :=
    Analysis.lift_eq_ok_iff.mpr ⟨Frame.checkSupply_eq_ok_iff.mpr fits, rfl⟩
  rw [analyzeOnce_behind_walk parsed fresh code announces walked, EStateM.bind_of_ok (checked _),
    returned]
  rfl

end

/-- What a pass over a method with instructions has done. -/
theorem analyzeOnce_walks (code : body.method.hasBody = true) {after : Run} {result : Variable}
    (success : analyzeOnce setting callee body run = .ok result after) :
    ∃ announced f inner, Analysis.emit setting (.methodStarted body.key) run = .ok () announced ∧
      interpretBody setting body callee (initialFrame body descriptor) (announced.enter body.key) =
        .ok f inner ∧
      f.nextId < UInt32.size ∧
      result = (f.returnedValue?.getD (.unknown descriptor.returnType 0)).clearBounds ∧
      after = inner.leave body.key result := by
  rw [analyzeOnce_eq, EStateM.bind_of_ok (Analysis.parseDescriptor_of_parse parsed run),
    EStateM.get_bind, fresh, code] at success
  simp only [Bool.false_eq_true, ↓reduceIte, Bool.not_true] at success
  obtain ⟨_, announced, announces, success⟩ := EStateM.bind_eq_ok_iff.mp success
  obtain ⟨_, _, counted, success⟩ := EStateM.bind_eq_ok_iff.mp success
  obtain rfl := EStateM.modify_eq_ok_iff.mp counted
  obtain ⟨f, _, walked, success⟩ := EStateM.bind_eq_ok_iff.mp success
  obtain ⟨inner, interpreted, rfl⟩ := Analysis.whileInProgress_eq_ok_iff.mp walked
  obtain ⟨_, _, checked, success⟩ := EStateM.bind_eq_ok_iff.mp success
  obtain ⟨supplied, rfl⟩ := Analysis.lift_eq_ok_iff.mp checked
  obtain ⟨_, _, stored, success⟩ := EStateM.bind_eq_ok_iff.mp success
  obtain rfl := EStateM.modify_eq_ok_iff.mp stored
  obtain ⟨rfl, rfl⟩ := EStateM.pure_eq_ok_iff.mp success
  exact ⟨announced, f, inner, announces, interpreted, Frame.checkSupply_eq_ok_iff.mp supplied, rfl,
    rfl⟩

end

/-- What a pass gives that is not cut short: the value that its walk has returned, without
bounds. -/
theorem analyzeOnce_eq_ok {run after : Run} {result : Variable} (code : body.method.hasBody = true)
    (fresh : run.inProgress.contains body.key = false)
    (success : analyzeOnce setting callee body run = .ok result after) :
    ∃ s f inner type, Begins setting body run s ∧ outcome setting body callee s = .ok f inner ∧
      result = (f.returnedValue?.getD (.unknown type 0)).clearBounds ∧
      after = inner.leave body.key result := by
  obtain ⟨descriptor, parsed⟩ := parse_of_analyzeOnce success
  obtain ⟨announced, f, inner, announces, walked, -, given, left⟩ :=
    analyzeOnce_walks parsed fresh code success
  exact ⟨_, f, inner, descriptor.returnType, .intro parsed fresh code announces,
    walked, given, left⟩

/-! ## Contracts -/

/-- Frames with the property `F` return values whose signs have the property `P`, and larger signs
have it too. -/
structure Results (F : Frame → Prop) (P : Sign → Prop) : Prop where
  frames : Frame.Invariant F fun v => P v.sign
  starts : ∀ body descriptor, F (initialFrame body descriptor)
  returns : ∀ {f : Frame} {v}, F f → f.returnedValue? = some v → P v.sign
  rises : ∀ {a b : Sign}, P a → a ≤ b → P b
  top : P .top

/-- Any results will do where nothing is asked of them. -/
theorem results_true : Results (fun _ => True) fun _ => True where
  frames := Frame.invariant_true
  starts _ _ := trivial
  returns _ _ := trivial
  rises _ _ := trivial
  top := trivial

/-- No method has an impossible result if the frames of its walk are possible. -/
theorem results_possible : Results (fun f => f.Closed ∧ f.Possible) fun sign => sign ≠ .bottom where
  frames := Frame.invariant_possible
  starts body descriptor :=
    ⟨(initialFrame_develops body descriptor).closed,
      (initialFrame_develops body descriptor).possible .empty⟩
  returns here returned := by
    obtain ⟨id, -, found⟩ := Option.bind_eq_some_iff.mp returned
    exact here.2 id _ found
  rises possible le := Sign.ne_bottom_of_le le possible
  top := Sign.noConfusion

/-- While the method is in progress, `R'` holds of the runs that `R` holds of before and
afterwards. -/
structure Brackets (key : MethodKey) (R R' : Run → Prop) (P : Sign → Prop) : Prop where
  same : ∀ {run run' : Run}, R run → run'.inProgress = run.inProgress →
    run'.memo = run.memo → R run'
  enter : ∀ {run : Run}, R run → run.inProgress.contains key = false →
    R' { run with inProgress := run.inProgress.insert key }
  leave : ∀ {run run' : Run}, R run → run.inProgress.contains key = false → R' run' →
    R { run' with inProgress := run'.inProgress.erase key }
  store : ∀ {run : Run} {v : Variable}, R run → P v.sign →
    R { run with memo := run.memo.insert key v }

section

open Analysis

variable {F : Frame → Prop} {P : Sign → Prop} {R R' : Run → Prop} {E : AnalysisError → Prop}

private theorem Brackets.keeps_emit {key : MethodKey} (brackets : Brackets key R R' P)
    (event : Event) : Keeps R E (emit setting event) fun _ => True :=
  .emit fun _ _ holds => brackets.same holds rfl rfl

/-- Inside of a pass it is known that the method was not in progress before. -/
theorem Brackets.fresh {key : MethodKey} (brackets : Brackets key R R' P) :
    Brackets key (fun run => R run ∧ run.inProgress.contains key = false) R' P where
  same holds progress memo := ⟨brackets.same holds.1 progress memo, progress ▸ holds.2⟩
  enter holds fresh := brackets.enter holds.1 fresh
  leave holds fresh there := ⟨brackets.leave holds.1 fresh there, contains_erase_self _ key⟩
  store holds here := ⟨brackets.store holds.1 here, holds.2⟩

/-- A step keeps its invariants between the marks that its method is in progress. -/
private theorem Brackets.keeps_whileInProgress {key : MethodKey} {step : Analysis Frame}
    (brackets : Brackets key R R' P) (keeps : Keeps R' E step F) :
    Keeps (fun run => R run ∧ run.inProgress.contains key = false) E
      (whileInProgress key step) F := by
  rintro before ⟨holds, fresh⟩
  have kept := keeps _ (brackets.enter holds fresh)
  unfold whileInProgress
  cases done : step { before with inProgress := before.inProgress.insert key } with
  | error error inner =>
      rw [done] at kept
      exact kept
  | ok f inner =>
      rw [done] at kept
      exact ⟨kept.1, brackets.fresh.leave ⟨holds, fresh⟩ fresh kept.2⟩

/-- One pass over a method keeps what its walk keeps. -/
theorem keeps_analyzeOnce (results : Results F P) (brackets : Brackets body.key R R' P)
    (runs : Respects setting callee R' E fun v => P v.sign) :
    Keeps R E (analyzeOnce setting callee body) fun v => P v.sign := by
  refine .bind (Q := fun _ => True) ?_ fun descriptor _ => ?_
  · unfold parseDescriptor
    split
    · exact .pure trivial
    · exact .throw (runs.errors _ nofun)
  intro before holds
  rw [EStateM.get_bind]
  by_cases running : before.inProgress.contains body.key = true
  case pos =>
    rw [if_pos running]
    have marking : Keeps R E (markRecursive body.key) fun _ => True :=
      .modify fun _ holds => brackets.same holds rfl rfl
    refine (?_ : Keeps R E _ fun v : Variable => P v.sign) before holds
    exact .bind (brackets.keeps_emit _) fun _ _ => .bind marking fun _ _ => .pure results.top
  case neg =>
    rw [if_neg running]
    by_cases code : body.method.hasBody = true
    case neg =>
      rw [if_pos (by simpa using code)]
      have storing : Keeps R E (remember body.key (.unknown descriptor.returnType 0) >>= fun _ =>
          Pure.pure (Variable.unknown descriptor.returnType 0)) fun v => P v.sign :=
        .bind (.modify fun _ holds => brackets.store holds results.top) fun _ _ => .pure results.top
      exact storing before holds
    case pos =>
      rw [if_neg (by simpa using code)]
      have walking :
          Keeps R' E (interpretBody setting body callee (initialFrame body descriptor)) F :=
        keeps_walk results.frames runs (results.starts body descriptor) _ _
      refine Keeps.weaken (S := fun run => R run ∧ run.inProgress.contains body.key = false) ?_
        ⟨holds, Bool.eq_false_iff.mpr running⟩ fun _ holds => holds.1
      refine .bind (brackets.fresh.keeps_emit _) fun _ _ => ?_
      refine .bind (.modify fun _ holds => brackets.fresh.same holds rfl rfl) fun _ _ => ?_
      refine .bind (brackets.keeps_whileInProgress walking) fun f here => ?_
      have supplied : Keeps (fun run => R run ∧ run.inProgress.contains body.key = false) E
          (liftM f.checkSupply : Analysis Unit) fun _ => True :=
        .lift (fun _ _ => trivial) fun error failure =>
          runs.errors error (Frame.checkSupply_eq_error failure ▸ nofun)
      have good :
          P (f.returnedValue?.getD (.unknown descriptor.returnType 0)).clearBounds.sign := by
        cases returned : f.returnedValue? with
        | none => exact results.top
        | some v =>
            have good : P v.sign := results.returns here returned
            exact good
      exact .bind supplied fun _ _ =>
        .bind (.modify fun _ holds => brackets.fresh.store holds good) fun _ _ => .pure good

/-- Repeated passes over a method keep what one pass keeps. -/
theorem keeps_repeatUntilStable {key : MethodKey} {once : Analysis Variable} (results : Results F P)
    (brackets : Brackets key R R' P) (keeps : Keeps R E once fun v => P v.sign) (passes : Nat)
    {result : Variable} (good : P result.sign) :
    Keeps R E (repeatUntilStable setting key once passes result) fun v => P v.sign := by
  induction passes generalizing result with
  | zero =>
      refine .bind (brackets.keeps_emit _) fun _ _ => ?_
      split
      · exact .pure good
      · exact .bind (.modify fun _ holds => brackets.store holds results.top) fun _ _ =>
          .pure results.top
  | succ passes ih =>
      refine .bind (.modify fun _ holds => brackets.same holds rfl rfl) fun _ _ => ?_
      refine .bind keeps fun next _ => ?_
      refine .bind (.modify fun _ holds => brackets.same holds rfl rfl) fun _ _ => ?_
      have grown : P (result.sign.join next.sign) := results.rises good (Sign.le_join_left _ _)
      refine .bind (.modify fun _ holds => brackets.store holds grown) fun _ _ => ?_
      split
      · exact .bind (brackets.keeps_emit _) fun _ _ => .pure grown
      · exact ih grown

/-- The analysis of a method keeps what one pass over it keeps. -/
theorem keeps_stabilise {key : MethodKey} {once : Analysis Variable} (results : Results F P)
    (brackets : Brackets key R R' P) (keeps : Keeps R E once fun v => P v.sign) :
    Keeps R E (stabilise setting key once) fun v => P v.sign := by
  refine .bind keeps fun result good => .bind .get fun run _ => ?_
  split
  · exact .pure good
  · exact .bind (.modify fun _ holds => brackets.same holds rfl rfl) fun _ _ =>
      keeps_repeatUntilStable results brackets keeps _ good

/-- The analysis of a method keeps what walks keep in which the method is in progress. -/
theorem keeps_analyzeMethod {depth : Nat} (results : Results F P)
    (brackets : Brackets body.key R R' P)
    (runs : Respects setting (analyzeMethod setting depth) R' E fun v => P v.sign) :
    Keeps R E (analyzeMethod setting (depth + 1) body) fun v => P v.sign :=
  keeps_stabilise results brackets (keeps_analyzeOnce results brackets runs)

end

end Interpreter

end ArrayBounds
