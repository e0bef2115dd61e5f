import ArrayBounds.Proofs.Analysis.Recursion

/-! # What a call does to its caller

A call is followed or not. If it is, the result of the method that it leads to is stored, or it is
unknown because the method is still in progress, or it is found by analysing the method now. Each of
these ways (`ArrayBounds.Interpreter.Route`) decides what is known of the sign of the result, and
nothing else: in the frame of the caller, the operands of the call are gone, and the result is a new
variable that has nothing to do with the variables of the method that was called
(`ArrayBounds.Interpreter.invoke_effect`).
-/

namespace ArrayBounds

open Program

/-! ## The frame of the caller -/

/-- A value that has come out of a call at a position, and of which only the sign may be known. -/
structure Variable.IsResult (v : Variable) (sign : Sign) (position : Nat) : Prop where
  origin : v.origin = .localValue
  slot : v.slot = none
  below : v.below = ∅
  atMost : v.atMost = ∅
  definedAt : v.definedAt = position
  sign : v.sign = sign

namespace Frame

/-- The frame `g` behind a call in `f` that takes some operands and may have a result. The result
gets a number that was not in use. Everything else is as it was. -/
structure CallEffect (f : Frame) (operands : Nat) (result : Option Variable) (g : Frame) :
    Prop where
  stack : g.stack = (result.map fun _ => f.nextId).toList ++ f.stack.drop operands
  unused : f.nextId ∉ f.vars
  pushed : ∀ v ∈ result, g.vars[f.nextId]? = some v
  kept : ∀ id ∈ f.vars, g.vars[id]? = f.vars[id]?
  nothingElse : ∀ id ∈ g.vars, id ∈ f.vars ∨ result.isSome = true ∧ id = f.nextId
  locals : g.locals = f.locals
  returned : g.returned = f.returned
  pc : g.pc = f.pc
  pendingJump : g.pendingJump = f.pendingJump

/-- Takes the operands of a call, and pushes its result if there is one. -/
def exchange (f : Frame) (operands : Nat) (result : Option Variable) :
    Except AnalysisError Frame := do
  let (_, g) ← f.popN operands
  return result.elim g g.push

variable {f : Frame} {operands : Nat}

private theorem exchange_of_short (short : f.stack.length < operands) (result : Option Variable) :
    f.exchange operands result = .error (.stackUnderflow f.pc) := by
  rw [exchange, popN, if_pos short]
  rfl

/-- With enough operands on the stack, they are dropped and the result is pushed. -/
private theorem exchange_of_enough (enough : operands ≤ f.stack.length) (result : Option Variable) :
    f.exchange operands result =
      .ok (result.elim { f with stack := f.stack.drop operands }
        { f with stack := f.stack.drop operands }.push) := by
  rw [exchange, popN, if_neg (Nat.not_lt.mpr enough)]
  rfl

/-- The result of a call gets a number that is not in use. -/
private theorem callEffect_push {v : Variable} (unused : f.nextId ∉ f.vars) :
    f.CallEffect operands (some v) ({ f with stack := f.stack.drop operands }.push v) := by
  have found (id : VarId) :
      ({ f with stack := f.stack.drop operands }.push v).vars[id]? = if f.nextId = id then some v
        else f.vars[id]? :=
    vars_alloc _ v id
  refine ⟨rfl, unused, ?_, ?_, ?_, rfl, rfl, rfl, rfl⟩
  · intro w result
    rw [found, if_pos rfl, Option.mem_some.mp result]
  · intro id member
    have different : f.nextId ≠ id := fun same => unused (same ▸ member)
    rw [found, if_neg different]
  · intro id member
    rw [mem_vars_iff, found] at member
    split at member
    case isTrue same => exact .inr ⟨rfl, same.symm⟩
    case isFalse => exact .inl (mem_vars_iff.mpr member)

/-- An exchange with enough operands succeeds, with the effect of a call. -/
private theorem exists_exchange (enough : operands ≤ f.stack.length)
    (older : ∀ id ∈ f.vars, id < f.nextId) (result : Option Variable) :
    ∃ g, f.exchange operands result = .ok g ∧ f.CallEffect operands result g := by
  have unused : f.nextId ∉ f.vars := fun member => Nat.lt_irrefl _ (older _ member)
  refine ⟨_, exchange_of_enough enough result, ?_⟩
  cases result with
  | none =>
      exact ⟨rfl, unused, nofun, fun _ _ => rfl, fun _ member => .inl member, rfl, rfl, rfl, rfl⟩
  | some v => exact callEffect_push unused

end Frame

/-- The run with one more call that was not followed. -/
def Run.countOpaque (run : Run) : Run :=
  { run with statistics.opaqueCalls := run.statistics.opaqueCalls + 1 }

namespace Interpreter

variable {setting : Setting} {depth : Nat} {run after : Run} {result : Variable}

/-! ## Results of methods -/

section

variable {body : Body} (success : analyzeMethod setting depth body run = .ok result after)
include success

/-- Nothing is known of the result of a method in progress. -/
theorem sign_of_running (running : run.inProgress.contains body.key = true) :
    result.sign = .top := by
  cases depth with
  | zero => cases success
  | succ depth =>
      obtain ⟨first, between, passed, outcome⟩ := stabilise_eq_ok success
      obtain ⟨descriptor, parsed⟩ := parse_of_analyzeOnce passed
      obtain ⟨log, marked⟩ := analyzeOnce_of_running parsed running
      obtain ⟨rfl, rfl⟩ := EStateM.Result.ok.inj (passed.symm.trans marked)
      obtain ⟨-, rfl, -⟩ | ⟨stopped, -⟩ := outcome
      · rfl
      · exact absurd running (Bool.eq_false_iff.mp stopped)

/-- The result of any other method is stored by its analysis. -/
theorem stored_of_fresh (fresh : run.inProgress.contains body.key = false) :
    after.memo.get? body.key = some result := by
  cases depth with
  | zero => cases success
  | succ depth =>
      obtain ⟨first, between, passed, outcome⟩ := stabilise_eq_ok success
      obtain ⟨stored, bare, -⟩ := analyzeOnce_stores fresh passed
      obtain ⟨-, rfl, rfl⟩ | ⟨-, -, repeated⟩ := outcome
      · exact stored
      · obtain ⟨stable, passes, ends⟩ := repeatUntilStable_ends repeated
        exact (ends.result_stored stored bare).1

end

/-! ## Ways of a call -/

variable {kind : InvokeKind} {method : MethodKey} {f : Frame}

/-- The way that a call of a method takes, with the sign of its result and the run at its end. -/
inductive Route (setting : Setting) (depth : Nat) (method : MethodKey) (run : Run) :
    Sign → Run → Prop where
  /-- The class is not analysed. -/
  | outside (unanalyzed : setting.isAnalyzed method.className = false) :
      Route setting depth method run .top run.countOpaque
  /-- The search for the method leaves the analysed classes. -/
  | leaves {left : Run} (analyzed : setting.isAnalyzed method.className = true)
      (resolved : resolve setting method run = .ok none left) :
      Route setting depth method run .top left.countOpaque
  | stored {target : Body} {left : Run} {result : Variable}
      (analyzed : setting.isAnalyzed method.className = true)
      (resolved : resolve setting method run = .ok (some target) left)
      (known : left.memo.get? target.key = some result) :
      Route setting depth method run result.sign left
  | running {target : Body} {left after : Run} {result : Variable}
      (analyzed : setting.isAnalyzed method.className = true)
      (resolved : resolve setting method run = .ok (some target) left)
      (unknown : left.memo.get? target.key = none)
      (running : left.inProgress.contains target.key = true)
      (marks : analyzeMethod setting depth target left = .ok result after) :
      Route setting depth method run .top after
  /-- The method is analysed, again and again if it calls itself, and its result is stored. -/
  | fresh {target : Body} {left after : Run} {result : Variable}
      (analyzed : setting.isAnalyzed method.className = true)
      (resolved : resolve setting method run = .ok (some target) left)
      (unknown : left.memo.get? target.key = none)
      (fresh : left.inProgress.contains target.key = false)
      (analyzes : ∃ value, analyzeMethod setting depth target left = .ok value after)
      (known : after.memo.get? target.key = some result) :
      Route setting depth method run result.sign after

/-- A call whose target is known or can be analysed takes one of the routes. -/
private theorem route_of_resultOf {target : Body} {left : Run}
    (analyzed : setting.isAnalyzed method.className = true)
    (resolved : resolve setting method run = .ok (some target) left)
    (success : resultOf (analyzeMethod setting depth) target left = .ok result after) :
    Route setting depth method run result.sign after := by
  rw [resultOf, EStateM.get_bind] at success
  cases known : left.memo.get? target.key with
  | some stored =>
      rw [known] at success
      obtain ⟨rfl, rfl⟩ := EStateM.pure_eq_ok_iff.mp success
      exact .stored analyzed resolved known
  | none =>
      rw [known] at success
      cases progress : left.inProgress.contains target.key with
      | true =>
          rw [sign_of_running success progress]
          exact .running analyzed resolved known progress success
      | false =>
          exact .fresh analyzed resolved known progress ⟨result, success⟩
            (stored_of_fresh success progress)

/-! ## Calls as exchanges -/

/-- The number of values that a call takes from the stack: its arguments, and the object on which a
method is called. -/
def operandCount (descriptor : MethodDescriptor) (hasReceiver : Bool) : Nat :=
  descriptor.parameters.length + if hasReceiver then 1 else 0

/-- What a call pushes if the method has the result. -/
def pushedResult (descriptor : MethodDescriptor) (position : Nat) (result : Variable) :
    Option Variable :=
  if descriptor.isVoid then none
  else some { result.clearBounds with origin := .localValue, slot := none, definedAt := position }

/-- Nothing is pushed for a call without a result. -/
private theorem pushedResult_eq_none_iff {descriptor : MethodDescriptor} {position : Nat} :
    pushedResult descriptor position result = none ↔ descriptor.isVoid = true := by
  unfold pushedResult
  split
  case isTrue void => exact iff_of_true rfl void
  case isFalse value => exact iff_of_false nofun value

/-- What is pushed is known by its sign alone. -/
private theorem isResult_of_mem_pushedResult {descriptor : MethodDescriptor} {position : Nat}
    {v : Variable} (pushed : v ∈ pushedResult descriptor position result) :
    v.IsResult result.sign position := by
  obtain ⟨-, given⟩ := Option.ite_none_left_eq_some.mp pushed
  obtain rfl := Option.some.inj given
  exact ⟨rfl, rfl, rfl, rfl, rfl, rfl⟩

section

variable {descriptor : MethodDescriptor}

/-- Taking the arguments and pushing the result is an exchange. -/
private theorem popArguments_bind (hasReceiver : Bool) (f : Frame) (pushed : Option Variable)
    {finish : Frame → Analysis Frame}
    (finishes : ∀ g : Frame, g.pc = f.pc → finish g = pure (pushed.elim g g.push)) (run : Run) :
    ((liftM (popArguments descriptor hasReceiver f) : Analysis Frame) >>= finish) run =
      (liftM (f.exchange (operandCount descriptor hasReceiver) pushed) : Analysis Frame) run := by
  unfold popArguments Frame.exchange operandCount
  cases popped : f.popN (descriptor.parameters.length + if hasReceiver then 1 else 0) with
  | error error => rfl
  | ok taken =>
      obtain ⟨-, -, rest⟩ := Frame.popN_eq_ok_iff.mp popped
      exact congrFun (finishes taken.2 (rest ▸ rfl)) run

variable (parsed : MethodDescriptor.parse method.descriptor = .ok descriptor)
include parsed

/-- An opaque call is counted, and exchanges the operands for a result of which nothing is known. -/
private theorem opaqueCall_eq_exchange (hasReceiver : Bool) (f : Frame) (run : Run) :
    opaqueCall method.descriptor hasReceiver f run =
      (liftM (f.exchange (operandCount descriptor hasReceiver)
        (pushedResult descriptor f.pc (.unknown descriptor.returnType f.pc))) : Analysis Frame)
          run.countOpaque := by
  have counted : Analysis.count (fun s => { s with opaqueCalls := s.opaqueCalls + 1 }) run =
      .ok () run.countOpaque := rfl
  rw [opaqueCall, EStateM.bind_of_ok counted,
    EStateM.bind_of_ok (Analysis.parseDescriptor_of_parse parsed _)]
  refine popArguments_bind hasReceiver f _ (fun g same => ?_) _
  unfold pushedResult MethodDescriptor.isVoid
  cases descriptor.returnType with
  | none => rfl
  | some type =>
      rw [← same]
      rfl

/-- A call of an analysed method exchanges the operands for the result of its analysis. -/
private theorem invoke_of_resultOf {target : Body} {left : Run}
    (analyzed : setting.isAnalyzed method.className = true)
    (resolved : resolve setting method run = .ok (some target) left)
    (success : resultOf (analyzeMethod setting depth) target left = .ok result after) :
    invoke setting (analyzeMethod setting depth) kind method f run =
      (liftM (f.exchange (operandCount descriptor kind.hasReceiver)
        (pushedResult descriptor f.pc result)) : Analysis Frame) after := by
  rw [invoke, analyzed, if_neg nofun, EStateM.bind_of_ok resolved]
  change (resultOf (analyzeMethod setting depth) target >>= _) left = _
  rw [EStateM.bind_of_ok success, EStateM.bind_of_ok (Analysis.parseDescriptor_of_parse parsed _)]
  refine popArguments_bind kind.hasReceiver f _ (fun g same => ?_) _
  unfold pushedResult
  rw [← same]
  split <;> rfl

/-- A call that does not fail on its way is an exchange of its operands for a result. -/
theorem exists_route (kind : InvokeKind) (f : Frame)
    (reaches : setting.isAnalyzed method.className = true →
      ∃ target left, resolve setting method run = .ok target left ∧
        ∀ body ∈ target, ∃ result after, resultOf (analyzeMethod setting depth) body left =
      .ok result after) :
    ∃ result after, Route setting depth method run result.sign after ∧
      invoke setting (analyzeMethod setting depth) kind method f run =
        (liftM (f.exchange (operandCount descriptor kind.hasReceiver)
          (pushedResult descriptor f.pc result)) : Analysis Frame) after := by
  cases analyzed : setting.isAnalyzed method.className with
  | false =>
      refine ⟨.unknown descriptor.returnType f.pc, _, .outside analyzed, ?_⟩
      rw [invoke, analyzed, Bool.not_false, if_pos rfl]
      exact opaqueCall_eq_exchange parsed kind.hasReceiver f run
  | true =>
      obtain ⟨target, left, resolved, yields⟩ := reaches analyzed
      cases target with
      | none =>
          refine ⟨.unknown descriptor.returnType f.pc, _, .leaves analyzed resolved, ?_⟩
          rw [invoke, analyzed, if_neg nofun, EStateM.bind_of_ok resolved]
          exact opaqueCall_eq_exchange parsed kind.hasReceiver f left
      | some target =>
          obtain ⟨result, after, success⟩ := yields target rfl
          exact ⟨result, after, route_of_resultOf analyzed resolved success,
            invoke_of_resultOf parsed analyzed resolved success⟩

end

/-- Whatever way a call takes, its caller sees the same. The call underflows if the operands are not
there. Otherwise they are gone, and unless the method is void, there is a new value, with the sign
that the way gives. -/
theorem invoke_effect {descriptor : MethodDescriptor} (kind : InvokeKind)
    (older : ∀ id ∈ f.vars, id < f.nextId)
    (parsed : MethodDescriptor.parse method.descriptor = .ok descriptor)
    (reaches : setting.isAnalyzed method.className = true → ∃ target left,
      resolve setting method run = .ok target left ∧ ∀ body ∈ target, ∃ result after,
      resultOf (analyzeMethod setting depth) body left = .ok result after) :
    ∃ sign after, Route setting depth method run sign after ∧
      (invoke setting (analyzeMethod setting depth) kind method f run =
        .error (.stackUnderflow f.pc) after ↔
        f.stack.length < operandCount descriptor kind.hasReceiver) ∧
      (operandCount descriptor kind.hasReceiver ≤ f.stack.length →
        ∃ g pushed, invoke setting (analyzeMethod setting depth) kind method f run = .ok g after ∧
          f.CallEffect (operandCount descriptor kind.hasReceiver) pushed g ∧
          (pushed = none ↔ descriptor.isVoid = true) ∧ ∀ v ∈ pushed, v.IsResult sign f.pc) := by
  obtain ⟨result, after, route, called⟩ := exists_route parsed kind f reaches
  refine ⟨result.sign, after, route, ?_⟩
  rw [called]
  rcases Nat.lt_or_ge f.stack.length (operandCount descriptor kind.hasReceiver) with short | enough
  · rw [Frame.exchange_of_short short]
    exact ⟨iff_of_true rfl short, fun enough => absurd short (Nat.not_lt.mpr enough)⟩
  · obtain ⟨g, exchanged, effect⟩ :=
      Frame.exists_exchange enough older (pushedResult descriptor f.pc result)
    rw [exchanged]
    exact ⟨iff_of_false nofun (Nat.not_lt.mpr enough), fun _ =>
      ⟨g, _, rfl, effect, pushedResult_eq_none_iff, fun v => isResult_of_mem_pushedResult⟩⟩

/-- A caller with two numbers on its stack. -/
def countdownCaller : Frame :=
  (({} : Frame).push (.unknown (some .int) 0)).push (.unknown (some .int) 1)

/-- The countdown takes one of the numbers. It is analysed until its result is stable, and the
result is not negative. -/
theorem countdownCaller_effect :
    (∀ id ∈ countdownCaller.vars, id < countdownCaller.nextId) ∧ ∃ after g v,
      Route countdownSetting 2 countdownBody.key {} .nonNegative after ∧
      invoke countdownSetting (analyzeMethod countdownSetting 2) .static countdownBody.key
        countdownCaller {} = .ok g after ∧
      countdownCaller.CallEffect 1 (some v) g ∧ g.stack = [2, 0] ∧ v.IsResult .nonNegative 0 := by
  have closed : countdownCaller.Closed :=
    ((Frame.Closed.empty.pushUnbounded rfl rfl Sign.noConfusion).closed.pushUnbounded
      rfl rfl Sign.noConfusion).closed
  have parsed : MethodDescriptor.parse countdownBody.key.descriptor =
      .ok { parameters := [.int], returnType := some .int } := by
    decide +kernel
  have reaches : ∃ target left, resolve countdownSetting countdownBody.key {} = .ok target left ∧
      ∀ body ∈ target, ∃ result after, resultOf (analyzeMethod countdownSetting 2)
        body left = .ok result after := by
    obtain ⟨target, left, resolved, checked⟩ := Analysis.exists_of_okAnd
      (fun target left =>
        target.all fun body => Analysis.okAnd (fun _ _ => true)
          (resultOf (analyzeMethod countdownSetting 2) body left))
      (resolve countdownSetting countdownBody.key {}) (by decide +kernel)
    refine ⟨target, left, resolved, fun body found => ?_⟩
    rw [Option.mem_def.mp found] at checked
    obtain ⟨result, after, success, -⟩ := Analysis.exists_of_okAnd _ _ checked
    exact ⟨result, after, success⟩
  obtain ⟨sign, after, route, -, enough⟩ :=
    invoke_effect .static closed.older parsed fun _ => reaches
  obtain ⟨g, pushed, called, effect, void, result⟩ := enough (by decide)
  obtain ⟨v, rfl⟩ := Option.ne_none_iff_exists'.mp (mt void.mp (by decide))
  obtain ⟨g', after', called', checked⟩ := Analysis.exists_of_okAnd
    (fun g _ => decide (g.vars[countdownCaller.nextId]?.map Variable.sign = some .nonNegative))
    (invoke countdownSetting (analyzeMethod countdownSetting 2)
    .static countdownBody.key countdownCaller {}) (by decide +kernel)
  obtain ⟨rfl, rfl⟩ := EStateM.Result.ok.inj (called.symm.trans called')
  have known := of_decide_eq_true checked
  rw [effect.pushed v rfl] at known
  obtain rfl : sign = .nonNegative := (result v rfl).sign.symm.trans (Option.some.inj known)
  exact ⟨closed.older, after, g, v, route, called, effect, effect.stack, result v rfl⟩

end Interpreter

end ArrayBounds
