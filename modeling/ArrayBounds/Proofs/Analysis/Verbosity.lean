import ArrayBounds.Proofs.Walk.Composition

/-! # The log does not matter

How much a setting wants to see in the log has no influence on an analysis: two steps that differ
only in the events they record do the same to everything but the log (`ArrayBounds.Analysis.Alike`),
and all steps of an analysis are put together from such steps. So an analysis has the same outcome
at every level, and what it does can be read off the log of the level that shows everything
(`ArrayBounds.Setting.outcome_traced`).
-/

namespace ArrayBounds

open Program

namespace Analysis

variable {α β : Type}

/-- What is left of a result without the log. -/
def unlogged : EStateM.Result AnalysisError Run α → Except AnalysisError α × Run
  | .ok value run => (.ok value, { run with log := #[] })
  | .error error run => (.error error, { run with log := #[] })

/-- Two steps that do the same to everything but the log, and do not look at the log. -/
def Alike (step step' : Analysis α) : Prop :=
  ∀ (run : Run) (log log' : Array Event),
    unlogged (step { run with log }) = unlogged (step' { run with log := log' })

namespace Alike

variable {first first' : Analysis α} {next next' : α → Analysis β}

private theorem pure (value : α) : Alike (pure value) (pure value) :=
  fun _ _ _ => rfl

private theorem throw (error : AnalysisError) : Alike (throw error : Analysis α) (throw error) :=
  fun _ _ _ => rfl

private theorem lift (part : Except AnalysisError α) :
    Alike (liftM part : Analysis α) (liftM part) := by
  cases part with
  | error error => exact throw error
  | ok value => exact pure value

/-- Announcements differ in the log only. -/
private theorem emit (setting setting' : Setting) (event event' : Event) :
    Alike (Analysis.emit setting event) (Analysis.emit setting' event') := by
  intro run log log'
  unfold Analysis.emit
  split <;> split <;> rfl

/-- A change that ignores the log is the same for both. -/
private theorem modify {change : Run → Run}
    (blind : ∀ run log, change { run with log } = { change run with log }) :
    Alike (modify change : Analysis Unit) (modify change) := by
  intro run log log'
  have left := congrArg (fun run : Run => { run with log := #[] }) (blind run log)
  have right := congrArg (fun run : Run => { run with log := #[] }) (blind run log')
  exact congrArg (Prod.mk _) (left.trans right.symm)

/-- Sequences are alike if their parts are, where they are carried out. -/
private theorem bind_of (start : Alike first first')
    (rest : ∀ value before after, first before = .ok value after →
      Alike (next value) (next' value)) : Alike (first >>= next) (first' >>= next') := by
  intro run log log'
  have same := start run log log'
  change unlogged (EStateM.bind first next _) = unlogged (EStateM.bind first' next' _)
  unfold EStateM.bind
  cases left : first { run with log } with
  | error error between =>
      cases right : first' { run with log := log' } with
      | error error' between' =>
          rw [left, right] at same
          obtain ⟨sameError, sameRun⟩ := Prod.mk.inj same
          cases sameError
          exact congrArg (Prod.mk _) sameRun
      | ok value' between' =>
          rw [left, right] at same
          cases (Prod.mk.inj same).1
  | ok value between =>
      cases right : first' { run with log := log' } with
      | error error' between' =>
          rw [left, right] at same
          cases (Prod.mk.inj same).1
      | ok value' between' =>
          rw [left, right] at same
          obtain ⟨sameValue, sameRun⟩ := Prod.mk.inj same
          cases sameValue
          have steps := rest value _ between left between between.log between'.log
          have other : between' = { between with log := between'.log } :=
            (congrArg (fun run : Run => { run with log := between'.log }) sameRun).symm
          dsimp only
          rw [other]
          exact steps

private theorem bind (start : Alike first first')
    (rest : ∀ value, Alike (next value) (next' value)) :
    Alike (first >>= next) (first' >>= next') :=
  start.bind_of fun value _ _ _ => rest value

/-- Looking at a run and going on alike whatever the log is. -/
theorem get {next next' : Run → Analysis β}
    (rest : ∀ (run : Run) (log log' : Array Event),
      Alike (next { run with log }) (next' { run with log := log' })) :
    Alike (get >>= next) (get >>= next') :=
  fun run log log' => rest run log log' run log log'

/-- A choice is alike if both of its sides are. -/
private theorem ite {condition : Prop} [Decidable condition] {other other' : Analysis α}
    (yes : condition → Alike first first') (no : ¬condition → Alike other other') :
    Alike (if condition then first else other) (if condition then first' else other') := by
  split
  case isTrue holds => exact yes holds
  case isFalse fails => exact no fails

/-- Loops over a list are alike if their rounds are. -/
private theorem forM {step step' : α → Analysis Unit} {values : List α}
    (same : ∀ value, Alike (step value) (step' value)) :
    Alike (values.forM step) (values.forM step') := by
  induction values with
  | nil => exact pure _
  | cons value values ih => exact (same value).bind fun _ => ih

/-- Reading a descriptor does not depend on the log. -/
private theorem parseDescriptor (text : String) :
    Alike (Analysis.parseDescriptor text) (Analysis.parseDescriptor text) := by
  unfold Analysis.parseDescriptor
  split
  · exact pure _
  · exact throw _

private theorem count (change : Statistics → Statistics) :
    Alike (Analysis.count change) (Analysis.count change) :=
  modify fun _ _ => rfl

private theorem remember (key : MethodKey) (result : Variable) :
    Alike (Analysis.remember key result) (Analysis.remember key result) :=
  modify fun _ _ => rfl

/-- Steps are alike while their method is in progress. -/
private theorem whileInProgress (key : MethodKey) (same : Alike first first') :
    Alike (Analysis.whileInProgress key first) (Analysis.whileInProgress key first') := by
  intro run log log'
  have inner := same { run with inProgress := run.inProgress.insert key } log log'
  unfold Analysis.whileInProgress
  dsimp only
  generalize first { run with inProgress := run.inProgress.insert key, log } = left at inner ⊢
  generalize first' { run with inProgress := run.inProgress.insert key, log := log' } =
    right at inner ⊢
  cases left <;> cases right <;>
    simp only [unlogged, Prod.mk.injEq, Except.ok.injEq, Except.error.injEq,
    reduceCtorEq, false_and] at inner ⊢
  all_goals
    refine ⟨inner.1, ?_⟩
    exact congrArg (fun run : Run => { run with inProgress := run.inProgress.erase key }) inner.2

end Alike

end Analysis

namespace Interpreter

open Analysis

variable (setting : Setting) (verbosity : Level) (body : Body) {callee callee' : Callee}

/-! ## Walks -/

/-- Calls are alike, whether their results are known or not. -/
private theorem alike_resultOf {target : Body} (alike : Alike (callee target) (callee' target)) :
    Alike (resultOf callee target) (resultOf callee' target) := by
  refine .get fun run _ _ => ?_
  dsimp only
  split
  · exact .pure _
  · exact alike

private theorem alike_reportAccess (position : Nat) :
    Alike (reportAccess setting body position)
      (reportAccess { setting with verbosity } body position) := by
  refine .get fun run _ _ => .ite (fun _ => .pure _) fun _ => ?_
  exact (Alike.modify fun _ _ => rfl).bind fun _ => .emit _ _ _ _

/-- Walks are alike if calls are. -/
private theorem alike_interpret (calls : ∀ target, Alike (callee target) (callee' target))
    (fuel first last : Nat) (f : Frame) :
    Alike (interpret setting body callee fuel first last f)
      (interpret { setting with verbosity } body callee' fuel first last f) := by
  have composes : Composes setting { setting with verbosity } body callee callee' fun _ => Alike :=
    { returns := .pure
      fails := .throw
      bind := .bind_of
      emits := fun _ _ => .emit _ _ _ _
      repeats := .count _
      skips := .count _
      calls := fun target _ => alike_resultOf (calls target) }
  exact composes.interpret ⟨rfl, rfl, .refl _⟩ (alike_reportAccess setting verbosity body)
    fuel first last f

/-! ## Methods -/

/-- Passes over a method are alike if calls are. -/
private theorem alike_analyzeOnce (calls : ∀ target, Alike (callee target) (callee' target))
    (body : Body) :
    Alike (analyzeOnce setting callee body)
      (analyzeOnce { setting with verbosity } callee' body) := by
  refine (Alike.parseDescriptor _).bind fun descriptor => .get fun run _ _ => ?_
  refine .ite (fun _ => ?_) fun _ => .ite (fun _ => ?_) fun _ => ?_
  · exact (Alike.emit _ _ _ _).bind fun _ => (Alike.modify fun _ _ => rfl).bind fun _ => .pure _
  · exact (Alike.remember _ _).bind fun _ => .pure _
  · refine (Alike.emit _ _ _ _).bind fun _ => (Alike.count _).bind fun _ => ?_
    refine (Alike.whileInProgress _ (alike_interpret _ _ _ calls _ _ _ _)).bind fun f => ?_
    exact (Alike.lift _).bind fun _ => (Alike.remember _ _).bind fun _ => .pure _

/-- Repetitions are alike if passes are. -/
private theorem alike_repeatUntilStable (key : MethodKey) {once once' : Analysis Variable}
    (same : Alike once once') (passes : Nat) (result : Variable) :
    Alike (repeatUntilStable setting key once passes result)
      (repeatUntilStable { setting with verbosity } key once' passes result) := by
  induction passes generalizing result with
  | zero =>
      refine (Alike.emit _ _ _ _).bind fun _ => .ite (fun _ => .pure _) fun _ => ?_
      exact (Alike.remember _ _).bind fun _ => .pure _
  | succ passes ih =>
      refine (Alike.count _).bind fun _ => same.bind fun next =>
        (Alike.modify fun _ _ => rfl).bind fun _ => ?_
      refine (Alike.remember _ _).bind fun _ => .ite (fun _ => ?_) fun _ => ih _
      exact (Alike.emit _ _ _ _).bind fun _ => .pure _

/-- The analysis of a method does not depend on what is logged. -/
theorem alike_analyzeMethod (depth : Nat) (body : Body) :
    Alike (analyzeMethod setting depth body)
      (analyzeMethod { setting with verbosity } depth body) := by
  induction depth generalizing body with
  | zero => exact .throw _
  | succ depth ih =>
      have once := alike_analyzeOnce setting verbosity ih body
      refine once.bind fun result => .get fun run _ _ => .ite (fun _ => .pure _) fun _ => ?_
      exact (Alike.modify fun _ _ => rfl).bind fun _ => alike_repeatUntilStable _ _ _ once _ _

/-- The analysis of a class does not depend on what is logged. -/
private theorem alike_analyzeClass (owner : ClassDef) :
    Alike (analyzeClass setting owner) (analyzeClass { setting with verbosity } owner) := by
  refine (Alike.emit _ _ _ _).bind fun _ => Alike.forM fun method => .get fun run _ _ => ?_
  refine .ite (fun _ => .pure _) fun _ => ?_
  exact (alike_analyzeMethod _ _ _ _).bind fun _ => .pure _

end Interpreter

/-- The setting with a log that shows everything. -/
def Setting.traced (setting : Setting) : Setting :=
  { setting with verbosity := .trace }

/-- An analysis has the same outcome with a log that shows everything. -/
theorem Setting.outcome_traced (setting : Setting) :
    setting.traced.analyze.1 = setting.analyze.1 := by
  have alike : Analysis.Alike setting.analysis setting.traced.analysis := by
    refine (Analysis.Alike.lift _).bind fun classes =>
      Analysis.Alike.bind (.forM fun owner => ?_) fun _ => ?_
    · exact Interpreter.alike_analyzeClass setting .trace owner
    · refine .get fun run _ _ => (Analysis.Alike.emit _ _ _ _).bind fun _ => .pure _
  have same := congrArg Prod.fst (alike {} #[] #[])
  have outcome (setting : Setting) :
      setting.analyze.1 = (Analysis.unlogged (setting.analysis {})).1 := by
    unfold Setting.analyze EStateM.run
    cases setting.analysis {} <;> rfl
  exact (outcome setting.traced).trans (same.symm.trans (outcome setting).symm)

end ArrayBounds
