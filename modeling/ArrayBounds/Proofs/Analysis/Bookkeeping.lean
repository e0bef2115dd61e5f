import ArrayBounds.Proofs.Analysis.Termination
import ArrayBounds.Proofs.Walk.Composition

/-! # Methods in progress and recursive methods

A run keeps two sets of methods: those that are in progress, and those that were called while they
were. The analysis of a method leaves the first set as it was, even if it fails
(`ArrayBounds.Analysis.Restores`). A method that is marked as recursive is unmarked again before its
own analysis ends, so that at each point where no pass is cut off only methods in progress are
marked. Between the analyses of two methods that are not called by any other, both sets are empty
(`ArrayBounds.Setting.bookkeeping_restored`).
-/

namespace ArrayBounds

open Program

namespace Run

/-- Only methods in progress are marked as recursive. -/
def Marked (run : Run) : Prop :=
  ∀ key ∈ run.recursive, key ∈ run.inProgress

/-- Only methods in progress are marked as recursive, and perhaps the given one. -/
def MarkedBut (run : Run) (key : MethodKey) : Prop :=
  ∀ other ∈ run.recursive, other ∈ run.inProgress ∨ other = key

/-- No method is in progress, and none is marked. -/
def Idle (run : Run) : Prop :=
  run.inProgress = ∅ ∧ run.recursive = ∅

/-- When no method is in progress, no method is marked as recursive either. -/
theorem Marked.idle {run : Run} (marked : run.Marked) (none : run.inProgress = ∅) : run.Idle := by
  refine ⟨none, Std.ExtTreeSet.eq_empty_iff_forall_not_mem.mpr fun key member => ?_⟩
  have running := marked key member
  rw [none] at running
  exact Std.ExtTreeSet.not_mem_empty running

/-- A run in which no method is in progress and none is marked has all its marks on methods in
progress. -/
theorem Idle.marked {run : Run} (idle : run.Idle) : run.Marked := by
  intro key member
  rw [idle.2] at member
  exact absurd member Std.ExtTreeSet.not_mem_empty

/-- The marks are right if the method in question is in progress or is not marked. -/
private theorem MarkedBut.marked {run : Run} {key : MethodKey} (marked : run.MarkedBut key)
    (settled : key ∈ run.inProgress ∨ key ∉ run.recursive) : run.Marked := by
  intro other member
  rcases marked other member with running | rfl
  · exact running
  · exact settled.resolve_right fun absent => absent member

/-- Taking the mark from the one method that is not in progress sets the marks right again. -/
theorem MarkedBut.unmark {run : Run} {key : MethodKey} (marked : run.MarkedBut key) :
    (run.unmark key).Marked := by
  intro other member
  obtain ⟨member, different⟩ := mem_of_mem_erase member
  exact (marked other member).resolve_right fun same => different same.symm

end Run

/-! ## Contracts -/

namespace Analysis

variable {α β : Type} {P Q S : Run → Prop}

/-- The run that a step leaves behind, whether it succeeds or not. -/
def endOf : EStateM.Result AnalysisError Run α → Run
  | .ok _ run => run
  | .error _ run => run

/-- The methods in progress are the same before and after. If the step has succeeded and `P` held
before, then `Q` holds after. -/
def Restored (P Q : Run → Prop) (before : Run) : EStateM.Result AnalysisError Run α → Prop
  | .ok _ after => after.inProgress = before.inProgress ∧ (P before → Q after)
  | .error _ after => after.inProgress = before.inProgress

/-- The step leaves the methods in progress as they are, even if it fails. If it succeeds, it takes
runs with the property `P` to runs with the property `Q`. -/
def Restores (P Q : Run → Prop) (step : Analysis α) : Prop :=
  ∀ before, Restored P Q before (step before)

/-- A sequence restores what its parts restore one after the other. -/
private theorem Restored.bind {first : Analysis α} {next : α → Analysis β} {before : Run}
    (start : Restored P Q before (first before))
    (rest : ∀ value between, first before = .ok value between →
      Restored Q S between (next value between)) :
    Restored P S before ((first >>= next) before) := by
  change Restored P S before (EStateM.bind first next before)
  unfold EStateM.bind
  cases done : first before with
  | error error between =>
      rw [done] at start
      exact start
  | ok value between =>
      rw [done] at start
      have ended := rest value between done
      dsimp only
      cases finished : next value between with
      | error error after =>
          rw [finished] at ended
          exact ended.trans start.1
      | ok result after =>
          rw [finished] at ended
          exact ⟨ended.1.trans start.1, fun holds => ended.2 (start.2 holds)⟩

namespace Restores

/-- The methods in progress are restored even if the step fails. -/
private theorem endOf {step : Analysis α} (restores : Restores P Q step) (before : Run) :
    (Analysis.endOf (step before)).inProgress = before.inProgress := by
  have restored := restores before
  cases done : step before with
  | error error after =>
      rw [done] at restored
      exact restored
  | ok value after =>
      rw [done] at restored
      exact restored.1

/-- What has been restored after a step that succeeded. -/
theorem ok {step : Analysis α} (restores : Restores P Q step) {before after : Run} {value : α}
    (success : step before = .ok value after) :
    after.inProgress = before.inProgress ∧ (P before → Q after) := by
  have restored := restores before
  rw [success] at restored
  exact restored

private theorem bind {first : Analysis α} {next : α → Analysis β} (start : Restores P Q first)
    (rest : ∀ value before after, first before = .ok value after → Restores Q S (next value)) :
    Restores P S (first >>= next) :=
  fun before => (start before).bind fun value between done => rest value before between done between

private theorem andThen {first : Analysis α} {next : α → Analysis β} (start : Restores P Q first)
    (rest : ∀ value, Restores Q S (next value)) : Restores P S (first >>= next) :=
  start.bind fun value _ _ _ => rest value

/-- Returning a value leaves the run as it is. -/
theorem pure (value : α) : Restores P P (Pure.pure value) :=
  fun _ => ⟨rfl, id⟩

private theorem throw (error : AnalysisError) : Restores P Q (throw error : Analysis α) :=
  fun _ => rfl

private theorem lift (part : Except AnalysisError α) : Restores P P (liftM part : Analysis α) := by
  cases part with
  | error error => exact throw error
  | ok value => exact pure value

private theorem modify {change : Run → Run} (same : ∀ run, (change run).inProgress = run.inProgress)
    (kept : ∀ run, P run → Q (change run)) : Restores P Q (modify change : Analysis Unit) :=
  fun run => ⟨same run, kept run⟩

/-- Looking at the run leaves it as it is. -/
theorem get {next : Run → Analysis α} (each : ∀ run, Restored P Q run (next run run)) :
    Restores P Q ((get : Analysis Run) >>= next) :=
  each

/-- Announcements restore everything that does not depend on the log. -/
private theorem emit {setting : Setting} {event : Event}
    (kept : ∀ run log, P run → P { run with log }) : Restores P P (emit setting event) := by
  intro before
  obtain ⟨log, done⟩ := emit_succeeds setting event before
  rw [done]
  exact ⟨rfl, kept before log⟩

/-- Reading a descriptor changes nothing. -/
private theorem parseDescriptor (text : String) : Restores P P (parseDescriptor text) := by
  unfold Analysis.parseDescriptor
  split
  · exact pure _
  · exact throw _

/-- A loop over a list restores what each of its rounds restores. -/
private theorem forM {step : α → Analysis Unit} {values : List α}
    (each : ∀ value, Restores P P (step value)) : Restores P P (values.forM step) := by
  induction values with
  | nil => exact pure _
  | cons value rest ih => exact (each value).andThen fun _ => ih

end Restores

end Analysis

namespace Interpreter

open Analysis

variable {setting : Setting} {callee : Callee} {body : Body} {P : Run → Prop}

/-- What a walk changes by itself does not matter to the property: the log, the findings, and the
counts of loops and of calls that are not followed. -/
def Insensitive (P : Run → Prop) : Prop :=
  ∀ {run run' : Run}, P run → run'.inProgress = run.inProgress → run'.recursive = run.recursive →
    run'.memo = run.memo → run'.statistics.methodsAnalyzed = run.statistics.methodsAnalyzed →
    run'.statistics.recursionIterations = run.statistics.recursionIterations → P run'

/-- A report is of no concern to what depends on neither the log nor the findings. -/
private theorem Insensitive.reports (insensitive : Insensitive P) (position : Nat) :
    Restores P P (reportAccess setting body position) := by
  refine .get fun run => ?_
  split
  · exact Restores.pure () run
  · refine (?_ : Restores P P _) run
    refine .andThen (Q := P)
      (.modify (fun _ => rfl) fun _ holds => insensitive holds rfl rfl rfl rfl rfl) fun _ => ?_
    exact .emit fun _ _ holds => insensitive holds rfl rfl rfl rfl rfl

/-- A walk keeps what its calls keep. -/
theorem restores_interpret (insensitive : Insensitive P)
    (calls : ∀ target, setting.Declares target → Restores P P (resultOf callee target))
    (fuel first last : Nat) (f : Frame) :
    Restores P P (interpret setting body callee fuel first last f) := by
  have composes : Composes setting setting body callee callee fun _ step _ => Restores P P step :=
    { returns := .pure
      fails := .throw
      bind := .bind
      emits := fun _ _ => .emit fun _ _ holds => insensitive holds rfl rfl rfl rfl rfl
      repeats := .modify (fun _ => rfl) fun _ holds => insensitive holds rfl rfl rfl rfl rfl
      skips := .modify (fun _ => rfl) fun _ holds => insensitive holds rfl rfl rfl rfl rfl
      calls }
  exact composes.interpret (.refl setting) insensitive.reports fuel first last f

/-- Whether the marks are right depends on the methods in progress and on the marks alone. -/
theorem insensitive_marked : Insensitive Run.Marked := by
  intro run run' marked progress recursive _ _ _
  unfold Run.Marked
  rw [progress, recursive]
  exact marked

/-! ## One pass -/

/-- A method that was not in progress is taken out again, and it is the only one that may be marked
without being in progress. -/
theorem restored_whileInProgress {α : Type} {key : MethodKey} {step : Analysis α}
    (restores : Restores Run.Marked Run.Marked step) {before : Run}
    (fresh : before.inProgress.contains key = false) :
    Restored Run.Marked (·.MarkedBut key) before (whileInProgress key step before) := by
  have inside := restores { before with inProgress := before.inProgress.insert key }
  unfold whileInProgress
  cases done : step { before with inProgress := before.inProgress.insert key } with
  | error error inner =>
      rw [done] at inside
      exact (congrArg (·.erase key) inside).trans (erase_insert fresh)
  | ok value inner =>
      rw [done] at inside
      obtain ⟨same, kept⟩ := inside
      refine ⟨(congrArg (·.erase key) same).trans (erase_insert fresh),
        fun marked other member => ?_⟩
      have within :=
        kept (fun other member => Std.ExtTreeSet.mem_insert.mpr (.inr (marked other member)))
          other member
      by_cases here : key = other
      · exact .inr here.symm
      · refine .inl (Std.ExtTreeSet.mem_erase.mpr ⟨?_, within⟩)
        exact fun equal => here (Std.LawfulEqCmp.eq_of_compare equal)

/-- Looking for a known result first makes no difference to what is restored. -/
private theorem restores_resultOf (calls : Restores P P (callee body)) :
    Restores P P (resultOf callee body) := by
  refine .get fun run => ?_
  cases run.memo.get? body.key with
  | some result => exact Restores.pure result run
  | none => exact calls run

/-- A pass over a method leaves the methods in progress as they were, and marks no other method than
those in progress and the method itself. -/
theorem restores_analyzeOnce (calls : ∀ target, Restores Run.Marked Run.Marked (callee target))
    (body : Body) :
    Restores Run.Marked (·.MarkedBut body.key) (analyzeOnce setting callee body) := by
  refine (Restores.parseDescriptor _).andThen fun descriptor => .get fun run => ?_
  have announcing (event : Event) : Restores Run.Marked Run.Marked (emit setting event) :=
    .emit fun _ _ => id
  have storing (result : Variable) :
      Restores (·.MarkedBut body.key) (·.MarkedBut body.key) (remember body.key result) :=
    .modify (fun _ => rfl) fun _ => id
  split
  case isTrue running =>
    have marking : Restores Run.Marked (·.MarkedBut body.key) (markRecursive body.key) := by
      refine .modify (fun _ => rfl) fun run marked other member => ?_
      rcases Std.ExtTreeSet.mem_insert.mp member with same | member
      · exact .inr (Std.LawfulEqCmp.eq_of_compare same).symm
      · exact .inl (marked other member)
    exact ((announcing _).andThen fun _ => marking.andThen fun _ => .pure _) run
  case isFalse fresh =>
    split
    case isTrue =>
      have storing :
          Restores Run.Marked (·.MarkedBut body.key)
          (remember body.key (.unknown descriptor.returnType 0)) :=
        .modify (fun _ => rfl) fun run marked other member => .inl (marked other member)
      exact (storing.andThen fun _ => .pure _) run
    case isFalse =>
      refine (announcing _ run).bind fun _ announced done => ?_
      have same : announced.inProgress = run.inProgress := ((announcing _).ok done).1
      refine Restored.bind (Q := Run.Marked) ⟨rfl, id⟩ fun _ counted counting => ?_
      obtain rfl := EStateM.modify_eq_ok_iff.mp counting
      have walking :
          Restores Run.Marked Run.Marked
          (interpretBody setting body callee (initialFrame body descriptor)) :=
        restores_interpret insensitive_marked
          (fun target _ => restores_resultOf (calls target)) _ _ _ _
      refine (restored_whileInProgress walking ?_).bind fun f inner _ => ?_
      · exact (congrArg (·.contains body.key) same).trans (Bool.eq_false_iff.mpr fresh)
      · exact ((Restores.lift _).andThen fun _ => (storing _).andThen fun _ => .pure _) inner

/-! ## Methods -/

private theorem restores_unmark (key : MethodKey) :
    Restores (·.MarkedBut key) Run.Marked (unmarkRecursive key) :=
  .modify (fun _ => rfl) fun _ marked => marked.unmark

section

variable {key : MethodKey} {once : Analysis Variable}
  (passes : Restores Run.Marked (·.MarkedBut key) once)
include passes

/-- Each repetition takes the mark from its method. -/
private theorem restores_repeatUntilStable (limit : Nat) (result : Variable) :
    Restores Run.Marked Run.Marked (repeatUntilStable setting key once limit result) := by
  have announcing (event : Event) : Restores Run.Marked Run.Marked (emit setting event) :=
    .emit fun _ _ => id
  have storing (result : Variable) : Restores Run.Marked Run.Marked (remember key result) :=
    .modify (fun _ => rfl) fun _ => id
  induction limit generalizing result with
  | zero =>
      refine (announcing _).andThen fun _ => ?_
      split
      · exact .pure _
      · exact (storing _).andThen fun _ => .pure _
  | succ limit ih =>
      refine Restores.andThen (Q := Run.Marked) (.modify (fun _ => rfl) fun _ => id) fun _ => ?_
      refine passes.andThen fun next => (restores_unmark key).andThen fun _ =>
        (storing _).andThen fun _ => ?_
      split
      · exact (announcing _).andThen fun _ => .pure _
      · exact ih _

/-- When a method has become stable, it is in progress or not marked. -/
private theorem restores_stabilise :
    Restores Run.Marked Run.Marked (stabilise setting key once) := by
  refine passes.andThen fun result => .get fun run => ?_
  split
  case isTrue settled =>
    refine ⟨rfl, fun marked => marked.marked ?_⟩
    rw [Bool.or_eq_true, Bool.not_eq_true', Bool.eq_false_iff] at settled
    exact settled
  case isFalse =>
    exact ((restores_unmark key).andThen fun _ => restores_repeatUntilStable passes _ _) run

end

/-- The analysis of a method leaves the methods in progress as they were, and only those marked. -/
theorem restores_analyzeMethod (depth : Nat) (body : Body) :
    Restores Run.Marked Run.Marked (analyzeMethod setting depth body) := by
  induction depth generalizing body with
  | zero => exact .throw _
  | succ depth ih => exact restores_stabilise (restores_analyzeOnce ih body)

/-- The analysis of a class leaves only methods in progress marked. -/
private theorem restores_analyzeClass (owner : ClassDef) :
    Restores Run.Marked Run.Marked (analyzeClass setting owner) := by
  refine Restores.andThen (.emit fun _ _ => id) fun _ => .forM fun method => .get fun run => ?_
  split
  · exact Restores.pure () run
  · exact ((restores_analyzeMethod _ _).andThen fun _ => .pure _) run

end Interpreter

open Interpreter Analysis

namespace Setting

/-- The analysis leaves only methods in progress marked. -/
theorem restores_analysis (setting : Setting) :
    Restores Run.Marked Run.Marked setting.analysis := by
  refine Restores.andThen (Q := Run.Marked) ?_ fun classes =>
    (Restores.forM restores_analyzeClass).andThen fun _ => ?_
  · cases setting.repository.lookupAll setting.analyzed with
    | error error => exact .throw error
    | ok classes => exact .pure classes
  · exact .get fun run => (Restores.andThen (.emit fun _ _ => id) fun _ => .pure _) run

/-- One pass over a method and the whole analysis of a method leave the methods in progress as they
were, whether they succeed or fail, in any run and for any depth of calls. An analysis that succeeds
leaves only methods in progress marked as recursive, if it started so. Hence an analysis that starts
while no method is in progress or marked ends that way, and so do the analysis of any classes and a
whole analysis. -/
theorem bookkeeping_restored (setting : Setting) :
    (∀ depth body run,
      (endOf (analyzeOnce setting (analyzeMethod setting depth) body run)).inProgress =
        run.inProgress ∧
      (endOf (analyzeMethod setting depth body run)).inProgress = run.inProgress) ∧
    (∀ depth body run result after, analyzeMethod setting depth body run = .ok result after →
      (∀ key ∈ run.recursive, key ∈ run.inProgress) →
        ∀ key ∈ after.recursive, key ∈ after.inProgress) ∧
    (∀ depth body run result after, analyzeMethod setting depth body run = .ok result after →
      run.inProgress = ∅ → run.recursive = ∅ → after.inProgress = ∅ ∧ after.recursive = ∅) ∧
    (∀ (classes : List ClassDef) (run after : Run),
      classes.forM (analyzeClass setting) run = .ok () after →
      run.inProgress = ∅ → run.recursive = ∅ → after.inProgress = ∅ ∧ after.recursive = ∅) ∧
    ∀ outcome final, setting.analysis {} = .ok outcome final →
      final.inProgress = ∅ ∧ final.recursive = ∅ := by
  have settles {α : Type} {step : Analysis α} (restores : Restores Run.Marked Run.Marked step)
      {run after : Run} {value : α}
      (success : step run = .ok value after) (progress : run.inProgress = ∅)
      (recursive : run.recursive = ∅) : after.Idle := by
    obtain ⟨same, kept⟩ := restores.ok success
    have idle : run.Idle := ⟨progress, recursive⟩
    exact (kept idle.marked).idle (same.trans progress)
  refine ⟨fun depth body run => ⟨?_, ?_⟩, fun depth body run result after success => ?_,
    fun depth body run result after => ?_,
    fun classes run after => ?_, fun outcome final success => ?_⟩
  · exact (restores_analyzeOnce (restores_analyzeMethod depth) body).endOf run
  · exact (restores_analyzeMethod depth body).endOf run
  · exact ((restores_analyzeMethod depth body).ok success).2
  · exact settles (restores_analyzeMethod depth body)
  · exact settles (.forM restores_analyzeClass)
  · exact settles setting.restores_analysis success rfl rfl

end Setting

/-- The analysis of two methods that call each other repeats one of them, and forgets the marks in
the end. Within the analysis of the first method, that of the second one leaves the first one
marked, which is still in progress. -/
theorem ping_restored :
    (∃ outcome final, pingSetting.analysis {} = .ok outcome final ∧
      outcome.statistics.recursionIterations = 1 ∧ final.inProgress = ∅ ∧ final.recursive = ∅) ∧
    ∃ result after,
      analyzeMethod pingSetting 2 pongBody (({} : Run).enter pingBody.key) = .ok result after ∧
      after.recursive.contains pingBody.key = true ∧
      after.inProgress = (({} : Run).enter pingBody.key).inProgress ∧
      ∀ key ∈ after.recursive, key ∈ after.inProgress := by
  obtain ⟨restored, marked, -, -, idle⟩ := pingSetting.bookkeeping_restored
  obtain ⟨outcome, final, success, checked⟩ :=
    exists_of_okAnd (fun outcome _ => outcome.statistics.recursionIterations = 1)
      (pingSetting.analysis {}) (by decide +kernel)
  obtain ⟨result, after, called, recursive⟩ :=
    exists_of_okAnd (fun _ after => after.recursive.contains pingBody.key)
      (analyzeMethod pingSetting 2 pongBody (({} : Run).enter pingBody.key)) (by decide +kernel)
  refine ⟨⟨outcome, final, success, of_decide_eq_true checked, idle outcome final success⟩, result,
    after, called, recursive, ?_, marked 2 pongBody _ result after called fun _ member =>
      absurd member Std.ExtTreeSet.not_mem_empty⟩
  have same := (restored 2 pongBody (({} : Run).enter pingBody.key)).2
  rw [called] at same
  exact same

end ArrayBounds
