import ArrayBounds.Proofs.Analysis.Coverage

/-! # Where reports come from

A report is made by an access whose check fails, unless there is an equal one already. To say which
checks fail in the course of an analysis, the analysis is repeated with a step in front of each
instruction that forgets all findings (`ArrayBounds.Setting.audit`): then every check that fails is
recorded in the log. An analysis and its audit go through the same runs, up to the findings and the
log (`ArrayBounds.Audited`), and at each point the findings are those of the checks recorded so far.
So the reports of an analysis are those of its failed checks, each one where it came up first
(`ArrayBounds.Setting.reports_of_failed_checks`).
-/

namespace ArrayBounds

open Program Analysis

open Interpreter

/-! ## Checks -/

/-- Forgets all findings. -/
def Analysis.forgetFindings : Analysis Unit :=
  modify ({ · with findings := ∅ })

/-- The analysis with a log that shows everything, and with no findings at the start of each
instruction. An access whose check fails is then always a new finding, and comes into the log. -/
def Setting.audit (setting : Setting) : Analysis Outcome :=
  setting.traced.analysisWith forgetFindings

/-- The places of the checks that have failed according to the log, in order. -/
def Run.failures (run : Run) : List (MethodKey × Nat) :=
  run.log.toList.filterMap Event.failure?

/-- The method belongs to one of the classes that are analysed. -/
def Setting.Includes (setting : Setting) (body : Body) : Prop :=
  (∃ name ∈ setting.analyzed, setting.repository.lookup? name = some body.owner) ∧
    body.method ∈ body.owner.methods

private theorem Setting.Declares.includes {setting : Setting} {body : Body}
    (declared : setting.Declares body) : setting.Includes body := by
  obtain ⟨name, analyzed, stored, first⟩ := declared
  exact ⟨⟨name, List.contains_iff_mem.mp analyzed, stored⟩, List.mem_of_find?_eq_some first⟩

/-- The check of an access. -/
structure Check where
  body : Body
  position : Nat

namespace Check

/-- Where the check is made, as the log tells it. -/
def place (check : Check) : MethodKey × Nat :=
  (check.body.key, check.position)

/-- The report of the check if it fails. -/
def report (check : Check) : Report :=
  check.body.report check.position

/-- The method belongs to a class that is analysed, and it has an access at the position. -/
structure Within (setting : Setting) (check : Check) : Prop where
  included : setting.Includes check.body
  access : ∃ instruction, check.body.method.instructions[check.position]? = some instruction ∧
    instruction.isAccess = true

end Check

/-- The findings are the reports of the checks at the given places, without those that have come up
before. -/
def Accounts (setting : Setting) (findings : Findings) (failures : List (MethodKey × Nat)) : Prop :=
  ∃ checks : List Check, (∀ check ∈ checks, check.Within setting) ∧
    checks.map Check.place = failures ∧ findings.reports = (checks.map Check.report).eraseDups

/-- An equal report is not added a second time. -/
private theorem Findings.reports_insert (findings : Findings) (report : Report) :
    (findings.insert report).reports =
      if report ∈ findings.reports then findings.reports else findings.reports ++ [report] := by
  unfold insert
  split
  · rfl
  · rfl

/-- Only the first one of equal reports counts. -/
private theorem eraseDups_concat (reports : List Report) (report : Report) :
    (reports ++ [report]).eraseDups = if report ∈ reports then reports.eraseDups
      else reports.eraseDups ++ [report] := by
  rw [List.eraseDups_append]
  by_cases known : report ∈ reports
  · simp [List.removeAll, known]
  · simp [List.removeAll, known, List.eraseDups_cons]

/-- A failed check accounts for its report. -/
private theorem Accounts.insert {setting : Setting} {findings : Findings}
    {failures : List (MethodKey × Nat)} {check : Check}
    (accounts : Accounts setting findings failures) (within : check.Within setting) :
    Accounts setting (findings.insert check.report) (failures ++ [check.place]) := by
  obtain ⟨checks, all, rfl, reports⟩ := accounts
  refine ⟨checks ++ [check], fun other member => ?_, by simp, ?_⟩
  · rcases List.mem_append.mp member with member | member
    · exact all other member
    · exact List.mem_singleton.mp member ▸ within
  · rw [Findings.reports_insert, List.map_append, List.map_singleton, eraseDups_concat, reports]
    simp only [List.mem_eraseDups]

/-- The runs agree in everything but the findings and the log. The findings of the first one are
those of the failed checks in the log of the second one. -/
structure Audited (setting : Setting) (plain audited : Run) : Prop where
  inProgress : audited.inProgress = plain.inProgress
  recursive : audited.recursive = plain.recursive
  memo : audited.memo = plain.memo
  statistics : audited.statistics = plain.statistics
  accounts : Accounts setting plain.findings audited.failures

/-- An entry of the log adds the failure that it tells of. -/
private theorem Run.failures_push (run : Run) (event : Event) :
    Run.failures { run with log := run.log.push event } = run.failures ++
      event.failure?.toList := by
  cases recorded : event.failure? with
  | none => simp [failures, List.filterMap_append, List.filterMap_cons_none recorded]
  | some place => simp [failures, List.filterMap_append, List.filterMap_cons_some recorded]

/-- Whenever the first step succeeds, the second one gives the same value in a run that is an audit
of the first one's run, and leads to such a run again. -/
def Audits {α : Type} (setting : Setting) (step audited : Analysis α) : Prop :=
  ∀ before before', Audited setting before before' → ∀ value after, step before = .ok value after →
    ∃ after', audited before' = .ok value after' ∧ Audited setting after after'

namespace Audits

variable {α β : Type} {setting : Setting} {first first' : Analysis α} {next next' : α → Analysis β}

private theorem pure (value : α) : Audits setting (pure value) (pure value) := by
  intro before before' audited value' after success
  obtain ⟨rfl, rfl⟩ := EStateM.pure_eq_ok_iff.mp success
  exact ⟨before', rfl, audited⟩

private theorem throw (error : AnalysisError) :
    Audits setting (throw error : Analysis α) (throw error) :=
  fun _ _ _ _ _ success => absurd success EStateM.throw_ne_ok

/-- Sequences are audited part by part. -/
private theorem bind (start : Audits setting first first')
    (rest : ∀ value before after, first before = .ok value after →
      Audits setting (next value) (next' value)) :
    Audits setting (first >>= next) (first' >>= next') := by
  intro before before' audited result after success
  obtain ⟨value, between, begun, ended⟩ := EStateM.bind_eq_ok_iff.mp success
  obtain ⟨between', begun', audited⟩ := start before before' audited value between begun
  obtain ⟨after', ended', audited⟩ :=
    rest value before between begun between between' audited result after ended
  exact ⟨after', (EStateM.bind_of_ok begun').trans ended', audited⟩

private theorem andThen (start : Audits setting first first')
    (rest : ∀ value, Audits setting (next value) (next' value)) :
    Audits setting (first >>= next) (first' >>= next') :=
  start.bind fun value _ _ _ => rest value

/-- A change is audited if it is made on both sides. -/
private theorem modify {change : Run → Run}
    (kept : ∀ run run', Audited setting run run' → Audited setting (change run) (change run')) :
    Audits setting (modify change : Analysis Unit) (modify change) := by
  intro before before' audited _ after success
  obtain rfl := EStateM.modify_eq_ok_iff.mp success
  exact ⟨change before', rfl, kept before before' audited⟩

/-- Looking at the runs and going on from there. -/
theorem get {next next' : Run → Analysis β}
    (rest : ∀ run run', Audited setting run run' → Audits setting (next run) (next' run')) :
    Audits setting (get >>= next) (get >>= next') :=
  fun before before' audited => rest before before' audited before before' audited

/-- Announcements other than those of failures are audited. -/
private theorem emit {event : Event} (other : event.failure? = none) :
    Audits setting (emit setting event) (emit setting.traced event) := by
  intro before before' audited _ after success
  obtain ⟨log, rfl⟩ := exists_log_of_emit success
  refine ⟨_, (emit_eq_ok_iff rfl).mpr rfl, audited.inProgress, audited.recursive, audited.memo,
    audited.statistics, ?_⟩
  rw [Run.failures_push, other, Option.toList_none, List.append_nil]
  exact audited.accounts

/-- Reading a descriptor is audited. -/
private theorem parseDescriptor (text : String) :
    Audits setting (parseDescriptor text) (parseDescriptor text) := by
  unfold Analysis.parseDescriptor
  split
  · exact pure _
  · exact throw _

private theorem lift (part : Except AnalysisError α) :
    Audits setting (liftM part) (liftM part) := by
  cases part with
  | error error => exact throw error
  | ok value => exact pure value

private theorem count (change : Statistics → Statistics) :
    Audits setting (count change) (count change) :=
  modify fun _ _ audited =>
    ⟨audited.inProgress, audited.recursive, audited.memo, congrArg change audited.statistics,
      audited.accounts⟩

private theorem remember (key : MethodKey) (result : Variable) :
    Audits setting (remember key result) (remember key result) :=
  modify fun _ _ audited =>
    ⟨audited.inProgress, audited.recursive, congrArg (·.insert key result) audited.memo,
      audited.statistics, audited.accounts⟩

private theorem markRecursive (key : MethodKey) :
    Audits setting (markRecursive key) (markRecursive key) :=
  modify fun _ _ audited =>
    ⟨audited.inProgress, congrArg (·.insert key) audited.recursive, audited.memo,
      audited.statistics, audited.accounts⟩

private theorem unmarkRecursive (key : MethodKey) :
    Audits setting (unmarkRecursive key) (unmarkRecursive key) :=
  modify fun _ _ audited =>
    ⟨audited.inProgress, congrArg (·.erase key) audited.recursive, audited.memo, audited.statistics,
      audited.accounts⟩

/-- A step is audited while its method is in progress. -/
private theorem whileInProgress (key : MethodKey) (same : Audits setting first first') :
    Audits setting (whileInProgress key first) (whileInProgress key first') := by
  intro before before' audited value after success
  obtain ⟨inner, ran, rfl⟩ := whileInProgress_eq_ok_iff.mp success
  have entered : Audited setting { before with inProgress := before.inProgress.insert key }
      { before' with inProgress := before'.inProgress.insert key } :=
    ⟨congrArg (·.insert key) audited.inProgress, audited.recursive, audited.memo,
      audited.statistics, audited.accounts⟩
  obtain ⟨inner', ran', audited⟩ := same _ _ entered value inner ran
  refine ⟨_, whileInProgress_eq_ok_iff.mpr ⟨inner', ran', rfl⟩, ?_⟩
  exact ⟨congrArg (·.erase key) audited.inProgress, audited.recursive, audited.memo,
    audited.statistics, audited.accounts⟩

/-- A loop over a list is audited round by round. -/
private theorem forM {step step' : α → Analysis Unit} {values : List α}
    (each : ∀ value ∈ values, Audits setting (step value) (step' value)) :
    Audits setting (values.forM step) (values.forM step') := by
  induction values with
  | nil => exact pure _
  | cons value values ih =>
      obtain ⟨here, others⟩ := List.forall_mem_cons.mp each
      exact here.andThen fun _ => ih others

/-- A choice is audited if both sides make it alike. -/
private theorem ite {condition condition' : Prop} [Decidable condition] [Decidable condition']
    {other other' : Analysis α} (same : condition' ↔ condition) (yes : Audits setting first first')
    (no : Audits setting other other') :
    Audits setting (if condition then first else other)
      (if condition' then first' else other') := by
  by_cases holds : condition
  · rw [if_pos holds, if_pos (same.mpr holds)]
    exact yes
  · rw [if_neg holds, if_neg (mt same.mp holds)]
    exact no

end Audits

/-! ## Instructions -/

/-- Only accesses are left unproved. -/
private theorem Frame.isAccess_of_transfer {f after : Frame} {instruction : Instruction}
    {access : Access} (moved : f.transfer instruction = .ok (after, some access)) :
    instruction.isAccess = true := by
  cases instruction with
  | arrayLoad | arrayStore => rfl
  | const | load | increment | goto | newObject | nop | checkCast | branch | invoke | invokeDynamic
  | throw | ret | unsupported =>
      cases moved
  | _ =>
      obtain ⟨_, _, moved⟩ := Except.bind_eq_ok_iff.mp moved
      cases moved

namespace Interpreter

variable {setting : Setting} {body : Body} {callee callee' : Callee} {walk walk' : Walk}
  {last : Nat} {instruction : Instruction} {f g : Frame}

/-- The report of an access is recorded if there is no such finding. -/
theorem reportAccess_of_new (full : setting.verbosity = .trace) {position : Nat} {run : Run}
    (new : body.report position ∉ run.findings) :
    reportAccess setting body position run = .ok ()
      { run with
        findings := run.findings.insert (body.report position)
        log := run.log.push (.accessUnproved body.key position) } := by
  unfold reportAccess
  rw [EStateM.get_bind, if_neg new]
  exact (emit_eq_ok_iff full).mpr rfl

/-- An access is announced, checked and reported if the check fails. -/
private theorem step_access (access : instruction.isAccess = true) :
    step setting body callee walk last instruction f =
      emit setting (.instructionReached body.key f.pc) >>=
        fun _ => liftM (f.transfer instruction) >>= fun moved =>
        (if moved.2.isSome then reportAccess setting body f.pc else pure ()) >>= fun _ =>
          pure (.next moved.1) := by
  cases instruction with
  | arrayLoad | arrayStore =>
      rw [step_proceeds _ _ _ _ _ rfl]
      simp only [proceed, bind_assoc, pure_bind]
  | _ => cases access

/-- An access moves the frame. If its check fails, it adds its report to the findings. -/
theorem step_access_eq_ok (access : instruction.isAccess = true) {unproved : Option Access}
    (moved : f.transfer instruction = .ok (g, unproved)) (run : Run) :
    ∃ log, step setting body callee walk last instruction f run =
      .ok (.next g)
        { run with findings := if unproved.isSome then run.findings.insert (body.report f.pc)
                     else run.findings, log } := by
  obtain ⟨log, announced⟩ := emit_succeeds setting (.instructionReached body.key f.pc) run
  rw [step_access access, EStateM.bind_of_ok announced,
    EStateM.bind_of_ok (lift_eq_ok_iff.mpr ⟨moved, rfl⟩)]
  cases unproved with
  | none => exact ⟨log, rfl⟩
  | some unproved =>
      obtain ⟨log, reported⟩ := reportAccess_eq_ok setting body f.pc { run with log }
      exact ⟨log, EStateM.bind_of_ok reported⟩

/-- With no findings at the start, an access whose check fails is recorded, and no other one is. -/
theorem step_access_records (access : instruction.isAccess = true) {unproved : Option Access}
    (moved : f.transfer instruction = .ok (g, unproved)) (run : Run) :
    ∃ after, (forgetFindings >>= fun _ => step setting.traced body callee walk last instruction f)
      run = .ok (.next g) after ∧
      after.inProgress = run.inProgress ∧ after.recursive = run.recursive ∧ after.memo = run.memo ∧
      after.statistics = run.statistics ∧
      after.failures = run.failures ++ if unproved.isSome then [(body.key, f.pc)] else [] := by
  have forgotten : forgetFindings run = .ok () { run with findings := ∅ } := rfl
  rw [EStateM.bind_of_ok forgotten, step_access access,
    EStateM.bind_of_ok ((emit_eq_ok_iff rfl).mpr rfl),
    EStateM.bind_of_ok (lift_eq_ok_iff.mpr ⟨moved, rfl⟩)]
  let announced : Run :=
    { run with findings := ∅, log := run.log.push (.instructionReached body.key f.pc) }
  have failures : announced.failures = run.failures :=
    (Run.failures_push { run with findings := ∅ } _).trans (List.append_nil _)
  cases unproved with
  | none => exact ⟨announced, rfl, rfl, rfl, rfl, rfl, failures.trans (List.append_nil _).symm⟩
  | some unproved =>
      have new : body.report f.pc ∉ announced.findings := List.not_mem_nil
      refine ⟨_, EStateM.bind_of_ok (reportAccess_of_new rfl new), rfl, rfl, rfl, rfl, ?_⟩
      exact (Run.failures_push
        { announced with findings := announced.findings.insert (body.report f.pc) } _).trans
        (congrArg (· ++ _) failures)

/-- The calls of methods that are analysed are audited. -/
def AuditsCalls (setting : Setting) (callee callee' : Callee) : Prop :=
  ∀ target, setting.Includes target → Audits setting (callee target) (callee' target)

/-- Walks are audited if calls are. -/
private theorem AuditsCalls.composes (calls : AuditsCalls setting callee callee') (body : Body) :
    Composes setting setting.traced body callee callee' fun _ => Audits setting where
  returns := .pure
  fails := .throw
  bind := .bind
  emits _ other := .emit other
  repeats := .count _
  skips := .count _
  calls target declared := by
    refine .get fun run run' audited => ?_
    rw [audited.memo]
    split
    · exact .pure _
    · exact calls target declared.includes

section Walks

variable (included : setting.Includes body) (calls : AuditsCalls setting callee callee')
include included calls

/-- An instruction that is executed after the findings have been forgotten records what it adds to
the findings otherwise. -/
theorem AuditsCalls.step
    (walks : ∀ first last f, Audits setting (walk first last f) (walk' first last f)) (last : Nat)
    (found : body.method.instructions[f.pc]? = some instruction) :
    Audits setting (Interpreter.step setting body callee walk last instruction f)
      (forgetFindings >>=
        fun _ => Interpreter.step setting.traced body callee' walk' last instruction f) := by
  -- Only an access looks at the findings; all other instructions do the same with and without them.
  by_cases access : instruction.isAccess = true
  case pos =>
    intro before before' audited flow after success
    cases moved : f.transfer instruction with
    | error error =>
        rw [step_access access] at success
        obtain ⟨_, _, -, success⟩ := EStateM.bind_eq_ok_iff.mp success
        obtain ⟨_, _, lifted, -⟩ := EStateM.bind_eq_ok_iff.mp success
        cases moved.symm.trans (lift_eq_ok_iff.mp lifted).1
    | ok moving =>
        obtain ⟨g, unproved⟩ := moving
        obtain ⟨log, done⟩ := step_access_eq_ok access moved before
        obtain ⟨rfl, rfl⟩ := EStateM.Result.ok.inj (done.symm.trans success)
        obtain ⟨after', done', progress, recursive, memo, statistics, failures⟩ :=
          step_access_records access moved before'
        refine ⟨after', done', progress.trans audited.inProgress, recursive.trans audited.recursive,
          memo.trans audited.memo, statistics.trans audited.statistics, ?_⟩
        rw [failures]
        cases unproved with
        | none => simpa using audited.accounts
        | some unproved =>
            have within : Check.Within setting ⟨body, f.pc⟩ :=
              ⟨included, instruction, found, access⟩
            exact audited.accounts.insert within
  case neg =>
    have executed :=
      (calls.composes body).step ⟨rfl, rfl, .refl _⟩ walks last instruction f fun moved =>
        absurd (Frame.isAccess_of_transfer moved) access
    intro before before' audited flow after success
    have forgotten : Audited setting before { before' with findings := ∅ } :=
      ⟨audited.inProgress, audited.recursive, audited.memo, audited.statistics, audited.accounts⟩
    exact executed before _ forgotten flow after success

/-- A walk is audited by a walk that forgets the findings in front of each instruction. -/
theorem AuditsCalls.interpret (fuel first last : Nat) (f : Frame) :
    Audits setting (Interpreter.interpret setting body callee fuel first last f)
      (interpretWith setting.traced body forgetFindings callee' fuel first last f) := by
  induction fuel generalizing first last f with
  | zero =>
      by_cases empty : last < first ∨ body.method.instructions.size ≤ first
      · rw [interpret_empty _ _ _ _ _ empty, interpretWith_empty _ _ _ _ _ _ empty]
        exact .pure f
      · have found :=
          Array.getElem?_eq_getElem (show first < body.method.instructions.size by omega)
        rw [interpret_zero _ _ _ _ found (by omega), interpretWith_zero _ _ _ _ _ found (by omega)]
        exact .throw _
  | succ fuel ih =>
      by_cases empty : last < first ∨ body.method.instructions.size ≤ first
      · rw [interpret_empty _ _ _ _ _ empty, interpretWith_empty _ _ _ _ _ _ empty]
        exact .pure f
      · have found :=
          Array.getElem?_eq_getElem (show first < body.method.instructions.size by omega)
        rw [interpret_step _ _ _ _ _ found (by omega),
          interpretWith_step _ _ _ _ _ _ found (by omega)]
        refine (calls.step included ih last found).andThen fun flow => ?_
        cases flow with
        | next g => exact ih _ _ _
        | resume position g => exact ih _ _ _
        | leave g => exact .pure g

end Walks

/-! ## Methods -/

/-- A pass over a method is audited if calls are. -/
private theorem AuditsCalls.analyzeOnce (calls : AuditsCalls setting callee callee')
    (included : setting.Includes body) :
    Audits setting (Interpreter.analyzeOnce setting callee body)
      (analyzeOnceWith setting.traced forgetFindings callee' body) := by
  refine (Audits.parseDescriptor _).andThen fun descriptor => .get fun run run' audited => ?_
  rw [audited.inProgress]
  refine .ite .rfl ?_ (.ite .rfl ?_ ?_)
  · exact (Audits.emit rfl).andThen fun _ => (Audits.markRecursive _).andThen fun _ => .pure _
  · exact (Audits.remember _ _).andThen fun _ => .pure _
  · refine (Audits.emit rfl).andThen fun _ => (Audits.count _).andThen fun _ => ?_
    refine (Audits.whileInProgress _ (calls.interpret included _ _ _ _)).andThen fun f => ?_
    exact (Audits.lift _).andThen fun _ => (Audits.remember _ _).andThen fun _ => .pure _

/-- Repetitions are audited if passes are. -/
private theorem audits_repeatUntilStable {key : MethodKey} {once once' : Analysis Variable}
    (same : Audits setting once once') (passes : Nat) (result : Variable) :
    Audits setting (repeatUntilStable setting key once passes result)
      (repeatUntilStable setting.traced key once' passes result) := by
  induction passes generalizing result with
  | zero =>
      refine (Audits.emit rfl).andThen fun _ => .ite .rfl (.pure _) ?_
      exact (Audits.remember _ _).andThen fun _ => .pure _
  | succ passes ih =>
      refine (Audits.count _).andThen fun _ => same.andThen fun next =>
        (Audits.unmarkRecursive _).andThen fun _ => ?_
      refine (Audits.remember _ _).andThen fun _ => .ite .rfl ?_ (ih _)
      exact (Audits.emit rfl).andThen fun _ => .pure _

/-- Methods that are called on demand are audited too, and so are all passes over recursive
methods. -/
theorem auditsCalls_analyzeMethod (depth : Nat) :
    AuditsCalls setting (analyzeMethod setting depth)
      (analyzeMethodWith setting.traced forgetFindings depth) := by
  induction depth with
  | zero => exact fun _ _ => .throw _
  | succ depth calls =>
      intro body included
      have once := calls.analyzeOnce included
      refine once.andThen fun result => .get fun run run' audited => ?_
      rw [audited.inProgress, audited.recursive]
      refine .ite .rfl (.pure _) ?_
      exact (Audits.unmarkRecursive _).andThen fun _ => audits_repeatUntilStable once _ _

/-- The analysis of a class is audited. -/
private theorem audits_analyzeClass {owner : ClassDef} {name : String}
    (analyzed : name ∈ setting.analyzed) (stored : setting.repository.lookup? name = some owner) :
    Audits setting (analyzeClass setting owner)
      (analyzeClassWith setting.traced forgetFindings owner) := by
  refine (Audits.emit rfl).andThen fun _ => .forM fun method member =>
    .get fun run run' audited => ?_
  rw [audited.memo]
  refine .ite .rfl (.pure _) ?_
  exact (auditsCalls_analyzeMethod _ ⟨owner, method⟩ ⟨⟨name, analyzed, stored⟩, member⟩).andThen
    fun _ => .pure _

end Interpreter

/-! ## Whole analyses -/

/-- An analysis that succeeds can be audited. -/
theorem Setting.exists_audit {setting : Setting} {outcome : Outcome} {final : Run}
    (success : setting.analysis {} = .ok outcome final) :
    outcome.reports = final.findings.reports ∧
      ∃ audited final', setting.audit {} = .ok audited final' ∧
        audited.statistics = outcome.statistics ∧
        Accounts setting final.findings final'.failures := by
  obtain ⟨classes, _, lifted, success⟩ := EStateM.bind_eq_ok_iff.mp success
  obtain ⟨searched, rfl⟩ := lift_eq_ok_iff.mp lifted
  obtain ⟨_, walked, walks, success⟩ := EStateM.bind_eq_ok_iff.mp success
  rw [EStateM.get_bind] at success
  obtain ⟨_, ended, finished, success⟩ := EStateM.bind_eq_ok_iff.mp success
  obtain ⟨rfl, rfl⟩ := EStateM.pure_eq_ok_iff.mp success
  obtain ⟨listed, -⟩ := Repository.lookupAll_eq_ok searched
  have classesAudited : Audits setting (classes.forM (analyzeClass setting))
      (classes.forM (analyzeClassWith setting.traced forgetFindings)) := by
    refine .forM fun owner member => ?_
    obtain ⟨name, analyzed, stored⟩ := listed owner member
    exact audits_analyzeClass analyzed stored
  have start : Audited setting {} {} := ⟨rfl, rfl, rfl, rfl, [], nofun, rfl, rfl⟩
  obtain ⟨walked', walks', audited⟩ := classesAudited {} {} start () walked walks
  have announcing : Audits setting (emit setting (.finished walked.statistics))
      (emit setting.traced (.finished walked.statistics)) := .emit rfl
  obtain ⟨ended', finished', audited'⟩ := announcing walked walked' audited () ended finished
  have sameFindings : ended.findings = walked.findings := by
    obtain ⟨log, rfl⟩ := exists_log_of_emit finished
    rfl
  refine ⟨congrArg Findings.reports sameFindings.symm,
    ⟨walked'.findings.reports, walked'.statistics⟩, ended', ?_,
    audited.statistics, audited'.accounts⟩
  rw [← audited.statistics] at finished'
  refine EStateM.bind_eq_ok_iff.mpr ⟨classes, {}, lift_eq_ok_iff.mpr ⟨searched, rfl⟩, ?_⟩
  refine EStateM.bind_eq_ok_iff.mpr ⟨(), walked', walks', ?_⟩
  exact EStateM.bind_eq_ok_iff.mpr
    ⟨walked', walked', rfl, EStateM.bind_eq_ok_iff.mpr ⟨(), ended', finished', rfl⟩⟩

/-- The reports of an analysis that succeeds are all different, and each of them names an access in
a method of one of the analysed classes. They are the reports of the checks that fail in the course
of the analysis, in this order, without those that have come up before. The checks that fail are
recorded by the audit of the analysis, which does the same otherwise. -/
theorem Setting.reports_of_failed_checks {setting : Setting} {outcome : Outcome}
    (success : setting.analyze.1 = .ok outcome) :
    outcome.reports.Nodup ∧
    (∀ report ∈ outcome.reports, ∃ owner method position instruction,
      owner.name ∈ setting.analyzed ∧ setting.repository.lookup? owner.name = some owner ∧
      method ∈ owner.methods ∧ method.instructions[position]? = some instruction ∧
      instruction.isAccess = true ∧
      report =
        { file := owner.sourceName, method := method.name, line := method.lineAt position }) ∧
    setting.analysisWith (pure ()) = setting.analysis ∧
    ∃ (audited : Outcome) (final : Run) (checks : List Check),
      setting.audit {} = .ok audited final ∧
      audited.statistics = outcome.statistics ∧ (∀ check ∈ checks, check.Within setting) ∧
      checks.map Check.place = final.failures ∧
      outcome.reports = (checks.map Check.report).eraseDups := by
  obtain ⟨final, ran, -⟩ := analysis_of_analyze success
  obtain ⟨reports, audited, final', audits, statistics, checks, within, places, findings⟩ :=
    exists_audit ran
  rw [reports]
  refine ⟨final.findings.distinct, fun report member => ?_, rfl, audited, final', checks, audits,
    statistics, within, places, findings⟩
  rw [findings, List.mem_eraseDups] at member
  obtain ⟨check, failed, rfl⟩ := List.mem_map.mp member
  obtain ⟨⟨⟨name, analyzed, stored⟩, declared⟩, instruction, found, access⟩ := within check failed
  obtain rfl := setting.repository.named name _ stored
  exact ⟨check.body.owner, check.body.method, check.position, instruction, analyzed, stored,
    declared, found, access, rfl⟩

/-- Reads two elements of an array in one line, and calls methods of its own class and of another
one. -/
def pairReads : Method :=
  { name := "both", descriptor := "([III)I", access := ⟨8⟩
    instructions :=
      #[.load .reference 0, .load .int 1, .arrayLoad .int, .stack .pop,
        .load .reference 0, .load .int 2,
        .arrayLoad .int, .stack .pop, .load .reference 0, .load .int 1,
        .invoke .static "demo/Pair" "get" "([II)I", .stack .pop,
        .load .reference 0, .load .int 1, .invoke .static "demo/Library" "get" "([II)I",
        .ret (some .int)]
    lines := #[⟨0, 5⟩] }

def singleRead : Method :=
  { name := "get", descriptor := "([II)I", access := ⟨8⟩
    instructions := #[.load .reference 0, .load .int 1, .arrayLoad .int, .ret (some .int)],
    lines := #[⟨0, 9⟩] }

/-- Only the first one of two classes is analysed. -/
def pairSetting : Setting :=
  { repository := ({} : Repository).addAll
      [{ name := "demo/Pair", sourceFile := some "Pair.java", methods := [pairReads, singleRead] },
        { name := "demo/Library", sourceFile := some "Library.java", methods := [singleRead] }]
    analyzed := ["demo/Pair"] }

def pairOutcome : Outcome :=
  { reports := [⟨"Pair.java", "both", some 5⟩, ⟨"Pair.java", "get", some 9⟩]
    statistics := { methodsAnalyzed := 2, opaqueCalls := 1 } }

/-- Three checks fail, two of them in the same line. -/
theorem pair_reports :
    pairSetting.analyze.1 = .ok pairOutcome ∧ pairOutcome.reports.Nodup ∧
      ∃ (audited : Outcome) (final : Run) (checks : List Check),
        pairSetting.audit {} = .ok audited final ∧ (∀ check ∈ checks, check.Within pairSetting) ∧
        checks.map Check.place =
          [(⟨"demo/Pair", "both", "([III)I"⟩, 2), (⟨"demo/Pair", "both", "([III)I"⟩, 6),
            (⟨"demo/Pair", "get", "([II)I"⟩, 2)] ∧
        pairOutcome.reports = (checks.map Check.report).eraseDups := by
  have success : pairSetting.analyze.1 = .ok pairOutcome :=
    Setting.analyze_eq_ok (by decide +kernel)
  obtain ⟨distinct, -, -, audited, final, checks, audits, -, within, places, reports⟩ :=
    Setting.reports_of_failed_checks success
  obtain ⟨audited', final', audits', failures⟩ := exists_of_okAnd
    (fun _ final => final.failures ==
      [(⟨"demo/Pair", "both", "([III)I"⟩, 2), (⟨"demo/Pair", "both", "([III)I"⟩, 6),
        (⟨"demo/Pair", "get", "([II)I"⟩, 2)])
    (pairSetting.audit {}) (by decide +kernel)
  obtain ⟨rfl, rfl⟩ := EStateM.Result.ok.inj (audits.symm.trans audits')
  exact ⟨success, distinct, audited, final, checks, audits, within,
    places.trans (eq_of_beq failures), reports⟩

end ArrayBounds
