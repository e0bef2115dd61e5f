import ArrayBounds.Analysis.Method
import ArrayBounds.Proofs.Sequences

/-! # Steps of an analysis, taken apart

A step that is made of smaller ones succeeds exactly if they all succeed one after the other. The
lemmas below say so for each way of building steps, so that a successful step can be taken apart
without looking at how runs and errors are passed on. Two steps are equal if their first parts are,
and their rests agree on everything that the first part can produce
(`ArrayBounds.Analysis.bind_congr_ok`).

A contract says what a step makes of every run with a given property, whether it succeeds or not
(`ArrayBounds.Analysis.Keeps`).
-/

namespace ArrayBounds

/-- A result is known if it can be found. -/
theorem Memo.contains_eq (memo : Memo) (key : MethodKey) :
    memo.contains key = (memo.get? key).isSome :=
  Std.ExtTreeMap.contains_eq_isSome_getElem?

/-- Storing the result of a method makes it known, in addition to those known before. -/
theorem Memo.contains_insert {memo : Memo} {key other : MethodKey} {result : Variable} :
    (memo.insert key result).contains other = true ↔ key = other ∨ memo.contains other = true := by
  simp only [contains, insert, Std.ExtTreeMap.contains_insert, Bool.or_eq_true, beq_iff_eq,
    Std.LawfulEqCmp.compare_eq_iff_eq]

/-- A stored result is found without its bounds, and no other result is affected. -/
theorem Memo.get?_insert {memo : Memo} {key other : MethodKey} {result : Variable} :
    (memo.insert key result).get? other = if key = other then some result.clearBounds
      else memo.get? other := by
  simp only [get?, insert, Std.ExtTreeMap.getElem?_insert, Std.LawfulEqCmp.compare_eq_iff_eq]

/-- Taking out a key that was new restores the keys. -/
theorem erase_insert {keys : Std.ExtTreeSet MethodKey} {key : MethodKey}
    (absent : keys.contains key = false) : (keys.insert key).erase key = keys := by
  refine Std.ExtTreeSet.ext_contains fun other => ?_
  rw [Std.ExtTreeSet.contains_erase, Std.ExtTreeSet.contains_insert]
  by_cases same : key = other
  · subst same
    have self : compare key key = .eq := Std.ReflCmp.compare_self
    rw [absent, self]
    rfl
  · have different : compare key other ≠ .eq :=
      fun equal => same (Std.LawfulEqCmp.eq_of_compare equal)
    rw [bne_iff_ne.mpr different, beq_eq_false_iff_ne.mpr different, Bool.true_and, Bool.false_or]

/-- A key that was taken out is not there. -/
theorem contains_erase_self (keys : Std.ExtTreeSet MethodKey) (key : MethodKey) :
    (keys.erase key).contains key = false := by
  have self : compare key key = .eq := Std.ReflCmp.compare_self
  rw [Std.ExtTreeSet.contains_erase, self]
  rfl

/-- What holds of a key and of others holds of all of them together. -/
theorem forall_mem_insert {keys : Std.ExtTreeSet MethodKey} {key : MethodKey} {P : MethodKey → Prop}
    (here : P key) (others : ∀ other ∈ keys, P other) : ∀ other ∈ keys.insert key, P other := by
  intro other member
  obtain same | member := Std.ExtTreeSet.mem_insert.mp member
  · exact Std.LawfulEqCmp.eq_of_compare same ▸ here
  · exact others other member

/-- Taking out a key leaves only keys that were there and are different from it. -/
theorem mem_of_mem_erase {keys : Std.ExtTreeSet MethodKey} {key other : MethodKey}
    (member : other ∈ keys.erase key) : other ∈ keys ∧ key ≠ other := by
  obtain ⟨different, member⟩ := Std.ExtTreeSet.mem_erase.mp member
  exact ⟨member, fun same => different (same ▸ Std.ReflCmp.compare_self)⟩

namespace Analysis

variable {α β : Type}

/-! ## Success -/

/-- A step that only looks at a frame succeeds without changing the run. -/
@[simp] theorem lift_eq_ok_iff {part : Except AnalysisError α} {result : α} {before after : Run} :
    (liftM part : Analysis α) before = .ok result after ↔ part = .ok result ∧ before = after := by
  cases part with
  | error error =>
      change EStateM.Result.error error before = .ok result after ↔ _
      simp
  | ok value =>
      change EStateM.Result.ok value before = .ok result after ↔ _
      simp

/-- A descriptor that can be read is returned, and the run stays the same. -/
theorem parseDescriptor_of_parse {text : String} {descriptor : MethodDescriptor}
    (parsed : MethodDescriptor.parse text = .ok descriptor) (run : Run) :
    parseDescriptor text run = .ok descriptor run := by
  unfold parseDescriptor
  rw [parsed]
  rfl

/-- Reading a descriptor leaves the run as it is. -/
theorem parseDescriptor_eq_ok {text : String} {descriptor : MethodDescriptor} {before after : Run}
    (success : parseDescriptor text before = .ok descriptor after) : before = after := by
  unfold parseDescriptor at success
  cases parsed : MethodDescriptor.parse text with
  | error error =>
      rw [parsed] at success
      exact absurd success EStateM.throw_ne_ok
  | ok descriptor' =>
      rw [parsed] at success
      exact (EStateM.pure_eq_ok_iff.mp success).2

/-- A log that shows everything takes up every event. -/
theorem emit_eq_ok_iff {setting : Setting} (full : setting.verbosity = .trace) {event : Event}
    {before after : Run} :
    emit setting event before = .ok () after ↔
      after = { before with log := before.log.push event } := by
  have shown : setting.verbosity.shows event.level = true := by
    rw [full]
    cases event.level <;> rfl
  rw [emit, if_pos shown, EStateM.modify_eq_ok_iff, eq_comm]

/-- Recording an event never fails, and changes nothing but the log. -/
theorem emit_succeeds (setting : Setting) (event : Event) (before : Run) :
    ∃ log, emit setting event before = .ok () { before with log } := by
  unfold emit
  split
  · exact ⟨_, rfl⟩
  · exact ⟨_, rfl⟩

/-- An announcement changes nothing but the log. -/
theorem exists_log_of_emit {setting : Setting} {event : Event} {before after : Run}
    (success : emit setting event before = .ok () after) : ∃ log, after = { before with log } := by
  obtain ⟨log, done⟩ := emit_succeeds setting event before
  exact ⟨log, (EStateM.Result.ok.inj (success.symm.trans done)).2⟩

/-- An announcement concerns neither the methods in progress nor the results that are known. -/
theorem emit_still {setting : Setting} {event : Event} {before after : Run}
    (success : emit setting event before = .ok () after) :
    after.inProgress = before.inProgress ∧ after.memo = before.memo := by
  obtain ⟨log, rfl⟩ := exists_log_of_emit success
  exact ⟨rfl, rfl⟩

/-- A step is taken with its method in progress, which is taken out of progress in the end. -/
theorem whileInProgress_eq_ok_iff {key : MethodKey} {step : Analysis α} {value : α}
    {before after : Run} :
    whileInProgress key step before = .ok value after ↔
      ∃ inner, step { before with inProgress := before.inProgress.insert key } = .ok value inner ∧
        after = { inner with inProgress := inner.inProgress.erase key } := by
  unfold whileInProgress
  cases step { before with inProgress := before.inProgress.insert key } with
  | error error inner => simp
  | ok value' inner =>
      simp only [EStateM.Result.ok.injEq]
      constructor
      · rintro ⟨same, rfl⟩
        exact ⟨inner, ⟨same, rfl⟩, rfl⟩
      · rintro ⟨_, ⟨same, rfl⟩, rfl⟩
        exact ⟨same, rfl⟩

/-! ## Outcomes -/

/-- The outcome of a step is a success of which `Q` holds, or an error of which `E` holds. -/
def Yields (Q : α → Run → Prop) (E : AnalysisError → Prop) :
    EStateM.Result AnalysisError Run α → Prop
  | .ok value run => Q value run
  | .error error _ => E error

section

variable {Q : α → Run → Prop} {Q' : β → Run → Prop} {E : AnalysisError → Prop}

/-- What a sequence yields follows from what its parts yield. -/
theorem Yields.bind {first : Analysis α} {next : α → Analysis β} {before : Run}
    (start : Yields Q E (first before))
    (rest : ∀ value between, Q value between → Yields Q' E (next value between)) :
    Yields Q' E ((first >>= next) before) := by
  change Yields Q' E (EStateM.bind first next before)
  unfold EStateM.bind
  cases done : first before with
  | error error between =>
      rw [done] at start
      exact start
  | ok value between =>
      rw [done] at start
      exact rest value between start

/-- Less may be asked of a result than it yields. -/
theorem Yields.imp {outcome : EStateM.Result AnalysisError Run α} {Q' : α → Run → Prop}
    (yields : Yields Q E outcome) (weaker : ∀ value run, Q value run → Q' value run) :
    Yields Q' E outcome := by
  cases outcome with
  | error error run => exact yields
  | ok value run => exact weaker value run yields

/-- What holds of the values already dealt with, and is kept by dealing with one more, holds of all
values in the end. -/
theorem yields_forM {step : α → Analysis Unit} (holds : List α → Run → Prop) {values : List α}
    {before : Run} (start : holds [] before)
    (each : ∀ done value rest run, values = done ++ value :: rest → holds done run →
      Yields (fun _ after => holds (done ++ [value]) after) E (step value run)) :
    Yields (fun _ after => holds values after) E (values.forM step before) := by
  have remaining (done rest : List α) (split : values = done ++ rest) (run : Run)
      (held : holds done run) :
      Yields (fun _ after => holds values after) E (rest.forM step run) := by
    induction rest generalizing done run with
    | nil =>
        rw [List.append_nil] at split
        exact split ▸ held
    | cons value rest ih =>
        refine (each done value rest run split held).bind fun _ between kept => ?_
        exact ih (done ++ [value])
          (by rw [split, List.append_assoc, List.singleton_append]) between kept
  exact remaining [] values rfl before start

end

/-! ## Evaluation -/

/-- The outcome of a step is a success that passes the check. -/
def okAnd (check : α → Run → Bool) : EStateM.Result AnalysisError Run α → Bool
  | .ok value run => check value run
  | .error _ _ => false

/-- A check of the result of a run that passes shows that there is a result, and what it is like. -/
theorem exists_of_okAnd (check : α → Run → Bool) (outcome : EStateM.Result AnalysisError Run α)
    (checked : okAnd check outcome = true) :
    ∃ value run, outcome = .ok value run ∧ check value run = true := by
  cases outcome with
  | error error run => cases checked
  | ok value run => exact ⟨value, run, rfl, checked⟩

/-! ## Equality -/

/-- Sequences are equal if they start with the same step and go on alike from everything that it
produces. -/
theorem bind_congr_ok {first : Analysis α} {next next' : α → Analysis β}
    (rest : ∀ before value between, first before = .ok value between →
      next value between = next' value between) :
    first >>= next = first >>= next' := by
  funext before
  change EStateM.bind first next before = EStateM.bind first next' before
  unfold EStateM.bind
  cases success : first before with
  | ok value between => exact rest before value between success
  | error error between => rfl

/-! ## Contracts -/

/-- From a run of which `R` holds, the step comes to such a run again, with a value of which `Q`
holds, or it raises an error of which `E` holds. -/
def Keeps (R : Run → Prop) (E : AnalysisError → Prop) (step : Analysis α) (Q : α → Prop) : Prop :=
  ∀ before, R before → match step before with
    | .ok value after => Q value ∧ R after
    | .error error _ => E error

namespace Keeps

variable {R : Run → Prop} {E : AnalysisError → Prop} {Q : α → Prop} {Q' : β → Prop}

/-- What is known after a step that has succeeded. -/
theorem ok {step : Analysis α} (keeps : Keeps R E step Q) {before after : Run} {value : α}
    (holds : R before) (success : step before = .ok value after) : Q value ∧ R after := by
  have kept := keeps before holds
  rw [success] at kept
  exact kept

/-- What is known of the error of a step that has failed. -/
theorem error {step : Analysis α} (keeps : Keeps R E step Q) {before after : Run}
    {error : AnalysisError} (holds : R before) (failure : step before = .error error after) :
    E error := by
  have kept := keeps before holds
  rw [failure] at kept
  exact kept

/-- What a step does in one run may be proved with a property that holds of this run and is
stronger. -/
theorem weaken {step : Analysis α} {S : Run → Prop} (keeps : Keeps S E step Q) {before : Run}
    (holds : S before) (weaker : ∀ run, S run → R run) : match step before with
      | .ok value after => Q value ∧ R after
      | .error error _ => E error := by
  have kept := keeps before holds
  split at kept
  · exact ⟨kept.1, weaker _ kept.2⟩
  · exact kept

/-- A sequence keeps what each of its parts keeps. -/
theorem bind {first : Analysis α} {next : α → Analysis β} (start : Keeps R E first Q)
    (rest : ∀ value, Q value → Keeps R E (next value) Q') : Keeps R E (first >>= next) Q' := by
  intro before holds
  have begun := start before holds
  change match EStateM.bind first next before with
    | .ok value after => Q' value ∧ R after
    | .error error _ => E error
  unfold EStateM.bind
  cases done : first before with
  | ok value between =>
      rw [done] at begun
      exact rest value begun.1 between begun.2
  | error error between =>
      rw [done] at begun
      exact begun

/-- Returning a value keeps everything. -/
theorem pure {value : α} (here : Q value) : Keeps R E (Pure.pure value) Q :=
  fun _ holds => ⟨here, holds⟩

/-- Nothing has to be kept by a step that fails with an error that is allowed. -/
theorem throw {error : AnalysisError} (allowed : E error) :
    Keeps R E (throw error : Analysis α) Q :=
  fun _ _ => allowed

/-- A step that does not look at the run keeps everything that depends on the run. -/
theorem lift {part : Except AnalysisError α} (success : ∀ value, part = .ok value → Q value)
    (failure : ∀ error, part = .error error → E error) : Keeps R E (liftM part : Analysis α) Q := by
  cases done : part with
  | ok value => exact fun _ holds => ⟨success value done, holds⟩
  | error error => exact fun _ _ => failure error done

/-- A change of the run keeps what it is made to keep. -/
theorem modify {change : Run → Run} (kept : ∀ run, R run → R (change run)) :
    Keeps R E (modify change : Analysis Unit) fun _ => True :=
  fun run holds => ⟨trivial, kept run holds⟩

/-- Looking at the run keeps everything, and what is seen satisfies the invariant. -/
theorem get : Keeps R E (get : Analysis Run) R :=
  fun _ holds => ⟨holds, holds⟩

/-- Announcements keep what does not depend on the log. -/
theorem emit {setting : Setting} {event : Event} (kept : ∀ run log, R run → R { run with log }) :
    Keeps R E (emit setting event) fun _ => True := by
  intro before holds
  obtain ⟨log, done⟩ := emit_succeeds setting event before
  rw [done]
  exact ⟨trivial, kept before log holds⟩

/-- A loop over a list keeps what each of its rounds keeps. -/
theorem forM {step : α → Analysis Unit} {values : List α}
    (each : ∀ value ∈ values, Keeps R E (step value) fun _ => True) :
    Keeps R E (values.forM step) fun _ => True := by
  induction values with
  | nil => exact .pure trivial
  | cons value rest ih =>
      obtain ⟨first, others⟩ := List.forall_mem_cons.mp each
      exact .bind first fun _ _ => ih others

end Keeps

end Analysis

/-! ## The steps of a whole analysis -/

namespace Interpreter

open Program

variable (setting : Setting)

/-- The steps of a pass over a method. -/
theorem analyzeOnce_eq (callee : Callee) (body : Body) :
    analyzeOnce setting callee body = (do
      let descriptor ← Analysis.parseDescriptor body.method.descriptor
      let unknown := Variable.unknown descriptor.returnType 0
      if (← get).inProgress.contains body.key then
        Analysis.emit setting (.methodReentered body.key)
        Analysis.markRecursive body.key
        return unknown
      else if !body.method.hasBody then
        Analysis.remember body.key unknown
        return unknown
      else
        Analysis.emit setting (.methodStarted body.key)
        Analysis.count fun s => { s with methodsAnalyzed := s.methodsAnalyzed + 1 }
        let f ← Analysis.whileInProgress body.key
          (interpretBody setting body callee (initialFrame body descriptor))
        f.checkSupply
        let result := (f.returnedValue?.getD unknown).clearBounds
        Analysis.remember body.key result
        return result) := rfl

/-- A method is analysed in passes, in which calls are followed one level less deep. -/
theorem analyzeMethod_succ (depth : Nat) (body : Body) :
    analyzeMethod setting (depth + 1) body =
      stabilise setting body.key (analyzeOnce setting (analyzeMethod setting depth) body) := rfl

/-- A method whose result is known is not analysed again. -/
theorem analyzeUnlessKnown_eq (body : Body) :
    analyzeUnlessKnown setting body = (do
      if (← get).memo.contains body.key then return ()
      else discard (analyzeMethod setting (callDepth setting) body)) := rfl

/-- A class is announced, and then its methods are analysed in order. -/
theorem analyzeClass_eq (owner : ClassDef) :
    analyzeClass setting owner = (do
      Analysis.emit setting (.classStarted owner.name)
      owner.methods.forM fun method => analyzeUnlessKnown setting { owner, method }) := rfl

end Interpreter

/-- The classes are looked up and analysed in order, and the counts are announced in the end. -/
theorem Setting.analysis_eq (setting : Setting) :
    setting.analysis = (do
      let classes ← setting.repository.lookupAll setting.analyzed
      classes.forM (Interpreter.analyzeClass setting)
      let run ← get
      Analysis.emit setting (.finished run.statistics)
      return { reports := run.findings.reports, statistics := run.statistics }) := rfl

end ArrayBounds
