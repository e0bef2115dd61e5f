import ArrayBounds.Proofs.Analysis.Counting

/-! # Bottom-up orders

An analysis that follows calls as they come up interleaves passes over many methods. If no method
has turned out to be recursive, the passes can be taken apart: the methods can be ordered such that
each of them is analysed by a pass of its own, in which the results of all calls are stored already
(`ArrayBounds.Setting.Layered`). The results are the same (`ArrayBounds.Setting.layered_of_calm`).
-/

namespace ArrayBounds

open Program Analysis

namespace Memo

/-- The memo gives the same results as the other one, and perhaps more. -/
def Extends (memo other : Memo) : Prop :=
  ∀ key result, other.get? key = some result → memo.get? key = some result

variable {memo other third : Memo} {key : MethodKey}

/-- A memo extends itself. -/
theorem Extends.refl (memo : Memo) : memo.Extends memo :=
  fun _ _ => id

/-- Extensions of memos can be put together. -/
theorem Extends.trans (start : memo.Extends other) (rest : other.Extends third) :
    memo.Extends third :=
  fun key result stored => start key result (rest key result stored)

/-- An extension of a memo knows every result that the memo knows. -/
theorem Extends.contains (extends_ : memo.Extends other) (known : other.contains key = true) :
    memo.contains key = true := by
  rw [contains_eq, Option.isSome_iff_exists] at known ⊢
  obtain ⟨result, stored⟩ := known
  exact ⟨result, extends_ key result stored⟩

/-- Storing a result that was missing extends the memo. -/
theorem extends_insert (new : memo.contains key = false) (result : Variable) :
    (memo.insert key result).Extends memo := by
  intro other stored found
  have different : key ≠ other := by
    rintro rfl
    rw [contains_eq, found] at new
    cases new
  rw [get?_insert, if_neg different]
  exact found

/-- There is no result to be found where none is known. -/
theorem get?_eq_none (missing : memo.contains key = false) : memo.get? key = none := by
  rw [contains_eq, Option.isSome_eq_false_iff, Option.isNone_iff_eq_none] at missing
  exact missing

end Memo

open Interpreter

/-- A method, and the run that a pass over it leaves behind. -/
structure Layer where
  body : Body
  run : Run

/-- The memo arises from single passes over methods, one after the other, the last one first in the
list. A pass calls for no other analysis, since the results of its calls are stored. -/
inductive Setting.Layered (setting : Setting) : List Layer → Memo → Prop where
  | nil : setting.Layered [] {}
  | cons {layers : List Layer} {memo : Memo} {body : Body} {result : Variable} {run : Run}
      (below : setting.Layered layers memo) (declared : setting.Declares body)
      (new : memo.contains body.key = false)
      (passed : analyzeOnce setting (analyzeMethod setting 0) body { memo } = .ok result run) :
      setting.Layered (⟨body, run⟩ :: layers) (memo.insert body.key result)

/-- No method is marked as recursive, and none has been analysed again. -/
def Run.Calm (run : Run) : Prop :=
  run.recursive = ∅ ∧ run.statistics.recursionIterations = 0

/-- What is stored has a bottom-up order, and nothing is stored for methods in progress. -/
structure Setting.Grounded (setting : Setting) (run : Run) : Prop where
  layered : ∃ layers, setting.Layered layers run.memo
  missing : ∀ key ∈ run.inProgress, run.memo.contains key = false

namespace Setting.Grounded

variable {setting : Setting} {body : Body} {run after : Run}

private theorem congr (grounded : setting.Grounded run)
    (progress : after.inProgress = run.inProgress) (memo : after.memo = run.memo) :
    setting.Grounded after where
  layered := memo ▸ grounded.layered
  missing := progress ▸ memo ▸ grounded.missing

private theorem enter {key : MethodKey} (grounded : setting.Grounded run)
    (missing : run.memo.contains key = false) :
    setting.Grounded (run.enter key) where
  layered := grounded.layered
  missing := forall_mem_insert missing grounded.missing

/-- A pass in which the results of all calls are stored comes next in the bottom-up order. -/
theorem store {result : Variable} {own : Run} (grounded : setting.Grounded run)
    (declared : setting.Declares body) (new : run.memo.contains body.key = false)
    (passed : analyzeOnce setting (analyzeMethod setting 0) body { memo := run.memo } =
      .ok result own) (stored : after.memo = run.memo.insert body.key result)
    (progress : ∀ key ∈ after.inProgress, key ∈ run.inProgress ∧ body.key ≠ key) :
    setting.Grounded after where
  layered := by
    obtain ⟨layers, layered⟩ := grounded.layered
    rw [stored]
    exact ⟨_, layered.cons declared new passed⟩
  missing key there := by
    obtain ⟨there, different⟩ := progress key there
    rw [stored, Bool.eq_false_iff, ne_eq, Memo.contains_insert, not_or]
    exact ⟨different, Bool.eq_false_iff.mp (grounded.missing key there)⟩

end Setting.Grounded

namespace Interpreter

variable {setting : Setting} {body target : Body} {callee : Callee} {α β : Type}

/-! ## Replaying steps -/

/-- A step has come from one run to another. The results that it has stored fit into a bottom-up
order. With them at hand the second step gives the same value, and stores nothing. -/
structure Replayed (setting : Setting) (known : Analysis α) (value : α) (before after : Run) :
    Prop where
  grounded : setting.Grounded after
  progress : after.inProgress = before.inProgress
  retains : after.memo.Extends before.memo
  again : ∀ run, run.memo.Extends after.memo → ∃ ended, known run = .ok value ended ∧
    ended.memo = run.memo

/-- If no method has turned out to be recursive behind a step, then none had before it, and the step
can be replayed. -/
structure Replay (setting : Setting) (known : Analysis α) (value : α) (before after : Run) :
    Prop where
  repeats : after.statistics.recursionIterations = 0 → before.statistics.recursionIterations = 0
  calm : after.Calm → before.Calm
  replayed : after.Calm → setting.Grounded before → Replayed setting known value before after

/-- Whenever the first step succeeds, the second one replays it. -/
def Replays (setting : Setting) (step known : Analysis α) : Prop :=
  ∀ value before after, step before = .ok value after → Replay setting known value before after

/-- A step that changes nothing of importance can be replayed in any run. -/
theorem Replay.still {known : Analysis α} {value : α} {before after : Run}
    (progress : after.inProgress = before.inProgress)
    (recursive : after.recursive = before.recursive) (memo : after.memo = before.memo)
    (repeats : after.statistics.recursionIterations = before.statistics.recursionIterations)
    (again : ∀ run, ∃ ended, known run = .ok value ended ∧ ended.memo = run.memo) :
    Replay setting known value before after where
  repeats := repeats ▸ id
  calm calm := ⟨recursive ▸ calm.1, repeats ▸ calm.2⟩
  replayed _ grounded :=
    ⟨grounded.congr progress memo, progress, memo ▸ .refl _, fun run _ => again run⟩

namespace Replays

private theorem pure (value : α) : Replays setting (Pure.pure value) (Pure.pure value) := by
  intro value' before after success
  obtain ⟨rfl, rfl⟩ := EStateM.pure_eq_ok_iff.mp success
  exact .still rfl rfl rfl rfl fun run => ⟨run, rfl, rfl⟩

private theorem throw (error : AnalysisError) :
    Replays setting (throw error : Analysis α) (throw error) :=
  fun _ _ _ success => absurd success EStateM.throw_ne_ok

/-- Sequences are replayed if their parts are. -/
private theorem bind {first known : Analysis α} {next next' : α → Analysis β}
    (start : Replays setting first known)
    (rest : ∀ value before after, first before = .ok value after →
      Replays setting (next value) (next' value)) :
    Replays setting (first >>= next) (known >>= next') := by
  intro result before after success
  obtain ⟨value, between, begun, ended⟩ := EStateM.bind_eq_ok_iff.mp success
  have head := start value before between begun
  have tail := rest value before between begun result between after ended
  refine ⟨fun none => head.repeats (tail.repeats none), fun calm => head.calm (tail.calm calm),
    fun calm grounded => ?_⟩
  obtain ⟨grounded, progress, retains, again⟩ := head.replayed (tail.calm calm) grounded
  obtain ⟨grounded', progress', retains', again'⟩ := tail.replayed calm grounded
  refine ⟨grounded', progress'.trans progress, retains'.trans retains, fun run knows => ?_⟩
  obtain ⟨middle, replayed, same⟩ := again run (knows.trans retains')
  obtain ⟨last, replayed', same'⟩ := again' middle (same ▸ knows)
  exact ⟨last, (EStateM.bind_of_ok replayed).trans replayed', same'.trans same⟩

/-- Announcements are replayed. -/
private theorem emit (event : Event) :
    Replays setting (emit setting event) (emit setting event) := by
  have again (run : Run) : ∃ ended, Analysis.emit setting event run = .ok () ended ∧
      ended.memo = run.memo := by
    obtain ⟨log, done⟩ := emit_succeeds setting event run
    exact ⟨_, done, rfl⟩
  intro _ before after success
  obtain ⟨log, rfl⟩ := exists_log_of_emit success
  exact .still rfl rfl rfl rfl again

/-- Counts other than that of repetitions are replayed. -/
private theorem count {change : Statistics → Statistics}
    (same : ∀ s, (change s).recursionIterations = s.recursionIterations) :
    Replays setting (count change) (count change) := by
  intro _ before after success
  obtain rfl := EStateM.modify_eq_ok_iff.mp success
  exact .still rfl rfl rfl (same _) fun run => ⟨_, rfl, rfl⟩

/-- Reports are replayed. -/
private theorem report (position : Nat) :
    Replays setting (reportAccess setting body position) (reportAccess setting body position) := by
  intro _ before after success
  obtain ⟨log, done⟩ := reportAccess_eq_ok setting body position before
  obtain ⟨-, rfl⟩ := EStateM.Result.ok.inj (done.symm.trans success)
  refine .still rfl rfl rfl rfl fun run => ?_
  obtain ⟨log, done⟩ := reportAccess_eq_ok setting body position run
  exact ⟨_, done, rfl⟩

end Replays

/-- The result of a method is at hand where it is stored. -/
theorem resultOf_of_stored {run : Run} {result : Variable}
    (stored : run.memo.get? target.key = some result) :
    resultOf callee target run = .ok result run := by
  rw [resultOf, EStateM.get_bind, stored]
  rfl

/-- The analysis of any method that is not known yet stores its result, which can be replayed. -/
def Stores (setting : Setting) (callee : Callee) : Prop :=
  ∀ target result before after, setting.Declares target → before.memo.contains target.key = false →
    callee target before = .ok result after →
    Replay setting (resultOf (analyzeMethod setting 0) target) result before after

/-- A call whose result is stored is replayed by looking it up. -/
private theorem Stores.replays_resultOf (stores : Stores setting callee)
    (declared : setting.Declares target) :
    Replays setting (resultOf callee target) (resultOf (analyzeMethod setting 0) target) := by
  intro result before after success
  rw [resultOf, EStateM.get_bind] at success
  cases stored : before.memo.get? target.key with
  | some found =>
      rw [stored] at success
      obtain ⟨rfl, rfl⟩ := EStateM.pure_eq_ok_iff.mp success
      refine ⟨id, id, fun _ grounded => ⟨grounded, rfl, .refl _, fun run knows => ?_⟩⟩
      exact ⟨run, resultOf_of_stored (knows _ _ stored), rfl⟩
  | none =>
      rw [stored] at success
      exact stores target result before after declared
        (by rw [Memo.contains_eq, stored]; rfl) success

/-- A walk is replayed with calls that look up what is stored. -/
private theorem Stores.replays_walk (stores : Stores setting callee) (body : Body) (f : Frame) :
    Replays setting (interpretBody setting body callee f)
      (interpretBody setting body (analyzeMethod setting 0) f) := by
  have composes : Composes setting setting body callee (analyzeMethod setting 0)
      fun _ => Replays setting :=
    { returns := .pure
      fails := .throw
      bind := .bind
      emits := fun event _ => .emit event
      repeats := .count fun _ => rfl
      skips := .count fun _ => rfl
      calls := fun _ => stores.replays_resultOf }
  exact composes.interpret (.refl setting) .report _ _ _ f

/-! ## Passes -/

/-- A pass behind which no method has been analysed again started in such a run. -/
theorem Stores.repeats_pass (stores : Stores setting callee) {result : Variable}
    {before after : Run} (success : analyzeOnce setting callee body before = .ok result after)
    (none : after.statistics.recursionIterations = 0) :
    before.statistics.recursionIterations = 0 := by
  obtain ⟨descriptor, parsed⟩ := parse_of_analyzeOnce success
  by_cases running : before.inProgress.contains body.key = true
  · obtain ⟨log, once⟩ := analyzeOnce_of_running parsed running
    obtain ⟨-, rfl⟩ := EStateM.Result.ok.inj (once.symm.trans success)
    exact none
  have fresh := Bool.eq_false_iff.mpr running
  by_cases code : body.method.hasBody = true
  · obtain ⟨announced, f, inner, announces, walked, -, -, rfl⟩ :=
      analyzeOnce_walks parsed fresh code success
    obtain ⟨log, rfl⟩ := exists_log_of_emit announces
    exact (stores.replays_walk body _ _ _ _ walked).repeats none
  · rw [analyzeOnce_of_empty parsed fresh (Bool.eq_false_iff.mpr code)] at success
    obtain ⟨-, rfl⟩ := EStateM.Result.ok.inj success
    exact none

/-- A pass over a method that is not known yet can be replayed, unless it has only marked the
method. -/
theorem Stores.replay_pass (stores : Stores setting callee) (declared : setting.Declares body)
    {before after : Run} {result : Variable} (missing : before.memo.contains body.key = false)
    (success : analyzeOnce setting callee body before = .ok result after) :
    Replay setting (resultOf (analyzeMethod setting 0) body) result before after := by
  have repeats := stores.repeats_pass success
  obtain ⟨descriptor, parsed⟩ := parse_of_analyzeOnce success
  by_cases running : before.inProgress.contains body.key = true
  · obtain ⟨log, once⟩ := analyzeOnce_of_running parsed running
    obtain ⟨-, rfl⟩ := EStateM.Result.ok.inj (once.symm.trans success)
    have marked : ¬Run.Calm { before with recursive := before.recursive.insert body.key, log } :=
      fun calm =>
        Std.ExtTreeSet.insert_ne_empty calm.1
    exact ⟨repeats, fun calm => absurd calm marked, fun calm => absurd calm marked⟩
  have fresh := Bool.eq_false_iff.mpr running
  obtain ⟨stored, -, -⟩ := analyzeOnce_stores fresh success
  have again (run : Run) (knows : run.memo.Extends after.memo) :
      ∃ ended, resultOf (analyzeMethod setting 0) body run = .ok result ended ∧
        ended.memo = run.memo :=
    ⟨run, resultOf_of_stored (knows _ _ stored), rfl⟩
  by_cases code : body.method.hasBody = true
  · obtain ⟨announced, f, inner, announces, walked, fits, given, rfl⟩ :=
      analyzeOnce_walks parsed fresh code success
    obtain ⟨log, rfl⟩ := exists_log_of_emit announces
    have walk := stores.replays_walk body _ _ _ _ walked
    refine ⟨repeats, walk.calm, fun calm grounded => ?_⟩
    have entered : setting.Grounded (Run.enter { before with log } body.key) :=
      (grounded.enter missing).congr rfl rfl
    obtain ⟨grounded, progress, retains, known⟩ := walk.replayed calm entered
    have new : inner.memo.contains body.key = false := by
      apply grounded.missing
      rw [progress]
      exact Std.ExtTreeSet.mem_insert_self
    -- The walk is replayed in a run that has nothing but the results.
    obtain ⟨log, announced⟩ :=
      emit_succeeds setting (.methodStarted body.key) { memo := inner.memo }
    obtain ⟨ended, replayed, -⟩ := known (Run.enter { memo := inner.memo, log } body.key) (.refl _)
    have passed := analyzeOnce_of_walk parsed (by simp) code announced replayed fits given
    refine ⟨grounded.store declared new passed rfl fun key => mem_of_mem_erase, ?_, ?_, again⟩
    · exact (congrArg (·.erase body.key) progress).trans (erase_insert fresh)
    · exact (Memo.extends_insert new result).trans retains
  · have empty := Bool.eq_false_iff.mpr code
    rw [analyzeOnce_of_empty parsed fresh empty] at success
    obtain ⟨rfl, rfl⟩ := EStateM.Result.ok.inj success
    refine ⟨repeats, id, fun _ grounded => ⟨?_, rfl, Memo.extends_insert missing _, again⟩⟩
    refine grounded.store declared missing (analyzeOnce_of_empty parsed (by simp) empty)
      rfl fun key there => ⟨there, ?_⟩
    rintro rfl
    exact running (Std.ExtTreeSet.contains_iff_mem.mpr there)

/-! ## Methods -/

/-- Every pass over a recursive method but the first one is counted. -/
theorem Reanalyses.eq_nil {key : MethodKey} {once : Analysis Variable} {passes : List Reanalysis}
    {known final : Variable} {run left : Run}
    (trace : Reanalyses key once passes known run final left)
    (repeats : ∀ {result before after}, once before = .ok result after →
      after.statistics.recursionIterations = 0 → before.statistics.recursionIterations = 0)
    (none : left.statistics.recursionIterations = 0) :
    passes = [] ∧ run.statistics.recursionIterations = 0 := by
  induction trace with
  | none => exact ⟨rfl, none⟩
  | @more known next final run between left passes passed rest ih =>
      have counted : run.statistics.recursionIterations + 1 = 0 := repeats passed (ih none).2
      cases counted

/-- A method that turns out to be recursive is analysed again. -/
theorem Stores.counts_again (stores : Stores setting callee)
    (limit : 1 ≤ setting.limits.recursionPasses) {run after : Run} {known result : Variable}
    (again : repeatUntilStable setting body.key (analyzeOnce setting callee body)
      setting.limits.recursionPasses known run = .ok result after) :
    after.statistics.recursionIterations ≠ 0 := by
  intro none
  obtain ⟨stable, passes, ends⟩ := repeatUntilStable_ends again
  cases ends with
  | stable growing still fewer trace announces =>
      obtain ⟨log, rfl⟩ := exists_log_of_emit announces
      exact List.append_ne_nil_of_right_ne_nil _ (List.cons_ne_nil _ _)
        (trace.eq_nil stores.repeats_pass none).1
  | @givenUp _ known left announced growing full trace announces =>
      obtain ⟨log, rfl⟩ := exists_log_of_emit announces
      have none : left.statistics.recursionIterations = 0 := by
        split at none <;> exact none
      rw [(trace.eq_nil stores.repeats_pass none).1] at full
      rw [← full] at limit
      cases limit

/-- The analysis of a method stores the results of everything that it calls. -/
theorem stores_analyzeMethod (limit : 1 ≤ setting.limits.recursionPasses) (depth : Nat) :
    Stores setting (analyzeMethod setting depth) := by
  induction depth with
  | zero => exact fun _ _ _ _ _ _ success => absurd success EStateM.throw_ne_ok
  | succ depth stores =>
      intro target result before after declared missing success
      rw [analyzeMethod_succ] at success
      obtain ⟨first, between, passed, settled⟩ := stabilise_eq_ok success
      rcases settled with ⟨-, rfl, rfl⟩ | ⟨-, -, again⟩
      · exact stores.replay_pass declared missing passed
      · have counted := stores.counts_again limit again
        exact ⟨fun none => absurd none counted, fun calm => absurd calm.2 counted,
          fun calm => absurd calm.2 counted⟩

/-- Each analysis of a method from the outside leaves results that rest on those stored before. -/
private theorem completes_grounded (limit : 1 ≤ setting.limits.recursionPasses) :
    Completes setting (fun run => (run.inProgress = ∅ ∧ Fair setting (fun _ => False) run) ∧
      (run.Calm → setting.Grounded run)) fun _ => True := by
  rintro body run declared ⟨fair, grounded⟩ missing
  have completed := completes_fair body run declared fair missing
  cases success : analyzeMethod setting (callDepth setting) body run with
  | error error after => trivial
  | ok result after =>
      rw [success] at completed
      obtain ⟨fair, known, grows⟩ := completed
      have replay := stores_analyzeMethod limit _ body result run after declared missing success
      refine ⟨⟨fair, fun calm => ?_⟩, known, grows⟩
      exact (replay.replayed calm (grounded (replay.calm calm))).grounded

end Interpreter

/-- An analysis in which no method is analysed again could have been made bottom-up, with the same
results. -/
theorem Setting.layered_of_calm {setting : Setting}
    (limit : 1 ≤ setting.limits.recursionPasses) {outcome : Outcome} {final : Run}
    (success : setting.analysis {} = .ok outcome final)
    (straight : outcome.statistics.recursionIterations = 0) :
    (∃ layers, setting.Layered layers final.memo) ∧ ∀ body, setting.Declares body →
      final.memo.contains body.key = true := by
  obtain ⟨classes, searched⟩ := lookupAll_of_analysis success
  have announces : Announces setting fun run =>
      (run.inProgress = ∅ ∧ Fair setting (fun _ => False) run) ∧
        (run.Calm → setting.Grounded run) :=
    announces_of_logged fun run log ⟨⟨idle, fair⟩, grounded⟩ =>
      ⟨⟨idle, insensitive_fair fair rfl rfl rfl rfl rfl⟩, fun calm => (grounded calm).congr rfl rfl⟩
  have fair : Fair setting (fun _ => False) {} :=
    ⟨Run.Idle.marked ⟨rfl, rfl⟩, .start setting, nofun⟩
  have grounded : setting.Grounded {} := ⟨⟨[], .nil⟩, fun _ there => by simp at there⟩
  have yields := yields_analysis announces (completes_grounded limit) searched
    ⟨⟨rfl, fair⟩, fun _ => grounded⟩
  rw [success] at yields
  obtain ⟨⟨⟨idle, fair⟩, grounded⟩, known, rfl⟩ := yields
  exact ⟨(grounded ⟨(fair.marked.idle idle).2, straight⟩).layered, known⟩

end ArrayBounds
