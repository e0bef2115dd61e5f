import ArrayBounds.Proofs.Analysis.Layers
import Mathlib.Algebra.Group.Defs
import Mathlib.Data.Set.Basic

/-! # The order of the classes

An analysis starts with the methods of the first class, and follows calls as they come up. In
another order of the classes, other methods are analysed from the list of classes, and other calls
find a result that is stored already. If no method is recursive, that makes no difference: the
methods have a bottom-up order (`ArrayBounds.Setting.Layered`), each is walked through once in
whatever order, with the same results of its calls, and what the walks count and report adds up to
the same sums (`ArrayBounds.Tally`, `ArrayBounds.Setting.order_irrelevant`).
-/

namespace ArrayBounds

open Program Analysis Interpreter

/-! ## Sums -/

namespace Statistics

instance : Add Statistics where
  add first second :=
    { methodsAnalyzed := first.methodsAnalyzed + second.methodsAnalyzed
      opaqueCalls := first.opaqueCalls + second.opaqueCalls
      loopIterations := first.loopIterations + second.loopIterations
      recursionIterations := first.recursionIterations + second.recursionIterations }

private theorem add_eq (first second : Statistics) :
    first + second =
      ⟨first.methodsAnalyzed + second.methodsAnalyzed, first.opaqueCalls + second.opaqueCalls,
        first.loopIterations + second.loopIterations,
        first.recursionIterations + second.recursionIterations⟩ := rfl

end Statistics

/-- What is counted and reported in a run, whatever the order of the reports. -/
structure Tally where
  statistics : Statistics := {}
  reports : Set Report := ∅

namespace Tally

instance : Zero Tally := ⟨{}⟩

instance : Add Tally :=
  ⟨fun first second => ⟨first.statistics + second.statistics, first.reports ∪ second.reports⟩⟩

private theorem zero_eq : (0 : Tally) = {} := rfl

private theorem add_eq (first second : Tally) :
    first + second = ⟨first.statistics + second.statistics, first.reports ∪ second.reports⟩ := rfl

instance : AddCommMonoid Tally where
  add_assoc _ _ _ := by simp only [add_eq, Statistics.add_eq, Nat.add_assoc, Set.union_assoc]
  add_comm first second := by
    simp only [add_eq, Statistics.add_eq, Nat.add_comm, Set.union_comm first.reports]
  zero_add _ := by simp only [add_eq, zero_eq, Statistics.add_eq, Nat.zero_add, Set.empty_union]
  add_zero _ := by simp only [add_eq, zero_eq, Statistics.add_eq, Nat.add_zero, Set.union_empty]
  nsmul := nsmulRec

end Tally

/-- An added report is there, with all the others. -/
private theorem Findings.mem_insert {findings : Findings} {report other : Report} :
    other ∈ findings.insert report ↔ other ∈ findings ∨ other = report := by
  unfold insert
  split
  case isTrue known => exact (or_iff_left_of_imp fun same => same ▸ known).symm
  case isFalse => exact List.mem_append.trans (or_congr_right List.mem_singleton)

namespace Run

/-- What has been counted and reported so far. -/
def tally (run : Run) : Tally :=
  ⟨run.statistics, { report | report ∈ run.findings }⟩

private theorem tally_start (memo : Memo) (log : Array Event) : ({ memo, log } : Run).tally = 0 :=
  congrArg (Tally.mk {}) (Set.eq_empty_of_forall_notMem fun _ member => List.not_mem_nil member)

private theorem tally_enter (run : Run) (key : MethodKey) :
    (run.enter key).tally = run.tally + ⟨{ methodsAnalyzed := 1 }, ∅⟩ := by
  rw [Tally.add_eq, Set.union_empty]
  rfl

end Run

namespace Layer

/-- The sum of what the passes count and report whose results are stored. -/
def total (layers : List Layer) (memo : Memo) : Tally :=
  ((layers.filter fun layer => memo.contains layer.body.key).map fun layer => layer.run.tally).sum

variable {layers : List Layer} {memo : Memo}

/-- Each known layer adds its part to the total. -/
private theorem total_cons (layer : Layer) :
    total (layer :: layers) memo =
      (if memo.contains layer.body.key = true then layer.run.tally else 0) + total layers memo := by
  unfold total
  rw [List.filter_cons]
  split
  · rw [List.map_cons, List.sum_cons]
  · rw [zero_add]

/-- Nothing is counted for an empty memo. -/
@[simp] theorem total_empty : total layers {} = 0 := by
  unfold total
  rw [List.filter_eq_nil_iff.mpr]
  · rfl
  · simp [Memo.contains]

private theorem total_congr {memo' : Memo}
    (same : ∀ layer ∈ layers, memo'.contains layer.body.key = memo.contains layer.body.key) :
    total layers memo' = total layers memo := by
  unfold total
  rw [List.filter_congr same]

/-- A pass counts from the time on when its result is stored. -/
theorem total_insert {layer : Layer} (distinct : (layers.map (·.body.key)).Nodup)
    (here : layer ∈ layers) (new : memo.contains layer.body.key = false) (result : Variable) :
    total layers (memo.insert layer.body.key result) = layer.run.tally + total layers memo := by
  have others {key : MethodKey} (different : layer.body.key ≠ key) :
      (memo.insert layer.body.key result).contains key = memo.contains key := by
    rw [Bool.eq_iff_iff, Memo.contains_insert]
    exact or_iff_right different
  induction layers with
  | nil => cases here
  | cons head rest ih =>
      rw [List.map_cons, List.nodup_cons] at distinct
      rw [total_cons, total_cons]
      rcases List.mem_cons.mp here with rfl | here
      · have stored : (memo.insert layer.body.key result).contains layer.body.key = true :=
          Memo.contains_insert.mpr (.inl rfl)
        have rest : total rest (memo.insert layer.body.key result) = total rest memo :=
          total_congr fun other member => others fun same =>
            distinct.1 (same ▸ List.mem_map_of_mem member)
        rw [if_pos stored, if_neg (Bool.eq_false_iff.mp new), rest, zero_add]
      · have different : layer.body.key ≠ head.body.key :=
          fun same => distinct.1 (same ▸ List.mem_map_of_mem here)
        rw [others different, ih distinct.2 here, add_left_comm]

end Layer

/-! ## Steps -/

/-- A run on the way to the final memo, in which nothing has turned out to be recursive. The methods
in progress are neither known nor among those of the other memo. Beyond the passes whose results are
stored, the base has been counted and reported. -/
structure Midway (layers : List Layer) (final memo : Memo) (base : Tally) (run : Run) : Prop where
  unmarked : run.recursive = ∅
  agrees : final.Extends run.memo
  missing : ∀ key ∈ run.inProgress, run.memo.contains key = false
  above : ∀ key ∈ run.inProgress, memo.contains key = false
  tallied : run.tally = base + Layer.total layers run.memo

namespace Midway

variable {layers : List Layer} {final memo memo' : Memo} {base : Tally} {run after : Run}

/-- Fewer results may be expected to be known. -/
private theorem weaken (midway : Midway layers final memo base run) (smaller : memo.Extends memo') :
    Midway layers final memo' base run where
  __ := midway
  above key there := by
    rw [Bool.eq_false_iff]
    exact fun known => Bool.eq_false_iff.mp (midway.above key there) (smaller.contains known)

/-- A walk is counted when it starts. -/
theorem enter {key : MethodKey} (midway : Midway layers final memo base run)
    (missing : run.memo.contains key = false) (new : memo.contains key = false) :
    Midway layers final memo (base + ⟨{ methodsAnalyzed := 1 }, ∅⟩) (run.enter key) where
  unmarked := midway.unmarked
  agrees := midway.agrees
  missing := forall_mem_insert missing midway.missing
  above := forall_mem_insert new midway.above
  tallied := by
    rw [Run.tally_enter, midway.tallied, add_right_comm]
    rfl

/-- What a pass has counted and reported is accounted for once its result is stored. -/
theorem store {layer : Layer} {result : Variable}
    (midway : Midway layers final memo (base + layer.run.tally) run)
    (distinct : (layers.map (·.body.key)).Nodup) (here : layer ∈ layers)
    (stored : final.get? layer.body.key = some result.clearBounds)
    (new : run.memo.contains layer.body.key = false) (unmarked : after.recursive = run.recursive)
    (tallied : after.tally = run.tally) (kept : after.memo = run.memo.insert layer.body.key result)
    (progress : ∀ key ∈ after.inProgress, key ∈ run.inProgress ∧ layer.body.key ≠ key)
    (above : ∀ key ∈ after.inProgress, memo'.contains key = false) :
    Midway layers final memo' base after where
  unmarked := unmarked.trans midway.unmarked
  agrees key found there := by
    rw [kept, Memo.get?_insert] at there
    split at there
    case isTrue same => exact same ▸ stored.trans there
    case isFalse => exact midway.agrees key found there
  missing key there := by
    obtain ⟨there, different⟩ := progress key there
    rw [kept, Bool.eq_false_iff, ne_eq, Memo.contains_insert, not_or]
    exact ⟨different, Bool.eq_false_iff.mp (midway.missing key there)⟩
  above := above
  tallied := by rw [tallied, midway.tallied, kept, Layer.total_insert distinct here new, add_assoc]

end Midway

namespace Interpreter

variable {setting setting' : Setting} {layers : List Layer} {final memo : Memo} {body target : Body}
  {callee : Callee} {α β : Type} {gain : Tally} {value : α}

/-- The step always succeeds with the value, and changes nothing but the log and the sums, by the
gain. -/
def Adds (gain : Tally) (value : α) (step : Analysis α) : Prop :=
  ∀ run, ∃ after, step run = .ok value after ∧ after.inProgress = run.inProgress ∧
    after.recursive = run.recursive ∧ after.memo = run.memo ∧ after.tally = run.tally + gain

private theorem adds_pure (value : α) : Adds 0 value (pure value) :=
  fun run => ⟨run, rfl, rfl, rfl, rfl, (add_zero _).symm⟩

private theorem adds_emit (setting : Setting) (event : Event) : Adds 0 () (emit setting event) := by
  intro run
  obtain ⟨log, done⟩ := emit_succeeds setting event run
  exact ⟨_, done, rfl, rfl, rfl, (add_zero run.tally).symm⟩

/-- A step that counts adds to the count whatever the run. -/
private theorem adds_count {change : Statistics → Statistics} (added : Statistics)
    (counts : ∀ s, change s = s + added) : Adds ⟨added, ∅⟩ () (count change) := by
  refine fun run => ⟨_, rfl, rfl, rfl, rfl, ?_⟩
  rw [Tally.add_eq, Set.union_empty]
  exact congrArg (Tally.mk · _) (counts run.statistics)

/-- A report is added whatever the run. -/
private theorem adds_report (setting : Setting) (body : Body) (position : Nat) :
    Adds ⟨{}, {body.report position}⟩ () (reportAccess setting body position) := by
  intro run
  obtain ⟨log, done⟩ := reportAccess_eq_ok setting body position run
  refine ⟨_, done, rfl, rfl, rfl, ?_⟩
  have sets : { report | report ∈ run.findings.insert (body.report position) } =
      { report | report ∈ run.findings } ∪ {body.report position} :=
        Set.ext fun _ => Findings.mem_insert
  exact congrArg (Tally.mk run.statistics) sets

/-- The step succeeds with the value in every run on the way, and comes to such a run. Besides
passes whose results it stores, it counts and reports the gain. -/
def Reproduces (layers : List Layer) (final memo : Memo) (gain : Tally) (value : α)
    (step : Analysis α) : Prop :=
  ∀ base run, Midway layers final memo base run → ∃ after, step run = .ok value after ∧
    Midway layers final memo (base + gain) after ∧ after.inProgress = run.inProgress ∧
    run.memo.Grows after.memo

/-- What the first step does in runs with the memo is reproduced by the second one in all runs on
the way. -/
def Carries (layers : List Layer) (final memo : Memo) (known step : Analysis α) : Prop :=
  ∀ value own ended, own.memo = memo → known own = .ok value ended → ended.memo = memo ∧
    ∃ gain, ended.tally = own.tally + gain ∧ Reproduces layers final memo gain value step

namespace Carries

/-- Steps that add the same carry each other. -/
private theorem of_adds {known step : Analysis α} (adds : Adds gain value known)
    (adds' : Adds gain value step) : Carries layers final memo known step := by
  intro value' own ended same success
  obtain ⟨ended', done, -, -, kept, added⟩ := adds own
  obtain ⟨rfl, rfl⟩ := EStateM.Result.ok.inj (done.symm.trans success)
  refine ⟨kept.trans same, gain, added, fun base run midway => ?_⟩
  obtain ⟨after, done', progress, recursive, kept', added'⟩ := adds' run
  refine ⟨after, done', ⟨recursive.trans midway.unmarked, ?_, ?_, ?_, ?_⟩, progress,
    kept' ▸ .refl _⟩
  · exact kept' ▸ midway.agrees
  · rw [progress, kept']
    exact midway.missing
  · rw [progress]
    exact midway.above
  · rw [added', midway.tallied, kept', add_right_comm]

private theorem throw (error : AnalysisError) :
    Carries layers final memo (throw error : Analysis α) (throw error) :=
  fun _ _ _ _ success => absurd success EStateM.throw_ne_ok

/-- Sequences carry each other if their parts do. -/
private theorem bind {known step : Analysis α} {next next' : α → Analysis β}
    (start : Carries layers final memo known step)
    (rest : ∀ value before after, known before = .ok value after →
      Carries layers final memo (next value) (next' value)) :
    Carries layers final memo (known >>= next) (step >>= next') := by
  intro result own ended same success
  obtain ⟨value, between, begun, finished⟩ := EStateM.bind_eq_ok_iff.mp success
  obtain ⟨same, gain, added, reproduces⟩ := start value own between same begun
  obtain ⟨same, gain', added', reproduces'⟩ :=
    rest value own between begun result between ended same finished
  refine ⟨same, gain + gain', by rw [added', added, add_assoc], fun base run midway => ?_⟩
  obtain ⟨middle, done, midway, progress, grows⟩ := reproduces base run midway
  obtain ⟨after, done', midway, progress', grows'⟩ := reproduces' (base + gain) middle midway
  exact ⟨after, (EStateM.bind_of_ok done).trans done', add_assoc base gain gain' ▸ midway,
    progress'.trans progress, grows.trans grows'⟩

end Carries

/-! ## Methods -/

/-- In every run on the way, the callee gives the results of the memo, and stores them. -/
def Answers (setting : Setting) (layers : List Layer) (final memo : Memo) (callee : Callee) :
    Prop :=
  ∀ target result base run, setting.Declares target → memo.get? target.key = some result →
    Midway layers final memo base run → run.memo.contains target.key = false →
    ∃ after, callee target run = .ok result after ∧ Midway layers final memo base after ∧
      after.inProgress = run.inProgress ∧ run.memo.Grows after.memo ∧
      after.memo.contains target.key = true

/-- A call is carried by the layer that answers it. -/
private theorem Answers.carries_resultOf (answers : Answers setting layers final memo callee)
    (extends_ : final.Extends memo) (declared : setting.Declares target) :
    Carries layers final memo (resultOf (analyzeMethod setting 0) target)
      (resultOf callee target) := by
  intro result own ended same success
  rw [resultOf, EStateM.get_bind, same] at success
  cases stored : memo.get? target.key with
  | none =>
      rw [stored] at success
      exact absurd success EStateM.throw_ne_ok
  | some found =>
      rw [stored] at success
      obtain ⟨rfl, rfl⟩ := EStateM.pure_eq_ok_iff.mp success
      refine ⟨same, 0, (add_zero _).symm, fun base run midway => ?_⟩
      rw [add_zero]
      by_cases known : run.memo.contains target.key = true
      · obtain ⟨other, there⟩ := Option.isSome_iff_exists.mp (Memo.contains_eq _ _ ▸ known)
        obtain rfl : other = found :=
          Option.some.inj ((midway.agrees _ _ there).symm.trans (extends_ _ _ stored))
        exact ⟨run, resultOf_of_stored there, midway, rfl, .refl _⟩
      · have missing := Bool.eq_false_iff.mpr known
        obtain ⟨after, called, midway, progress, grows, -⟩ :=
          answers target found base run declared stored midway missing
        rw [resultOf, EStateM.get_bind, Memo.get?_eq_none missing]
        exact ⟨after, called, midway, progress, grows⟩

/-- A walk is carried by the layers that answer its calls. -/
private theorem Answers.carries_walk (resembles : setting.Resembles setting')
    (answers : Answers setting layers final memo callee) (extends_ : final.Extends memo)
    (body : Body) (f : Frame) :
    Carries layers final memo (interpretBody setting body (analyzeMethod setting 0) f)
      (interpretBody setting' body callee f) := by
  have composes : Composes setting setting' body (analyzeMethod setting 0) callee
      fun _ => Carries layers final memo :=
    { returns := fun value => .of_adds (adds_pure value) (adds_pure value)
      fails := .throw
      bind := .bind
      emits := fun event _ => .of_adds (adds_emit setting event) (adds_emit setting' event)
      repeats := .of_adds (adds_count { loopIterations := 1 } fun _ => rfl)
        (adds_count { loopIterations := 1 } fun _ => rfl)
      skips := .of_adds (adds_count { opaqueCalls := 1 } fun _ => rfl)
        (adds_count { opaqueCalls := 1 } fun _ => rfl)
      calls := fun _ => answers.carries_resultOf extends_ }
  exact composes.interpret resembles
    (fun position =>
      .of_adds (adds_report setting body position) (adds_report setting' body position)) _ _ _ f

/-- A pass over a method is made as in the bottom-up order, if its calls are answered. -/
theorem Answers.pass (resembles : setting.Resembles setting')
    (answers : Answers setting layers final memo callee) (extends_ : final.Extends memo)
    (distinct : (layers.map (·.body.key)).Nodup) {own : Run} {result : Variable}
    (here : ⟨body, own⟩ ∈ layers) (new : memo.contains body.key = false)
    (stored : final.Extends (memo.insert body.key result))
    (passed : analyzeOnce setting (analyzeMethod setting 0) body { memo } = .ok result own)
    {base : Tally} {run : Run} (midway : Midway layers final (memo.insert body.key result) base run)
    (missing : run.memo.contains body.key = false) :
    ∃ after, analyzeOnce setting' callee body run = .ok result after ∧
      Midway layers final (memo.insert body.key result) base after ∧
      after.inProgress = run.inProgress ∧
      run.memo.Grows after.memo ∧ after.memo.contains body.key = true := by
  obtain ⟨descriptor, parsed⟩ := parse_of_analyzeOnce passed
  have known : (memo.insert body.key result).contains body.key = true :=
    Memo.contains_insert.mpr (.inl rfl)
  have fresh : run.inProgress.contains body.key = false := by
    rw [Bool.eq_false_iff]
    exact fun running =>
      Bool.eq_false_iff.mp (midway.above _ (Std.ExtTreeSet.contains_iff_mem.mp running)) known
  have result_stored : final.get? body.key = some result.clearBounds :=
    stored _ _ (Memo.get?_insert.trans (if_pos rfl))
  by_cases code : body.method.hasBody = true
  · obtain ⟨announced, f, inner, announces, walked, fits, given, rfl⟩ :=
      analyzeOnce_walks parsed (by simp) code passed
    obtain ⟨log, rfl⟩ := exists_log_of_emit announces
    obtain ⟨-, gain, added, reproduces⟩ :=
      answers.carries_walk resembles extends_ body _ f _ inner rfl walked
    -- The run in which the walk starts: the method is in progress, and the walk is counted.
    obtain ⟨log', announced⟩ := emit_succeeds setting' (.methodStarted body.key) run
    have entered := (midway.weaken (Memo.extends_insert new result)).enter missing new
    obtain ⟨after, walked', midway', progress, grows⟩ :=
      reproduces _ (Run.enter { run with log := log' } body.key) { entered with }
    have running : body.key ∈ after.inProgress := by
      rw [progress]
      exact Std.ExtTreeSet.mem_insert_self
    have left : (after.leave body.key result).inProgress = run.inProgress :=
      (congrArg (·.erase body.key) progress).trans (erase_insert fresh)
    have sums : base + ⟨{ methodsAnalyzed := 1 }, ∅⟩ + gain =
        base + (inner.leave body.key result).tally := by
      rw [Run.tally_enter, Run.tally_start, zero_add] at added
      rw [add_assoc, ← added]
      rfl
    refine ⟨_, analyzeOnce_of_walk parsed fresh code announced walked' fits given, ?_, left, ?_, ?_⟩
    · exact (sums ▸ midway').store distinct here result_stored
        (midway'.missing _ running) rfl rfl rfl (fun _ => mem_of_mem_erase) (left ▸ midway.above)
    · exact fun key known => Memo.contains_insert.mpr (.inr (grows key known))
    · exact Memo.contains_insert.mpr (.inl rfl)
  · have empty := Bool.eq_false_iff.mpr code
    rw [analyzeOnce_of_empty parsed (by simp) empty] at passed
    obtain ⟨rfl, rfl⟩ := EStateM.Result.ok.inj passed
    refine ⟨_, analyzeOnce_of_empty parsed fresh empty, ?_, rfl, ?_, ?_⟩
    · have sums :
          base = base +
          ({ memo := memo.insert body.key (.unknown descriptor.returnType 0) } : Run).tally := by
        rw [Run.tally_start, add_zero]
      refine (sums ▸ midway).store distinct here result_stored missing
        rfl rfl rfl (fun key there => ⟨there, ?_⟩) midway.above
      rintro rfl
      exact Bool.eq_false_iff.mp fresh (Std.ExtTreeSet.contains_iff_mem.mpr there)
    · exact fun key known => Memo.contains_insert.mpr (.inr known)
    · exact Memo.contains_insert.mpr (.inl rfl)

/-- The analysis of a method ends with its first pass if nothing is marked behind it. -/
theorem analyzeMethod_of_pass {depth : Nat} {run after : Run} {result : Variable}
    (passed : analyzeOnce setting (analyzeMethod setting depth) body run = .ok result after)
    (unmarked : after.recursive = ∅) :
    analyzeMethod setting (depth + 1) body run = .ok result after := by
  rw [analyzeMethod_succ, stabilise, EStateM.bind_of_ok passed, EStateM.get_bind, if_pos]
  · rfl
  · rw [unmarked]
    simp

end Interpreter

namespace Setting.Layered

variable {setting setting' : Setting} {layers : List Layer} {final memo : Memo}

/-- Layers belong to declared methods whose results are known. -/
private theorem mem {layer : Layer} (layered : setting.Layered layers memo)
    (member : layer ∈ layers) :
    setting.Declares layer.body ∧ memo.contains layer.body.key = true := by
  induction layered with
  | nil => cases member
  | cons below declared new passed ih =>
      rcases List.mem_cons.mp member with rfl | member
      · exact ⟨declared, Memo.contains_insert.mpr (.inl rfl)⟩
      · exact ⟨(ih member).1, Memo.contains_insert.mpr (.inr (ih member).2)⟩

/-- No method has two layers. -/
private theorem distinct (layered : setting.Layered layers memo) :
    (layers.map (·.body.key)).Nodup := by
  induction layered with
  | nil => exact .nil
  | cons below declared new passed ih =>
      refine List.nodup_cons.mpr ⟨fun member => ?_, ih⟩
      obtain ⟨layer, there, same⟩ := List.mem_map.mp member
      have known := (below.mem there).2
      rw [same] at known
      exact Bool.noConfusion (known.symm.trans new)

/-- There are no more layers than methods. -/
private theorem length_le (layered : setting.Layered layers memo) :
    layers.length ≤ setting.repository.methodCount := by
  rw [← Repository.length_keys, ← List.length_map (·.body.key)]
  apply layered.distinct.length_le_of_subset
  intro key member
  obtain ⟨layer, there, rfl⟩ := List.mem_map.mp member
  exact (layered.mem there).1.key_mem_keys

/-- An analysis in any order gives the results of the bottom-up order, if it follows calls as deep
as there are methods. -/
theorem answers (resembles : setting.Resembles setting') {below : List Layer}
    (layered : setting.Layered below memo) (part : ∀ layer ∈ below, layer ∈ layers)
    (distinct : (layers.map (·.body.key)).Nodup) (extends_ : final.Extends memo) {depth : Nat}
    (deep : below.length ≤ depth) :
    Answers setting layers final memo (analyzeMethod setting' depth) := by
  induction layered generalizing depth with
  | nil => exact fun _ _ _ _ _ stored => by simp [Memo.get?] at stored
  | @cons below memo body result own layered declared new passed ih =>
      obtain ⟨depth, rfl⟩ := Nat.exists_eq_add_one_of_ne_zero (Nat.ne_zero_of_lt deep)
      obtain ⟨here, part⟩ := List.forall_mem_cons.mp part
      have older := extends_.trans (Memo.extends_insert new result)
      have answers := ih part older (Nat.le_of_succ_le_succ deep)
      intro target found base run declared' stored midway missing
      rw [Memo.get?_insert] at stored
      split at stored
      case isTrue same =>
        obtain rfl := declared.unique declared' same
        obtain ⟨after, passed', midway, kept⟩ :=
          answers.pass resembles older distinct here new extends_ passed midway missing
        have bare := (analyzeOnce_stores (by simp) passed).2.1
        rw [bare] at stored
        obtain rfl := Option.some.inj stored
        exact ⟨after, analyzeMethod_of_pass passed' midway.unmarked, midway, kept⟩
      case isFalse different =>
        have lower := ih part older (Nat.le_of_succ_le deep)
        obtain ⟨after, called, midway', progress, grows, known⟩ :=
          lower target found base run declared' stored
            (midway.weaken (Memo.extends_insert new result)) missing
        exact ⟨after, called, { midway' with above := progress ▸ midway.above },
          progress, grows, known⟩

/-- An analysis of the same classes in any order succeeds, and its sums are those of the bottom-up
order. -/
theorem analysis_eq_ok (resembles : setting.Resembles setting')
    (layered : setting.Layered layers final)
    (all : ∀ body, setting.Declares body → final.contains body.key = true) {classes : List ClassDef}
    (searched : setting'.repository.lookupAll setting'.analyzed = .ok classes) :
    ∃ outcome ended, setting'.analysis {} = .ok outcome ended ∧
      outcome = ⟨ended.findings.reports, ended.statistics⟩ ∧
      ended.tally = Layer.total layers final := by
  have deep : layers.length ≤ callDepth setting' := by
    unfold callDepth
    rw [resembles.repository]
    exact Nat.le_succ_of_le layered.length_le
  have answers := layered.answers resembles (fun _ => id) layered.distinct (.refl final) deep
  have completes :
      Completes setting' (fun run => run.inProgress = ∅ ∧ Midway layers final final 0 run)
      fun _ => False := by
    rintro body run declared ⟨idle, midway⟩ missing
    obtain ⟨result, stored⟩ :=
      Option.isSome_iff_exists.mp (Memo.contains_eq _ _ ▸ all body (resembles.declares.mp declared))
    obtain ⟨after, analyzed, midway, progress, grows, known⟩ :=
      answers body result 0 run (resembles.declares.mp declared) stored midway missing
    rw [analyzed]
    exact ⟨⟨progress.trans idle, midway⟩, known, grows⟩
  have announces : Announces setting' fun run => run.inProgress = ∅ ∧
      Midway layers final final 0 run :=
    announces_of_logged fun run log ⟨idle, midway⟩ => ⟨idle, { midway with }⟩
  have start : Midway layers final final 0 {} :=
    { unmarked := rfl
      agrees := fun key result stored => by simp [Memo.get?] at stored
      missing := fun _ member => absurd member Std.ExtTreeSet.not_mem_empty
      above := fun _ member => absurd member Std.ExtTreeSet.not_mem_empty
      tallied := by rw [Layer.total_empty, Run.tally_start, add_zero] }
  have yields := yields_analysis announces completes searched ⟨rfl, start⟩
  cases success : setting'.analysis {} with
  | error error ended =>
      rw [success] at yields
      cases yields
  | ok outcome ended =>
      rw [success] at yields
      obtain ⟨⟨-, midway⟩, known, same⟩ := yields
      refine ⟨outcome, ended, rfl, same, midway.tallied.trans ?_⟩
      rw [zero_add]
      refine Layer.total_congr fun layer member => ?_
      obtain ⟨declared, stored⟩ := layered.mem member
      rw [known layer.body (resembles.declares.mpr declared), stored]

end Setting.Layered

namespace Setting

/-- If an analysis succeeds without analysing any method again, then the analysis of the same
classes in any other order succeeds with the same counts and the same reports, perhaps in another
order. -/
theorem order_irrelevant (setting : Setting) (limit : 1 ≤ setting.limits.recursionPasses)
    {outcome : Outcome} (success : setting.analyze.1 = .ok outcome)
    (straight : outcome.statistics.recursionIterations = 0) {names : List String}
    (order : names.Perm setting.analyzed) :
    ∃ outcome', ({ setting with analyzed := names } : Setting).analyze.1 = .ok outcome' ∧
      outcome'.reports.Perm outcome.reports ∧ outcome'.statistics = outcome.statistics := by
  obtain ⟨final, run, -⟩ := analysis_of_analyze success
  obtain ⟨⟨layers, layered⟩, all⟩ := layered_of_calm limit run straight
  obtain ⟨classes, searched⟩ := lookupAll_of_analysis run
  have resembles : setting.Resembles { setting with analyzed := names } := ⟨rfl, rfl, order⟩
  obtain ⟨classes', searched'⟩ : ∃ classes, setting.repository.lookupAll names = .ok classes := by
    refine Repository.exists_lookupAll fun name member => ?_
    obtain ⟨owner, -, stored⟩ := (Repository.lookupAll_eq_ok searched).2 name (order.subset member)
    exact ⟨owner, stored⟩
  -- Both analyses have the sums of the bottom-up order.
  obtain ⟨_, ended, run', rfl, sums⟩ := layered.analysis_eq_ok (.refl setting) all searched
  obtain ⟨rfl, rfl⟩ := EStateM.Result.ok.inj (run'.symm.trans run)
  obtain ⟨_, ended', ran, rfl, sums'⟩ := layered.analysis_eq_ok resembles all searched'
  refine ⟨_, analyze_of_analysis ran, ?_, ?_⟩
  · refine (List.perm_ext_iff_of_nodup ended'.findings.distinct ended.findings.distinct).mpr
      fun report => ?_
    exact Set.ext_iff.mp (congrArg Tally.reports (sums'.trans sums.symm)) report
  · exact congrArg Tally.statistics (sums'.trans sums.symm)

end Setting

/-! ## Classes that call each other -/

def tableClass : ClassDef :=
  { name := "demo/Table"
    methods :=
      [{ name := "head", descriptor := "([I)I", access := ⟨8⟩
         instructions :=
           #[.load .reference 0, .invoke .static "demo/Index" "first" "()I", .arrayLoad .int,
             .ret (some .int)] },
        { name := "size", descriptor := "()I", access := ⟨8⟩,
          instructions := #[.const (.int 3), .ret (some .int)] }] }

def indexClass : ClassDef :=
  { name := "demo/Index"
    methods :=
      [{ name := "first", descriptor := "()I", access := ⟨8⟩,
         instructions := #[.const (.int 0), .ret (some .int)] },
        { name := "last", descriptor := "([I)I", access := ⟨8⟩
          instructions :=
            #[.load .reference 0, .invoke .static "demo/Table" "size" "()I", .arrayLoad .int,
              .ret (some .int)] }] }

/-- Each class calls the other one, but no method is recursive. -/
def tableSetting : Setting :=
  { repository := ({} : Repository).addAll [tableClass, indexClass],
    analyzed := ["demo/Table", "demo/Index"] }

/-- In the other order the reports come up in the other order. -/
theorem table_order :
    tableSetting.analyze.1 = .ok ⟨[⟨"demo/Table", "head", none⟩, ⟨"demo/Index", "last", none⟩],
      { methodsAnalyzed := 4 }⟩ ∧
      ({ tableSetting with analyzed := ["demo/Index", "demo/Table"] } : Setting).analyze.1 ≠
        tableSetting.analyze.1 ∧
      ∃ outcome,
        ({ tableSetting with analyzed := ["demo/Index", "demo/Table"] } : Setting).analyze.1 =
          .ok outcome ∧
        outcome.reports.Perm [⟨"demo/Table", "head", none⟩, ⟨"demo/Index", "last", none⟩] ∧
        outcome.statistics = { methodsAnalyzed := 4 } := by
  have success : tableSetting.analyze.1 =
      .ok ⟨[⟨"demo/Table", "head", none⟩, ⟨"demo/Index", "last", none⟩],
        { methodsAnalyzed := 4 }⟩ :=
    Setting.analyze_eq_ok (by decide +kernel)
  have other :
      ({ tableSetting with analyzed := ["demo/Index", "demo/Table"] } : Setting).analyze.1 =
      .ok ⟨[⟨"demo/Index", "last", none⟩, ⟨"demo/Table", "head", none⟩],
        { methodsAnalyzed := 4 }⟩ :=
    Setting.analyze_eq_ok (by decide +kernel)
  refine ⟨success, ?_, tableSetting.order_irrelevant (by decide) success rfl (by decide)⟩
  rw [success, other]
  simp

end ArrayBounds
