import ArrayBounds.Proofs.Analysis.Classes
import ArrayBounds.Proofs.Analysis.Verbosity

/-! # What an analysis looks at

An analysis that succeeds has walked through every method of the analysed classes that has a body.
Which instructions of a method it has executed does not depend on the values in the frames: they are
those of the sweep through the method (`ArrayBounds.Setting.executes_iff`).

A sweep goes from each instruction but a return to the next one. So an instruction is left out only
if the last one before it that is executed is a return. Control may reach such an instruction all
the same: jumps are lost where the target of a branch lies outside of the range that is being walked
through, or where the cases of a switch return one after the other. An access there escapes the
check (`ArrayBounds.guardedReader_escapes`).
-/

namespace ArrayBounds

open Program

/-! ## Control flow -/

namespace Program

/-- Control may go on behind the instruction. -/
def Instruction.fallsThrough : Instruction → Bool
  | .goto _ | .switch .. | .ret _ | .throw => false
  | _ => true

/-- The positions that control may go to from an instruction. -/
def Instruction.successors (position : Nat) (instruction : Instruction) : List Nat :=
  (if instruction.fallsThrough then [position + 1] else []) ++ instruction.targets

/-- Control may reach the position from the start. -/
inductive Reaches (instructions : Array Instruction) : Nat → Prop where
  | start : Reaches instructions 0
  | step {i j : Nat} {instruction : Instruction} (reaches : Reaches instructions i)
      (found : instructions[i]? = some instruction) (next : j ∈ instruction.successors i) :
      Reaches instructions j

/-- The instruction reads or writes an element of an array. -/
def Instruction.isAccess : Instruction → Bool
  | .arrayLoad _ | .arrayStore _ => true
  | _ => false

end Program

namespace Setting

variable {setting : Setting}

/-- The key of a body determines the body. -/
theorem Declares.unique {body body' : Body} (declared : setting.Declares body)
    (declared' : setting.Declares body') (same : body.key = body'.key) : body = body' := by
  obtain ⟨className, -, stored, found⟩ := declared
  obtain ⟨className', -, stored', found'⟩ := declared'
  obtain ⟨owner, method⟩ := body
  obtain ⟨owner', method'⟩ := body'
  simp only [Body.key, MethodKey.mk.injEq] at same found found' stored stored'
  obtain ⟨sameClass, sameName, sameDescriptor⟩ := same
  obtain rfl : className = className' := by
    rw [← setting.repository.named className owner stored,
      ← setting.repository.named className' owner' stored', sameClass]
  obtain rfl := Option.some.inj (stored.symm.trans stored')
  rw [sameName, sameDescriptor] at found
  obtain rfl := Option.some.inj (found.symm.trans found')
  rfl

end Setting

/-- The sweep through a whole method. -/
def Body.sweep (setting : Setting) (body : Body) : Option Sweep :=
  Sweep.run body.method.instructions setting.limits.loopPasses (Interpreter.fuel body) 0
    (body.method.instructions.size - 1) { pc := 0 }

/-- The positions of a method that are visited when the method is analysed. -/
def Body.visits (setting : Setting) (body : Body) : List Nat :=
  ((body.sweep setting).map (·.visited)).getD []

/-- The log shows that the method has been walked through. -/
structure Setting.Walked (setting : Setting) (body : Body) (log : Array Event) : Prop where
  sweeps : (body.sweep setting).isSome = true
  visits : ∀ i ∈ body.visits setting, .instructionReached body.key i ∈ log

/-- The methods whose results are stored have been walked through. -/
def Setting.Recorded (setting : Setting) (run : Run) : Prop :=
  ∀ body, setting.Declares body → body.method.hasBody = true → run.memo.contains body.key = true →
    setting.Walked body run.log

/-- What an analysis does to the run while it visits positions of the method with the key `here`,
apart from calls. -/
structure Progress (setting : Setting) (here : MethodKey) (visited : List Nat)
    (before after : Run) : Prop where
  inProgress : after.inProgress = before.inProgress
  log : ∀ event ∈ before.log, event ∈ after.log
  memo : ∀ key, before.memo.contains key = true → after.memo.contains key = true
  recorded : setting.Recorded before → setting.Recorded after
  visits : ∀ i ∈ visited, .instructionReached here i ∈ after.log
  /-- What is visited belongs to the method, or to a method that is analysed on the way. -/
  reached : ∀ key i, .instructionReached key i ∈ after.log →
    .instructionReached key i ∈ before.log ∨
    key = here ∧ i ∈ visited ∨
    ∃ body, setting.Declares body ∧ body.method.hasBody = true ∧ body.key = key ∧
      i ∈ body.visits setting

namespace Progress

variable {setting : Setting} {here : MethodKey} {visited more : List Nat}
  {before between after : Run}

/-- Nothing is visited where neither the log nor the results change. -/
private theorem of_eq (inProgress : after.inProgress = before.inProgress)
    (memo : after.memo = before.memo) (log : after.log = before.log) :
    Progress setting here [] before after where
  inProgress := inProgress
  log event member := log ▸ member
  memo key known := memo ▸ known
  recorded holds := by
    unfold Setting.Recorded
    rw [memo, log]
    exact holds
  visits _ member := absurd member List.not_mem_nil
  reached key i member := .inl (log ▸ member)

/-- Progress can be put together, with the visited positions behind each other. -/
private theorem trans (first : Progress setting here visited before between)
    (second : Progress setting here more between after) :
    Progress setting here (visited ++ more) before after where
  inProgress := second.inProgress.trans first.inProgress
  log event member := second.log event (first.log event member)
  memo key known := second.memo key (first.memo key known)
  recorded holds := second.recorded (first.recorded holds)
  visits i member := by
    obtain member | member := List.mem_append.mp member
    · exact second.log _ (first.visits i member)
    · exact second.visits i member
  reached key i member := by
    obtain member | ⟨same, member⟩ | called := second.reached key i member
    · obtain member | ⟨same, member⟩ | called := first.reached key i member
      · exact .inl member
      · exact .inr (.inl ⟨same, List.mem_append_left _ member⟩)
      · exact .inr (.inr called)
    · exact .inr (.inl ⟨same, List.mem_append_right _ member⟩)
    · exact .inr (.inr called)

/-- Only the set of visited positions matters. -/
private theorem congr (same : ∀ i, i ∈ visited ↔ i ∈ more)
    (progress : Progress setting here visited before after) :
    Progress setting here more before after :=
  { progress with
    visits := fun i member => progress.visits i ((same i).mpr member)
    reached := fun key i member => (progress.reached key i member).imp_right
      fun visited => visited.imp_left fun ⟨there, member⟩ => ⟨there, (same i).mp member⟩ }

/-- Where nothing is visited it does not matter which method is being walked through. -/
theorem relocate (progress : Progress setting here [] before after) (there : MethodKey) :
    Progress setting there [] before after :=
  { progress with
    visits := fun _ member => absurd member List.not_mem_nil
    reached := fun key i member => (progress.reached key i member).imp_right
      fun visited => visited.imp_left fun inside => absurd inside.2 List.not_mem_nil }

/-- Further entries in the log do not affect what has been recorded. -/
private theorem recorded_push {event : Event} (holds : setting.Recorded before) :
    setting.Recorded { before with log := before.log.push event } :=
  fun body declared hasBody known =>
    let walked := holds body declared hasBody known
    { walked with visits := fun i member => Array.mem_push.mpr (.inl (walked.visits i member)) }

/-- An event that is not about an instruction. -/
theorem of_push {event : Event} (other : ∀ key pc, event ≠ .instructionReached key pc) :
    Progress setting here [] before { before with log := before.log.push event } where
  inProgress := rfl
  log _ member := Array.mem_push.mpr (.inl member)
  memo _ known := known
  recorded := recorded_push
  visits _ member := absurd member List.not_mem_nil
  reached key i member :=
    .inl ((Array.mem_push.mp member).resolve_right fun same => other key i same.symm)

/-- An instruction of the method. -/
theorem of_push_reached {pc : Nat} :
    Progress setting here [pc] before
      { before with log := before.log.push (.instructionReached here pc) } where
  inProgress := rfl
  log _ member := Array.mem_push.mpr (.inl member)
  memo _ known := known
  recorded := recorded_push
  visits _ member := Array.mem_push.mpr (.inr (List.mem_singleton.mp member ▸ rfl))
  reached key i member := by
    obtain member | same := Array.mem_push.mp member
    · exact .inl member
    · cases same
      exact .inr (.inl ⟨rfl, List.mem_singleton.mpr rfl⟩)

/-- A result is stored of a method that has been walked through. -/
theorem of_remember {key : MethodKey} {result : Variable}
    (walked : setting.Recorded before → ∀ body, setting.Declares body → body.method.hasBody = true →
      body.key = key → setting.Walked body before.log) :
    Progress setting here [] before { before with memo := before.memo.insert key result } where
  inProgress := rfl
  log _ member := member
  memo _ known := Memo.contains_insert.mpr (.inr known)
  recorded holds body declared hasBody known := by
    obtain same | known := Memo.contains_insert.mp known
    · exact walked holds body declared hasBody same.symm
    · exact holds body declared hasBody known
  visits _ member := absurd member List.not_mem_nil
  reached _ _ member := .inl member

/-- The visits to a method that is walked through as a whole. -/
theorem absorb {body : Body}
    (progress : Progress setting body.key (body.visits setting) before after)
    (declared : setting.Declares body) (hasBody : body.method.hasBody = true) :
    Progress setting body.key [] before after :=
  { progress with
    visits := fun _ member => absurd member List.not_mem_nil
    reached := fun key i member => (progress.reached key i member).imp_right fun visited => .inr <|
      visited.elim (fun ⟨same, inside⟩ => ⟨body, declared, hasBody, same.symm, inside⟩) id }

end Progress

namespace Interpreter

variable {setting : Setting} {callee : Callee} {body : Body} {before after : Run}

/-! ## Methods -/

/-- Parameters do not move the walk. -/
private theorem control_defineParameters (f : Frame) (slot : UInt16) (types : List FieldType) :
    (defineParameters f slot types).control = f.control := by
  induction types generalizing f slot with
  | nil => rfl
  | cons type types ih =>
      rw [defineParameters, ih]
      exact f.control_ensureLocal slot

/-- A walk starts at the first instruction, without a jump. -/
private theorem control_initialFrame (body : Body) (descriptor : MethodDescriptor) :
    (initialFrame body descriptor).control = { pc := 0 } := by
  unfold initialFrame
  split
  · exact control_defineParameters _ _ _
  · rw [control_defineParameters]
    exact Frame.control_ensureLocal _ _

/-- The analysis of a method that is called keeps track of what is visited. -/
def Advances (setting : Setting) (callee : Callee) : Prop :=
  ∀ target, setting.Declares target → ∀ result before after,
    callee target before = .ok result after → Progress setting target.key [] before after

/-- The log of a walk that shows everything records the positions of the sweep. -/
private theorem observation_progress (full : setting.verbosity = .trace)
    (calls : Advances setting callee) (body : Body) :
    Observation setting body callee (Progress setting body.key) where
  trans := .trans
  same := .congr
  reached emitted := by
    obtain rfl := (Analysis.emit_eq_ok_iff full).mp emitted
    exact .of_push_reached
  emitted other emitted := by
    obtain rfl := (Analysis.emit_eq_ok_iff full).mp emitted
    exact .of_push other
  refl _ := .of_eq rfl rfl rfl
  counted _ _ := .of_eq rfl rfl rfl
  reported _ _ := .of_eq rfl rfl rfl
  called declared success := (calls _ declared _ _ _ success).relocate _

/-- A walk through a whole method visits the positions of the sweep. -/
theorem interpretBody_progress (full : setting.verbosity = .trace)
    (calls : Advances setting callee) (body : Body) (descriptor : MethodDescriptor) {f : Frame}
    (success : interpretBody setting body callee (initialFrame body descriptor) before =
      .ok f after) :
    (body.sweep setting).isSome = true ∧
      Progress setting body.key (body.visits setting) before after := by
  obtain ⟨s, swept, -, progress⟩ :=
    interpret_follows (observation_progress full calls body) _ _ _ _ _ _ _ success
  rw [control_initialFrame] at swept
  have found : body.sweep setting = some s := swept
  unfold Body.visits
  rw [found]
  exact ⟨rfl, progress⟩

/-- A method that is analysed once has been walked through afterwards, unless it is still in
progress. -/
theorem analyzeOnce_progress (full : setting.verbosity = .trace)
    (calls : Advances setting callee) (declared : setting.Declares body) {result : Variable}
    (success : analyzeOnce setting callee body before = .ok result after) :
    Progress setting body.key [] before after ∧
      (before.inProgress.contains body.key = true ∨ after.memo.contains body.key = true) := by
  rw [analyzeOnce_eq] at success
  obtain ⟨descriptor, _, parsed, success⟩ := EStateM.bind_eq_ok_iff.mp success
  obtain rfl := Analysis.parseDescriptor_eq_ok parsed
  obtain ⟨_, _, looked, success⟩ := EStateM.bind_eq_ok_iff.mp success
  obtain ⟨rfl, rfl⟩ := EStateM.get_eq_ok_iff.mp looked
  split at success
  case isTrue running =>
    obtain ⟨_, _, emitted, success⟩ := EStateM.bind_eq_ok_iff.mp success
    obtain rfl := (Analysis.emit_eq_ok_iff full).mp emitted
    obtain ⟨_, _, marked, success⟩ := EStateM.bind_eq_ok_iff.mp success
    obtain rfl := EStateM.modify_eq_ok_iff.mp marked
    obtain ⟨-, rfl⟩ := EStateM.pure_eq_ok_iff.mp success
    exact ⟨(Progress.of_push (by intro key pc same; cases same)).trans (.of_eq rfl rfl rfl),
      .inl running⟩
  case isFalse fresh =>
    split at success
    case isTrue empty =>
      obtain ⟨_, _, stored, success⟩ := EStateM.bind_eq_ok_iff.mp success
      obtain rfl := EStateM.modify_eq_ok_iff.mp stored
      obtain ⟨-, rfl⟩ := EStateM.pure_eq_ok_iff.mp success
      refine ⟨.of_remember fun _ body' declared' hasBody same => ?_,
        .inr (Memo.contains_insert.mpr (.inl rfl))⟩
      obtain rfl := declared'.unique declared same
      rw [hasBody] at empty
      cases empty
    case isFalse full' =>
      have hasBody : body.method.hasBody = true := by simpa using full'
      obtain ⟨_, _, emitted, success⟩ := EStateM.bind_eq_ok_iff.mp success
      obtain rfl := (Analysis.emit_eq_ok_iff full).mp emitted
      obtain ⟨_, _, counted, success⟩ := EStateM.bind_eq_ok_iff.mp success
      obtain rfl := EStateM.modify_eq_ok_iff.mp counted
      obtain ⟨f, _, walked, success⟩ := EStateM.bind_eq_ok_iff.mp success
      obtain ⟨inner, interpreted, rfl⟩ := Analysis.whileInProgress_eq_ok_iff.mp walked
      obtain ⟨_, _, supplied, success⟩ := EStateM.bind_eq_ok_iff.mp success
      obtain ⟨-, rfl⟩ := Analysis.lift_eq_ok_iff.mp supplied
      obtain ⟨_, _, stored, success⟩ := EStateM.bind_eq_ok_iff.mp success
      obtain rfl := EStateM.modify_eq_ok_iff.mp stored
      obtain ⟨-, rfl⟩ := EStateM.pure_eq_ok_iff.mp success
      have started : Progress setting body.key [] before
          { before with log := before.log.push (.methodStarted body.key) } :=
        .of_push (by intro key pc same; cases same)
      obtain ⟨sweeps, inside⟩ := interpretBody_progress full calls body descriptor interpreted
      -- While the method is walked through it is in progress, which it was not before.
      have outside : Progress setting body.key (body.visits setting)
          { before with log := before.log.push (.methodStarted body.key) }
          { inner with inProgress := inner.inProgress.erase body.key } :=
        { inside with
          inProgress := by
            rw [inside.inProgress]
            exact erase_insert (Bool.eq_false_iff.mpr fresh) }
      refine ⟨?_, .inr (Memo.contains_insert.mpr (.inl rfl))⟩
      refine started.trans ((outside.absorb declared hasBody).trans (.of_remember ?_))
      intro _ body' declared' _ same
      obtain rfl := declared'.unique declared same
      exact ⟨sweeps, inside.visits⟩

/-- Repeating the analysis of a method that has been walked through. -/
theorem repeatUntilStable_progress (full : setting.verbosity = .trace)
    (calls : Advances setting callee) (declared : setting.Declares body) {passes : Nat}
    {result final : Variable} (known : before.memo.contains body.key = true)
    (success : repeatUntilStable setting body.key (analyzeOnce setting callee body)
      passes result before = .ok final after) : Progress setting body.key [] before after := by
  -- Whenever a result is stored, the method is known already.
  have store (value : Variable) {run : Run} (known : run.memo.contains body.key = true) :
      Progress setting body.key [] run { run with memo := run.memo.insert body.key value } := by
    refine .of_remember fun recorded body' declared' hasBody same => ?_
    obtain rfl := declared'.unique declared same
    exact recorded body' declared' hasBody known
  induction passes generalizing result before with
  | zero =>
      obtain ⟨_, _, emitted, success⟩ := EStateM.bind_eq_ok_iff.mp success
      obtain rfl := (Analysis.emit_eq_ok_iff full).mp emitted
      have unstable : Progress setting body.key [] before
          { before with
            log := before.log.push (.methodUnstable body.key setting.limits.recursionPasses) } :=
        .of_push (by intro key pc same; cases same)
      split at success
      · obtain ⟨-, rfl⟩ := EStateM.pure_eq_ok_iff.mp success
        exact unstable
      · obtain ⟨_, _, stored, success⟩ := EStateM.bind_eq_ok_iff.mp success
        obtain rfl := EStateM.modify_eq_ok_iff.mp stored
        obtain ⟨-, rfl⟩ := EStateM.pure_eq_ok_iff.mp success
        exact unstable.trans (store _ known)
  | succ passes ih =>
      obtain ⟨_, _, counted, success⟩ := EStateM.bind_eq_ok_iff.mp success
      obtain rfl := EStateM.modify_eq_ok_iff.mp counted
      obtain ⟨next, between, analyzed, success⟩ := EStateM.bind_eq_ok_iff.mp success
      obtain ⟨_, _, unmarked, success⟩ := EStateM.bind_eq_ok_iff.mp success
      obtain rfl := EStateM.modify_eq_ok_iff.mp unmarked
      obtain ⟨_, _, stored, success⟩ := EStateM.bind_eq_ok_iff.mp success
      obtain rfl := EStateM.modify_eq_ok_iff.mp stored
      have counting : Progress setting body.key [] before
          { before with
            statistics.recursionIterations := before.statistics.recursionIterations + 1 } :=
        .of_eq rfl rfl rfl
      have once := counting.trans (analyzeOnce_progress full calls declared analyzed).1
      have unmarking : Progress setting body.key [] between
          { between with recursive := between.recursive.erase body.key } := .of_eq rfl rfl rfl
      have pass := once.trans (unmarking.trans
        (store { result with sign := result.sign.join next.sign } (once.memo _ known)))
      split at success
      · obtain ⟨_, _, emitted, success⟩ := EStateM.bind_eq_ok_iff.mp success
        obtain rfl := (Analysis.emit_eq_ok_iff full).mp emitted
        obtain ⟨-, rfl⟩ := EStateM.pure_eq_ok_iff.mp success
        exact pass.trans (.of_push (by intro key pc same; cases same))
      · exact pass.trans (ih (pass.memo _ known) success)

/-- A method that is analysed has been walked through afterwards, unless it is still in progress. -/
theorem analyzeMethod_progress (full : setting.verbosity = .trace) (depth : Nat)
    (declared : setting.Declares body) {result : Variable}
    (success : analyzeMethod setting depth body before = .ok result after) :
    Progress setting body.key [] before after ∧
      (before.inProgress.contains body.key = true ∨ after.memo.contains body.key = true) := by
  induction depth generalizing body before result after with
  | zero => exact absurd success EStateM.throw_ne_ok
  | succ depth ih =>
      have calls : Advances setting (analyzeMethod setting depth) :=
        fun target declared result before after success => (ih declared success).1
      obtain ⟨once, between, analyzed, success⟩ := EStateM.bind_eq_ok_iff.mp success
      obtain ⟨_, _, looked, success⟩ := EStateM.bind_eq_ok_iff.mp success
      obtain ⟨rfl, rfl⟩ := EStateM.get_eq_ok_iff.mp looked
      obtain ⟨progress, walked⟩ := analyzeOnce_progress full calls declared analyzed
      split at success
      · obtain ⟨-, rfl⟩ := EStateM.pure_eq_ok_iff.mp success
        exact ⟨progress, walked⟩
      · rename_i finished
        rw [Bool.or_eq_true, not_or, progress.inProgress] at finished
        obtain ⟨_, _, unmarked, success⟩ := EStateM.bind_eq_ok_iff.mp success
        obtain rfl := EStateM.modify_eq_ok_iff.mp unmarked
        have unmarking : Progress setting body.key [] between
            { between with recursive := between.recursive.erase body.key } := .of_eq rfl rfl rfl
        have begun := progress.trans unmarking
        have known := unmarking.memo _ (walked.resolve_left finished.1)
        have repeated := repeatUntilStable_progress full calls declared known success
        exact ⟨begun.trans repeated, .inr (repeated.memo _ known)⟩

/-- Each analysis of a method from the outside records its walk. -/
private theorem completes_progress (full : setting.verbosity = .trace) (here : MethodKey) :
    Completes setting (Progress setting here [] {}) fun _ => True := by
  intro body run declared progress missing
  cases walked : analyzeMethod setting (callDepth setting) body run with
  | error error after => trivial
  | ok result after =>
      obtain ⟨advance, found⟩ := analyzeMethod_progress full _ declared walked
      refine ⟨progress.trans (advance.relocate here),
        found.resolve_left fun running => ?_, advance.memo⟩
      rw [progress.inProgress] at running
      simp at running

end Interpreter

/-! ## Runs -/

namespace Setting

variable {setting : Setting}

/-- An analysis that succeeds knows all methods of the analysed classes in the end. -/
theorem analysis_progress (full : setting.verbosity = .trace) {outcome : Outcome}
    {final : Run} (success : setting.analysis {} = .ok outcome final) (here : MethodKey) :
    Progress setting here [] {} final ∧ ∀ body, setting.Declares body →
      final.memo.contains body.key = true := by
  obtain ⟨classes, searched⟩ := lookupAll_of_analysis success
  have announces : Interpreter.Announces setting (Progress setting here [] {}) := by
    intro event run after other emitted progress
    obtain rfl := (Analysis.emit_eq_ok_iff full).mp emitted
    exact progress.trans (.of_push other)
  have yields := yields_analysis announces (Interpreter.completes_progress full here) searched
    (.of_eq rfl rfl rfl)
  rw [success] at yields
  exact ⟨yields.1, yields.2.1⟩

/-- The analysis executes the instruction at a position: it is in the log that shows everything. If
the analysis succeeds, the instruction has done so too, and an access has been checked. -/
def Executes (setting : Setting) (body : Body) (position : Nat) : Prop :=
  .instructionReached body.key position ∈ setting.traced.analyze.2

instance (setting : Setting) (body : Body) (position : Nat) :
    Decidable (setting.Executes body position) :=
  inferInstanceAs (Decidable (_ ∈ _))

/-- An analysis that succeeds has walked through every method with a body, and has visited nothing
else. -/
theorem executes_of_success {outcome : Outcome}
    (success : setting.analyze.1 = .ok outcome) {name : String}
    (analyzed : name ∈ setting.analyzed) {body : Body}
    (stored : setting.repository.lookup? name = some body.owner)
    (first : body.owner.findMethod? body.method.name body.method.descriptor = some body.method)
    (hasBody : body.method.hasBody = true) :
    (body.sweep setting).isSome = true ∧ ∀ i, setting.Executes body i ↔
      i ∈ body.visits setting := by
  rw [← setting.outcome_traced] at success
  obtain ⟨final, run, log⟩ := analysis_of_analyze success
  obtain ⟨progress, known⟩ := analysis_progress rfl run body.key
  have declared : setting.traced.Declares body :=
    ⟨name, List.contains_iff_mem.mpr analyzed, stored, first⟩
  have nothing : setting.traced.Recorded {} := fun body _ _ known =>
    absurd known (by simp [Memo.contains])
  have walked := progress.recorded nothing body declared hasBody (known body declared)
  refine ⟨walked.sweeps, fun i => ?_⟩
  rw [Executes, log, Array.mem_toList_iff]
  constructor
  · intro reached
    obtain impossible | ⟨-, impossible⟩ | ⟨body', declared', -, same, visited⟩ :=
      progress.reached _ _ reached
    · simp at impossible
    · cases impossible
    · obtain rfl := declared'.unique declared same
      exact visited
  · exact walked.visits i

end Setting

/-- The last position that a sweep visits before one that it leaves out is a return. -/
theorem Body.exists_return {setting : Setting} {body : Body}
    (sweeps : (body.sweep setting).isSome = true) {i : Nat}
    (inside : i < body.method.instructions.size) (skipped : i ∉ body.visits setting) :
    ∃ r kind, r < i ∧ r ∈ body.visits setting ∧ body.method.instructions[r]? = some (.ret kind) ∧
      ∀ k, r < k → k ≤ i → k ∉ body.visits setting := by
  obtain ⟨s, swept⟩ := Option.isSome_iff_exists.mp sweeps
  have visits : body.visits setting = s.visited := by rw [visits, swept]; rfl
  have covers := (Sweep.isThorough_run _ _ _ _ _ _ _ swept).1 (Nat.zero_le _)
    (Nat.zero_lt_of_lt inside)
  rw [visits] at skipped ⊢
  -- Go up from the start; where a visited position is followed by one that is not, there is a
  -- return.
  induction i with
  | zero => exact absurd covers.first_mem skipped
  | succ i ih =>
      by_cases visited : i ∈ s.visited
      · by_cases continues : Sweep.Continues body.method.instructions i
        · exact absurd (covers.succ_mem i visited continues (by omega) inside) skipped
        · obtain ⟨kind, found⟩ := Classical.not_forall.mp continues
          refine ⟨i, kind, Nat.lt_succ_self i, visited, Classical.not_not.mp found,
            fun k after upto => ?_⟩
          rwa [show k = i + 1 by omega]
      · obtain ⟨r, kind, before, reached, found, between⟩ := ih (by omega) visited
        refine ⟨r, kind, Nat.lt_succ_of_lt before, reached, found, fun k after upto => ?_⟩
        obtain rfl | upto := Nat.eq_or_lt_of_le upto
        · exact skipped
        · exact between k after (Nat.le_of_lt_succ upto)

namespace Setting

/-- The position is left out behind a return: nothing between the return and the position is
executed. -/
def LeavesOut (setting : Setting) (body : Body) (position : Nat) : Prop :=
  ∃ r kind, r < position ∧ setting.Executes body r ∧
    body.method.instructions[r]? = some (.ret kind) ∧
    ∀ k, r < k → k ≤ position → ¬setting.Executes body k

variable {setting : Setting} {body : Body}

/-- Behind an executed instruction at which control may go on, nothing is left out. -/
theorem not_leavesOut_succ {i : Nat} {instruction : Instruction}
    (executed : setting.Executes body i) (found : body.method.instructions[i]? = some instruction)
    (falls : instruction.fallsThrough = true) : ¬setting.LeavesOut body (i + 1) := by
  rintro ⟨r, kind, before, -, returns, between⟩
  obtain rfl | earlier := Nat.eq_or_lt_of_le (Nat.le_of_lt_succ before)
  · obtain rfl := Option.some.inj (found.symm.trans returns)
    cases falls
  · exact between i earlier (Nat.le_succ i) executed

/-- Where control goes and the analysis does not, it has lost a jump: it has executed an instruction
with a target that it leaves out. -/
theorem exists_lost_jump
    (linear : ∀ i < body.method.instructions.size, setting.Executes body i ∨
      setting.LeavesOut body i) {i : Nat} (reaches : Reaches body.method.instructions i)
    (inside : i < body.method.instructions.size) :
    setting.Executes body i ∨ ∃ j instruction target, setting.Executes body j ∧
      body.method.instructions[j]? = some instruction ∧ target ∈ instruction.targets ∧
      setting.LeavesOut body target := by
  induction reaches with
  | start =>
      refine (linear 0 inside).imp_right ?_
      rintro ⟨r, -, before, -⟩
      cases before
  | @step i j instruction reaches found next ih =>
      obtain executed | lost := ih (Array.getElem?_eq_some_iff.mp found).1
      · refine (linear j inside).imp_right fun leaves => ?_
        obtain behind | jumps := List.mem_append.mp next
        · obtain ⟨falls, adjacent⟩ := List.mem_ite_nil_right.mp behind
          obtain rfl := List.mem_singleton.mp adjacent
          exact absurd leaves (not_leavesOut_succ executed found falls)
        · exact ⟨i, instruction, j, executed, found, jumps, leaves⟩
      · exact .inr lost

/-- In an analysis that succeeds, exactly the positions of the sweep are executed in each method
with a body. An instruction is left out only if the last one before it that is executed is a return.
Control reaches such an instruction only if the analysis has lost a jump, that is, if it has
executed an instruction and left out one of its targets in this way. -/
theorem executes_iff (setting : Setting) (body : Body) {outcome : Outcome}
    (success : setting.analyze.1 = .ok outcome) {name : String} (analyzed : name ∈ setting.analyzed)
    (stored : setting.repository.lookup? name = some body.owner)
    (first : body.owner.findMethod? body.method.name body.method.descriptor = some body.method)
    (hasBody : body.method.hasBody = true) (i : Nat) :
    (setting.Executes body i ↔ i ∈ body.visits setting) ∧
    (i < body.method.instructions.size → setting.Executes body i ∨ setting.LeavesOut body i) ∧
    (Reaches body.method.instructions i → i < body.method.instructions.size →
      setting.Executes body i ∨ ∃ j instruction target, setting.Executes body j ∧
        body.method.instructions[j]? = some instruction ∧ target ∈ instruction.targets ∧
        setting.LeavesOut body target) := by
  obtain ⟨sweeps, executes⟩ := executes_of_success success analyzed stored first hasBody
  have linear : ∀ i < body.method.instructions.size,
      setting.Executes body i ∨ setting.LeavesOut body i := by
    intro i inside
    simp only [LeavesOut, executes]
    by_cases visited : i ∈ body.visits setting
    · exact .inl visited
    · exact .inr (body.exists_return sweeps inside visited)
  exact ⟨executes i, linear i, exists_lost_jump linear⟩

end Setting

/-! ## An access that control reaches and the analysis does not -/

/-- Returns if one of two numbers is not zero, and else reads an element of an array. The first
branch goes to the return, and the second one goes beyond it. -/
def guardedRead : Method :=
  { name := "get", descriptor := "([III)V", access := ⟨8⟩
    instructions :=
      #[.load .int 1, .branch (.zero .ne) 4, .load .int 2, .branch (.zero .eq) 5, .ret none,
        .load .reference 0, .load .int 1, .arrayLoad .int, .store .int 3, .ret none] }

def guardedReader : Body :=
  { owner := { name := "demo/Guard", methods := [guardedRead] }, method := guardedRead }

/-- The analysis of the class with the method. -/
def guardedSetting : Setting :=
  { repository := ({} : Repository).addAll [guardedReader.owner], analyzed := ["demo/Guard"] }

private theorem guardedSetting_clean :
    guardedSetting.analyze.1 = .ok ⟨[], { methodsAnalyzed := 1 }⟩ :=
  Setting.analyze_eq_ok (by decide +kernel)

/-- Control reaches the access if both numbers are zero. -/
theorem guardedRead_reaches : Reaches guardedRead.instructions 7 := by
  have second : Reaches guardedRead.instructions 1 := .step .start rfl (by decide)
  have third : Reaches guardedRead.instructions 2 := .step second rfl (by decide)
  have fourth : Reaches guardedRead.instructions 3 := .step third rfl (by decide)
  have behind : Reaches guardedRead.instructions 5 := .step fourth rfl (by decide)
  have index : Reaches guardedRead.instructions 6 := .step behind rfl (by decide)
  exact .step index rfl (by decide)

/-- The branches are executed. The access is left out behind the return between them and it, since a
jump is lost. -/
theorem guardedReader_executes :
    guardedSetting.analyze.1 = .ok ⟨[], { methodsAnalyzed := 1 }⟩ ∧
      "demo/Guard" ∈ guardedSetting.analyzed ∧
      guardedSetting.repository.lookup? "demo/Guard" = some guardedReader.owner ∧
      guardedReader.owner.findMethod? "get" "([III)V" = some guardedReader.method ∧
      guardedReader.method.hasBody = true ∧ Reaches guardedRead.instructions 7 ∧
      guardedSetting.Executes guardedReader 3 ∧ guardedSetting.LeavesOut guardedReader 7 ∧
      ∃ j instruction target, guardedSetting.Executes guardedReader j ∧
        guardedRead.instructions[j]? = some instruction ∧ target ∈ instruction.targets ∧
        guardedSetting.LeavesOut guardedReader target := by
  have analyzed : "demo/Guard" ∈ guardedSetting.analyzed := by decide
  have stored : guardedSetting.repository.lookup? "demo/Guard" = some guardedReader.owner := by
    decide +kernel
  have first : guardedReader.owner.findMethod? "get" "([III)V" = some guardedReader.method := by
    decide +kernel
  have hasBody : guardedReader.method.hasBody = true := by decide
  have executes :=
    guardedSetting.executes_iff guardedReader guardedSetting_clean analyzed stored first hasBody
  have branch : 3 ∈ guardedReader.visits guardedSetting := by decide +kernel
  have access : 7 ∉ guardedReader.visits guardedSetting := by decide +kernel
  have missed : ¬guardedSetting.Executes guardedReader 7 := fun executed =>
    access ((executes 7).1.mp executed)
  exact ⟨guardedSetting_clean, analyzed, stored, first, hasBody, guardedRead_reaches,
    (executes 3).1.mpr branch, ((executes 7).2.1 (by decide)).resolve_left missed,
    ((executes 7).2.2 guardedRead_reaches (by decide)).resolve_left missed⟩

/-- Control reaches the access, and the analysis succeeds without executing it and without a
report. -/
theorem guardedReader_escapes :
    guardedSetting.analyze.1 = .ok ⟨[], { methodsAnalyzed := 1 }⟩ ∧
      "demo/Guard" ∈ guardedSetting.analyzed ∧
      guardedSetting.repository.lookup? "demo/Guard" = some guardedReader.owner ∧
      guardedReader.owner.findMethod? "get" "([III)V" = some guardedReader.method ∧
      guardedReader.method.hasBody = true ∧ Reaches guardedRead.instructions 7 ∧
      (guardedRead.instructions[7]?).any Instruction.isAccess = true ∧
      ¬guardedSetting.Executes guardedReader 7 :=
  ⟨guardedSetting_clean, by decide, by decide +kernel, by decide +kernel, by decide,
    guardedRead_reaches, rfl, by decide +kernel⟩

end ArrayBounds
