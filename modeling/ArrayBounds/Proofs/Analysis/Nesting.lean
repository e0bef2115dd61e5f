import ArrayBounds.Proofs.Analysis.Activation
import ArrayBounds.Proofs.Analysis.Coverage

/-! # Analyses within analyses

A method that turns out to be recursive is analysed again, each time with its last result stored
(`ArrayBounds.Interpreter.Reanalyses`). Every pass over a method may call for the analysis of other
methods, while the method itself is in progress. The relation `ArrayBounds.Setting.Analyses`
collects all the contexts in which methods are analysed in the course of a whole analysis. What
holds at its start and is kept by walks and by stored results holds in each of these contexts
(`ArrayBounds.Setting.Analyses.keeps`).
-/

namespace ArrayBounds

open Program

namespace Run

/-- The run with one more analysis of a recursive method counted. -/
def countReanalysis (run : Run) : Run :=
  { run with statistics.recursionIterations := run.statistics.recursionIterations + 1 }

/-- The run in which the method is not known to be recursive any more. -/
def unmark (run : Run) (key : MethodKey) : Run :=
  { run with recursive := run.recursive.erase key }

/-- The run behind another analysis of a recursive method, with what is known by then of its
result. -/
def retain (run : Run) (key : MethodKey) (result : Variable) : Run :=
  { run.unmark key with memo := run.memo.insert key result }

end Run

/-- What is known of the result of a method after a pass that has returned `next`. -/
def Variable.grown (known next : Variable) : Variable :=
  { known with sign := known.sign.join next.sign }

namespace Interpreter

/-- Another analysis of a recursive method: what is known of its result before, the run in which the
pass starts, and what it returns. -/
structure Reanalysis where
  known : Variable
  start : Run
  returned : Variable

/-- The pass has returned more than what is known. -/
def Reanalysis.Grows (pass : Reanalysis) : Prop :=
  ¬pass.returned.sign ≤ pass.known.sign

/-- Completed passes over a recursive method, one after the other, from what is known of its result
and a run to what is known behind them. -/
inductive Reanalyses (key : MethodKey) (once : Analysis Variable) :
    List Reanalysis → Variable → Run → Variable → Run → Prop where
  | none (known : Variable) (run : Run) : Reanalyses key once [] known run known run
  | more {known next final : Variable} {run between left : Run} {passes : List Reanalysis}
      (passed : once run.countReanalysis = .ok next between)
      (rest : Reanalyses key once passes (known.grown next)
        (between.retain key (known.grown next)) final left) :
      Reanalyses key once (⟨known, run.countReanalysis, next⟩ :: passes) known run final left

/-- How the analysis of a recursive method ends, with at most `limit` passes more: with a pass that
returns nothing new, or after passes that all have returned more than what was known. -/
inductive Ends (setting : Setting) (key : MethodKey) (once : Analysis Variable) (limit : Nat)
    (first : Variable) (run : Run) :
    (stable : Bool) → List Reanalysis → Variable → Run → Prop where
  | stable {passes : List Reanalysis} {last : Reanalysis} {result : Variable} {left after : Run}
      (growing : ∀ pass ∈ passes, pass.Grows) (still : ¬last.Grows) (fewer : passes.length < limit)
      (trace : Reanalyses key once (passes ++ [last]) first run result left)
      (announces : Analysis.emit setting (.methodStable key result.sign) left = .ok () after) :
      Ends setting key once limit first run true (passes ++ [last]) result after
  | givenUp {passes : List Reanalysis} {known : Variable} {left announced : Run}
      (growing : ∀ pass ∈ passes, pass.Grows)
      (full : passes.length = limit) (trace : Reanalyses key once passes first run known left)
      (announces : Analysis.emit setting (.methodUnstable key setting.limits.recursionPasses)
        left = .ok () announced) :
      Ends setting key once limit first run false passes { known with sign := .top }
        (if known.sign = .top then announced
        else { announced with memo := announced.memo.insert key { known with sign := .top } })

variable {setting : Setting} {key : MethodKey} {once : Analysis Variable}

/-- The first of the passes that are left. -/
theorem repeatUntilStable_succ (setting : Setting) (key : MethodKey) (once : Analysis Variable)
    (passes : Nat) (known : Variable) (run : Run) :
    repeatUntilStable setting key once (passes + 1) known run =
      Analysis.andThen
        (fun next between =>
          (if next.sign ≤ known.sign then
            Analysis.emit setting (.methodStable key (known.grown next).sign) >>= fun _ =>
              pure (known.grown next)
          else repeatUntilStable setting key once passes (known.grown next))
            (between.retain key (known.grown next)))
        (once run.countReanalysis) := by
  rw [repeatUntilStable, Analysis.bind_eq_andThen]
  change (once >>= _) run.countReanalysis = _
  rw [Analysis.bind_eq_andThen]
  rfl

/-- Repeated passes that succeed have come to an end in one of the two ways. -/
theorem repeatUntilStable_ends {limit : Nat} {known result : Variable} {run after : Run}
    (success : repeatUntilStable setting key once limit known run = .ok result after) :
    ∃ stable passes, Ends setting key once limit known run stable passes result after := by
  induction limit generalizing known run with
  | zero =>
      obtain ⟨_, announced, announces, success⟩ := EStateM.bind_eq_ok_iff.mp success
      have ends : Ends setting key once 0 known run false [] _ _ :=
        .givenUp (fun _ member => absurd member List.not_mem_nil) rfl (.none known run) announces
      refine ⟨false, [], ?_⟩
      split at success
      case isTrue top =>
        obtain ⟨rfl, rfl⟩ := EStateM.pure_eq_ok_iff.mp success
        rw [if_pos top, ← top] at ends
        exact ends
      case isFalse smaller =>
        obtain ⟨_, _, stored, success⟩ := EStateM.bind_eq_ok_iff.mp success
        obtain rfl := EStateM.modify_eq_ok_iff.mp stored
        obtain ⟨rfl, rfl⟩ := EStateM.pure_eq_ok_iff.mp success
        rw [if_neg smaller] at ends
        exact ends
  | succ limit ih =>
      rw [repeatUntilStable_succ] at success
      cases passed : once run.countReanalysis with
      | error error final =>
          rw [passed] at success
          cases success
      | ok next between =>
          rw [passed] at success
          dsimp only [Analysis.andThen] at success
          split at success
          case isTrue small =>
            obtain ⟨_, _, announces, success⟩ := EStateM.bind_eq_ok_iff.mp success
            obtain ⟨rfl, rfl⟩ := EStateM.pure_eq_ok_iff.mp success
            exact ⟨true, _,
              .stable (fun _ member => absurd member List.not_mem_nil) (not_not_intro small)
              (Nat.succ_pos limit) (.more passed (.none _ _)) announces⟩
          case isFalse grows =>
            have grow {passes : List Reanalysis} (growing : ∀ pass ∈ passes, pass.Grows) :
                ∀ pass ∈ ⟨known, run.countReanalysis, next⟩ :: passes, pass.Grows :=
              List.forall_mem_cons.mpr ⟨grows, growing⟩
            obtain ⟨stable, passes, ends⟩ := ih success
            cases ends with
            | stable growing still fewer trace announces =>
                exact ⟨true, _, .stable (grow growing) still (Nat.succ_lt_succ fewer)
                  (.more passed trace) announces⟩
            | givenUp growing full trace announces =>
                exact ⟨false, _,
                  .givenUp (grow growing) (congrArg (· + 1) full) (.more passed trace) announces⟩

/-- The analysis of a method ends with its first pass, or with repeated passes if that has found the
method to be recursive. -/
theorem stabilise_eq_ok {run after : Run} {result : Variable}
    (success : stabilise setting key once run = .ok result after) :
    ∃ first between, once run = .ok first between ∧
      ((between.inProgress.contains key = true ∨ between.recursive.contains key = false) ∧
        result = first ∧ after = between ∨
        between.inProgress.contains key = false ∧ between.recursive.contains key = true ∧
          repeatUntilStable setting key once setting.limits.recursionPasses first
            (between.unmark key) = .ok result after) := by
  obtain ⟨first, between, passed, success⟩ := EStateM.bind_eq_ok_iff.mp success
  refine ⟨first, between, passed, ?_⟩
  rw [EStateM.get_bind] at success
  split at success
  case isTrue settled =>
    obtain ⟨rfl, rfl⟩ := EStateM.pure_eq_ok_iff.mp success
    exact .inl ⟨by simpa using settled, rfl, rfl⟩
  case isFalse found =>
    rw [Bool.not_eq_true, Bool.or_eq_false_iff, Bool.not_eq_false'] at found
    exact .inr ⟨found.1, found.2, success⟩

/-! ## Contexts -/

/-- The runs in which the passes over a method start. -/
inductive Starts (setting : Setting) (key : MethodKey) (once : Analysis Variable) (run : Run) :
    Run → Prop where
  | first : Starts setting key once run run
  | again {first known : Variable} {between left : Run} {passes : List Reanalysis}
      (passed : once run = .ok first between)
      (outside : between.inProgress.contains key = false)
      (recursive : between.recursive.contains key = true)
      (trace : Reanalyses key once passes first (between.unmark key) known left)
      (growing : ∀ pass ∈ passes, pass.Grows)
      (fewer : passes.length < setting.limits.recursionPasses) :
      Starts setting key once run left.countReanalysis

/-- Repetitions depend on the passes that are made only. -/
private theorem repeatUntilStable_congr {other : Analysis Variable} {limit : Nat}
    {known : Variable} {run : Run}
    (agree : ∀ passes known' left, Reanalyses key once passes known run known' left →
      (∀ pass ∈ passes, pass.Grows) → passes.length < limit →
      other left.countReanalysis = once left.countReanalysis) :
    repeatUntilStable setting key other limit known run =
      repeatUntilStable setting key once limit known run := by
  induction limit generalizing known run with
  | zero => rfl
  | succ limit ih =>
      rw [repeatUntilStable_succ, repeatUntilStable_succ]
      have first := agree [] known run (.none known run)
        (fun _ member => absurd member List.not_mem_nil) (Nat.succ_pos limit)
      refine Analysis.andThen_congr first fun next between passed => ?_
      split
      case isTrue => rfl
      case isFalse grows =>
        refine ih fun passes known' left trace growing fewer => ?_
        exact agree _ known' left (.more passed trace) (List.forall_mem_cons.mpr ⟨grows, growing⟩)
          (Nat.succ_lt_succ fewer)

/-- The analysis of a method depends on the passes that start in these runs, and on no other
pass. -/
theorem stabilise_eq_of_starts {other : Analysis Variable} {run : Run}
    (agree : ∀ start, Starts setting key once run start → other start = once start) :
    stabilise setting key other run = stabilise setting key once run := by
  unfold stabilise
  rw [Analysis.bind_eq_andThen, Analysis.bind_eq_andThen]
  refine Analysis.andThen_congr (agree run .first) fun first between passed => ?_
  rw [EStateM.get_bind, EStateM.get_bind]
  split
  case isTrue => rfl
  case isFalse found =>
    rw [Bool.not_eq_true, Bool.or_eq_false_iff, Bool.not_eq_false'] at found
    obtain ⟨outside, recursive⟩ := found
    change repeatUntilStable setting key other _ first (between.unmark key) = repeatUntilStable
      setting key once _ first _
    exact repeatUntilStable_congr fun passes known left trace growing fewer =>
      agree _ (.again passed outside recursive trace growing fewer)

/-- The analysis of a method walks through the stretch, which starts with the first instruction of
the method. -/
inductive Walks (setting : Setting) : Nat → Body → Run → Stretch → Prop where
  | intro {depth : Nat} {body : Body} {run start : Run} {s : Stretch}
      (starts : Starts setting body.key
      (analyzeOnce setting (analyzeMethod setting depth) body) run start)
      (begins : Begins setting body start s) : Walks setting (depth + 1) body run s

/-- The stretch starts with a call that leads to the target. No result is stored for it, so that it
is analysed in the run. -/
inductive Calls (setting : Setting) (body : Body) (s : Stretch) : Body → Run → Prop where
  | intro {kind : InvokeKind} {owner name descriptor : String} {target : Body} {announced run : Run}
      (arrives : Arrives setting body s (.invoke kind owner name descriptor) announced)
      (analyzed : setting.isAnalyzed owner = true)
      (resolved : resolve setting { className := owner, name, descriptor } announced =
        .ok (some target) run)
      (missing : run.memo.get? target.key = none) : Calls setting body s target run

/-- What an instruction does depends on the analyses that it calls for, and on no other analysis. -/
theorem step_eq_of_calls {body : Body} {s : Stretch} {callee other : Callee}
    (agree : ∀ target run, Calls setting body s target run → other target run = callee target run)
    (walk : Walk) {instruction : Instruction}
    (found : body.method.instructions[s.first]? = some instruction) (reach : s.first ≤ s.last) :
    step setting body other walk s.last instruction s.entry s.run =
      step setting body callee walk s.last instruction s.entry s.run := by
  cases instruction with
  | invoke kind owner name descriptor =>
      rw [step_proceeds setting body other _ _ rfl, step_proceeds setting body callee _ _ rfl,
        Analysis.bind_eq_andThen, Analysis.bind_eq_andThen]
      refine Analysis.andThen_congr rfl fun _ announced announces => ?_
      rw [Analysis.bind_eq_andThen, Analysis.bind_eq_andThen]
      refine Analysis.andThen_congr ?_ fun _ _ _ => rfl
      unfold proceed invoke
      dsimp only
      split
      case isTrue => rfl
      case isFalse analyzed =>
        rw [Analysis.bind_eq_andThen, Analysis.bind_eq_andThen]
        refine Analysis.andThen_congr rfl fun result run resolved => ?_
        cases result with
        | none => rfl
        | some target =>
            dsimp only
            rw [Analysis.bind_eq_andThen, Analysis.bind_eq_andThen]
            refine Analysis.andThen_congr ?_ fun _ _ _ => rfl
            unfold resultOf
            rw [EStateM.get_bind, EStateM.get_bind]
            cases missing : run.memo.get? target.key with
            | some result => rfl
            | none =>
                exact agree target run
                  (.intro ⟨found, reach, announces⟩ (by simpa using analyzed) resolved missing)
  | ret kind => cases kind <;> rfl
  | _ => rfl

end Interpreter

open Interpreter

/-- The body is analysed in the run in the course of the whole analysis, and calls may be followed
so deep from there. -/
inductive Setting.Analyses (setting : Setting) : Nat → Body → Run → Prop where
  | top {done rest : List ClassDef} {owner : ClassDef} {earlier later : List Method}
      {method : Method}
      {before announced run : Run}
      (found : setting.repository.lookupAll setting.analyzed = .ok (done ++ owner :: rest))
      (walked : done.forM (analyzeClass setting) {} = .ok () before)
      (announces : Analysis.emit setting (.classStarted owner.name) before = .ok () announced)
      (declared : owner.methods = earlier ++ method :: later)
      (reached : earlier.forM (fun method => analyzeUnlessKnown setting { owner, method })
      announced = .ok () run) (missing : run.memo.contains (Body.mk owner method).key = false) :
      Analyses setting (callDepth setting) { owner, method } run
  | call {depth : Nat} {body target : Body} {outer run : Run} {s t : Stretch}
      (analyses : Analyses setting (depth + 1) body outer)
      (walks : Walks setting (depth + 1) body outer s)
      (within : Within setting body (analyzeMethod setting depth) s t)
      (calls : Calls setting body t target run) :
      Analyses setting depth target run

/-- The keys of all methods of all classes. -/
def Repository.keys (repository : Repository) : List MethodKey :=
  repository.toList.flatMap fun owner => owner.methods.map fun method => (Body.mk owner method).key

/-- The classes of a repository are the values of its map. -/
private theorem Repository.toList_eq (repository : Repository) :
    repository.toList = repository.classes.toList.map Prod.snd := by
  obtain ⟨⟨⟨classes⟩⟩⟩ := repository
  induction classes using Quotient.ind with
  | _ classes =>
      -- The library says nothing about the values of a map, only about the tree behind it.
      change classes.inner.values =
        (Std.DTreeMap.Internal.Impl.Const.toList classes.inner).map Prod.snd
      rw [Std.DTreeMap.Internal.Impl.values_eq_map_snd,
        Std.DTreeMap.Internal.Impl.Const.toList_eq_toListModel_map, List.map_map]
      rfl

/-- A repository has as many keys as methods. -/
theorem Repository.length_keys (repository : Repository) :
    repository.keys.length = repository.methodCount := by
  unfold keys methodCount
  induction repository.toList with
  | nil => rfl
  | cons owner rest ih =>
      rw [List.flatMap_cons, List.length_append, List.length_map, ih, List.foldr_cons]

/-- The keys of a repository are those of the methods in its classes. -/
theorem Repository.key_mem_keys {repository : Repository} {name : String} {owner : ClassDef}
    {method : Method} (found : repository.lookup? name = some owner)
    (declared : method ∈ owner.methods) : (Body.mk owner method).key ∈ repository.keys := by
  have stored : owner ∈ repository.toList := by
    rw [toList_eq]
    exact List.mem_map.mpr
      ⟨(name, owner), Std.ExtTreeMap.mem_toList_iff_getElem?_eq_some.mpr found, rfl⟩
  exact List.mem_flatMap.mpr ⟨owner, stored, List.mem_map.mpr ⟨method, declared, rfl⟩⟩

/-- The key of a declared method is one of the keys of the repository. -/
theorem Setting.Declares.key_mem_keys {setting : Setting} {body : Body}
    (declared : setting.Declares body) : body.key ∈ setting.repository.keys := by
  obtain ⟨name, -, stored, found⟩ := declared
  exact Repository.key_mem_keys stored (List.mem_of_find?_eq_some found)

namespace Interpreter

section

open Analysis

variable {setting : Setting} {body target : Body} {callee : Callee} {key : MethodKey}
  {once : Analysis Variable}
  {F : Frame → Prop} {P : Sign → Prop} {R R' : Run → Prop} {E : AnalysisError → Prop} {s : Stretch}
  {run start : Run}

/-- Invariants hold after repeated passes over a method. -/
private theorem Reanalyses.keeps (results : Results F P) (brackets : Brackets key R R' P)
    (keeps : Keeps R E once fun v => P v.sign) {passes : List Reanalysis} {known final : Variable}
    {left : Run} (trace : Reanalyses key once passes known run final left) (good : P known.sign)
    (holds : R run) : R left := by
  induction trace with
  | none => exact holds
  | @more known next final run between left passes passed rest ih =>
      have counted : R run.countReanalysis := brackets.same holds rfl rfl
      obtain ⟨-, holds⟩ := keeps.ok counted passed
      have grown : P (known.grown next).sign := results.rises good (Sign.le_join_left _ _)
      exact ih grown (brackets.store (brackets.same holds rfl rfl) grown)

/-- What a pass over a method keeps holds at the start of each of its passes. -/
theorem Starts.keeps (results : Results F P) (brackets : Brackets key R R' P)
    (keeps : Keeps R E once fun v => P v.sign) (starts : Starts setting key once run start)
    (holds : R run) : R start := by
  cases starts with
  | first => exact holds
  | again passed outside recursive trace growing fewer =>
      obtain ⟨good, holds⟩ := keeps.ok holds passed
      exact brackets.same (trace.keeps results brackets keeps good (brackets.same holds rfl rfl))
        rfl rfl

/-- What a pass keeps while a method is in progress holds when its walk begins. -/
theorem Begins.keeps (brackets : Brackets body.key R R' P) (begins : Begins setting body start s)
    (holds : R start) : R' s.run := by
  cases begins with
  | @intro descriptor announced parsed fresh code announces =>
      obtain ⟨log, rfl⟩ := exists_log_of_emit announces
      have counted :
          R { start with statistics.methodsAnalyzed := start.statistics.methodsAnalyzed + 1,
                         log } :=
        brackets.same holds rfl rfl
      exact brackets.enter counted fresh

/-- Invariants hold where a call begins. -/
private theorem Calls.keeps (runs : Respects setting callee R' E fun v => P v.sign)
    (calls : Calls setting body s target run) (holds : R' s.run) :
    setting.Declares target ∧ R' run := by
  cases calls with
  | intro arrives analyzed resolved missing =>
      have reached := ((keeps_emit runs _).ok holds arrives.announced).2
      obtain ⟨progress, memo⟩ := resolve_still resolved
      exact ⟨declares_of_resolveFrom resolved, runs.same reached progress memo⟩

section

variable {depth : Nat} (results : Results F P) (brackets : Brackets body.key R R' P)
  (runs : Respects setting (analyzeMethod setting depth) R' E fun v => P v.sign) (holds : R run)
include results brackets runs holds

/-- Invariants hold at the start of every walk that is made for a method. -/
theorem Walks.keeps (walks : Walks setting (depth + 1) body run s) : F s.frame ∧ R' s.run := by
  cases walks with
  | intro starts begins =>
      have started := starts.keeps results brackets (keeps_analyzeOnce results brackets runs) holds
      refine ⟨?_, begins.keeps brackets started⟩
      cases begins with
      | intro => exact results.starts body _

/-- What holds while a method is in progress holds in the contexts in which the methods that it
calls are analysed. -/
theorem Walks.keeps_calls {t : Stretch} {inner : Run} (walks : Walks setting (depth + 1) body run s)
    (within : Within setting body (analyzeMethod setting depth) s t)
    (calls : Calls setting body t target inner) : setting.Declares target ∧ R' inner := by
  obtain ⟨here, holds⟩ := walks.keeps results brackets runs holds
  exact calls.keeps runs (within_keeps results.frames runs within here holds).2

end

/-- A method that is not analysed again keeps every invariant. -/
private theorem keeps_analyzeUnlessKnown {Q : Variable → Prop}
    (keeps : Keeps R E (analyzeMethod setting (callDepth setting) body) Q) :
    Keeps R E (analyzeUnlessKnown setting body) fun _ => True := by
  refine .bind .get fun run _ => ?_
  split
  · exact .pure trivial
  · exact .bind keeps fun _ _ => .pure trivial

/-- The analysis of a class keeps what the analyses of its methods and announcements keep. -/
theorem keeps_analyzeClass {owner : ClassDef} {Q : Variable → Prop}
    (kept : ∀ run log, R run → R { run with log })
    (keeps : ∀ method ∈ owner.methods,
      Keeps R E (analyzeMethod setting (callDepth setting) { owner, method }) Q) :
    Keeps R E (analyzeClass setting owner) fun _ => True :=
  .bind (.emit kept) fun _ _ => .forM fun method declared =>
    keeps_analyzeUnlessKnown (keeps method declared)

end

end Interpreter

namespace Setting

variable {setting : Setting} {F : Frame → Prop} {P : Sign → Prop} {R : Run → Prop}

/-- A property of runs that holds at the start, and that no result of a method takes away. -/
structure Lasts (setting : Setting) (R : Run → Prop) (P : Sign → Prop) : Prop where
  start : R {}
  same : ∀ {run run' : Run}, R run → run'.inProgress = run.inProgress →
    run'.memo = run.memo → R run'
  stored : ∀ {run : Run} {key v}, R run → run.memo.get? key = some v → P v.sign
  brackets : ∀ key ∈ setting.repository.keys, Brackets key R R P

section

variable (lasts : setting.Lasts R P) (results : Results F P)
include lasts

/-- Calls respect an invariant that lasts in the analysis of every declared method. -/
theorem Lasts.respects {callee : Callee}
    (keeps : ∀ target, setting.Declares target →
      Analysis.Keeps R (fun _ => True) (callee target) fun v => P v.sign) :
    Respects setting callee R (fun _ => True) fun v => P v.sign where
  same := lasts.same
  stored := lasts.stored
  errors _ _ := trivial
  resolved _ := trivial
  called declared holds _ := called_of_keeps (keeps _ declared) holds

include results

/-- The analysis of a method keeps a lasting property, however deep calls are followed. -/
theorem Lasts.keeps_analyzeMethod (depth : Nat) {target : Body}
    (declared : target.key ∈ setting.repository.keys) :
    Analysis.Keeps R (fun _ => True) (analyzeMethod setting depth target) fun v => P v.sign := by
  induction depth generalizing target with
  | zero => exact .throw trivial
  | succ depth ih =>
      exact Interpreter.keeps_analyzeMethod results (lasts.brackets target.key declared)
        (lasts.respects fun _ declared => ih declared.key_mem_keys)

/-- A lasting property holds in every context in which a method is analysed. -/
theorem Analyses.keeps {depth : Nat} {body : Body} {run : Run}
    (analyses : setting.Analyses depth body run) : body.key ∈ setting.repository.keys ∧ R run := by
  have kept (run : Run) (log : Array Event) (holds : R run) : R { run with log } :=
    lasts.same holds rfl rfl
  have methods {name : String} {owner : ClassDef}
      (found : setting.repository.lookup? name = some owner) :
      ∀ method ∈ owner.methods, Analysis.Keeps R (fun _ => True)
        (analyzeMethod setting (callDepth setting) { owner, method }) fun v => P v.sign :=
    fun method declared =>
      lasts.keeps_analyzeMethod results _ (Repository.key_mem_keys found declared)
  induction analyses with
  | @top done rest owner earlier later method before announced run found walked announces declared
      reached missing =>
      obtain ⟨stored, -⟩ := Repository.lookupAll_eq_ok found
      obtain ⟨name, -, here⟩ := stored owner (by simp)
      have classes :
          Analysis.Keeps R (fun _ => True) (done.forM (analyzeClass setting)) fun _ => True := by
        refine .forM fun owner member => ?_
        obtain ⟨name, -, here⟩ := stored owner (List.mem_append_left _ member)
        exact keeps_analyzeClass kept (methods here)
      have others :
          Analysis.Keeps R (fun _ => True)
            (earlier.forM fun method => analyzeUnlessKnown setting { owner, method })
            fun _ => True := by
        refine .forM fun method member => keeps_analyzeUnlessKnown (methods here method ?_)
        rw [declared]
        exact List.mem_append_left _ member
      have announcing :
          Analysis.Keeps R (fun _ => True) (Analysis.emit setting (.classStarted owner.name))
            fun _ => True :=
        .emit kept
      refine ⟨Repository.key_mem_keys here (by rw [declared]; simp), ?_⟩
      exact (others.ok (announcing.ok (classes.ok lasts.start walked).2 announces).2 reached).2
  | call analyses walks within calls ih =>
      obtain ⟨declared, holds⟩ := walks.keeps_calls results (lasts.brackets _ ih.1)
        (lasts.respects fun _ declared => lasts.keeps_analyzeMethod results _ declared.key_mem_keys)
        ih.2 within calls
      exact ⟨declared.key_mem_keys, holds⟩

end

end Setting

end ArrayBounds
