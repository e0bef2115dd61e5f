import ArrayBounds.Proofs.Analysis.Bookkeeping
import ArrayBounds.Proofs.Analysis.Recursion
import Mathlib.Data.Finset.Card
import Mathlib.Data.Finset.Dedup

/-! # How often methods are analysed

A method may be reached from the list of classes, from a call in any pass over any loop, or while it
is in progress. Still it is walked through once, and once more for each time that it is analysed
again because it is recursive. At any point of an analysis, the number of walks is the number of
methods with instructions that are in progress or known, plus the number of repetitions
(`ArrayBounds.Setting.Balanced`). In the end the declared methods are known and no others
(`ArrayBounds.Setting.analyzes_once`).
-/

namespace ArrayBounds

open Program

/-! ## Declarations -/

namespace Setting

variable {setting : Setting} {body : Body} {key : MethodKey}

/-- The methods of the analysed classes, in the order in which they are analysed. -/
def declarations (setting : Setting) : List Body :=
  (setting.analyzed.filterMap setting.repository.lookup?).flatMap fun owner =>
    owner.methods.map fun method => { owner, method }

/-- The first declaration of a method. -/
def firstDeclaration? (setting : Setting) (key : MethodKey) : Option Body :=
  setting.declarations.find? fun body => body.key = key

/-- The methods that the analysed classes declare. -/
def declaredKeys (setting : Setting) : Finset MethodKey :=
  (setting.declarations.map Body.key).toFinset

/-- The declared methods that have instructions to walk through. -/
def walkedKeys (setting : Setting) : Finset MethodKey :=
  setting.declaredKeys.filter fun key => (setting.firstDeclaration? key).any (·.method.hasBody)

/-- The first declaration of a method is the first one in its class. -/
theorem declares_of_firstDeclaration? (found : setting.firstDeclaration? key = some body) :
    setting.Declares body ∧ body.key = key := by
  have same : body.key = key := by simpa using List.find?_some found
  refine ⟨?_, same⟩
  subst same
  unfold firstDeclaration? declarations at found
  rw [List.find?_flatMap] at found
  obtain ⟨owner, member, searched⟩ := List.exists_of_findSome?_eq_some found
  obtain ⟨name, analyzed, stored⟩ := List.mem_filterMap.mp member
  rw [List.find?_map] at searched
  obtain ⟨method, first, rfl⟩ := Option.map_eq_some_iff.mp searched
  obtain ⟨-, earlier, later, split, others⟩ := List.find?_eq_some_iff_append.mp first
  refine ⟨name, List.contains_iff_mem.mpr analyzed, stored, ?_⟩
  refine List.find?_eq_some_iff_append.mpr ⟨by simp, earlier, later, split, fun other member => ?_⟩
  simpa [Body.key] using others other member

private theorem mem_declarations (declared : setting.Declares body) :
    body ∈ setting.declarations := by
  obtain ⟨name, analyzed, stored, first⟩ := declared
  refine List.mem_flatMap.mpr
    ⟨body.owner, List.mem_filterMap.mpr ⟨name, List.contains_iff_mem.mp analyzed, stored⟩, ?_⟩
  exact List.mem_map.mpr ⟨body.method, List.mem_of_find?_eq_some first, rfl⟩

/-- The first declaration of a key is found. -/
private theorem firstDeclaration?_of_declares (declared : setting.Declares body) :
    setting.firstDeclaration? body.key = some body := by
  have some : (setting.firstDeclaration? body.key).isSome = true :=
    List.find?_isSome.mpr ⟨body, mem_declarations declared, decide_eq_true rfl⟩
  obtain ⟨first, found⟩ := Option.isSome_iff_exists.mp some
  obtain ⟨declared', same⟩ := declares_of_firstDeclaration? found
  rw [found, declared'.unique declared same]

/-- The declared keys are those of the declared methods. -/
private theorem mem_declaredKeys :
    key ∈ setting.declaredKeys ↔ ∃ body, setting.Declares body ∧ body.key = key := by
  rw [declaredKeys, List.mem_toFinset, List.mem_map]
  constructor
  · rintro ⟨body, member, rfl⟩
    have some : (setting.firstDeclaration? body.key).isSome = true :=
      List.find?_isSome.mpr ⟨body, member, decide_eq_true rfl⟩
    obtain ⟨first, found⟩ := Option.isSome_iff_exists.mp some
    exact ⟨first, declares_of_firstDeclaration? found⟩
  · rintro ⟨body, declared, rfl⟩
    exact ⟨body, mem_declarations declared, rfl⟩

private theorem mem_walkedKeys (declared : setting.Declares body) :
    body.key ∈ setting.walkedKeys ↔ body.method.hasBody = true := by
  have here : body.key ∈ setting.declaredKeys := mem_declaredKeys.mpr ⟨body, declared, rfl⟩
  simp [walkedKeys, here, firstDeclaration?_of_declares declared]

end Setting

/-! ## Walks and methods -/

namespace Run

/-- The method is in progress or known. -/
def touches (run : Run) (key : MethodKey) : Bool :=
  run.inProgress.contains key || run.memo.contains key

variable {run run' : Run} {key other : MethodKey}

private theorem touches_iff :
    run.touches key = true ↔ run.inProgress.contains key = true ∨ run.memo.contains key = true :=
  Bool.or_eq_true_iff

private theorem touches_enter :
    (run.enter key).touches other = true ↔ key = other ∨ run.touches other = true := by
  simp only [touches_iff, enter, Std.ExtTreeSet.contains_insert, Bool.or_eq_true, beq_iff_eq,
    Std.LawfulEqCmp.compare_eq_iff_eq, or_assoc]

private theorem touches_store {result : Variable} :
    { run with memo := run.memo.insert key result }.touches other = true ↔ key = other ∨
      run.touches other = true := by
  simp only [touches_iff, Memo.contains_insert, or_left_comm]

/-- A method in progress is known once it is left. -/
theorem touches_leave {result : Variable} (running : run.inProgress.contains key = true) :
    (run.leave key result).touches other = true ↔ run.touches other = true := by
  by_cases here : key = other
  · subst here
    simp [touches_iff, leave, Memo.contains_insert, running]
  · simp [touches_iff, leave, Memo.contains_insert, Std.ExtTreeSet.contains_erase, here]

/-- A method that is added to those in progress or known counts once. -/
theorem card_touched (keys : Finset MethodKey)
    (added : ∀ other, run'.touches other = true ↔ key = other ∨ run.touches other = true) :
    (keys.filter (run'.touches ·)).card =
      (keys.filter (run.touches ·)).card + if key ∈ keys ∧
      run.touches key = false then 1 else 0 := by
  by_cases here : key ∈ keys
  · have grown : keys.filter (run'.touches ·) = insert key (keys.filter (run.touches ·)) := by
      ext other
      simp only [Finset.mem_filter, Finset.mem_insert, added]
      constructor
      · rintro ⟨member, rfl | touched⟩
        · exact .inl rfl
        · exact .inr ⟨member, touched⟩
      · rintro (rfl | ⟨member, touched⟩)
        · exact ⟨here, .inl rfl⟩
        · exact ⟨member, .inr touched⟩
    by_cases touched : run.touches key = true
    · rw [grown, Finset.insert_eq_of_mem (Finset.mem_filter.mpr ⟨here, touched⟩),
        if_neg (by simp [touched]), Nat.add_zero]
    · rw [grown, Finset.card_insert_of_notMem (by simp [touched]),
        if_pos ⟨here, Bool.eq_false_iff.mpr touched⟩]
  · rw [if_neg (by simp [here]), Nat.add_zero]
    congr 1
    refine Finset.filter_congr fun other member => ?_
    rw [added]
    exact or_iff_right fun same => here (same ▸ member)

end Run

/-- Only declared methods are known. The methods with instructions that are in progress or known
have been walked through once each, apart from repetitions. -/
structure Setting.Balanced (setting : Setting) (run : Run) : Prop where
  stored : ∀ key, run.memo.contains key = true → key ∈ setting.declaredKeys
  counted : run.statistics.methodsAnalyzed =
    (setting.walkedKeys.filter (run.touches ·)).card + run.statistics.recursionIterations

namespace Setting.Balanced

variable {setting : Setting} {run run' : Run} {key : MethodKey}

/-- At the start nothing is counted, known or touched. -/
theorem start (setting : Setting) : setting.Balanced {} where
  stored _ known := by simp [Memo.contains] at known
  counted := by simp [Run.touches, Memo.contains]

/-- The balance depends on the methods in progress, the known results and two counts only. -/
private theorem congr (balanced : setting.Balanced run)
    (progress : run'.inProgress = run.inProgress) (memo : run'.memo = run.memo)
    (methods : run'.statistics.methodsAnalyzed = run.statistics.methodsAnalyzed)
    (repeats : run'.statistics.recursionIterations = run.statistics.recursionIterations) :
    setting.Balanced run' where
  stored := memo ▸ balanced.stored
  counted := by
    have same : run'.touches = run.touches := by
      funext key
      simp only [Run.touches, progress, memo]
    rw [same, methods, repeats]
    exact balanced.counted

/-- A walk through a method that is not known yet. -/
theorem enter (balanced : setting.Balanced run) (walked : key ∈ setting.walkedKeys)
    (new : run.touches key = false) :
    setting.Balanced (run.enter key) where
  stored := balanced.stored
  counted := by
    rw [Run.card_touched setting.walkedKeys fun _ => Run.touches_enter, if_pos ⟨walked, new⟩]
    have counted := balanced.counted
    simp only [Run.enter]
    omega

/-- A walk through a method that is analysed again. -/
theorem reenter (balanced : setting.Balanced run) (known : run.memo.contains key = true) :
    setting.Balanced (run.countReanalysis.enter key) where
  stored := balanced.stored
  counted := by
    have touched : run.touches key = true := Run.touches_iff.mpr (.inr known)
    have same : run.countReanalysis.touches = run.touches := rfl
    rw [Run.card_touched setting.walkedKeys fun _ => Run.touches_enter, same,
      if_neg (by simp [touched])]
    have counted := balanced.counted
    simp only [Run.enter, Run.countReanalysis]
    omega

/-- Storing the result of a method in progress keeps the balance. -/
private theorem leave {result : Variable} (balanced : setting.Balanced run)
    (declared : key ∈ setting.declaredKeys) (running : run.inProgress.contains key = true) :
    setting.Balanced (run.leave key result) where
  stored other known := by
    rcases Memo.contains_insert.mp known with rfl | known
    · exact declared
    · exact balanced.stored other known
  counted := by
    have same : (run.leave key result).touches = run.touches := by
      funext other
      rw [Bool.eq_iff_iff]
      exact Run.touches_leave running
    rw [same]
    exact balanced.counted

/-- A result is stored without a walk: the method is known already, or it has no instructions. -/
theorem store {result : Variable} (balanced : setting.Balanced run)
    (declared : key ∈ setting.declaredKeys)
    (still : run.touches key = true ∨ key ∉ setting.walkedKeys) :
    setting.Balanced { run with memo := run.memo.insert key result } where
  stored other known := by
    rcases Memo.contains_insert.mp known with rfl | known
    · exact declared
    · exact balanced.stored other known
  counted := by
    have nothing : ¬(key ∈ setting.walkedKeys ∧ run.touches key = false) := by
      rintro ⟨walked, new⟩
      rcases still with touched | empty
      · exact Bool.noConfusion (touched.symm.trans new)
      · exact empty walked
    rw [Run.card_touched setting.walkedKeys fun _ => Run.touches_store, if_neg nothing]
    exact balanced.counted

end Setting.Balanced

/-! ## Analyses -/

namespace Interpreter

open Analysis

variable {setting : Setting} {depth : Nat} {body : Body} {keys : MethodKey → Prop}

/-- The marks and the counts are as they should be, and the given methods are known. -/
structure Fair (setting : Setting) (keys : MethodKey → Prop) (run : Run) : Prop where
  marked : run.Marked
  balanced : setting.Balanced run
  known : ∀ key, keys key → run.memo.contains key = true

/-- Whether the counts are right depends on neither the log nor the findings. -/
theorem insensitive_fair : Insensitive (Fair setting keys) :=
  fun fair progress recursive memo methods repeats =>
    ⟨insensitive_marked fair.marked progress recursive memo methods repeats,
      fair.balanced.congr progress memo methods repeats, memo ▸ fair.known⟩

/-- The analysis of a declared method that is not known yet keeps the counts right, and the method
is known behind it unless it is still in progress. -/
def Counts (setting : Setting) (depth : Nat) : Prop :=
  ∀ {keys target run result after}, setting.Declares target → run.memo.contains target.key = false →
    analyzeMethod setting depth target run = .ok result after → Fair setting keys run →
    Fair setting keys after ∧
    (run.inProgress.contains target.key = true ∨ after.memo.contains target.key = true)

/-- A call keeps the counts right. -/
private theorem restores_fair (counts : Counts setting depth) {target : Body}
    (declared : setting.Declares target) :
    Restores (Fair setting keys) (Fair setting keys)
      (resultOf (analyzeMethod setting depth) target) := by
  refine .get fun run => ?_
  cases stored : run.memo.get? target.key with
  | some result => exact Restores.pure result run
  | none =>
      have missing : run.memo.contains target.key = false := by rw [Memo.contains_eq, stored]; rfl
      dsimp only
      have restored : Restored Run.Marked Run.Marked run (analyzeMethod setting depth target run) :=
        restores_analyzeMethod depth target run
      cases analyzed : analyzeMethod setting depth target run with
      | error error after =>
          rw [analyzed] at restored
          exact restored
      | ok result after =>
          rw [analyzed] at restored
          exact ⟨restored.1, fun fair => (counts declared missing analyzed fair).1⟩

section

variable (counts : Counts setting depth) (declared : setting.Declares body)
  (code : body.method.hasBody = true)
include counts declared code

/-- A pass keeps the counts right, if its walk has been counted. -/
theorem balanced_of_pass {start after : Run} {result : Variable}
    (fresh : start.inProgress.contains body.key = false)
    (entered : Fair setting keys (start.enter body.key))
    (success : analyzeOnce setting (analyzeMethod setting depth) body start = .ok result after) :
    setting.Balanced after ∧ (∀ key, keys key → after.memo.contains key = true) := by
  obtain ⟨s, f, inner, type, begins, walked, rfl, rfl⟩ := analyzeOnce_eq_ok code fresh success
  cases begins with
  | @intro descriptor announced parsed _ _ announces =>
      obtain ⟨log, rfl⟩ := exists_log_of_emit announces
      obtain ⟨same, kept⟩ :=
        (restores_interpret insensitive_fair (fun _ => restores_fair counts) _ _ _ _).ok walked
      have fair : Fair setting keys inner := kept (insensitive_fair entered rfl rfl rfl rfl rfl)
      have running : inner.inProgress.contains body.key = true := by
        rw [same]
        exact Std.ExtTreeSet.contains_insert_self
      refine ⟨fair.balanced.leave (Setting.mem_declaredKeys.mpr ⟨body, declared, rfl⟩) running,
        fun key known => ?_⟩
      exact Memo.contains_insert.mpr (.inr (fair.known key known))

/-- Repeated passes over a method keep the counts right. -/
private theorem Reanalyses.fair {passes : List Reanalysis} {known final : Variable} {run left : Run}
    (trace : Reanalyses body.key (analyzeOnce setting (analyzeMethod setting depth) body)
      passes known run final left) (fresh : run.inProgress.contains body.key = false)
    (here : run.memo.contains body.key = true)
    (fair : Fair setting keys run) :
    Fair setting keys left ∧ left.memo.contains body.key = true := by
  induction trace with
  | none => exact ⟨fair, here⟩
  | @more known next final run between left passes passed rest ih =>
      obtain ⟨same, marks⟩ := (restores_analyzeOnce (restores_analyzeMethod depth) body).ok passed
      have outside : run.countReanalysis.inProgress.contains body.key = false := fresh
      have entered : Fair setting keys (run.countReanalysis.enter body.key) :=
        ⟨fun other member => Std.ExtTreeSet.mem_insert.mpr (.inr (fair.marked other member)),
          fair.balanced.reenter here, fair.known⟩
      obtain ⟨balanced, knows⟩ := balanced_of_pass counts declared code outside entered passed
      have stored : between.memo.contains body.key = true := by
        rw [Memo.contains_eq, (analyzeOnce_stores outside passed).1]
        rfl
      have unmarked : setting.Balanced (between.unmark body.key) := balanced.congr rfl rfl rfl rfl
      have declaredKey := Setting.mem_declaredKeys.mpr ⟨body, declared, rfl⟩
      refine ih ?_ (Memo.contains_insert.mpr (.inl rfl))
        ⟨(marks fair.marked).unmark, unmarked.store declaredKey ?_, ?_⟩
      · exact (congrArg (·.contains body.key) same).trans fresh
      · exact .inl (Run.touches_iff.mpr (.inr stored))
      · exact fun key known => Memo.contains_insert.mpr (.inr (knows key known))

/-- Repeated passes over a method keep the counts right. -/
theorem Ends.fair {limit : Nat} {first result : Variable} {run after : Run} {stable : Bool}
    {passes : List Reanalysis}
    (ends : Ends setting body.key (analyzeOnce setting (analyzeMethod setting depth) body)
      limit first run stable passes result after) (fresh : run.inProgress.contains body.key = false)
    (here : run.memo.contains body.key = true)
    (fair : Fair setting keys run) :
    Fair setting keys after ∧ after.memo.contains body.key = true := by
  have announced {event : Event} {left announced : Run}
      (announces : emit setting event left = .ok () announced)
      (kept : Fair setting keys left ∧ left.memo.contains body.key = true) :
      Fair setting keys announced ∧ announced.memo.contains body.key = true := by
    obtain ⟨log, rfl⟩ := exists_log_of_emit announces
    exact ⟨insensitive_fair kept.1 rfl rfl rfl rfl rfl, kept.2⟩
  cases ends with
  | stable growing still fewer trace announces =>
      exact announced announces (trace.fair counts declared code fresh here fair)
  | givenUp growing full trace announces =>
      obtain ⟨fair, here⟩ := announced announces (trace.fair counts declared code fresh here fair)
      split
      · exact ⟨fair, here⟩
      · have touched := Run.touches_iff.mpr (.inr here)
        refine ⟨⟨fair.marked,
          fair.balanced.store (Setting.mem_declaredKeys.mpr ⟨body, declared, rfl⟩)
          (.inl touched), ?_⟩, Memo.contains_insert.mpr (.inl rfl)⟩
        exact fun key known => Memo.contains_insert.mpr (.inr (fair.known key known))

end

/-- The analysis of a method keeps the counts right, however deep calls are followed. -/
theorem counts_analyzeMethod (depth : Nat) : Counts setting depth := by
  induction depth with
  | zero => exact fun _ _ success => absurd success EStateM.throw_ne_ok
  | succ depth counts =>
      intro keys body run result after declared missing success fair
      have declaredKey := Setting.mem_declaredKeys.mpr ⟨body, declared, rfl⟩
      have marked := ((restores_analyzeMethod (depth + 1) body).ok success).2 fair.marked
      rw [analyzeMethod_succ] at success
      obtain ⟨first, between, passed, settled⟩ := stabilise_eq_ok success
      obtain ⟨same, marks⟩ := (restores_analyzeOnce (restores_analyzeMethod depth) body).ok passed
      obtain ⟨descriptor, parsed⟩ := parse_of_analyzeOnce passed
      by_cases running : run.inProgress.contains body.key = true
      · -- The method is only marked.
        obtain ⟨log, once⟩ := analyzeOnce_of_running parsed running
        obtain ⟨-, rfl⟩ := EStateM.Result.ok.inj (once.symm.trans passed)
        obtain ⟨-, -, rfl⟩ | ⟨outside, -⟩ := settled
        · exact ⟨⟨marked, fair.balanced.congr rfl rfl rfl rfl, fair.known⟩, .inl running⟩
        · exact absurd running (Bool.eq_false_iff.mp outside)
      · have fresh := Bool.eq_false_iff.mpr running
        have new : run.touches body.key = false := by rw [Run.touches, fresh, missing]; rfl
        have stored : between.memo.contains body.key = true := by
          rw [Memo.contains_eq, (analyzeOnce_stores fresh passed).1]
          rfl
        by_cases code : body.method.hasBody = true
        · have entered : Fair setting keys (run.enter body.key) :=
            ⟨fun other member => Std.ExtTreeSet.mem_insert.mpr (.inr (fair.marked other member)),
              fair.balanced.enter ((Setting.mem_walkedKeys declared).mpr code) new, fair.known⟩
          obtain ⟨balanced, known⟩ := balanced_of_pass counts declared code fresh entered passed
          obtain ⟨-, -, rfl⟩ | ⟨outside, -, repeated⟩ := settled
          · exact ⟨⟨marked, balanced, known⟩, .inr stored⟩
          · obtain ⟨stable, passes, ends⟩ := repeatUntilStable_ends repeated
            have unmarked : Fair setting keys (between.unmark body.key) :=
              ⟨(marks fair.marked).unmark, balanced.congr rfl rfl rfl rfl, known⟩
            obtain ⟨fair, here⟩ := ends.fair counts declared code outside stored unmarked
            exact ⟨fair, .inr here⟩
        · -- A method without instructions makes no calls, so it cannot be found to be recursive.
          rw [analyzeOnce_of_empty parsed fresh (Bool.eq_false_iff.mpr code)] at passed
          obtain ⟨-, rfl⟩ := EStateM.Result.ok.inj passed
          obtain ⟨-, -, rfl⟩ | ⟨-, recursive, -⟩ := settled
          · have empty : body.key ∉ setting.walkedKeys :=
              fun walked => code ((Setting.mem_walkedKeys declared).mp walked)
            refine ⟨⟨marked, fair.balanced.store declaredKey (.inr empty), fun key known => ?_⟩,
              .inr stored⟩
            exact Memo.contains_insert.mpr (.inr (fair.known key known))
          · exact absurd (fair.marked body.key recursive) running

/-- Each analysis of a method from the outside keeps the counts right and leaves no method in
progress. -/
theorem completes_fair :
    Completes setting (fun run => run.inProgress = ∅ ∧ Fair setting (fun _ => False) run)
      fun _ => True := by
  rintro body run declared ⟨idle, fair⟩ missing
  cases success : analyzeMethod setting (callDepth setting) body run with
  | error error after => trivial
  | ok result after =>
      have kept : Fair setting (fun key => run.memo.contains key = true) run :=
        { fair with known := fun _ => id }
      obtain ⟨fair, known⟩ := counts_analyzeMethod _ declared missing success kept
      have same := ((restores_analyzeMethod (callDepth setting) body).ok success).1
      refine ⟨⟨same.trans idle, { fair with known := nofun }⟩,
        known.resolve_left fun running => ?_, fair.known⟩
      rw [idle] at running
      simp at running

end Interpreter

namespace Setting

/-- An analysis that succeeds knows the declared methods in the end, and no others. It has walked
through each of them that has instructions in its first declaration once, and once more for each
repetition. -/
theorem analyzes_once (setting : Setting) {outcome : Outcome}
    (success : setting.analyze.1 = .ok outcome) :
    ∃ final, setting.analysis {} = .ok outcome final ∧
      (∀ key, final.memo.contains key = true ↔ key ∈ setting.declaredKeys) ∧
      outcome.statistics.methodsAnalyzed = setting.walkedKeys.card +
        outcome.statistics.recursionIterations := by
  obtain ⟨final, run, -⟩ := analysis_of_analyze success
  obtain ⟨classes, searched⟩ := lookupAll_of_analysis run
  have announces : Interpreter.Announces setting fun run => run.inProgress = ∅ ∧
      Interpreter.Fair setting (fun _ => False) run :=
    Interpreter.announces_of_logged fun run log ⟨idle, fair⟩ =>
      ⟨idle, Interpreter.insensitive_fair fair rfl rfl rfl rfl rfl⟩
  have start : Interpreter.Fair setting (fun _ => False) {} :=
    ⟨Run.Idle.marked ⟨rfl, rfl⟩, .start setting, nofun⟩
  have yields := yields_analysis announces Interpreter.completes_fair searched ⟨rfl, start⟩
  rw [run] at yields
  obtain ⟨⟨idle, fair⟩, known, rfl⟩ := yields
  have all (key : MethodKey) (declared : key ∈ setting.declaredKeys) :
      final.memo.contains key = true := by
    obtain ⟨body, here, rfl⟩ := mem_declaredKeys.mp declared
    exact known body here
  refine ⟨final, run, fun key => ⟨fair.balanced.stored key, all key⟩, ?_⟩
  have touched : setting.walkedKeys.filter (final.touches ·) = setting.walkedKeys := by
    refine Finset.filter_true_of_mem fun key walked => Run.touches_iff.mpr (.inr (all key ?_))
    exact (Finset.mem_filter.mp walked).1
  rw [← touched]
  exact fair.balanced.counted

end Setting

/-! ## A method that is declared twice -/

/-- The size is declared twice, first as a native method. The countdown calls itself. -/
def tallyClass : ClassDef :=
  { name := "demo/Count"
    methods :=
      [{ name := "size", descriptor := "()I", access := ⟨0x108⟩ },
        { name := "size", descriptor := "()I", access := ⟨8⟩,
          instructions := #[.const (.int 0), .ret (some .int)] },
        countdownMethod] }

/-- The class is named twice. -/
def tallySetting : Setting :=
  { repository := ({} : Repository).addAll [tallyClass], analyzed := ["demo/Count", "demo/Count"] }

/-- Both methods are known in the end. Only the countdown has been walked through, once and for one
repetition. -/
theorem tally_analyzes_once :
    tallySetting.analyze.1 = .ok ⟨[], { methodsAnalyzed := 2, recursionIterations := 1 }⟩ ∧
      ∃ final, tallySetting.analysis {} =
        .ok ⟨[], { methodsAnalyzed := 2, recursionIterations := 1 }⟩ final ∧
        (∀ key, final.memo.contains key = true ↔
          key = ⟨"demo/Count", "size", "()I"⟩ ∨ key = ⟨"demo/Count", "countdown", "(I)I"⟩) ∧
        tallySetting.walkedKeys.card = 1 := by
  have success :
      tallySetting.analyze.1 = .ok ⟨[], { methodsAnalyzed := 2, recursionIterations := 1 }⟩ :=
    Setting.analyze_eq_ok (by decide +kernel)
  obtain ⟨final, run, known, counted⟩ := tallySetting.analyzes_once success
  have keys : tallySetting.declaredKeys =
      {⟨"demo/Count", "size", "()I"⟩, ⟨"demo/Count", "countdown", "(I)I"⟩} := by
    decide +kernel
  refine ⟨success, final, run, fun key => ?_, Nat.succ_injective counted.symm⟩
  rw [known, keys, Finset.mem_insert, Finset.mem_singleton]

end ArrayBounds
