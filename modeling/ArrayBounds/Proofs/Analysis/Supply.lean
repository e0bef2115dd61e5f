import ArrayBounds.Proofs.Analysis.Occurrences
import ArrayBounds.Proofs.Walk.Rewinding

/-! # The supply of numbers

All frames that occur in an analysis are closed, their variables have possible values, and the
numbers of their variables have been drawn from one supply
(`ArrayBounds.Setting.representation_invariant`). The supply is that of a counter of 32 bits.

Numbers are drawn in the course of a walk and never given back, so the frame at the end of a walk
has counted all of them (`ArrayBounds.Interpreter.Arises.le_nextId`). A pass over a method is given
up if its last frame has counted more than 32 bits can. If an analysis has a result, then no pass in
its course was given up, and no frame has counted that far (`ArrayBounds.Setting.Occurs.fits`). A
method of 65 instructions is enough to use up the supply (`ArrayBounds.rewind_overflows`).
-/

namespace ArrayBounds

open Program

namespace Frame

end Frame

namespace Interpreter

variable {setting : Setting} {body target : Body} {callee : Callee} {s t : Stretch} {f g : Frame}
  {run start after : Run}

/-! ## Walks -/

/-- No number that has been drawn is given back. -/
theorem persists_nextId : Persists (fun _ => True) Frame.nextId where
  frames := Frame.invariant_true
  moved _ _ := rfl
  forked _ := rfl
  drawn _ _ := Nat.le_max_left _ _
  popped _ popping := (Frame.nextId_popN popping).ge
  assumed f condition operands := .inl (f.nextId_assumeCondition condition operands true).ge
  joined _ _ := max_le_iff.mp (Frame.le_nextId_join _ _)
  recorded _ popping := (Frame.nextId_pop popping).ge.trans (Frame.le_nextId_recordReturn _ _)
  proceeded _ success :=
    ((keeps_proceed (Frame.invariant_drawn _) (respects_true _ _) (Nat.le_refl _) _).ok trivial
      success).1

/-- Leaving a loop gives no numbers back. -/
private theorem retainsWithin_nextId : RetainsWithin Frame.nextId setting body callee s := by
  intro t _ condition target run stable left exit after _ _ _ leaving
  exact ((keeps_assuming (Frame.invariant_drawn stable.nextId) (respects_true setting callee)
    (Nat.le_refl _ : stable.nextId ≤ { stable with pc := t.first }.nextId) condition false).ok
    trivial leaving).1

section

variable (walked : outcome setting body callee s = .ok g after)
include walked

/-- A part of a walk has succeeded if the walk has. -/
theorem Within.outcome_eq_ok (within : Within setting body callee s t) :
    ∃ h final, outcome setting body callee t = .ok h final ∧ h.nextId ≤ g.nextId :=
  (persists_nextId.within trivial retainsWithin_nextId walked within).2

/-- A walk has counted the numbers that its first instruction has drawn. -/
theorem le_nextId_of_step {instruction : Instruction} {flow : Flow} {between : Run}
    (found : body.method.instructions[s.first]? = some instruction) (reach : s.first ≤ s.last)
    (stepped :
      step setting body callee (walk setting body callee) s.last instruction s.entry s.run =
      .ok flow between) : flow.frame.nextId ≤ g.nextId := by
  obtain ⟨flow', between', stepped', continued⟩ := outcome_step found reach walked
  obtain ⟨rfl, rfl⟩ := EStateM.Result.ok.inj (stepped.symm.trans stepped')
  exact persists_nextId.continued trivial retainsWithin_nextId found reach stepped continued

/-- A walk has counted the numbers that passes over a loop at its start have drawn. -/
theorem Loops.below {pass : Frame → Analysis Frame} {left : Run}
    (loops : Loops setting body callee s pass f left) :
    PassBelow Frame.nextId pass f left g.nextId := by
  have arms : ArmsRetain Frame.nextId setting body callee s :=
    persists_nextId.armsRetain trivial retainsWithin_nextId
  cases loops with
  | jump part passed pending behind announces again =>
      obtain ⟨inside, reach⟩ := (Part.arm part).inside
      have found := Array.getElem?_eq_getElem inside
      obtain ⟨flow, between, stepped, -⟩ := outcome_step found reach walked
      obtain ⟨h, final, passed', -, loop⟩ := persists_nextId.arm trivial arms found stepped part
      obtain ⟨rfl, rfl⟩ := EStateM.Result.ok.inj (passed.symm.trans passed')
      exact (loop _ _ _ _ pending behind announces again).mono
        (le_nextId_of_step walked found reach stepped)
  | @branch condition target _ _ _ arrives behind again =>
      obtain ⟨flow, between, stepped, -⟩ := outcome_step arrives.found arrives.reach walked
      have rest := le_nextId_of_step walked arrives.found arrives.reach stepped
      rw [step_branch] at stepped
      obtain ⟨_, announced, announces, success⟩ := EStateM.bind_eq_ok_iff.mp stepped
      obtain ⟨-, rfl⟩ := EStateM.Result.ok.inj (arrives.announced.symm.trans announces)
      rw [branch_backward setting body _ _ _ (behind : _ ≤ s.entry.pc)] at success
      obtain ⟨h, _, looping, success⟩ := EStateM.bind_eq_ok_iff.mp success
      obtain ⟨rfl, -⟩ := EStateM.pure_eq_ok_iff.mp success
      have passes :=
        (persists_nextId.branchLoop trivial (retainsWithin_nextId s .refl) arrives behind looping).2
      exact (passes _ _ again).mono rest

/-- A walk has counted the numbers that both sides of a join at its start have drawn, and the join
itself. -/
theorem Joins.le_nextId {left right : Frame} (joins : Joins setting body callee s left right) :
    (left.join right).1.nextId ≤ g.nextId := by
  cases joins with
  | paths forks through both =>
      obtain ⟨flow, between, stepped, -⟩ := outcome_step forks.found forks.reach walked
      have rest := le_nextId_of_step walked forks.found forks.reach stepped
      obtain ⟨through', between', left', right', through'', both', same⟩ := forks.arms stepped
      obtain ⟨rfl, rfl⟩ := EStateM.Result.ok.inj (through.symm.trans through'')
      obtain ⟨paths, -⟩ := EStateM.Result.ok.inj (both.symm.trans both')
      obtain ⟨rfl, rfl⟩ := Prod.mk.inj paths
      exact same ▸ rest
  | loop loops passed =>
      obtain ⟨-, h, final, passed', -, joined⟩ := loops.below walked
      obtain ⟨rfl, -⟩ := EStateM.Result.ok.inj (passed.symm.trans passed')
      exact joined

/-- The frame at the end of a walk has counted all numbers drawn at its first instruction. -/
theorem Arises.le_nextId (arises : Arises setting body callee s f) : f.nextId ≤ g.nextId := by
  induction arises with
  | start => exact persists_nextId.walk trivial retainsWithin_nextId walked
  | stepped found reach stepped => exact le_nextId_of_step walked found reach stepped
  | ended walked' =>
      obtain ⟨rfl, -⟩ := EStateM.Result.ok.inj (walked.symm.trans walked')
      exact Nat.le_refl _
  | looped loops => exact (loops.below walked).1
  | receiving joins =>
      exact (Nat.le_max_left _ _).trans ((Frame.le_nextId_join _ _).trans (joins.le_nextId walked))
  | incoming joins =>
      exact (Nat.le_max_right _ _).trans ((Frame.le_nextId_join _ _).trans (joins.le_nextId walked))
  | joined joins => exact joins.le_nextId walked
  | moved _ _ ih => exact ih
  | forked _ ih => exact ih
  | drawn _ arm walked' ih =>
      obtain ⟨h, final, walked'', le⟩ := Within.outcome_eq_ok walked (.single (.arm arm))
      obtain ⟨rfl, -⟩ := EStateM.Result.ok.inj (walked'.symm.trans walked'')
      exact Nat.max_le.mpr ⟨ih, le⟩
  | popped _ popping ih => exact (Frame.nextId_popN popping).le.trans ih
  | assumed _ condition operands holds ih =>
      exact (Frame.nextId_assumeCondition _ condition operands holds).le.trans ih

/-- A call that is made in the course of a walk has led to a result. -/
theorem Calls.callee_eq_ok (calls : Calls setting body s target run) :
    ∃ result final, callee target run = .ok result final := by
  cases calls with
  | @intro kind owner name descriptor _ announced _ arrives analyzed resolved missing =>
      obtain ⟨flow, between, stepped, -⟩ := outcome_step arrives.found arrives.reach walked
      rw [step_proceeds setting body callee _ _ rfl] at stepped
      obtain ⟨_, _, announces, stepped⟩ := EStateM.bind_eq_ok_iff.mp stepped
      obtain ⟨-, rfl⟩ := EStateM.Result.ok.inj (arrives.announced.symm.trans announces)
      obtain ⟨_, _, success, -⟩ := EStateM.bind_eq_ok_iff.mp stepped
      change invoke setting callee kind { className := owner, name, descriptor }
        s.entry _ = _ at success
      unfold invoke at success
      rw [if_neg (by simpa using analyzed)] at success
      obtain ⟨_, _, resolved', success⟩ := EStateM.bind_eq_ok_iff.mp success
      obtain ⟨rfl, rfl⟩ := EStateM.Result.ok.inj (resolved.symm.trans resolved')
      obtain ⟨result, final, called, -⟩ := EStateM.bind_eq_ok_iff.mp success
      unfold resultOf at called
      rw [EStateM.get_bind, missing] at called
      exact ⟨result, final, called⟩

end

/-! ## Passes -/

/-- Every pass over a recursive method has a result if the analysis of the method has one. -/
theorem Reanalyses.once_eq_ok {key : MethodKey} {once : Analysis Variable}
    {passes : List Reanalysis} {limit : Nat} {known known' result : Variable} {left : Run}
    (trace : Reanalyses key once passes known run known' left)
    (growing : ∀ pass ∈ passes, pass.Grows) (fewer : passes.length < limit)
    (success : repeatUntilStable setting key once limit known run = .ok result after) :
    ∃ next between, once left.countReanalysis = .ok next between := by
  induction trace generalizing limit with
  | none known run =>
      obtain ⟨limit, rfl⟩ := Nat.exists_eq_succ_of_ne_zero (Nat.ne_of_gt fewer)
      rw [repeatUntilStable_succ] at success
      cases passed : once run.countReanalysis with
      | error error final =>
          rw [passed] at success
          cases success
      | ok next between => exact ⟨next, between, rfl⟩
  | more passed rest ih =>
      obtain ⟨limit, rfl⟩ := Nat.exists_eq_succ_of_ne_zero (Nat.ne_of_gt (Nat.zero_lt_of_lt fewer))
      obtain ⟨grows, growing⟩ := List.forall_mem_cons.mp growing
      rw [repeatUntilStable_succ, passed] at success
      dsimp only [Analysis.andThen] at success
      rw [if_neg grows] at success
      exact ih growing (Nat.lt_of_succ_lt_succ fewer) success

/-- Each pass over a method that has become stable has a result. -/
private theorem Starts.once_eq_ok {key : MethodKey} {once : Analysis Variable} {result : Variable}
    (starts : Starts setting key once run start)
    (success : stabilise setting key once run = .ok result after) :
    ∃ next between, once start = .ok next between := by
  obtain ⟨first, between, passed, settled⟩ := stabilise_eq_ok success
  cases starts with
  | first => exact ⟨first, between, passed⟩
  | again passed' outside recursive trace growing fewer =>
      obtain ⟨rfl, rfl⟩ := EStateM.Result.ok.inj (passed.symm.trans passed')
      obtain ⟨running | unmarked, -⟩ | ⟨-, -, repeated⟩ := settled
      · rw [outside] at running
        cases running
      · rw [recursive] at unmarked
        cases unmarked
      · exact trace.once_eq_ok growing fewer repeated

/-- The walks of an analysis that has a result have ended within the supply. -/
theorem Walks.outcome_eq_ok {depth : Nat} {result : Variable}
    (walks : Walks setting (depth + 1) body run s)
    (success : analyzeMethod setting (depth + 1) body run = .ok result after) :
    ∃ f inner, outcome setting body (analyzeMethod setting depth) s = .ok f inner ∧
      f.nextId < UInt32.size := by
  cases walks with
  | intro starts begins =>
      obtain ⟨next, between, passed⟩ := starts.once_eq_ok success
      cases begins with
      | intro parsed fresh code announces =>
          obtain ⟨announced, f, inner, announces', walked, fits, -⟩ :=
            analyzeOnce_walks parsed fresh code passed
          obtain ⟨-, rfl⟩ := EStateM.Result.ok.inj (announces.symm.trans announces')
          exact ⟨f, inner, walked, fits⟩

end Interpreter

open Interpreter

namespace Setting

variable {setting : Setting} {outcome : Outcome}

/-- Every analysis of a method has a result if the whole analysis has one. -/
theorem Analyses.eq_ok {depth : Nat} {body : Body} {run : Run}
    (success : setting.analyze.1 = .ok outcome) (analyses : setting.Analyses depth body run) :
    ∃ result after, analyzeMethod setting depth body run = .ok result after := by
  induction analyses with
  | top found walked announces declared reached missing =>
      obtain ⟨final, analyzed, -⟩ := analysis_of_analyze success
      rw [analysis_eq] at analyzed
      obtain ⟨classes, _, lifted, analyzed⟩ := EStateM.bind_eq_ok_iff.mp analyzed
      obtain ⟨found', rfl⟩ := Analysis.lift_eq_ok_iff.mp lifted
      obtain rfl := Except.ok.inj (found'.symm.trans found)
      obtain ⟨_, _, classes, -⟩ := EStateM.bind_eq_ok_iff.mp analyzed
      obtain ⟨_, whole⟩ := EStateM.forM_split walked classes
      rw [analyzeClass_eq] at whole
      obtain ⟨_, _, announces', methods⟩ := EStateM.bind_eq_ok_iff.mp whole
      obtain ⟨-, rfl⟩ := EStateM.Result.ok.inj (announces.symm.trans announces')
      rw [declared] at methods
      obtain ⟨_, method⟩ := EStateM.forM_split reached methods
      rw [analyzeUnlessKnown_eq, EStateM.get_bind, missing] at method
      obtain ⟨result, after, analyzed, -⟩ := EStateM.bind_eq_ok_iff.mp method
      exact ⟨result, after, analyzed⟩
  | call analyses walks within calls ih =>
      obtain ⟨result, after, success⟩ := ih
      obtain ⟨f, inner, walked, -⟩ := walks.outcome_eq_ok success
      obtain ⟨h, final, walked, -⟩ := Within.outcome_eq_ok walked within
      exact calls.callee_eq_ok walked

/-- No frame of an analysis that has a result has counted more numbers than 32 bits can. -/
theorem Occurs.fits {f : Frame} (success : setting.analyze.1 = .ok outcome)
    (occurs : setting.Occurs f) : f.nextId < UInt32.size := by
  obtain ⟨depth, body, s, visits, arises⟩ := occurs
  cases visits with
  | intro analyses walks within =>
      obtain ⟨result, after, success⟩ := analyses.eq_ok success
      obtain ⟨last, inner, walked, fits⟩ := walks.outcome_eq_ok success
      obtain ⟨h, final, walked, le⟩ := Within.outcome_eq_ok walked within
      exact ((arises.le_nextId walked).trans le).trans_lt fits

end Setting

/-! ## A method with a branch -/

end ArrayBounds
