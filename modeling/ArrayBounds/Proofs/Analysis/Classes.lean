import ArrayBounds.Proofs.Walk.Follows

/-! # The methods of the analysed classes

A whole analysis goes through the methods of all classes, and analyses those that are not known yet.
Such a method is the first one of its class with its name and descriptor. So what the analysis of
one such method keeps is kept by the whole analysis, and all declared methods are known in the end
(`ArrayBounds.Setting.yields_analysis`).
-/

namespace ArrayBounds

open Program Analysis

/-- The look-up of a single name succeeds if the name is stored. -/
private theorem Repository.lookup_eq_ok_iff {repository : Repository} {name : String}
    {owner : ClassDef} :
    (match repository.lookup? name with
      | some c => Except.ok c
      | none => Except.error (AnalysisError.classNotFound name)) = .ok owner ↔
      repository.lookup? name = some owner := by
  cases repository.lookup? name <;> simp

/-- A successful look-up of several names finds the class of each name, and no others. -/
theorem Repository.lookupAll_eq_ok {repository : Repository} {names : List String}
    {classes : List ClassDef} (success : repository.lookupAll names = .ok classes) :
    (∀ owner ∈ classes, ∃ name ∈ names, repository.lookup? name = some owner) ∧
      ∀ name ∈ names, ∃ owner ∈ classes, repository.lookup? name = some owner := by
  have same := Except.mapM_eq_ok_iff.mp success
  constructor
  · intro owner member
    obtain ⟨name, there, found⟩ := Except.exists_item_of_map_ok same member
    exact ⟨name, there, lookup_eq_ok_iff.mp found⟩
  · intro name member
    obtain ⟨owner, there, found⟩ := Except.exists_result_of_map_ok same member
    exact ⟨owner, there, lookup_eq_ok_iff.mp found⟩

/-- A look-up of several names succeeds if each of them is stored. -/
theorem Repository.exists_lookupAll {repository : Repository} {names : List String}
    (stored : ∀ name ∈ names, ∃ owner, repository.lookup? name = some owner) :
    ∃ classes, repository.lookupAll names = .ok classes := by
  obtain ⟨classes, same⟩ := Except.exists_map_ok fun name member => by
    obtain ⟨owner, found⟩ := stored name member
    exact ⟨owner, lookup_eq_ok_iff.mpr found⟩
  exact ⟨classes, Except.mapM_eq_ok_iff.mpr same⟩

namespace Memo

/-- Whatever the first memo knows is known to the second one. -/
def Grows (memo memo' : Memo) : Prop :=
  ∀ key, memo.contains key = true → memo'.contains key = true

/-- No results are added where nothing happens. -/
theorem Grows.refl (memo : Memo) : memo.Grows memo :=
  fun _ => id

/-- Results that are known stay known over several steps. -/
theorem Grows.trans {first second third : Memo} (start : first.Grows second)
    (rest : second.Grows third) : first.Grows third :=
  fun key known => rest key (start key known)

end Memo

namespace Interpreter

/-- From a run with the property `R`, the analysis of a method that is declared and not known yet
comes to such a run, in which the method is known, or it raises an error with the property `E`. -/
def Completes (setting : Setting) (R : Run → Prop) (E : AnalysisError → Prop) : Prop :=
  ∀ body run, setting.Declares body → R run → run.memo.contains body.key = false →
    Yields (fun _ after => R after ∧ after.memo.contains body.key = true ∧
      run.memo.Grows after.memo) E (analyzeMethod setting (callDepth setting) body run)

variable {setting : Setting} {R : Run → Prop} {E : AnalysisError → Prop}

/-- Events other than those of single instructions keep the property. -/
def Announces (setting : Setting) (R : Run → Prop) : Prop :=
  ∀ ⦃event run after⦄, (∀ key position, event ≠ .instructionReached key position) →
    emit setting event run = .ok () after → R run → R after

/-- Announcements keep whatever does not depend on the log. -/
theorem announces_of_logged (logged : ∀ run log, R run → R { run with log }) :
    Announces setting R := by
  intro event run after _ emitted holds
  obtain ⟨log, rfl⟩ := exists_log_of_emit emitted
  exact logged run log holds

variable (announces : Announces setting R) (completes : Completes setting R E)
include announces completes

/-- After the analysis of a class the results of all its methods are known. -/
private theorem yields_analyzeClass {name : String} {owner : ClassDef}
    (analyzed : setting.isAnalyzed name = true)
    (stored : setting.repository.lookup? name = some owner) {before : Run} (holds : R before) :
    Yields (fun _ after => R after ∧
      (∀ method ∈ owner.methods, after.memo.contains (Body.mk owner method).key = true) ∧
      before.memo.Grows after.memo) E (analyzeClass setting owner before) := by
  obtain ⟨log, announced⟩ := emit_succeeds setting (.classStarted owner.name) before
  rw [analyzeClass_eq, EStateM.bind_of_ok announced]
  have started := announces (by nofun) announced holds
  refine yields_forM
    (fun done run =>
      R run ∧ (∀ method ∈ done, run.memo.contains (Body.mk owner method).key = true) ∧
        before.memo.Grows run.memo)
        ⟨started, fun _ member => absurd member List.not_mem_nil, .refl _⟩ ?_
  rintro done method rest run split ⟨holds, known, grows⟩
  rw [analyzeUnlessKnown_eq, EStateM.get_bind]
  by_cases already : run.memo.contains (Body.mk owner method).key = true
  · rw [if_pos already]
    refine ⟨holds, fun other member => ?_, grows⟩
    rcases List.mem_append.mp member with member | member
    · exact known other member
    · exact List.mem_singleton.mp member ▸ already
  · -- A method that is not known is the first one with its name and descriptor.
    have first : owner.findMethod? method.name method.descriptor = some method := by
      unfold ClassDef.findMethod?
      rw [split, List.find?_append, List.find?_cons_of_pos (by simp), Option.or_eq_right_of_none]
      refine List.find?_eq_none.mpr fun other member same => already ?_
      rw [Bool.and_eq_true, beq_iff_eq, beq_iff_eq] at same
      have otherKnown := known other member
      rwa [Body.key, same.1, same.2] at otherKnown
    rw [if_neg already]
    have declared : setting.Declares { owner, method } := ⟨name, analyzed, stored, first⟩
    refine (completes _ run declared holds (Bool.eq_false_iff.mpr already)).bind
      fun _ after ⟨holds, here, more⟩ => ?_
    refine ⟨holds, fun other member => ?_, grows.trans more⟩
    rcases List.mem_append.mp member with member | member
    · exact more _ (known other member)
    · exact List.mem_singleton.mp member ▸ here

end Interpreter

open Interpreter

/-- An analysis that has an outcome has come to the end of its steps, with the log that it
returns. -/
theorem Setting.analysis_of_analyze {setting : Setting} {outcome : Outcome}
    (success : setting.analyze.1 = .ok outcome) :
    ∃ final, setting.analysis {} = .ok outcome final ∧ setting.analyze.2 = final.log.toList := by
  unfold analyze EStateM.run at success ⊢
  cases ran : setting.analysis {} with
  | error error final =>
      rw [ran] at success
      cases success
  | ok outcome' final =>
      rw [ran] at success
      cases success
      exact ⟨final, rfl, rfl⟩

/-- The outcome of an analysis can be read off by evaluation. -/
theorem Setting.analyze_eq_ok {setting : Setting} {outcome : Outcome}
    (found : setting.analyze.1.toOption = some outcome) : setting.analyze.1 = .ok outcome := by
  cases ran : setting.analyze.1 with
  | error error =>
      rw [ran] at found
      cases found
  | ok outcome' =>
      rw [ran] at found
      exact congrArg Except.ok (Option.some.inj found)

/-- Steps that come to an end give the outcome of the analysis. -/
theorem Setting.analyze_of_analysis {setting : Setting} {outcome : Outcome} {final : Run}
    (success : setting.analysis {} = .ok outcome final) : setting.analyze.1 = .ok outcome := by
  unfold analyze EStateM.run
  rw [success]

/-- An analysis that succeeds has found all classes that it was asked for. -/
theorem Setting.lookupAll_of_analysis {setting : Setting} {run final : Run} {outcome : Outcome}
    (success : setting.analysis run = .ok outcome final) :
    ∃ classes, setting.repository.lookupAll setting.analyzed = .ok classes := by
  obtain ⟨classes, _, lifted, -⟩ := EStateM.bind_eq_ok_iff.mp success
  exact ⟨classes, (lift_eq_ok_iff.mp lifted).1⟩

/-- An analysis whose classes are found keeps what the analysis of each method keeps, and knows all
declared methods in the end. -/
theorem Setting.yields_analysis {setting : Setting} {R : Run → Prop} {E : AnalysisError → Prop}
    (announces : Announces setting R) (completes : Completes setting R E) {classes : List ClassDef}
    (searched : setting.repository.lookupAll setting.analyzed = .ok classes) (start : R {}) :
    Yields (fun outcome final => R final ∧
      (∀ body, setting.Declares body → final.memo.contains body.key = true) ∧
      outcome = ⟨final.findings.reports, final.statistics⟩) E (setting.analysis {}) := by
  obtain ⟨backward, forward⟩ := Repository.lookupAll_eq_ok searched
  rw [analysis_eq, searched]
  have all : Yields (fun _ run => R run ∧ ∀ owner ∈ classes, ∀ method ∈ owner.methods,
      run.memo.contains (Body.mk owner method).key = true) E
      (classes.forM (analyzeClass setting) {}) := by
    refine yields_forM (fun done run => R run ∧ ∀ owner ∈ done, ∀ method ∈ owner.methods,
      run.memo.contains (Body.mk owner method).key = true)
      ⟨start, fun _ member => absurd member List.not_mem_nil⟩ ?_
    rintro done owner rest run split ⟨holds, known⟩
    obtain ⟨name, analyzed, stored⟩ := backward owner (by rw [split]; simp)
    refine (yields_analyzeClass announces completes (List.contains_iff_mem.mpr analyzed)
      stored holds).imp ?_
    rintro _ after ⟨holds, here, more⟩
    refine ⟨holds, fun other member method declared => ?_⟩
    rcases List.mem_append.mp member with member | member
    · exact more _ (known other member method declared)
    · obtain rfl := List.mem_singleton.mp member
      exact here method declared
  refine all.bind fun _ walked ⟨holds, known⟩ => ?_
  rw [EStateM.get_bind]
  obtain ⟨log, done⟩ := emit_succeeds setting (.finished walked.statistics) walked
  rw [EStateM.bind_of_ok done]
  refine ⟨announces (by nofun) done holds, fun body ⟨name, analyzed, stored, first⟩ => ?_, rfl⟩
  obtain ⟨owner, member, found⟩ := forward name (List.contains_iff_mem.mp analyzed)
  obtain rfl := Option.some.inj (found.symm.trans stored)
  exact known _ member body.method (List.mem_of_find?_eq_some first)

end ArrayBounds
