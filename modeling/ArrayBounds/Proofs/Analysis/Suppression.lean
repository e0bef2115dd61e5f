import ArrayBounds.Proofs.Analysis.Activation
import ArrayBounds.Proofs.Analysis.Provenance
import ArrayBounds.Proofs.Domain.Edits
import ArrayBounds.Proofs.Walk.Parts

/-! # Accesses that have been checked before

A failed check is reported once on each path: from then on the index counts as being less than the
length of the array. That settles one half of the question only. An index is in bounds if moreover
it is not negative, and a failed check leaves its sign as it is. So along a straight run the same
access is silent the second time exactly if the sign of the index rules out negative numbers
(`ArrayBounds.Interpreter.findings_of_repeated_access`). An index that may be negative is reported
at every access (`ArrayBounds.twice_reported`).
-/

namespace ArrayBounds

open Program

/-- The access that an instruction makes if it finds the given operands on the stack. -/
def Program.Instruction.access? : Instruction → List VarId → Option Access
  | .arrayLoad _, index :: array :: _ => some { array, index }
  | .arrayStore _, _ :: index :: array :: _ => some { array, index }
  | _, _ => none

namespace Frame

variable {f g : Frame} {access : Access} {instruction : Instruction} {v : Variable}

/-! ## Checks -/

/-- The check of an access passes if the variable of the index is known to be in bounds. -/
theorem checkAccess_eq_none_iff :
    (f.checkAccess access).2 = none ↔
      f.vars[access.index]?.any (·.isSafeFor access.array) = true := by
  unfold checkAccess
  split
  case isTrue safe => exact ⟨fun _ => safe, fun _ => rfl⟩
  case isFalse unproved =>
    exact ⟨fun impossible => absurd impossible (Option.some_ne_none _),
      fun safe => absurd safe unproved⟩

/-- After a check the index counts as being less than the length of the array, and has the sign that
it had. -/
theorem exists_var_checkAccess (found : f.vars[access.index]? = some v) :
    ∃ w, (f.checkAccess access).1.vars[access.index]? = some w ∧ w.sign = v.sign ∧
      access.array ∈ w.below := by
  unfold checkAccess
  split
  case isTrue safe =>
    rw [found, Option.any_some, Variable.isSafeFor, Bool.and_eq_true] at safe
    exact ⟨v, found, rfl, Std.ExtTreeSet.contains_iff_mem.mp safe.2⟩
  case isFalse =>
    refine ⟨v.markBelow access.array, ?_, rfl, Std.ExtTreeSet.mem_insert_self⟩
    rw [vars_modify, if_pos rfl, found, Option.map_some]

/-- A check does not look at the stack. -/
theorem checkAccess_stack (f : Frame) (stack : List VarId) (access : Access) :
    ({ f with stack } : Frame).checkAccess access =
      ({ (f.checkAccess access).1 with stack }, (f.checkAccess access).2) := by
  unfold checkAccess modify
  dsimp only
  split
  · rfl
  · split <;> rfl

/-- The operands of an access are on top of the stack. -/
private theorem exists_operands (operands : instruction.access? f.stack = some access) :
    (∃ kind rest, instruction = .arrayLoad kind ∧ f.stack = access.index :: access.array :: rest) ∨
      ∃ kind value rest, instruction = .arrayStore kind ∧
        f.stack = value :: access.index :: access.array :: rest := by
  unfold Instruction.access? at operands
  split at operands
  case h_1 kind index array rest same =>
    obtain rfl := Option.some.inj operands
    exact .inl ⟨kind, rest, rfl, same⟩
  case h_2 kind value index array rest same =>
    obtain rfl := Option.some.inj operands
    exact .inr ⟨kind, value, rest, rfl, same⟩
  case h_3 => cases operands

/-- An access that finds its operands succeeds. It is unproved if its check fails, and apart from
the check it takes away nothing that is known. -/
theorem transfer_of_access (operands : instruction.access? f.stack = some access) :
    ∃ g, f.transfer instruction = .ok (g, (f.checkAccess access).2) ∧
      (f.checkAccess access).1.Enriches g := by
  rcases exists_operands operands with ⟨kind, rest, rfl, stack⟩ | ⟨kind, value, rest, rfl, stack⟩
  · have once : f.pop = .ok (access.index, { f with stack := access.array :: rest }) :=
      pop_eq_ok_iff.mpr ⟨_, stack, rfl⟩
    have twice : ({ f with stack := access.array :: rest } : Frame).pop =
        .ok (access.array, { f with stack := rest }) :=
      pop_eq_ok_iff.mpr ⟨_, rfl, rfl⟩
    let checked : Frame := { (f.checkAccess access).1 with stack := rest }
    let type := kind.type? <|> (checked.vars[access.array]?.bind (·.type)).bind FieldType.element?
    refine ⟨checked.push (.unknown type checked.pc), ?_, ?_⟩
    · refine Except.bind_eq_ok_iff.mpr ⟨_, once, Except.bind_eq_ok_iff.mpr ⟨_, twice, ?_⟩⟩
      dsimp only
      rw [checkAccess_stack]
      rfl
    · have same : (f.checkAccess access).1.Enriches checked :=
        .of_vars (Nat.le_refl _) fun _ _ => rfl
      have pushed : checked.Edits none (checked.push (.unknown type checked.pc)) :=
        checked.edits_push _
      exact same.trans pushed.enriches
  · have once : f.pop = .ok (value, { f with stack := access.index :: access.array :: rest }) :=
      pop_eq_ok_iff.mpr ⟨_, stack, rfl⟩
    have twice : ({ f with stack := access.index :: access.array :: rest } : Frame).pop =
        .ok (access.index, { f with stack := access.array :: rest }) :=
          pop_eq_ok_iff.mpr ⟨_, rfl, rfl⟩
    have thrice : ({ f with stack := access.array :: rest } : Frame).pop =
        .ok (access.array, { f with stack := rest }) :=
      pop_eq_ok_iff.mpr ⟨_, rfl, rfl⟩
    refine ⟨{ (f.checkAccess access).1 with stack := rest }, ?_,
      .of_vars (Nat.le_refl _) fun _ _ => rfl⟩
    refine Except.bind_eq_ok_iff.mpr
      ⟨_, once, Except.bind_eq_ok_iff.mpr ⟨_, twice, Except.bind_eq_ok_iff.mpr ⟨_, thrice, ?_⟩⟩⟩
    dsimp only
    rw [checkAccess_stack]
    rfl

end Frame

namespace Interpreter

variable {setting : Setting} {body : Body} {callee : Callee} {s t : Stretch} {f g : Frame}
  {before after : Run}

/-! ## Straight runs -/

/-- Taking arguments off the stack is an edit. -/
private theorem edits_popArguments {descriptor : MethodDescriptor} {hasReceiver : Bool}
    (success : popArguments descriptor hasReceiver f = .ok g) : f.Edits none g :=
  Frame.edits_of_popN success fun _ _ returned => by
    obtain rfl := Except.pure_eq_ok_iff.mp returned
    exact .refl

/-- An opaque call makes nothing but edits. -/
private theorem edits_opaqueCall {descriptor : String} {hasReceiver : Bool}
    (success : opaqueCall descriptor hasReceiver f before = .ok g after) : f.Edits none g := by
  unfold opaqueCall at success
  obtain ⟨_, _, -, success⟩ := EStateM.bind_eq_ok_iff.mp success
  obtain ⟨parsed, _, -, success⟩ := EStateM.bind_eq_ok_iff.mp success
  obtain ⟨popped, _, popping, success⟩ := EStateM.bind_eq_ok_iff.mp success
  have taken := edits_popArguments (Analysis.lift_eq_ok_iff.mp popping).1
  cases type : parsed.returnType with
  | none =>
      simp only [type] at success
      obtain ⟨rfl, -⟩ := EStateM.pure_eq_ok_iff.mp success
      exact taken
  | some result =>
      simp only [type] at success
      obtain ⟨rfl, -⟩ := EStateM.pure_eq_ok_iff.mp success
      exact taken.trans (popped.edits_push _)

/-- A call makes nothing but edits. -/
private theorem edits_invoke {kind : InvokeKind} {method : MethodKey}
    (success : invoke setting callee kind method f before = .ok g after) : f.Edits none g := by
  unfold invoke at success
  split at success
  · exact edits_opaqueCall success
  · obtain ⟨found, _, -, success⟩ := EStateM.bind_eq_ok_iff.mp success
    split at success
    · exact edits_opaqueCall success
    · obtain ⟨result, _, -, success⟩ := EStateM.bind_eq_ok_iff.mp success
      obtain ⟨descriptor, _, -, success⟩ := EStateM.bind_eq_ok_iff.mp success
      obtain ⟨popped, _, popping, success⟩ := EStateM.bind_eq_ok_iff.mp success
      have taken := edits_popArguments (Analysis.lift_eq_ok_iff.mp popping).1
      split at success
      · obtain ⟨rfl, -⟩ := EStateM.pure_eq_ok_iff.mp success
        exact taken
      · obtain ⟨rfl, -⟩ := EStateM.pure_eq_ok_iff.mp success
        exact taken.trans (popped.edits_push _)

/-- Also calls make nothing but edits, and write no slot. -/
theorem edits_proceed {instruction : Instruction}
    (success : proceed setting body callee instruction f before = .ok g after) :
    f.Edits instruction.written g := by
  unfold proceed at success
  split at success
  · exact edits_invoke success
  · exact edits_opaqueCall success
  · obtain ⟨moved, _, transferring, success⟩ := EStateM.bind_eq_ok_iff.mp success
    obtain ⟨⟨⟩, _, -, success⟩ := EStateM.bind_eq_ok_iff.mp success
    obtain ⟨rfl, -⟩ := EStateM.pure_eq_ok_iff.mp success
    exact Frame.edits_transfer (Analysis.lift_eq_ok_iff.mp transferring).1

variable (setting body callee)

/-- The walk comes from one stretch to the other by a single instruction that is neither a branch
nor a return. -/
inductive Onward (s : Stretch) : Stretch → Prop where
  | intro {instruction : Instruction} {g : Frame} {after : Run}
      (found : body.method.instructions[s.first]? = some instruction) (reach : s.first ≤ s.last)
      (proceeds : instruction.proceeds = true)
      (stepped : step setting body callee (walk setting body callee)
        s.last instruction s.entry s.run = .ok (.next g) after) :
      Onward s ⟨s.first + 1, s.last, g, after⟩

/-- The stretch starts with the access. -/
inductive Accesses (s : Stretch) (access : Access) : Prop where
  | intro {instruction : Instruction} (found : body.method.instructions[s.first]? =
      some instruction) (reach : s.first ≤ s.last)
      (operands : instruction.access? s.frame.stack = some access)

variable {setting body callee} {access : Access}

/-- Instructions that are neither branches nor returns make nothing but edits, and the walk goes on
behind them. -/
theorem edits_of_step {instruction : Instruction} {walk : Walk} {last : Nat} {flow : Flow}
    (proceeds : instruction.proceeds = true)
    (stepped : step setting body callee walk last instruction f before = .ok flow after) :
    ∃ g, flow = .next g ∧ f.Edits instruction.written g := by
  rw [step_proceeds _ _ _ _ _ proceeds] at stepped
  obtain ⟨_, _, -, stepped⟩ := EStateM.bind_eq_ok_iff.mp stepped
  obtain ⟨g, _, proceeded, stepped⟩ := EStateM.bind_eq_ok_iff.mp stepped
  obtain ⟨rfl, -⟩ := EStateM.pure_eq_ok_iff.mp stepped
  exact ⟨g, rfl, edits_proceed proceeded⟩

/-- A walk that is carried out runs straight through instructions that are neither branches nor
returns. -/
theorem straight_of_following? (count : Nat) (some : 0 < count)
    (proceeds : ∀ i < count, (body.method.instructions[s.first + i]?).any (·.proceeds) = true)
    (found : s.following? setting body callee count = .some t) :
    Relation.TransGen (Onward setting body callee) s t := by
  induction count generalizing s with
  | zero => cases some
  | succ count ih =>
      obtain ⟨u, moved, found⟩ := Option.bind_eq_some_iff.mp found
      have onward : Onward setting body callee s u := by
        have proceeds := proceeds 0 some
        cases next_of_next? moved with
        | onward here reach stepped =>
            rw [Nat.add_zero, here] at proceeds
            exact .intro here reach proceeds stepped
        | ahead here reach stepped =>
            rw [Nat.add_zero, here] at proceeds
            obtain ⟨g, same, -⟩ := edits_of_step proceeds stepped
            cases same
      cases count with
      | zero =>
          obtain rfl := Option.some.inj found
          exact .single onward
      | succ count =>
          have place : u.first = s.first + 1 := by
            cases onward
            rfl
          refine .head onward (ih (Nat.succ_pos count) (fun i less => ?_) found)
          rw [place, Nat.add_assoc, Nat.add_comm 1 i]
          exact proceeds (i + 1) (Nat.succ_lt_succ less)

/-- An instruction on a straight run takes away nothing that is known. -/
theorem Onward.enriches (onward : Onward setting body callee s t) : s.frame.Enriches t.frame := by
  cases onward with
  | intro found reach proceeds stepped =>
      obtain ⟨g, same, edits⟩ := edits_of_step proceeds stepped
      obtain rfl := Flow.next.inj same
      exact ⟨edits.enriches.next, edits.enriches.vars⟩

private theorem enriches_of_straight
    (straight : Relation.ReflTransGen (Onward setting body callee) s t) :
    s.frame.Enriches t.frame := by
  induction straight with
  | refl => exact .refl _
  | tail _ onward ih => exact ih.trans onward.enriches

/-- An access leads to the next instruction, and is reported if its check fails. -/
theorem Accesses.exists_onward (setting : Setting) (callee : Callee)
    (accesses : Accesses body s access) :
    ∃ t, Onward setting body callee s t ∧ (s.entry.checkAccess access).1.Enriches t.frame ∧
      t.run.findings = if (s.entry.checkAccess access).2.isSome then
      s.run.findings.insert (body.report s.first) else s.run.findings := by
  cases accesses with
  | @intro instruction found reach operands =>
      obtain ⟨g, moved, enriches⟩ := Frame.transfer_of_access (f := s.entry) operands
      have kind : instruction.isAccess = true := by
        rcases Frame.exists_operands (f := s.entry) operands with ⟨_, _, rfl, -⟩ | ⟨_, _, _, rfl, -⟩
        · rfl
        · rfl
      have proceeds : instruction.proceeds = true := by
        cases instruction with
        | arrayLoad | arrayStore => rfl
        | _ => cases kind
      rcases step_access_eq_ok kind moved s.run with ⟨log, stepped⟩
      exact ⟨_, .intro found reach proceeds stepped, enriches, rfl⟩

/-- The findings grow by the report of an access, unless the check of the access passes. -/
theorem Accesses.exists_findings {P : Prop} [Decidable P] (accesses : Accesses body s access)
    (check : (s.entry.checkAccess access).2 = none ↔ P) :
    ∃ t, Onward setting body callee s t ∧
      t.run.findings = if P then s.run.findings
      else s.run.findings.insert (body.report s.first) := by
  obtain ⟨t, onward, -, findings⟩ := accesses.exists_onward setting callee
  refine ⟨t, onward, ?_⟩
  rw [findings]
  cases outcome : (s.entry.checkAccess access).2 with
  | none => rw [if_pos (check.mp outcome), Option.isSome_none, if_neg Bool.false_ne_true]
  | some unproved =>
      have failed : ¬P := fun holds => by
        rw [check.mpr holds] at outcome
        cases outcome
      rw [if_neg failed, Option.isSome_some, if_pos rfl]

/-- The walk goes on in one way only. -/
theorem Onward.unique {t' : Stretch} (onward : Onward setting body callee s t)
    (other : Onward setting body callee s t') : t' = t := by
  cases onward with
  | intro found reach proceeds stepped =>
      cases other with
      | intro found' reach' proceeds' stepped' =>
          obtain rfl := Option.some.inj (found.symm.trans found')
          obtain ⟨same, rfl⟩ := EStateM.Result.ok.inj (stepped.symm.trans stepped')
          obtain rfl := Flow.next.inj same
          rfl

/-- What is left of an access that comes up again on a straight run is the question whether the
index is negative. -/
theorem Accesses.check_again (first : Accesses body s access)
    (drawn : access.index < s.frame.nextId)
    (run : Relation.TransGen (Onward setting body callee) s t) :
    (t.entry.checkAccess access).2 = none ↔
      s.frame.vars[access.index]?.any (·.sign.isNonNegative) = true := by
  obtain ⟨next, onward, straight⟩ := Relation.TransGen.head'_iff.mp run
  obtain ⟨next', onward', marked, -⟩ := first.exists_onward setting callee
  obtain rfl := onward.unique onward'
  have later := marked.trans (enriches_of_straight straight)
  rw [Frame.checkAccess_eq_none_iff]
  change t.frame.vars[access.index]?.any _ = true ↔ _
  cases found : s.frame.vars[access.index]? with
  | none =>
      have checked : s.entry.Edits none (s.entry.checkAccess access).1 :=
        s.entry.edits_checkAccess access
      have related := (checked.enriches.trans later).vars access.index drawn
      change Option.Rel _ s.frame.vars[access.index]? t.frame.vars[access.index]? at related
      rw [found] at related
      generalize t.frame.vars[access.index]? = now at related ⊢
      cases related with
      | none => rfl
  | some v =>
      obtain ⟨w, present, sign, bounded⟩ := Frame.exists_var_checkAccess (f := s.entry) found
      have known : access.index < (s.entry.checkAccess access).1.nextId := by
        rw [Frame.nextId_checkAccess]
        exact drawn
      obtain ⟨w', now, sign', kept⟩ := later.exists_var known present
      have contained : w'.below.contains access.array = true :=
        Std.ExtTreeSet.contains_iff_mem.mpr (kept _ bounded)
      rw [now, Option.any_some, Option.any_some, Variable.isSafeFor, contained,
        Bool.and_true, sign', sign]

/-- **Repeated accesses.** On a straight run, an access with the same two operands as one before
adds nothing to the findings if the sign of the index rules out negative numbers, and else its
report, if there is no equal one. -/
theorem findings_of_repeated_access (first : Accesses body s access)
    (drawn : access.index < s.frame.nextId)
    (run : Relation.TransGen (Onward setting body callee) s t) (again : Accesses body t access) :
    ∃ next, Onward setting body callee t next ∧
      next.run.findings =
        if s.frame.vars[access.index]?.any (·.sign.isNonNegative) then t.run.findings
        else t.run.findings.insert (body.report t.first) :=
  again.exists_findings (first.check_again drawn run)

end Interpreter

open Interpreter

/-! ## Two reads of one element -/

def twoReads : List Instruction :=
  [.load .reference 0, .load .int 1, .arrayLoad .int, .stack .pop, .load .reference 0, .load .int 1,
    .arrayLoad .int, .stack .pop, .ret none]

/-- Reads the element of the array in the first slot that the second slot says, twice and on two
lines. -/
def readTwice (setup : List Instruction) : Method :=
  { name := "get", descriptor := "([II)V", access := ⟨8⟩
    instructions := (setup ++ twoReads).toArray
    lines := #[⟨0, 10⟩, ⟨setup.length + 4, 11⟩] }

def reader (setup : List Instruction) : Body :=
  { owner := { name := "demo/Reader", methods := [readTwice setup] }, method := readTwice setup }

def readerSetting (setup : List Instruction) : Setting :=
  { repository := ({} : Repository).addAll [(reader setup).owner], analyzed := ["demo/Reader"] }

/-- The instructions that the method comes to one after the other. -/
abbrev ReaderOnward (setup : List Instruction) : Stretch → Stretch → Prop :=
  Onward (readerSetting setup) (reader setup) (analyzeMethod (readerSetting setup) 1)

/-- The stretch that a pass over the method walks through. -/
def readerStart (setup : List Instruction) : Stretch :=
  ⟨0, setup.length + 8, initialFrame (reader setup) ⟨[.array .int, .int], none⟩,
    ({} : Run).enter (reader setup).key⟩

/-- The first instructions put a number into the second slot that is not negative. -/
def constantIndex : List Instruction :=
  [.const (.int 5), .store .int 1]

/-- An index that is known not to be negative is reported once. -/
theorem constant_reported_once :
    Begins (readerSetting constantIndex) (reader constantIndex) {} (readerStart constantIndex) ∧
      ∃ s t next access,
        Relation.ReflTransGen (ReaderOnward constantIndex) (readerStart constantIndex) s ∧
        Accesses (reader constantIndex) s access ∧ access.index < s.frame.nextId ∧
        Relation.TransGen (ReaderOnward constantIndex) s t ∧
        Accesses (reader constantIndex) t access ∧ ReaderOnward constantIndex t next ∧
        t.run.findings.reports = [(reader constantIndex).report 4] ∧
        next.run.findings = t.run.findings := by
  refine ⟨.intro (by cbv) rfl rfl rfl, ?_⟩
  obtain ⟨s, t, access, start, first, drawn, run, again, findings, sign⟩ : ∃ s t access,
      Relation.ReflTransGen (ReaderOnward constantIndex) (readerStart constantIndex) s ∧
      Accesses (reader constantIndex) s access ∧ access.index < s.frame.nextId ∧
      Relation.TransGen (ReaderOnward constantIndex) s t ∧
      Accesses (reader constantIndex) t access ∧
      t.run.findings.reports = [(reader constantIndex).report 4] ∧
      s.frame.vars[access.index]?.any (·.sign.isNonNegative) = true := by
    refine ⟨_, _, _, (straight_of_following? 4 (by decide) (by decide) rfl).to_reflTransGen,
      .intro rfl (by decide) rfl, ?_, straight_of_following? 4 (by decide) (by decide) rfl,
      .intro rfl (by decide) rfl, rfl, ?_⟩
    · decide +kernel
    · decide +kernel
  obtain ⟨next, onward, silent⟩ := findings_of_repeated_access first drawn run again
  rw [if_pos sign] at silent
  exact ⟨s, t, next, access, start, first, drawn, run, again, onward, findings, silent⟩

/-- An index of which nothing is known is reported at the second access too. -/
theorem twice_reported :
    Begins (readerSetting []) (reader []) {} (readerStart []) ∧ ∃ s t next access,
      Relation.ReflTransGen (ReaderOnward []) (readerStart []) s ∧ Accesses (reader []) s access ∧
      Relation.TransGen (ReaderOnward []) s t ∧ Accesses (reader []) t access ∧
      ReaderOnward [] t next ∧ t.run.findings.reports = [(reader []).report 2] ∧
      next.run.findings.reports = [(reader []).report 2, (reader []).report 6] := by
  refine ⟨.intro (by cbv) rfl rfl rfl, ?_⟩
  obtain ⟨s, t, access, start, first, run, again, findings, position, unproved⟩ : ∃ s t access,
      Relation.ReflTransGen (ReaderOnward []) (readerStart []) s ∧ Accesses (reader []) s access ∧
      Relation.TransGen (ReaderOnward []) s t ∧ Accesses (reader []) t access ∧
      t.run.findings.reports = [(reader []).report 2] ∧ t.first = 6 ∧
      (t.entry.checkAccess access).2.isSome = true := by
    refine ⟨_, _, _, (straight_of_following? 2 (by decide) (by decide) rfl).to_reflTransGen,
      .intro rfl (by decide) rfl, straight_of_following? 4 (by decide) (by decide) rfl,
      .intro rfl (by decide) rfl, rfl, rfl, ?_⟩
    decide +kernel
  obtain ⟨next, onward, -, added⟩ :=
    again.exists_onward (readerSetting []) (analyzeMethod (readerSetting []) 1)
  rw [if_pos unproved, position] at added
  have new : (reader []).report 6 ∉ t.run.findings.reports := by
    rw [findings]
    decide +kernel
  refine ⟨s, t, next, access, start, first, run, again, onward, findings, ?_⟩
  rw [added, Findings.insert, dif_neg new]
  change t.run.findings.reports ++ [(reader []).report 6] = _
  rw [findings]
  rfl

end ArrayBounds
