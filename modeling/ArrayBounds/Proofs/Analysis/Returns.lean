import ArrayBounds.Proofs.Analysis.Activation
import ArrayBounds.Proofs.Walk.Returns

/-! # The result of a method covers what it returns

The result of a pass over a method is stored, and its sign admits every value that a return has
found on the stack during the pass, as long as no loop that a branch back closes refines a returned
variable when it is left (`ArrayBounds.Interpreter.analyzeOnce_covers`). A method whose branches all
lead ahead has no such loop.
-/

namespace ArrayBounds

open Program

/-- The instruction is no branch back from the given position. -/
def Program.Instruction.keepsAhead (pc : Nat) : Instruction → Bool
  | .branch _ target => pc < target
  | _ => true

/-- All branches of the method lead ahead. -/
def Program.Method.BranchesAhead (method : Method) : Prop :=
  ∀ pc (inside : pc < method.instructions.size), method.instructions[pc].keepsAhead pc = true

instance (method : Method) : Decidable method.BranchesAhead :=
  inferInstanceAs
    (Decidable
      (∀ pc (inside : pc < method.instructions.size), method.instructions[pc].keepsAhead pc = true))

/-- The result of a pass covers what the frame covers. -/
private theorem Frame.cover_le_result (f : Frame) (type : Option FieldType) :
    f.cover ≤ (f.returnedValue?.getD (.unknown type 0)).clearBounds.sign := by
  unfold cover returnedValue?
  cases f.returned with
  | none => exact Sign.bottom_le _
  | some id =>
      simp only [Option.map_some, Option.getD_some, Option.bind_some, signAt]
      cases f.vars[id]? with
      | none => exact Sign.bottom_le _
      | some v => exact Nat.le_refl _

namespace Interpreter

variable {setting : Setting} {body : Body} {callee : Callee} {s : Stretch}

/-- The sign admits every value that a return finds on the stack in the course of a walk. -/
def ReturnsCovered (setting : Setting) (body : Body) (callee : Callee) (s : Stretch) (sign : Sign) :
    Prop :=
  ∀ t kind run id popped, Within setting body callee s t →
    Arrives setting body t (.ret (some kind)) run →
    t.entry.pop = .ok (id, popped) → ∃ v, popped.vars[id]? = some v ∧ v.sign ≤ sign

/-- Without a branch back there is no loop whose end could refine a returned variable. -/
theorem steadyWithin_of_branchesAhead (ahead : body.method.BranchesAhead) :
    SteadyWithin setting body callee s := by
  intro t _ condition target run stable left exit after arrives back
  obtain ⟨inside, found⟩ := Array.getElem?_eq_some_iff.mp arrives.found
  have later := ahead t.first inside
  rw [found] at later
  exact absurd back (Nat.not_le_of_lt (of_decide_eq_true later))

/-- A pass over a method with code stores its result, and the result covers every return that the
pass executes, in an arm, in a pass over a loop or behind a join, if the loops of its walk are left
steadily. They are if all branches lead ahead. -/
theorem analyzeOnce_covers {run after : Run} {result : Variable} (code : body.method.hasBody = true)
    (fresh : run.inProgress.contains body.key = false)
    (success : analyzeOnce setting callee body run = .ok result after) :
    after.memo.get? body.key = some result ∧ ∃ s, Begins setting body run s ∧
      (SteadyWithin setting body callee s → ReturnsCovered setting body callee s result.sign) ∧
      (body.method.BranchesAhead → SteadyWithin setting body callee s) := by
  obtain ⟨s, f, inner, type, begins, walked, rfl, rfl⟩ := analyzeOnce_eq_ok code fresh success
  have closed : s.frame.Closed := by
    cases begins with
    | intro => exact (initialFrame_develops body _).closed
  refine ⟨Memo.get?_insert.trans (if_pos rfl), s, begins,
    fun steady t kind reached id popped within arrives popping => ?_, steadyWithin_of_branchesAhead⟩
  obtain ⟨v, found, le⟩ := return_covered closed steady walked within arrives popping
  exact ⟨v, found, Nat.le_trans le (f.cover_le_result type)⟩

end Interpreter

open Interpreter

/-! ## Returns from a loop with its test at the top -/

/-- Returns the second argument from within a loop, if it is positive, and zero behind the loop. -/
def searchMethod : Method :=
  { name := "search", descriptor := "(II)I", access := ⟨8⟩
    instructions :=
      #[.load .int 0, .branch (.zero .lt) 7, .load .int 1, .branch (.zero .le) 6, .load .int 1,
        .ret (some .int), .goto 0, .const (.int 0), .ret (some .int)] }

def searchBody : Body :=
  { owner := { name := "demo/Search", methods := [searchMethod] }, method := searchMethod }

def searchSetting : Setting :=
  { repository := ({} : Repository).addAll [searchBody.owner], analyzed := ["demo/Search"] }

/-- The positive number that is returned from the loop and the zero behind it are both covered. -/
theorem search_covers :
    searchMethod.hasBody = true ∧ searchMethod.BranchesAhead ∧ ∃ result after s,
      analyzeOnce searchSetting (analyzeMethod searchSetting 1) searchBody {} = .ok result after ∧
      result.sign = .nonNegative ∧ after.memo.get? searchBody.key = some result ∧
      Begins searchSetting searchBody {} s ∧
      ReturnsCovered searchSetting searchBody (analyzeMethod searchSetting 1) s result.sign := by
  have code : searchMethod.hasBody = true := by decide
  have ahead : searchMethod.BranchesAhead := by decide
  obtain ⟨result, after, success, sign⟩ :=
    Analysis.exists_of_okAnd (fun result _ => result.sign = .nonNegative)
      (analyzeOnce searchSetting (analyzeMethod searchSetting 1) searchBody {}) (by decide +kernel)
  obtain ⟨stored, s, begins, covered, steady⟩ := analyzeOnce_covers code rfl success
  exact ⟨code, ahead, result, after, s, success, of_decide_eq_true sign, stored, begins,
    covered (steady ahead)⟩

/-! ## A return that is lost behind a loop with its test at the bottom -/

/-- Returns the second argument in one arm, and goes on in the other one with a loop that is left
when the second argument is positive. -/
def pickMethod : Method :=
  { name := "pick", descriptor := "(II)I", access := ⟨8⟩
    instructions :=
      #[.load .int 0, .branch (.zero .ne) 3, .goto 5, .load .int 1, .ret (some .int), .load .int 1,
        .branch (.zero .le) 5, .load .int 1, .ret (some .int)] }

def pickBody : Body :=
  { owner := { name := "demo/Pick", methods := [pickMethod] }, method := pickMethod }

def pickSetting : Setting :=
  { repository := ({} : Repository).addAll [pickBody.owner], analyzed := ["demo/Pick"] }

/-- The stretch that a pass over the method walks through. -/
def pickStart : Stretch :=
  ⟨0, 8, initialFrame pickBody ⟨[.int, .int], some .int⟩, ({} : Run).enter pickBody.key⟩

private theorem begins_pickStart : Begins pickSetting pickBody {} pickStart :=
  .intro (by cbv) rfl rfl rfl

/-- The arm at the target of the first branch has returned a number of which nothing is known. This
is the variable of the second slot, and leaving the loop makes it positive. -/
theorem pick_loses_return :
    ∃ result after,
      analyzeOnce pickSetting (analyzeMethod pickSetting 1) pickBody {} = .ok result after ∧
      result.sign = .positive ∧ ∃ s, Begins pickSetting pickBody {} s ∧ ∃ t run id popped v,
        Within pickSetting pickBody (analyzeMethod pickSetting 1) s t ∧
        Arrives pickSetting pickBody t (.ret (some .int)) run ∧ t.entry.pop = .ok (id, popped) ∧
        popped.vars[id]? = some v ∧ v.sign = .top ∧ ¬v.sign ≤ result.sign := by
  obtain ⟨result, after, success, checked⟩ :=
    Analysis.exists_of_okAnd (fun result _ => result.sign = .positive)
      (analyzeOnce pickSetting (analyzeMethod pickSetting 1) pickBody {}) (by decide +kernel)
  have sign := of_decide_eq_true checked
  obtain ⟨t, within, run, id, popped, v, arrives, popping, found, top⟩ :
      ∃ t, Within pickSetting pickBody (analyzeMethod pickSetting 1) pickStart t ∧
        ∃ run id popped v,
        Arrives pickSetting pickBody t (.ret (some .int)) run ∧ t.entry.pop = .ok (id, popped) ∧
        popped.vars[id]? = some v ∧ v.sign = .top := by
    -- From the start to the branch, from there to its second arm, and in it to the return.
    have branch : Within pickSetting pickBody (analyzeMethod pickSetting 1) pickStart _ :=
      within_of_following? 1 rfl
    have arm := branch.tail
      (.arm (.taken ⟨⟨rfl, by decide, rfl⟩, by decide, rfl⟩ rfl rfl (by decide) (by decide) rfl))
    refine ⟨_, arm.trans (within_of_following? 1 rfl), ?_⟩
    exact ⟨_, _, _, _, ⟨rfl, by decide, rfl⟩, rfl, rfl, rfl⟩
  refine ⟨result, after, success, sign, pickStart, begins_pickStart, t, run, id, popped, v, within,
    arrives, popping, found, top, ?_⟩
  rw [top, sign]
  decide

end ArrayBounds
