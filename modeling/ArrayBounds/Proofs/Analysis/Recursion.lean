import ArrayBounds.Proofs.Analysis.Nesting

/-! # Results of recursive methods

A recursive method is analysed again until a pass returns nothing new. What is known of its result
only grows from pass to pass, and it is what the calls of the method to itself yield during the next
pass, whatever other methods are analysed meanwhile. So the result in the end admits everything that
a pass has returned, and it is top, or the last pass has confirmed it
(`ArrayBounds.Interpreter.recursion_stabilises`).

No variable is ever known to be impossible. So the first pass returns a sign that can grow twice at
most, and the third pass after it returns nothing new.
-/

namespace ArrayBounds

open Program

/-- No stored result is known to be impossible. -/
def Memo.Possible (memo : Memo) : Prop :=
  ∀ key v, memo.get? key = some v → v.sign ≠ .bottom

/-- Storing a possible result keeps all stored results possible. -/
private theorem Memo.Possible.insert {memo : Memo} {key : MethodKey} {result : Variable}
    (possible : memo.Possible) (here : result.sign ≠ .bottom) :
    (memo.insert key result).Possible := by
  intro other v found
  rw [Memo.get?_insert] at found
  split at found
  case isTrue =>
    obtain rfl := Option.some.inj found
    exact here
  case isFalse => exact possible other v found

private theorem Sign.join_of_le {a b : Sign} (le : b ≤ a) : a.join b = a :=
  if_pos le

private theorem Variable.clearBounds_grown {known : Variable} (bare : known.clearBounds = known)
    (next : Variable) : (known.grown next).clearBounds = known.grown next := by
  have grown : (known.grown next).clearBounds = known.clearBounds.grown next := rfl
  rw [grown, bare]

namespace Interpreter

variable {setting : Setting} {body : Body} {callee : Callee} {key : MethodKey}
  {once : Analysis Variable}

/-! ## The passes -/

/-- A pass that is not cut short stores its result, which has no bounds, and the method is not in
progress any more. -/
theorem analyzeOnce_stores {run after : Run} {result : Variable}
    (fresh : run.inProgress.contains body.key = false)
    (success : analyzeOnce setting callee body run = .ok result after) :
    after.memo.get? body.key = some result ∧ result.clearBounds = result ∧
      after.inProgress.contains body.key = false := by
  by_cases code : body.method.hasBody = true
  case pos =>
    obtain ⟨s, f, inner, type, begins, walked, rfl, rfl⟩ := analyzeOnce_eq_ok code fresh success
    exact ⟨Memo.get?_insert.trans (if_pos rfl), rfl, contains_erase_self _ _⟩
  case neg =>
    obtain ⟨descriptor, parsed⟩ := parse_of_analyzeOnce success
    rw [analyzeOnce_of_empty parsed fresh (Bool.eq_false_iff.mpr code)] at success
    obtain ⟨rfl, rfl⟩ := EStateM.Result.ok.inj success
    exact ⟨Memo.get?_insert.trans (if_pos rfl), rfl, fresh⟩

section

variable {passes : List Reanalysis} {known final : Variable} {run left : Run}
  (trace : Reanalyses key once passes known run final left)
include trace

/-- Each pass starts with what is known before it stored, and what is known behind the passes is
stored. -/
theorem Reanalyses.stored (stored : run.memo.get? key = some known)
    (bare : known.clearBounds = known) :
    left.memo.get? key = some final ∧ final.clearBounds = final ∧
      ∀ pass ∈ passes, pass.start.memo.get? key = some pass.known := by
  induction trace with
  | none => exact ⟨stored, bare, fun _ member => absurd member List.not_mem_nil⟩
  | @more known next final run between left passes passed rest ih =>
      have grown := known.clearBounds_grown bare next
      have there : (between.retain key (known.grown next)).memo.get? key =
          some (known.grown next) := by
        refine Memo.get?_insert.trans ?_
        rw [if_pos rfl, grown]
      obtain ⟨storedEnd, bareEnd, each⟩ := ih there grown
      exact ⟨storedEnd, bareEnd, List.forall_mem_cons.mpr ⟨stored, each⟩⟩

/-- What is known grows, and admits everything that the passes have returned. -/
theorem Reanalyses.sign_le :
    known.sign ≤ final.sign ∧ ∀ pass ∈ passes, pass.returned.sign ≤ final.sign := by
  induction trace with
  | none => exact ⟨Nat.le_refl _, fun _ member => absurd member List.not_mem_nil⟩
  | @more known next final run between left passes passed rest ih =>
      have before : known.sign ≤ (known.grown next).sign := Sign.le_join_left _ _
      have here : next.sign ≤ (known.grown next).sign := Sign.le_join_right _ _
      exact ⟨Nat.le_trans before ih.1, List.forall_mem_cons.mpr ⟨Nat.le_trans here ih.1, ih.2⟩⟩

/-- A pass that returns more than what is known moves it up. -/
theorem Reanalyses.rank_le (growing : ∀ pass ∈ passes, pass.Grows) :
    known.sign.rank + passes.length ≤ final.sign.rank := by
  induction trace with
  | none => exact Nat.le_refl _
  | @more known next final run between left passes passed rest ih =>
      obtain ⟨grows, growing⟩ := List.forall_mem_cons.mp growing
      have here : next.sign.rank ≤ (known.grown next).sign.rank :=
        Sign.le_join_right known.sign next.sign
      have more : known.sign.rank < next.sign.rank := Nat.lt_of_not_le grows
      have others := ih growing
      rw [List.length_cons]
      omega

omit trace in
/-- The last pass decides what is known in the end. -/
theorem Reanalyses.last {earlier : List Reanalysis} {last : Reanalysis}
    (trace : Reanalyses key once (earlier ++ [last]) known run final left) :
    final = last.known.grown last.returned ∧
      ∃ between, Reanalyses key once earlier known run last.known between := by
  induction earlier generalizing known run with
  | nil =>
      cases trace with
      | more passed rest =>
          cases rest
          exact ⟨rfl, run, .none known run⟩
  | cons pass earlier ih =>
      cases trace with
      | more passed rest =>
          obtain ⟨same, between, before⟩ := ih rest
          exact ⟨same, between, .more passed before⟩

end

/-! ## During a pass -/

section

variable {v : Variable}

/-- Passes over other methods leave a stored result alone. -/
private theorem brackets_stored {other : MethodKey} (different : other ≠ key) :
    Brackets other (·.memo.get? key = some v) (·.memo.get? key = some v) fun _ => True where
  same holds _ memo := by
    rw [memo]
    exact holds
  enter holds _ := holds
  leave _ _ there := there
  store holds _ := by
    refine Memo.get?_insert.trans ?_
    rw [if_neg different]
    exact holds

/-- A stored result is kept if analyses of other methods keep it, because a call looks for a stored
result first. -/
theorem respects_stored
    (keeps : ∀ target : Body, target.key ≠ key →
      Analysis.Keeps (·.memo.get? key = some v) (fun _ => True) (callee target) fun _ => True) :
    Respects setting callee (·.memo.get? key = some v) (fun _ => True) fun _ => True where
  same holds _ memo := by
    rw [memo]
    exact holds
  stored _ _ := trivial
  errors _ _ := trivial
  resolved _ := trivial
  called {target run} _ holds missing := by
    have different : target.key ≠ key := by
      intro same
      rw [same, holds] at missing
      cases missing
    exact called_of_keeps (keeps target different) holds

/-- Analyses of other methods leave a stored result alone. -/
private theorem keeps_stored (depth : Nat) {target : Body} (different : target.key ≠ key) :
    Analysis.Keeps (·.memo.get? key = some v) (fun _ => True) (analyzeMethod setting depth target)
      fun _ => True := by
  induction depth generalizing target with
  | zero => exact .throw trivial
  | succ depth ih =>
      exact keeps_analyzeMethod results_true (brackets_stored different)
        (respects_stored fun _ different => ih different)

/-- What is stored for a method when a pass over it starts is stored wherever the pass gets. -/
theorem Begins.stored {depth : Nat} {start : Run} {s t : Stretch}
    (begins : Begins setting body start s) (stored : start.memo.get? body.key = some v)
    (within : Within setting body (analyzeMethod setting depth) s t) :
    t.run.memo.get? body.key = some v := by
  have here : s.run.memo.get? body.key = some v := by
    cases begins with
    | intro parsed fresh code announces => exact (Analysis.emit_still announces).2 ▸ stored
  exact (within_keeps results_true.frames
    (respects_stored fun _ different => keeps_stored depth different) within trivial here).2

end

/-! ## Possible results -/

/-- Passes keep all stored results possible. -/
private theorem brackets_possible (key : MethodKey) :
    Brackets key (fun run => run.memo.Possible) (fun run => run.memo.Possible) (· ≠ .bottom) where
  same holds _ memo := by
    rw [memo]
    exact holds
  enter holds _ := holds
  leave _ _ there := there
  store holds here := holds.insert here

/-- Throughout an analysis all stored results are possible. -/
theorem lasts_possible (setting : Setting) :
    setting.Lasts (fun run => run.memo.Possible) (· ≠ .bottom) where
  start key v found := by
    simp [Memo.get?] at found
  same := (brackets_possible default).same
  stored holds found := holds _ _ found
  brackets key _ := brackets_possible key

/-- A pass over a method has a possible result. -/
private theorem analyzeOnce_possible {depth : Nat} {run after : Run} {result : Variable}
    (possible : run.memo.Possible)
    (success : analyzeOnce setting (analyzeMethod setting depth) body run = .ok result after) :
    result.sign ≠ .bottom := by
  have lasts := lasts_possible setting
  have runs := lasts.respects fun _ declared =>
    lasts.keeps_analyzeMethod results_possible depth declared.key_mem_keys
  exact ((keeps_analyzeOnce results_possible (brackets_possible body.key) runs).ok
    possible success).1

/-! ## The result -/

section

variable {limit : Nat} {first result : Variable} {run after : Run} {stable : Bool}
  {passes : List Reanalysis}
  (ends : Ends setting key once limit first run stable passes result after)
include ends

private theorem Ends.sign_le :
    first.sign ≤ result.sign ∧ ∀ pass ∈ passes, pass.returned.sign ≤ result.sign := by
  cases ends with
  | stable growing still fewer trace announces => exact trace.sign_le
  | givenUp growing full trace announces => exact ⟨Sign.rank_le _, fun _ _ => Sign.rank_le _⟩

/-- Only two passes can return more than what is known, and the next one is the last. -/
theorem Ends.length_le (possible : first.sign ≠ .bottom) :
    passes.length ≤ 3 ∧ (3 ≤ limit → stable = true) := by
  have start : 1 ≤ first.sign.rank := by
    cases sign : first.sign with
    | bottom => exact absurd sign possible
    | _ => decide
  -- Between the first sign and the largest one there are two steps at most.
  have few {growing : List Reanalysis} {known : Variable} {left : Run}
      (trace : Reanalyses key once growing first run known left)
      (grow : ∀ pass ∈ growing, pass.Grows) :
      growing.length ≤ 2 := by
    have grown := trace.rank_le grow
    have limited := known.sign.rank_le
    omega
  cases ends with
  | stable growing still fewer trace announces =>
      obtain ⟨-, between, before⟩ := trace.last
      refine ⟨?_, fun _ => rfl⟩
      rw [List.length_append, List.length_singleton]
      exact Nat.succ_le_succ (few before growing)
  | givenUp growing full trace announces =>
      have short := few trace growing
      exact ⟨Nat.le_succ_of_le short, fun enough => by omega⟩

/-- The result is stored, and has no bounds. -/
theorem Ends.result_stored (stored : run.memo.get? key = some first)
    (bare : first.clearBounds = first) :
    after.memo.get? key = some result ∧ result.clearBounds = result := by
  cases ends with
  | stable growing still fewer trace announces =>
      obtain ⟨storedEnd, bareEnd, -⟩ := trace.stored stored bare
      exact ⟨(Analysis.emit_still announces).2 ▸ storedEnd, bareEnd⟩
  | @givenUp passes known left announced growing full trace announces =>
      obtain ⟨storedEnd, bareEnd, -⟩ := trace.stored stored bare
      have raised : Variable.clearBounds { known with sign := .top } =
          { known with sign := .top } :=
        congrArg (fun v : Variable => { v with sign := .top }) bareEnd
      refine ⟨?_, raised⟩
      -- What is known is not stored again if it is top already.
      split
      case isTrue top =>
        rw [(Analysis.emit_still announces).2, storedEnd, ← top]
      case isFalse => exact Memo.get?_insert.trans (by rw [if_pos rfl, raised])

/-- What is known in the end is top, or the last pass has started with it and has returned no
more. -/
theorem Ends.confirmed (stored : run.memo.get? key = some first)
    (bare : first.clearBounds = first) :
    result.sign = .top ∨ ∃ last, passes.getLast? = some last ∧ last.known.sign = result.sign ∧
      last.start.memo.get? key = some last.known ∧ last.returned.sign ≤ result.sign := by
  cases ends with
  | givenUp => exact .inl rfl
  | @stable passes last result left after growing still fewer trace announces =>
      have small : last.returned.sign ≤ last.known.sign := not_not.mp still
      have same : last.known.sign = result.sign := by
        rw [trace.last.1]
        exact (Sign.join_of_le small).symm
      obtain ⟨-, -, each⟩ := trace.stored stored bare
      exact .inr ⟨last, List.getLast?_concat, same, each last (by simp), same ▸ small⟩

end

/-- What the analysis of a method comes to that its first pass has found to be recursive. -/
theorem analyzeMethod_ends {depth : Nat} {run between after : Run} {first result : Variable}
    (fresh : run.inProgress.contains body.key = false)
    (passed : analyzeOnce setting (analyzeMethod setting depth) body run = .ok first between)
    (recursive : between.recursive.contains body.key = true)
    (success : analyzeMethod setting (depth + 1) body run = .ok result after) :
    ∃ stable passes, Ends setting body.key (analyzeOnce setting (analyzeMethod setting depth) body)
      setting.limits.recursionPasses first (between.unmark body.key)
        stable passes result after := by
  obtain ⟨first', between', passed', settled | ⟨-, -, repeated⟩⟩ := stabilise_eq_ok success
  · obtain ⟨rfl, rfl⟩ := EStateM.Result.ok.inj (passed.symm.trans passed')
    rw [(analyzeOnce_stores fresh passed).2.2, recursive] at settled
    simp at settled
  · obtain ⟨rfl, rfl⟩ := EStateM.Result.ok.inj (passed.symm.trans passed')
    exact repeatUntilStable_ends repeated

/-- The pass starts with a result of the given sign stored, which every call of the method to itself
yields, and it returns no more than that. -/
structure Confirms (setting : Setting) (depth : Nat) (body : Body) (pass : Reanalysis)
    (sign : Sign) : Prop where
  known : pass.known.sign = sign
  start : pass.start.memo.get? body.key = some pass.known
  during : ∀ s t, Begins setting body pass.start s →
    Within setting body (analyzeMethod setting depth) s t →
    t.run.memo.get? body.key = some pass.known
  returned : pass.returned.sign ≤ sign

/-- The analysis of a method that turns out to be recursive makes some more passes over it. Its
result is stored and has no bounds, it admits what each of the passes has returned, and it is top or
confirmed by the last of them, for any limit. In an analysis, and wherever else no impossible result
is stored, there are three more passes at most, so that with a limit of three or more the last one
returns nothing new. -/
theorem recursion_stabilises {depth : Nat} {run between after : Run} {first result : Variable}
    (fresh : run.inProgress.contains body.key = false)
    (passed : analyzeOnce setting (analyzeMethod setting depth) body run = .ok first between)
    (recursive : between.recursive.contains body.key = true)
    (success : analyzeMethod setting (depth + 1) body run = .ok result after) :
    ∃ stable passes,
      Ends setting body.key (analyzeOnce setting (analyzeMethod setting depth) body)
        setting.limits.recursionPasses first (between.unmark body.key) stable passes result after ∧
      (after.memo.get? body.key = some result ∧ result.below = ∅ ∧ result.atMost = ∅) ∧
      (first.sign ≤ result.sign ∧ ∀ pass ∈ passes, pass.returned.sign ≤ result.sign) ∧
      (result.sign = .top ∨ ∃ last, passes.getLast? = some last ∧
        Confirms setting depth body last result.sign) ∧
      (run.memo.Possible ∨ setting.Analyses (depth + 1) body run →
        passes.length ≤ 3 ∧ (3 ≤ setting.limits.recursionPasses → stable = true)) := by
  obtain ⟨stable, passes, ends⟩ := analyzeMethod_ends fresh passed recursive success
  obtain ⟨stored, bare, -⟩ := analyzeOnce_stores fresh passed
  obtain ⟨storedEnd, bareEnd⟩ := ends.result_stored stored bare
  refine ⟨stable, passes, ends, ⟨storedEnd, ?_, ?_⟩, ends.sign_le, ?_, fun context => ?_⟩
  · exact congrArg Variable.below bareEnd.symm
  · exact congrArg Variable.atMost bareEnd.symm
  · refine (ends.confirmed stored bare).imp_right fun ⟨last, final, known, start, returned⟩ =>
      ⟨last, final, ?_⟩
    exact ⟨known, start, fun s t begins within => begins.stored start within, returned⟩
  · have possible : run.memo.Possible :=
      context.elim id fun analyses => (analyses.keeps (lasts_possible setting) results_possible).2
    exact ends.length_le (analyzeOnce_possible possible passed)

end Interpreter

open Interpreter

/-! ## A method that calls itself -/

/-- Returns zero, or the result for a smaller number if it is not negative, and else one. -/
def countdownMethod : Method :=
  { name := "countdown", descriptor := "(I)I", access := ⟨8⟩
    instructions :=
      #[.load .int 0, .branch (.zero .gt) 4, .const (.int 0), .ret (some .int), .load .int 0,
        .const (.int 1), .arithmetic .sub .int, .invoke .static "demo/Count" "countdown" "(I)I",
        .store .int 1, .load .int 1,
        .branch (.zero .lt) 13, .load .int 1, .ret (some .int), .const (.int 1), .ret (some .int)] }

def countdownBody : Body :=
  { owner := { name := "demo/Count", methods := [countdownMethod] }, method := countdownMethod }

def countdownSetting : Setting :=
  { repository := ({} : Repository).addAll [countdownBody.owner], analyzed := ["demo/Count"] }

/-- The first pass finds that the method calls itself, and another pass confirms that its results
are not negative. -/
theorem countdown_stabilises :
    ({} : Run).inProgress.contains countdownBody.key = false ∧ ∃ first between result after,
      analyzeOnce countdownSetting (analyzeMethod countdownSetting 1) countdownBody {} =
        .ok first between ∧
      between.recursive.contains countdownBody.key = true ∧
      analyzeMethod countdownSetting 2 countdownBody {} = .ok result after ∧
      result.sign = .nonNegative ∧ after.memo.get? countdownBody.key = some result ∧
      ∃ passes last,
        Ends countdownSetting countdownBody.key
          (analyzeOnce countdownSetting (analyzeMethod countdownSetting 1) countdownBody)
          16 first (between.unmark countdownBody.key) true passes result after ∧
        passes.length ≤ 3 ∧ passes.getLast? = some last ∧
        Confirms countdownSetting 1 countdownBody last .nonNegative := by
  obtain ⟨first, between, passed, recursive⟩ :=
    Analysis.exists_of_okAnd (fun _ between => between.recursive.contains countdownBody.key)
      (analyzeOnce countdownSetting (analyzeMethod countdownSetting 1) countdownBody {})
      (by decide +kernel)
  obtain ⟨result, after, success, checked⟩ :=
    Analysis.exists_of_okAnd (fun result _ => result.sign = .nonNegative)
      (analyzeMethod countdownSetting 2 countdownBody {}) (by decide +kernel)
  have sign := of_decide_eq_true checked
  have possible : ({} : Run).memo.Possible := (lasts_possible countdownSetting).start
  obtain ⟨stable, passes, ends, ⟨stored, -⟩, -, confirmed, few⟩ :=
    recursion_stabilises rfl passed recursive success
  obtain ⟨short, settled⟩ := few (.inl possible)
  obtain rfl := settled (by decide)
  obtain top | ⟨last, final, confirms⟩ := confirmed
  · exact Sign.noConfusion (sign.symm.trans top)
  · exact ⟨rfl, first, between, result, after, passed, recursive, success, sign, stored, passes,
      last, ends, short, final, sign ▸ confirms⟩

end ArrayBounds
