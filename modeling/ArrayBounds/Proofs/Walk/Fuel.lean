import ArrayBounds.Proofs.Walk.Follows

/-! # The bound on the number of steps

Every part of a walk is a walk through a smaller range: one that ends earlier, or that ends at the
same place and starts later. `ArrayBounds.Interpreter.extent` counts the ranges below a given one.
Two walks with at least so many steps left are equal (`ArrayBounds.Interpreter.interpret_congr`),
and the bound that the interpreter starts with is never reached: the walk through a method satisfies
the equations of a walk without any bound (`ArrayBounds.Interpreter.walk_step`).

That a range to be repeated is smaller is a property of the frames on the way: a path that ends in a
jump has moved on since its branch, and has not left the range around it.
-/

namespace ArrayBounds.Interpreter

open Program

/-- The number of steps that a walk from `first` to `last` can take at most, in a method of `size`
instructions. -/
def extent (size first last : Nat) : Nat :=
  if last < first ∨ size ≤ first then 0 else min last (size - 1) * size + (size - first)

/-- A range inside of another one that starts later is smaller. -/
theorem extent_lt_of_later {size first last first' last' : Nat} (inside : first < size)
    (reach : first ≤ last) (later : first < first') (within : last' ≤ last) :
    extent size first' last' < extent size first last := by
  have ends : min last' (size - 1) * size ≤ min last (size - 1) * size :=
    Nat.mul_le_mul_right _ (by omega)
  unfold extent
  split <;> split <;> omega

/-- A range that ends earlier is smaller, wherever it starts. -/
theorem extent_lt_of_earlier {size first last first' last' : Nat} (inside : first < size)
    (reach : first ≤ last) (earlier : last' < last) (within : last' + 1 < size) :
    extent size first' last' < extent size first last := by
  have ends : (last' + 1) * size ≤ min last (size - 1) * size := Nat.mul_le_mul_right _ (by omega)
  have next : (last' + 1) * size = last' * size + size := by rw [Nat.add_mul, Nat.one_mul]
  have cut : min last' (size - 1) * size = last' * size := by rw [Nat.min_eq_left (by omega)]
  unfold extent
  split <;> split <;> omega

/-- The extent of a walk is at most quadratic in the size of the method. -/
private theorem extent_le (size first last : Nat) : extent size first last ≤ size * (size + 1) := by
  have ends : min last (size - 1) * size ≤ size * size := Nat.mul_le_mul_right _ (by omega)
  have whole : size * (size + 1) = size * size + size := by rw [Nat.mul_add, Nat.mul_one]
  unfold extent
  split <;> omega

variable {setting : Setting} {body : Body} {callee : Callee}

/-! ## Where a path with a pending jump stands -/

/-- Nothing has to be observed. -/
theorem observation_true : Observation setting body callee fun _ _ _ => True where
  trans _ _ := trivial
  same _ _ := trivial
  reached _ := trivial
  emitted _ _ := trivial
  refl _ := trivial
  counted _ _ := trivial
  reported _ _ := trivial
  called _ _ := trivial

/-- A walk moves within its range. -/
def Moves (size : Nat) (walk : Walk) : Prop :=
  ∀ first last f before g after, walk first last f before = .ok g after →
    g.control = f.control ∨ first ≤ g.pc ∧ g.pc ≤ last ∧ g.pc < size

/-- A walk moves within the instructions, whatever its fuel. -/
theorem moves_interpret (fuel : Nat) :
    Moves body.method.instructions.size (interpret setting body callee fuel) := by
  intro first last f before g after success
  obtain ⟨s, swept, ended, -⟩ := interpret_follows observation_true fuel _ _ _ _ _ _ success
  have thorough := Sweep.isThorough_run _ _ _ _ _ _ _ swept
  by_cases empty : last < first ∨ body.method.instructions.size ≤ first
  · rw [ended, thorough.2 empty]
    exact .inl rfl
  · have covers := thorough.1 (by omega) (by omega)
    rw [← Frame.control_pc, ended]
    exact .inr ⟨covers.le_pc _ covers.first_mem, covers.pc_le_last, covers.pc_lt_size⟩

/-- A path that started without a pending jump and has one now has moved. -/
theorem Moves.pending {size : Nat} {walk : Walk} (moves : Moves size walk)
    {first last back : Nat} {f g : Frame} {before after : Run}
    (success : walk first last f before = .ok g after) (start : f.pendingJump = none)
    (pending : g.pendingJump = some back) : first ≤ g.pc ∧ g.pc ≤ last ∧ g.pc < size := by
  obtain same | moved := moves _ _ _ _ _ _ success
  · rw [← Frame.control_pendingJump, same, Frame.control_pendingJump, start] at pending
    cases pending
  · exact moved

/-! ## Walks that agree on smaller ranges -/

section

variable {walk walk' : Walk} {size pc last : Nat}

/-- Two walks agree on every range that is smaller than the given one. -/
def AgreeBelow (size first last : Nat) (walk walk' : Walk) : Prop :=
  ∀ first' last', extent size first' last' < extent size first last →
    walk first' last' = walk' first' last'

/-- A loop that a jump back closes needs only smaller walks. -/
private theorem jumpLoop_congr (agree : AgreeBelow size pc last walk walk') (inside : pc < size)
    (reach : pc ≤ last) {back : Nat} {f : Frame} (moved : pc < f.pc ∧ f.pc ≤ last ∧ f.pc < size) :
    jumpLoop setting body walk back last f = jumpLoop setting body walk' back last f := by
  have smaller : extent size back (min (f.pc - 1) last) < extent size pc last :=
    extent_lt_of_earlier inside reach (by omega) (by omega)
  rw [jumpLoop_eq, jumpLoop_eq, agree _ _ smaller]

/-- The arm that is taken needs only smaller walks. -/
private theorem takenArm_congr (agree : AgreeBelow size pc last walk walk')
    (moves : Moves size walk) (inside : pc < size) (reach : pc ≤ last) {target meeting : Nat}
    (ahead : pc < target) {f : Frame} (start : f.pendingJump = none) :
    takenArm setting body walk pc target meeting last f =
      takenArm setting body walk' pc target meeting last f := by
  rw [takenArm_eq, takenArm_eq,
    ← agree _ _ (extent_lt_of_later inside reach ahead (Nat.min_le_right _ _))]
  refine Analysis.bind_congr_ok fun before arm between walking => congrFun ?_ between
  unfold closing
  cases pending : arm.pendingJump with
  | none => rfl
  | some back =>
      have moved : pc < arm.pc ∧ arm.pc ≤ last ∧ arm.pc < size := by
        split at walking
        · have moved := moves.pending walking start pending
          omega
        · obtain ⟨rfl, -⟩ := EStateM.pure_eq_ok_iff.mp walking
          rw [start] at pending
          cases pending
      simp only
      rw [jumpLoop_congr agree inside reach moved]

/-- Both arms of a branch need only smaller walks. -/
private theorem arms_congr (agree : AgreeBelow size pc last walk walk') (moves : Moves size walk)
    (inside : pc < size) (reach : pc ≤ last) {target : Nat} (ahead : pc < target)
    {taken through : Frame}
    (moved : ∀ meeting, through.pendingJump = some meeting → pc < through.pc ∧ through.pc ≤ last ∧
      through.pc < size) :
    arms setting body walk pc target last taken through =
      arms setting body walk' pc target last taken through := by
  unfold arms
  cases pending : through.pendingJump with
  | none => rfl
  | some meeting =>
      simp only [takenArm_congr agree moves inside reach ahead
        (f := (taken.drawAfter through).fork) rfl, jumpLoop_congr agree inside reach
        (moved _ pending)]

/-- A loop that a branch back closes needs only smaller walks. -/
private theorem branchLoop_congr (agree : AgreeBelow size pc last walk walk') (inside : pc < size)
    (reach : pc ≤ last) {condition : Condition} {target : Nat} {f : Frame} (here : f.pc = pc) :
    branchLoop setting body walk condition target f =
      branchLoop setting body walk' condition target f := by
  have same : branchPass walk condition target f.pc = branchPass walk' condition target f.pc := by
    unfold branchPass
    by_cases back : target < f.pc
    · have smaller : extent size target (f.pc - 1) < extent size pc last :=
        extent_lt_of_earlier inside reach (by omega) (by omega)
      simp only [agree _ _ smaller]
    · simp only [back, ↓reduceIte]
  rw [branchLoop_eq, branchLoop_eq, same]

/-- A branch needs only smaller walks. -/
private theorem branch_congr (agree : AgreeBelow size pc last walk walk') (moves : Moves size walk)
    (inside : pc < size) (reach : pc ≤ last) {condition : Condition} {target : Nat} {f : Frame}
    (here : f.pc = pc) :
    branch setting body walk last condition target f =
      branch setting body walk' last condition target f := by
  by_cases back : target ≤ f.pc
  · rw [branch_backward setting body _ last condition back,
      branch_backward setting body _ last condition back, branchLoop_congr agree inside reach here]
  · have ahead : f.pc < target := Nat.lt_of_not_le back
    rw [branch_forward setting body _ last condition ahead,
      branch_forward setting body _ last condition ahead, here, ← agree _ _
      (extent_lt_of_later inside reach (Nat.lt_succ_self pc) (Nat.min_le_right _ _))]
    congr 1
    funext popped
    refine Analysis.bind_congr_ok fun before through between walking => congrFun ?_ between
    have start : (popped.2.fork.assumeCondition condition popped.1 false).pendingJump = none := by
      rw [← Frame.control_pendingJump, Frame.control_assumeCondition]
      rfl
    rw [arms_congr agree moves inside reach (here ▸ ahead)]
    intro meeting pending
    have moved := moves.pending walking start pending
    omega

/-- An instruction needs only smaller walks. -/
private theorem step_congr (agree : AgreeBelow size pc last walk walk') (moves : Moves size walk)
    (inside : pc < size) (reach : pc ≤ last) {instruction : Instruction} {f : Frame}
    (here : f.pc = pc) :
    step setting body callee walk last instruction f =
      step setting body callee walk' last instruction f := by
  cases instruction with
  | branch condition target =>
      rw [step_branch, step_branch, branch_congr agree moves inside reach here]
  | ret kind => cases kind <;> rfl
  | _ => rfl

end

/-! ## The bound is never reached -/

/-- A walk that goes on after an instruction goes on behind it. -/
theorem lt_of_resume {fuel last position : Nat} {instruction : Instruction} {f g : Frame}
    {before after : Run} (found : body.method.instructions[f.pc]? = some instruction)
    (reach : f.pc ≤ last)
    (stepped : step setting body callee (interpret setting body callee fuel)
      last instruction f before = .ok (.resume position g) after) : f.pc < position := by
  have thorough := Sweep.isThorough_run body.method.instructions setting.limits.loopPasses fuel
  obtain ⟨hop, hopped, ⟨next, -⟩, -⟩ :=
    step_follows observation_true (interpret_follows observation_true fuel) thorough stepped
  have covers := thorough.step (c := f.control) found reach hopped
  have moved := covers.le_pc f.pc (List.mem_cons_self ..)
  have ahead := covers.lt_next position next
  omega

/-- The number of steps that are left does not matter as long as they suffice. -/
theorem interpret_congr {fuel fuel' first last : Nat}
    (enough : extent body.method.instructions.size first last ≤ fuel)
    (enough' : extent body.method.instructions.size first last ≤ fuel') :
    interpret setting body callee fuel first last =
      interpret setting body callee fuel' first last := by
  induction fuel generalizing fuel' first last with
  | zero =>
      have empty : last < first ∨ body.method.instructions.size ≤ first := by
        unfold extent at enough
        split at enough <;> omega
      funext f
      rw [interpret_empty setting body callee _ f empty,
        interpret_empty setting body callee _ f empty]
  | succ fuel ih =>
      by_cases empty : last < first ∨ body.method.instructions.size ≤ first
      case pos =>
        funext f
        rw [interpret_empty setting body callee _ f empty,
          interpret_empty setting body callee _ f empty]
      case neg =>
        have inside : first < body.method.instructions.size := by omega
        have reach : first ≤ last := by omega
        have found := Array.getElem?_eq_getElem inside
        obtain ⟨fuel', rfl⟩ : ∃ rest, fuel' = rest + 1 :=
          Nat.exists_eq_succ_of_ne_zero (by unfold extent at enough'; split at enough' <;> omega)
        have agree : AgreeBelow body.method.instructions.size first last
            (interpret setting body callee fuel)
            (interpret setting body callee fuel') :=
          fun first' last' smaller => ih (by omega) (by omega)
        funext f
        rw [interpret_step setting body callee fuel f found reach,
          interpret_step setting body callee fuel' f found reach,
          ← step_congr agree (moves_interpret fuel) inside reach rfl]
        refine Analysis.bind_congr_ok fun before flow between stepped => congrFun ?_ between
        cases flow with
        | next g =>
            exact congrFun
              (agree _ _
                (extent_lt_of_later inside reach (Nat.lt_succ_self first) (Nat.le_refl last))) g
        | resume position g =>
            have later : first < position :=
              lt_of_resume (f := { f with pc := first }) found reach stepped
            exact congrFun (agree _ _ (extent_lt_of_later inside reach later (Nat.le_refl last))) g
        | leave g => rfl

/-! ## Walks without a bound -/

variable (setting body callee)

/-- The walk through a method, with as many steps as any part of it needs. -/
def walk : Walk :=
  interpret setting body callee (fuel body)

/-- A body is walked through from its first instruction to the last one. -/
theorem interpretBody_eq (f : Frame) :
    interpretBody setting body callee f =
      walk setting body callee 0 (body.method.instructions.size - 1) f := rfl

/-- A walk through an empty range does nothing. -/
theorem walk_empty {first last : Nat} (f : Frame)
    (empty : last < first ∨ body.method.instructions.size ≤ first) :
    walk setting body callee first last f = pure f :=
  interpret_empty setting body callee _ f empty

/-- A walk takes the first instruction of its range and goes on from there, and neither part is
short of steps. -/
theorem walk_step {first last : Nat} (f : Frame) {instruction : Instruction}
    (found : body.method.instructions[first]? = some instruction) (reach : first ≤ last) :
    walk setting body callee first last f =
      step setting body callee (walk setting body callee) last instruction
        { f with pc := first } >>= continueAt (walk setting body callee) first last := by
  have enough : extent body.method.instructions.size first last ≤ fuel body :=
    Nat.le_succ_of_le (extent_le _ first last)
  unfold walk
  rw [interpret_congr enough (Nat.le_succ_of_le enough),
    interpret_step setting body callee _ f found reach]

/-- What holds of doing nothing, and of each instruction followed by the rest if it holds of all
walks that are made on the way, holds of every walk. -/
theorem walk_induction (good : Frame → Analysis Frame → Prop) (stay : ∀ f, good f (pure f))
    (each : ∀ parts : Walk, (∀ first last f, good f (parts first last f)) →
      ∀ first last f instruction, body.method.instructions[first]? = some instruction →
      first ≤ last →
      good f (step setting body callee parts last instruction { f with pc := first } >>=
      continueAt parts first last))
    (first last : Nat) (f : Frame) : good f (walk setting body callee first last f) := by
  induction size : extent body.method.instructions.size first last using Nat.strongRecOn
      generalizing first last f with
  | ind _ ih =>
      subst size
      by_cases empty : last < first ∨ body.method.instructions.size ≤ first
      case pos =>
        rw [walk_empty setting body callee f empty]
        exact stay f
      case neg =>
        have inside : first < body.method.instructions.size := by omega
        have reach : first ≤ last := by omega
        have found := Array.getElem?_eq_getElem inside
        -- Only smaller ranges matter, so the walks through other ranges may be replaced by
        -- something good.
        let parts : Walk := fun first' last' =>
          if extent body.method.instructions.size first' last' <
            extent body.method.instructions.size first last then
              walk setting body callee first' last'
          else pure
        have agree :
            AgreeBelow body.method.instructions.size first last (walk setting body callee) parts :=
          fun first' last' smaller => (if_pos smaller).symm
        have goodParts (first' last' : Nat) (g : Frame) : good g (parts first' last' g) := by
          by_cases smaller : extent body.method.instructions.size first' last' <
              extent body.method.instructions.size first last
          · rw [← agree first' last' smaller]
            exact ih _ smaller first' last' g rfl
          · simp only [parts, if_neg smaller]
            exact stay g
        have same : walk setting body callee first last f =
            step setting body callee parts last (body.method.instructions[first])
            { f with pc := first } >>= continueAt parts first last := by
          rw [walk_step setting body callee f found reach,
            ← step_congr agree (moves_interpret _) inside reach rfl]
          refine Analysis.bind_congr_ok fun before flow between stepped => congrFun ?_ between
          cases flow with
          | next g =>
              exact congrFun
                (agree _ _
                  (extent_lt_of_later inside reach (Nat.lt_succ_self first) (Nat.le_refl last))) g
          | resume position g =>
              have later : first < position :=
                lt_of_resume (f := { f with pc := first }) found reach stepped
              exact congrFun
                (agree _ _ (extent_lt_of_later inside reach later (Nat.le_refl last))) g
          | leave g => rfl
        rw [same]
        exact each parts goodParts first last f _ found reach

end ArrayBounds.Interpreter
