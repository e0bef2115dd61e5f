import ArrayBounds.Proofs.Walk.Parts

/-! # Quantities that walks do not lower

Some quantities of a frame only rise. An instruction keeps them, and a join takes them over from
both frames (`ArrayBounds.Interpreter.Persists`). Such a quantity is at its largest at the end of a
walk: every part of a walk that succeeds has succeeded, and has come to a frame in which the
quantity is no larger than in the end (`ArrayBounds.Interpreter.Persists.within`).

There is one exception. A loop that is closed by a branch back is left on the side where the branch
is not taken, and what this side assumes may lower the quantity (`ArrayBounds.Interpreter.Retains`).
-/

namespace ArrayBounds.Interpreter

open Program

variable {setting : Setting} {body : Body} {callee : Callee} {s t : Stretch}

/-- Runs of which nothing is known are respected by everything. -/
theorem respects_true (setting : Setting) (callee : Callee) :
    Respects setting callee (fun _ => True) (fun _ => True) fun _ => True where
  same _ _ _ := trivial
  stored _ _ := trivial
  errors _ _ := trivial
  resolved _ := trivial
  called _ _ _ := ⟨fun _ _ _ => ⟨trivial, trivial⟩, fun _ _ _ => trivial⟩

/-- The parts of a walk that starts from a closed frame start from closed frames. -/
theorem Part.closed (part : Part setting body callee s t) (closed : s.frame.Closed) :
    t.frame.Closed :=
  (part.keeps Frame.invariant_closed (respects_true setting callee) closed trivial).1

/-- A quantity of the frames with the property `F` that instructions keep and joins take over from
both frames. Where a condition is assumed, it is kept on one of the two sides at least. -/
structure Persists (F : Frame → Prop) (size : Frame → Nat) : Prop where
  frames : Frame.Invariant F fun _ => True
  moved : ∀ (f : Frame) (pc : Nat), size { f with pc } = size f
  forked : ∀ f : Frame, size f.fork = size f
  drawn : ∀ f g : Frame, size f ≤ size (f.drawAfter g)
  popped : ∀ {f g : Frame} {count : Nat} {ids : List VarId}, F f → f.popN count = .ok (ids, g) →
    size f ≤ size g
  assumed : ∀ (f : Frame) (condition : Condition) (operands : List VarId),
    size f ≤ size (f.assumeCondition condition operands true) ∨
      size f ≤ size (f.assumeCondition condition operands false)
  joined : ∀ {f g : Frame}, F f → F g → size f ≤ size (f.join g).1 ∧ size g ≤ size (f.join g).1
  recorded : ∀ {f g : Frame} {id : VarId}, F f → f.pop = .ok (id, g) →
    size f ≤ size (g.recordReturn id)
  proceeded : ∀ {setting : Setting} {body : Body} {callee : Callee} {instruction : Instruction}
    {f g : Frame} {before after : Run}, F f →
    proceed setting body callee instruction f before = .ok g after → size f ≤ size g

/-! ## How the paths from a branch meet -/

variable (setting body callee)

/-- How the two paths from a branch come to the frames that are joined where they meet. The path on
which the branch is not taken has come to the frame `through`. -/
inductive Meets (s : Stretch) (condition : Condition) (target : Nat) (operands : List VarId)
    (popped through : Frame) (between : Run) : Frame → Frame → Run → Prop where
  | straight (pending : through.pendingJump = none) :
      Meets s condition target operands popped through between
        (popped.assumeCondition condition operands true) through between
  | back {meeting : Nat} {looped : Frame} {after : Run}
      (pending : through.pendingJump = some meeting) (behind : meeting ≤ s.first)
      (looping : jumpLoop setting body (walk setting body callee) meeting s.last through between =
        .ok looped after) :
      Meets s condition target operands popped through between
        (popped.assumeCondition condition operands true) looped after
  | skip {meeting : Nat} {announced : Run} (pending : through.pendingJump = some meeting)
      (later : s.first < meeting)
      (announces : Analysis.emit setting (.armsFound body.key s.first target meeting) between =
        .ok () announced)
      (outside : meeting ≤ target) :
      Meets s condition target operands popped through between
        ((popped.assumeCondition condition operands true).drawAfter through).fork through announced
  | arm {meeting : Nat} {arm ended : Frame} {announced walked after : Run}
      (pending : through.pendingJump = some meeting) (later : s.first < meeting)
      (announces : Analysis.emit setting (.armsFound body.key s.first target meeting) between =
        .ok () announced)
      (inside : target < meeting)
      (walking : outcome setting body callee
        (s.taken condition target meeting operands popped through announced) = .ok arm walked)
      (closing : closing setting body (walk setting body callee) s.first s.last arm walked =
        .ok ended after) :
      Meets s condition target operands popped through between ended through after

variable {setting body callee}

/-- Walking through the arms of a branch leads to a meeting. -/
theorem meets_of_arms {condition : Condition} {target : Nat} {operands : List VarId}
    {popped through : Frame} {paths : Frame × Frame} {between after : Run}
    (success : arms setting body (walk setting body callee) s.first target s.last
      (popped.assumeCondition condition operands true) through between = .ok paths after) :
    Meets setting body callee s condition target operands popped through between paths.1 paths.2
      after := by
  unfold arms at success
  cases pending : through.pendingJump with
  | none =>
      simp only [pending] at success
      obtain ⟨rfl, rfl⟩ := EStateM.pure_eq_ok_iff.mp success
      exact .straight pending
  | some meeting =>
      simp only [pending] at success
      split at success
      case isFalse earlier =>
        obtain ⟨looped, _, looping, success⟩ := EStateM.bind_eq_ok_iff.mp success
        obtain ⟨rfl, rfl⟩ := EStateM.pure_eq_ok_iff.mp success
        exact .back pending (Nat.le_of_not_lt earlier) looping
      case isTrue later =>
        obtain ⟨_, announced, announces, success⟩ := EStateM.bind_eq_ok_iff.mp success
        obtain ⟨ended, _, walking, success⟩ := EStateM.bind_eq_ok_iff.mp success
        obtain ⟨rfl, rfl⟩ := EStateM.pure_eq_ok_iff.mp success
        rw [takenArm_eq] at walking
        obtain ⟨arm, walked, walking, closing⟩ := EStateM.bind_eq_ok_iff.mp walking
        split at walking
        case isTrue inside => exact .arm pending later announces inside walking closing
        case isFalse outside =>
          obtain ⟨rfl, rfl⟩ := EStateM.pure_eq_ok_iff.mp walking
          obtain ⟨rfl, rfl⟩ := EStateM.pure_eq_ok_iff.mp closing
          exact .skip pending later announces (Nat.le_of_not_lt outside)

section

variable {condition : Condition} {target : Nat} {operands : List VarId} {popped : Frame}
  {run after : Run} {flow : Flow}
  (forks : Forks setting body s condition target operands popped run)
  (stepped : step setting body callee (walk setting body callee) s.last (.branch condition target)
    s.entry s.run = .ok flow after)
include forks stepped

/-- A branch ahead walks through its first arm and then through the second one, and joins what the
two paths come to. -/
theorem Forks.arms :
    ∃ through between left right,
      outcome setting body callee (s.through condition target operands popped run) =
        .ok through between ∧
      Interpreter.arms setting body (walk setting body callee) s.first target s.last
        (popped.assumeCondition condition operands true) through between = .ok (left, right) after ∧
      flow.frame = (left.join right).1 := by
  rw [step_branch] at stepped
  obtain ⟨_, run', announced, success⟩ := EStateM.bind_eq_ok_iff.mp stepped
  obtain ⟨-, rfl⟩ := EStateM.Result.ok.inj (announced.symm.trans forks.announced)
  rw [branch_forward setting body _ _ condition forks.ahead] at success
  obtain ⟨popped', _, lifted, success⟩ := EStateM.bind_eq_ok_iff.mp success
  obtain ⟨popping, rfl⟩ := Analysis.lift_eq_ok_iff.mp lifted
  obtain rfl := Except.ok.inj (popping.symm.trans forks.popping)
  obtain ⟨through, between, walked, success⟩ := EStateM.bind_eq_ok_iff.mp success
  obtain ⟨paths, met, walking, success⟩ := EStateM.bind_eq_ok_iff.mp success
  obtain ⟨rfl, rfl⟩ := EStateM.pure_eq_ok_iff.mp success
  exact ⟨through, between, paths.1, paths.2, walked, walking, rfl⟩

/-- A branch that succeeds joins the frames that its two sides come to. -/
theorem Forks.meets :
    ∃ through between left right,
      outcome setting body callee (s.through condition target operands popped run) =
        .ok through between ∧
      Meets setting body callee s condition target operands popped through between
        left right after ∧
      flow.frame = (left.join right).1 := by
  obtain ⟨through, between, left, right, walked, walking, same⟩ := forks.arms stepped
  exact ⟨through, between, left, right, walked, meets_of_arms walking, same⟩

end

/-! ## Going on behind an instruction -/

/-- What comes behind the first instruction decides what a walk comes to. -/
theorem Next.outcome_eq (next : Next setting body callee s t) :
    outcome setting body callee s = outcome setting body callee t := by
  unfold outcome
  cases next with
  | onward found reach stepped =>
      rw [walk_step setting body callee s.frame found reach, Analysis.bind_eq_andThen]
      change Analysis.andThen _
        (step setting body callee (walk setting body callee) s.last _ s.entry s.run) = _
      rw [stepped]
      rfl
  | ahead found reach stepped =>
      rw [walk_step setting body callee s.frame found reach, Analysis.bind_eq_andThen]
      change Analysis.andThen _
        (step setting body callee (walk setting body callee) s.last _ s.entry s.run) = _
      rw [stepped]
      rfl

/-- A walk that succeeds has executed its first instruction and gone on from there. -/
theorem outcome_step {instruction : Instruction} {g : Frame} {after : Run}
    (found : body.method.instructions[s.first]? = some instruction) (reach : s.first ≤ s.last)
    (walked : outcome setting body callee s = .ok g after) :
    ∃ flow between,
      step setting body callee (walk setting body callee) s.last instruction s.entry s.run =
        .ok flow between ∧
      continueAt (walk setting body callee) s.first s.last flow between = .ok g after := by
  unfold outcome at walked
  rw [walk_step setting body callee s.frame found reach] at walked
  exact EStateM.bind_eq_ok_iff.mp walked

/-- Behind an instruction a walk goes on with the next part, unless the path has ended. -/
theorem next_or_leave {instruction : Instruction} {flow : Flow} {g : Frame} {between after : Run}
    (found : body.method.instructions[s.first]? = some instruction) (reach : s.first ≤ s.last)
    (stepped :
      step setting body callee (walk setting body callee) s.last instruction s.entry s.run =
      .ok flow between)
    (continued : continueAt (walk setting body callee) s.first s.last flow between = .ok g after) :
    flow = .leave g ∨ ∃ t, Next setting body callee s t ∧ t.frame = flow.frame := by
  cases flow with
  | next f => exact .inr ⟨_, .onward found reach stepped, rfl⟩
  | resume position f => exact .inr ⟨_, .ahead found reach stepped, rfl⟩
  | leave f =>
      obtain ⟨rfl, -⟩ := EStateM.pure_eq_ok_iff.mp continued
      exact .inl rfl

/-- A pass over a loop has succeeded, and the quantity is within the bound in front of it, behind it
and where the two frames are joined. -/
def PassBelow (size : Frame → Nat) (pass : Frame → Analysis Frame) (f : Frame) (run : Run)
    (bound : Nat) : Prop :=
  size f ≤ bound ∧ ∃ g after, pass f.fork run.countPass = .ok g after ∧ size g ≤ bound ∧
    size (f.join g).1 ≤ bound

/-- A larger bound will do as well. -/
theorem PassBelow.mono {size : Frame → Nat} {pass : Frame → Analysis Frame} {f : Frame} {run : Run}
    {bound bound' : Nat} (below : PassBelow size pass f run bound) (le : bound ≤ bound') :
    PassBelow size pass f run bound' := by
  obtain ⟨front, g, after, passed, behind, joined⟩ := below
  exact ⟨front.trans le, g, after, passed, behind.trans le, joined.trans le⟩

namespace Persists

variable {F : Frame → Prop} {size : Frame → Nat} (persists : Persists F size)
include persists

/-! ## Frames -/

/-- Walks keep the property of frames that the quantity relies on. -/
theorem keeps_walk (first last : Nat) (f : Frame) (here : F f) :
    Analysis.Keeps (fun _ => True) (fun _ => True) (walk setting body callee first last f) F :=
  Interpreter.keeps_walk persists.frames (respects_true setting callee) here first last

private theorem of_outcome {g : Frame} {after : Run} (here : F t.frame)
    (walked : outcome setting body callee t = .ok g after) : F g :=
  (outcome_keeps persists.frames (respects_true setting callee) walked here trivial).1

private theorem of_part (part : Part setting body callee s t) (here : F s.frame) : F t.frame :=
  (part.keeps persists.frames (respects_true setting callee) here trivial).1

private theorem of_assumed {f : Frame} (here : F f) (condition : Condition) (operands : List VarId)
    (holds : Bool) : F (f.assumeCondition condition operands holds) :=
  persists.frames.assumed here condition operands holds

/-! ## Loops -/

/-- A loop takes over the quantity of its frame, and of what each of its passes comes to. -/
theorem untilStable {pass : Frame → Analysis Frame}
    (each : ∀ f, F f → Analysis.Keeps (fun _ => True) (fun _ => True) (pass f) F)
    {giveUp : Analysis Unit} {limit : Nat} {f g : Frame} {run after : Run} (here : F f)
    (success : Interpreter.untilStable pass giveUp limit f run = .ok g after) :
    F g ∧ size f ≤ size g ∧ ∀ h left, Reruns pass limit f run h left →
      PassBelow size pass h left (size g) := by
  induction limit generalizing f run with
  | zero =>
      obtain ⟨_, _, -, success⟩ := EStateM.bind_eq_ok_iff.mp success
      obtain ⟨rfl, -⟩ := EStateM.pure_eq_ok_iff.mp success
      exact ⟨here, Nat.le_refl _,
        fun h left ⟨flags, _, fewer, _⟩ => absurd fewer (Nat.not_lt_zero _)⟩
  | succ limit ih =>
      rw [untilStable_succ] at success
      cases passed : pass f.fork run.countPass with
      | error error final =>
          rw [passed] at success
          cases success
      | ok next between =>
          rw [passed] at success
          have there : F next := ((each f.fork (persists.frames.forked here)).ok trivial passed).1
          have both : F (f.join next).1 := persists.frames.joined here there
          obtain ⟨joined, joined'⟩ := persists.joined here there
          dsimp only [Analysis.andThen] at success
          cases changed : (f.join next).2 with
          | false =>
              rw [changed] at success
              obtain ⟨rfl, rfl⟩ := EStateM.pure_eq_ok_iff.mp success
              refine ⟨both, joined, fun h left ⟨flags, changing, _, passes⟩ => ?_⟩
              cases passes with
              | none => exact ⟨joined, next, between, passed, joined', Nat.le_refl _⟩
              | more passed' rest =>
                  obtain ⟨rfl, rfl⟩ := EStateM.Result.ok.inj (passed.symm.trans passed')
                  rw [changed] at changing
                  exact absurd (changing false List.mem_cons_self) Bool.false_ne_true
          | true =>
              rw [changed, if_pos rfl] at success
              obtain ⟨ended, rest, others⟩ := ih both success
              have first := Nat.le_trans joined rest
              refine ⟨ended, first, fun h left ⟨flags, changing, fewer, passes⟩ => ?_⟩
              cases passes with
              | none => exact ⟨first, next, between, passed, Nat.le_trans joined' rest, rest⟩
              | more passed' passes =>
                  obtain ⟨rfl, rfl⟩ := EStateM.Result.ok.inj (passed.symm.trans passed')
                  exact others h left
                    ⟨_, fun flag member => changing flag (List.mem_cons_of_mem _ member),
                    Nat.lt_of_succ_lt_succ fewer, passes⟩

end Persists

/-- The passes over the loop that a jump back to `pc` or before closes at the end of a path are
within the bound. -/
def LoopBelow (size : Frame → Nat) (setting : Setting) (body : Body) (callee : Callee)
    (pc last : Nat) (f : Frame) (between : Run) (bound : Nat) : Prop :=
  ∀ back run h left, f.pendingJump = some back → back ≤ pc →
    Analysis.emit setting (.loopFound body.key back (min (f.pc - 1) last)) between = .ok () run →
    Reruns (walk setting body callee back (min (f.pc - 1) last)) setting.limits.loopPasses f run h
      left →
    PassBelow size (walk setting body callee back (min (f.pc - 1) last)) h left bound

/-- A greater bound will do as well. -/
private theorem LoopBelow.mono {size : Frame → Nat} {pc last : Nat} {f : Frame} {between : Run}
    {bound bound' : Nat} (below : LoopBelow size setting body callee pc last f between bound)
    (le : bound ≤ bound') : LoopBelow size setting body callee pc last f between bound' :=
  fun back run h left pending behind announces again =>
    (below back run h left pending behind announces again).mono le

/-- A jump ahead closes no loop. -/
theorem LoopBelow.of_later {size : Frame → Nat} {pc last meeting : Nat} {f : Frame} {between : Run}
    {bound : Nat} (pending : f.pendingJump = some meeting) (later : pc < meeting) :
    LoopBelow size setting body callee pc last f between bound := by
  intro back _ _ _ jumps behind
  obtain rfl := Option.some.inj (pending.symm.trans jumps)
  omega

private theorem LoopBelow.of_none {size : Frame → Nat} {pc last : Nat} {f : Frame}
    {between : Run} {bound : Nat} (pending : f.pendingJump = none) :
    LoopBelow size setting body callee pc last f between bound :=
  fun _ _ _ _ jumps => absurd (pending.symm.trans jumps) nofun

/-- Leaving a loop that a branch back closes at the start of the stretch does not lower the
quantity. -/
def Retains (size : Frame → Nat) (setting : Setting) (body : Body) (callee : Callee) (s : Stretch) :
    Prop :=
  ∀ condition target run stable left exit after,
    Arrives setting body s (.branch condition target) run → target ≤ s.first →
    untilStable (branchPass (walk setting body callee) condition target s.first)
      (loopUnstable setting body target s.first) setting.limits.loopPasses s.entry run =
        .ok stable left →
    assuming condition false { stable with pc := s.first } left = .ok exit after →
      size stable ≤ size exit

/-- Walks through the arms at the start of a stretch do not lower the quantity. -/
def ArmsRetain (size : Frame → Nat) (setting : Setting) (body : Body) (callee : Callee)
    (s : Stretch) : Prop :=
  ∀ t g after, Arm setting body callee s t → outcome setting body callee t = .ok g after →
    size t.frame ≤ size g

namespace Persists

variable {F : Frame → Prop} {size : Frame → Nat} (persists : Persists F size)
include persists

/-- A loop that a jump back closes ends above all of its passes. -/
private theorem jumpLoop {pc back last : Nat} {f g : Frame} {between after : Run} (here : F f)
    (pending : f.pendingJump = some back)
    (looping : Interpreter.jumpLoop setting body (walk setting body callee) back last f between =
      .ok g after) :
    F g ∧ size f ≤ size g ∧ LoopBelow size setting body callee pc last f between (size g) := by
  rw [jumpLoop_eq] at looping
  obtain ⟨_, run, announces, looping⟩ := EStateM.bind_eq_ok_iff.mp looping
  obtain ⟨ended, rises, passes⟩ := persists.untilStable (persists.keeps_walk _ _) here looping
  refine ⟨ended, rises, fun back' run' h left pending' _ announces' again => ?_⟩
  obtain rfl := Option.some.inj (pending.symm.trans pending')
  obtain ⟨-, rfl⟩ := EStateM.Result.ok.inj (announces.symm.trans announces')
  exact passes h left again

/-- Closing a stretch ends above all passes of the loop that it closes. -/
private theorem closing {pc last : Nat} {f g : Frame} {between after : Run} (here : F f)
    (success : Interpreter.closing setting body (walk setting body callee) pc last f between =
      .ok g after) :
    F g ∧ size f ≤ size g ∧ LoopBelow size setting body callee pc last f between (size g) := by
  unfold Interpreter.closing at success
  cases pending : f.pendingJump with
  | none =>
      simp only [pending] at success
      obtain ⟨rfl, -⟩ := EStateM.pure_eq_ok_iff.mp success
      exact ⟨here, Nat.le_refl _, .of_none pending⟩
  | some back =>
      simp only [pending] at success
      split at success
      case isTrue => exact persists.jumpLoop here pending success
      case isFalse ahead =>
        obtain ⟨rfl, -⟩ := EStateM.pure_eq_ok_iff.mp success
        exact ⟨here, Nat.le_refl _, .of_later pending (Nat.lt_of_not_le ahead)⟩

/-! ## Branches ahead -/

section

variable {condition : Condition} {target : Nat} {operands : List VarId}
  {popped through left right : Frame} {run between after : Run}
  (forks : Forks setting body s condition target operands popped run)
  (walked : outcome setting body callee (s.through condition target operands popped run) =
    .ok through between)
  (meets : Meets setting body callee s condition target operands popped through between left right
    after)
  (here : F popped)
include forks walked meets here

/-- Where two paths meet, the quantity is no smaller than at the start of the second one, at the end
of the first one and in the loop behind it. -/
theorem paths (arms : ArmsRetain size setting body callee s) :
    (F left ∧ F right) ∧ size (popped.assumeCondition condition operands true) ≤ size left ∧
      size through ≤ size right ∧
      LoopBelow size setting body callee s.first s.last through between (size right) := by
  have taken := persists.of_assumed here condition operands true
  have passed : F through :=
    persists.of_outcome (persists.of_assumed (persists.frames.forked here) _ _ _) walked
  have drawn := persists.frames.drawn taken through
  have forked := persists.frames.forked drawn
  have drawing : size (popped.assumeCondition condition operands true) ≤
      size ((popped.assumeCondition condition operands true).drawAfter through).fork := by
    rw [persists.forked]
    exact persists.drawn _ _
  cases meets with
  | straight pending => exact ⟨⟨taken, passed⟩, Nat.le_refl _, Nat.le_refl _, .of_none pending⟩
  | back pending behind looping =>
      obtain ⟨ended, rises, loop⟩ := persists.jumpLoop passed pending looping
      exact ⟨⟨taken, ended⟩, Nat.le_refl _, rises, loop⟩
  | skip pending later =>
      exact ⟨⟨forked, passed⟩, drawing, Nat.le_refl _, .of_later pending later⟩
  | arm pending later announces inside walking closing =>
      obtain ⟨ended, rises, -⟩ := persists.closing (persists.of_outcome forked walking) closing
      have started := arms _ _ _ (.taken forks walked pending later inside announces) walking
      exact ⟨⟨ended, passed⟩, Nat.le_trans drawing (Nat.le_trans started rises), Nat.le_refl _,
        .of_later pending later⟩

omit forks walked in
/-- The arm at the target of the branch has been walked through, and the quantity has not sunk where
the paths meet. -/
theorem paths_taken {meeting : Nat} {announced : Run} (pending : through.pendingJump = some meeting)
    (later : s.first < meeting) (inside : target < meeting)
    (announces : Analysis.emit setting (.armsFound body.key s.first target meeting) between =
      .ok () announced) :
    ∃ h final, outcome setting body callee
        (s.taken condition target meeting operands popped through announced) = .ok h final ∧
      size h ≤ size left ∧
      LoopBelow size setting body callee s.first s.last h final (size left) := by
  have same {meeting' : Nat} (pending' : through.pendingJump = some meeting') :
      meeting' = meeting :=
    Option.some.inj (pending'.symm.trans pending)
  cases meets with
  | straight pending' => exact absurd (pending'.symm.trans pending) nofun
  | back pending' behind =>
      obtain rfl := same pending'
      omega
  | skip pending' _ _ outside =>
      obtain rfl := same pending'
      omega
  | arm pending' _ announces' _ walking closing =>
      obtain rfl := same pending'
      obtain ⟨-, rfl⟩ := EStateM.Result.ok.inj (announces'.symm.trans announces)
      have taken := persists.of_assumed here condition operands true
      have forked := persists.frames.forked (persists.frames.drawn taken through)
      obtain ⟨-, below⟩ := persists.closing (persists.of_outcome forked walking) closing
      exact ⟨_, _, walking, below⟩

end

/-! ## Instructions -/

/-- A loop that a branch back closes takes over the quantity of its frame and of its passes. -/
theorem branchLoop {condition : Condition} {target : Nat} {run after : Run} {g : Frame}
    (here : F s.frame) (retains : Retains size setting body callee s)
    (arrives : Arrives setting body s (.branch condition target) run) (back : target ≤ s.first)
    (looping : Interpreter.branchLoop setting body (walk setting body callee)
      condition target s.entry run = .ok g after) :
    size s.frame ≤ size g ∧ ∀ h left,
      Reruns (branchPass (walk setting body callee) condition target s.first)
        setting.limits.loopPasses s.entry run h left →
      PassBelow size (branchPass (walk setting body callee) condition target s.first) h left
        (size g) := by
  rw [branchLoop_eq] at looping
  obtain ⟨stable, left, looping, leaving⟩ := EStateM.bind_eq_ok_iff.mp looping
  have each (f : Frame) (here : F f) : Analysis.Keeps (fun _ => True) (fun _ => True)
      (branchPass (walk setting body callee) condition target s.first f) F :=
    keeps_branchPass persists.frames (respects_true setting callee) persists.keeps_walk here _ _ _
  obtain ⟨-, rises, passes⟩ :=
    persists.untilStable each (persists.frames.moved here s.first) looping
  have kept := retains condition target run stable left g after arrives back looping leaving
  exact ⟨(persists.moved s.frame s.first).ge.trans (Nat.le_trans rises kept),
    fun h left again => (passes h left again).mono kept⟩

/-- A branch ahead does not lower the quantity. -/
theorem forks {condition : Condition} {target : Nat} {operands : List VarId} {popped : Frame}
    {run after : Run} {flow : Flow}
    (forks : Forks setting body s condition target operands popped run) (here : F s.frame)
    (arms : ArmsRetain size setting body callee s)
    (stepped : step setting body callee (walk setting body callee) s.last (.branch condition target)
      s.entry s.run = .ok flow after) : size s.frame ≤ size flow.frame := by
  obtain ⟨through, between, left, right, walked, meets, same⟩ := forks.meets stepped
  have entered := persists.frames.moved here s.first
  have taking := persists.popped entered forks.popping
  obtain ⟨⟨leftHere, rightHere⟩, taken, passed, -⟩ :=
    persists.paths forks walked meets (persists.frames.popped entered forks.popping) arms
  obtain ⟨joined, joined'⟩ := persists.joined leftHere rightHere
  rw [same]
  -- The quantity is kept on one of the two sides.
  refine (persists.moved s.frame s.first).ge.trans (Nat.le_trans taking ?_)
  rcases persists.assumed popped condition operands with kept | kept
  · exact Nat.le_trans kept (Nat.le_trans taken joined)
  · have started := arms _ _ _ (.through forks) walked
    rw [Stretch.through, Frame.fork_assumeCondition, persists.forked] at started
    exact Nat.le_trans kept (Nat.le_trans started (Nat.le_trans passed joined'))

/-- An instruction does not lower the quantity. -/
theorem step {instruction : Instruction} {flow : Flow} {after : Run} (here : F s.frame)
    (retains : Retains size setting body callee s) (arms : ArmsRetain size setting body callee s)
    (found : body.method.instructions[s.first]? = some instruction) (reach : s.first ≤ s.last)
    (stepped : Interpreter.step setting body callee (walk setting body callee) s.last instruction
      s.entry s.run = .ok flow after) : size s.frame ≤ size flow.frame := by
  have entered : F s.entry := persists.frames.moved here s.first
  refine (persists.moved s.frame s.first).ge.trans ?_
  by_cases proceeds : instruction.proceeds = true
  case pos =>
    rw [step_proceeds setting body callee _ _ proceeds] at stepped
    obtain ⟨_, _, -, stepped⟩ := EStateM.bind_eq_ok_iff.mp stepped
    obtain ⟨g, _, moved, stepped⟩ := EStateM.bind_eq_ok_iff.mp stepped
    obtain ⟨rfl, -⟩ := EStateM.pure_eq_ok_iff.mp stepped
    exact persists.proceeded entered moved
  case neg =>
    cases instruction with
    | branch condition target =>
        refine (persists.moved s.frame s.first).le.trans ?_
        obtain ⟨_, run, announced, success⟩ := EStateM.bind_eq_ok_iff.mp (step_branch .. ▸ stepped)
        have arrives : Arrives setting body s (.branch condition target) run :=
          ⟨found, reach, announced⟩
        by_cases back : target ≤ s.entry.pc
        · rw [branch_backward setting body _ _ condition back] at success
          obtain ⟨g, _, looping, success⟩ := EStateM.bind_eq_ok_iff.mp success
          obtain ⟨rfl, -⟩ := EStateM.pure_eq_ok_iff.mp success
          exact (persists.branchLoop here retains arrives back looping).1
        · have ahead : s.entry.pc < target := Nat.lt_of_not_le back
          obtain ⟨popped, popping⟩ : ∃ popped, s.entry.popN condition.arity = .ok popped := by
            rw [branch_forward setting body _ _ condition ahead] at success
            obtain ⟨popped, _, lifted, -⟩ := EStateM.bind_eq_ok_iff.mp success
            exact ⟨popped, (Analysis.lift_eq_ok_iff.mp lifted).1⟩
          have forks : Forks setting body s condition target popped.1 popped.2 run :=
            ⟨arrives, ahead, popping⟩
          exact persists.forks forks here arms stepped
    | ret kind =>
        obtain ⟨_, _, -, stepped⟩ := EStateM.bind_eq_ok_iff.mp stepped
        cases kind with
        | none =>
            obtain ⟨rfl, -⟩ := EStateM.pure_eq_ok_iff.mp stepped
            exact Nat.le_refl _
        | some kind =>
            obtain ⟨⟨id, popped⟩, _, lifted, stepped⟩ := EStateM.bind_eq_ok_iff.mp stepped
            obtain ⟨rfl, -⟩ := EStateM.pure_eq_ok_iff.mp stepped
            exact persists.recorded entered (Analysis.lift_eq_ok_iff.mp lifted).1
    | throw | unsupported =>
        obtain ⟨_, _, -, stepped⟩ := EStateM.bind_eq_ok_iff.mp stepped
        exact absurd stepped EStateM.throw_ne_ok
    | _ => exact absurd rfl proceeds

end Persists

/-! ## Walks -/

/-- Loops that are left in the course of a walk do not lower the quantity. -/
def RetainsWithin (size : Frame → Nat) (setting : Setting) (body : Body) (callee : Callee)
    (s : Stretch) : Prop :=
  ∀ t, Within setting body callee s t → Retains size setting body callee t

private theorem RetainsWithin.part {size : Frame → Nat}
    (retains : RetainsWithin size setting body callee s) (part : Part setting body callee s t) :
    RetainsWithin size setting body callee t :=
  fun u within => retains u (.head part within)

namespace Persists

variable {F : Frame → Prop} {size : Frame → Nat} (persists : Persists F size)
include persists

/-- A walk does not lower the quantity. -/
theorem walk {g : Frame} {after : Run} (here : F s.frame)
    (retains : RetainsWithin size setting body callee s)
    (walked : outcome setting body callee s = .ok g after) : size s.frame ≤ size g := by
  induction extent : extent body.method.instructions.size s.first s.last using Nat.strongRecOn
    generalizing s g after with
  | ind _ ih =>
      subst extent
      by_cases empty : s.last < s.first ∨ body.method.instructions.size ≤ s.first
      case pos =>
        rw [outcome, walk_empty setting body callee s.frame empty] at walked
        obtain ⟨rfl, -⟩ := EStateM.pure_eq_ok_iff.mp walked
        exact Nat.le_refl _
      case neg =>
        have inside : s.first < body.method.instructions.size := by omega
        have found := Array.getElem?_eq_getElem inside
        have parts {t : Stretch} {g : Frame} {after : Run} (part : Part setting body callee s t)
            (walked : outcome setting body callee t = .ok g after) : size t.frame ≤ size g :=
          ih _ part.extent_lt (persists.of_part part here) (retains.part part) walked rfl
        obtain ⟨flow, between, stepped, continued⟩ := outcome_step found (by omega) walked
        have rises : size s.frame ≤ size flow.frame :=
          persists.step here (retains s .refl) (fun t g after arm => parts (.arm arm))
            found (by omega) stepped
        obtain rfl | ⟨t, next, same⟩ := next_or_leave found (by omega) stepped continued
        · exact rises
        · exact Nat.le_trans rises (same ▸ parts (.next next) (next.outcome_eq ▸ walked))

/-- The arms of a branch retain a quantity if everything within the walk does. -/
theorem armsRetain (here : F s.frame) (retains : RetainsWithin size setting body callee s) :
    ArmsRetain size setting body callee s :=
  fun _ _ _ arm walked =>
    persists.walk (persists.of_part (.arm arm) here) (retains.part (.arm arm)) walked

/-- What is left of a walk behind an instruction does not lower the quantity. -/
theorem continued {instruction : Instruction} {flow : Flow} {g : Frame} {between after : Run}
    (here : F s.frame) (retains : RetainsWithin size setting body callee s)
    (found : body.method.instructions[s.first]? = some instruction) (reach : s.first ≤ s.last)
    (stepped : Interpreter.step setting body callee (Interpreter.walk setting body callee) s.last
      instruction s.entry s.run = .ok flow between)
    (continued : continueAt (Interpreter.walk setting body callee) s.first s.last flow between =
      .ok g after) : size flow.frame ≤ size g := by
  obtain rfl | ⟨t, next, same⟩ := next_or_leave found reach stepped continued
  · exact Nat.le_refl _
  · have walked : outcome setting body callee s = .ok g after := by
      unfold outcome
      rw [walk_step setting body callee s.frame found reach]
      exact (EStateM.bind_of_ok stepped).trans continued
    rw [← same]
    exact persists.walk (persists.of_part (.next next) here) (retains.part (.next next))
      (next.outcome_eq ▸ walked)

/-! ## Parts of a walk -/

section

variable {instruction : Instruction} {flow : Flow} {after : Run} (here : F s.frame)
  (arms : ArmsRetain size setting body callee s)
  (found : body.method.instructions[s.first]? = some instruction)
  (stepped : Interpreter.step setting body callee (Interpreter.walk setting body callee) s.last
    instruction s.entry s.run = .ok flow after)
include here arms found stepped

/-- An arm at the start of a stretch has been walked through if the branch has come to an end, and
the quantity has not sunk behind the branch, in the loop that the arm closes included. -/
theorem arm (arm : Arm setting body callee s t) :
    ∃ h final, outcome setting body callee t = .ok h final ∧ size h ≤ size flow.frame ∧
      LoopBelow size setting body callee s.first s.last h final (size flow.frame) := by
  have entered : F s.entry := persists.frames.moved here s.first
  have branches {condition : Condition} {target : Nat} {operands : List VarId} {popped : Frame}
      {run : Run} (forks : Forks setting body s condition target operands popped run) :
      instruction = .branch condition target := Option.some.inj (found.symm.trans forks.found)
  cases arm with
  | through forks =>
      obtain rfl := branches forks
      have popped := persists.frames.popped entered forks.popping
      obtain ⟨through, between, left, right, walked, meets, same⟩ := forks.meets stepped
      obtain ⟨⟨leftHere, rightHere⟩, -, rises, loop⟩ :=
        persists.paths forks walked meets popped arms
      obtain ⟨-, joined⟩ := persists.joined leftHere rightHere
      rw [same]
      exact ⟨through, between, walked, Nat.le_trans rises joined, loop.mono joined⟩
  | taken forks walked pending later inside announces =>
      obtain rfl := branches forks
      have popped := persists.frames.popped entered forks.popping
      obtain ⟨through, between, left, right, walked', meets, same⟩ := forks.meets stepped
      obtain ⟨rfl, rfl⟩ := EStateM.Result.ok.inj (walked.symm.trans walked')
      obtain ⟨⟨leftHere, rightHere⟩, -⟩ := persists.paths forks walked meets popped arms
      obtain ⟨h, final, walking, rises, loop⟩ :=
        persists.paths_taken meets popped pending later inside announces
      obtain ⟨joined, -⟩ := persists.joined leftHere rightHere
      rw [same]
      exact ⟨h, final, walking, Nat.le_trans rises joined, loop.mono joined⟩

/-- A further pass ends below the flow. -/
private theorem again (retains : Retains size setting body callee s)
    (again : Repeat setting body callee s t) :
    ∃ h final, outcome setting body callee t = .ok h final ∧ size h ≤ size flow.frame := by
  cases again with
  | jump part walked pending behind announces again =>
      obtain ⟨h, final, walked', -, loop⟩ := persists.arm here arms found stepped part
      obtain ⟨rfl, rfl⟩ := EStateM.Result.ok.inj (walked.symm.trans walked')
      obtain ⟨-, r, final, passed, rises, -⟩ := loop _ _ _ _ pending behind announces again
      exact ⟨r, final, passed, rises⟩
  | branch arrives behind again assumed =>
      obtain rfl := Option.some.inj (found.symm.trans arrives.found)
      rw [step_branch] at stepped
      obtain ⟨_, run, announced, success⟩ := EStateM.bind_eq_ok_iff.mp stepped
      obtain ⟨-, rfl⟩ := EStateM.Result.ok.inj (arrives.announced.symm.trans announced)
      rw [branch_backward setting body _ _ _ (Nat.le_of_lt behind : _ ≤ s.entry.pc)] at success
      obtain ⟨g, _, looping, success⟩ := EStateM.bind_eq_ok_iff.mp success
      obtain ⟨rfl, -⟩ := EStateM.pure_eq_ok_iff.mp success
      obtain ⟨-, r, final, passed, rises, -⟩ :=
        (persists.branchLoop here retains arrives (Nat.le_of_lt behind) looping).2 _ _ again
      unfold branchPass at passed
      obtain ⟨h, _, assumed', walked⟩ := EStateM.bind_eq_ok_iff.mp passed
      obtain ⟨rfl, rfl⟩ := EStateM.Result.ok.inj (assumed.symm.trans assumed')
      rw [if_pos behind] at walked
      exact ⟨r, final, walked, rises⟩

end

/-- Every part of a walk that succeeds has succeeded, and the quantity is no larger there than in
the end. -/
theorem part {g : Frame} {after : Run} (here : F s.frame)
    (retains : RetainsWithin size setting body callee s)
    (walked : outcome setting body callee s = .ok g after) (part : Part setting body callee s t) :
    ∃ h final, outcome setting body callee t = .ok h final ∧ size h ≤ size g := by
  obtain ⟨inside, reach⟩ := part.inside
  have found := Array.getElem?_eq_getElem inside
  have arms := persists.armsRetain here retains
  obtain ⟨flow, between, stepped, continued⟩ := outcome_step found reach walked
  have rest := persists.continued here retains found reach stepped continued
  cases part with
  | next next => exact ⟨g, after, next.outcome_eq ▸ walked, Nat.le_refl _⟩
  | arm arm =>
      obtain ⟨h, final, walked, rises, -⟩ := persists.arm here arms found stepped arm
      exact ⟨h, final, walked, Nat.le_trans rises rest⟩
  | again again =>
      obtain ⟨h, final, walked, rises⟩ :=
        persists.again here arms found stepped (retains s .refl) again
      exact ⟨h, final, walked, Nat.le_trans rises rest⟩

/-- The quantity at the end of a walk is at least that at the end of each of its parts. -/
theorem within {g : Frame} {after : Run} (here : F s.frame)
    (retains : RetainsWithin size setting body callee s)
    (walked : outcome setting body callee s = .ok g after)
    (within : Within setting body callee s t) :
    F t.frame ∧ ∃ h final, outcome setting body callee t = .ok h final ∧ size h ≤ size g := by
  induction within with
  | refl => exact ⟨here, g, after, walked, Nat.le_refl _⟩
  | @tail u t before part ih =>
      obtain ⟨here, h, final, walked, le⟩ := ih
      obtain ⟨h', final', walked', le'⟩ :=
        persists.part here (fun v within => retains v (before.trans within)) walked part
      exact ⟨persists.of_part part here, h', final', walked', Nat.le_trans le' le⟩

end Persists

end ArrayBounds.Interpreter
