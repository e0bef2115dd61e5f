import ArrayBounds.Proofs.Structured.Code
import ArrayBounds.Proofs.Walk.Fuel

/-! # Structure is recovered from jumps

A walk through the layout of a structured program computes the meaning of the program
(`ArrayBounds.Interpreter.interpretBody_layout`). The walk finds out about conditionals and loops
from the jumps on the way; that it ends each part where the program does rests on where its frames
stand, which is the first part below.
-/

namespace ArrayBounds

open Program Interpreter

variable {setting : Setting} {body : Body} {callee : Callee}

namespace Code

/-! ## Where the frames of a program stand -/

/-- A frame at `pc` that runs through a program starting at `start` ends at `stop`: at the last
instruction of the program, if there is one. -/
def Stops (code : Code) (start pc stop : Nat) : Prop :=
  code.size = 0 ∧ stop = pc ∨ 0 < code.size ∧ stop + 1 = start + code.size

private theorem eq_of_reach {position : Nat} {f g : Frame} {before after : Run}
    (success : reach setting body position f before = .ok g after) :
    g = { f with pc := position } := by
  obtain ⟨_, _, _, success⟩ := EStateM.bind_eq_ok_iff.mp success
  exact (EStateM.pure_eq_ok_iff.mp success).1.symm

/-- A block adds no jump, and stops at its last instruction. -/
private theorem stops_runBlock
    {instructions : List { instruction : Instruction // instruction.isPlain = true }} {start : Nat}
    {f g : Frame} {before after : Run}
    (success : runBlock setting body callee instructions start f before = .ok g after) :
    g.pendingJump = f.pendingJump ∧ (block instructions).Stops start f.pc g.pc := by
  induction instructions generalizing start f before with
  | nil =>
      obtain ⟨rfl, rfl⟩ := EStateM.pure_eq_ok_iff.mp success
      exact ⟨rfl, .inl ⟨rfl, rfl⟩⟩
  | cons instruction rest ih =>
      obtain ⟨performed, _, success, running⟩ := EStateM.bind_eq_ok_iff.mp success
      obtain ⟨reached, _, reaching, success⟩ := EStateM.bind_eq_ok_iff.mp success
      have kept := control_proceed success
      rw [Control.after_of_isPlain _ instruction.property, eq_of_reach reaching] at kept
      have here : performed.pc = start := congrArg Control.pc kept
      have jump : performed.pendingJump = f.pendingJump := congrArg Control.pendingJump kept
      obtain ⟨clear, stops⟩ := ih running
      refine ⟨clear.trans jump, ?_⟩
      simp only [Stops, size, List.length_cons] at stops ⊢
      omega

/-- Both sides of a test are at its position, and one of them has no jump. -/
private theorem control_split {position : Nat} {condition : Condition} {f : Frame}
    {sides : Frame × Frame} {before after : Run}
    (success : split setting body position condition f before = .ok sides after) :
    sides.1.control = { f.control with pc := position } ∧ sides.2.control = { pc := position } := by
  obtain ⟨reached, _, reaching, success⟩ := EStateM.bind_eq_ok_iff.mp success
  obtain ⟨⟨operands, popped⟩, _, popping, success⟩ := EStateM.bind_eq_ok_iff.mp success
  obtain ⟨rfl, -⟩ := EStateM.pure_eq_ok_iff.mp success
  have kept := Frame.control_popN (Analysis.lift_eq_ok_iff.mp popping).1
  rw [eq_of_reach reaching] at kept
  simp only [Frame.control_assumeCondition, Frame.control_fork, kept]
  exact ⟨rfl, rfl⟩

/-- Repeating a loop does not move a frame that stands behind it. -/
theorem control_untilStable {pass : Frame → Analysis Frame} {first last passes : Nat}
    {c : Control} {f g : Frame} {before after : Run}
    (each : ∀ f before g after, f.control = c.fork → pass f before = .ok g after → g.pc ≤ c.pc)
    (start : f.control = c)
    (success : untilStable pass (loopUnstable setting body first last) passes f before =
      .ok g after) : g.control = c := by
  have observation : Observation setting body (fun _ => throw .exhausted) fun _ _ _ => True :=
    observation_true
  have outcome : ∀ f before g after, f.control = c.fork → pass f before = .ok g after →
      ∃ s, some ({ control := c } : Sweep) = some s ∧ g.pc ≤ c.pc ∧ True :=
    fun f before g after start passing => ⟨_, rfl, each f before g after start passing, trivial⟩
  obtain ⟨_, _, kept, _⟩ :=
    untilStable_follows observation (fun _ _ _ _ => trivial) outcome start success
  exact kept

/-- A frame without a pending jump comes out of the program without one, at the end of the
program. -/
def Ends (setting : Setting) (body : Body) (callee : Callee) (code : Code) : Prop :=
  ∀ ⦃start : Nat⦄ ⦃f g : Frame⦄ ⦃before after : Run⦄, f.pendingJump = none →
    meaning setting body callee code start f before = .ok g after → g.pendingJump = none ∧
    code.Stops start f.pc g.pc

/-- A conditional with one arm keeps a pending jump, and ends where the arm does. -/
theorem control_oneArmed {position : Nat} {condition : Condition} {arm : Code} {f g : Frame}
    {before after : Run} (ends : arm.Ends setting body callee)
    (success : oneArmed setting body position condition
      (meaning setting body callee arm (position + 1)) f before = .ok g after) :
    g.control = { f.control with pc := position + arm.size } := by
  obtain ⟨sides, _, splitting, success⟩ := EStateM.bind_eq_ok_iff.mp success
  obtain ⟨through, _, running, success⟩ := EStateM.bind_eq_ok_iff.mp success
  obtain ⟨rfl, -⟩ := EStateM.pure_eq_ok_iff.mp success
  obtain ⟨taken, start⟩ := control_split splitting
  have here : sides.2.pc = position := congrArg Control.pc start
  obtain ⟨-, ended⟩ := ends (congrArg Control.pendingJump start) running
  have last : max position through.pc = position + arm.size := by
    unfold Stops at ended
    omega
  rw [Frame.control_join, taken]
  simp only [Control.join, Frame.control_pc, last]

/-- A sequence ends properly if both of its parts do. -/
private theorem ends_seq {first second : Code} (ends : first.Ends setting body callee)
    (endsSecond : second.Ends setting body callee) :
    (seq first second).Ends setting body callee := by
  intro start f g before after clear success
  obtain ⟨middle, _, running, success⟩ := EStateM.bind_eq_ok_iff.mp success
  obtain ⟨clear, between⟩ := ends clear running
  obtain ⟨clear, ended⟩ := endsSecond clear success
  refine ⟨clear, ?_⟩
  simp only [Stops, size] at between ended ⊢
  omega

/-- A conditional ends properly if its test and its arm do. -/
private theorem ends_ifThen {test arm : Code} (condition : Condition)
    (endsTest : test.Ends setting body callee) (endsArm : arm.Ends setting body callee) :
    (ifThen test condition arm).Ends setting body callee := by
  intro start f g before after clear success
  obtain ⟨tested, _, testing, success⟩ := EStateM.bind_eq_ok_iff.mp success
  have ended := control_oneArmed endsArm success
  have last : g.pc = start + test.size + arm.size := congrArg Control.pc ended
  refine ⟨(congrArg Control.pendingJump ended).trans (endsTest clear testing).1, ?_⟩
  simp only [Stops, size]
  omega

/-- A conditional with two arms ends properly if the one that is taken does. -/
private theorem ends_ifElse {test through taken : Code} (condition : Condition)
    (endsTaken : taken.Ends setting body callee) :
    (ifElse test condition through taken).Ends setting body callee := by
  intro start f g before after clear success
  obtain ⟨tested, _, testing, success⟩ := EStateM.bind_eq_ok_iff.mp success
  obtain ⟨sides, _, splitting, success⟩ := EStateM.bind_eq_ok_iff.mp success
  obtain ⟨passed, _, -, success⟩ := EStateM.bind_eq_ok_iff.mp success
  obtain ⟨reached, _, reaching, success⟩ := EStateM.bind_eq_ok_iff.mp success
  obtain ⟨_, _, -, success⟩ := EStateM.bind_eq_ok_iff.mp success
  obtain ⟨other, _, running, success⟩ := EStateM.bind_eq_ok_iff.mp success
  obtain ⟨rfl, -⟩ := EStateM.pure_eq_ok_iff.mp success
  have started : (sides.1.drawAfter reached).fork.pendingJump = none := rfl
  obtain ⟨clear, ended⟩ := endsTaken started running
  have here : (sides.1.drawAfter reached).fork.pc = start + test.size :=
    congrArg Control.pc (control_split splitting).1
  have joined := Frame.control_join other reached
  rw [eq_of_reach reaching] at joined
  have last :
      ((other.join reached).1).pc = max other.pc (start + test.size + 1 + through.size) := by
    rw [eq_of_reach reaching]
    exact congrArg Control.pc joined
  refine ⟨?_, ?_⟩
  · rw [eq_of_reach reaching]
    exact (congrArg Control.pendingJump joined).trans clear
  · simp only [Stops, size] at ended ⊢
    omega

/-- A loop that is tested first ends properly if its test and its body do. -/
private theorem ends_whileDo {test loopBody : Code} (condition : Condition)
    (endsTest : test.Ends setting body callee) (endsBody : loopBody.Ends setting body callee) :
    (whileDo test condition loopBody).Ends setting body callee := by
  intro start f g before after clear success
  obtain ⟨tested, _, testing, success⟩ := EStateM.bind_eq_ok_iff.mp success
  obtain ⟨sides, _, splitting, success⟩ := EStateM.bind_eq_ok_iff.mp success
  obtain ⟨passed, _, running, success⟩ := EStateM.bind_eq_ok_iff.mp success
  obtain ⟨reached, _, reaching, success⟩ := EStateM.bind_eq_ok_iff.mp success
  obtain ⟨_, _, -, success⟩ := EStateM.bind_eq_ok_iff.mp success
  obtain ⟨stable, _, looping, success⟩ := EStateM.bind_eq_ok_iff.mp success
  obtain ⟨rfl, -⟩ := EStateM.pure_eq_ok_iff.mp success
  have jumped : reached.pc = start + test.size + loopBody.size + 1 :=
    congrArg Frame.pc (eq_of_reach reaching)
  have kept := control_untilStable (c := reached.control) (fun f before g after _ passing => by
    obtain ⟨tested, _, _, passing⟩ := EStateM.bind_eq_ok_iff.mp passing
    have ended := control_oneArmed endsBody passing
    have last : g.pc = start + test.size + loopBody.size := congrArg Control.pc ended
    rw [Frame.control_pc]
    omega) rfl looping
  have there : stable.pc = reached.pc := congrArg Control.pc kept
  have joined := Frame.control_join sides.1 stable
  rw [(control_split splitting).1] at joined
  have last : (sides.1.join stable).1.pc = max (start + test.size) stable.pc :=
    congrArg Control.pc joined
  refine ⟨(congrArg Control.pendingJump joined).trans (endsTest clear testing).1, ?_⟩
  simp only [Stops, size]
  omega

/-- A loop that is tested last ends properly if its body and its test do. -/
private theorem ends_doWhile {loopBody test : Code} (condition : Condition)
    (endsBody : loopBody.Ends setting body callee) (endsTest : test.Ends setting body callee) :
    (doWhile loopBody test condition).Ends setting body callee := by
  intro start f g before after clear success
  obtain ⟨looped, _, running, success⟩ := EStateM.bind_eq_ok_iff.mp success
  obtain ⟨tested, _, testing, success⟩ := EStateM.bind_eq_ok_iff.mp success
  obtain ⟨reached, _, reaching, success⟩ := EStateM.bind_eq_ok_iff.mp success
  obtain ⟨stable, _, looping, success⟩ := EStateM.bind_eq_ok_iff.mp success
  obtain ⟨left, -⟩ := control_assuming success
  have here : reached.pc = start + loopBody.size + test.size :=
    congrArg Frame.pc (eq_of_reach reaching)
  have kept :=
    control_untilStable (c := reached.control) (fun f before g after atBranch passing => by
      obtain ⟨again, _, passing, testing⟩ := EStateM.bind_eq_ok_iff.mp passing
      obtain ⟨taken, _, assumed, running⟩ := EStateM.bind_eq_ok_iff.mp passing
      have start := (control_assuming assumed).1.trans atBranch
      have pc : taken.pc = reached.pc := congrArg Control.pc start
      obtain ⟨clear, between⟩ := endsBody (congrArg Control.pendingJump start) running
      obtain ⟨-, ended⟩ := endsTest clear testing
      rw [Frame.control_pc]
      unfold Stops at between ended
      omega) rfl looping
  have jump : stable.pendingJump = reached.pendingJump := congrArg Control.pendingJump kept
  have last : g.pc = start + loopBody.size + test.size := congrArg Control.pc left
  obtain ⟨clear, -⟩ := endsBody clear running
  obtain ⟨clear, -⟩ := endsTest clear testing
  refine ⟨?_, ?_⟩
  · rw [eq_of_reach reaching] at jump
    exact (congrArg Control.pendingJump left).trans (jump.trans clear)
  · simp only [Stops, size]
    omega

/-- All code ends properly. -/
theorem ends (code : Code) : code.Ends setting body callee := by
  induction code with
  | block instructions =>
      intro start f g before after clear success
      obtain ⟨kept, stops⟩ := stops_runBlock success
      exact ⟨kept.trans clear, stops⟩
  | seq first second endsFirst endsSecond => exact ends_seq endsFirst endsSecond
  | ifThen test condition arm endsTest endsArm => exact ends_ifThen condition endsTest endsArm
  | ifElse test condition through taken _ _ endsTaken => exact ends_ifElse condition endsTaken
  | whileDo test condition loopBody endsTest endsBody =>
      exact ends_whileDo condition endsTest endsBody
  | doWhile loopBody test condition endsBody endsTest =>
      exact ends_doWhile condition endsBody endsTest

/-- Code without instructions means nothing. -/
private theorem meaning_of_size_eq_zero {code : Code} (empty : code.size = 0)
    (start : Nat) (f : Frame) : meaning setting body callee code start f = pure f := by
  induction code generalizing start f with
  | block instructions =>
      obtain rfl := List.eq_nil_of_length_eq_zero empty
      rfl
  | seq first second ihFirst ihSecond =>
      simp only [size, Nat.add_eq_zero_iff] at empty
      simp only [meaning, ihFirst empty.1, ihSecond empty.2, pure_bind]
  | _ =>
      simp only [size] at empty
      omega

/-! ## Parts of a method -/

/-- The instructions of a part stand in the method from the position `start` on. -/
def Located (instructions : Array Instruction) (start : Nat) (part : List Instruction) : Prop :=
  ∀ i instruction, part[i]? = some instruction → instructions[start + i]? = some instruction

namespace Located

variable {instructions : Array Instruction} {start next : Nat} {first second : List Instruction}
  {instruction : Instruction}

/-- The first part stands where the whole does. -/
private theorem left (located : Located instructions start (first ++ second)) :
    Located instructions start first := by
  intro i instruction found
  refine located i instruction ?_
  rw [List.getElem?_append_left (List.getElem?_eq_some_iff.mp found).1]
  exact found

/-- The second part stands behind the first. -/
private theorem right (located : Located instructions start (first ++ second))
    (behind : next = start + first.length) : Located instructions next second := by
  intro i instruction found
  have there := located (first.length + i) instruction
  rw [List.getElem?_append_right (Nat.le_add_right _ _), Nat.add_sub_cancel_left] at there
  rw [behind, Nat.add_assoc]
  exact there found

private theorem head (located : Located instructions start (instruction :: second)) :
    instructions[start]? = some instruction :=
  located 0 instruction rfl

private theorem tail (located : Located instructions start (instruction :: second)) :
    Located instructions (start + 1) second := by
  have whole : Located instructions start ([instruction] ++ second) := located
  exact whole.right rfl

end Located

/-! ## Walks through the parts -/

/-- Repeating a loop passes a pending jump on. -/
theorem untilStable_jump (pass : Frame → Analysis Frame) (giveUp : Analysis Unit)
    (passes : Nat) (f : Frame) (jump : Option Nat) :
    untilStable pass giveUp passes { f with pendingJump := jump } =
      untilStable pass giveUp passes f >>= fun g => pure { g with pendingJump := jump } := by
  induction passes generalizing f with
  | zero => simp only [untilStable, bind_assoc, pure_bind]
  | succ passes ih =>
      have forked : ({ f with pendingJump := jump } : Frame).fork = f.fork := rfl
      simp only [untilStable, forked, Frame.join_jump_left, bind_assoc]
      congr 1
      funext _
      congr 1
      funext after
      split
      · exact ih _
      · rw [pure_bind]

section

variable {position last target : Nat} {instruction : Instruction}
  {condition : Condition} (f : Frame)

/-- A walk at an instruction that hands over to the next one. -/
theorem walk_proceeds (found : body.method.instructions[position]? = some instruction)
    (inside : position ≤ last) (proceeds : instruction.proceeds = true) :
    walk setting body callee position last f =
      reach setting body position f >>= proceed setting body callee instruction >>=
        walk setting body callee (position + 1) last := by
  rw [walk_step setting body callee f found inside, step_proceeds setting body callee _ _ proceeds]
  simp only [reach, bind_assoc, pure_bind, continueAt]

/-- A walk that ends with a jump only notes its target. -/
theorem walk_goto (found : body.method.instructions[position]? = some (.goto target)) :
    walk setting body callee position position f =
      reach setting body position f >>= fun g => pure { g with pendingJump := some target } := by
  rw [walk_proceeds f found (Nat.le_refl position) rfl, bind_assoc]
  congr 1
  funext g
  have noted : proceed setting body callee (.goto target) g =
      pure { g with pendingJump := some target } := rfl
  rw [noted, pure_bind, walk_empty setting body callee _ (.inl (Nat.lt_succ_self position))]

/-- A walk at a branch forwards. -/
theorem walk_branch (found : body.method.instructions[position]? = some (.branch condition target))
    (inside : position ≤ last) (ahead : position < target) :
    walk setting body callee position last f =
      split setting body position condition f >>= fun sides =>
        walk setting body callee (position + 1) (min (target - 1) last) sides.2 >>= fun through =>
          arms setting body (walk setting body callee) position target last sides.1
            through >>= fun paths =>
              walk setting body callee (max ((paths.1.join paths.2).1.pc + 1) target) last
                (paths.1.join paths.2).1 := by
  rw [walk_step setting body callee f found inside, step_branch,
    branch_forward setting body _ _ _
    (show ({ f with pc := position } : Frame).pc < target from ahead)]
  simp only [split, reach, bind_assoc, pure_bind, continueAt, meet]

/-- A walk at a branch backwards. -/
theorem walk_branch_back
    (found : body.method.instructions[position]? = some (.branch condition target))
    (inside : position ≤ last) (back : target ≤ position) :
    walk setting body callee position last f =
      reach setting body position f >>= branchLoop setting body (walk setting body callee)
        condition target >>= walk setting body callee (position + 1) last := by
  rw [walk_step setting body callee f found inside, step_branch,
    branch_backward setting body _ _ _
    (show target ≤ ({ f with pc := position } : Frame).pc from back)]
  simp only [reach, bind_assoc, pure_bind, continueAt]

end

/-! ## Recovery -/

variable (setting body callee) in
/-- A walk that comes to the program at `start` runs through it according to its meaning, and goes
on behind it. -/
def Recovered (code : Code) (start : Nat) : Prop :=
  ∀ last f, start + code.size ≤ last + 1 →
    walk setting body callee start last f =
      meaning setting body callee code start f >>= walk setting body callee (start + code.size) last

/-- A walk that ends with the program has the meaning of the program. -/
theorem Recovered.exact {code : Code} {start last : Nat}
    (recovered : Recovered setting body callee code start) (ends : last + 1 = start + code.size) :
    walk setting body callee start last = meaning setting body callee code start := by
  funext f
  have nothing : walk setting body callee (start + code.size) last = pure := by
    funext g
    exact walk_empty setting body callee g (.inl (by omega))
  rw [recovered last f (by omega), nothing, bind_pure]

/-- A walk over a block is its meaning. -/
private theorem recovered_block
    {instructions : List { instruction : Instruction // instruction.isPlain = true }} {start : Nat}
    (located : Located body.method.instructions start ((block instructions).layout start)) :
    Recovered setting body callee (block instructions) start := by
  induction instructions generalizing start with
  | nil =>
      intro last f _
      exact (pure_bind f _).symm
  | cons instruction rest ih =>
      intro last f fits
      have rest := ih located.tail
      simp only [Recovered, size, meaning, runBlock, List.length_cons, bind_assoc] at fits rest ⊢
      have inside : start ≤ last := by omega
      rw [walk_proceeds f located.head inside (Instruction.isPlain.proceeds instruction.property),
        bind_assoc]
      congr 1
      funext g
      congr 1
      funext g
      rw [rest last g (by omega), Nat.add_assoc, Nat.add_comm 1]

/-- A branch whose target lies behind the arm, in a walk that ends at the arm's end or goes on at
the target. -/
theorem walk_oneArmed {position target last : Nat} {condition : Condition} {arm : Code}
    (found : body.method.instructions[position]? = some (.branch condition target))
    (recovered : Recovered setting body callee arm (position + 1))
    (behind : position + arm.size < target)
    (range : min (target - 1) last = position + arm.size) (f : Frame) :
    walk setting body callee position last f =
      oneArmed setting body position condition
        (meaning setting body callee arm (position + 1)) f >>=
        walk setting body callee target last := by
  rw [walk_branch f found (by omega) (by omega), range, recovered.exact (by omega)]
  simp only [oneArmed, bind_assoc, pure_bind]
  refine Analysis.bind_congr_ok fun before sides split splitting => congrFun ?_ split
  refine Analysis.bind_congr_ok fun _ through between running => congrFun ?_ between
  obtain ⟨taken, start⟩ := control_split splitting
  have here : sides.2.pc = position := congrArg Control.pc start
  have there : sides.1.pc = position := congrArg Control.pc taken
  obtain ⟨clear, ended⟩ := ends _ (congrArg Control.pendingJump start) running
  have met : (sides.1.join through).1.pc = max sides.1.pc through.pc :=
    congrArg Control.pc (Frame.control_join sides.1 through)
  have resume : max ((sides.1.join through).1.pc + 1) target = target := by
    unfold Stops at ended
    omega
  have straight : arms setting body (walk setting body callee)
      position target last sides.1 through =
      pure (sides.1, through) := by
    simp only [arms, clear]
  rw [straight, pure_bind, resume]

/-- A walk over a conditional is its meaning. -/
private theorem recovered_ifThen {test arm : Code} {condition : Condition} {start : Nat}
    (testing : Recovered setting body callee test start)
    (running : Recovered setting body callee arm (start + test.size + 1))
    (found : body.method.instructions[start + test.size]? =
      some (.branch condition (start + test.size + 1 + arm.size))) :
    Recovered setting body callee (ifThen test condition arm) start := by
  intro last f fits
  simp only [size] at fits ⊢
  simp only [meaning, bind_assoc]
  rw [testing last f (by omega)]
  congr 1
  funext g
  rw [walk_oneArmed found running (by omega) (by omega) g]
  congr 2
  omega

/-- The arm at the target of a branch is run up to where the arms meet, and no loop is closed behind
it. -/
theorem takenArm_recovered {arm : Code} {position target last : Nat}
    (recovered : Recovered setting body callee arm target)
    (fits : target + arm.size ≤ last + 1) {f : Frame} (clear : f.pendingJump = none) :
    takenArm setting body (walk setting body callee) position target (target + arm.size) last f =
      meaning setting body callee arm target f := by
  have walked : (if target < target + arm.size then
      walk setting body callee target (min (target + arm.size - 1) last) f else pure f) =
      meaning setting body callee arm target f := by
    split
    · rw [recovered.exact (by omega)]
    · rw [meaning_of_size_eq_zero (by omega)]
  calc takenArm setting body (walk setting body callee) position target (target + arm.size) last f
      = meaning setting body callee arm target f >>=
          closing setting body (walk setting body callee) position last := by
        rw [takenArm_eq, walked]
    _ = meaning setting body callee arm target f >>= pure := by
        refine Analysis.bind_congr_ok fun _ g between running => congrFun ?_ between
        unfold closing
        rw [(ends _ clear running).1]
    _ = meaning setting body callee arm target f := bind_pure _

/-- A walk over a conditional with two arms is its meaning. -/
private theorem recovered_ifElse {test through taken : Code} {condition : Condition}
    {start position jump : Nat} (tested : position = start + test.size)
    (passed : jump = position + 1 + through.size)
    (testing : Recovered setting body callee test start)
    (passing : Recovered setting body callee through (position + 1))
    (taking : Recovered setting body callee taken (jump + 1))
    (found : body.method.instructions[position]? = some (.branch condition (jump + 1)))
    (jumping : body.method.instructions[jump]? = some (.goto (jump + 1 + taken.size))) :
    Recovered setting body callee (ifElse test condition through taken) start := by
  intro last f fits
  simp only [size] at fits ⊢
  simp only [meaning, ← tested, ← passed, bind_assoc]
  rw [testing last f (by omega)]
  congr 1
  funext f
  rw [← tested, walk_branch f found (by omega) (by omega)]
  refine Analysis.bind_congr_ok fun _ sides _ splitting => congrFun ?_ _
  rw [show min (jump + 1 - 1) last = jump by
    omega, passing jump sides.2 (by omega), ← passed, bind_assoc]
  congr 1
  funext f
  rw [walk_goto f jumping, bind_assoc]
  refine Analysis.bind_congr_ok fun _ reached _ reaching => congrFun ?_ _
  have ahead : position < jump + 1 + taken.size := by omega
  simp only [pure_bind, arms, ahead, ↓reduceIte, bind_assoc]
  congr 1
  funext _
  rw [takenArm_recovered taking (by omega) rfl]
  refine Analysis.bind_congr_ok fun _ arm _ running => congrFun ?_ _
  have here : (sides.1.drawAfter reached).fork.pc = position :=
    congrArg Control.pc (control_split splitting).1
  have there : reached.pc = jump := congrArg Frame.pc (eq_of_reach reaching)
  obtain ⟨-, ended⟩ := ends _ (f := (sides.1.drawAfter reached).fork) rfl running
  have met : (arm.join reached).1.pc = max arm.pc reached.pc :=
    congrArg Control.pc (Frame.control_join arm reached)
  rw [Frame.join_jump_right]
  congr 1
  unfold Stops at ended
  omega

/-- A walk over a loop that is tested first is its meaning. -/
private theorem recovered_whileDo {test loopBody : Code} {condition : Condition}
    {start position : Nat} (tested : position = start + test.size)
    (testing : Recovered setting body callee test start)
    (running : Recovered setting body callee loopBody (position + 1))
    (found : body.method.instructions[position]? =
      some (.branch condition (position + loopBody.size + 2)))
    (jumping : body.method.instructions[position + loopBody.size + 1]? = some (.goto start)) :
    Recovered setting body callee (whileDo test condition loopBody) start := by
  intro last f fits
  have pass : walk setting body callee start (position + loopBody.size) = fun f =>
      meaning setting body callee test start f >>=
        oneArmed setting body position condition
        (meaning setting body callee loopBody (position + 1)) := by
    funext f
    rw [testing _ f (by omega), ← tested]
    congr 1
    funext g
    have nothing : walk setting body callee (position + loopBody.size + 2)
        (position + loopBody.size) = pure := by
      funext h
      exact walk_empty setting body callee h (.inl (by omega))
    rw [walk_oneArmed found running (by omega) (by omega) g, nothing, bind_pure]
  simp only [size] at fits ⊢
  simp only [meaning, ← tested, bind_assoc, ← pass]
  rw [testing last f (by omega)]
  congr 1
  funext f
  rw [← tested, walk_branch f found (by omega) (by omega)]
  refine Analysis.bind_congr_ok fun _ sides _ splitting => congrFun ?_ _
  rw [show min (position + loopBody.size + 2 - 1) last = position + loopBody.size + 1 by omega,
    running _ sides.2 (by omega), bind_assoc]
  congr 1
  funext f
  rw [show position + 1 + loopBody.size = position + loopBody.size + 1 by
    omega, walk_goto f jumping, bind_assoc]
  refine Analysis.bind_congr_ok fun _ reached _ reaching => congrFun ?_ _
  have back : ¬position < start := by omega
  have there : reached.pc = position + loopBody.size + 1 := congrArg Frame.pc (eq_of_reach reaching)
  have range : min (reached.pc - 1) last = position + loopBody.size := by omega
  simp only [pure_bind, arms, back, ↓reduceIte, bind_assoc, jumpLoop_eq, range, untilStable_jump,
    Frame.join_jump_right]
  congr 1
  funext _
  refine Analysis.bind_congr_ok fun _ stable _ looping => congrFun ?_ _
  have kept := control_untilStable (c := reached.control) (fun f _ g _ entry passing => by
    obtain same | moved := moves_interpret _ _ _ _ _ _ _ passing
    · exact Nat.le_of_eq (congrArg Control.pc (same.trans entry))
    · rw [Frame.control_pc]
      omega) rfl looping
  have stays : stable.pc = reached.pc := congrArg Control.pc kept
  have here : sides.1.pc = position := congrArg Control.pc (control_split splitting).1
  have met : (sides.1.join stable).1.pc = max sides.1.pc stable.pc :=
    congrArg Control.pc (Frame.control_join sides.1 stable)
  congr 1
  omega

/-- A walk over a loop that is tested last is its meaning. -/
private theorem recovered_doWhile {loopBody test : Code} {condition : Condition}
    {start position : Nat} (tested : position = start + loopBody.size + test.size)
    (running : Recovered setting body callee loopBody start)
    (testing : Recovered setting body callee test (start + loopBody.size))
    (found : body.method.instructions[position]? = some (.branch condition start)) :
    Recovered setting body callee (doWhile loopBody test condition) start := by
  intro last f fits
  have pass : branchPass (walk setting body callee) condition start position = fun f =>
      assuming condition true f >>= meaning setting body callee loopBody start >>=
        meaning setting body callee test (start + loopBody.size) := by
    funext f
    unfold branchPass
    rw [bind_assoc]
    congr 1
    funext g
    split
    · rw [running (position - 1) g (by omega), testing.exact (by omega)]
    · simp only [meaning_of_size_eq_zero (show loopBody.size = 0 by omega),
        meaning_of_size_eq_zero (show test.size = 0 by omega), pure_bind]
  simp only [size] at fits ⊢
  simp only [meaning, ← tested, ← pass]
  rw [running last f (by omega), bind_assoc]
  congr 1
  funext f
  rw [testing last f (by omega), ← tested, bind_assoc]
  congr 1
  funext f
  rw [walk_branch_back f found (by omega) (by omega), bind_assoc, bind_assoc]
  refine Analysis.bind_congr_ok fun _ reached _ reaching => congrFun ?_ _
  rw [branchLoop_eq, congrArg Frame.pc (eq_of_reach reaching),
    show start + (loopBody.size + test.size + 1) = position + 1 by omega]

/-- A walk runs through every structured program according to its meaning. -/
theorem recovered (code : Code) {start : Nat}
    (located : Located body.method.instructions start (code.layout start)) :
    Recovered setting body callee code start := by
  induction code generalizing start with
  | block instructions => exact recovered_block located
  | seq first second ihFirst ihSecond =>
      intro last f fits
      have before := ihFirst located.left
      have behind := ihSecond (located.right (by rw [length_layout]))
      simp only [size] at fits ⊢
      simp only [meaning, bind_assoc]
      rw [before last f (by omega)]
      congr 1
      funext g
      rw [behind last g (by omega), Nat.add_assoc]
  | ifThen test condition arm ihTest ihArm =>
      have rest := located.right (by rw [length_layout])
      exact recovered_ifThen (ihTest located.left) (ihArm rest.tail) rest.head
  | ifElse test condition through taken ihTest ihThrough ihTaken =>
      have arm := located.left.right (by rw [length_layout])
      have size : start + test.size + 1 + through.size =
          start + (test.layout start ++ .branch condition
            (start + test.size + 1 + through.size + 1) ::
            through.layout (start + test.size + 1)).length := by
        simp only [List.length_append, List.length_cons, length_layout]
        omega
      have rest := located.right size
      exact recovered_ifElse rfl rfl (ihTest located.left.left) (ihThrough arm.tail)
        (ihTaken rest.tail) arm.head rest.head
  | whileDo test condition loopBody ihTest ihBody =>
      have arm := located.left.right (by rw [length_layout])
      have size : start + test.size + loopBody.size + 1 =
          start + (test.layout start ++ .branch condition
            (start + test.size + 1 + loopBody.size + 1) ::
            loopBody.layout (start + test.size + 1)).length := by
        simp only [List.length_append, List.length_cons, length_layout]
        omega
      have rest := located.right size
      have found := arm.head
      rw [show start + test.size + 1 + loopBody.size + 1 = start + test.size + loopBody.size + 2 by
        omega] at found
      exact recovered_whileDo rfl (ihTest located.left.left) (ihBody arm.tail) found rest.head
  | doWhile loopBody test condition ihBody ihTest =>
      have before := located.left.right (by rw [length_layout])
      have size : start + loopBody.size + test.size =
          start + (loopBody.layout start ++ test.layout (start + loopBody.size)).length := by
        simp only [List.length_append, length_layout]
        omega
      have found := (located.right size).head
      exact recovered_doWhile rfl (ihBody located.left.left) (ihTest before) found

/-- A method with the layout of the program for its instructions. -/
def place (code : Code) (body : Body) : Body :=
  { body with method := { body.method with instructions := (code.layout 0).toArray } }

/-- The code stands in the body that it is placed in. -/
private theorem located_place (code : Code) (body : Body) :
    Located (code.place body).method.instructions 0 (code.layout 0) := by
  intro i instruction found
  rw [Nat.zero_add]
  exact (List.getElem?_toArray ..).trans found

end Code

namespace Interpreter

/-- Interpreting the layout of a structured program computes the meaning of the program: the same
error, or the same frame, reports, stored results, statistics and log, from every frame and every
run. -/
theorem interpretBody_layout (setting : Setting) (callee : Callee) (code : Code)
    (body : Body) (f : Frame) :
    interpretBody setting (code.place body) callee f =
      code.meaning setting (code.place body) callee 0 f := by
  have size : (code.place body).method.instructions.size = code.size := code.length_layout 0
  have whole : Code.Recovered setting (code.place body) callee code 0 :=
    code.recovered (code.located_place body)
  have behind : walk setting (code.place body) callee (0 + code.size) (code.size - 1) = pure := by
    funext g
    exact walk_empty setting _ callee g (.inr (by omega))
  rw [interpretBody_eq, size, whole _ f (by omega), behind, bind_pure]

end Interpreter

end ArrayBounds
