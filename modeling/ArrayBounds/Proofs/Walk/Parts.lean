import ArrayBounds.Proofs.Walk.Invariants
import Mathlib.Logic.Relation

/-! # The parts of a walk

A walk through a range makes walks through other ranges: the arms of a branch, the passes over a
loop, and what is left of the range behind an instruction. Each of them is a `Stretch` with a frame
and a run of its own. The relation `ArrayBounds.Interpreter.Part` leads from a stretch to the
stretches that its first instruction makes, and nothing else matters to what that instruction does
(`ArrayBounds.Interpreter.step_eq_of_parts`).
-/

namespace ArrayBounds.Interpreter

open Program

/-- A range that is walked through, with the frame and the run at its start. -/
structure Stretch where
  first : Nat
  last : Nat
  frame : Frame
  run : Run

/-- A loop that may make at most `limit` passes makes one from the frame `g`, after passes that have
all changed the frame. -/
def Reruns (pass : Frame → Analysis Frame) (limit : Nat) (f : Frame) (run : Run) (g : Frame)
    (left : Run) : Prop :=
  ∃ flags, (∀ flag ∈ flags, flag = true) ∧ flags.length < limit ∧ Passes pass flags f run g left

namespace Stretch

/-- The frame at the first instruction of a stretch. -/
def entry (s : Stretch) : Frame :=
  { s.frame with pc := s.first }

/-- What lies between a branch at the start of a stretch and its target, on the side where the
branch is not taken. -/
def through (s : Stretch) (condition : Condition) (target : Nat) (operands : List VarId)
    (popped : Frame) (run : Run) : Stretch :=
  ⟨s.first + 1, min (target - 1) s.last, popped.fork.assumeCondition condition operands false, run⟩

/-- What lies between the target of the branch and the place where the other side jumps to. -/
def taken (s : Stretch) (condition : Condition) (target meeting : Nat) (operands : List VarId)
    (popped other : Frame) (run : Run) : Stretch :=
  ⟨target, min (meeting - 1) s.last,
    ((popped.assumeCondition condition operands true).drawAfter other).fork, run⟩

end Stretch

variable (setting : Setting) (body : Body) (callee : Callee)

/-- What the walk through a stretch comes to. -/
def outcome (s : Stretch) : EStateM.Result AnalysisError Run Frame :=
  walk setting body callee s.first s.last s.frame s.run

/-- The stretch starts with the instruction, which is announced in the run. -/
structure Arrives (s : Stretch) (instruction : Instruction) (run : Run) : Prop where
  found : body.method.instructions[s.first]? = some instruction
  reach : s.first ≤ s.last
  announced : Analysis.emit setting (.instructionReached body.key s.first) s.run = .ok () run

/-- The stretch starts with a branch ahead, which finds its operands. -/
structure Forks (s : Stretch) (condition : Condition) (target : Nat) (operands : List VarId)
    (popped : Frame) (run : Run) :
    Prop extends Arrives setting body s (.branch condition target) run where
  ahead : s.first < target
  popping : s.entry.popN condition.arity = .ok (operands, popped)

/-- What is left of a stretch behind its first instruction. -/
inductive Next (s : Stretch) : Stretch → Prop where
  | onward {instruction : Instruction} {g : Frame} {after : Run}
      (found : body.method.instructions[s.first]? = some instruction) (reach : s.first ≤ s.last)
      (stepped : step setting body callee (walk setting body callee)
        s.last instruction s.entry s.run =
        .ok (.next g) after) : Next s ⟨s.first + 1, s.last, g, after⟩
  | ahead {instruction : Instruction} {position : Nat} {g : Frame} {after : Run}
      (found : body.method.instructions[s.first]? = some instruction) (reach : s.first ≤ s.last)
      (stepped : step setting body callee (walk setting body callee)
        s.last instruction s.entry s.run =
        .ok (.resume position g) after) : Next s ⟨position, s.last, g, after⟩

/-- The arms of a branch at the start of a stretch. The second one is walked through only if the
first one ends in a jump ahead. -/
inductive Arm (s : Stretch) : Stretch → Prop where
  | through {condition : Condition} {target : Nat} {operands : List VarId}
      {popped : Frame} {run : Run}
      (forks : Forks setting body s condition target operands popped run) :
      Arm s (s.through condition target operands popped run)
  | taken {condition : Condition} {target meeting : Nat} {operands : List VarId}
      {popped other : Frame}
      {run between announced : Run}
      (forks : Forks setting body s condition target operands popped run)
      (walked : outcome setting body callee (s.through condition target operands popped run) =
      .ok other between)
      (pending : other.pendingJump = some meeting) (later : s.first < meeting)
      (inside : target < meeting)
      (announces : Analysis.emit setting (.armsFound body.key s.first target meeting) between =
        .ok () announced) :
      Arm s (s.taken condition target meeting operands popped other announced)

/-- The passes over a loop that is closed at the start of a stretch: by an arm that ends in a jump
back, or by a branch back. -/
inductive Repeat (s : Stretch) : Stretch → Prop where
  | jump {arm : Stretch} {f g : Frame} {back : Nat} {between run left : Run}
      (part : Arm setting body callee s arm)
      (walked : outcome setting body callee arm = .ok f between)
      (pending : f.pendingJump = some back) (behind : back ≤ s.first)
      (announces : Analysis.emit setting (.loopFound body.key back (min (f.pc - 1) s.last))
      between = .ok () run)
      (again : Reruns (walk setting body callee back (min (f.pc - 1) s.last))
        setting.limits.loopPasses f run g left) :
      Repeat s ⟨back, min (f.pc - 1) s.last, g.fork, left.countPass⟩
  | branch {condition : Condition} {target : Nat} {g h : Frame} {run left after : Run}
      (arrives : Arrives setting body s (.branch condition target) run) (behind : target < s.first)
      (again : Reruns (branchPass (walk setting body callee) condition target s.first)
        setting.limits.loopPasses s.entry run g left)
      (assumed : assuming condition true g.fork left.countPass = .ok h after) :
      Repeat s ⟨target, s.first - 1, h, after⟩

/-- The stretches that a walk through a stretch makes at its first instruction and right behind
it. -/
inductive Part (s : Stretch) : Stretch → Prop where
  | next {t : Stretch} (next : Next setting body callee s t) : Part s t
  | arm {t : Stretch} (arm : Arm setting body callee s t) : Part s t
  | again {t : Stretch} (again : Repeat setting body callee s t) : Part s t

/-- The stretches that are walked through in the course of a walk, itself included. -/
abbrev Within : Stretch → Stretch → Prop :=
  Relation.ReflTransGen (Part setting body callee)

namespace Stretch

/-- What is left of the stretch behind its first instruction, if the walk goes on there. -/
def next? (s : Stretch) : Option Stretch :=
  match body.method.instructions[s.first]? with
  | none => none
  | some instruction =>
    if s.first ≤ s.last then
      match step setting body callee (walk setting body callee)
        s.last instruction s.entry s.run with
      | .ok (.next g) after => some ⟨s.first + 1, s.last, g, after⟩
      | .ok (.resume position g) after => some ⟨position, s.last, g, after⟩
      | _ => none
    else none

/-- What is left of the stretch behind so many instructions, if the walk gets there. -/
def following? : (count : Nat) → Stretch → Option Stretch
  | 0, s => some s
  | count + 1, s => (s.next? setting body callee).bind (following? count)

end Stretch

variable {setting body callee} {s t : Stretch}

/-! ## Walks that are carried out -/

/-- What is found by carrying out an instruction is what is left behind it. -/
theorem next_of_next? (found : s.next? setting body callee = some t) :
    Next setting body callee s t := by
  unfold Stretch.next? at found
  split at found
  case h_1 => cases found
  case h_2 instruction here =>
    split at found
    case isFalse => cases found
    case isTrue reach =>
      split at found
      case h_1 g after stepped =>
        obtain rfl := Option.some.inj found
        exact .onward here reach stepped
      case h_2 position g after stepped =>
        obtain rfl := Option.some.inj found
        exact .ahead here reach stepped
      case h_3 => cases found

/-- Whatever a walk gets to that is carried out is part of it. -/
theorem within_of_following? (count : Nat)
    (found : s.following? setting body callee count = some t) : Within setting body callee s t := by
  induction count generalizing s with
  | zero =>
      obtain rfl := Option.some.inj found
      exact .refl
  | succ count ih =>
      obtain ⟨next, moved, found⟩ := Option.bind_eq_some_iff.mp found
      exact .head (.next (next_of_next? moved)) (ih found)

/-! ## Smaller ranges -/

/-- What is left of a stretch starts later and ends at the same place. -/
theorem Next.later (next : Next setting body callee s t) : s.first < t.first ∧ t.last = s.last := by
  cases next with
  | onward found reach stepped => exact ⟨Nat.lt_succ_self _, rfl⟩
  | ahead found reach stepped => exact ⟨lt_of_resume (f := s.entry) found reach stepped, rfl⟩

/-- An arm starts later and ends no later. -/
theorem Arm.later (arm : Arm setting body callee s t) : s.first < t.first ∧ t.last ≤ s.last := by
  cases arm with
  | through forks => exact ⟨Nat.lt_succ_self _, Nat.min_le_right _ _⟩
  | taken forks walked pending later inside announces => exact ⟨forks.ahead, Nat.min_le_right _ _⟩

/-- An arm starts without a jump. -/
private theorem Arm.starts (arm : Arm setting body callee s t) : t.frame.pendingJump = none := by
  cases arm with
  | through forks =>
      rw [Stretch.through, ← Frame.control_pendingJump, Frame.control_assumeCondition]
      rfl
  | taken forks walked pending later inside announces => rfl

/-- An arm that ends in a jump ends at an instruction behind the branch, within the range. -/
theorem Arm.pending (arm : Arm setting body callee s t) {f : Frame} {after : Run} {back : Nat}
    (walked : outcome setting body callee t = .ok f after) (pending : f.pendingJump = some back) :
    s.first < f.pc ∧ f.pc ≤ s.last ∧ f.pc < body.method.instructions.size := by
  have moved := (moves_interpret (fuel body)).pending walked arm.starts pending
  have later := arm.later
  omega

/-- A pass over a loop ends earlier, before the last instruction. -/
theorem Repeat.earlier (again : Repeat setting body callee s t) :
    t.last < s.last ∧ t.last + 1 < body.method.instructions.size := by
  cases again with
  | jump part walked pending behind announces again =>
      have moved := part.pending walked pending
      dsimp only
      omega
  | branch arrives behind again assumed =>
      obtain ⟨inside, -⟩ := Array.getElem?_eq_some_iff.mp arrives.found
      have reach := arrives.reach
      dsimp only
      omega

/-- A stretch with parts is not empty. -/
theorem Part.inside (part : Part setting body callee s t) :
    s.first < body.method.instructions.size ∧ s.first ≤ s.last := by
  have armInside {t : Stretch} (arm : Arm setting body callee s t) :
      s.first < body.method.instructions.size ∧ s.first ≤ s.last := by
    cases arm with
    | through forks => exact ⟨(Array.getElem?_eq_some_iff.mp forks.found).1, forks.reach⟩
    | taken forks => exact ⟨(Array.getElem?_eq_some_iff.mp forks.found).1, forks.reach⟩
  cases part with
  | next next =>
      cases next with
      | onward found reach => exact ⟨(Array.getElem?_eq_some_iff.mp found).1, reach⟩
      | ahead found reach => exact ⟨(Array.getElem?_eq_some_iff.mp found).1, reach⟩
  | arm arm => exact armInside arm
  | again again =>
      cases again with
      | jump part => exact armInside part
      | branch arrives => exact ⟨(Array.getElem?_eq_some_iff.mp arrives.found).1, arrives.reach⟩

/-- Parts of a walk are smaller than the walk. -/
theorem Part.extent_lt (part : Part setting body callee s t) :
    extent body.method.instructions.size t.first t.last <
      extent body.method.instructions.size s.first s.last := by
  obtain ⟨inside, reach⟩ := part.inside
  cases part with
  | next next => exact extent_lt_of_later inside reach next.later.1 (Nat.le_of_eq next.later.2)
  | arm arm => exact extent_lt_of_later inside reach arm.later.1 arm.later.2
  | again again => exact extent_lt_of_earlier inside reach again.earlier.1 again.earlier.2

/-! ## Invariants of parts -/

section

variable {F : Frame → Prop} {R : Run → Prop} {E : AnalysisError → Prop} {G : Variable → Prop}
  (frames : Frame.Invariant F G) (runs : Respects setting callee R E G)
include frames runs

/-- Invariants hold at the end of a walk that succeeds. -/
theorem outcome_keeps {g : Frame} {after : Run}
    (walked : outcome setting body callee t = .ok g after) (here : F t.frame) (holds : R t.run) :
    F g ∧ R after :=
  (keeps_walk frames runs here t.first t.last).ok holds walked

/-- Invariants hold after every pass over a loop. -/
theorem Passes.keeps {pass : Frame → Analysis Frame}
    (each : ∀ f, F f → Analysis.Keeps R E (pass f) F) {flags : List Bool} {f g : Frame}
    {run left : Run} (passes : Passes pass flags f run g left) (here : F f) (holds : R run) :
    F g ∧ R left := by
  induction passes with
  | none => exact ⟨here, holds⟩
  | @more f after g run between left flags passed rest ih =>
      have counted : R run.countPass := runs.same holds rfl rfl
      obtain ⟨there, holds⟩ := (each f.fork (frames.forked here)).ok counted passed
      exact ih (frames.joined here there) holds

/-- Invariants hold before each further pass. -/
private theorem Reruns.keeps {pass : Frame → Analysis Frame}
    (each : ∀ f, F f → Analysis.Keeps R E (pass f) F) {limit : Nat} {f g : Frame} {run left : Run}
    (again : Reruns pass limit f run g left) (here : F f) (holds : R run) :
    F g.fork ∧ R left.countPass := by
  obtain ⟨flags, -, -, passes⟩ := again
  obtain ⟨there, holds⟩ := passes.keeps frames runs each here holds
  exact ⟨frames.forked there, runs.same holds rfl rfl⟩

/-- Invariants hold after a branch has popped its operands. -/
theorem Forks.keeps {condition : Condition} {target : Nat} {operands : List VarId}
    {popped : Frame} {run : Run} (forks : Forks setting body s condition target operands popped run)
    (here : F s.frame) (holds : R s.run) : F popped ∧ R run :=
  ⟨frames.popped (frames.moved here s.first) forks.popping,
    ((keeps_emit runs _).ok holds forks.announced).2⟩

/-- Invariants hold at the start of the arms of a branch. -/
theorem Arm.keeps (arm : Arm setting body callee s t) (here : F s.frame) (holds : R s.run) :
    F t.frame ∧ R t.run := by
  cases arm with
  | through forks =>
      obtain ⟨there, holds⟩ := forks.keeps frames runs here holds
      exact ⟨frames.assumed (frames.forked there) _ _ _, holds⟩
  | taken forks walked pending later inside announces =>
      obtain ⟨there, holds⟩ := forks.keeps frames runs here holds
      obtain ⟨-, holds⟩ :=
        outcome_keeps frames runs walked (frames.assumed (frames.forked there) _ _ _) holds
      exact ⟨frames.forked (frames.drawn (frames.assumed there _ _ _) _),
        ((keeps_emit runs _).ok holds announces).2⟩

/-- What holds at the start of a stretch holds at the start of each of its parts. -/
theorem Part.keeps (part : Part setting body callee s t) (here : F s.frame) (holds : R s.run) :
    F t.frame ∧ R t.run := by
  have walks (first last : Nat) (f : Frame) (here : F f) :
      Analysis.Keeps R E (walk setting body callee first last f) F :=
        keeps_walk frames runs here first last
  have entered : F s.entry := frames.moved here s.first
  cases part with
  | next next =>
      cases next with
      | onward found reach stepped =>
          exact (keeps_step frames runs walks entered _ _).ok holds stepped
      | ahead found reach stepped =>
          exact (keeps_step frames runs walks entered _ _).ok holds stepped
  | arm arm => exact arm.keeps frames runs here holds
  | again again =>
      cases again with
      | jump arm walked pending behind announces again =>
          obtain ⟨here, holds⟩ := arm.keeps frames runs here holds
          obtain ⟨here, holds⟩ := outcome_keeps frames runs walked here holds
          exact again.keeps frames runs (walks _ _) here ((keeps_emit runs _).ok holds announces).2
      | branch arrives behind again assumed =>
          obtain ⟨here, holds⟩ :=
            again.keeps frames runs (fun f here => keeps_branchPass frames runs walks here _ _ _)
              entered ((keeps_emit runs _).ok holds arrives.announced).2
          exact (keeps_assuming frames runs here _ _).ok holds assumed

/-- Invariants hold at the start of all parts of a walk. -/
theorem within_keeps (within : Within setting body callee s t) (here : F s.frame)
    (holds : R s.run) : F t.frame ∧ R t.run := by
  induction within with
  | refl => exact ⟨here, holds⟩
  | tail _ part ih => exact part.keeps frames runs ih.1 ih.2

end

/-! ## Nothing but the parts matters -/

/-- Repeated passes depend on the passes that are made only. -/
private theorem untilStable_congr {pass pass' : Frame → Analysis Frame} {giveUp : Analysis Unit}
    {limit : Nat} {f : Frame} {run : Run}
    (agree : ∀ g left, Reruns pass limit f run g left →
      pass' g.fork left.countPass = pass g.fork left.countPass) :
    untilStable pass' giveUp limit f run = untilStable pass giveUp limit f run := by
  induction limit generalizing f run with
  | zero => rfl
  | succ limit ih =>
      rw [untilStable_succ, untilStable_succ, agree f run ⟨[], by simp, by simp, .none f run⟩]
      cases passed : pass f.fork run.countPass with
      | error error final => rfl
      | ok after between =>
          dsimp only [Analysis.andThen]
          cases changed : (f.join after).2 with
          | false => rfl
          | true =>
              rw [if_pos rfl, if_pos rfl]
              refine ih fun g left ⟨flags, changing, fewer, passes⟩ =>
                agree g left ⟨true :: flags, ?_, ?_, ?_⟩
              · simpa using changing
              · exact Nat.succ_lt_succ fewer
              · exact changed ▸ passes.more passed

/-- A walk that agrees with the interpreter on the arms and loops at the start of a stretch. -/
def Agrees (setting : Setting) (body : Body) (callee : Callee) (s : Stretch) (other : Walk) :
    Prop :=
  ∀ t, Arm setting body callee s t ∨ Repeat setting body callee s t →
    other t.first t.last t.frame t.run = outcome setting body callee t

variable {other : Walk} (agrees : Agrees setting body callee s other)
include agrees

/-- A loop that a jump back closes depends on its passes only. -/
private theorem jumpLoop_eq_of_parts {arm : Stretch} {f : Frame} {back : Nat} {between : Run}
    (part : Arm setting body callee s arm)
    (walked : outcome setting body callee arm = .ok f between) (pending : f.pendingJump = some back)
    (behind : back ≤ s.first) :
    jumpLoop setting body other back s.last f between =
      jumpLoop setting body (walk setting body callee) back s.last f between := by
  obtain ⟨log, announces⟩ :=
    Analysis.emit_succeeds setting (.loopFound body.key back (min (f.pc - 1) s.last)) between
  rw [jumpLoop_eq, jumpLoop_eq, Analysis.bind_eq_andThen, Analysis.bind_eq_andThen, announces]
  exact untilStable_congr fun g left again =>
    agrees _ (.inr (.jump part walked pending behind announces again))

/-- A loop that a branch back closes depends on its passes only. -/
private theorem branchLoop_eq_of_parts {condition : Condition} {target : Nat} {run : Run}
    (arrives : Arrives setting body s (.branch condition target) run) :
    branchLoop setting body other condition target s.entry run =
      branchLoop setting body (walk setting body callee) condition target s.entry run := by
  rw [branchLoop_eq, branchLoop_eq, Analysis.bind_eq_andThen, Analysis.bind_eq_andThen]
  refine Analysis.andThen_congr (untilStable_congr fun g left again => ?_) fun _ _ _ => rfl
  unfold branchPass
  rw [Analysis.bind_eq_andThen, Analysis.bind_eq_andThen]
  refine Analysis.andThen_congr rfl fun h after assumed => ?_
  split
  case isTrue behind => exact agrees _ (.inr (.branch arrives behind again assumed))
  case isFalse => rfl

/-- The arms of a branch depend on the walks over them only. -/
private theorem arms_eq_of_parts {condition : Condition} {target : Nat} {operands : List VarId}
    {popped through : Frame} {run between : Run}
    (forks : Forks setting body s condition target operands popped run)
    (walked : outcome setting body callee (s.through condition target operands popped run) =
      .ok through between) :
    arms setting body other s.first target s.last (popped.assumeCondition condition operands true)
      through between =
      arms setting body (walk setting body callee) s.first target s.last
        (popped.assumeCondition condition operands true) through between := by
  unfold arms
  cases pending : through.pendingJump with
  | none => rfl
  | some meeting =>
      dsimp only
      split
      case isFalse earlier =>
        rw [Analysis.bind_eq_andThen, Analysis.bind_eq_andThen,
          jumpLoop_eq_of_parts agrees (.through forks) walked pending (Nat.le_of_not_lt earlier)]
      case isTrue later =>
        rw [Analysis.bind_eq_andThen, Analysis.bind_eq_andThen]
        refine Analysis.andThen_congr rfl fun _ announced announces => ?_
        rw [Analysis.bind_eq_andThen, Analysis.bind_eq_andThen, takenArm_eq, takenArm_eq,
          Analysis.bind_eq_andThen, Analysis.bind_eq_andThen]
        refine Analysis.andThen_congr ?_ fun _ _ _ => rfl
        by_cases inside : target < meeting
        · have part : Arm setting body callee s _ :=
            .taken forks walked pending later inside announces
          rw [if_pos inside, if_pos inside]
          refine Analysis.andThen_congr (agrees _ (.inl part)) fun arm after ended => ?_
          unfold closing
          cases jumps : arm.pendingJump with
          | none => rfl
          | some back =>
              dsimp only
              split
              case isTrue behind => exact jumpLoop_eq_of_parts agrees part ended jumps behind
              case isFalse => rfl
        · rw [if_neg inside, if_neg inside]
          rfl

/-- What an instruction does depends on the walks through its parts, and on no other walk. -/
theorem step_eq_of_parts {instruction : Instruction}
    (found : body.method.instructions[s.first]? = some instruction) (reach : s.first ≤ s.last) :
    step setting body callee other s.last instruction s.entry s.run =
      step setting body callee (walk setting body callee) s.last instruction s.entry s.run := by
  cases instruction with
  | branch condition target =>
      rw [step_branch, step_branch, Analysis.bind_eq_andThen, Analysis.bind_eq_andThen]
      refine Analysis.andThen_congr rfl fun _ run announced => ?_
      have arrives : Arrives setting body s (.branch condition target) run :=
        ⟨found, reach, announced⟩
      by_cases back : target ≤ s.entry.pc
      · rw [branch_backward setting body _ _ condition back,
          branch_backward setting body _ _ condition back, Analysis.bind_eq_andThen,
          Analysis.bind_eq_andThen, branchLoop_eq_of_parts agrees arrives]
      · have ahead : s.entry.pc < target := Nat.lt_of_not_le back
        rw [branch_forward setting body _ _ condition ahead,
          branch_forward setting body _ _ condition ahead, Analysis.bind_eq_andThen,
          Analysis.bind_eq_andThen]
        refine Analysis.andThen_congr rfl fun popped _ lifted => ?_
        obtain ⟨popping, rfl⟩ := Analysis.lift_eq_ok_iff.mp lifted
        have forks : Forks setting body s condition target popped.1 popped.2 run :=
          ⟨arrives, ahead, popping⟩
        rw [Analysis.bind_eq_andThen, Analysis.bind_eq_andThen]
        refine Analysis.andThen_congr (agrees _ (.inl (.through forks)))
          fun through between walked => ?_
        rw [Analysis.bind_eq_andThen, Analysis.bind_eq_andThen]
        exact Analysis.andThen_congr (arms_eq_of_parts agrees forks walked) fun _ _ _ => rfl
  | ret kind => cases kind <;> rfl
  | _ => rfl

end ArrayBounds.Interpreter
