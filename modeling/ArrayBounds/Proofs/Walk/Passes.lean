import ArrayBounds.Proofs.Domain.Slack
import ArrayBounds.Proofs.Walk.Equations

/-! # The passes over a loop

A loop is a sequence of passes over its body, each of which is joined into the frame at the loop
(`ArrayBounds.Interpreter.Passes`). Whatever the body does, only so many of these joins can change
the frame. So a loop comes to a pass that changes nothing if it may make more passes than that, and
it never gives up (`ArrayBounds.Interpreter.loops_stabilise`).
-/

namespace ArrayBounds

/-- The run with one more pass over a loop counted. -/
def Run.countPass (run : Run) : Run :=
  { run with statistics.loopIterations := run.statistics.loopIterations + 1 }

/-- Goes on from a result with another step; an error stays as it is. -/
def Analysis.andThen {α β : Type} (next : α → Analysis β) :
    EStateM.Result AnalysisError Run α → EStateM.Result AnalysisError Run β
  | .ok value run => next value run
  | .error error run => .error error run

/-- The second part of a sequence takes up the result of the first part. -/
theorem Analysis.bind_eq_andThen {α β : Type} (first : Analysis α)
    (next : α → Analysis β) (run : Run) :
    (first >>= next) run = Analysis.andThen next (first run) := by
  change EStateM.bind first next run = _
  unfold EStateM.bind
  cases first run <;> rfl

/-- Sequences are equal if their parts are, where they are carried out. -/
theorem Analysis.andThen_congr {α β : Type} {next next' : α → Analysis β}
    {result result' : EStateM.Result AnalysisError Run α} (same : result = result')
    (rest : ∀ value run, result' = .ok value run → next value run = next' value run) :
    Analysis.andThen next result = Analysis.andThen next' result' := by
  subst same
  cases done : result with
  | ok value run => exact rest value run done
  | error error run => rfl

namespace Interpreter

open Program

/-- Completed passes over a loop, one after the other, from a frame and a run to the frame and the
run behind them. For each pass there is a flag that says whether joining its result changed the
frame. -/
inductive Passes (pass : Frame → Analysis Frame) :
    List Bool → Frame → Run → Frame → Run → Prop where
  | none (f : Frame) (run : Run) : Passes pass [] f run f run
  | more {f after g : Frame} {run between left : Run} {flags : List Bool}
      (passed : pass f.fork run.countPass = .ok after between)
      (rest : Passes pass flags (f.join after).1 between g left) :
      Passes pass ((f.join after).2 :: flags) f run g left

/-- A loop comes to an end by itself, in the given number of passes: with a pass that changes
nothing, or with an error that a pass raises. -/
inductive Settles (pass : Frame → Analysis Frame) (f : Frame) (run : Run) :
    Nat → EStateM.Result AnalysisError Run Frame → Prop where
  | stable {flags : List Bool} {g : Frame} {left : Run} (changing : ∀ flag ∈ flags, flag = true)
      (passes : Passes pass (flags ++ [false]) f run g left) :
      Settles pass f run (flags.length + 1) (.ok g left)
  | failed {flags : List Bool} {g : Frame} {left final : Run} {error : AnalysisError}
      (changing : ∀ flag ∈ flags, flag = true) (passes : Passes pass flags f run g left)
      (raised : pass g.fork left.countPass = .error error final) :
      Settles pass f run (flags.length + 1) (.error error final)

/-- What a loop comes to that may make at most `limit` passes. If it cannot change its frame so
often, it settles; else it may also be given up, after passes that have all changed the frame. -/
def Concludes (pass : Frame → Analysis Frame) (giveUp : Analysis Unit) (limit : Nat)
    (f : Frame) (run : Run) (outcome : EStateM.Result AnalysisError Run Frame) : Prop :=
  (∃ count, count ≤ limit ∧ count ≤ f.slack + 1 ∧ Settles pass f run count outcome) ∨
    limit ≤ f.slack ∧ ∃ flags g left, (∀ flag ∈ flags, flag = true) ∧ flags.length = limit ∧
      Passes pass flags f run g left ∧ outcome = (giveUp >>= fun _ => pure g) left

variable {pass : Frame → Analysis Frame} {giveUp : Analysis Unit} {limit : Nat} {f g : Frame}
  {run left : Run} {flags : List Bool}

/-- Each pass that changes the frame uses up knowledge. -/
theorem Passes.knowledge (passes : Passes pass flags f run g left) :
    g.knowledge + flags.count true ≤ f.knowledge := by
  induction passes with
  | none => exact Nat.le_refl _
  | @more f after g run between left flags passed rest ih =>
      have joined := f.knowledge_join after
      cases changed : (f.join after).2 with
      | false =>
          rw [List.count_cons_of_ne (by decide)]
          omega
      | true =>
          rw [List.count_cons_self]
          rw [changed, Bool.toNat_true] at joined
          omega

private theorem Passes.count_le_slack (passes : Passes pass flags f run g left) :
    flags.count true ≤ f.slack := by
  have used := passes.knowledge
  have limit := f.knowledge_le_slack
  omega

private theorem count_of_changing (changing : ∀ flag ∈ flags, flag = true) :
    flags.count true = flags.length :=
  List.count_eq_length.mpr fun flag member => (changing flag member).symm

private theorem Passes.length_le_slack (passes : Passes pass flags f run g left)
    (changing : ∀ flag ∈ flags, flag = true) : flags.length ≤ f.slack := by
  rw [← count_of_changing changing]
  exact passes.count_le_slack

/-- The first pass of a loop. -/
theorem untilStable_succ (pass : Frame → Analysis Frame) (giveUp : Analysis Unit) (limit : Nat)
    (f : Frame) (run : Run) :
    untilStable pass giveUp (limit + 1) f run =
      Analysis.andThen
        (fun after => if (f.join after).2 then untilStable pass giveUp limit (f.join after).1
          else pure (f.join after).1) (pass f.fork run.countPass) := by
  rw [untilStable, Analysis.bind_eq_andThen]
  change (pass f.fork >>= _) run.countPass = _
  rw [Analysis.bind_eq_andThen]

/-- A loop settles within its limit, or is given up at the limit after passes that have all changed
the frame. -/
theorem untilStable_passes (pass : Frame → Analysis Frame) (giveUp : Analysis Unit) (limit : Nat)
    (f : Frame) (run : Run) :
    (∃ count ≤ limit, Settles pass f run count (untilStable pass giveUp limit f run)) ∨
      ∃ flags g left, (∀ flag ∈ flags, flag = true) ∧ flags.length = limit ∧
        Passes pass flags f run g left ∧
        untilStable pass giveUp limit f run = (giveUp >>= fun _ => pure g) left := by
  induction limit generalizing f run with
  | zero => exact .inr ⟨[], f, run, by simp, rfl, .none f run, rfl⟩
  | succ limit ih =>
      rw [untilStable_succ]
      cases passed : pass f.fork run.countPass with
      | error error final => exact .inl ⟨1, by omega, .failed (by simp) (.none f run) passed⟩
      | ok after between =>
          dsimp only [Analysis.andThen]
          cases changed : (f.join after).2 with
          | false =>
              have last := Passes.more passed (.none (f.join after).1 between)
              rw [changed] at last
              exact .inl ⟨1, by omega, @Settles.stable pass f run [] _ _ (by simp) last⟩
          | true =>
              have grow {flags : List Bool} (changing : ∀ flag ∈ flags, flag = true) :
                  ∀ flag ∈ true :: flags, flag = true := by simpa using changing
              rw [if_pos rfl]
              obtain ⟨count, within, settles⟩ | ⟨flags, g, left, changing, full, passes, same⟩ :=
                ih (f.join after).1 between
              · refine .inl ⟨count + 1, by omega, ?_⟩
                generalize untilStable pass giveUp limit (f.join after).1 between =
                  outcome at settles
                cases settles with
                | stable changing passes =>
                    exact .stable (grow changing) (changed ▸ passes.more passed)
                | failed changing passes raised =>
                    exact .failed (grow changing) (changed ▸ passes.more passed) raised
              · exact .inr ⟨true :: flags, g, left, grow changing, congrArg (· + 1) full,
                  changed ▸ passes.more passed, same⟩

/-- Repeated passes settle or are given up. -/
private theorem concludes_untilStable (pass : Frame → Analysis Frame) (giveUp : Analysis Unit)
    (limit : Nat) (f : Frame) (run : Run) :
    Concludes pass giveUp limit f run (untilStable pass giveUp limit f run) := by
  obtain ⟨count, within, settles⟩ | ⟨flags, g, left, changing, full, passes, same⟩ :=
    untilStable_passes pass giveUp limit f run
  · refine .inl ⟨count, within, ?_, settles⟩
    generalize untilStable pass giveUp limit f run = outcome at settles
    cases settles with
    | @stable flags g left changing passes =>
        have used := passes.count_le_slack
        rw [List.count_append, count_of_changing changing] at used
        omega
    | failed changing passes raised => exact Nat.succ_le_succ (passes.length_le_slack changing)
  · exact .inr
      ⟨full ▸ passes.length_le_slack changing, flags, g, left, changing, full, passes, same⟩

/-- Of any frames that are joined into `f`, at most `f.slack` change it. Hence a loop at `f` makes
at most `f.slack + 1` passes, whatever walk its body is made of, and if it may make more than
`f.slack` it ends with a pass that changes nothing and is not given up, unless a pass raises an
error. -/
theorem loops_stabilise (f : Frame) :
    (∀ others : Nat → Frame, (f.changes others).encard ≤ f.slack) ∧
      ∀ (setting : Setting) (body : Body) (walk : Walk) (run : Run),
        (∀ back last, ∃ announced,
          Analysis.emit setting (.loopFound body.key back (min (f.pc - 1) last)) run =
            .ok () announced ∧
          Concludes (walk back (min (f.pc - 1) last))
            (loopUnstable setting body back (min (f.pc - 1) last))
            setting.limits.loopPasses f announced (jumpLoop setting body walk back last f run)) ∧
        ∀ condition target, ∃ outcome,
          Concludes (branchPass walk condition target f.pc) (loopUnstable setting body target f.pc)
            setting.limits.loopPasses f run outcome ∧
          branchLoop setting body walk condition target f run =
            Analysis.andThen (fun g => assuming condition false { g with pc := f.pc }) outcome := by
  refine ⟨f.encard_changes_le,
    fun setting body walk run => ⟨fun back last => ?_, fun condition target => ?_⟩⟩
  · obtain ⟨log, emitted⟩ :=
      Analysis.emit_succeeds setting (.loopFound body.key back (min (f.pc - 1) last)) run
    refine ⟨_, emitted, ?_⟩
    rw [jumpLoop_eq, Analysis.bind_eq_andThen, emitted]
    exact concludes_untilStable _ _ _ f _
  · refine ⟨_, concludes_untilStable _ _ _ f run, ?_⟩
    rw [branchLoop_eq, Analysis.bind_eq_andThen]

end Interpreter

end ArrayBounds
