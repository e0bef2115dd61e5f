import ArrayBounds.Analysis.Error
import ArrayBounds.Analysis.Log
import ArrayBounds.Analysis.Report
import ArrayBounds.Program.Repository
import Std.Data.ExtTreeSet

/-! # The state of an analysis

An analysis works in a fixed setting: the loaded classes, the names of those to be analysed, and
limits on how often a loop or a recursive method is repeated. What it finds out on the way is kept
in a `Run`, which survives an error.
-/

namespace ArrayBounds

/-- Limits on repetitions. -/
structure Limits where
  /-- How often the body of a loop is repeated at most. -/
  loopPasses : Nat := 32
  /-- How often a recursive method is repeated at most. -/
  recursionPasses : Nat := 16
deriving DecidableEq, Repr, Inhabited

/-- The limits, raised to one where they are zero. -/
def Limits.atLeastOne (limits : Limits) : Limits :=
  { loopPasses := max limits.loopPasses 1, recursionPasses := max limits.recursionPasses 1 }

/-- The setting of an analysis. -/
structure Setting where
  repository : Repository
  /-- The classes to be analysed. Calls into other classes are not followed. -/
  analyzed : List String
  limits : Limits := {}
  verbosity : Level := .warn

/-- Calls into the class are followed. -/
def Setting.isAnalyzed (setting : Setting) (className : String) : Bool :=
  setting.analyzed.contains className

/-- What an analysis has found out so far. -/
structure Run where
  /-- The methods whose analysis has started but not ended. -/
  inProgress : Std.ExtTreeSet MethodKey := ∅
  /-- The methods that were called while they were in progress. -/
  recursive : Std.ExtTreeSet MethodKey := ∅
  memo : Memo := {}
  findings : Findings := ∅
  statistics : Statistics := {}
  /-- The events that the setting wants to see. -/
  log : Array Event := #[]

instance : Inhabited Run := ⟨{}⟩

/-- A step of an analysis. An error keeps what has been found out before. -/
abbrev Analysis := EStateM AnalysisError Run

namespace Analysis

/-- A step that only looks at a frame. -/
def ofExcept {α : Type} : Except AnalysisError α → Analysis α
  | .ok value => pure value
  | .error error => throw error

instance : MonadLift (Except AnalysisError) Analysis := ⟨ofExcept⟩

/-- Reads a method descriptor. -/
def parseDescriptor (text : String) : Analysis MethodDescriptor :=
  match MethodDescriptor.parse text with
  | .ok descriptor => pure descriptor
  | .error error => throw (.invalidDescriptor error)

/-- Records an event if the setting wants to see it. -/
def emit (setting : Setting) (event : Event) : Analysis Unit :=
  if setting.verbosity.shows event.level then modify fun run =>
    { run with log := run.log.push event }
  else pure ()

/-- Changes the counters. -/
def count (change : Statistics → Statistics) : Analysis Unit :=
  modify fun run => { run with statistics := change run.statistics }

/-- Stores the result of a method. -/
def remember (key : MethodKey) (result : Variable) : Analysis Unit :=
  modify fun run => { run with memo := run.memo.insert key result }

/-- Notes that a method was called while it was in progress. -/
def markRecursive (key : MethodKey) : Analysis Unit :=
  modify fun run => { run with recursive := run.recursive.insert key }

/-- Forgets that a method was called while it was in progress. -/
def unmarkRecursive (key : MethodKey) : Analysis Unit :=
  modify fun run => { run with recursive := run.recursive.erase key }

/-- Takes a step during which a method is in progress. -/
def whileInProgress {α : Type} (key : MethodKey) (step : Analysis α) : Analysis α := fun run =>
  match step { run with inProgress := run.inProgress.insert key } with
  | .ok value run => .ok value { run with inProgress := run.inProgress.erase key }
  | .error error run => .error error { run with inProgress := run.inProgress.erase key }

end Analysis

end ArrayBounds
