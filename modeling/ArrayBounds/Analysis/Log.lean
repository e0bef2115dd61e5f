import ArrayBounds.Analysis.Memo

/-! # The log

What happens while classes are loaded and analysed is recorded as a sequence of events. Each event
has a level, and the log of a level shows the events of that level and of all levels before it.
-/

namespace ArrayBounds

/-- Counters of an analysis. -/
structure Statistics where
  /-- Method bodies walked through, repetitions included. -/
  methodsAnalyzed : Nat := 0
  opaqueCalls : Nat := 0
  /-- Repetitions of loop bodies. -/
  loopIterations : Nat := 0
  /-- Repetitions of recursive methods. -/
  recursionIterations : Nat := 0
deriving DecidableEq, Repr, Inhabited

/-- How much a log shows. -/
inductive Level where
  | warn
  | info
  | debug
  | trace
deriving DecidableEq, Repr, Inhabited

namespace Level

def rank : Level → Nat
  | warn => 0
  | info => 1
  | debug => 2
  | trace => 3

def text : Level → String
  | warn => "WARN"
  | info => "INFO"
  | debug => "DEBUG"
  | trace => "TRACE"

/-- A log at this level shows the events of the other one. -/
def shows (level other : Level) : Bool :=
  other.rank ≤ level.rank

end Level

/-- Something worth recording. -/
inductive Event where
  /-- A class replaced one of the same name. -/
  | classReplaced (name : String)
  | fileLoaded (names : List String) (path : String)
  | inputsLoaded (classes inputs : Nat)
  | methodLowered (name : String) (count : Nat)
  | classStarted (name : String)
  | methodStarted (key : MethodKey)
  | instructionReached (key : MethodKey) (position : Nat)
  /-- A branch with two arms that meet at `meeting`. -/
  | armsFound (key : MethodKey) (position target meeting : Nat)
  | loopFound (key : MethodKey) (first last : Nat)
  | loopUnstable (key : MethodKey) (first last passes : Nat)
  | accessUnproved (key : MethodKey) (position : Nat)
  /-- The search for a method left the analysed classes at `className`. -/
  | methodOutside (method : MethodKey) (className : String)
  | classMissing (method : MethodKey) (className : String)
  | methodReentered (key : MethodKey)
  | methodStable (key : MethodKey) (sign : Sign)
  | methodUnstable (key : MethodKey) (passes : Nat)
  | finished (statistics : Statistics)
deriving DecidableEq, Inhabited

namespace Event

def level : Event → Level
  | classReplaced .. | loopUnstable .. | classMissing .. | methodUnstable .. => .warn
  | inputsLoaded .. | finished .. => .info
  | fileLoaded .. | classStarted .. | methodStarted .. | accessUnproved .. | methodOutside ..
  | methodStable .. => .debug
  | methodLowered .. | instructionReached .. | armsFound .. | loopFound .. | methodReentered .. =>
      .trace

/-- The wording of an event. -/
def text : Event → String
  | classReplaced name => s!"class {name} loaded twice; keeping the last definition"
  | fileLoaded names path => "loaded " ++ ", ".intercalate names ++ s!" from {path}"
  | inputsLoaded classes inputs => s!"loaded {classes} classes from {inputs} inputs"
  | methodLowered name count => s!"{name}: lowered {count} instructions"
  | classStarted name => s!"class {name}"
  | methodStarted key => s!"analyzing {key.text}"
  | instructionReached key position => s!"{key.name}: {position}"
  | armsFound key position target meeting =>
    s!"{key.name}: if/else at {position}, taken arm {target}..{meeting}"
  | loopFound key first last => s!"{key.name}: loop {first}..={last}"
  | loopUnstable key first last passes =>
    s!"loop at {first}..={last} in {key.text} did not stabilise after {passes} iterations"
  | accessUnproved key position =>
    s!"possible out-of-bounds access at instruction {position} of {key.text}"
  | methodOutside method className =>
    s!"{method.text} resolves outside the analysed classes via {className}"
  | classMissing method className =>
    s!"class {className} is not loaded; treating call to {method.text} as opaque"
  | methodReentered key => s!"recursive call to {key.text}"
  | methodStable key sign => s!"{key.text} stabilised with return {sign.symbol}"
  | methodUnstable key passes =>
    s!"recursive method {key.text} did not stabilise after {passes} iterations"
  | finished statistics =>
    s!"analysed {statistics.methodsAnalyzed} method bodies, " ++
      s!"{statistics.opaqueCalls} opaque calls, " ++
      s!"{statistics.loopIterations} loop iterations, " ++
      s!"{statistics.recursionIterations} recursion iterations"

/-- The line of an event in a log. -/
def line (event : Event) : String :=
  event.level.text ++ " " ++ event.text

end Event

/-- The lines of a log at the given level. -/
def logLines (level : Level) (events : List Event) : List String :=
  (events.filter (level.shows ·.level)).map Event.line

end ArrayBounds
