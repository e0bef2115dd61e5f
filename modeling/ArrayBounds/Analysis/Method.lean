import ArrayBounds.Analysis.Interpreter

/-! # Analysing methods

The analysis of a method starts from a frame in which nothing is known about the arguments. Its
result is stored. A call to a method that is still in progress yields an unknown result and marks
the method as recursive; a recursive method is analysed again, each time with its last result
stored, until the result does not grow any more.
-/

namespace ArrayBounds

open Program

namespace Interpreter

variable (setting : Setting) (hook : Analysis Unit)

/-- The slot behind a parameter. Slots end at the largest 16-bit number. -/
def nextSlot (slot : UInt16) (width : Nat) : UInt16 :=
  UInt16.ofNat (min (slot.toNat + width) 0xFFFF)

/-- Puts an unknown value for each parameter into its slot. -/
def defineParameters (f : Frame) (slot : UInt16) : List FieldType → Frame
  | [] => f
  | type :: rest =>
    let (_, f) := f.defineLocal slot (.unknown (some type) 0)
    defineParameters f (nextSlot slot type.width) rest

/-- The frame at the start of a method: the receiver, if there is one, and then the parameters. -/
def initialFrame (body : Body) (descriptor : MethodDescriptor) : Frame :=
  if body.method.access.isStatic then defineParameters {} 0 descriptor.parameters
  else
    let (_, f) := ({} : Frame).defineLocal 0 (.unknown (some (.object body.owner.name)) 0)
    defineParameters f 1 descriptor.parameters

/-- Analyses a method once, and does something in front of each instruction. -/
def analyzeOnceWith (callee : Callee) (body : Body) : Analysis Variable := do
  let descriptor ← Analysis.parseDescriptor body.method.descriptor
  let unknown := Variable.unknown descriptor.returnType 0
  if (← get).inProgress.contains body.key then
    Analysis.emit setting (.methodReentered body.key)
    Analysis.markRecursive body.key
    return unknown
  else if !body.method.hasBody then
    Analysis.remember body.key unknown
    return unknown
  else
    Analysis.emit setting (.methodStarted body.key)
    Analysis.count fun s => { s with methodsAnalyzed := s.methodsAnalyzed + 1 }
    let f ← Analysis.whileInProgress body.key
      (interpretBodyWith setting body hook callee (initialFrame body descriptor))
    f.checkSupply
    let result := (f.returnedValue?.getD unknown).clearBounds
    Analysis.remember body.key result
    return result

/-- Repeats the analysis of a recursive method until its result does not grow. If that takes too
many passes, nothing is known about the result. -/
def repeatUntilStable (key : MethodKey) (once : Analysis Variable) :
    Nat → Variable → Analysis Variable
  | 0, result => do
    Analysis.emit setting (.methodUnstable key setting.limits.recursionPasses)
    if result.sign = .top then return result
    else
      let result := { result with sign := .top }
      Analysis.remember key result
      return result
  | passes + 1, result => do
    Analysis.count fun s => { s with recursionIterations := s.recursionIterations + 1 }
    let next ← once
    Analysis.unmarkRecursive key
    let joined := { result with sign := result.sign.join next.sign }
    Analysis.remember key joined
    if next.sign ≤ result.sign then
      Analysis.emit setting (.methodStable key joined.sign)
      return joined
    else repeatUntilStable key once passes joined

/-- Takes the result of an analysis, and repeats it if the method turned out to be recursive. -/
def stabilise (key : MethodKey) (once : Analysis Variable) : Analysis Variable := do
  let result ← once
  let run ← get
  if run.inProgress.contains key || !run.recursive.contains key then return result
  else
    Analysis.unmarkRecursive key
    repeatUntilStable setting key once setting.limits.recursionPasses result

/-- Analyses a method, following calls at most `depth` deep, and does something in front of each
instruction. -/
def analyzeMethodWith : (depth : Nat) → Callee
  | 0, _ => throw .exhausted
  | depth + 1, body =>
      stabilise setting body.key (analyzeOnceWith setting hook (analyzeMethodWith depth) body)

/-- A depth that no chain of calls reaches: the methods in progress are all different. -/
def callDepth : Nat :=
  setting.repository.methodCount + 1

/-- Analyses a method unless its result is stored, and does something in front of each
instruction. -/
def analyzeUnlessKnownWith (body : Body) : Analysis Unit := do
  if (← get).memo.contains body.key then return ()
  else discard (analyzeMethodWith setting hook (callDepth setting) body)

/-- Analyses every method of a class, and does something in front of each instruction. -/
def analyzeClassWith (owner : ClassDef) : Analysis Unit := do
  Analysis.emit setting (.classStarted owner.name)
  owner.methods.forM fun method => analyzeUnlessKnownWith setting hook { owner, method }

/-- Analyses a method once. -/
def analyzeOnce : Callee → Callee :=
  analyzeOnceWith setting (pure ())

/-- Analyses a method, following calls at most `depth` deep. -/
def analyzeMethod : (depth : Nat) → Callee :=
  analyzeMethodWith setting (pure ())

/-- Analyses a method unless its result is stored. -/
def analyzeUnlessKnown : Body → Analysis Unit :=
  analyzeUnlessKnownWith setting (pure ())

/-- Analyses every method of a class. -/
def analyzeClass : ClassDef → Analysis Unit :=
  analyzeClassWith setting (pure ())

end Interpreter

/-- The result of an analysis. -/
structure Outcome where
  reports : List Report
  statistics : Statistics
deriving DecidableEq, Repr, Inhabited

namespace Outcome

/-- The analysis found nothing. -/
def isClean (outcome : Outcome) : Bool :=
  outcome.reports.isEmpty

/-- The reports, one per line. -/
def text (outcome : Outcome) : String :=
  if outcome.isClean then "No defects found\n"
  else String.join (outcome.reports.map (·.text ++ "\n"))

end Outcome

/-- Finds all classes with the given names. -/
def Repository.lookupAll (repository : Repository) (names : List String) :
    Except AnalysisError (List ClassDef) :=
  names.mapM fun name =>
    match repository.lookup? name with
    | some c => .ok c
    | none => .error (.classNotFound name)

/-- The steps of an analysis, with something to do in front of each instruction. -/
def Setting.analysisWith (setting : Setting) (hook : Analysis Unit) : Analysis Outcome := do
  let classes ← setting.repository.lookupAll setting.analyzed
  classes.forM (Interpreter.analyzeClassWith setting hook)
  let run ← get
  Analysis.emit setting (.finished run.statistics)
  return { reports := run.findings.reports, statistics := run.statistics }

/-- The steps of an analysis. -/
def Setting.analysis (setting : Setting) : Analysis Outcome :=
  setting.analysisWith (pure ())

/-- Analyses every method of the named classes. Returns the outcome and the log. -/
def Setting.analyze (setting : Setting) : Except AnalysisError Outcome × List Event :=
  match setting.analysis.run {} with
  | .ok outcome run => (.ok outcome, run.log.toList)
  | .error error run => (.error error, run.log.toList)

end ArrayBounds
