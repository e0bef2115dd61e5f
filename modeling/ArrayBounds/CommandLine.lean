import ArrayBounds.Analysis.Method
import ArrayBounds.Json.Printer
import ArrayBounds.Loader.Path

/-! # The command line

The command takes paths and options in any order; everything behind `--` is a path. It loads all
paths, analyses the classes found there, and prints the reports as text or the whole outcome as
JSON.
-/

namespace ArrayBounds

/-! ## Output -/

namespace Report

def toJson (report : Report) : Json :=
  Json.ofMembers
    [("file", Json.ofString report.file), ("method", Json.ofString report.method),
      ("line", Json.ofOption (report.line.map fun line => Json.ofNat line.toNat))]

end Report

namespace Statistics

def toJson (statistics : Statistics) : Json :=
  Json.ofMembers
    [("methods_analyzed", Json.ofNat statistics.methodsAnalyzed),
      ("opaque_calls", Json.ofNat statistics.opaqueCalls),
      ("loop_iterations", Json.ofNat statistics.loopIterations),
      ("recursion_iterations", Json.ofNat statistics.recursionIterations)]

end Statistics

namespace Outcome

def toJson (outcome : Outcome) : Json :=
  Json.ofMembers
    [("reports", .array (outcome.reports.map Report.toJson)), ("stats", outcome.statistics.toJson)]

end Outcome

namespace CommandLine

/-- How the outcome is printed. -/
inductive Format where
  | text
  | json
deriving DecidableEq, Repr, Inhabited

/-- The outcome as it is printed. -/
def Format.render : Format → Outcome → String
  | text, outcome => outcome.text
  | json, outcome => outcome.toJson.pretty ++ "\n"

/-! ## Options -/

/-- An option that takes a value. -/
inductive ValueOption where
  | format
  | loopPasses
  | recursionPasses
deriving DecidableEq, Repr, Inhabited

/-- What the arguments say. Options that were not given are absent. -/
structure Options where
  paths : List String := []
  format : Option Format := none
  loopPasses : Option Nat := none
  recursionPasses : Option Nat := none
  /-- How often more logging was asked for. -/
  verbose : Nat := 0
deriving DecidableEq, Repr, Inhabited

/-- Why the arguments do not lead to an analysis. -/
inductive Stop where
  | help
  | version
  | unknownOption (argument : String)
  | missingValue (option : ValueOption)
  | invalidValue (option : ValueOption) (value : String)
  | repeated (option : ValueOption)
  | emptyPath
  | missingPath
deriving DecidableEq, Repr

/-- The option as it is written in messages. -/
def ValueOption.name : ValueOption → String
  | format => "--format"
  | loopPasses => "--max-loop-iterations"
  | recursionPasses => "--max-recursion-iterations"

/-- The wording of a usage error. -/
def Stop.message : Stop → String
  | help | version => ""
  | unknownOption argument => s!"unexpected argument '{argument}' found"
  | missingValue option => s!"a value is required for '{option.name}' but none was supplied"
  | invalidValue option value => s!"invalid value '{value}' for '{option.name}'"
  | repeated option => s!"the argument '{option.name}' cannot be used multiple times"
  | emptyPath => "a path must not be empty"
  | missingPath => "at least one path is required"

namespace Options

/-- A number in decimal digits, which may have a plus sign in front and fits into 64 bits. -/
def parseCount? (text : String) : Option Nat :=
  let digits := match text.toList with
    | '+' :: rest => rest
    | chars => chars
  if digits.isEmpty || !digits.all Char.isDigit then none
  else
    let value := Json.natOfDigits digits
    if value ≤ 0xFFFFFFFFFFFFFFFF then some value else none

/-- The format with the given name. -/
def parseFormat? : String → Option Format
  | "text" => some .text
  | "json" => some .json
  | _ => none

/-- Gives an option its value. No option may be given twice. -/
def setValue (options : Options) (option : ValueOption) (value : String) : Except Stop Options :=
  let set {α : Type} (old : Option α) (parsed : Option α) (update : α → Options) :
      Except Stop Options :=
    match parsed with
    | none => .error (.invalidValue option value)
    | some parsed => if old.isSome then .error (.repeated option) else .ok (update parsed)
  match option with
  | .format => set options.format (parseFormat? value) ({ options with format := some · })
  | .loopPasses =>
      set options.loopPasses (parseCount? value) ({ options with loopPasses := some · })
  | .recursionPasses =>
    set options.recursionPasses (parseCount? value) ({ options with recursionPasses := some · })

/-- Adds a path. -/
def addPath (options : Options) (path : String) : Except Stop Options :=
  if path = "" then .error .emptyPath else .ok { options with paths := options.paths ++ [path] }

/-- The limits that were asked for; they are at least one. -/
def limits (options : Options) : Limits :=
  let usual : Limits := {}
  { loopPasses := options.loopPasses.getD usual.loopPasses
    recursionPasses := options.recursionPasses.getD usual.recursionPasses : Limits }.atLeastOne

/-- The level of logging that was asked for. -/
def level (options : Options) : Level :=
  match options.verbose with
  | 0 => .warn
  | 1 => .info
  | 2 => .debug
  | _ => .trace

end Options

/-- The long form of an option that takes a value. -/
def longOption? : String → Option ValueOption
  | "format" => some .format
  | "max-loop-iterations" => some .loopPasses
  | "max-recursion-iterations" => some .recursionPasses
  | _ => none

/-- Reads a group of short options. The result may leave an option waiting for its value. -/
def parseShort (options : Options) (argument : String) :
    List Char → Except Stop (Options × Option ValueOption)
  | [] => .ok (options, none)
  | 'v' :: rest => parseShort { options with verbose := options.verbose + 1 } argument rest
  | 'V' :: _ => .error .version
  | 'h' :: _ => .error .help
  | 'f' :: [] => .ok (options, some .format)
  | 'f' :: '=' :: value => (·, none) <$> options.setValue .format (String.ofList value)
  | 'f' :: value => (·, none) <$> options.setValue .format (String.ofList value)
  | _ :: _ => .error (.unknownOption argument)

/-- Reads a long option, which may contain its value. The result may leave an option waiting for its
value. -/
def parseLong (options : Options) (argument : String) (body : List Char) :
    Except Stop (Options × Option ValueOption) :=
  let name := String.ofList (body.takeWhile (· ≠ '='))
  match longOption? name, body.dropWhile (· ≠ '=') with
  | some option, _ :: value => (·, none) <$> options.setValue option (String.ofList value)
  | some option, [] => .ok (options, some option)
  | none, [] =>
    match name with
    | "verbose" => .ok ({ options with verbose := options.verbose + 1 }, none)
    | "version" => .error .version
    | "help" => .error .help
    | _ => .error (.unknownOption argument)
  | none, _ => .error (.unknownOption argument)

/-- An argument that starts an option. A single dash does not. -/
def isOption (argument : String) : Bool :=
  argument.startsWith "-" && argument != "-"

/-- Reads one argument. The result may leave an option waiting for its value. -/
def parseArgument (options : Options) (argument : String) :
    Except Stop (Options × Option ValueOption) :=
  match argument.toList with
  | '-' :: '-' :: body => parseLong options argument body
  | '-' :: c :: body => parseShort options argument (c :: body)
  | _ => (·, none) <$> options.addPath argument

/-- Reads arguments from left to right; an option may be waiting for its value. The first thing that
stands in the way of an analysis decides. -/
def parseFrom (options : Options) : Option ValueOption → List String → Except Stop Options
  | none, [] => .ok options
  | some option, [] => .error (.missingValue option)
  | some option, argument :: rest =>
    if isOption argument then .error (.missingValue option)
    else do
      let options ← options.setValue option argument
      parseFrom options none rest
  | none, argument :: rest =>
    if argument = "--" then rest.foldlM Options.addPath options
    else do
      let (options, waiting) ← parseArgument options argument
      parseFrom options waiting rest

/-- Reads all arguments. There has to be a path. -/
def parse (arguments : List String) : Except Stop Options := do
  let options ← parseFrom {} none arguments
  if options.paths.isEmpty then throw .missingPath else return options

/-! ## Running the command -/

/-- What a run of the command leaves behind. -/
structure Result where
  exitCode : UInt8
  stdout : String := ""
  stderr : List String := []
deriving DecidableEq, Repr, Inhabited

def versionText : String := "jvm_bounds 0.1.0\n"

def helpText : String :=
  "Report JVM array accesses that may be out of bounds\n" ++
  "\n" ++
  "Usage: jvm-bounds [OPTIONS] <PATH>...\n" ++
  "\n" ++
  "Arguments:\n" ++
  "  <PATH>...  Class files, jars, JSON IR files or directories\n" ++
  "\n" ++
  "Options:\n" ++
  "      --max-loop-iterations <INT>       Cap on re-interpretations of one loop body " ++
  "[default: 32]\n" ++
  "      --max-recursion-iterations <INT>  Cap on re-analyses of one recursive method " ++
  "[default: 16]\n" ++
  "  -f, --format <FORMAT>                 Output format [default: text] " ++
  "[possible values: text, json]\n" ++
  "  -v, --verbose...                      More logging (-v info, -vv debug, -vvv trace)\n" ++
  "  -h, --help                            Print help\n" ++
  "  -V, --version                         Print version\n"

/-- Loads what is at each path and returns the names of all classes, each one once. -/
def loadAll (node : String → Option FileTree) (paths : List String) : Loading (List String) := do
  let loaded ← paths.mapM fun path => Loading.loadPath path (node path)
  return loaded.flatten.eraseDups

/-- The exit code after an analysis without a result. The program breaks off where its numbers
overflow. -/
def exitCode : AnalysisError → UInt8
  | .numbersExhausted => 101
  | _ => 1

/-- Loads and analyses, with `node` telling what is at a path. -/
def execute (options : Options) (node : String → Option FileTree) : Result :=
  let level := options.level
  match (loadAll node options.paths).run {} with
  | .error error loader =>
    { exitCode := 1, stderr := logLines level loader.log.toList ++ [error.message] }
  | .ok names loader =>
    let setting : Setting :=
      { repository := loader.repository, analyzed := names, limits := options.limits,
        verbosity := level }
    let (outcome, events) := setting.analyze
    let loaded := Event.inputsLoaded names.length options.paths.length
    let log := logLines level (loader.log.toList ++ loaded :: events)
    match outcome with
    | .error error => { exitCode := exitCode error, stderr := log ++ [error.message] }
    | .ok outcome =>
      { exitCode := 0, stdout := (options.format.getD .text).render outcome, stderr := log }

/-- Runs the command with the given arguments, with `node` telling what is at a path. -/
def run (arguments : List String) (node : String → Option FileTree) : Result :=
  match parse arguments with
  | .ok options => execute options node
  | .error .help => { exitCode := 0, stdout := helpText }
  | .error .version => { exitCode := 0, stdout := versionText }
  | .error stop => { exitCode := 2, stderr := ["error: " ++ stop.message] }

end CommandLine

end ArrayBounds
