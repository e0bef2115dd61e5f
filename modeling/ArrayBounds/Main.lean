import ArrayBounds.CommandLine

/-! # The program

The command line with its files. Each path is read as one file before anything else happens, and a
path that cannot be read counts as missing; everything after that is `CommandLine.run`.
-/

namespace ArrayBounds

/-- The file at a path, if it can be read. -/
def readFile (path : String) : IO (Option FileTree) :=
  try
    let contents ← IO.FS.readBinFile path
    return some (.file contents.toList)
  catch _ => return none

/-- The paths that the arguments name, with what is there. -/
def readPaths (arguments : List String) : IO (List (String × Option FileTree)) :=
  match CommandLine.parse arguments with
  | .ok options => options.paths.mapM fun path => return (path, ← readFile path)
  | .error _ => return []

end ArrayBounds

open ArrayBounds in
/-- Runs the command and leaves with its exit code. -/
def main (arguments : List String) : IO UInt32 := do
  let known ← readPaths arguments
  let result := CommandLine.run arguments fun path => (known.lookup path).join
  IO.print result.stdout
  result.stderr.forM IO.eprintln
  return result.exitCode.toUInt32
