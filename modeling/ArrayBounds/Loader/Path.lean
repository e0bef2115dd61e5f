import ArrayBounds.Archive.Directory
import ArrayBounds.Loader.Basic
import ArrayBounds.Loader.FileTree

/-! # Loading files

What a file holds is decided by its extension: a class file, classes in JSON, or an archive of class
files. Of a folder all class files and JSON files are loaded, those in folders inside it included.
-/

namespace ArrayBounds.Loading

/-- Loads the class files of an archive in the order of its directory. Other entries are passed
over, but they have to be intact. -/
def loadEntries (path : String) (data : Array UInt8) : List Archive.Entry → Loading (List String)
  | [] => return []
  | entry :: rest => do
    match entry.open? data with
    | none => throw (.archive path)
    | some packed =>
      if entry.name.endsWith ".class" then
        let entryPath := FileTree.joinPath path entry.name
        match entry.contents? packed with
        | none => throw (.unreadable entryPath)
        | some contents =>
          let name ← loadClassBytes entryPath contents
          return name :: (← loadEntries path data rest)
      else loadEntries path data rest

/-- Loads an archive. -/
def loadArchive (path : String) (contents : List UInt8) : Loading (List String) := do
  let data := contents.toArray
  match Archive.entries? data with
  | none => throw (.archive path)
  | some entries => loadEntries path data entries

/-- Loads a file by its extension. -/
def loadFile (path : String) (contents : List UInt8) : Loading (List String) := do
  let names ← match FileTree.extension? path with
    | some "class" => do
      let name ← loadClassBytes path contents
      pure [name]
    | some "json" =>
      match String.fromUTF8? ⟨contents.toArray⟩ with
      | some text => loadJsonText path text
      | none => throw (.unreadable path)
    | some "jar" | some "zip" => loadArchive path contents
    | _ => throw (.unsupportedInput path)
  record [.fileLoaded names path]
  return names

/-- The files of a folder that are loaded with it. -/
def isClassOrJson (path : String) : Bool :=
  match FileTree.extension? path with
  | some "class" | some "json" => true
  | _ => false

/-- Loads files one after the other. -/
def loadFiles : List (String × List UInt8) → Loading (List String)
  | [] => return []
  | (path, contents) :: rest => do
    let names ← loadFile path contents
    return names ++ (← loadFiles rest)

/-- Loads what is at a path; nothing is if `node` is absent. -/
def loadPath (path : String) (node : Option FileTree) : Loading (List String) :=
  match node with
  | none => throw (.unreadable path)
  | some (.file contents) => loadFile path contents
  | some (.folder entries) =>
    loadFiles ((FileTree.entryFiles path entries).filter fun (path, _) => isClassOrJson path)

end ArrayBounds.Loading
