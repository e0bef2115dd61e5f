/-! # File trees

The files that a program sees, as a value. Paths are resolved in a tree as in a file system: empty
names and single dots stand for the folder itself, double dots for the folder above it.
-/

namespace ArrayBounds

/-- A file with its contents, or a folder with its entries in the order of their names. -/
inductive FileTree where
  | file (contents : List UInt8)
  | folder (entries : List (String × FileTree))
deriving Inhabited

namespace FileTree

/-- The entries of a folder. -/
def entries : FileTree → List (String × FileTree)
  | folder entries => entries
  | file _ => []

/-- Changes the entry with the given name, which may not exist yet. -/
def alterEntry (name : String) (change : Option FileTree → FileTree) :
    List (String × FileTree) → List (String × FileTree)
  | [] => [(name, change none)]
  | (other, tree) :: rest =>
    if name = other then (name, change (some tree)) :: rest
    else if name < other then (name, change none) :: (other, tree) :: rest
    else (other, tree) :: alterEntry name change rest

/-- Puts a file or an empty folder at a place, and creates the folders on the way. A folder that
exists stays as it is. -/
def insert (node : FileTree) : (path : List String) → Option FileTree → FileTree
  | [], some (folder entries) =>
    match node with
    | folder _ => folder entries
    | file contents => file contents
  | [], _ => node
  | name :: rest, tree =>
    folder (alterEntry name (insert node rest) ((tree.map entries).getD []))

/-- Follows names from a folder; the head of `trail` is where the walk has got to, followed by the
folders above. -/
def follow : (trail : List FileTree) → List String → Option FileTree
  | [], _ => none
  | current :: _, [] => some current
  | current :: above, name :: rest =>
    match current with
    | file _ => none
    | folder entries =>
      if name = "" ∨ name = "." then follow (current :: above) rest
      else if name = ".." then follow above rest
      else
        match entries.lookup name with
        | some next => follow (next :: current :: above) rest
        | none => none

/-- The names that a path consists of. -/
def pathNames (path : String) : List String :=
  path.splitOn "/"

/-- What is at a path relative to the root of the tree. -/
def lookup? (root : FileTree) (path : String) : Option FileTree :=
  if path = "" ∨ path.startsWith "/" then none else follow [root] (pathNames path)

/-- The path of an entry of a folder. A path that starts at the root stays as it is. -/
def joinPath (folder name : String) : String :=
  if name.startsWith "/" ∨ folder = "" then name
  else if folder.endsWith "/" then folder ++ name
  else folder ++ "/" ++ name

mutual

/-- All files with their paths, in order; `path` is that of the tree itself. -/
def files (path : String) : FileTree → List (String × List UInt8)
  | file contents => [(path, contents)]
  | folder entries => entryFiles path entries

/-- All files in the entries of the folder at a path, in order. -/
def entryFiles (path : String) : List (String × FileTree) → List (String × List UInt8)
  | [] => []
  | (name, tree) :: rest => files (joinPath path name) tree ++ entryFiles path rest

end

/-- The extension of the file that a path names, in lower case. A dot in front of a name starts no
extension. -/
def extension? (path : String) : Option String :=
  match (pathNames path).reverse.find? (fun name => name ≠ "" ∧ name ≠ ".") with
  | none => none
  | some name =>
    let reversed := name.toList.reverse
    match reversed.dropWhile (· ≠ '.') with
    | [] | [_] => none
    | _ => some (String.ofList ((reversed.takeWhile (· ≠ '.')).reverse.map Char.toLower))

end FileTree

end ArrayBounds
