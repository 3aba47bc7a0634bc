/-!
# File trees

A file tree is what a path names: a file with its bytes, or a directory with its entries.  Paths are
followed component by component, each within a directory.
-/

namespace FormulaQuiz.Cli

/-- A file or a directory. -/
inductive FileTree where
  | file (bytes : ByteArray)
  /-- A directory with its entries, no two of one name. -/
  | directory (entries : List (String × FileTree))

/-- A file under a directory. -/
structure FoundFile where
  /-- The names on the way from the directory to the file. -/
  components : List String
  bytes : ByteArray

namespace FileTree

mutual

/-- The files of a tree, at the end of the given way. -/
def filesUnder (way : List String) : FileTree → List FoundFile
  | file bytes => [⟨way, bytes⟩]
  | directory entries => filesOf way entries

/-- The files of some entries. -/
def filesOf (way : List String) : List (String × FileTree) → List FoundFile
  | [] => []
  | (name, tree) :: entries => filesUnder (way ++ [name]) tree ++ filesOf way entries

end

/-- The files of a tree. -/
def files (tree : FileTree) : List FoundFile := tree.filesUnder []

/-- Whether a tree is a file. -/
def isFile : FileTree → Bool
  | file _ => true
  | directory _ => false

/-- Whether a tree is a directory. -/
def isDirectory (tree : FileTree) : Bool := !tree.isFile

/-- The parts of a path between its slashes. -/
def components (path : List Char) : List (List Char) :=
  path.foldr (fun c parts ↦
    if c = '/' then [] :: parts
    else match parts with
      | part :: parts => (c :: part) :: parts
      | [] => [[c]]) [[]]

/-- Follows a path from a tree with its ancestors, the nearest first. -/
def follow? (tree : FileTree) (ancestors : List FileTree) : List (List Char) → Option FileTree
  | [] => some tree
  | component :: rest =>
    match tree with
    | file _ => none
    | directory entries =>
      if component = [] ∨ component = ['.'] then follow? tree ancestors rest
      else if component = ['.', '.'] then
        match ancestors with
        | parent :: ancestors => follow? parent ancestors rest
        | [] => follow? tree [] rest
      else do
        let next ← entries.lookup (String.ofList component)
        follow? next (tree :: ancestors) rest

/-- What an absolute path names in a tree. -/
def find? (root : FileTree) (path : String) : Option FileTree :=
  root.follow? [] (components path.toList)

/-- A tree with a file or an empty directory added, and the directories on the way to it. -/
def insert (leaf : FileTree) : (way : List String) → FileTree → FileTree
  | [], directory entries => if leaf.isFile then leaf else directory entries
  | [], file _ => leaf
  | name :: way, directory entries =>
    let inner := insert leaf way ((entries.lookup name).getD (directory []))
    directory (entries.filter (·.1 != name) ++ [(name, inner)])
  | name :: way, file _ => directory [(name, insert leaf way (directory []))]

end FileTree

/-- A path from the root, for one that may start at the working directory. -/
def absolutePath (workingDirectory path : String) : String :=
  if path.toList.head? = some '/' then path
  else if workingDirectory.toList.getLast? = some '/' then workingDirectory ++ path
  else workingDirectory ++ "/" ++ path

end FormulaQuiz.Cli
