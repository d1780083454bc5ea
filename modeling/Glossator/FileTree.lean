import Glossator.Error
import Glossator.Path
import Glossator.Text.Utf8

/-!
# File trees

Files and directories as a value, and places in them. A path is looked up from a place, such as the
working directory, one component after the other.
-/

set_option autoImplicit false

namespace Glossator

/-- A file or a directory. -/
inductive FileTree where
  | file (content : Bytes)
  | directory (entries : List (Text × FileTree))
deriving Inhabited

namespace FileTree

/-- The entries of a directory; a file has none. -/
def entries : FileTree → List (Text × FileTree)
  | file _ => []
  | directory entries => entries

/-- The tree is a directory. -/
def isDirectory : FileTree → Bool
  | file _ => false
  | directory _ => true

/-- The entry of a name in a directory. -/
def entry? (tree : FileTree) (name : Text) : Option FileTree := tree.entries.lookup name

/-- The entries with one of them replaced, or with a new one at the end. -/
def setEntry (name : Text) (tree : FileTree) : List (Text × FileTree) → List (Text × FileTree)
  | [] => [(name, tree)]
  | (n, t) :: rest => if n = name then (name, tree) :: rest else (n, t) :: setEntry name tree rest

/-- Puts a tree at the end of a way of names, making the directories on the way. -/
def insert (leaf : FileTree) : List Text → FileTree → FileTree
  | [], _ => leaf
  | name :: path, tree =>
    directory
      (setEntry name (insert leaf path ((tree.entry? name).getD (directory []))) tree.entries)

/-- Makes a directory at the end of a way of names, unless there is one. -/
def makeDirectory : List Text → FileTree → FileTree
  | [], tree => if tree.isDirectory then tree else directory []
  | name :: path, tree =>
    directory (setEntry name (makeDirectory path ((tree.entry? name).getD (directory [])))
      tree.entries)

/-- A tree that names lead to, after another one was put at the end of a way of names. -/
def afterInsert (leaf : FileTree) (way names : List Text) (tree : FileTree) : FileTree :=
  match names.isPrefixOf? way with
  | some further => insert leaf further tree
  | none => tree

/-- The tree of files given by path and content. A path that ends with a slash is a directory. -/
def ofFiles (files : List (Text × Bytes)) : FileTree :=
  files.foldl (fun tree (path, content) =>
    let names := (Path.components path).filter (! ·.isEmpty)
    if path.getLast? == some '/' then tree.makeDirectory names
    else insert (file content) names tree)
    (directory [])

end FileTree

/-- A place in a tree: what is there, and the directories around it with the names that lead on,
the nearest first. -/
structure Location where
  node : FileTree
  around : List (FileTree × Text) := []

namespace Location

/-- The outermost directory around a place. -/
def top (l : Location) : Location :=
  match l.around.getLast? with
  | some (root, _) => ⟨root, []⟩
  | none => l

/-- The names that lead from the outermost directory to what is in the nearest directory. -/
def namesOf (around : List (FileTree × Text)) : List Text := (around.map Prod.snd).reverse

/-- The names that lead to a place from the outermost directory. -/
def names (l : Location) : List Text := namesOf l.around

/-- The directories around a place, after a tree was put at the end of a way of names. -/
def aroundAfterInsert (leaf : FileTree) (way : List Text) :
    List (FileTree × Text) → List (FileTree × Text)
  | [] => []
  | (tree, name) :: around =>
    (.afterInsert leaf way (namesOf around) tree, name) :: aroundAfterInsert leaf way around

/-- The place after a tree was put at the end of a way of names. -/
def insert (l : Location) (leaf : FileTree) (way : List Text) : Location :=
  ⟨.afterInsert leaf way l.names l.node, aroundAfterInsert leaf way l.around⟩

/-- Goes on by one component of a path; there is nothing above the outermost directory. -/
def step (l : Location) (component : Text) : Except IoError Location :=
  if !l.node.isDirectory then .error .notADirectory
  else if component = [] || component = ['.'] then .ok l
  else if component = ['.', '.'] then
    match l.around with
    | [] => .ok l
    | (parent, _) :: around => .ok ⟨parent, around⟩
  else match l.node.entry? component with
    | none => .error .notFound
    | some node => .ok ⟨node, (l.node, component) :: l.around⟩

/-- What a path leads to from a place; a slash at its start stands for the outermost directory. -/
def find (l : Location) (path : Text) : Except IoError Location :=
  match path with
  | [] => .error .notFound
  | c :: _ => (Path.components path).foldlM step (if c = '/' then l.top else l)

/-- Something is at the end of the path. -/
def hasPath (l : Location) (path : Text) : Bool := (l.find path).isOk

/-- A directory is at the end of the path. -/
def hasDirectory (l : Location) (path : Text) : Bool :=
  match l.find path with
  | .ok found => found.node.isDirectory
  | .error _ => false

/-- The content of a file. -/
def read (l : Location) (path : Text) : Except IoError Bytes :=
  match l.find path with
  | .ok ⟨.file content, _⟩ => .ok content
  | .ok ⟨.directory _, _⟩ => .error .isADirectory
  | .error e => .error e

/-- The content of a file as text. -/
def readText (l : Location) (path : Text) : Except IoError Text := do
  match Utf8.decode? (← l.read path) with
  | some t => .ok t
  | none => .error .invalidUtf8

/-- Writes a file at the end of a path, in place of the one there, and gives the place after that.
The directory that the file is in must be there. -/
def write (l : Location) (path : Text) (content : Bytes) : Except IoError Location := do
  let start ← match path with
    | [] => .error .notFound
    | c :: _ => .ok (if c = '/' then l.top else l)
  match (Path.components path).reverse.dropWhile (·.isEmpty) with
  | [] => .error .isADirectory
  | name :: before =>
    let directory ← before.reverse.foldlM step start
    if !directory.node.isDirectory then .error .notADirectory
    else if name = ['.'] || name = ['.', '.'] || (Path.components path).getLast? = some [] then
      .error .isADirectory
    else match directory.node.entry? name with
      | some (.directory _) => .error .isADirectory
      | _ => .ok (l.insert (.file content) (directory.names ++ [name]))

end Location

end Glossator
