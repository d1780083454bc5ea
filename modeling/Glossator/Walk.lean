import Glossator.FileTree
import Glossator.Ignore.Rule

/-!
# Walking a file tree

The files below a directory, in depth-first order and by name within each directory, hidden ones
included. What ignore files exclude is left out, together with all that is below it. The rules of
`.ignore` files always hold; those of `.gitignore` files and of `.git/info/exclude` hold inside a
repository, and of nested repositories only the innermost one counts.
-/

set_option autoImplicit false

namespace Glossator

open Ignore (Rules Verdict)

namespace Ignore

/-- The rules that hold below a directory. -/
structure Scope where
  /-- The rules of `.ignore`. -/
  always : Rules
  /-- The rules of `.gitignore`. -/
  tracked : Rules
  /-- The rules of `.git/info/exclude`. -/
  excluded : Rules
  /-- The directory is the root of a repository. -/
  isRepository : Bool

/-- The rules of a file in a directory. -/
def rulesOf (dir : FileTree) (path : List String) : Rules :=
  match path.foldl (fun node name => node.bind fun t => t.entry? name.toList) (some dir) with
  | some (.file content) => Rules.ofFile content
  | _ => []

/-- The rules that a directory brings. -/
def Scope.ofDirectory (dir : FileTree) : Scope where
  always := rulesOf dir [".ignore"]
  tracked := rulesOf dir [".gitignore"]
  excluded := rulesOf dir [".git", "info", "exclude"]
  isRepository := (dir.entry? ".git".toList).isSome

/-- What the rules of one kind say of a path given from each directory around it, the nearest
first. -/
def firstVerdict (rules : Scope → Rules) (isDirectory : Bool) (scopes : List (Scope × Bytes)) :
    Verdict :=
  scopes.foldl (fun v (scope, path) => v.or ((rules scope).verdict path isDirectory)) .silent

/-- The directories up to the root of the innermost repository; none outside of repositories. -/
def insideRepository (scopes : List (Scope × Bytes)) : List (Scope × Bytes) :=
  if scopes.any (·.1.isRepository) then
    scopes.takeWhile (! ·.1.isRepository) ++ (scopes.dropWhile (! ·.1.isRepository)).take 1
  else []

/-- A path is left out, given the directories around it with the path from there, the nearest
first. -/
def excludes (scopes : List (Scope × Bytes)) (isDirectory : Bool) : Bool :=
  let inRepository := insideRepository scopes
  ((firstVerdict Scope.always isDirectory scopes).or
    ((firstVerdict Scope.tracked isDirectory inRepository).or
      (firstVerdict Scope.excluded isDirectory inRepository))) == .ignored

/-- The directories around an entry of the directory that the given ones are around. -/
def inner (scopes : List (Scope × Text)) (name : Text) : List (Scope × Text) :=
  scopes.map fun (scope, path) => (scope, Path.join path name)

end Ignore

open Ignore (Scope)

/-- A file met on a walk. -/
structure WalkedFile where
  path : Text
  content : Bytes

namespace FileTree

/-- What comes with names is in the order of the names. -/
def inOrder {α : Type} (a b : Text × α) : Bool := List.le a.1 b.1

mutual

/-- The files of a tree that is reached by a path. The scopes are those of the directories around
it, the nearest first, each with the path from there to the tree. -/
def walkFrom (path : Text) (scopes : List (Scope × Text)) : FileTree → List WalkedFile
  | file content => [⟨path, content⟩]
  | directory entries =>
    let scopes := (Scope.ofDirectory (directory entries), []) :: scopes
    ((walkEntries path scopes entries).mergeSort inOrder).flatMap Prod.snd

/-- The files of each entry of a directory, with the name of the entry. -/
def walkEntries (path : Text) (scopes : List (Scope × Text)) :
    List (Text × FileTree) → List (Text × List WalkedFile)
  | [] => []
  | (name, tree) :: entries =>
    let inner := Ignore.inner scopes name
    let files :=
      if Ignore.excludes (inner.map fun (scope, path) => (scope, Utf8.encode path)) tree.isDirectory
      then []
      else walkFrom (Path.join path name) inner tree
    (name, files) :: walkEntries path scopes entries

end

end FileTree

namespace Location

/-- The scopes of the directories around a place, the nearest first, each with the path from there
to the place. -/
def scopes (l : Location) : List (Scope × Text) :=
  l.around.foldr
    (fun (dir, name) outer => (Scope.ofDirectory dir, name) :: Ignore.inner outer name) []

/-- The files at or below a path. A hyphen stands for no file at all. -/
def walk (l : Location) (path : Text) : Except IoError (List WalkedFile) :=
  if path = ['-'] then .ok []
  else match l.find path with
    | .ok found => .ok (found.node.walkFrom path found.scopes)
    | .error e => .error (.walk (String.ofList path) e)

end Location

end Glossator
