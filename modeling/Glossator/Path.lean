import Glossator.Text.Basic

/-!
# Paths

A path is a text whose components are separated by slashes. The file name is the last component
that names something; its extension is what follows its last dot.
-/

set_option autoImplicit false

namespace Glossator.Path

/-- The components of a path, empty ones included. -/
def components (path : Text) : List Text := path.splitAt (· = '/')

/-- The last component, leaving aside empty ones and single dots at the end; a path that ends by
going up has no file name. -/
def fileName? (path : Text) : Option Text :=
  match (components path).reverse.dropWhile fun c => c == [] || c == ['.'] with
  | [] => none
  | name :: _ => if name == ['.', '.'] then none else some name

/-- What follows the last dot of a name; a dot at its very start opens no extension. -/
def extensionOfName? (name : Text) : Option Text :=
  let afterDot := (name.reverse.takeWhile (· ≠ '.')).reverse
  if afterDot.length + 1 < name.length then some afterDot else none

/-- The extension of the file a path names. -/
def extension? (path : Text) : Option Text := (fileName? path).bind extensionOfName?

/-- A path joined with a further component. -/
def join (directory name : Text) : Text :=
  if directory.isEmpty || directory.getLast? == some '/' then directory ++ name
  else directory ++ '/' :: name

end Glossator.Path
