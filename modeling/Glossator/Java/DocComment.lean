import Glossator.Text.Basic

/-!
# The text of documentation comments

The markers of comments and the stars at the start of their lines are dropped; so are the blank
lines at the very start and end.
-/

set_option autoImplicit false

namespace Glossator.Java

/-- The text without one of several prefixes, the first that fits. -/
def withoutPrefix (starts : List String) (t : Text) : Text :=
  (starts.findSome? fun s => Text.after? s.toList t).getD t

/-- The text without a suffix, if it ends with it. -/
def withoutSuffix (finish : String) (t : Text) : Text := (Text.before? finish.toList t).getD t

/-- One line of a comment without its marker or the star it starts with. -/
def cleanCommentLine (line : Text) : Text :=
  match Text.after? "//".toList (Text.trim line) with
  | some comment => Text.trim comment
  | none =>
    match Text.trimStart line with
    | '*' :: body => Text.trim body
    | body => Text.trim body

/-- The text of the comments before a declaration; none if they are blank. -/
def cleanComment? (raw : Text) : Option Text :=
  let body := withoutSuffix "*/" (withoutPrefix ["/**", "/*"] (Text.trim raw))
  let lines := body.lines.map cleanCommentLine
  let fromFirst := lines.dropWhile List.isEmpty
  match (fromFirst.reverse.dropWhile List.isEmpty).reverse with
  | [] => none
  | kept => some (Text.join ['\n'] kept)

end Glossator.Java
