import Glossator.Comment.Request
import Glossator.Error

/-!
# Comment services

A service writes the comment for a request, or fails.
-/

set_option autoImplicit false

namespace Glossator

/-- Something that writes comments. -/
structure Service where
  name : String
  answer : CommentRequest → Except Error String

namespace Service

/-- A text with every mention of a name in braces replaced. -/
def fillIn (name : String) (value : String) (t : Text) : Text :=
  Text.replace ('{' :: (name.toList ++ ['}'])) value.toList t

/-- A service that answers with a text in which the task and the name of the function are filled
in, one after the other. -/
def ofTemplate (template : String) : Service where
  name := "template"
  answer request :=
    .ok (String.ofList (fillIn "name" request.description.displayName
      (fillIn "task" request.task template.toList)))

/-- A service that always fails. -/
def failing (message : String) : Service where
  name := "failing"
  answer _ := .error (.backend message)

end Service

end Glossator
