import Glossator.FunctionRecord
import Glossator.Json.Printer

/-!
# Comment requests

What a comment is asked for: the task, the code around the function, and the function itself. Only
these three are sent; what the function is called and how it was read stays here.
-/

set_option autoImplicit false

namespace Glossator

/-- A request for the comment of one function. -/
structure CommentRequest where
  task : String
  code : String
  /-- The text of the function. -/
  function : String
  language : Language
  description : FunctionRecord
deriving DecidableEq, Repr

/-- What is sent of a request. -/
def CommentRequest.payload (r : CommentRequest) : Json :=
  .object [("task", .string r.task), ("code", .string r.code), ("function", .string r.function)]

/-- A function and the comment written for it. -/
structure Comment where
  comment : String
  function : String
deriving DecidableEq, Repr

/-- The fields of a comment, in order. -/
def Comment.toJson (c : Comment) : Json :=
  .object [("comment", .string c.comment), ("function", .string c.function)]

end Glossator
