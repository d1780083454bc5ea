import Glossator.Engine

/-!
# Sessions

Calls to one engine in a row. A session keeps the requests that the service of its engine has
received; nothing else passes from one call to the next.
-/

set_option autoImplicit false

namespace Glossator

/-- What an engine can be asked for. -/
inductive Call where
  | extract (file : String) (content : Bytes)
  | prepare (file : String) (content : Bytes)
  | comment (file : String) (content : Bytes)
  | detect (file : String) (t : Text)
  | languages
  | config

/-- What an engine answers. -/
inductive Answer where
  | extraction (e : Extraction)
  | request (r : CommentRequest)
  | comment (c : Comment)
  | language (l : Option Language)
  | languages (ls : List (Language × Bool))
  | config (c : Config)
  | failure (e : Error)
deriving DecidableEq, Repr

/-- The answer of a call that may fail. -/
def Answer.of {α : Type} (ok : α → Answer) : Except Error α → Answer
  | .ok a => ok a
  | .error e => failure e

/-- An engine and the requests that its service has received, in order. -/
structure Session where
  engine : Engine
  received : List CommentRequest := []

namespace Session

/-- The session after its service, if there is one, has received a request. -/
def receive (s : Session) (request : CommentRequest) : Session :=
  match s.engine.service with
  | some _ => { s with received := s.received ++ [request] }
  | none => s

/-- The answer to a call and the session after it. -/
def answer (s : Session) : Call → Answer × Session
  | .extract file content => (.of .extraction (s.engine.extract file content), s)
  | .prepare file content => (.of .request (s.engine.prepare file content), s)
  | .comment file content =>
    match s.engine.prepare file content with
    | .ok request => (.of .comment (s.engine.comment request), s.receive request)
    | .error e => (.failure e, s)
  | .detect file t => (.language (s.engine.detect file t), s)
  | .languages => (.languages Engine.languages, s)
  | .config => (.config s.engine.config, s)

/-- The answers to calls in a row and the session after them. -/
def run (s : Session) : List Call → List Answer × Session
  | [] => ([], s)
  | call :: calls =>
    let (a, s) := s.answer call
    let (as, s) := run s calls
    (a :: as, s)

/-- No call changes the engine. -/
theorem engine_answer (s : Session) (call : Call) : (s.answer call).2.engine = s.engine := by
  cases call with
  | comment file content =>
    simp only [answer]
    split
    · simp only [receive]
      split <;> rfl
    · rfl
  | _ => rfl

end Session

end Glossator
